import ConceptLogic.Ontology.Call
import ConceptLogic.Proofs.Ontology.WellFormed
import Mathlib.Logic.Basic

namespace ConceptLogic

/-- The outcome of work that either comes to an end, which is so exactly if `p`
holds, or is refused and leaves everything as it was. -/
def Building.Yields {α : Type} (x : Building α) (o : Ontology) (p : Prop) (a : α) (o' : Ontology) : Prop :=
  (p → x.run o = .ok a o') ∧ (¬p → ∃ fault, x.run o = .error fault o)

namespace Building.Yields

variable {α β : Type} {o o' : Ontology} {p q : Prop}

theorem pure (a : α) : (Pure.pure a : Building α).Yields o True a o :=
  ⟨fun _ => rfl, fun no => absurd trivial no⟩

theorem congr {x : Building α} {a : α} (yields : x.Yields o p a o') (same : p ↔ q) : x.Yields o q a o' :=
  ⟨fun holds => yields.1 (same.mpr holds), fun fails => yields.2 fun holds => fails (same.mp holds)⟩

theorem bind {x : Building α} {f : α → Building β} {a : α} {b : β} (first : x.Yields o p a o)
    (next : p → (f a).Yields o q b o') : (x >>= f).Yields o (p ∧ q) b o' := by
  by_cases holds : p
  · have run : (x >>= f).run o = (f a).run o := by rw [EStateM.run_bind, first.1 holds]
    exact ⟨fun both => run.trans ((next holds).1 both.2),
      fun fails => run ▸ (next holds).2 fun last => fails ⟨holds, last⟩⟩
  · obtain ⟨fault, refused⟩ := first.2 holds
    refine ⟨fun both => absurd both.1 holds, fun _ => ⟨fault, ?_⟩⟩
    rw [EStateM.run_bind, refused]

theorem map {x : Building α} {f : α → β} {a : α} (yields : x.Yields o p a o') :
    (f <$> x).Yields o p (f a) o' := by
  rw [map_eq_pure_bind]
  constructor
  · intro holds
    rw [EStateM.run_bind, yields.1 holds]
    rfl
  · intro fails
    obtain ⟨fault, refused⟩ := yields.2 fails
    rw [EStateM.run_bind, refused]
    exact ⟨fault, rfl⟩

/-- Work whose answer is put into another form. -/
theorem answered {x : Building α} {f : α → β} {a : α} (yields : x.Yields o p a o') :
    (do return f (← x) : Building β).Yields o p (f a) o' := by
  rw [← map_eq_pure_bind]
  exact yields.map

/-- Work that waits for a check. -/
theorem after {check : Building Unit} {x : Building α} {a : α} (first : check.Yields o p () o)
    (next : x.Yields o q a o') : (do check; x : Building α).Yields o (p ∧ q) a o' :=
  first.bind fun _ => next

theorem refused (fault : Fault) {a : α} : (throw fault : Building α).Yields o False a o' :=
  ⟨False.elim, fun _ => ⟨fault, rfl⟩⟩

theorem forM {f : α → Building Unit} {known : α → Prop} (each : ∀ a, (f a).Yields o (known a) () o)
    (as : List α) : (as.forM f).Yields o (∀ a ∈ as, known a) () o := by
  induction as with
  | nil => exact (pure ()).congr (by simp)
  | cons a as ih => exact ((each a).bind fun _ => ih).congr (by simp)

theorem mapM {f : α → Building β} {known : α → Prop} {g : α → β}
    (each : ∀ a, (f a).Yields o (known a) (g a) o) (as : List α) :
    (as.mapM f).Yields o (∀ a ∈ as, known a) (as.map g) o := by
  induction as with
  | nil => exact (pure []).congr (by simp)
  | cons a as ih =>
    rw [List.mapM_cons]
    exact ((each a).bind fun _ => ih.bind fun _ => pure (g a :: as.map g)).congr (by simp)

theorem require {f : Ontology → Option α} {fault : Fault} :
    Building.Yields (do if (f (← get)).isNone then throw fault) o (∃ a, f o = some a) () o := by
  have run : (do if (f (← get)).isNone then throw fault : Building Unit).run o =
      if (f o).isNone then .error fault o else .ok () o := by
    rw [EStateM.run_bind, EStateM.run_get]
    dsimp only
    split <;> rfl
  constructor
  · rintro ⟨a, found⟩
    rw [run, found]
    rfl
  · intro unknown
    refine ⟨fault, ?_⟩
    rw [run, Option.eq_none_iff_forall_ne_some.mpr fun a found => unknown ⟨a, found⟩]
    rfl

theorem get_bind {f : Ontology → Building β} {b : β} (next : (f o).Yields o p b o') :
    (get >>= f).Yields o p b o' := next

/-- Work that comes to an end met its condition. -/
theorem of_ok {x : Building α} {a b : α} {o'' : Ontology} (yields : x.Yields o p a o')
    (run : x.run o = .ok b o'') : p ∧ b = a ∧ o'' = o' := by
  by_cases holds : p
  · rw [yields.1 holds] at run
    cases run
    exact ⟨holds, rfl, rfl⟩
  · obtain ⟨fault, refused⟩ := yields.2 holds
    rw [refused] at run
    cases run

theorem run_eq_ok_iff {x : Building α} {a b : α} (yields : x.Yields o p a o') :
    x.run o = .ok b o' ↔ p ∧ a = b := by
  constructor
  · intro run
    obtain ⟨holds, same, _⟩ := yields.of_ok run
    exact ⟨holds, same.symm⟩
  · rintro ⟨holds, rfl⟩
    exact yields.1 holds

theorem of_error {x : Building α} {a : α} {o'' : Ontology} {fault : Fault} (yields : x.Yields o p a o')
    (run : x.run o = .error fault o'') : ¬p ∧ o'' = o := by
  by_cases holds : p
  · rw [yields.1 holds] at run
    cases run
  · obtain ⟨fault', refused⟩ := yields.2 holds
    rw [refused] at run
    cases run
    exact ⟨holds, rfl⟩

end Building.Yields

namespace Ontology

variable {o : Ontology}

/-- A name that nothing has. -/
def Fresh (o : Ontology) (name : String) : Prop :=
  o.conceptNamed? name = none ∧ o.individualNamed? name = none ∧ o.relationNamed? name = none

def adding (o : Ontology) (entry : Entry) : Ontology := ⟨o.entries.push entry⟩

/-- The concept kept for an expression, or the one that is made for it. -/
def keptAs (o : Ontology) (e : Expression) : ConceptId := (o.conceptOf? e).getD ⟨o.size + 1⟩

def keeping (o : Ontology) (e : Expression) : Ontology :=
  match o.conceptOf? e with
  | some _ => o
  | none => o.adding (.concept e [] [])

/-- The parts of a known concept under a connective. -/
def partsUnder (o : Ontology) (operands? : Expression → Option (List ConceptId)) (c : ConceptId) :
    List ConceptId :=
  match o.expression? c with
  | none => []
  | some e => (operands? e).getD [c]

/-- What a connective joins in the end: the parts of all that it is given. -/
def joined (o : Ontology) (operands? : Expression → Option (List ConceptId)) (cs : List ConceptId) :
    List ConceptId :=
  Handle.sorted (cs.map (o.partsUnder operands?)).flatten

def changing (o : Ontology) (id : Nat) (f : Entry → Entry) : Ontology := ⟨o.entries.modify (id - 1) f⟩

theorem adding_thing? {entry : Entry} {n : Nat} :
    (o.adding entry).thing? n = if n = o.size + 1 then some entry else o.thing? n := by
  cases n with
  | zero => rfl
  | succ n =>
    change (o.entries.push entry)[n]? = if n + 1 = o.entries.size + 1 then some entry else o.entries[n]?
    rw [Array.getElem?_push]
    by_cases last : n = o.entries.size
    · simp [last]
    · simp [last]

theorem changing_thing? {id n : Nat} {f : Entry → Entry} (positive : 1 ≤ id) :
    (o.changing id f).thing? n = if n = id then (o.thing? n).map f else o.thing? n := by
  cases n with
  | zero =>
    have differ : ¬(0 = id) := by omega
    simp [thing?, differ]
  | succ n =>
    change (o.entries.modify (id - 1) f)[n]? =
      if n + 1 = id then o.entries[n]?.map f else o.entries[n]?
    rw [Array.getElem?_modify]
    by_cases here : n + 1 = id
    · have index : id - 1 = n := by omega
      simp [here, index]
    · have elsewhere : ¬(id - 1 = n) := by omega
      simp [here, elsewhere]

/-- What is told of the newest thing might have been there from the start. -/
theorem adding_changing {f : Entry → Entry} :
    (o.adding entry).changing (o.size + 1) f = o.adding (f entry) := by
  unfold adding changing
  congr 1
  refine Array.ext_getElem? fun n => ?_
  rw [Nat.add_sub_cancel, Array.getElem?_modify, Array.getElem?_push, Array.getElem?_push]
  by_cases last : n = o.entries.size
  · simp [size, last]
  · have elsewhere : ¬o.size = n := Ne.symm last
    rw [if_neg elsewhere, if_neg last, if_neg last]

/-- What is found is there. -/
theorem find?_sound {p : Entry → Bool} {n : Nat} (found : o.find? p = some n) :
    ∃ entry, o.thing? n = some entry ∧ p entry = true := by
  obtain ⟨k, atK, rfl⟩ := Option.map_eq_some_iff.mp found
  obtain ⟨below, matched, _⟩ := Array.findIdx?_eq_some_iff_getElem.mp atK
  exact ⟨o.entries[k], Array.getElem?_eq_getElem below, matched⟩

theorem conceptOf?_sound {e : Expression} {c : ConceptId} (found : o.conceptOf? e = some c) :
    o.expression? c = some e := by
  obtain ⟨n, atN, rfl⟩ := Option.map_eq_some_iff.mp found
  obtain ⟨entry, there, matched⟩ := find?_sound atN
  cases entry with
  | concept e' isA equivalentTo =>
    exact expression?_eq_some.mpr ⟨isA, equivalentTo, of_decide_eq_true matched ▸ there⟩
  | _ => cases matched

theorem keeping_expression? (o : Ontology) (e : Expression) :
    (o.keeping e).expression? (o.keptAs e) = some e := by
  unfold keeping keptAs
  split
  · rename_i c found
    rw [found]
    exact conceptOf?_sound found
  · rename_i missing
    rw [missing]
    refine expression?_eq_some.mpr ⟨[], [], ?_⟩
    rw [adding_thing?]
    exact if_pos rfl

theorem mem_joined {operands? : Expression → Option (List ConceptId)} {cs : List ConceptId} {x : ConceptId} :
    x ∈ o.joined operands? cs ↔ ∃ c ∈ cs, x ∈ o.partsUnder operands? c := by
  rw [joined, Handle.mem_sorted, List.mem_flatten]
  simp

end Ontology

namespace Building

variable {o : Ontology}

theorem add_yields (entry : Entry) : (add entry).Yields o True (o.size + 1) (o.adding entry) :=
  ⟨fun _ => rfl, fun no => absurd trivial no⟩

theorem change_yields (id : Nat) (f : Entry → Entry) :
    (change id f).Yields o True () (o.changing id f) :=
  ⟨fun _ => rfl, fun no => absurd trivial no⟩

theorem requireFresh_yields (name : String) : (requireFresh name).Yields o (o.Fresh name) () o := by
  have run : (requireFresh name).run o =
      if (o.conceptNamed? name).isSome || (o.individualNamed? name).isSome ||
        (o.relationNamed? name).isSome then .error (.alreadyExists name) o else .ok () o := by
    unfold requireFresh
    rw [EStateM.run_bind, EStateM.run_get]
    dsimp only
    split <;> rfl
  have fresh : (o.conceptNamed? name).isSome || (o.individualNamed? name).isSome ||
      (o.relationNamed? name).isSome ↔ ¬o.Fresh name := by
    simp only [Ontology.Fresh, Bool.or_eq_true, Option.isSome_iff_ne_none, not_and_or, or_assoc, ne_eq]
  refine ⟨fun holds => ?_, fun fails => ⟨.alreadyExists name, ?_⟩⟩
  · rw [run, if_neg (fun taken => fresh.mp taken holds)]
  · rw [run, if_pos (fresh.mpr fails)]

theorem requireConcept_yields (c : ConceptId) : (requireConcept c).Yields o (o.Knows (.concept c)) () o :=
  .require

theorem requireIndividual_yields (i : IndividualId) :
    (requireIndividual i).Yields o (o.Knows (.individual i)) () o :=
  .require

theorem requireRelation_yields (r : RelationId) :
    (requireRelation r).Yields o (o.Knows (.relation r)) () o :=
  .require

theorem keep_yields (e : Expression) : (keep e).Yields o True (o.keptAs e) (o.keeping e) := by
  refine Yields.get_bind ?_
  unfold Ontology.keptAs Ontology.keeping
  split
  · rename_i c found
    rw [found]
    exact .pure c
  · rename_i missing
    rw [missing]
    exact (add_yields _).answered

theorem createConcept_yields (name : String) (bases : List ConceptId) :
    (createConcept name bases).Yields o (o.Fresh name ∧ ∀ b ∈ bases, o.Knows (.concept b)) ⟨o.size + 1⟩
      (o.adding (.concept (.named name) (if bases.isEmpty then [Ontology.top] else bases) [])) :=
  ((requireFresh_yields name).after
    ((Yields.forM requireConcept_yields bases).after (add_yields _).answered)).congr (by simp)

theorem createIndividual_yields (name : String) (type : ConceptId) :
    (createIndividual name type).Yields o (o.Fresh name ∧ o.Knows (.concept type)) ⟨o.size + 1⟩
      (o.adding (.individual name [type])) :=
  ((requireFresh_yields name).after
    ((requireConcept_yields type).after (add_yields _).answered)).congr (by simp)

theorem createRelation_yields (name : String) (supers : List RelationId) :
    (createRelation name supers).Yields o (o.Fresh name ∧ ∀ s ∈ supers, o.Knows (.relation s)) ⟨o.size + 1⟩
      (o.adding (.relation name supers none)) :=
  ((requireFresh_yields name).after
    ((Yields.forM requireRelation_yields supers).after (add_yields _).answered)).congr (by simp)

theorem addIsA_concept_yields (d c : ConceptId) :
    (addIsA (.concept d) c).Yields o (o.Knows (.concept c) ∧ o.Knows (.concept d)) ()
      (o.changing d.id (.tellIsA c)) :=
  ((requireConcept_yields c).after
    ((requireConcept_yields d).after (change_yields _ _))).congr (by simp)

theorem addIsA_individual_yields (i : IndividualId) (c : ConceptId) :
    (addIsA (.individual i) c).Yields o (o.Knows (.concept c) ∧ o.Knows (.individual i)) ()
      (o.changing i.id (.tellIsA c)) :=
  ((requireConcept_yields c).after
    ((requireIndividual_yields i).after (change_yields _ _))).congr (by simp)

theorem addIsA_relation_yields (r : RelationId) (c : ConceptId) :
    (addIsA (.relation r) c).Yields o False () o :=
  ((requireConcept_yields c).after (.refused _)).congr (by simp)

theorem addEquivalence_concept_yields (d c : ConceptId) :
    (addEquivalence (.concept d) c).Yields o (o.Knows (.concept c) ∧ o.Knows (.concept d)) ()
      ((o.changing d.id (.tellEquivalent c)).changing c.id (.tellEquivalent d)) := by
  have tell : (do change d.id (.tellEquivalent c); change c.id (.tellEquivalent d) : Building Unit).Yields o
      True () ((o.changing d.id (.tellEquivalent c)).changing c.id (.tellEquivalent d)) :=
    ⟨fun _ => rfl, fun no => absurd trivial no⟩
  exact ((requireConcept_yields c).after ((requireConcept_yields d).after tell)).congr (by simp)

theorem addEquivalence_other_yields {e : Entity} (c : ConceptId) (other : ∀ d, e ≠ .concept d) :
    (addEquivalence e c).Yields o False () o := by
  have refused : (do throw (.conceptsOnly ((← get).conceptText c)) : Building Unit).Yields o False () o :=
    .get_bind (.refused _)
  cases e with
  | concept d => exact absurd rfl (other d)
  | individual => exact ((requireConcept_yields c).after refused).congr (by simp)
  | relation => exact ((requireConcept_yields c).after refused).congr (by simp)

theorem setSignature_yields (r : RelationId) (domain range : ConceptId) :
    (setSignature r domain range).Yields o
      (o.Knows (.relation r) ∧ o.Knows (.concept domain) ∧ o.Knows (.concept range)) ()
      (o.changing r.id (.sign (domain, range))) :=
  ((requireRelation_yields r).after ((requireConcept_yields domain).after
    ((requireConcept_yields range).after (change_yields _ _)))).congr (by simp)

theorem parts_yields (operands? : Expression → Option (List ConceptId)) (c : ConceptId) :
    (parts operands? c).Yields o (o.Knows (.concept c)) (o.partsUnder operands? c) o := by
  refine .get_bind ?_
  unfold Ontology.partsUnder
  cases found : o.expression? c with
  | none => exact (Yields.refused _).congr (by simp [Ontology.Knows, found])
  | some e => exact (Yields.pure _).congr (by simp [Ontology.Knows, found])

/-- A connective that is given known concepts joins their parts. One part alone is
the answer itself. -/
theorem connect_yields (operands? : Expression → Option (List ConceptId))
    (make : List ConceptId → Expression) (cs : List ConceptId) :
    (connect operands? make cs).Yields o
      ((∀ c ∈ cs, o.Knows (.concept c)) ∧ o.joined operands? cs ≠ [])
      (match o.joined operands? cs with
        | [c] => c
        | parts => o.keptAs (make parts))
      (match o.joined operands? cs with
        | [_] => o
        | parts => o.keeping (make parts)) := by
  refine (Yields.mapM (parts_yields operands?) cs).bind fun _ => ?_
  rw [← Ontology.joined]
  cases o.joined operands? cs with
  | nil => exact (Yields.refused _).congr (by simp)
  | cons c rest =>
    cases rest with
    | nil => exact (Yields.pure c).congr (by simp)
    | cons d rest => exact (keep_yields _).congr (by simp)

theorem negation_yields (c : ConceptId) :
    (negation c).Yields o (o.Knows (.concept c))
      (match o.expression? c with
        | some (.negation x) => x
        | _ => o.keptAs (.negation c))
      (match o.expression? c with
        | some (.negation _) => o
        | _ => o.keeping (.negation c)) := by
  refine .get_bind ?_
  cases found : o.expression? c with
  | none => exact (Yields.refused _).congr (by simp [Ontology.Knows, found])
  | some e =>
    cases e with
    | negation x => exact (Yields.pure _).congr (by simp [Ontology.Knows, found])
    | _ => exact (keep_yields _).congr (by simp [Ontology.Knows, found])

theorem nominal_yields (is : List IndividualId) :
    (nominal is).Yields o (∀ i ∈ is, o.Knows (.individual i)) (o.keptAs (.nominal (Handle.sorted is)))
      (o.keeping (.nominal (Handle.sorted is))) :=
  ((Yields.forM requireIndividual_yields is).after (keep_yields _)).congr (by simp)

theorem restriction_yields (q : Quantifier) (r : RelationId) (c : ConceptId) :
    (restriction q r c).Yields o (o.Knows (.relation r) ∧ o.Knows (.concept c))
      (o.keptAs (.restriction q r c)) (o.keeping (.restriction q r c)) :=
  ((requireRelation_yields r).after ((requireConcept_yields c).after (keep_yields _))).congr (by simp)

theorem isSubsumedBy_yields (c d : ConceptId) :
    (isSubsumedBy c d).Yields o (o.Knows (.concept c) ∧ o.Knows (.concept d))
      (o.answer (.subsumed c d)) o := by
  have ask : (do return (← get).answer (.subsumed c d) : Building Bool).Yields o True
      (o.answer (.subsumed c d)) o := .get_bind (.pure _)
  exact ((requireConcept_yields c).after ((requireConcept_yields d).after ask)).congr (by simp)

theorem isInstanceOf_yields (i : IndividualId) (c : ConceptId) :
    (isInstanceOf i c).Yields o (o.Knows (.individual i) ∧ o.Knows (.concept c))
      (o.answer (.member i c)) o := by
  have ask : (do return (← get).answer (.member i c) : Building Bool).Yields o True
      (o.answer (.member i c)) o := .get_bind (.pure _)
  exact ((requireIndividual_yields i).after ((requireConcept_yields c).after ask)).congr (by simp)

theorem isEquivalentTo_yields (c d : ConceptId) :
    (isEquivalentTo c d).Yields o (o.Knows (.concept c) ∧ o.Knows (.concept d))
      (o.answer (.subsumed c d) && o.answer (.subsumed d c)) o := by
  refine ((isSubsumedBy_yields c d).bind fun known => ?_).congr (and_iff_left_of_imp fun _ => trivial)
  cases o.answer (.subsumed c d) with
  | false => exact .pure false
  | true => exact (isSubsumedBy_yields d c).congr ⟨fun _ => trivial, fun _ => known.symm⟩

end Building

end ConceptLogic
