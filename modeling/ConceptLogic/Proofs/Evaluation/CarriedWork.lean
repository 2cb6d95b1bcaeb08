import ConceptLogic.Proofs.Evaluation.QuietStatements
import ConceptLogic.Proofs.Evaluation.Renaming

namespace ConceptLogic

/-- Whether work comes out in the state that stands for a first one as other work does in that: with the result
that stands for the other one, or with an error like the other one, and in either case in the state that stands
for the one left by the other. -/
def Carries {ε σ α β : Type} (E : ε → ε → Prop) (move : σ → σ) (f : α → β) (x : EStateM ε σ α) (s : σ)
    (y : EStateM ε σ β) : Prop :=
  match x.run s with
  | .ok a s' => y.run (move s) = .ok (f a) (move s')
  | .error e s' => ∃ e', y.run (move s) = .error e' (move s') ∧ E e e'

namespace Carries

variable {ε σ α β γ δ : Type} {E : ε → ε → Prop} {move : σ → σ} {f : α → β} {g : γ → δ} {x : EStateM ε σ α}
  {y : EStateM ε σ β} {s : σ}

theorem pure (a : α) : Carries E move f (Pure.pure a : EStateM ε σ α) s (Pure.pure (f a)) :=
  rfl

theorem throw {e e' : ε} (like : E e e') :
    Carries E move f (throw e : EStateM ε σ α) s (throw e' : EStateM ε σ β) :=
  ⟨e', rfl, like⟩

theorem bind {h : α → EStateM ε σ γ} {k : β → EStateM ε σ δ} (first : Carries E move f x s y)
    (next : ∀ a s', Carries E move g (h a) s' (k (f a))) : Carries E move g (x >>= h) s (y >>= k) := by
  unfold Carries at first ⊢
  rw [EStateM.run_bind, EStateM.run_bind]
  cases outcome : x.run s with
  | ok a s' =>
    rw [outcome] at first
    rw [first]
    exact next a s'
  | error e s' =>
    rw [outcome] at first
    obtain ⟨e', outcome', like⟩ := first
    rw [outcome']
    exact ⟨e', rfl, like⟩

theorem map {h : α → γ} {k : β → δ} (carries : Carries E move f x s y) (same : ∀ a, k (f a) = g (h a)) :
    Carries E move g (h <$> x) s (k <$> y) := by
  rw [map_eq_pure_bind, map_eq_pure_bind]
  exact carries.bind fun a s' => same a ▸ .pure (h a)

theorem get_bind {h : σ → EStateM ε σ γ} {k : σ → EStateM ε σ δ}
    (next : Carries E move g (h s) s (k (move s))) : Carries E move g (get >>= h) s (get >>= k) :=
  next

theorem mapM {h : γ → EStateM ε σ α} {k : δ → EStateM ε σ β}
    (each : ∀ c s, Carries E move f (h c) s (k (g c))) (cs : List γ) :
    Carries E move (List.map f) (cs.mapM h) s ((cs.map g).mapM k) := by
  induction cs generalizing s with
  | nil => exact .pure []
  | cons c cs ih =>
    rw [List.map_cons, List.mapM_cons, List.mapM_cons]
    exact (each c s).bind fun a _ => ih.bind fun as _ => .pure (a :: as)

theorem forM {h k : γ → EStateM ε σ Unit} (each : ∀ c s, Carries E move id (h c) s (k c)) (cs : List γ) :
    Carries E move id (cs.forM h) s (cs.forM k) := by
  induction cs generalizing s with
  | nil => exact .pure ()
  | cons c cs ih => exact (each c s).bind fun _ _ => ih

end Carries

namespace Renaming

variable (R : Renaming)

/-- Whether work on an ontology does the same under other names as other work does. -/
def Builds {α : Type} (b b' : Building α) : Prop :=
  ∀ o, Carries (fun fault fault' => fault' = fault.renamed R) (Ontology.renamed R) id b o b'

namespace Builds

variable {R} {α β : Type}

theorem pure (a : α) : R.Builds (Pure.pure a) (Pure.pure a) := fun _ => .pure a

theorem throw {fault fault' : Fault} (like : fault' = fault.renamed R) :
    R.Builds (throw fault : Building α) (throw fault') := fun _ => .throw like

theorem bind {b b' : Building α} {h k : α → Building β} (first : R.Builds b b')
    (next : ∀ a, R.Builds (h a) (k a)) : R.Builds (b >>= h) (b' >>= k) :=
  fun o => (first o).bind fun a o' => next a o'

/-- What is found out about an ontology, with no name in it. -/
theorem get_bind {h k : Ontology → Building α}
    (next : ∀ o, Carries (fun fault fault' => fault' = fault.renamed R) (Ontology.renamed R) id (h o) o
      (k (o.renamed R))) : R.Builds (get >>= h) (get >>= k) :=
  fun o => .get_bind (next o)

theorem forM {h k : β → Building Unit} (each : ∀ c, R.Builds (h c) (k c)) (cs : List β) :
    R.Builds (cs.forM h) (cs.forM k) := fun _ => .forM each cs

theorem mapM {h k : β → Building α} (each : ∀ c, R.Builds (h c) (k c)) (cs : List β) :
    R.Builds (cs.mapM h) (cs.mapM k) := by
  intro o
  have carries := Carries.mapM (g := id) (f := id) (s := o) each cs
  rwa [List.map_id_fun, List.map_id_fun] at carries

end Builds

open Building

section Building

theorem add_builds (entry : Entry) : R.Builds (add entry) (add (entry.renamed R)) := by
  intro o
  have pushed : (o.renamed R).entries.push (entry.renamed R) = (o.entries.push entry).map (Entry.renamed R) :=
    (Array.map_push ..).symm
  change EStateM.Result.ok ((o.renamed R).size + 1)
    (⟨(o.renamed R).entries.push (entry.renamed R)⟩ : Ontology) = _
  rw [pushed, Ontology.size_renamed]
  rfl

theorem change_builds (id : Nat) {f : Entry → Entry}
    (same : ∀ entry, f (entry.renamed R) = (f entry).renamed R) : R.Builds (change id f) (change id f) := by
  intro o
  have changed :
      (o.renamed R).entries.modify (id - 1) f = (o.entries.modify (id - 1) f).map (Entry.renamed R) := by
    apply Array.ext_getElem?
    intro n
    unfold Ontology.renamed
    rw [Array.getElem?_modify, Array.getElem?_map, Array.getElem?_map, Array.getElem?_modify]
    split
    · cases o.entries[n]? with
      | none => rfl
      | some entry => exact congrArg some (same entry)
    · rfl
  change EStateM.Result.ok () (⟨(o.renamed R).entries.modify (id - 1) f⟩ : Ontology) = _
  rw [changed]
  rfl

theorem keep_builds (e : Expression) : R.Builds (keep e) (keep (e.renamed R)) := by
  refine .get_bind fun o => ?_
  rw [Ontology.conceptOf?_renamed]
  cases o.conceptOf? e with
  | some c => exact .pure c
  | none => exact (R.add_builds (.concept e [] []) o).bind fun n _ => .pure (Handle.mk n)

theorem requireFresh_builds (name : String) : R.Builds (requireFresh name) (requireFresh (R.name name)) := by
  refine .get_bind fun o => ?_
  have concept : (o.renamed R).conceptNamed? (R.name name) = o.conceptNamed? name :=
    Ontology.conceptOf?_renamed R o (.named name)
  rw [concept, Ontology.individualNamed?_renamed, Ontology.relationNamed?_renamed]
  split
  · exact .throw rfl
  · exact .pure ()

theorem requireConcept_builds (c : ConceptId) : R.Builds (requireConcept c) (requireConcept c) := by
  refine .get_bind fun o => ?_
  rw [Ontology.expression?_renamed, Option.isNone_map]
  split
  · exact .throw rfl
  · exact .pure ()

theorem requireIndividual_builds (i : IndividualId) : R.Builds (requireIndividual i) (requireIndividual i) := by
  refine .get_bind fun o => ?_
  rw [Ontology.individualName?_renamed, Option.isNone_map]
  split
  · exact .throw rfl
  · exact .pure ()

theorem requireRelation_builds (r : RelationId) : R.Builds (requireRelation r) (requireRelation r) := by
  refine .get_bind fun o => ?_
  rw [Ontology.relationName?_renamed, Option.isNone_map]
  split
  · exact .throw rfl
  · exact .pure ()

theorem createConcept_builds (name : String) (bases : List ConceptId) :
    R.Builds (createConcept name bases) (createConcept (R.name name) bases) :=
  (R.requireFresh_builds name).bind fun _ => (Builds.forM R.requireConcept_builds bases).bind fun _ =>
    (R.add_builds (.concept (.named name) _ [])).bind fun n => .pure (Handle.mk n)

theorem createIndividual_builds (name : String) (type : ConceptId) :
    R.Builds (createIndividual name type) (createIndividual (R.name name) type) :=
  (R.requireFresh_builds name).bind fun _ => (R.requireConcept_builds type).bind fun _ =>
    (R.add_builds (.individual name [type])).bind fun n => .pure (Handle.mk n)

theorem createRelation_builds (name : String) (supers : List RelationId) :
    R.Builds (createRelation name supers) (createRelation (R.name name) supers) :=
  (R.requireFresh_builds name).bind fun _ => (Builds.forM R.requireRelation_builds supers).bind fun _ =>
    (R.add_builds (.relation name supers none)).bind fun n => .pure (Handle.mk n)

theorem addIsA_builds (e : Entity) (c : ConceptId) : R.Builds (addIsA e c) (addIsA e c) := by
  have told : ∀ id, R.Builds (change id (.tellIsA c)) (change id (.tellIsA c)) := fun id =>
    R.change_builds id fun entry => by cases entry <;> rfl
  refine (R.requireConcept_builds c).bind fun _ => ?_
  cases e with
  | concept d => exact (R.requireConcept_builds d).bind fun _ => told d.id
  | individual i => exact (R.requireIndividual_builds i).bind fun _ => told i.id
  | relation => exact .throw rfl

/-- That concepts are the same is told of concepts only. -/
theorem addEquivalence_builds (d c : ConceptId) :
    R.Builds (addEquivalence (.concept d) c) (addEquivalence (.concept d) c) := by
  have told : ∀ id x, R.Builds (change id (.tellEquivalent x)) (change id (.tellEquivalent x)) := fun id x =>
    R.change_builds id fun entry => by cases entry <;> rfl
  exact (R.requireConcept_builds c).bind fun _ => (R.requireConcept_builds d).bind fun _ =>
    (told d.id c).bind fun _ => told c.id d

theorem setSignature_builds (r : RelationId) (domain range : ConceptId) :
    R.Builds (setSignature r domain range) (setSignature r domain range) :=
  (R.requireRelation_builds r).bind fun _ => (R.requireConcept_builds domain).bind fun _ =>
    (R.requireConcept_builds range).bind fun _ => R.change_builds r.id fun entry => by cases entry <;> rfl

/-- Operands are joined by how they are made, in the order of their numbers. -/
theorem connect_builds {operands? : Expression → Option (List ConceptId)} {make : List ConceptId → Expression}
    (blind : ∀ e, operands? (e.renamed R) = operands? e) (nameless : ∀ cs, (make cs).renamed R = make cs)
    (cs : List ConceptId) : R.Builds (connect operands? make cs) (connect operands? make cs) := by
  have part : ∀ c, R.Builds (parts operands? c) (parts operands? c) := by
    refine fun c => .get_bind fun o => ?_
    rw [Ontology.expression?_renamed]
    cases o.expression? c with
    | none => exact .throw rfl
    | some e =>
      dsimp only [Option.map]
      rw [blind]
      exact .pure ((operands? e).getD [c])
  refine (Builds.mapM part cs).bind fun all => ?_
  split
  · exact .throw rfl
  · exact .pure _
  · have keeps := R.keep_builds (make (Handle.sorted all.flatten))
    rwa [nameless] at keeps

theorem conjunction_builds (cs : List ConceptId) : R.Builds (conjunction cs) (conjunction cs) :=
  R.connect_builds (fun e => by cases e <;> rfl) (fun _ => rfl) cs

theorem disjunction_builds (cs : List ConceptId) : R.Builds (disjunction cs) (disjunction cs) :=
  R.connect_builds (fun e => by cases e <;> rfl) (fun _ => rfl) cs

theorem negation_builds (c : ConceptId) : R.Builds (negation c) (negation c) := by
  refine .get_bind fun o => ?_
  rw [Ontology.expression?_renamed]
  rcases o.expression? c with _ | e
  · exact .throw rfl
  · cases e with
    | negation x => exact .pure x
    | _ => exact R.keep_builds (.negation c) o

theorem nominal_builds (is : List IndividualId) : R.Builds (nominal is) (nominal is) :=
  (Builds.forM R.requireIndividual_builds is).bind fun _ => R.keep_builds (.nominal (Handle.sorted is))

theorem restriction_builds (q : Quantifier) (r : RelationId) (c : ConceptId) :
    R.Builds (restriction q r c) (restriction q r c) :=
  (R.requireRelation_builds r).bind fun _ => (R.requireConcept_builds c).bind fun _ =>
    R.keep_builds (.restriction q r c)

theorem isSubsumedBy_builds (c d : ConceptId) : R.Builds (isSubsumedBy c d) (isSubsumedBy c d) := by
  refine (R.requireConcept_builds c).bind fun _ => (R.requireConcept_builds d).bind fun _ => ?_
  refine .get_bind fun o => ?_
  rw [Ontology.answer_renamed]
  exact .pure _

theorem isInstanceOf_builds (i : IndividualId) (c : ConceptId) :
    R.Builds (isInstanceOf i c) (isInstanceOf i c) := by
  refine (R.requireIndividual_builds i).bind fun _ => (R.requireConcept_builds c).bind fun _ => ?_
  refine .get_bind fun o => ?_
  rw [Ontology.answer_renamed]
  exact .pure _

theorem isEquivalentTo_builds (c d : ConceptId) : R.Builds (isEquivalentTo c d) (isEquivalentTo c d) := by
  refine (R.isSubsumedBy_builds c d).bind fun b => ?_
  cases b with
  | true => exact R.isSubsumedBy_builds d c
  | false => exact .pure false

theorem compares_builds (op : Operator) (c d : ConceptId) : R.Builds (op.compares c d) (op.compares c d) := by
  have strictly : ∀ c d x y, R.Builds
      (do if ← isSubsumedBy c d then return !(← isEquivalentTo x y) else return false)
      (do if ← isSubsumedBy c d then return !(← isEquivalentTo x y) else return false) := by
    refine fun c d x y => (R.isSubsumedBy_builds c d).bind fun b => ?_
    cases b with
    | true => exact (R.isEquivalentTo_builds x y).bind fun b => .pure !b
    | false => exact .pure false
  cases op with
  | subsumedBy => exact R.isSubsumedBy_builds c d
  | subsumes => exact R.isSubsumedBy_builds d c
  | strictlySubsumedBy => exact strictly c d c d
  | strictlySubsumes => exact strictly d c c d
  | equivalentTo => exact R.isEquivalentTo_builds c d
  | _ => exact .pure false

theorem either_builds (c d : ConceptId) : R.Builds (Operator.either c d) (Operator.either c d) :=
  (R.negation_builds d).bind fun _ => (R.negation_builds c).bind fun _ => (R.conjunction_builds _).bind fun _ =>
    (R.conjunction_builds _).bind fun _ => R.disjunction_builds _

theorem foldlM_either_builds (c : ConceptId) (cs : List ConceptId) :
    R.Builds (cs.foldlM Operator.either c) (cs.foldlM Operator.either c) := by
  induction cs generalizing c with
  | nil => exact .pure c
  | cons d cs ih =>
    rw [List.foldlM_cons]
    exact (R.either_builds c d).bind ih

end Building

end Renaming

end ConceptLogic
