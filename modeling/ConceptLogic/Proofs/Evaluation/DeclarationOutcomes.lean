import ConceptLogic.Proofs.Evaluation.QuietStatements
import ConceptLogic.Proofs.Ontology.Consistency

namespace ConceptLogic

open Evaluation

universe u

/-- Whether a vocabulary admits a name for a value. -/
def Value.Admitted (v : Vocabulary) (name : String) : Value → Prop
  | .concept _ | .relation _ => v.vet .concept name = .ok name
  | .individual _ => v.vet .individual name = .ok name
  | _ => False

/-- A name for a relation is a name for a concept. -/
theorem Vocabulary.vet_relation (v : Vocabulary) (name : String) :
    v.vet .relation name = .ok name ↔ v.vet .concept name = .ok name := by
  rw [vet_eq_ok_iff, vet_eq_ok_iff]
  exact Iff.rfl

theorem Value.Admitted.vetted {v : Vocabulary} {name : String} {x : Value} (admitted : x.Admitted v name) :
    ∃ role, v.vet role name = .ok name := by
  cases x with
  | concept => exact ⟨.concept, admitted⟩
  | relation => exact ⟨.concept, admitted⟩
  | individual => exact ⟨.individual, admitted⟩
  | _ => exact admitted.elim

theorem Value.Admitted.differs {v : Vocabulary} {name : String} {x : Value} (admitted : x.Admitted v name) :
    name ≠ anaphoraName := by
  obtain ⟨role, vetted⟩ := admitted.vetted
  exact differs_of_vetted vetted

/-- The name that a statement is to give, if it is a declaration. -/
def Phrase.declares? : Phrase → Option String
  | .declareIndividual name _ | .declareConcept name _ | .declareRelation name _ _ | .define name _ =>
    some name
  | _ => none

def Phrase.isDefinition : Phrase → Bool
  | .define .. => true
  | _ => false

theorem Phrase.declares?_eq_none {p : Phrase} : p.declares? = none ↔ p.isDeclaration = false := by
  cases p <;> simp [declares?, isDeclaration]

/-- An entry that is new in an ontology, gives a name to a value and speaks of known things only. -/
structure Entry.Founded (o : Ontology) (name : String) (x : Value) (entry : Entry) : Prop where
  named : entry.named? (o.size + 1) = some (name, x)
  known : ∀ y ∈ entry.mentions, o.Knows y
  novel : entry.Novel o

namespace Ontology

variable {o o' : Ontology} {name : String} {x : Value} {entry : Entry}

/-- What a declaration makes of an ontology. Something new is founded under a name, and a definition
makes a new concept equivalent to a known one. -/
inductive Founds (o : Ontology) (name : String) : Value → Ontology → Prop
  | made {entry : Entry} {x : Value} : entry.Founded o name x → Founds o name x (o.adding entry)
  | defined {d body : ConceptId} : (Entry.concept (.named name) [top] []).Founded o name (.concept d) →
      o.Knows (.concept body) → Founds o name (.concept d)
        (((o.adding (.concept (.named name) [top] [])).changing d.id (.tellEquivalent body)).changing
          body.id (.tellEquivalent d))

end Ontology

namespace Entry.Founded

variable {o : Ontology} {name : String} {x : Value} {entry : Entry} (founded : entry.Founded o name x)
include founded

theorem fresh : o.Fresh name :=
  founded.novel.fresh founded.named

theorem names : (o.adding entry).Names name x :=
  Ontology.names_adding.mpr (.inr founded.named)

theorem kept (kept : o.Kept) : (o.adding entry).Kept := by
  refine kept.adding founded.known fun e isA equivalentTo same => ?_
  have named := founded.named
  subst same
  cases e <;> cases named
  exact ⟨trivial, trivial, founded.fresh.1⟩

theorem tellIsA {c : ConceptId} (known : o.Knows (.concept c)) : (entry.tellIsA c).Founded o name x where
  named := ((Ontology.within_tellIsA c entry).named? _).trans founded.named
  known y member := by
    rcases Entry.mentions_tellIsA member with old | rfl
    · exact founded.known y old
    · exact known
  novel := by
    have novel := founded.novel
    cases entry with
    | concept e isA equivalentTo =>
      exact ⟨novel.1, novel.2.1, fun n same => ⟨(novel.2.2 n same).1, by simp⟩⟩
    | individual => exact ⟨novel.1, by simp⟩
    | relation => exact novel

theorem tellAll {cs : List ConceptId} (known : ∀ c ∈ cs, o.Knows (.concept c)) :
    (cs.foldl (fun entry c => entry.tellIsA c) entry).Founded o name x := by
  induction cs generalizing entry with
  | nil => exact founded
  | cons c cs ih =>
    obtain ⟨first, others⟩ := List.forall_mem_cons.mp known
    exact ih (founded.tellIsA first) others

end Entry.Founded

/-- A new concept under known bases. -/
theorem Entry.Founded.concept {o : Ontology} {name : String} {bases : List ConceptId} (fresh : o.Fresh name)
    (some : bases ≠ []) (known : ∀ b ∈ bases, o.Knows (.concept b)) :
    (Entry.concept (.named name) bases []).Founded o name (.concept ⟨o.size + 1⟩) where
  named := rfl
  known y member := by
    simp only [mentions, Expression.parts, List.nil_append, List.append_nil] at member
    obtain ⟨b, base, rfl⟩ := List.mem_map.mp member
    exact known b base
  novel := ⟨fresh.1, rfl, by rintro _ ⟨⟩; exact ⟨fresh, some⟩⟩

namespace Ontology.Founds

variable {o o' : Ontology} {name : String} {x : Value} (founds : o.Founds name x o')
include founds

theorem fresh : o.Fresh name := by
  cases founds with
  | made founded => exact founded.fresh
  | defined founded => exact founded.fresh

/-- Whatever is founded, the ontology that is left upholds one with a single new entry. -/
theorem upholds : ∃ entry : Entry, entry.Founded o name x ∧ (o.adding entry).Upholds o' := by
  cases founds with
  | made founded => exact ⟨_, founded, .refl _⟩
  | @defined d body founded known =>
    refine ⟨_, founded, ?_⟩
    have concept : (o.adding (.concept (.named name) [top] [])).Knows (.concept d) := founded.names.known
    have other := (within_adding o (.concept (.named name) [top] [])).knows known
    have first := upholds_changing concept.bounds.1 (within_tellEquivalent body)
      fun wf => wf.tellEquivalent concept other
    have concept' := first.within.knows concept
    have other' := first.within.knows other
    exact first.trans (upholds_changing other'.bounds.1 (within_tellEquivalent _)
      fun wf => wf.tellEquivalent other' concept')

theorem within : o.Within o' := by
  obtain ⟨entry, _, upholds⟩ := founds.upholds
  exact (within_adding o entry).trans upholds.within

theorem kept (kept : o.Kept) : o'.Kept := by
  obtain ⟨entry, founded, upholds⟩ := founds.upholds
  exact upholds.kept (founded.kept kept)

/-- One name is given, and no other is lost. -/
theorem names {n : String} {v : Value} : o'.Names n v ↔ o.Names n v ∨ n = name ∧ v = x := by
  obtain ⟨entry, founded, upholds⟩ := founds.upholds
  rw [upholds.names, names_adding, founded.named, Option.some.injEq, Prod.mk.injEq]
  exact or_congr_right (and_congr eq_comm eq_comm)

/-- What is founded is younger than all that was known. -/
theorem younger {c : ConceptId} (known : o.Knows (.concept c)) : x ≠ .concept c := by
  rintro rfl
  obtain ⟨entry, founded, _⟩ := founds.upholds
  have last : c.id = o.size + 1 := Entry.id_of_named? founded.named
  have bounds : 1 ≤ c.id ∧ c.id ≤ o.size := known.bounds
  omega

end Ontology.Founds

namespace State

/-- What a declaration that succeeds does to a state. Once the right-hand side has been evaluated,
something is founded and bound to its name. -/
inductive Declares (s : State) (name : String) (x : Value) : State → Prop
  | bound {s' : State} {o : Ontology} : s.Extends s' → s.env.isBuiltIn name = false →
      s'.ontology.Founds name x o → Declares s name x ⟨s.env.assign name x, o⟩

/-- What a declaration other than a definition does to a state if it succeeds. -/
inductive Makes (s : State) (name : String) (x : Value) : State → Prop
  | bound {s' : State} {entry : Entry} : s.Extends s' → s.env.isBuiltIn name = false →
      entry.Founded s'.ontology name x → Makes s name x ⟨s.env.assign name x, s'.ontology.adding entry⟩

theorem Makes.declares {s s' : State} {name : String} {x : Value} (makes : s.Makes name x s') :
    s.Declares name x s' := by
  cases makes with
  | bound adds free founded => exact .bound adds free (.made founded)

/-- What a statement that succeeds does to a state, given the name that it declares. -/
inductive Advances (v : Vocabulary) (s : State) : Option String → State → Prop
  | quiet {s' : State} : s.Extends s' → Advances v s none s'
  | declared {name : String} {x : Value} {s' : State} : x.Admitted v name → s.Declares name x s' →
      Advances v s (some name) s'

theorem Advances.within {v : Vocabulary} {s s' : State} {name? : Option String}
    (advances : s.Advances v name? s') : s.ontology.Within s'.ontology := by
  cases advances with
  | quiet adds => exact adds.ontology.annexes.within
  | declared _ declares =>
    cases declares with
    | bound adds _ founds => exact adds.ontology.annexes.within.trans founds.within

/-- No name is lost. -/
theorem Advances.names {v : Vocabulary} {s s' : State} {name? : Option String}
    (advances : s.Advances v name? s') {n : String} {x : Value} (names : s.ontology.Names n x) :
    s'.ontology.Names n x := by
  cases advances with
  | quiet adds => exact adds.ontology.upholds.names.mpr names
  | declared _ declares =>
    cases declares with
    | bound adds _ founds => exact founds.names.mpr (.inl (adds.ontology.upholds.names.mpr names))

/-- A name that has been given can not be given again. -/
theorem Declares.unnamed {s s' : State} {name : String} {x : Value} (declares : s.Declares name x s')
    {y : Value} : ¬s.ontology.Names name y := by
  cases declares with
  | bound adds _ founds => exact fun names => founds.fresh.unnamed (adds.ontology.upholds.names.mpr names)

end State

theorem Settles.recall {ε σ α : Type} {x : EStateM ε σ α} {s : σ} {done : α → σ → Prop} {failed : σ → Prop}
    (settles : Settles x s done failed) : Settles x s (fun a s' => done a s' ∧ x.run s = .ok a s') failed := by
  unfold Settles at settles ⊢
  split
  · rename_i run
    rw [run] at settles
    exact ⟨settles, run⟩
  · rename_i run
    rw [run] at settles
    exact settles

section Declaring

variable {α : Type u} {W : Interpretation α → World α} {s : State} {name : String}

theorem run_bind (x : Value) (assignable : s.env.isBuiltIn name = false) :
    (Evaluation.bind name x).run s = .ok () { s with env := s.env.assign name x } := by
  have bound : s.env.bind name x = .ok (s.env.assign name x) := by
    rw [Environment.bind, Environment.assignable, assignable]
    rfl
  change (Evaluation.require (s.env.bind name x) >>= fun env =>
    modify fun s => { s with env := env }).run s = _
  rw [bound]
  rfl

theorem Settles.assignable {f : Unit → Evaluation Unit} {done : Unit → State → Prop}
    (next : s.env.isBuiltIn name = false → Settles (f ()) s done (State.Extends s)) :
    Settles (Evaluation.assignable name >>= f) s done (State.Extends s) := by
  have checked : Settles (Evaluation.require (s.env.assignable name) >>= f) s done (State.Extends s) := by
    refine Settles.require_bind fun _ free => next ?_
    unfold Environment.assignable at free
    split at free
    · cases free
    · exact Bool.eq_false_of_not_eq_true ‹_›
  exact checked

/-- To make something, to tell of it and to bind it: if the first step is not refused, no other is. -/
theorem settles_making {β : Type} {make : Building β} {entry : Entry} {b : β} {p : Prop}
    {value : β → Value} {o : Ontology} (tell : β → Building Unit)
    (yields : make.Yields s.ontology p b (s.ontology.adding entry))
    (told : p → (tell b).run (s.ontology.adding entry) = .ok () o) (assignable : s.env.isBuiltIn name = false) :
    Settles (do
      let b ← building make
      building (tell b)
      Evaluation.bind name (value b)) s (fun _ s' => p ∧ s' = ⟨s.env.assign name (value b), o⟩)
        (State.Extends s) := by
  unfold Settles
  by_cases holds : p
  -- What has been made is known and its name is free, so nothing is left that could fail.
  · rw [EStateM.run_bind, run_building, yields.1 holds]
    dsimp only
    rw [EStateM.run_bind, run_building, told holds]
    dsimp only
    rw [run_bind (s := ⟨s.env, o⟩) (value b) assignable]
    exact ⟨holds, rfl⟩
  · obtain ⟨fault, refused⟩ := yields.2 holds
    rw [EStateM.run_bind, run_building, refused]
    exact Std.Refl.refl s

/-- Telling the newest thing that it falls under known concepts is never refused. -/
theorem run_tells {o : Ontology} {x : Entity} (tellable : ∀ r, x ≠ .relation r) (newest : x.id = o.size + 1)
    {entry : Entry} (known : (o.adding entry).Knows x) {cs : List ConceptId}
    (concepts : ∀ c ∈ cs, o.Knows (.concept c)) : (cs.forM (Building.addIsA x)).run (o.adding entry) =
      .ok () (o.adding (cs.foldl (fun entry c => entry.tellIsA c) entry)) := by
  induction cs generalizing entry with
  | nil => rfl
  | cons c cs ih =>
    obtain ⟨concept, others⟩ := List.forall_mem_cons.mp concepts
    have concept' := (Ontology.within_adding o entry).knows concept
    have run : (Building.addIsA x c).run (o.adding entry) = .ok () (o.adding (entry.tellIsA c)) := by
      rw [← Ontology.adding_changing, ← newest]
      cases x with
      | concept d => exact (Building.addIsA_concept_yields d c).1 ⟨concept', known⟩
      | individual i => exact (Building.addIsA_individual_yields i c).1 ⟨concept', known⟩
      | relation r => exact absurd rfl (tellable r)
    have known' : (o.adding (entry.tellIsA c)).Knows x := by
      rw [← Ontology.adding_changing]
      exact (Ontology.within_changing (Nat.succ_pos _) (Ontology.within_tellIsA c)).knows known
    change (Building.addIsA x c >>= fun _ => cs.forM (Building.addIsA x)).run (o.adding entry) = _
    rw [EStateM.run_bind, run]
    exact ih known' others

/-- The values of a tuple are known. -/
def PartsKnown (parts : List Value × List Value) (s : State) : Prop :=
  (∀ v ∈ parts.1, v.Known s.ontology) ∧ ∀ v ∈ parts.2, v.Known s.ontology

theorem concepts_known {o : Ontology} {vs : List Value} {cs : List ConceptId}
    (taken : vs.mapM Value.asConcept = .ok cs) (known : ∀ v ∈ vs, v.Known o) :
    ∀ c ∈ cs, o.Knows (.concept c) :=
  known_of_values (Value.mapM_asConcept_eq_ok taken) known

theorem State.Declares.of_founds {s' : State} {o : Ontology} {x : Value} (adds : s.Extends s')
    (free : s.env.isBuiltIn name = false) (founds : s'.ontology.Founds name x o) :
    s.Declares name x ⟨s'.env.assign name x, o⟩ :=
  adds.env ▸ .bound adds free founds

theorem State.Makes.of_founded {s' : State} {entry : Entry} {x : Value} (adds : s.Extends s')
    (free : s.env.isBuiltIn name = false) (founded : entry.Founded s'.ontology name x) :
    s.Makes name x ⟨s'.env.assign name x, s'.ontology.adding entry⟩ :=
  adds.env ▸ .bound adds free founded

theorem settles_declareIndividual {rhs : Evaluation (List Value × List Value)}
    (quiet : Moves State.Extends rhs s PartsKnown) :
    Settles (declareIndividual name rhs Ontology.top) s (fun _ s' => ∃ i, s.Makes name (.individual i) s')
      (State.Extends s) := by
  refine Settles.assignable fun free => quiet.settles fun parts s' adds known => ?_
  obtain ⟨bases, others⟩ := parts
  refine Settles.require_bind fun cs taken => Settles.require_bind fun ds taken' => ?_
  have knownC := concepts_known taken known.1
  have knownD := concepts_known taken' known.2
  have told : ∀ c ∈ cs.tail ++ ds, s'.ontology.Knows (.concept c) := fun c member =>
    (List.mem_append.mp member).elim (fun base => knownC c (List.mem_of_mem_tail base)) (knownD c)
  have founded : s'.ontology.Fresh name → s'.ontology.Knows (.concept (cs.headD Ontology.top)) →
      (Entry.individual name [cs.headD Ontology.top]).Founded s'.ontology name
        (.individual ⟨s'.ontology.size + 1⟩) := fun fresh type =>
    ⟨rfl, List.forall_mem_singleton.mpr type, fresh, List.cons_ne_nil _ _⟩
  refine Settles.mono (settles_making _ (Building.createIndividual_yields name _)
    (fun both => run_tells (x := .individual ⟨s'.ontology.size + 1⟩) nofun rfl
      (founded both.1 both.2).names.known told) (adds.env ▸ free)) ?_ fun _ => id
  rintro _ _ ⟨⟨fresh, type⟩, rfl⟩
  exact ⟨_, .of_founded adds free ((founded fresh type).tellAll told)⟩

theorem settles_declareConcept {rhs : Evaluation (List Value × List Value)}
    (quiet : Moves State.Extends rhs s PartsKnown) :
    Settles (declareConcept name rhs Ontology.top) s
      (fun _ s' => (∃ r, s.Makes name (.relation r) s') ∨ ∃ c, s.Makes name (.concept c) s')
      (State.Extends s) := by
  refine Settles.assignable fun free => quiet.settles fun parts s' adds known => ?_
  obtain ⟨bases, others⟩ := parts
  have free' : s'.env.isBuiltIn name = false := adds.env ▸ free
  dsimp only
  split
  · refine Settles.require_bind fun rs taken => ?_
    refine Settles.mono (settles_making (fun _ => pure ()) (Building.createRelation_yields name rs)
      (fun _ => rfl) free') ?_ fun _ => id
    rintro _ _ ⟨⟨fresh, supers⟩, rfl⟩
    exact .inl ⟨_, .of_founded adds free ⟨rfl, List.forall_mem_map.mpr supers, fresh⟩⟩
  · refine Settles.require_bind fun cs taken => Settles.require_bind fun ds taken' => ?_
    have told := concepts_known taken' known.2
    have some : (if cs.isEmpty then [Ontology.top] else cs) ≠ [] := by
      split
      · exact List.cons_ne_nil _ _
      · rename_i filled
        exact fun empty => filled (List.isEmpty_iff.mpr empty)
    generalize (if cs.isEmpty then [Ontology.top] else cs) = bs at some
    have under : (if bs.isEmpty then [Ontology.top] else bs) = bs :=
      if_neg fun empty => some (List.isEmpty_iff.mp empty)
    have making := Building.createConcept_yields (o := s'.ontology) name bs
    rw [under] at making
    refine Settles.mono (settles_making _ making (fun both => run_tells
      (x := .concept ⟨s'.ontology.size + 1⟩) nofun rfl
      (Entry.Founded.concept both.1 some both.2).names.known told) free') ?_ fun _ => id
    rintro _ _ ⟨⟨fresh, known⟩, rfl⟩
    exact .inr ⟨_, .of_founded adds free ((Entry.Founded.concept fresh some known).tellAll told)⟩

theorem settles_declareRelation {rhs : Evaluation (ConceptId × ConceptId)}
    (quiet : Moves State.Extends rhs s fun mapping s' =>
      s'.ontology.Knows (.concept mapping.1) ∧ s'.ontology.Knows (.concept mapping.2)) :
    Settles (declareRelation name rhs) s (fun _ s' => ∃ r, s.Makes name (.relation r) s')
      (State.Extends s) := by
  refine Settles.assignable fun free => quiet.settles fun mapping s' adds known => ?_
  obtain ⟨domain, range⟩ := mapping
  have within := Ontology.within_adding s'.ontology (.relation name [] none)
  have signing : s'.ontology.Fresh name → (Building.setSignature ⟨s'.ontology.size + 1⟩ domain range).run
      (s'.ontology.adding (.relation name [] none)) =
        .ok () (s'.ontology.adding (.relation name [] (some (domain, range)))) := by
    intro fresh
    have founded : (Entry.relation name [] none).Founded s'.ontology name
        (.relation ⟨s'.ontology.size + 1⟩) := ⟨rfl, nofun, fresh⟩
    rw [(Building.setSignature_yields _ domain range).1
      ⟨founded.names.known, within.knows known.1, within.knows known.2⟩]
    exact congrArg _ Ontology.adding_changing
  refine Settles.mono (settles_making (fun r => Building.setSignature r domain range)
    (Building.createRelation_yields name []) (fun both => signing both.1) (adds.env ▸ free)) ?_ fun _ => id
  rintro _ _ ⟨⟨fresh, _⟩, rfl⟩
  refine ⟨_, .of_founded adds free ⟨rfl, fun y member => ?_, fresh⟩⟩
  rcases List.mem_cons.mp member with rfl | member
  · exact known.1
  · exact List.mem_singleton.mp member ▸ known.2

/-- A definition makes what it founds equivalent to what its right-hand side comes to. -/
theorem settles_define {rhs : Evaluation ConceptId}
    (quiet : Moves State.Extends rhs s fun c s' => s'.ontology.Knows (.concept c)) :
    Settles (define name rhs Ontology.top) s (fun _ s' => ∃ d body s₁, rhs.run s = .ok body s₁ ∧
      s.Declares name (.concept d) s' ∧ body ∈ s'.ontology.equivalentTo d ∧
        d ∈ s'.ontology.equivalentTo body) (State.Extends s) := by
  refine Settles.assignable fun free => ?_
  have recalled : Moves State.Extends rhs s fun c s' =>
      s'.ontology.Knows (.concept c) ∧ rhs.run s = .ok c s' :=
    Settles.mono (Settles.recall quiet) (fun _ _ both => ⟨both.1.1, both.1.2, both.2⟩) fun _ => id
  refine recalled.settles fun body s' adds ⟨known, ran⟩ => ?_
  have other := (Ontology.within_adding s'.ontology (.concept (.named name) [Ontology.top] [])).knows known
  have founded : s'.ontology.Fresh name ∧ (∀ b ∈ [Ontology.top], s'.ontology.Knows (.concept b)) →
      (Entry.concept (.named name) [Ontology.top] []).Founded s'.ontology name
        (.concept ⟨s'.ontology.size + 1⟩) := fun both => .concept both.1 (List.cons_ne_nil _ _) both.2
  refine Settles.mono (settles_making (fun c => Building.addEquivalence (.concept c) body)
    (Building.createConcept_yields name [Ontology.top])
    (fun both => (Building.addEquivalence_concept_yields _ body).1 ⟨other, (founded both).names.known⟩)
    (adds.env ▸ free)) ?_ fun _ => id
  rintro _ _ ⟨both, rfl⟩
  refine ⟨_, body, s', ran, .of_founds adds free (.defined (founded both) known), ?_, ?_⟩
  · exact (Ontology.mem_equivalentTo_equating (founded both).names.known other).mpr (.inr (.inl ⟨rfl, rfl⟩))
  · exact (Ontology.mem_equivalentTo_equating (founded both).names.known other).mpr (.inr (.inr ⟨rfl, rfl⟩))

theorem split_subset (ps : List Phrase) (vs : List Value) :
    (Phrase.split ps vs).1 ⊆ vs ∧ (Phrase.split ps vs).2 ⊆ vs := by
  induction ps generalizing vs with
  | nil => exact ⟨List.nil_subset _, List.nil_subset _⟩
  | cons p ps ih =>
    cases vs with
    | nil => exact ⟨List.nil_subset _, List.nil_subset _⟩
    | cons v vs =>
      obtain ⟨bases, others⟩ := ih vs
      unfold Phrase.split
      dsimp only
      split
      · exact ⟨List.cons_subset_cons v bases, List.subset_cons_of_subset v others⟩
      · exact ⟨List.subset_cons_of_subset v bases, List.cons_subset_cons v others⟩

variable {v : Vocabulary} (interpreted : s.Interpreted W)
include interpreted

theorem moves_parts {ps : List Phrase} (parts : ∀ p ∈ ps, p.Proper v) :
    Moves State.Extends (Phrase.split ps <$> Phrase.evalAll ps) s PartsKnown := by
  refine (moves_evalAll (fun p member _ => (parts p member).moves) interpreted).map fun vs s' _ each => ?_
  have known := known_of_means each
  obtain ⟨bases, others⟩ := split_subset ps vs
  exact ⟨fun v member => known v (bases member), fun v member => known v (others member)⟩

theorem moves_concept {p : Phrase} (proper : p.Proper v) :
    Moves State.Extends (do require (← p.eval).asConcept) s fun c s' => s'.ontology.Knows (.concept c) := by
  refine (proper.moves interpreted).bind fun x s' _ means => ?_
  rw [← bind_pure (require x.asConcept)]
  refine Moves.require_bind fun c taken => Moves.pure ?_
  cases Value.asConcept_eq_ok taken
  exact means.1

theorem moves_mapping {p q : Phrase} (domain : p.Proper v) (range : q.Proper v) :
    Moves State.Extends (do
      let domain ← require (← p.eval).asConcept
      return (domain, ← require (← q.eval).asConcept)) s fun mapping s' =>
        s'.ontology.Knows (.concept mapping.1) ∧ s'.ontology.Knows (.concept mapping.2) := by
  refine (domain.moves interpreted).bind fun x s' adds atDomain => Moves.require_bind fun c taken => ?_
  cases Value.asConcept_eq_ok taken
  refine (range.moves (interpreted.lasts adds)).bind fun y s'' adds' atRange => ?_
  refine Moves.require_bind fun d taken' => ?_
  cases Value.asConcept_eq_ok taken'
  exact Moves.pure ⟨adds'.ontology.annexes.within.knows (x := .concept c) atDomain.1, atRange.1⟩

/-- What a statement other than a definition makes if it succeeds; one that fails has added anonymous
concepts at most. -/
theorem Phrase.Stated.makes {p : Phrase} (stated : p.Stated v) (other : p.isDefinition = false) :
    Settles p.eval s (fun _ s' => p.declares? = none ∧ s.Extends s' ∨
      ∃ name x, p.declares? = some name ∧ x.Admitted v name ∧ s.Makes name x s') (State.Extends s) := by
  have declared : ∀ {x : Evaluation Unit} {done : Unit → State → Prop} {n : String},
      Settles x s done (State.Extends s) → (∀ s', done () s' → ∃ x : Value, x.Admitted v n ∧ s.Makes n x s') →
      Settles (do x; return Value.nothing) s (fun _ s' => some n = none ∧ s.Extends s' ∨
        ∃ name x, some n = some name ∧ x.Admitted v name ∧ s.Makes name x s') (State.Extends s) :=
    fun settles makes => settles.bind fun _ s' done => .inr ⟨_, (makes s' done).imp fun _ => .intro rfl⟩
  have quiet : p.isDeclaration = false → Settles p.eval s (fun _ s' => p.declares? = none ∧ s.Extends s' ∨
      ∃ name x, p.declares? = some name ∧ x.Admitted v name ∧ s.Makes name x s') (State.Extends s) :=
    fun quiet => Settles.mono (stated.moves quiet interpreted)
      (fun _ _ both => .inl ⟨Phrase.declares?_eq_none.mpr quiet, both.1⟩) fun _ => id
  cases stated with
  | concept proper => exact quiet (by cases proper <;> rfl)
  | membership => exact quiet rfl
  | comparison => exact quiet rfl
  | define => cases other
  | declareRelation vetted domain range =>
    refine declared (settles_declareRelation (moves_mapping interpreted domain range)) ?_
    rintro s' ⟨r, makes⟩
    exact ⟨.relation r, (Vocabulary.vet_relation _ _).mp vetted, makes⟩
  | declareConcept vetted _ parts =>
    refine declared (settles_declareConcept (moves_parts interpreted parts)) ?_
    rintro s' (⟨r, makes⟩ | ⟨c, makes⟩)
    · exact ⟨.relation r, vetted, makes⟩
    · exact ⟨.concept c, vetted, makes⟩
  | declareIndividual vetted _ parts =>
    refine declared (settles_declareIndividual (moves_parts interpreted parts)) ?_
    rintro s' ⟨i, makes⟩
    exact ⟨.individual i, vetted, makes⟩

/-- A statement that succeeds declares what it is to declare, if anything; one that fails has added
anonymous concepts at most. -/
theorem Phrase.Stated.advances {p : Phrase} (stated : p.Stated v) :
    Settles p.eval s (fun _ s' => s.Advances v p.declares? s') (State.Extends s) := by
  cases definition : p.isDefinition with
  | false =>
    refine Settles.mono (stated.makes interpreted definition) ?_ fun _ => id
    rintro _ s' (⟨none, adds⟩ | ⟨name, x, declares, admitted, makes⟩)
    · exact none ▸ .quiet adds
    · exact declares ▸ .declared admitted makes.declares
  | true =>
    cases stated with
    | define vetted body =>
      refine (settles_define (moves_concept interpreted body)).bind fun _ s' done => ?_
      obtain ⟨d, body, s₁, _, declares, _⟩ := done
      exact .declared (x := .concept d) vetted declares
    | concept proper => cases proper <;> cases definition
    | _ => cases definition

end Declaring

end ConceptLogic
