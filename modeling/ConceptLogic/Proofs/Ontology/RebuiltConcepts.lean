import ConceptLogic.Proofs.Session.ReachedStates

namespace ConceptLogic

open Evaluation

/-- A list that increases is sorted already. -/
theorem Handle.sorted_eq {role : Role} {hs : List (Handle role)} (increasing : hs.Pairwise (·.id < ·.id)) :
    Handle.sorted hs = hs := by
  induction hs with
  | nil => rfl
  | cons h rest ih =>
    obtain ⟨below, increasing⟩ := List.pairwise_cons.mp increasing
    rw [sorted, ih increasing]
    cases rest with
    | nil => rfl
    | cons g rest => exact if_pos (below g (List.mem_cons_self ..))

/-! What is built a second time is found, and nothing is added. -/

namespace Ontology

section Distinct

variable {o : Ontology} {c : ConceptId}
  (distinct : ∀ {c d e}, o.expression? c = some e → o.expression? d = some e → c = d)
include distinct

theorem found_again {e : Expression} (made : o.expression? c = some e) :
    o.keptAs e = c ∧ o.keeping e = o := by
  have found := conceptOf?_eq distinct made
  constructor
  · rw [keptAs, found, Option.getD_some]
  · rw [Ontology.keeping, found]

theorem negation_again (wf : o.WellFormed) {x : ConceptId} (made : o.expression? c = some (.negation x)) :
    (Building.negation x).run o = .ok c o := by
  have known := wf.negated_known made
  have once := wf.normal made
  have done := (Building.negation_yields x).1 known
  obtain ⟨same, unchanged⟩ := found_again distinct made
  obtain ⟨e, atX⟩ := known
  rw [done, atX]
  cases e with
  | negation y => exact absurd atX (once y)
  | _ => exact congrArg₂ EStateM.Result.ok same unchanged

end Distinct

namespace Kept

variable {o : Ontology} (kept : o.Kept) {c : ConceptId}
include kept

theorem nominal_again {is : List IndividualId} (made : o.expression? c = some (.nominal is)) :
    (Building.nominal is).run o = .ok c o := by
  have increasing : is.Pairwise (·.id < ·.id) := kept.wellFormed.normal made
  have done := (Building.nominal_yields is).1 fun i member => kept.wellFormed.nominated_known made member
  obtain ⟨same, unchanged⟩ := found_again kept.distinct made
  rw [done, Handle.sorted_eq increasing, same, unchanged]

theorem restriction_again {q : Quantifier} {r : RelationId} {x : ConceptId}
    (made : o.expression? c = some (.restriction q r x)) : (Building.restriction q r x).run o = .ok c o := by
  have done := (Building.restriction_yields q r x).1
    ⟨kept.wellFormed.relation_known made, kept.wellFormed.filler_known made⟩
  obtain ⟨same, unchanged⟩ := found_again kept.distinct made
  rw [done, same, unchanged]

end Kept

end Ontology

theorem Connects.connect_again {operands? : Expression → Option (List ConceptId)}
    {make : List ConceptId → Expression} (connects : Connects operands? make) {o : Ontology}
    (kept : o.Kept) {c : ConceptId} {cs : List ConceptId} (made : o.expression? c = some (make cs)) :
    (Building.connect operands? make cs).run o = .ok c o := by
  -- What is kept is in its normal form: no part is spliced, and sorting moves nothing.
  obtain ⟨several, increasing, apart⟩ := (connects.normal o cs).mp (kept.wellFormed.normal made)
  have known : ∀ x ∈ cs, o.Knows (.concept x) := fun x member =>
    kept.wellFormed.parts_known made _ (connects.parts cs ▸ List.mem_map_of_mem member)
  have each : cs.map (o.partsUnder operands?) = cs.map fun x => [x] :=
    List.map_congr_left fun x member => connects.partsUnder_other (known x member) (apart x member)
  have joined : o.joined operands? cs = cs := by
    rw [Ontology.joined, each, ← List.flatMap_def, List.flatMap_singleton', Handle.sorted_eq increasing]
  obtain ⟨same, unchanged⟩ := Ontology.found_again kept.distinct made
  have filled : o.joined operands? cs ≠ [] := by
    rw [joined]
    exact List.ne_nil_of_length_pos (by omega)
  rw [(Building.connect_yields operands? make cs).1 ⟨known, filled⟩, joined]
  obtain ⟨a, b, rest, rfl⟩ : ∃ a b rest, cs = a :: b :: rest := by
    cases cs with
    | nil => cases several
    | cons a cs =>
      cases cs with
      | nil => cases Nat.lt_irrefl _ several
      | cons b rest => exact ⟨a, b, rest, rfl⟩
  exact congrArg₂ EStateM.Result.ok same unchanged

theorem Ontology.Kept.conjunction_again {o : Ontology} (kept : o.Kept) {c : ConceptId}
    {cs : List ConceptId} (made : o.expression? c = some (.conjunction cs)) :
    (Building.conjunction cs).run o = .ok c o :=
  connects_conjunction.connect_again kept made

theorem Ontology.Kept.disjunction_again {o : Ontology} (kept : o.Kept) {c : ConceptId}
    {cs : List ConceptId} (made : o.expression? c = some (.disjunction cs)) :
    (Building.disjunction cs).run o = .ok c o :=
  connects_disjunction.connect_again kept made

namespace State

/-- A state in which all that has a name can be called by it in a language, and the operators by their
tokens. -/
structure Articulate (l : Language) (s : State) : Prop where
  kept : s.ontology.Kept
  found : ∀ {name v}, s.ontology.Names name v → s.env.find? name = some v
  admitted : ∀ {name v}, s.ontology.Names name v → v.Admitted l.vocabulary name
  operator : ∀ op : Operator, s.env.find? op.token = some (.operator op)

/-- No name is the token of an operator. -/
theorem not_admitted_token {v : Vocabulary} {op : Operator} {x : Value} : ¬x.Admitted v op.token := by
  intro admitted
  obtain ⟨role, vetted⟩ := admitted.vetted
  have conforming := (Vocabulary.vet_eq_ok_iff.mp vetted).2.2
  cases op <;> cases role <;> revert conforming <;> decide

theorem Sound.articulate {l : Language} {top : String} {s : State} (sound : s.Sound (· = l) top)
    (vetted : l.vocabulary.vet .concept top = .ok top) : s.Articulate l := by
  have admitted : ∀ {name v}, s.ontology.Names name v → v.Admitted l.vocabulary name := by
    intro name v names
    by_cases atTop : v = .concept Ontology.top
    · subst atTop
      cases sound.top_name names
      exact vetted
    · obtain ⟨_, _, _, rfl, admitted⟩ := sound.named names atTop
      exact admitted
  refine ⟨sound.kept, fun {name v} names => ?_, admitted, fun op => ?_⟩
  · by_cases atTop : v = .concept Ontology.top
    · subst atTop
      cases sound.top_name names
      have free : s.env.memory.lookup top = none := by
        refine Option.eq_none_iff_forall_ne_some.mpr fun w bound => ?_
        obtain ⟨names', other⟩ := sound.bound (differs_of_vetted vetted) bound
        exact other (sound.unique names' names)
      rw [Scope.find?, free, Option.none_or, sound.dictionary_lookup, if_pos rfl]
    · rw [Scope.find?, (sound.named names atTop).1, Option.some_or]
  · have free : s.env.memory.lookup op.token = none := by
      refine Option.eq_none_iff_forall_ne_some.mpr fun w bound => ?_
      have differs : op.token ≠ anaphoraName := by cases op <;> decide
      exact not_admitted_token (admitted (sound.bound differs bound).1)
    have other : op.token ≠ top := by
      rintro rfl
      exact not_admitted_token (admitted sound.everything)
    rw [Scope.find?, free, Option.none_or, sound.dictionary_lookup, if_neg other, Environment.lookup_token]

end State

end ConceptLogic
