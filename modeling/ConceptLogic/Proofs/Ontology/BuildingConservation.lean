import ConceptLogic.Proofs.Reasoning.PersistentAnswers

namespace ConceptLogic.Ontology

variable {o o' : Ontology}

namespace Within

variable (within : o.Within o')
include within

theorem individualText {i : IndividualId} (known : o.Knows (.individual i)) :
    o'.individualText i = o.individualText i := by
  obtain ⟨name, named⟩ := known
  obtain ⟨types, found⟩ := individualName?_eq_some.mp named
  obtain ⟨types', found', _⟩ := within.individual found
  have named' : o'.individualName? i = some name := individualName?_eq_some.mpr ⟨types', found'⟩
  rw [Ontology.individualText, Ontology.individualText, named, named']

theorem relationText {r : RelationId} (known : o.Knows (.relation r)) :
    o'.relationText r = o.relationText r := by
  obtain ⟨name, named⟩ := known
  obtain ⟨supers, signature, found⟩ := relationName?_eq_some.mp named
  obtain ⟨signature', found'⟩ := within.relation found
  have named' : o'.relationName? r = some name := relationName?_eq_some.mpr ⟨supers, signature', found'⟩
  rw [Ontology.relationText, Ontology.relationText, named, named']

/-- A concept is written as before, since all that it is made of is known with it. -/
theorem conceptTextWithin (wf : o.WellFormed) (fuel : Nat) {c : ConceptId} (known : o.Knows (.concept c)) :
    o'.conceptTextWithin fuel c = o.conceptTextWithin fuel c := by
  induction fuel generalizing c with
  | zero => rfl
  | succ fuel ih =>
    obtain ⟨e, made⟩ := known
    have part : ∀ x ∈ e.parts, o.Knows x := wf.parts_known made
    have operands : ∀ cs : List ConceptId, (∀ x ∈ cs, Entity.concept x ∈ e.parts) →
        cs.map (o'.conceptTextWithin fuel) = cs.map (o.conceptTextWithin fuel) :=
      fun cs inside => List.map_congr_left fun x member => ih (part _ (inside x member))
    rw [Ontology.conceptTextWithin, Ontology.conceptTextWithin, within.expression? made, made]
    cases e with
    | named => rfl
    | conjunction cs =>
      dsimp only
      rw [operands cs fun x member => List.mem_map_of_mem member]
    | disjunction cs =>
      dsimp only
      rw [operands cs fun x member => List.mem_map_of_mem member]
    | negation x =>
      dsimp only
      rw [ih (part _ (List.mem_singleton.mpr rfl))]
    | nominal is =>
      have names : is.map o'.individualText = is.map o.individualText :=
        List.map_congr_left fun i member => within.individualText (part _ (List.mem_map_of_mem member))
      dsimp only
      rw [names]
    | restriction q r x =>
      dsimp only
      rw [within.relationText (part _ (List.mem_cons_self ..)),
        ih (part _ (List.mem_cons_of_mem _ (List.mem_singleton.mpr rfl)))]

theorem text (wf : o.WellFormed) {x : Entity} (known : o.Knows x) : o'.text x = o.text x := by
  cases x with
  | concept c => exact within.conceptTextWithin wf c.id known
  | individual i => exact within.individualText known
  | relation r => exact within.relationText known

end Within

namespace Alike

variable (alike : o.Alike o') (wf : o.WellFormed) (wf' : o'.WellFormed)
include alike wf wf'

theorem answers {q : Query} (known : o.Knowable q) : ∃ b, o.Answers b q ∧ o'.Answers b q :=
  ⟨o.answer q, answers_iff.mpr ⟨known, rfl⟩,
    answers_iff.mpr ⟨known.persists alike.within, alike.answer wf wf' known⟩⟩

theorem isEquivalentTo {c d : ConceptId} (left : o.Knows (.concept c)) (right : o.Knows (.concept d)) :
    ∃ b, (Building.isEquivalentTo c d).run o = .ok b o ∧ (Building.isEquivalentTo c d).run o' = .ok b o' := by
  have knows : ∀ {x}, o.Knows x → o'.Knows x := alike.within.knows
  have there : o'.answer (.subsumed c d) = o.answer (.subsumed c d) := alike.answer wf wf' ⟨left, right⟩
  have back : o'.answer (.subsumed d c) = o.answer (.subsumed d c) := alike.answer wf wf' ⟨right, left⟩
  have run' := (Building.isEquivalentTo_yields c d).1 ⟨knows left, knows right⟩
  rw [there, back] at run'
  exact ⟨_, (Building.isEquivalentTo_yields c d).1 ⟨left, right⟩, run'⟩

end Alike

/-- A call that tells nothing changes nothing for what was known before, be it refused or not.
Every question about it is answered as before, yes or no, and it is written as before. -/
theorem building_conserves {name : String} (reached : Reached name o) {call : Call}
    (quiet : call.tells = false) :
    (∀ q, o.Knowable q → ∃ b, o.Answers b q ∧ (call.after o).Answers b q) ∧
      (∀ c d, o.Knows (.concept c) → o.Knows (.concept d) →
        ∃ b, (Building.isEquivalentTo c d).run o = .ok b o ∧
          (Building.isEquivalentTo c d).run (call.after o) = .ok b (call.after o)) ∧
      ∀ x, o.Knows x → (call.after o).text x = o.text x := by
  have wf := reached.wellFormed
  have wf' : (call.after o).WellFormed := (reached.call call).wellFormed
  have grows := Call.after_grows wf quiet
  have alike := grows.alike
  exact ⟨fun _ => alike.answers wf wf', fun _ _ => alike.isEquivalentTo wf wf',
    fun _ => grows.within.text wf⟩

theorem ladder_conserved : (Call.negation ⟨7⟩).tells = false ∧ ladder.Affirms (.subsumed ⟨7⟩ ⟨4⟩) ∧
    ∃ b, ladder.Answers b (.subsumed ⟨7⟩ ⟨4⟩) ∧
      ((Call.negation ⟨7⟩).after ladder).Answers b (.subsumed ⟨7⟩ ⟨4⟩) := by
  have reached : Reached "Thing" ladder := .afterAll .initial _
  have affirms : ladder.Affirms (.subsumed ⟨7⟩ ⟨4⟩) := by decide +kernel
  exact ⟨rfl, affirms, (building_conserves reached rfl).1 _ (affirms_iff.mp affirms).1⟩

end ConceptLogic.Ontology
