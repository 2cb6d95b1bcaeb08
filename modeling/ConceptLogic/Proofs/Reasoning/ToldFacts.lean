import ConceptLogic.Proofs.Reasoning.MissedQueries
import ConceptLogic.Proofs.Reasoning.RuleLaws

namespace ConceptLogic

namespace Ontology

variable {o : Ontology} {c d t : ConceptId} {i : IndividualId}

/-- Whether no nominal among the operands of a concept leaves an individual out. -/
def Listed (o : Ontology) (i : IndividualId) (t : ConceptId) : Prop :=
  ∀ x ∈ o.partsUnder Expression.conjuncts? t, ∀ is, o.expression? x = some (.nominal is) → i ∈ is

/-- What a subsumption comes down to if its left side is made of alternatives, and
nothing else. -/
def alternatives (o : Ontology) (c d : ConceptId) : List Query :=
  match (o.expression? c).bind Expression.alternatives? with
  | some parts => parts d
  | none => []

/-- A told type follows unless it takes a nominal that leaves the individual out. -/
theorem WellFormed.follows_type_iff (wf : o.WellFormed) (known : o.Knowable (.member i t))
    (told : t ∈ o.types i) : o.Follows (.member i t) ↔ o.Listed i t := by
  rw [wf.follows_member_conjuncts_iff known.2]
  refine forall₂_congr fun x part => ?_
  obtain ⟨_, apart⟩ := connects_conjunction.part_known wf known.2 part
  by_cases nominal : ∃ is, o.expression? x = some (.nominal is)
  · obtain ⟨is, made⟩ := nominal
    rw [wf.follows_nominal_iff made]
    refine ⟨fun listed is' made' => ?_, fun listed => listed is made⟩
    cases made.symm.trans made'
    exact listed
  · refine iff_of_true ?_ fun is made => absurd ⟨is, made⟩ nominal
    have undivided : o.Undivided x := ⟨apart, fun is made => nominal ⟨is, made⟩⟩
    have operand : o.Follows (.subsumed t x) :=
      (wf.follows_conjuncts_iff known.2).mp (.of_warrants .same) x part
    exact .of_warrants (.type undivided told operand)

/-- What a concept was told to be a part of follows if it follows for each alternative
that the concept is made of. -/
theorem WellFormed.follows_isA_iff (wf : o.WellFormed) (known : o.Knowable (.subsumed c d))
    (told : d ∈ o.isA c) : o.Follows (.subsumed c d) ↔ ∀ p ∈ o.alternatives c d, o.Follows p := by
  obtain ⟨e, made⟩ := known.1
  unfold alternatives
  rw [made, Option.bind_some]
  cases taken : e.alternatives? with
  | some parts => exact wf.follows_alternatives_iff made taken
  | none =>
    refine iff_of_true ?_ fun p none => absurd none List.not_mem_nil
    have whole : (∀ cs, o.expression? c ≠ some (.disjunction cs)) ∧
        ∀ is, o.expression? c ≠ some (.nominal is) := by
      constructor <;> intro parts made' <;> cases made.symm.trans made' <;> cases taken
    have member : d ∈ o.told c := List.mem_append_left _ told
    by_cases conjunction : ∃ ds, o.expression? d = some (.conjunction ds)
    · obtain ⟨ds, right⟩ := conjunction
      refine .of_warrants (.toConjunction right fun x operand => ?_)
      have unsplit : o.Unsplit c x := ⟨(wf.normal right).2.2 x operand, whole⟩
      exact .of_warrants (.told unsplit member (wf.follows_conjunct right operand))
    · have unsplit : o.Unsplit c d := ⟨fun ds right => conjunction ⟨ds, right⟩, whole⟩
      exact .of_warrants (.told unsplit member (.of_warrants .same))

/-- A type that has to be taken apart neither as a conjunction nor as a nominal is never missed. -/
theorem type_not_missed (told : t ∈ o.types i) (undivided : o.Undivided t) : ¬o.Misses (.member i t) := by
  have asked : o.Warrants (fun p => o.Asks (.member i t) p ∧ o.Granted (fun _ => False) p) (.member i t) :=
    .type undivided told ⟨.type undivided told, .same⟩
  exact fun misses => misses.2 (.member undivided (grounded_of_nothing asked))

/-- A told subsumption that has to be taken apart on neither side is never missed. -/
theorem isA_not_missed (told : d ∈ o.isA c) (unsplit : o.Unsplit c d) : ¬o.Misses (.subsumed c d) := by
  have member : d ∈ o.told c := List.mem_append_left _ told
  have asked : o.Warrants (fun p => o.Asks (.subsumed c d) p ∧ o.Granted (fun _ => False) p)
      (.subsumed c d) := .told unsplit member ⟨.told unsplit member, .same⟩
  exact fun misses => misses.2 (.subsumed (grounded_of_nothing asked))

/-- When told facts are answered yes. A told type is unless it takes a nominal that leaves
the individual out or it is missed, and a told subsumption unless an alternative of its
left side stays without it or it is missed. What need not be taken apart is never missed,
nor is anything whose search cannot come back to a query that it is in the midst of. -/
theorem told_affirmed_iff {name : String} (reached : Reached name o) :
    (∀ i t, t ∈ o.types i → (o.Affirms (.member i t) ↔ o.Listed i t ∧ ¬o.Misses (.member i t))) ∧
      (∀ c d, d ∈ o.isA c → (o.Affirms (.subsumed c d) ↔
        (∀ p ∈ o.alternatives c d, o.Follows p) ∧ ¬o.Misses (.subsumed c d))) ∧
      (∀ i t, t ∈ o.types i → o.Undivided t → ¬o.Misses (.member i t)) ∧
      (∀ c d, d ∈ o.isA c → o.Unsplit c d → ¬o.Misses (.subsumed c d)) ∧
      ∀ q, o.Knowable q → o.Misses q → o.Circles q := by
  have wf := reached.wellFormed
  have typed : ∀ i t, t ∈ o.types i → o.Knowable (.member i t) := by
    intro i t told
    obtain ⟨name, types, found, _⟩ := mem_types.mp told
    exact ⟨⟨name, individualName?_eq_some.mpr ⟨types, found⟩⟩, wf.types_known told⟩
  have below : ∀ c d, d ∈ o.isA c → o.Knowable (.subsumed c d) := by
    intro c d told
    obtain ⟨e, isA, equivalentTo, found, _⟩ := mem_isA.mp told
    exact ⟨⟨e, expression?_eq_some.mpr ⟨isA, equivalentTo, found⟩⟩, wf.isA_known told⟩
  refine ⟨fun i t told => ?_, fun c d told => ?_, fun i t told => type_not_missed told,
    fun c d told => isA_not_missed told, fun q known misses => misses.circles wf known⟩
  · rw [affirms_iff_follows wf (typed i t told), wf.follows_type_iff (typed i t told) told]
  · rw [affirms_iff_follows wf (below c d told), wf.follows_isA_iff (below c d told) told]

/-- An individual whose only told type is a nominal that lists another one, and a
disjunction told to be a part of what neither operand was told to be a part of. -/
def overlooked : Ontology :=
  (initial "Thing").afterAll
    [.createIndividual "a" ⟨1⟩, .nominal [⟨2⟩], .createIndividual "i" ⟨3⟩, .createConcept "A" [],
      .createConcept "B" [], .createConcept "D" [], .disjunction [⟨5⟩, ⟨6⟩], .addIsA (.concept ⟨8⟩) ⟨7⟩]

theorem overlooked_told_affirmed_iff :
    (overlooked.Affirms (.member ⟨4⟩ ⟨3⟩) ↔
        overlooked.Listed ⟨4⟩ ⟨3⟩ ∧ ¬overlooked.Misses (.member ⟨4⟩ ⟨3⟩)) ∧
      (overlooked.Affirms (.subsumed ⟨8⟩ ⟨7⟩) ↔
        (∀ p ∈ overlooked.alternatives ⟨8⟩ ⟨7⟩, overlooked.Follows p) ∧
          ¬overlooked.Misses (.subsumed ⟨8⟩ ⟨7⟩)) := by
  have answered := told_affirmed_iff (.afterAll .initial _ : Reached "Thing" overlooked)
  exact ⟨answered.1 ⟨4⟩ ⟨3⟩ (by decide +kernel), answered.2.1 ⟨8⟩ ⟨7⟩ (by decide +kernel)⟩

/-- Both told facts are denied. -/
theorem overlooked_denied : Reached "Thing" overlooked ∧
    (⟨3⟩ ∈ overlooked.types ⟨4⟩ ∧ overlooked.Answers false (.member ⟨4⟩ ⟨3⟩)) ∧
      ⟨7⟩ ∈ overlooked.isA ⟨8⟩ ∧ overlooked.Answers false (.subsumed ⟨8⟩ ⟨7⟩) :=
  ⟨.afterAll .initial _, ⟨by decide +kernel, by decide +kernel⟩, by decide +kernel, by decide +kernel⟩

end Ontology

end ConceptLogic
