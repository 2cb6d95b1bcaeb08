import ConceptLogic.Proofs.Reasoning.MissedQueries
import ConceptLogic.Proofs.Reasoning.RuleLaws

namespace ConceptLogic

namespace Ontology

variable {o : Ontology}

/-- If a whole follows exactly if its parts do, then it is answered yes exactly if they
are, unless the whole and the parts are not missed alike. -/
theorem affirms_parts_iff (wf : o.WellFormed) {α : Type} {as : List α} {whole : Query} {part : α → Query}
    (known : o.Knowable whole) (parts_known : ∀ a ∈ as, o.Knowable (part a))
    (law : o.Follows whole ↔ ∀ a ∈ as, o.Follows (part a)) :
    (o.Affirms whole ↔ ∀ a ∈ as, o.Affirms (part a)) ↔
      (o.Misses whole ↔ o.Follows whole ∧ ∃ a ∈ as, o.Misses (part a)) := by
  have whole_iff := affirms_iff_follows wf known
  have part_iff := fun a member => affirms_iff_follows wf (parts_known a member)
  by_cases follows : o.Follows whole
  · have found : o.Affirms whole ↔ ¬o.Misses whole := whole_iff.trans (and_iff_right follows)
    have foundParts : (∀ a ∈ as, o.Affirms (part a)) ↔ ¬∃ a ∈ as, o.Misses (part a) := by
      simp only [not_exists, not_and]
      exact forall₂_congr fun a member =>
        (part_iff a member).trans (and_iff_right (law.mp follows a member))
    rw [found, foundParts, not_iff_not, and_iff_right follows]
  · have denied : ¬o.Affirms whole := fun yes => follows (whole_iff.mp yes).1
    have deniedPart : ¬∀ a ∈ as, o.Affirms (part a) := fun yes =>
      follows (law.mpr fun a member => ((part_iff a member).mp (yes a member)).1)
    exact iff_of_true (iff_of_false denied deniedPart)
      (iff_of_false (fun misses => follows misses.1) fun both => follows both.1)

end Ontology

namespace Connects

variable {operands? : Expression → Option (List ConceptId)} {make : List ConceptId → Expression}
  {o : Ontology} {cs : List ConceptId}

theorem partsUnder_ne_nil (connects : Connects operands? make) (wf : o.WellFormed) {c : ConceptId}
    (known : o.Knows (.concept c)) : o.partsUnder operands? c ≠ [] := by
  by_cases made : ∃ cs, o.expression? c = some (make cs)
  · obtain ⟨cs, found⟩ := made
    have several := ((connects.normal o cs).mp (wf.normal found)).1
    rw [connects.partsUnder_made found]
    exact List.ne_nil_of_length_pos (by omega)
  · rw [connects.partsUnder_other known fun cs found => made ⟨cs, found⟩]
    exact List.cons_ne_nil c []

theorem joined_ne_nil (connects : Connects operands? make) (wf : o.WellFormed)
    (known : ∀ c ∈ cs, o.Knows (.concept c)) (filled : cs ≠ []) : o.joined operands? cs ≠ [] := by
  obtain ⟨c, given⟩ := List.exists_mem_of_ne_nil cs filled
  obtain ⟨x, part⟩ := List.exists_mem_of_ne_nil _ (connects.partsUnder_ne_nil wf (known c given))
  exact List.ne_nil_of_mem (Ontology.mem_joined.mpr ⟨c, given, part⟩)

/-- Joining known concepts makes a concept whose parts are all of theirs. -/
theorem connect_parts (connects : Connects operands? make) (wf : o.WellFormed)
    (known : ∀ c ∈ cs, o.Knows (.concept c)) (filled : cs ≠ []) :
    ∃ w o', (Building.connect operands? make cs).run o = .ok w o' ∧ o.Grows o' ∧
      o'.Knows (.concept w) ∧ o'.partsUnder operands? w = o.joined operands? cs := by
  have nonempty := connects.joined_ne_nil wf known filled
  have done := (Building.connect_yields operands? make cs).1 ⟨known, nonempty⟩
  have grows := connects.grows wf known nonempty
  have apart := fun x => connects.joined_known wf known (x := x)
  revert nonempty done grows apart
  match o.joined operands? cs with
  | [] => exact fun nonempty => absurd rfl nonempty
  | [c] =>
    intro _ done grows apart
    obtain ⟨knownC, other⟩ := apart c (List.mem_singleton.mpr rfl)
    exact ⟨c, o, done, grows, knownC, connects.partsUnder_other knownC other⟩
  | c :: d :: rest =>
    intro _ done grows apart
    have made := o.keeping_expression? (make (c :: d :: rest))
    exact ⟨_, _, done, grows, ⟨_, made⟩, connects.partsUnder_made made⟩

/-- What holds of a concept exactly if it holds of its parts holds of what concepts are
joined to exactly if it holds of them all. -/
theorem forall_parts_iff {o' : Ontology} {w : ConceptId} {P : ConceptId → Prop} (within : o.Within o')
    (known : ∀ c ∈ cs, o.Knows (.concept c)) (knownW : o'.Knows (.concept w))
    (parts : o'.partsUnder operands? w = o.joined operands? cs)
    (law : ∀ c, o'.Knows (.concept c) → (P c ↔ ∀ x ∈ o'.partsUnder operands? c, P x)) :
    P w ↔ ∀ c ∈ cs, P c := by
  have same : ∀ c ∈ cs, o'.partsUnder operands? c = o.partsUnder operands? c := by
    intro c given
    unfold Ontology.partsUnder
    rw [within.expression?_eq (known c given)]
  calc P w ↔ ∀ x ∈ o.joined operands? cs, P x := parts ▸ law w knownW
    _ ↔ ∀ c ∈ cs, ∀ x ∈ o.partsUnder operands? c, P x := by
        simp only [Ontology.mem_joined]
        exact ⟨fun all c given x part => all x ⟨c, given, part⟩,
          fun all x ⟨c, given, part⟩ => all c given x part⟩
    _ ↔ ∀ c ∈ cs, P c := forall₂_congr fun c given => by
        rw [← same c given, ← law c (within.knows (known c given))]

end Connects

namespace Ontology

/-- When a subsumption of a disjunction, under a conjunction or of a nominal is answered
as its parts are, each by a search of its own. It always follows exactly if the parts
do. So the answers agree unless the whole and the parts are not missed alike, which takes
a search that can come back to a query that it is in the midst of. -/
theorem distributes_iff {name : String} {o : Ontology} (reached : Reached name o) :
    (∀ cs, cs ≠ [] → (∀ c ∈ cs, o.Knows (.concept c)) →
      ∃ w o', (Building.disjunction cs).run o = .ok w o' ∧ ∀ d, o'.Knows (.concept d) →
        ((o'.Affirms (.subsumed w d) ↔ ∀ c ∈ cs, o'.Affirms (.subsumed c d)) ↔
          (o'.Misses (.subsumed w d) ↔
            o'.Follows (.subsumed w d) ∧ ∃ c ∈ cs, o'.Misses (.subsumed c d)))) ∧
    (∀ ds, ds ≠ [] → (∀ d ∈ ds, o.Knows (.concept d)) →
      ∃ w o', (Building.conjunction ds).run o = .ok w o' ∧ ∀ c, o'.Knows (.concept c) →
        ((o'.Affirms (.subsumed c w) ↔ ∀ d ∈ ds, o'.Affirms (.subsumed c d)) ↔
          (o'.Misses (.subsumed c w) ↔
            o'.Follows (.subsumed c w) ∧ ∃ d ∈ ds, o'.Misses (.subsumed c d)))) ∧
    (∀ is, (∀ i ∈ is, o.Knows (.individual i)) →
      ∃ w o', (Building.nominal is).run o = .ok w o' ∧ ∀ d, o'.Knows (.concept d) →
        ((o'.Affirms (.subsumed w d) ↔ ∀ i ∈ is, o'.Affirms (.member i d)) ↔
          (o'.Misses (.subsumed w d) ↔
            o'.Follows (.subsumed w d) ∧ ∃ i ∈ is, o'.Misses (.member i d)))) ∧
    ∀ q, o.Knowable q → o.Misses q → o.Circles q := by
  have wf := reached.wellFormed
  refine ⟨fun cs filled known => ?_, fun ds filled known => ?_, fun is known => ?_,
    fun q known misses => misses.circles wf known⟩
  · obtain ⟨w, o', done, grows, knownW, parts⟩ := connects_disjunction.connect_parts wf known filled
    have wf' := wf.grown grows
    refine ⟨w, o', done, fun d knownD => ?_⟩
    have law : o'.Follows (.subsumed w d) ↔ ∀ c ∈ cs, o'.Follows (.subsumed c d) :=
      Connects.forall_parts_iff grows.within known knownW parts fun c => wf'.follows_disjuncts_iff
    exact affirms_parts_iff wf' ⟨knownW, knownD⟩
      (fun c given => ⟨grows.within.knows (known c given), knownD⟩) law
  · obtain ⟨w, o', done, grows, knownW, parts⟩ := connects_conjunction.connect_parts wf known filled
    have wf' := wf.grown grows
    refine ⟨w, o', done, fun c knownC => ?_⟩
    have law : o'.Follows (.subsumed c w) ↔ ∀ d ∈ ds, o'.Follows (.subsumed c d) :=
      Connects.forall_parts_iff grows.within known knownW parts fun d => wf'.follows_conjuncts_iff
    exact affirms_parts_iff wf' ⟨knownC, knownW⟩
      (fun d given => ⟨knownC, grows.within.knows (known d given)⟩) law
  · have done := (Building.nominal_yields is).1 known
    have grows := nominal_grows known
    have made := o.keeping_expression? (.nominal (Handle.sorted is))
    have wf' := wf.grown grows
    refine ⟨_, _, done, fun d knownD => ?_⟩
    have law := (wf'.follows_alternatives_iff (d := d) made rfl).trans List.forall_mem_map
    simp only [Handle.mem_sorted] at law
    exact affirms_parts_iff wf' ⟨⟨_, made⟩, knownD⟩
      (fun i given => ⟨grows.within.knows (known i given), knownD⟩) law

/-- Two concepts, each told to be a part of the other, of which the older one is also
told to be a part of a conjunction. -/
def tangle : Ontology :=
  (initial "Thing").afterAll
    [.createConcept "A" [], .createConcept "B" [], .createConcept "D" [], .createConcept "E" [],
      .conjunction [⟨4⟩, ⟨5⟩], .addIsA (.concept ⟨2⟩) ⟨3⟩, .addIsA (.concept ⟨2⟩) ⟨6⟩,
      .addIsA (.concept ⟨3⟩) ⟨2⟩]

theorem tangle_distributes_iff :
    ∃ w o', (Building.disjunction [⟨2⟩, ⟨3⟩]).run tangle = .ok w o' ∧ o'.Knows (.concept ⟨4⟩) ∧
      ((o'.Affirms (.subsumed w ⟨4⟩) ↔ ∀ c ∈ [⟨2⟩, ⟨3⟩], o'.Affirms (.subsumed c ⟨4⟩)) ↔
        (o'.Misses (.subsumed w ⟨4⟩) ↔
          o'.Follows (.subsumed w ⟨4⟩) ∧ ∃ c ∈ [⟨2⟩, ⟨3⟩], o'.Misses (.subsumed c ⟨4⟩))) := by
  have reached : Reached "Thing" tangle := .afterAll .initial _
  obtain ⟨w, o', done, law⟩ := (distributes_iff reached).1 [⟨2⟩, ⟨3⟩] (by decide) (by decide +kernel)
  have known : o'.Knows (.concept ⟨4⟩) := by
    obtain ⟨_, _, rfl⟩ := (Building.connect_yields Expression.disjuncts? .disjunction _).of_ok done
    decide +kernel
  exact ⟨w, o', done, known, law ⟨4⟩ known⟩

/-- Both concepts lie within an operand of that conjunction, and their disjunction is
said not to. -/
theorem tangle_not_distributed : Reached "Thing" tangle ∧
    ∃ w o', (Building.disjunction [⟨2⟩, ⟨3⟩]).run tangle = .ok w o' ∧
      (∀ c ∈ [⟨2⟩, ⟨3⟩], o'.Answers true (.subsumed c ⟨4⟩)) ∧ o'.Answers false (.subsumed w ⟨4⟩) := by
  have done := (Building.connect_yields (o := tangle) Expression.disjuncts? .disjunction [⟨2⟩, ⟨3⟩]).1
    ⟨by decide +kernel, by decide +kernel⟩
  exact ⟨.afterAll .initial _, _, _, done, by decide +kernel, by decide +kernel⟩

end Ontology

end ConceptLogic
