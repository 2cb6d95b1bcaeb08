import ConceptLogic.Proofs.Ontology.ReachedOntologies
import ConceptLogic.Proofs.Reasoning.ReasoningRules

namespace ConceptLogic

/-- The queries that a subsumption comes down to if its left side is made of
alternatives. -/
def Expression.alternatives? : Expression → Option (ConceptId → List Query)
  | .disjunction cs => some fun d => cs.map (.subsumed · d)
  | .nominal is => some fun d => is.map (.member · d)
  | _ => none

namespace Ontology

variable {o : Ontology} {c d x : ConceptId} {i : IndividualId} {ds : List ConceptId}
  {is : List IndividualId} {e : Expression} {parts : ConceptId → List Query} {p : Query}

theorem Unsplit.not_alternatives (unsplit : o.Unsplit c d) (made : o.expression? c = some e) :
    e.alternatives? ≠ some parts := by
  intro taken
  cases e with
  | disjunction cs => exact unsplit.2.1 cs made
  | nominal is => exact unsplit.2.2 is made
  | _ => cases taken

theorem alternative_everything (taken : e.alternatives? = some parts) (part : p ∈ parts top) :
    o.Follows p := by
  cases e with
  | disjunction ds =>
    cases taken
    obtain ⟨x, _, rfl⟩ := List.mem_map.mp part
    exact .of_warrants .everything
  | nominal is =>
    cases taken
    obtain ⟨i, _, rfl⟩ := List.mem_map.mp part
    exact .of_warrants .everyone
  | _ => cases taken

theorem follows_of_alternatives (apart : ∀ ys, o.expression? d ≠ some (.conjunction ys))
    (made : o.expression? c = some e) (taken : e.alternatives? = some parts)
    (each : ∀ p ∈ parts d, o.Follows p) : o.Follows (.subsumed c d) := by
  cases e with
  | disjunction ds =>
    cases taken
    exact .of_warrants (.ofDisjunction apart made (List.forall_mem_map.mp each))
  | nominal is =>
    cases taken
    exact .of_warrants (.ofNominal apart made (List.forall_mem_map.mp each))
  | _ => cases taken

namespace WellFormed

variable (wf : o.WellFormed)
include wf

/-- A conjunction lies within each of its operands. -/
theorem follows_conjunct (made : o.expression? c = some (.conjunction ds)) (member : x ∈ ds) :
    o.Follows (.subsumed c x) := by
  have unsplit : o.Unsplit c x :=
    ⟨(wf.normal made).2.2 x member, by simp [made], by simp [made]⟩
  exact .of_warrants (.conjunct unsplit made member (.of_warrants .same))

/-- Each operand of a disjunction lies within it. An operand that is a nominal does so by
its members. -/
theorem follows_disjunct (made : o.expression? d = some (.disjunction ds)) (member : x ∈ ds) :
    o.Follows (.subsumed x d) := by
  have notTop : d ≠ top := wf.ne_top made nofun
  have apart : ∀ xs, o.expression? d ≠ some (.conjunction xs) := by simp [made]
  by_cases nominal : ∃ is, o.expression? x = some (.nominal is)
  · obtain ⟨is, named⟩ := nominal
    refine .of_warrants (.ofNominal apart named fun i listed => ?_)
    have notTop' : x ≠ top := wf.ne_top named nofun
    exact .of_warrants (.ofDisjunct notTop made member (.of_warrants (.nominated notTop' named listed)))
  · have unsplit : o.Unsplit x d :=
      ⟨apart, (wf.normal made).2.2 x member, fun is named => nominal ⟨is, named⟩⟩
    exact .of_warrants (.disjunct unsplit made member (.of_warrants .same))

/-- What lies within a conjunction is what lies within each operand. -/
theorem follows_conjunction_iff (made : o.expression? d = some (.conjunction ds)) :
    o.Follows (.subsumed c d) ↔ ∀ x ∈ ds, o.Follows (.subsumed c x) := by
  refine ⟨fun follows x member => ?_, fun each => .of_warrants (.toConjunction made each)⟩
  cases follows.warrants with
  | same => exact wf.follows_conjunct made member
  | everything => exact absurd rfl (wf.ne_top made nofun)
  | toConjunction made' each =>
    rw [made] at made'
    cases made'
    exact each x member
  | ofDisjunction apart => exact absurd made (apart ds)
  | ofNominal apart => exact absurd made (apart ds)
  | conjunct unsplit => exact absurd made (unsplit.1 ds)
  | disjunct unsplit => exact absurd made (unsplit.1 ds)
  | negation _ made' => exact absurd (made.symm.trans made') (by simp)
  | restriction _ made' => exact absurd (made.symm.trans made') (by simp)
  | ancestor unsplit => exact absurd made (unsplit.1 ds)
  | told unsplit => exact absurd made (unsplit.1 ds)
  | definition unsplit => exact absurd made (unsplit.1 ds)

/-- What falls under a conjunction is what falls under each operand. -/
theorem follows_member_conjunction_iff (made : o.expression? d = some (.conjunction ds)) :
    o.Follows (.member i d) ↔ ∀ x ∈ ds, o.Follows (.member i x) := by
  have notTop : d ≠ top := wf.ne_top made nofun
  refine ⟨fun follows x member => ?_, fun each => .of_warrants (.ofConjuncts notTop made each)⟩
  cases follows.warrants with
  | everyone => exact absurd rfl notTop
  | nominated _ made' => exact absurd (made.symm.trans made') (by simp)
  | ofConjuncts _ made' each =>
    rw [made] at made'
    cases made'
    exact each x member
  | ofDisjunct _ made' => exact absurd (made.symm.trans made') (by simp)
  | type undivided => exact absurd made (undivided.1 ds)
  | equivalent undivided => exact absurd made (undivided.1 ds)

/-- What falls under a nominal is what it lists. -/
theorem follows_nominal_iff (made : o.expression? d = some (.nominal is)) :
    o.Follows (.member i d) ↔ i ∈ is := by
  have notTop : d ≠ top := wf.ne_top made nofun
  refine ⟨fun follows => ?_, fun listed => .of_warrants (.nominated notTop made listed)⟩
  cases follows.warrants with
  | everyone => exact absurd rfl notTop
  | nominated _ made' listed =>
    rw [made] at made'
    cases made'
    exact listed
  | ofConjuncts _ made' => exact absurd (made.symm.trans made') (by simp)
  | ofDisjunct _ made' => exact absurd (made.symm.trans made') (by simp)
  | type undivided => exact absurd made (undivided.2 is)
  | equivalent undivided => exact absurd made (undivided.2 is)

/-- Each alternative of a disjunction or a nominal lies within it. -/
theorem follows_alternative (made : o.expression? c = some e) (taken : e.alternatives? = some parts)
    (part : p ∈ parts c) : o.Follows p := by
  cases e with
  | disjunction ds =>
    cases taken
    obtain ⟨x, member, rfl⟩ := List.mem_map.mp part
    exact wf.follows_disjunct made member
  | nominal is =>
    cases taken
    obtain ⟨i, listed, rfl⟩ := List.mem_map.mp part
    exact (wf.follows_nominal_iff made).mpr listed
  | _ => cases taken

/-- Alternatives lie within a conjunction if they do within each of its operands. -/
theorem alternatives_conjunction_iff (left : o.expression? c = some e)
    (taken : e.alternatives? = some parts) (right : o.expression? d = some (.conjunction ds)) :
    (∀ p ∈ parts d, o.Follows p) ↔ ∀ x ∈ ds, ∀ p ∈ parts x, o.Follows p := by
  cases e with
  | disjunction cs =>
    cases taken
    simp only [List.forall_mem_map]
    have each : ∀ x ∈ cs, o.Follows (.subsumed x d) ↔ ∀ y ∈ ds, o.Follows (.subsumed x y) :=
      fun x _ => wf.follows_conjunction_iff right
    exact (forall₂_congr each).trans ⟨fun all y inner x member => all x member y inner,
      fun all x member y inner => all y inner x member⟩
  | nominal is =>
    cases taken
    simp only [List.forall_mem_map]
    have each : ∀ i ∈ is, o.Follows (.member i d) ↔ ∀ y ∈ ds, o.Follows (.member i y) :=
      fun i _ => wf.follows_member_conjunction_iff right
    exact (forall₂_congr each).trans ⟨fun all y inner i listed => all i listed y inner,
      fun all i listed y inner => all y inner i listed⟩
  | _ => cases taken

theorem alternatives_of_follows (apart : ∀ ys, o.expression? d ≠ some (.conjunction ys))
    (made : o.expression? c = some e) (taken : e.alternatives? = some parts)
    (follows : o.Follows (.subsumed c d)) : ∀ p ∈ parts d, o.Follows p := by
  intro p part
  cases follows.warrants with
  | same => exact wf.follows_alternative made taken part
  | everything => exact alternative_everything taken part
  | toConjunction made' => exact absurd made' (apart _)
  | ofDisjunction _ made' each =>
    cases made.symm.trans made'
    cases taken
    exact List.forall_mem_map.mpr each p part
  | ofNominal _ made' each =>
    cases made.symm.trans made'
    cases taken
    exact List.forall_mem_map.mpr each p part
  | conjunct unsplit => exact (unsplit.not_alternatives made taken).elim
  | disjunct unsplit => exact (unsplit.not_alternatives made taken).elim
  | negation made' =>
    cases made.symm.trans made'
    cases taken
  | restriction made' =>
    cases made.symm.trans made'
    cases taken
  | ancestor unsplit => exact (unsplit.not_alternatives made taken).elim
  | told unsplit => exact (unsplit.not_alternatives made taken).elim
  | definition unsplit => exact (unsplit.not_alternatives made taken).elim

/-- What is made of alternatives lies within whatever each of them lies within. Towards a
conjunction this is so because it is so towards each operand. -/
theorem follows_alternatives_iff (made : o.expression? c = some e)
    (taken : e.alternatives? = some parts) :
    o.Follows (.subsumed c d) ↔ ∀ p ∈ parts d, o.Follows p := by
  have apartCase : ∀ y, (∀ ys, o.expression? y ≠ some (.conjunction ys)) →
      (o.Follows (.subsumed c y) ↔ ∀ p ∈ parts y, o.Follows p) := fun y apart =>
    ⟨wf.alternatives_of_follows apart made taken, follows_of_alternatives apart made taken⟩
  by_cases conjunction : ∃ ys, o.expression? d = some (.conjunction ys)
  · obtain ⟨ys, right⟩ := conjunction
    have each : ∀ y ∈ ys, o.Follows (.subsumed c y) ↔ ∀ p ∈ parts y, o.Follows p := fun y member =>
      apartCase y ((wf.normal right).2.2 y member)
    calc o.Follows (.subsumed c d) ↔ ∀ y ∈ ys, o.Follows (.subsumed c y) :=
          wf.follows_conjunction_iff right
      _ ↔ ∀ y ∈ ys, ∀ p ∈ parts y, o.Follows p := forall₂_congr each
      _ ↔ ∀ p ∈ parts d, o.Follows p := (wf.alternatives_conjunction_iff made taken right).symm
  · exact apartCase d fun ys right => conjunction ⟨ys, right⟩

theorem follows_disjuncts_iff (known : o.Knows (.concept c)) :
    o.Follows (.subsumed c d) ↔ ∀ x ∈ o.partsUnder Expression.disjuncts? c, o.Follows (.subsumed x d) := by
  refine connects_disjunction.forall_partsUnder_iff (P := fun x => o.Follows (.subsumed x d)) known ?_
  intro cs made
  exact (wf.follows_alternatives_iff made rfl).trans List.forall_mem_map

theorem follows_conjuncts_iff (known : o.Knows (.concept d)) :
    o.Follows (.subsumed c d) ↔ ∀ x ∈ o.partsUnder Expression.conjuncts? d, o.Follows (.subsumed c x) :=
  connects_conjunction.forall_partsUnder_iff (P := fun x => o.Follows (.subsumed c x)) known
    fun _ made => wf.follows_conjunction_iff made

theorem follows_member_conjuncts_iff (known : o.Knows (.concept d)) :
    o.Follows (.member i d) ↔ ∀ x ∈ o.partsUnder Expression.conjuncts? d, o.Follows (.member i x) :=
  connects_conjunction.forall_partsUnder_iff (P := fun x => o.Follows (.member i x)) known
    fun _ made => wf.follows_member_conjunction_iff made

end WellFormed

end Ontology

end ConceptLogic
