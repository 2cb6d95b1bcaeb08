import ConceptLogic.Proofs.Ontology.ReachedOntologies
import ConceptLogic.Proofs.Reasoning.Interpretation
import ConceptLogic.Proofs.Reasoning.MissedQueries

namespace ConceptLogic

namespace Quantifier

variable {α : Type*} {related related' filler filler' : Set α} {q p : Quantifier}

theorem some_holds : Quantifier.some.Holds related filler ↔ ((1 : Nat) : ℕ∞) ≤ (related ∩ filler).encard := by
  rw [Nat.cast_one]
  exact Set.one_le_encard_iff_nonempty.symm

/-- What the comparison of two quantifiers rests on. Over more fillers, the first one makes sure of at
least as many as the second one asks for, and over fewer of at most as many. -/
inductive Weighs (related filler related' filler' : Set α) (q p : Quantifier) : Entailment → Prop
  | never : Weighs related filler related' filler' q p .never
  | same (same : q = p) : Weighs related filler related' filler' q p .same
  | wider {n m : Nat} (enough : m ≤ n) (gives : q.Holds related filler → n ≤ (related ∩ filler).encard)
      (asks : m ≤ (related' ∩ filler').encard → p.Holds related' filler') :
      Weighs related filler related' filler' q p .wider
  | universal (left : q = .only) (right : p = .only) : Weighs related filler related' filler' q p .universal
  | narrower {n m : Nat} (enough : n ≤ m) (gives : q.Holds related filler → (related ∩ filler).encard ≤ n)
      (asks : (related' ∩ filler').encard ≤ m → p.Holds related' filler') :
      Weighs related filler related' filler' q p .narrower

theorem entails_weighs : Weighs related filler related' filler' q p (q.entails p) := by
  fun_cases Quantifier.entails q p with
  | case1 => exact .wider le_rfl some_holds.mp some_holds.mpr
  | case2 => exact .universal rfl rfl
  | case3 n => exact .same rfl
  | case5 n m enough => exact .wider enough id id
  | case7 n m enough => exact .wider enough (fun holds => holds.symm.le) id
  | case9 n m enough => exact .narrower enough id id
  | case11 n m enough => exact .narrower enough (fun holds => holds.le) id
  | case13 n enough => exact .wider enough id some_holds.mpr
  | case15 n enough => exact .wider enough (fun holds => holds.symm.le) some_holds.mpr
  | case17 m enough => exact .wider enough some_holds.mp id
  | _ => exact .never

end Quantifier

namespace Interpretation

variable {α : Type*} {I : Interpretation α} {o : Ontology}

/-- A restriction supported by its quantifier, its relation and its filler lies within
the other one. -/
theorem restriction_within (satisfies : I.Satisfies o) {q p : Quantifier} {r s : RelationId}
    {x y : ConceptId} (supports : o.Supports (I.Confirms o) r x s y (q.entails p)) {a : α}
    (holds : q.Holds {b | I.relation r a b} (I.extent o x)) :
    p.Holds {b | I.relation s a b} (I.extent o y) := by
  have weighs : Quantifier.Weighs {b | I.relation r a b} (I.extent o x) {b | I.relation s a b} (I.extent o y)
      q p (q.entails p) := Quantifier.entails_weighs
  generalize q.entails p = e at weighs supports
  cases weighs with
  | never => exact supports.elim
  | same same =>
    obtain ⟨rfl, rfl⟩ := supports
    exact same ▸ holds
  | @wider n m enough gives asks =>
    obtain ⟨sub, filler⟩ := supports
    have more : {b | I.relation r a b} ∩ I.extent o x ⊆ {b | I.relation s a b} ∩ I.extent o y :=
      Set.inter_subset_inter (fun _ related => satisfies.isSubRelation sub related) filler
    refine asks ?_
    calc (m : ℕ∞) ≤ n := Nat.cast_le.mpr enough
      _ ≤ ({b | I.relation r a b} ∩ I.extent o x).encard := gives holds
      _ ≤ ({b | I.relation s a b} ∩ I.extent o y).encard := Set.encard_le_encard more
  | universal left right =>
    obtain ⟨sub, filler⟩ := supports
    subst left right
    exact fun _ related => filler (holds (satisfies.isSubRelation sub related))
  | @narrower n m enough gives asks =>
    obtain ⟨sub, filler⟩ := supports
    have fewer : {b | I.relation s a b} ∩ I.extent o y ⊆ {b | I.relation r a b} ∩ I.extent o x :=
      Set.inter_subset_inter (fun _ related => satisfies.isSubRelation sub related) filler
    refine asks ?_
    calc ({b | I.relation s a b} ∩ I.extent o y).encard
        ≤ ({b | I.relation r a b} ∩ I.extent o x).encard := Set.encard_le_encard fewer
      _ ≤ n := gives holds
      _ ≤ m := Nat.cast_le.mpr enough

/-- Every rule leads from right answers to a right answer. -/
theorem Confirms.of_warrants (wf : o.WellFormed) (satisfies : I.Satisfies o) {q : Query}
    (warrants : o.Warrants (I.Confirms o) q) : I.Confirms o q := by
  cases warrants with
  | same => exact fun _ => id
  | everything =>
    intro a _
    rw [satisfies.everything]
    trivial
  | toConjunction made each =>
    intro a member
    rw [extent_eq wf made]
    exact fun x part => each x part member
  | ofDisjunction _ made each =>
    intro a member
    rw [extent_eq wf made] at member
    obtain ⟨x, part, inPart⟩ := member
    exact each x part inPart
  | ofNominal _ made each =>
    intro a member
    rw [extent_eq wf made] at member
    obtain ⟨i, named, rfl⟩ := member
    exact each i named
  | conjunct _ made part confirms =>
    intro a member
    rw [extent_eq wf made] at member
    exact confirms (member _ part)
  | disjunct _ made part confirms =>
    intro a member
    rw [extent_eq wf made]
    exact ⟨_, part, confirms member⟩
  | negation made made' confirms =>
    intro a member
    rw [extent_eq wf made] at member
    rw [extent_eq wf made']
    exact fun inside => member (confirms inside)
  | restriction made made' supports =>
    intro a member
    rw [extent_eq wf made] at member
    rw [extent_eq wf made']
    exact restriction_within satisfies supports member
  | ancestor _ above => exact satisfies.path (reachable_sound above)
  | told _ told confirms => exact (satisfies.told told).trans confirms
  | definition _ told confirms => exact confirms.trans (satisfies.equivalentTo told).symm.subset
  | everyone =>
    rw [Confirms, satisfies.everything]
    trivial
  | nominated _ made named =>
    rw [Confirms, extent_eq wf made]
    exact ⟨_, named, rfl⟩
  | ofConjuncts _ made each =>
    rw [Confirms, extent_eq wf made]
    exact each
  | ofDisjunct _ made part confirms =>
    rw [Confirms, extent_eq wf made]
    exact ⟨_, part, confirms⟩
  | type _ told confirms => exact confirms (satisfies.types told)
  | equivalent _ told confirms =>
    rw [Confirms, satisfies.equivalentTo told]
    exact confirms

theorem Confirms.of_follows (wf : o.WellFormed) (satisfies : I.Satisfies o) {q : Query}
    (known : o.Knowable q) (follows : o.Follows q) : I.Confirms o q :=
  follows.induct wf (fun _ _ => .of_warrants wf satisfies) known

/-- Whatever calls built an ontology, cycles of told edges included, an answer of yes is
right in every interpretation in which all that was told is so. -/
theorem answers_hold {name : String} (reached : Ontology.Reached name o) (I : Interpretation α)
    (satisfies : I.Satisfies o) :
    (∀ c d o', (Building.isSubsumedBy c d).run o = .ok true o' → I.extent o c ⊆ I.extent o d) ∧
      ∀ i d o', (Building.isInstanceOf i d).run o = .ok true o' → I.individual i ∈ I.extent o d := by
  have wf := reached.wellFormed
  constructor
  · intro c d o' asked
    obtain ⟨known, yes, _⟩ := (Building.isSubsumedBy_yields c d).of_ok asked
    have follows : o.Follows (.subsumed c d) := Ontology.answer_sound wf known yes.symm
    exact Confirms.of_follows wf satisfies (q := .subsumed c d) known follows
  · intro i d o' asked
    obtain ⟨known, yes, _⟩ := (Building.isInstanceOf_yields i d).of_ok asked
    have follows : o.Follows (.member i d) := Ontology.answer_sound wf known yes.symm
    exact Confirms.of_follows wf satisfies (q := .member i d) known follows

/-- Two concepts told to be a part of each other, and an individual of one of them. -/
def circle : Ontology :=
  (Ontology.initial "Thing").afterAll
    [.createConcept "A" [], .createConcept "B" [⟨2⟩], .addIsA (.concept ⟨2⟩) ⟨3⟩,
      .createIndividual "i" ⟨3⟩]

/-- One thing that is both, and another that is neither. -/
def circleModel : Interpretation Bool where
  named c := {a | a = true ∨ c = Ontology.top}
  individual _ := true
  relation _ _ _ := False

theorem circle_reached : Ontology.Reached "Thing" circle := .afterAll .initial _

theorem circleModel_extent {c : ConceptId} (known : circle.Knows (.concept c)) :
    circleModel.extent circle c = circleModel.named c := by
  have named : ∀ n ≤ circle.size, (circle.expression? ⟨n⟩).all (· matches .named _) = true := by
    decide +kernel
  obtain ⟨e, made⟩ := known
  have form := named c.id (Ontology.Knows.bounds (x := .concept c) ⟨e, made⟩).2
  rw [made] at form
  rw [extent_eq circle_reached.wellFormed made]
  cases e with
  | named => rfl
  | _ => cases form

theorem circleModel_satisfies : circleModel.Satisfies circle := by
  have wf := circle_reached.wellFormed
  have below : ∀ n ≤ circle.size, circle.isA ⟨n⟩ ≠ [] → n ≠ 1 := by decide +kernel
  have apart : ∀ n ≤ circle.size, circle.equivalentTo ⟨n⟩ = [] := by decide +kernel
  constructor
  · rw [circleModel_extent wf.top_known]
    exact Set.eq_univ_of_forall fun _ => Or.inr rfl
  · intro c p told
    obtain ⟨e, isA, equivalentTo, found, _⟩ := Ontology.mem_isA.mp told
    have known : circle.Knows (.concept c) := ⟨e, Ontology.expression?_eq_some.mpr ⟨_, _, found⟩⟩
    have notTop : c.id ≠ 1 := below _ known.bounds.2 (List.ne_nil_of_mem told)
    rw [circleModel_extent known, circleModel_extent (wf.isA_known told)]
    rintro a (inside | top)
    · exact Or.inl inside
    · exact absurd (congrArg Handle.id top) notTop
  · intro c p told
    obtain ⟨e, isA, equivalentTo, found, _⟩ := Ontology.mem_equivalentTo.mp told
    have none : circle.equivalentTo c = [] := apart c.id (Ontology.thing?_bounds found).2
    rw [none] at told
    cases told
  · intro i t told
    rw [circleModel_extent (wf.types_known told)]
    exact Or.inl rfl
  · intro r s _ a b related
    exact related.elim

/-- The individual of the circle falls under both of its concepts, as it has to. -/
theorem circle_answers_hold :
    circleModel.individual ⟨4⟩ ∈ circleModel.extent circle ⟨2⟩ ∧
      circleModel.extent circle ⟨2⟩ ⊆ circleModel.extent circle ⟨3⟩ := by
  have hold := answers_hold circle_reached circleModel circleModel_satisfies
  have member : circle.Affirms (.member ⟨4⟩ ⟨2⟩) := by decide +kernel
  have subsumed : circle.Affirms (.subsumed ⟨2⟩ ⟨3⟩) := by decide +kernel
  exact ⟨hold.2 _ _ _ member, hold.1 _ _ _ subsumed⟩

end Interpretation

end ConceptLogic
