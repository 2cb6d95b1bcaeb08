import ConceptLogic.Proofs.Reasoning.NotedAnswers

namespace ConceptLogic

/-- A bound on the steps that lead from a query to one that is noted. -/
def Query.rank : Query → Nat
  | .subsumed .. => 0
  | .member _ d => d.id

namespace Ontology

variable {o : Ontology}

theorem Descends.rank_lt (wf : o.WellFormed) {q p : Query} (descends : o.Descends q p) :
    p.rank < q.rank := by
  cases descends with
  | conjunct made member => exact wf.older made _ (List.mem_map_of_mem member)
  | disjunct made member => exact wf.older made _ (List.mem_map_of_mem member)

theorem Knowable.rank_le {q : Query} (known : o.Knowable q) : q.rank ≤ o.size := by
  cases q with
  | subsumed => exact Nat.zero_le _
  | member i d => exact known.2.bounds.2

/-- Every pair of numbers can be noted once, and after each the search can go down to the
oldest operand. -/
theorem Knowable.depth {q : Query} (known : o.Knowable q) :
    o.size * o.size * (o.size + 2) + q.rank < o.searchDepth := by
  have low := known.rank_le
  rw [searchDepth, Nat.succ_mul]
  omega

/-- Two searches that do the same wherever fewer than `count` queries are left to note,
and that take no note back. -/
def Agree (o : Ontology) (count : Nat) (x y : StateM Notes Bool) : Prop :=
  ∀ notes, (o.unnoted notes).card < count → x.run notes = y.run notes ∧ notes.Within (x.run notes).2

theorem respects_agree (o : Ontology) (count : Nat) : Respects (o.Agree count) where
  pure _ notes _ := ⟨rfl, .refl notes⟩
  or := by
    intro x y x' y' first second notes few
    obtain ⟨same, within⟩ := first notes few
    rw [run_orM, run_orM, ← same]
    split
    · exact ⟨rfl, within⟩
    · obtain ⟨same', within'⟩ := second _ ((Finset.card_le_card (unnoted_subset within)).trans_lt few)
      exact ⟨same', within.trans within'⟩
  and := by
    intro x y x' y' first second notes few
    obtain ⟨same, within⟩ := first notes few
    rw [run_andM, run_andM, ← same]
    split
    · obtain ⟨same', within'⟩ := second _ ((Finset.card_le_card (unnoted_subset within)).trans_lt few)
      exact ⟨same', within.trans within'⟩
    · exact ⟨rfl, within⟩

/-- What is noted on the way in leaves one query less to note. -/
theorem Agree.noting {q : Query} (known : o.Knowable q) {count : Nat} {x y : StateM Notes Bool}
    (agree : o.Agree count x y) : o.Agree (count + 1) (Notes.noting q x) (Notes.noting q y) := by
  intro notes few
  cases noted : notes.find? q with
  | some b =>
    rw [Notes.run_noting_found noted, Notes.run_noting_found noted]
    exact ⟨rfl, .refl notes⟩
  | none =>
    have less := unnoted_note_card known noted false
    obtain ⟨same, within⟩ := agree (notes.note q false) (by omega)
    rw [Notes.run_noting_missing noted, Notes.run_noting_missing noted, ← same]
    exact ⟨rfl, Notes.within_noting noted within _⟩

/-- The induction that a search goes by. Each noted query pays for the steps to the next one, and
steps that note nothing go down to older operands. -/
theorem Knowable.induct (wf : o.WellFormed) {motive : Nat → Nat → Query → Prop}
    (step : ∀ fuel count q, o.Knowable q → (∀ p, o.Descends q p → motive fuel count p) →
      (∀ fewer, count = fewer + 1 → ∀ p, o.Asks q p → motive fuel fewer p) → motive (fuel + 1) count q)
    {fuel count : Nat} {q : Query} (known : o.Knowable q)
    (enough : count * (o.size + 2) + q.rank < fuel) : motive fuel count q := by
  induction fuel generalizing q count with
  | zero => exact absurd enough (Nat.not_lt_zero _)
  | succ fuel ih =>
    refine step fuel count q known (fun p descends => ?_) ?_
    · have less := descends.rank_lt wf
      exact ih (descends.knowable wf known) (by omega)
    · rintro fewer rfl p asks
      have known' := asks.knowable wf known
      have low := known'.rank_le
      rw [Nat.succ_mul] at enough
      exact ih known' (by omega)

/-- Fuel is a bound and no more. -/
theorem search_agree (wf : o.WellFormed) {fuel count : Nat} {q : Query} (known : o.Knowable q)
    (enough : count * (o.size + 2) + q.rank < fuel) :
    o.Agree (count + 1) (o.search fuel q) (o.search (fuel + 1) q) := by
  refine known.induct wf (motive := fun fuel count q =>
    o.Agree (count + 1) (o.search fuel q) (o.search (fuel + 1) q)) ?_ enough
  intro fuel count q known operands asked
  refine step_related (respects_agree o (count + 1)) operands fun x y first second => ?_
  refine Agree.noting known (first.related (respects_agree o count) (fun p asks => ?_) second)
  cases count with
  | zero => exact fun _ few => absurd few (Nat.not_lt_zero _)
  | succ count => exact asked count rfl p asks

/-- The depth that a search is given never cuts it short. -/
theorem search_deep_enough (wf : o.WellFormed) {fuel : Nat} {q : Query} (known : o.Knowable q)
    (deep : o.searchDepth ≤ fuel) :
    (o.search fuel q).run Notes.empty = (o.search o.searchDepth q).run Notes.empty := by
  have few : (o.unnoted Notes.empty).card < o.size * o.size + 1 := Nat.lt_succ_of_le (unnoted_empty o)
  induction fuel, deep using Nat.le_induction with
  | base => rfl
  | succ fuel deep ih =>
    have enough := known.depth.trans_le deep
    exact (search_agree wf known enough _ few).1.symm.trans ih

end Ontology

end ConceptLogic
