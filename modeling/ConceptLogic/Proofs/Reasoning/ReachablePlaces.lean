import ConceptLogic.Reachability
import Mathlib.Data.Finset.Card
import Mathlib.Logic.Relation
import Mathlib.Order.Interval.Finset.Nat

namespace ConceptLogic

/-- One edge of the graph that `next` spans. -/
def Edge (next : Nat → List Nat) (a b : Nat) : Prop := b ∈ next a

theorem visit_contains {places waiting : List Nat} {reached : Std.TreeSet Nat} {m : Nat} :
    (visit places waiting reached).2.contains m = true ↔ reached.contains m = true ∨ m ∈ places := by
  induction places generalizing waiting reached with
  | nil => simp [visit]
  | cons n rest ih =>
    simp only [visit]
    split
    · rename_i old
      rw [ih, List.mem_cons]
      constructor
      · rintro (before | later)
        · exact Or.inl before
        · exact Or.inr (Or.inr later)
      · rintro (before | rfl | later)
        · exact Or.inl before
        · exact Or.inl old
        · exact Or.inr later
    · rw [ih, Std.TreeSet.contains_insert, List.mem_cons, Bool.or_eq_true,
        beq_iff_eq, Std.LawfulEqCmp.compare_eq_iff_eq, eq_comm (a := n), or_comm (a := m = n), or_assoc]

theorem visit_waiting {places waiting : List Nat} {reached : Std.TreeSet Nat} {m : Nat} :
    m ∈ (visit places waiting reached).1 ↔
      m ∈ waiting ∨ m ∈ places ∧ reached.contains m = false := by
  induction places generalizing waiting reached with
  | nil => simp [visit]
  | cons n rest ih =>
    simp only [visit]
    split
    · rename_i old
      rw [ih, List.mem_cons]
      constructor
      · rintro (before | ⟨later, fresh⟩)
        · exact Or.inl before
        · exact Or.inr ⟨Or.inr later, fresh⟩
      · rintro (before | ⟨rfl | later, fresh⟩)
        · exact Or.inl before
        · rw [old] at fresh
          cases fresh
        · exact Or.inr ⟨later, fresh⟩
    · rename_i fresh
      rw [ih, List.mem_cons, List.mem_cons, Std.TreeSet.contains_insert, Bool.or_eq_false_iff]
      by_cases same : m = n
      · subst same
        simp [Bool.eq_false_of_not_eq_true fresh]
      · have differ : (compare n m == Ordering.eq) = false := by
          simp only [beq_eq_false_iff_ne, ne_eq, Std.LawfulEqCmp.compare_eq_iff_eq]
          exact fun equal => same equal.symm
        simp [same, differ]

/-- The places up to a bound that are not reached yet. -/
def unreached (bound : Nat) (reached : Std.TreeSet Nat) : Finset Nat :=
  (Finset.Icc 1 bound).filter fun m => reached.contains m = false

theorem unreached_insert {bound n : Nat} {reached : Std.TreeSet Nat} (positive : 1 ≤ n)
    (within : n ≤ bound) (fresh : reached.contains n = false) :
    (unreached bound (reached.insert n)).card < (unreached bound reached).card := by
  refine Finset.card_lt_card (Finset.ssubset_iff_of_subset ?_ |>.mpr ⟨n, ?_, ?_⟩)
  · intro m member
    simp only [unreached, Finset.mem_filter, Std.TreeSet.contains_insert, Bool.or_eq_false_iff] at member ⊢
    exact ⟨member.1, member.2.2⟩
  · simp only [unreached, Finset.mem_filter, Finset.mem_Icc]
    exact ⟨⟨positive, within⟩, fresh⟩
  · simp [unreached]

theorem visit_measure {bound : Nat} {places waiting : List Nat} {reached : Std.TreeSet Nat}
    (within : ∀ b ∈ places, 1 ≤ b ∧ b ≤ bound) :
    (visit places waiting reached).1.length + (unreached bound (visit places waiting reached).2).card ≤
      waiting.length + (unreached bound reached).card := by
  induction places generalizing waiting reached with
  | nil => exact le_rfl
  | cons n rest ih =>
    have later : ∀ b ∈ rest, 1 ≤ b ∧ b ≤ bound := fun b member => within b (List.mem_cons_of_mem _ member)
    simp only [visit]
    split
    · exact ih later
    · rename_i fresh
      obtain ⟨positive, below⟩ := within n (List.mem_cons_self ..)
      have fewer := unreached_insert positive below (Bool.eq_false_of_not_eq_true fresh)
      refine (ih later).trans ?_
      simp only [List.length_cons]
      omega

/-- Whatever the walk reaches lies on a path from where it started. -/
theorem spread_sound {next : Nat → List Nat} {start fuel : Nat} {waiting : List Nat}
    {reached : Std.TreeSet Nat}
    (old : ∀ m, reached.contains m = true → Relation.TransGen (Edge next) start m)
    (held : ∀ m ∈ waiting, Relation.ReflTransGen (Edge next) start m) {m : Nat}
    (member : (spread next fuel waiting reached).contains m = true) :
    Relation.TransGen (Edge next) start m := by
  induction fuel generalizing waiting reached with
  | zero => exact old m member
  | succ fuel ih =>
    cases waiting with
    | nil => exact old m member
    | cons n rest =>
      have path := held n (List.mem_cons_self ..)
      refine ih ?_ ?_ member
      · intro k reachedK
        rcases visit_contains.mp reachedK with before | edge
        · exact old k before
        · exact .tail' path edge
      · intro k waits
        rcases visit_waiting.mp waits with before | ⟨edge, _⟩
        · exact held k (List.mem_cons_of_mem _ before)
        · exact path.tail edge

/-- With enough fuel, the edges of every place that was reached, and of the start,
have been followed. What still waits is what the invariant leaves open. -/
theorem spread_closed {next : Nat → List Nat} {start bound fuel : Nat} {waiting : List Nat}
    {reached : Std.TreeSet Nat} (within : ∀ a, ∀ b ∈ next a, 1 ≤ b ∧ b ≤ bound)
    (enough : waiting.length + (unreached bound reached).card ≤ fuel)
    (followed : ∀ a, a = start ∨ reached.contains a = true →
      a ∈ waiting ∨ ∀ b ∈ next a, reached.contains b = true)
    {a b : Nat} (from_ : a = start ∨ (spread next fuel waiting reached).contains a = true)
    (edge : b ∈ next a) : (spread next fuel waiting reached).contains b = true := by
  induction fuel generalizing waiting reached with
  | zero =>
    have empty : waiting = [] := List.eq_nil_of_length_eq_zero (by omega)
    subst empty
    exact ((followed a from_).resolve_left List.not_mem_nil) b edge
  | succ fuel ih =>
    cases waiting with
    | nil => exact ((followed a from_).resolve_left List.not_mem_nil) b edge
    | cons n rest =>
      have measure : (visit (next n) rest reached).1.length +
          (unreached bound (visit (next n) rest reached).2).card ≤ rest.length + (unreached bound reached).card :=
        visit_measure (within n)
      simp only [List.length_cons] at enough
      refine ih (by omega) ?_ from_
      intro k source
      by_cases popped : k = n
      · subst popped
        exact Or.inr fun b edge => visit_contains.mpr (Or.inr edge)
      by_cases known : k = start ∨ reached.contains k = true
      · rcases followed k known with waits | done
        · exact Or.inl (visit_waiting.mpr (Or.inl ((List.mem_cons.mp waits).resolve_left popped)))
        · exact Or.inr fun b edge => visit_contains.mpr (Or.inl (done b edge))
      · obtain ⟨notStart, fresh⟩ := not_or.mp known
        have found := visit_contains.mp (source.resolve_left notStart)
        exact Or.inl (visit_waiting.mpr
          (Or.inr ⟨found.resolve_left fresh, Bool.eq_false_of_not_eq_true fresh⟩))

theorem reachable_sound {next : Nat → List Nat} {bound start m : Nat}
    (member : (reachable next bound start).contains m = true) :
    Relation.TransGen (Edge next) start m := by
  refine spread_sound (fun k found => ?_) (fun k waits => ?_) member
  · simp at found
  · rw [List.mem_singleton.mp waits]

/-- The walk finds exactly what one or more edges lead to. -/
theorem reachable_iff {next : Nat → List Nat} {bound start m : Nat}
    (within : ∀ a, ∀ b ∈ next a, 1 ≤ b ∧ b ≤ bound) :
    (reachable next bound start).contains m = true ↔ Relation.TransGen (Edge next) start m := by
  refine ⟨reachable_sound, fun path => ?_⟩
  have enough : [start].length + (unreached bound {}).card ≤ bound + 1 := by
    have few : (unreached bound {}).card ≤ (Finset.Icc 1 bound).card := Finset.card_filter_le _ _
    simp only [Nat.card_Icc, List.length_singleton] at few ⊢
    omega
  have followed : ∀ a, a = start ∨ (∅ : Std.TreeSet Nat).contains a = true →
      a ∈ [start] ∨ ∀ b ∈ next a, (∅ : Std.TreeSet Nat).contains b = true := by
    intro a source
    simp only [Std.TreeSet.contains_emptyc, Bool.false_eq_true, or_false] at source
    exact Or.inl (List.mem_singleton.mpr source)
  induction path with
  | single edge => exact spread_closed within enough followed (Or.inl rfl) edge
  | tail _ edge ih => exact spread_closed within enough followed (Or.inr ih) edge

end ConceptLogic
