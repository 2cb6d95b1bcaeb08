import ConceptLogic.Proofs.Reasoning.Taxonomies

namespace ConceptLogic

/-- One turn of a walk: the place that waits first is left, and those that it leads to and that are
not reached yet wait from now on. Where nothing waits, nothing happens any more. -/
def turn (next : Nat → List Nat) : List Nat × Std.TreeSet Nat → List Nat × Std.TreeSet Nat
  | ([], reached) => ([], reached)
  | (n :: waiting, reached) => visit (next n) waiting reached

/-- How many turns a walk can still take: one for each place that waits or that it can come to. -/
def remaining (bound : Nat) (walk : List Nat × Std.TreeSet Nat) : Nat :=
  walk.1.length + (unreached bound walk.2).card

section

variable {next : Nat → List Nat} {bound : Nat}

theorem spread_eq_turns (fuel : Nat) (waiting : List Nat) (reached : Std.TreeSet Nat) :
    spread next fuel waiting reached = ((turn next)^[fuel] (waiting, reached)).2 := by
  induction fuel generalizing waiting reached with
  | zero => rfl
  | succ fuel ih =>
    rw [Function.iterate_succ_apply]
    cases waiting with
    | nil => rw [turn, Function.iterate_fixed rfl, spread]
    | cons n waiting => exact ih _ _

/-- Every turn uses up one. A place that is left is not counted any more, and one that comes to wait
was counted before. -/
theorem turn_remaining (within : ∀ a, ∀ b ∈ next a, 1 ≤ b ∧ b ≤ bound) {walk : List Nat × Std.TreeSet Nat}
    (waits : walk.1 ≠ []) : remaining bound (turn next walk) < remaining bound walk := by
  obtain ⟨_ | ⟨n, waiting⟩, reached⟩ := walk
  · exact absurd rfl waits
  · have kept : remaining bound (turn next (n :: waiting, reached)) ≤
        waiting.length + (unreached bound reached).card := visit_measure (within n)
    simp only [remaining, List.length_cons] at kept ⊢
    omega

theorem turns_end (within : ∀ a, ∀ b ∈ next a, 1 ≤ b ∧ b ≤ bound) {turns : Nat}
    {walk : List Nat × Std.TreeSet Nat} (enough : remaining bound walk ≤ turns) :
    ((turn next)^[turns] walk).1 = [] := by
  induction turns generalizing walk with
  | zero => exact List.eq_nil_of_length_eq_zero (Nat.add_eq_zero_iff.mp (Nat.le_zero.mp enough)).1
  | succ turns ih =>
    by_cases waits : walk.1 = []
    · have still : turn next walk = walk := by
        obtain ⟨waiting, reached⟩ := walk
        cases waits
        rfl
      rw [Function.iterate_fixed still, waits]
    · have fewer := turn_remaining within waits
      exact ih (by omega)

/-- A walk over no more than `bound` places comes to an end after one turn more than that, with
what can be reached. -/
theorem turns_reachable (within : ∀ a, ∀ b ∈ next a, 1 ≤ b ∧ b ≤ bound) (start : Nat) :
    (turn next)^[bound + 1] ([start], {}) = ([], reachable next bound start) := by
  have few : (unreached bound {}).card ≤ (Finset.Icc 1 bound).card := Finset.card_filter_le _ _
  have enough : remaining bound ([start], {}) ≤ bound + 1 := by
    simp only [Nat.card_Icc, remaining, List.length_singleton] at few ⊢
    omega
  exact Prod.ext (turns_end within enough) (spread_eq_turns _ _ _).symm

end

/-- Where edges lead on from one place to another, they do so without passing a place twice. -/
theorem exists_path {α : Type} {edge : α → α → Prop} {a b : α} (leads : Relation.TransGen edge a b) :
    ∃ between, (a :: between).Nodup ∧ (a :: (between ++ [b])).IsChain edge := by
  induction leads using Relation.TransGen.head_induction_on with
  | single last => exact ⟨[], List.nodup_singleton _, .cons_cons last (.singleton _)⟩
  | @head a x first _ ih =>
    obtain ⟨between, distinct, chain⟩ := ih
    by_cases again : a ∈ x :: between
    · -- The path comes back to where it begins, so the way up to there is left out.
      obtain ⟨before, after, split⟩ := List.append_of_mem again
      rw [← List.cons_append, split, List.append_assoc] at chain
      rw [split] at distinct
      exact ⟨after, distinct.of_append_right, chain.right_of_append⟩
    · exact ⟨x :: between, List.nodup_cons.mpr ⟨again, distinct⟩, .cons_cons first chain⟩

theorem leads_of_path {α : Type} {edge : α → α → Prop} {a b : α} {between : List α}
    (chain : (a :: (between ++ [b])).IsChain edge) : Relation.TransGen edge a b := by
  induction between generalizing a with
  | nil => exact .single (List.isChain_cons_cons.mp chain).1
  | cons x between ih =>
    obtain ⟨first, rest⟩ := List.isChain_cons_cons.mp chain
    exact .head first (ih rest)

namespace Ontology

variable {o : Ontology} {c d : ConceptId}

/-- What has been told of a concept itself, that it falls under another one or is the same. -/
def TellsOf (o : Ontology) (c p : ConceptId) : Prop :=
  p ∈ o.isA c ∨ p ∈ o.equivalentTo c

/-- A path of one or more told edges, by the concepts that it passes between its two ends. -/
def Path (o : Ontology) (c d : ConceptId) (between : List ConceptId) : Prop :=
  (c :: (between ++ [d])).IsChain o.TellsOf

instance (o : Ontology) : DecidableRel o.TellsOf := fun c p =>
  inferInstanceAs (Decidable (p ∈ o.isA c ∨ p ∈ o.equivalentTo c))

instance (o : Ontology) (c d : ConceptId) : DecidablePred (o.Path c d) := fun between =>
  inferInstanceAs (Decidable (List.IsChain o.TellsOf (c :: (between ++ [d]))))

/-- The numbers that the told edges of a concept lead to. -/
def toldNumbers (o : Ontology) (n : Nat) : List Nat :=
  (o.told ⟨n⟩).map Handle.id

theorem climbs_eq : o.Climbs = Relation.TransGen o.TellsOf := by
  have edges : (fun c p => p ∈ o.told c) = o.TellsOf := by
    funext c p
    exact propext List.mem_append
  rw [Climbs, edges]

theorem mem_ancestors : d ∈ o.ancestors c ↔ (o.above c).contains d.id = true := by
  rw [ancestors, List.mem_map]
  constructor
  · rintro ⟨n, member, rfl⟩
    exact Std.TreeSet.mem_toList.mp member
  · exact fun member => ⟨d.id, Std.TreeSet.mem_toList.mpr member, rfl⟩

/-- The walk over told edges that looks for the ancestors of a concept comes to an end, and they are
what one or more told edges lead to, whatever circles these make. So a concept is its own ancestor
exactly if it lies on a circle. -/
theorem ancestors_exact {name : String} (reached : Reached name o) (c : ConceptId) :
    (∃ turns ≤ o.size + 1, (turn o.toldNumbers)^[turns] ([c.id], {}) = ([], o.above c)) ∧
    (∀ d, d ∈ o.ancestors c ↔ ∃ between, o.Path c d between) ∧
    (c ∈ o.ancestors c ↔ ∃ between, (c :: between).Nodup ∧ o.Path c c between) := by
  have wf := reached.wellFormed
  have within : ∀ n, ∀ m ∈ o.toldNumbers n, 1 ≤ m ∧ m ≤ o.size := by
    intro n m edge
    obtain ⟨p, told, rfl⟩ := List.mem_map.mp edge
    exact (wf.told_known told).bounds
  have climbed : ∀ d, d ∈ o.ancestors c ↔ Relation.TransGen o.TellsOf c d := by
    intro d
    rw [mem_ancestors, ← wf.climbs_iff, climbs_eq]
  refine ⟨⟨o.size + 1, le_rfl, turns_reachable within c.id⟩, fun d => ?_, ?_⟩
  · rw [climbed d]
    constructor
    · intro leads
      obtain ⟨between, _, path⟩ := exists_path leads
      exact ⟨between, path⟩
    · rintro ⟨between, path⟩
      exact leads_of_path path
  · rw [climbed c]
    constructor
    · exact exists_path
    · rintro ⟨between, _, path⟩
      exact leads_of_path path

theorem webbed_ancestors : Reached "Thing" webbed ∧ (⟨2⟩ : ConceptId) ∈ webbed.ancestors ⟨2⟩ ∧
    (⟨3⟩ : ConceptId) ∈ webbed.ancestors ⟨7⟩ ∧ ∃ turns ≤ webbed.size + 1,
      (turn webbed.toldNumbers)^[turns] ([7], {}) = ([], webbed.above ⟨7⟩) := by
  have reached : Reached "Thing" webbed := .afterAll .initial _
  obtain ⟨_, _, circle⟩ := ancestors_exact reached ⟨2⟩
  obtain ⟨ends, paths, _⟩ := ancestors_exact reached ⟨7⟩
  refine ⟨reached, circle.mpr ⟨[⟨4⟩, ⟨3⟩], by decide +kernel⟩, ?_, ends⟩
  exact (paths ⟨3⟩).mpr ⟨[⟨1⟩, ⟨4⟩], by decide +kernel⟩

end Ontology

end ConceptLogic
