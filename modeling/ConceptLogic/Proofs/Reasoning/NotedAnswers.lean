import ConceptLogic.Proofs.Reasoning.SearchSteps
import Mathlib.Data.Finset.Prod
import Mathlib.Order.Interval.Finset.Nat

namespace ConceptLogic

section Running

variable {σ : Type} (x y : StateM σ Bool) (s : σ)

theorem run_orM : (x <||> y).run s = if (x.run s).1 = true then x.run s else y.run (x.run s).2 := by
  change (match x.run s with
    | (b, s') => (match b with
      | true => pure b
      | false => y : StateM σ Bool).run s') = _
  match x.run s with
  | (true, s') => rfl
  | (false, s') => rfl

theorem run_andM : (x <&&> y).run s = if (x.run s).1 = true then y.run (x.run s).2 else x.run s := by
  change (match x.run s with
    | (b, s') => (match b with
      | true => y
      | false => pure b : StateM σ Bool).run s') = _
  match x.run s with
  | (true, s') => rfl
  | (false, s') => rfl

end Running

namespace Notes

variable {q p : Query} {x : StateM Notes Bool} {notes notes' : Notes} {b : Bool}

theorem run_noting_found (found : notes.find? q = some b) : (noting q x).run notes = (b, notes) := by
  rw [noting, StateT.run_bind, StateT.run_get, pure_bind]
  rw [found]
  rfl

theorem run_noting_missing (missing : notes.find? q = none) : (noting q x).run notes =
    ((x.run (notes.note q false)).1,
      (x.run (notes.note q false)).2.note q (x.run (notes.note q false)).1) := by
  rw [noting, StateT.run_bind, StateT.run_get, pure_bind]
  rw [missing]
  rfl

theorem find?_note_self : (notes.note q b).find? q = some b := by
  rw [find?_note, if_pos rfl]

theorem find?_note_other (differ : q.key ≠ p.key) : (notes.note q b).find? p = notes.find? p := by
  rw [find?_note, if_neg differ]

/-- Whether whatever one has noted, another has noted as well. -/
def Within (notes notes' : Notes) : Prop :=
  ∀ q b, notes.find? q = some b → notes'.find? q = some b

theorem Within.refl (notes : Notes) : notes.Within notes :=
  fun _ _ => id

theorem Within.trans {notes'' : Notes} (within : notes.Within notes') (more : notes'.Within notes'') :
    notes.Within notes'' :=
  fun q b found => more q b (within q b found)

theorem key_ne (missing : notes.find? q = none) (found : notes.find? p = some b) : q.key ≠ p.key := by
  intro same
  simp only [find?, same] at missing found
  rw [missing] at found
  cases found

theorem within_note (missing : notes.find? q = none) (b : Bool) : notes.Within (notes.note q b) :=
  fun _ _ found => (find?_note_other (key_ne missing found)).trans found

/-- A search whose query is noted at its start changes none of the older notes. -/
theorem within_noting (missing : notes.find? q = none)
    (within : (notes.note q false).Within notes') (b : Bool) : notes.Within (notes'.note q b) := by
  intro p b' found
  rw [find?_note_other (key_ne missing found)]
  exact within p b' (within_note missing false p b' found)

end Notes

namespace Ontology

variable {o : Ontology}

/-- Known queries that are noted under the same numbers are the same query. -/
theorem Knowable.key_inj {p q : Query} (known : o.Knowable p) (known' : o.Knowable q)
    (same : p.key = q.key) : p = q := by
  cases p with
  | subsumed c d =>
    cases q with
    | subsumed c' d' =>
      cases c; cases d; cases c'; cases d'
      cases same
      rfl
    | member i d' => exact absurd (Prod.ext_iff.mp same).1 (known.1.id_ne known'.1)
  | member i d =>
    cases q with
    | subsumed c' d' => exact absurd (Prod.ext_iff.mp same).1.symm (known'.1.id_ne known.1)
    | member i' d' =>
      cases i; cases d; cases i'; cases d'
      cases same
      rfl

/-- The pairs of numbers that nothing is noted under yet. -/
def unnoted (o : Ontology) (notes : Notes) : Finset (Nat × Nat) :=
  (Finset.Icc 1 o.size ×ˢ Finset.Icc 1 o.size).filter fun k => notes.answers[k]? = none

theorem mem_unnoted {notes : Notes} {q : Query} (known : o.Knowable q) :
    q.key ∈ o.unnoted notes ↔ notes.find? q = none := by
  have bounds : (1 ≤ q.key.1 ∧ q.key.1 ≤ o.size) ∧ 1 ≤ q.key.2 ∧ q.key.2 ≤ o.size := by
    cases q with
    | subsumed c d => exact ⟨known.1.bounds, known.2.bounds⟩
    | member i d => exact ⟨known.1.bounds, known.2.bounds⟩
  simp only [unnoted, Finset.mem_filter, Finset.mem_product, Finset.mem_Icc]
  exact ⟨And.right, fun missing => ⟨bounds, missing⟩⟩

theorem unnoted_subset {notes notes' : Notes} (within : notes.Within notes') :
    o.unnoted notes' ⊆ o.unnoted notes := by
  intro k member
  simp only [unnoted, Finset.mem_filter] at member ⊢
  refine ⟨member.1, Option.eq_none_iff_forall_ne_some.mpr fun b noted => ?_⟩
  have kept : notes'.answers[k]? = some b := within (.subsumed ⟨k.1⟩ ⟨k.2⟩) b noted
  cases member.2.symm.trans kept

/-- What is noted leaves one query less to note. -/
theorem unnoted_note_card {notes : Notes} {q : Query} (known : o.Knowable q)
    (missing : notes.find? q = none) (b : Bool) :
    (o.unnoted (notes.note q b)).card < (o.unnoted notes).card := by
  have fewer := unnoted_subset (o := o) (Notes.within_note missing b)
  refine Finset.card_lt_card ((Finset.ssubset_iff_of_subset fewer).mpr ⟨q.key, ?_, ?_⟩)
  · exact (mem_unnoted known).mpr missing
  · rw [mem_unnoted known, Notes.find?_note_self]
    exact Option.some_ne_none b

theorem unnoted_empty (o : Ontology) : (o.unnoted Notes.empty).card ≤ o.size * o.size := by
  refine (Finset.card_filter_le _ _).trans_eq ?_
  rw [Finset.card_product, Nat.card_Icc, Nat.add_sub_cancel]

end Ontology

end ConceptLogic
