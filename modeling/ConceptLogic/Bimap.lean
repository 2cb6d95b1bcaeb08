import Mathlib.Data.List.AList

namespace ConceptLogic

/-- What a table has after an insertion: the new line in place of any old one for its key. -/
theorem lookup_insert_ite {α β : Type} [DecidableEq α] (table : AList fun _ : α => β) (a : α) (b : β) (x : α) :
    (table.insert a b).lookup x = if x = a then some b else table.lookup x := by
  by_cases same : x = a
  · rw [if_pos same, same]
    exact AList.lookup_insert table
  · rw [if_neg same]
    exact AList.lookup_insert_ne same

theorem mem_of_lookup {α β : Type} [DecidableEq α] {table : AList fun _ : α => β} {a : α} {b : β}
    (line : table.lookup a = some b) : a ∈ table :=
  AList.lookup_isSome.mp (Option.isSome_of_eq_some line)

/-- Pairs that are looked up from either side, in a table for each. -/
structure Bimap (α β : Type) where
  rights : AList fun _ : α => β
  lefts : AList fun _ : β => α

namespace Bimap

variable {α β : Type} [DecidableEq α] [DecidableEq β]

def empty : Bimap α β := ⟨∅, ∅⟩

def toRight? (m : Bimap α β) (a : α) : Option β := m.rights.lookup a

def toLeft? (m : Bimap α β) (b : β) : Option α := m.lefts.lookup b

/-- The same pairs with their sides exchanged. -/
def swap (m : Bimap α β) : Bimap β α := ⟨m.lefts, m.rights⟩

/-- Takes out the pair with the given left side, if there is one. -/
def eraseLeft (m : Bimap α β) (a : α) : Bimap α β :=
  match m.toRight? a with
  | none => m
  | some b => ⟨m.rights.erase a, m.lefts.erase b⟩

def eraseRight (m : Bimap α β) (b : β) : Bimap α β := (m.swap.eraseLeft b).swap

/-- Pairs two things. What either of them was paired with before is left without a partner. -/
def insert (m : Bimap α β) (a : α) (b : β) : Bimap α β :=
  let m := (m.eraseLeft a).eraseRight b
  ⟨m.rights.insert a b, m.lefts.insert b a⟩

/-- Whether both tables have the same pairs. -/
def Paired (m : Bimap α β) : Prop := ∀ a b, m.toRight? a = some b ↔ m.toLeft? b = some a

variable {m : Bimap α β} {a : α} {b : β}

theorem eraseLeft_toRight? (x : α) : (m.eraseLeft a).toRight? x = if x = a then none else m.toRight? x := by
  unfold eraseLeft
  split
  · rename_i missing
    by_cases same : x = a
    · rw [if_pos same, same, missing]
    · rw [if_neg same]
  · by_cases same : x = a
    · rw [if_pos same, same]
      exact AList.lookup_erase a m.rights
    · rw [if_neg same]
      exact AList.lookup_erase_ne same

theorem eraseLeft_toLeft? (y : β) :
    (m.eraseLeft a).toLeft? y = if m.toRight? a = some y then none else m.toLeft? y := by
  unfold eraseLeft
  split
  · rename_i missing
    rw [missing, if_neg nofun]
  · rename_i b found
    by_cases same : y = b
    · rw [found, same, if_pos rfl]
      exact AList.lookup_erase b m.lefts
    · rw [found, if_neg fun paired => same (Option.some.inj paired).symm]
      exact AList.lookup_erase_ne same

theorem insert_toRight? (x : α) :
    (m.insert a b).toRight? x = if x = a then some b else ((m.eraseLeft a).eraseRight b).toRight? x :=
  lookup_insert_ite ..

theorem insert_toLeft? (y : β) :
    (m.insert a b).toLeft? y = if y = b then some a else ((m.eraseLeft a).eraseRight b).toLeft? y :=
  lookup_insert_ite ..

/-- What has no partner yet takes none from anything else. -/
theorem erase_fresh (noRight : m.toRight? a = none) (noLeft : m.toLeft? b = none) :
    (m.eraseLeft a).eraseRight b = m := by
  have left : m.eraseLeft a = m := by rw [eraseLeft, noRight]
  have right : m.swap.eraseLeft b = m.swap := by
    unfold eraseLeft
    rw [show m.swap.toRight? b = none from noLeft]
  rw [left, eraseRight, right]
  rfl

theorem insert_fresh_toLeft? (noRight : m.toRight? a = none) (noLeft : m.toLeft? b = none) (y : β) :
    (m.insert a b).toLeft? y = if y = b then some a else m.toLeft? y := by
  rw [insert_toLeft?, erase_fresh noRight noLeft]

theorem paired_empty : (empty : Bimap α β).Paired := fun _ _ => ⟨nofun, nofun⟩

theorem Paired.swap (paired : m.Paired) : m.swap.Paired := fun b a => (paired a b).symm

theorem Paired.eraseLeft (paired : m.Paired) (a : α) : (m.eraseLeft a).Paired := by
  intro x y
  rw [eraseLeft_toRight?, eraseLeft_toLeft?]
  by_cases left : x = a
  · subst left
    by_cases partner : m.toRight? x = some y
    · simp only [partner, if_true, reduceCtorEq]
    · rw [if_pos rfl, if_neg partner, ← paired]
      exact ⟨nofun, fun found => absurd found partner⟩
  · rw [if_neg left]
    by_cases partner : m.toRight? a = some y
    · rw [if_pos partner, paired, (paired a y).mp partner, Option.some.injEq]
      exact ⟨fun same => absurd same.symm left, nofun⟩
    · rw [if_neg partner, paired]

theorem Paired.eraseRight (paired : m.Paired) (b : β) : (m.eraseRight b).Paired :=
  (paired.swap.eraseLeft b).swap

/-- Nothing is left of what either side was paired with before. -/
theorem Paired.insert (paired : m.Paired) (a : α) (b : β) : (m.insert a b).Paired := by
  have erased := (paired.eraseLeft a).eraseRight b
  have noLeft : ((m.eraseLeft a).eraseRight b).toLeft? b = none :=
    (eraseLeft_toRight? (m := (m.eraseLeft a).swap) b).trans (if_pos rfl)
  have noRight : ((m.eraseLeft a).eraseRight b).toRight? a = none := by
    have gone : (m.eraseLeft a).toRight? a = none := (eraseLeft_toRight? a).trans (if_pos rfl)
    refine (eraseLeft_toLeft? (m := (m.eraseLeft a).swap) a).trans ?_
    split
    · rfl
    · exact gone
  intro x y
  rw [insert_toRight?, insert_toLeft?]
  by_cases left : x = a
  · subst left
    by_cases right : y = b
    · rw [if_pos rfl, if_pos right, right]
      exact iff_of_true rfl rfl
    · rw [if_pos rfl, if_neg right, ← erased, noRight, Option.some.injEq]
      exact ⟨fun same => absurd same.symm right, nofun⟩
  · by_cases right : y = b
    · subst right
      rw [if_neg left, if_pos rfl, erased, noLeft, Option.some.injEq]
      exact ⟨nofun, fun same => absurd same.symm left⟩
    · rw [if_neg left, if_neg right, erased]

end Bimap

end ConceptLogic
