import ConceptLogic.Proofs.Grammar.AlignedCursors

namespace ConceptLogic

/-- What may follow a text without being taken for a part of it: nothing, or a line of its own that
begins with a semicolon. -/
inductive Border : List Char → Prop
  | nothing : Border []
  | line (text : List Char) : Border ('\n' :: ';' :: text)

/-- Whether a character is one that a reader may come upon where a text ends and more follows. -/
def Meets (more : List Char) (x : Char) : Prop := more.head? = some x ∨ more.tail.head? = some x

/-- Whether two cursors stand at one place, in a text and in that text with more after it. Where nothing
of the text is left, the line feed behind it may have been passed over. -/
inductive Abuts (more : List Char) : Cursor → Cursor → Prop
  | inside (rest : List Char) (n m : Nat) : Abuts more ⟨rest, n⟩ ⟨rest ++ more, m⟩
  | spent (n m : Nat) : Abuts more ⟨[], n⟩ ⟨more.tail, m⟩

section Places

variable {more : List Char} {c c' : Cursor}

theorem Border.meets (border : Border more) {x : Char} (meets : Meets more x) : x = '\n' ∨ x = ';' := by
  cases border with
  | nothing => rcases meets with here | here <;> cases here
  | line text =>
    rcases meets with here | here
    · exact .inl (Option.some.inj here).symm
    · exact .inr (Option.some.inj here).symm

/-- Either the next character is one of the text, or nothing of the text is left. -/
theorem Abuts.next (abuts : Abuts more c c') :
    (∃ x s s' n m, c = ⟨x :: s, n⟩ ∧ c' = ⟨x :: s', m⟩ ∧ Abuts more ⟨s, n + 1⟩ ⟨s', m + 1⟩) ∨
      (∀ x, c.rest.head? = some x → Meets more x) ∧ ∀ x, c'.rest.head? = some x → Meets more x := by
  cases abuts with
  | inside rest n m =>
    cases rest with
    | nil => exact .inr ⟨nofun, fun x here => .inl here⟩
    | cons x rest => exact .inl ⟨x, rest, rest ++ more, n, m, rfl, rfl, .inside rest _ _⟩
  | spent n m => exact .inr ⟨nofun, fun x here => .inr here⟩

/-- Layout ends at one place in both texts. Behind the text, it ends after the line feed. -/
theorem Border.skipLayout (border : Border more) (commented : Bool) (rest : List Char) (n m : Nat) :
    (∃ x s k l, ConceptLogic.skipLayout commented rest n = ⟨x :: s, k⟩ ∧
      ConceptLogic.skipLayout commented (rest ++ more) m = ⟨x :: (s ++ more), l⟩) ∨
    ∃ k l, ConceptLogic.skipLayout commented rest n = ⟨[], k⟩ ∧
      ConceptLogic.skipLayout commented (rest ++ more) m = ⟨more.tail, l⟩ := by
  induction rest generalizing commented n m with
  | nil =>
    cases border with
    | nothing => cases commented <;> exact .inr ⟨n, m, rfl, rfl⟩
    | line text => cases commented <;> exact .inr ⟨n, m + 1, rfl, rfl⟩
  | cons x rest ih =>
    rw [List.cons_append]
    cases commented with
    | true => exact ih _ _ _
    | false =>
      unfold ConceptLogic.skipLayout
      split
      · exact ih _ _ _
      · split
        · exact ih _ _ _
        · exact .inl ⟨x, rest, n, m, rfl, rfl⟩

theorem Abuts.layout (border : Border more) (abuts : Abuts more c c') :
    (∃ x s k l, c.afterLayout = ⟨x :: s, k⟩ ∧ c'.afterLayout = ⟨x :: (s ++ more), l⟩) ∨
      ∃ k l, c.afterLayout = ⟨[], k⟩ ∧ c'.afterLayout = ⟨more.tail, l⟩ := by
  cases abuts with
  | inside rest n m => exact border.skipLayout false rest n m
  | spent n m =>
    cases border with
    | nothing => exact .inr ⟨n, m, rfl, rfl⟩
    | line text => exact .inr ⟨n, m, rfl, rfl⟩

theorem Abuts.afterLayout (border : Border more) (abuts : Abuts more c c') :
    Abuts more c.afterLayout c'.afterLayout := by
  rcases abuts.layout border with ⟨x, s, k, l, left, right⟩ | ⟨k, l, left, right⟩
  · rw [left, right]
    exact .inside (x :: s) k l
  · rw [left, right]
    exact .spent k l

/-- A text and the same text with a border behind it. -/
def Border.alignment (border : Border more) : Alignment where
  aligned := Abuts more
  bars := Meets more
  barred {x} meets := by
    rcases border.meets meets with rfl | rfl <;> decide
  next := Abuts.next
  layout := Abuts.afterLayout border

end Places

end ConceptLogic
