import ConceptLogic.Proofs.Grammar.MatchTrees
import ConceptLogic.Proofs.Grammar.NameTokens

namespace ConceptLogic

/-- A name, a keyword or a number as it stands in a text, and where it begins. -/
structure Word where
  text : List Char
  offset : Nat
  deriving DecidableEq, Repr

/-- Which characters go on with what a character begins: a number, a name or a comment. -/
def goesOnWith (x : Char) : Char → Bool :=
  if x.isDigit then Char.isDigit
  else if isNameChar x then isNameChar
  else if x == '#' then fun y => !endsComment y
  else fun _ => false

theorem length_dropWhile_le {α : Type} (p : α → Bool) (s : List α) : (s.dropWhile p).length ≤ s.length :=
  (List.dropWhile_sublist p).length_le

/-- The words of a text, each as long as it can be, given where the text begins. A comment has none. -/
def words : List Char → Nat → List Word
  | [], _ => []
  | x :: rest, n =>
    let tail := rest.takeWhile (goesOnWith x)
    let others := words (rest.dropWhile (goesOnWith x)) (n + 1 + tail.length)
    if isNameChar x then ⟨x :: tail, n⟩ :: others else others
termination_by s => s.length
decreasing_by exact Nat.lt_succ_of_le (length_dropWhile_le ..)

/-- What a text begins with is taken off up to where it does not go on. -/
theorem words_run {x : Char} {tail rest : List Char} (all : ∀ y ∈ tail, goesOnWith x y = true)
    (stop : ∀ y ∈ rest.head?, goesOnWith x y = false) (n : Nat) :
    words (x :: (tail ++ rest)) n =
      (if isNameChar x then [⟨x :: tail, n⟩] else []) ++ words rest (n + 1 + tail.length) := by
  have nothing : rest.takeWhile (goesOnWith x) = [] ∧ rest.dropWhile (goesOnWith x) = rest := by
    cases rest with
    | nil => exact ⟨rfl, rfl⟩
    | cons y rest => simp [stop y rfl]
  rw [words, List.takeWhile_append_of_pos all, List.dropWhile_append_of_pos all, nothing.1, nothing.2,
    List.append_nil]
  cases isNameChar x <;> rfl

/-- Whether a character is neither a part of a word nor the mark of a comment. -/
def isSign (x : Char) : Bool := !isNameChar x && x != '#'

theorem words_sign {x : Char} (sign : isSign x = true) (rest : List Char) (n : Nat) :
    words (x :: rest) n = words rest (n + 1) := by
  simp only [isSign, Bool.and_eq_true, Bool.not_eq_true', bne_iff_ne] at sign
  have digit : x.isDigit = false := by
    have strange := sign.1
    simp only [isNameChar, Char.isAlphanum, Bool.or_eq_false_iff] at strange
    exact strange.1.2
  have nothing : goesOnWith x = fun _ => false := by
    simp [goesOnWith, digit, sign.1, sign.2]
  have alone : words (x :: ([] ++ rest)) n = (if isNameChar x then [⟨[x], n⟩] else []) ++ words rest (n + 1) :=
    words_run (List.forall_mem_nil _) (fun y _ => by rw [nothing]) n
  simpa [sign.1] using alone

theorem isSign_of_isBlank {x : Char} (blank : isBlank x = true) : isSign x = true := by
  simp only [isBlank, Bool.or_eq_true, beq_iff_eq] at blank
  rcases blank with ((rfl | rfl) | rfl) | rfl <;> decide

theorem isBlank_of_endsComment {x : Char} (ends : endsComment x = true) : isBlank x = true := by
  simp only [endsComment, Bool.or_eq_true, beq_iff_eq] at ends
  rcases ends with rfl | rfl <;> decide

theorem words_comment (s : List Char) (n : Nat) :
    words ('#' :: s) n =
      words (s.dropWhile (!endsComment ·)) (n + 1 + (s.takeWhile (!endsComment ·)).length) := by
  rw [words]
  rfl

/-- Layout has no words. -/
theorem words_skipLayout (s : List Char) (n : Nat) :
    words (skipLayout false s n).rest (skipLayout false s n).offset = words s n ∧
      words (skipLayout true s n).rest (skipLayout true s n).offset =
        words (s.dropWhile (!endsComment ·)) (n + (s.takeWhile (!endsComment ·)).length) := by
  induction s generalizing n with
  | nil => exact ⟨rfl, rfl⟩
  | cons x s ih =>
    obtain ⟨outside, inside⟩ := ih (n + 1)
    constructor
    · unfold skipLayout
      split
      · rename_i blank
        rw [words_sign (isSign_of_isBlank blank), outside]
      · split
        · rename_i mark
          rw [eq_of_beq mark, inside, words_comment]
        · rfl
    · change words (skipLayout (!endsComment x) s (n + 1)).rest
        (skipLayout (!endsComment x) s (n + 1)).offset = _
      cases ends : endsComment x with
      | true =>
        have stays : (x :: s).dropWhile (!endsComment ·) = x :: s ∧
            (x :: s).takeWhile (!endsComment ·) = [] := by
          simp [ends]
        rw [stays.1, stays.2, words_sign (isSign_of_isBlank (isBlank_of_endsComment ends))]
        exact outside
      | false =>
        have goes : (x :: s).dropWhile (!endsComment ·) = s.dropWhile (!endsComment ·) ∧
            (x :: s).takeWhile (!endsComment ·) = x :: s.takeWhile (!endsComment ·) := by
          simp [ends]
        rw [goes.1, goes.2, List.length_cons, ← Nat.add_assoc, Nat.add_right_comm]
        exact inside

namespace Cursor

/-- The words that are still to be read. -/
def words (c : Cursor) : List Word := ConceptLogic.words c.rest c.offset

theorem words_afterLayout (c : Cursor) : c.afterLayout.words = c.words :=
  (words_skipLayout c.rest c.offset).1

theorem words_read? {word : List Char} {c c' : Cursor} (signs : word.all isSign = true)
    (read : c.read? word = some c') : c.words = c'.words := by
  induction word generalizing c with
  | nil =>
    cases read
    rfl
  | cons x word ih =>
    obtain ⟨first, others⟩ := Bool.and_eq_true_iff.mp signs
    obtain ⟨rest, n, rfl, behind⟩ := read?_cons read
    exact (words_sign first rest n).trans (ih others behind)

end Cursor

namespace Pattern

variable {ρ : Type} {V : ρ → Type}

/-- Whether a pattern itself reads signs and layout only. -/
def signs : {α : Type} → Pattern V α → Bool
  | _, .char _ => false
  | _, .literal word => word.all isSign
  | _, .seq _ first second => first.signs && second.signs
  | _, .choice first second => first.signs && second.signs
  | _, .star item => item.signs
  | _, _ => true

section Words

variable {call : (r : ρ) → Cursor → Option ((V r × Tree ρ) × Cursor)} {f : Tree ρ → List Word}

theorem repeated_words {α : Type} {item : Cursor → Option ((α × List (Tree ρ)) × Cursor)}
    (covers : ∀ ⦃c x c'⦄, item c = some (x, c') → c.words = x.2.flatMap f ++ c'.words) (left : List Char)
    (c : Cursor) :
    c.words = ((repeated item left c).1.flatMap Prod.snd).flatMap f ++ (repeated item left c).2.words := by
  induction left generalizing c with
  | nil => rfl
  | cons x left ih =>
    unfold repeated
    cases found : item c with
    | none => rfl
    | some next =>
      rw [covers found, ih next.2]
      simp

/-- The words that a pattern passes over are those of the rules in it. -/
theorem grow_words (covers : ∀ ⦃r c a t c'⦄, call r c = some ((a, t), c') → c.words = f t ++ c'.words)
    {α : Type} {p : Pattern V α} (signs : p.signs = true) {c c' : Cursor} {a : α} {ts : List (Tree ρ)}
    (grown : p.grow call c = some ((a, ts), c')) : c.words = ts.flatMap f ++ c'.words := by
  induction p generalizing c c' ts with
  | pure | here =>
    cases grown
    rfl
  | gap =>
    cases grown
    exact c.words_afterLayout.symm
  | char => cases signs
  | literal word =>
    simp only [grow, scan, Option.map_map] at grown
    obtain ⟨d, read, same⟩ := Option.map_eq_some_iff.mp grown
    cases same
    exact Cursor.words_read? signs read
  | notNext refuses =>
    obtain ⟨_ | ⟨x, rest⟩, n⟩ := c
    · cases grown
      rfl
    · simp only [grow, scan] at grown
      split at grown
      · cases grown
      · cases grown
        rfl
  | atEnd =>
    simp only [grow, scan] at grown
    split at grown
    · cases grown
      rfl
    · cases grown
  | seq combine first second ihFirst ihSecond =>
    obtain ⟨left, right⟩ := Bool.and_eq_true_iff.mp signs
    obtain ⟨⟨x, d⟩, atFirst, grown⟩ := Option.bind_eq_some_iff.mp grown
    obtain ⟨⟨y, e⟩, atSecond, same⟩ := Option.map_eq_some_iff.mp grown
    cases same
    rw [ihFirst left atFirst, ihSecond right atSecond, List.flatMap_append, List.append_assoc]
  | choice first second ihFirst ihSecond =>
    obtain ⟨left, right⟩ := Bool.and_eq_true_iff.mp signs
    rcases Option.or_eq_some_iff.mp grown with here | ⟨_, here⟩
    · exact ihFirst left here
    · exact ihSecond right here
  | star item ih =>
    have rounds := repeated_words (fun _ _ _ found => ih signs found) c.rest c
    cases grown
    exact rounds
  | rule r =>
    obtain ⟨⟨x, d⟩, here, same⟩ := Option.map_eq_some_iff.mp grown
    cases same
    rw [covers here]
    simp

end Words

end Pattern

end ConceptLogic
