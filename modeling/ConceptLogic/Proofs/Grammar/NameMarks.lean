import ConceptLogic.Proofs.Grammar.WordScanning

namespace ConceptLogic

/-- What a word of a text is there for. -/
inductive Sense
  | keyword
  | name (role : Role)
  | cardinality
  deriving DecidableEq, Repr

/-- A word of a text and what it is there for. -/
structure Mark where
  word : Word
  sense : Sense
  deriving DecidableEq, Repr

/-- What the text of a rule is there for if it is a word, given the rule around it. A declaration gives
its name a role, and the base of a variable has the role that its case says. -/
def Rule.sense? (r around : Rule) (text : List Char) : Option Sense :=
  match r with
  | .declaredName =>
    match around with
    | .relationDeclaration => some (.name .relation)
    | .individualDeclaration => some (.name .individual)
    | _ => some (.name .concept)
  | .conceptAtom | .variableType => some (.name .concept)
  | .relation => some (.name .relation)
  | .individual => some (.name .individual)
  | .variableName => some (.name (variableRole (String.ofList text)))
  | .integer => some .cardinality
  | .wordSome | .wordOnly | .wordMore | .wordLess | .wordExact | .wordEqual => some .keyword
  | _ => none

namespace Tree

mutual

/-- The words of a tree from left to right, given the rule around it. -/
def marks (around : Rule) : Tree Rule → List Mark
  | .node r text offset parts =>
    match r.sense? around text with
    | some sense => [⟨⟨text, offset⟩, sense⟩]
    | none => marksAll r parts

def marksAll (around : Rule) : List (Tree Rule) → List Mark
  | [] => []
  | t :: ts => t.marks around ++ marksAll around ts

end

theorem marksAll_single (around : Rule) (t : Tree Rule) : marksAll around [t] = t.marks around :=
  List.append_nil _

theorem marksAll_eq_flatMap (around : Rule) (ts : List (Tree Rule)) :
    marksAll around ts = ts.flatMap (marks around) := by
  induction ts with
  | nil => rfl
  | cons t ts ih => rw [marksAll, ih, List.flatMap_cons]

end Tree

/-- Whether a text stands between two cursors. -/
structure Cursor.Takes (c : Cursor) (word : List Char) (c' : Cursor) : Prop where
  rest : c.rest = word ++ c'.rest
  offset : c'.offset = c.offset + word.length

namespace Cursor.Takes

variable {c c' c'' : Cursor} {word word' : List Char}

theorem refl (c : Cursor) : c.Takes [] c := ⟨rfl, rfl⟩

theorem trans (first : c.Takes word c') (second : c'.Takes word' c'') : c.Takes (word ++ word') c'' :=
  ⟨by rw [first.rest, second.rest, List.append_assoc],
    by rw [second.offset, first.offset, List.length_append, Nat.add_assoc]⟩

theorem until_eq (takes : c.Takes word c') : c.until c' = word := by
  rw [Cursor.until, takes.rest, List.length_append, Nat.add_sub_cancel, List.take_left]

theorem of_read? (read : c.read? word = some c') : c.Takes word c' := by
  induction word generalizing c with
  | nil =>
    cases read
    exact .refl _
  | cons x word ih =>
    obtain ⟨rest, n, rfl, behind⟩ := Cursor.read?_cons read
    have here : Cursor.Takes ⟨x :: rest, n⟩ [x] ⟨rest, n + 1⟩ := ⟨rfl, rfl⟩
    exact here.trans (ih behind)

/-- A word that ends where it has to is the next of the words. -/
theorem words {x : Char} {tail : List Char} {goesOn : Char → Bool} (takes : c.Takes (x :: tail) c')
    (part : isNameChar x = true) (same : goesOnWith x = goesOn) (all : ∀ y ∈ tail, goesOn y = true)
    (stop : ∀ y ∈ c'.rest.head?, goesOn y = false) : c.words = ⟨x :: tail, c.offset⟩ :: c'.words := by
  subst same
  have run := words_run all stop c.offset
  rw [if_pos part, ← List.cons_append, ← takes.rest] at run
  rw [Cursor.words, run, Cursor.words, takes.offset, List.length_cons]
  simp only [List.singleton_append, Nat.add_assoc, Nat.add_comm 1]

end Cursor.Takes

namespace Pattern

variable {ρ : Type} {V : ρ → Type} {call : (r : ρ) → Cursor → Option (V r × Cursor)} {c c' : Cursor}

theorem char_found {accepts : Char → Bool} {x : Char}
    (found : (char (V := V) accepts).scan call c = some (x, c')) : c.Takes [x] c' ∧ accepts x = true := by
  obtain ⟨_ | ⟨y, rest⟩, n⟩ := c
  · cases found
  · simp only [scan] at found
    split at found
    · rename_i accepted
      cases found
      exact ⟨⟨rfl, rfl⟩, accepted⟩
    · cases found

/-- A run of characters goes as far as it can. -/
theorem run_found {accepts : Char → Bool} {word : List Char}
    (found : (star (char (V := V) accepts)).scan call c = some (word, c')) :
    c.Takes word c' ∧ (∀ x ∈ word, accepts x = true) ∧ ∀ x ∈ c'.rest.head?, accepts x = false := by
  have rounds : ∀ (left : List Char) (c : Cursor), c.rest.length ≤ left.length →
      let found := repeated ((char (V := V) accepts).scan call) left c
      c.Takes found.1 found.2 ∧ (∀ x ∈ found.1, accepts x = true) ∧
        ∀ x ∈ found.2.rest.head?, accepts x = false := by
    intro left
    induction left with
    | nil =>
      intro c short
      have spent : c.rest = [] := List.eq_nil_of_length_eq_zero (Nat.le_zero.mp short)
      refine ⟨.refl c, List.forall_mem_nil _, ?_⟩
      simp [repeated, spent]
    | cons y left ih =>
      intro c short
      unfold repeated
      cases item : (char (V := V) accepts).scan call c with
      | none =>
        refine ⟨.refl c, List.forall_mem_nil _, fun x here => ?_⟩
        obtain ⟨_ | ⟨z, rest⟩, n⟩ := c
        · cases here
        · cases here
          simpa [scan] using item
      | some next =>
        obtain ⟨takes, accepted⟩ := char_found item
        have shorter := congrArg List.length takes.rest
        simp only [List.length_append, List.length_cons] at shorter short
        obtain ⟨takes', all, stop⟩ := ih next.2 (by omega)
        exact ⟨takes.trans takes', List.forall_mem_cons.mpr ⟨accepted, all⟩, stop⟩
  have whole := rounds c.rest c (Nat.le_refl _)
  rw [Option.some.inj found] at whole
  exact whole

theorem literal_found {word : List Char} (found : (literal (V := V) word).scan call c = some ((), c')) :
    c.Takes word c' := by
  obtain ⟨d, read, same⟩ := Option.map_eq_some_iff.mp found
  cases same
  exact .of_read? read

theorem seq_found {α β γ : Type} {combine : α → β → γ} {p : Pattern V α} {q : Pattern V β} {x : γ}
    (found : (seq combine p q).scan call c = some (x, c')) :
    ∃ a b d, p.scan call c = some (a, d) ∧ q.scan call d = some (b, c') ∧ x = combine a b := by
  obtain ⟨⟨a, d⟩, first, found⟩ := Option.bind_eq_some_iff.mp found
  obtain ⟨⟨b, e⟩, second, same⟩ := Option.map_eq_some_iff.mp found
  cases same
  exact ⟨a, b, d, first, second, rfl⟩

theorem keyword_found {word : List Char} {continues : Char → Bool}
    (found : (keyword (V := V) word continues).scan call c = some ((), c')) :
    c.Takes word c' ∧ ∀ x ∈ c'.rest.head?, continues x = false := by
  obtain ⟨_, _, d, read, last, _⟩ := seq_found found
  obtain ⟨_ | ⟨x, rest⟩, n⟩ := d
  · cases last
    exact ⟨literal_found read, nofun⟩
  · simp only [scan] at last
    split at last
    · cases last
    · rename_i refused
      cases last
      refine ⟨literal_found read, ?_⟩
      rintro _ ⟨⟩
      exact Bool.eq_false_iff.mpr refused

end Pattern

namespace Grammar

open Pattern

variable {call : (r : Rule) → Cursor → Option (r.Value × Cursor)} {c c' : Cursor}

theorem identifier_found {name : String} (found : Grammar.identifier.scan call c = some (name, c')) :
    c.Takes name.toList c' ∧ IsIdentifier name ∧ Stops c'.rest := by
  obtain ⟨marks, _, d, first, others, rfl⟩ := seq_found found
  obtain ⟨letter, tail, e, second, third, rfl⟩ := seq_found others
  obtain ⟨takes, marked, _⟩ := run_found first
  obtain ⟨takes', alpha⟩ := char_found second
  obtain ⟨takes'', parts, stops⟩ := run_found third
  have whole := takes.trans (takes'.trans takes'')
  rw [String.toList_ofList]
  exact ⟨whole, ⟨marks, letter, tail, String.toList_ofList, marked, alpha, parts⟩, stops⟩

theorem integer_found {n : Numeral} (found : (body .integer).scan call c = some (n, c')) :
    c.Takes n.digits c' ∧ n.offset = c.offset ∧ n.digits ≠ [] ∧ (∀ x ∈ n.digits, x.isDigit = true) ∧
      ∀ x ∈ c'.rest.head?, x.isDigit = false := by
  obtain ⟨_, _, d, first, digits, rfl⟩ := seq_found found
  cases first
  obtain ⟨x, tail, e, second, third, rfl⟩ := seq_found digits
  obtain ⟨takes, digit⟩ := char_found second
  obtain ⟨takes', all, stop⟩ := run_found third
  exact ⟨takes.trans takes', rfl, List.cons_ne_nil _ _, List.forall_mem_cons.mpr ⟨digit, all⟩, stop⟩

theorem goesOnWith_letter {x : Char} (part : isNameChar x = true) (letter : x.isDigit = false) :
    goesOnWith x = isNameChar := by
  simp [goesOnWith, part, letter]

theorem goesOnWith_digit {x : Char} (digit : x.isDigit = true) : goesOnWith x = Char.isDigit :=
  if_pos digit

theorem isDigit_of_isAlpha {x : Char} (alpha : x.isAlpha = true) : x.isDigit = false := by
  rw [isAlpha_iff, isUpper_iff, isLower_iff] at alpha
  rw [← Bool.not_eq_true, isDigit_iff]
  have nine : '9'.toNat = 57 := rfl
  have capital : 'A'.toNat = 65 := rfl
  have small : 'a'.toNat = 97 := rfl
  omega

/-- A name begins with a letter or an underscore, and goes on with name characters. -/
theorem identifier_words {name : String} (found : Grammar.identifier.scan call c = some (name, c')) :
    c.words = ⟨name.toList, c.offset⟩ :: c'.words := by
  obtain ⟨takes, ⟨marks, letter, tail, name_eq, marked, alpha, parts⟩, stops⟩ := identifier_found found
  have within : ∀ x ∈ name.toList, isNameChar x = true := by
    rw [name_eq]
    refine List.forall_mem_append.mpr ⟨fun x member => ?_, List.forall_mem_cons.mpr ⟨?_, parts⟩⟩
    · simp [isNameChar, marked x member]
    · simp [isNameChar, Char.isAlphanum, alpha]
  obtain ⟨x, rest, whole, letters⟩ : ∃ x rest, name.toList = x :: rest ∧ x.isDigit = false := by
    rw [name_eq]
    cases marks with
    | nil => exact ⟨letter, tail, rfl, isDigit_of_isAlpha alpha⟩
    | cons x marks =>
      refine ⟨x, _, rfl, ?_⟩
      rw [eq_of_beq (marked x (List.mem_cons_self ..))]
      rfl
  rw [whole] at takes within ⊢
  obtain ⟨first, others⟩ := List.forall_mem_cons.mp within
  exact takes.words first (goesOnWith_letter first letters) others stops

theorem keyword_words {x : Char} {word : List Char} (lower : (x :: word).all Char.isLower = true)
    (found : (keyword (V := Rule.Value) (x :: word) isNameChar).scan call c = some ((), c')) :
    c.Takes (x :: word) c' ∧ c.words = ⟨x :: word, c.offset⟩ :: c'.words := by
  obtain ⟨takes, stops⟩ := keyword_found found
  have alpha : ∀ y ∈ x :: word, y.isAlpha = true := fun y member =>
    isAlpha_iff.mpr (.inr (List.all_eq_true.mp lower y member))
  have within : ∀ y ∈ x :: word, isNameChar y = true := fun y member => by
    simp [isNameChar, Char.isAlphanum, alpha y member]
  obtain ⟨first, others⟩ := List.forall_mem_cons.mp within
  have letter := isDigit_of_isAlpha (alpha x (List.mem_cons_self ..))
  exact ⟨takes, takes.words first (goesOnWith_letter first letter) others stops⟩

theorem integer_words {n : Numeral} (found : (body .integer).scan call c = some (n, c')) :
    c.words = ⟨n.digits, c.offset⟩ :: c'.words := by
  obtain ⟨takes, _, some, all, stop⟩ := integer_found found
  obtain ⟨x, tail, digits⟩ := List.exists_cons_of_ne_nil some
  rw [digits] at takes all ⊢
  obtain ⟨digit, others⟩ := List.forall_mem_cons.mp all
  have first : isNameChar x = true := by simp [isNameChar, Char.isAlphanum, digit]
  exact takes.words first (goesOnWith_digit digit) others stop

/-- A rule whose text is a word takes the next of the words. -/
theorem word_of_sense {r around : Rule} {text : List Char} {sense : Sense} {a : r.Value}
    (word : r.sense? around text = some sense) (found : (body r).scan call c = some (a, c')) :
    c.words = ⟨c.until c', c.offset⟩ :: c'.words := by
  have named : ∀ {name : String}, Grammar.identifier.scan call c = some (name, c') →
      c.words = ⟨c.until c', c.offset⟩ :: c'.words := fun found => by
    rw [(identifier_found found).1.until_eq]
    exact identifier_words found
  have key : ∀ {x : Char} {word : List Char}, (x :: word).all Char.isLower = true →
      (keyword (V := Rule.Value) (x :: word) isNameChar).scan call c = some ((), c') →
        c.words = ⟨c.until c', c.offset⟩ :: c'.words := fun lower found => by
    obtain ⟨takes, words⟩ := keyword_words lower found
    rwa [takes.until_eq]
  cases r with
  | declaredName | conceptAtom | variableType | relation | individual | variableName => exact named found
  | integer =>
    rw [(integer_found found).1.until_eq]
    exact integer_words found
  | wordSome | wordOnly | wordMore | wordLess | wordExact | wordEqual => exact key (by decide) found
  | _ => cases word

theorem signs_of_sense {r around : Rule} {text : List Char} (nothing : r.sense? around text = none) :
    (body r).signs = true := by
  cases r with
  | declaredName => cases around <;> cases nothing
  | conceptAtom | variableType | relation | individual | variableName | integer => cases nothing
  | wordSome | wordOnly | wordMore | wordLess | wordExact | wordEqual => cases nothing
  | _ => rfl

/-- The words of a text that a rule passes over are those of its tree. -/
theorem growRule_words {fuel : Nat} {r : Rule} {c c' : Cursor} {a : r.Value} {t : Tree Rule}
    (grown : growRule body fuel r c = some ((a, t), c')) (around : Rule) :
    c.words = (t.marks around).map Mark.word ++ c'.words := by
  refine growRule_holds (P := fun r c _ t c' =>
    ∀ around, c.words = (t.marks around).map Mark.word ++ c'.words) ?_ grown around
  intro call covers r c a ts c' grown around
  unfold Tree.marks
  cases sense : r.sense? around (c.until c') with
  | some s => exact word_of_sense sense (scan_of_grow grown)
  | none =>
    have inside : ∀ ⦃s c a t c'⦄, call s c = some ((a, t), c') →
        c.words = (t.marks r).map Mark.word ++ c'.words := fun _ _ _ _ _ found => covers found r
    rw [grow_words inside (signs_of_sense sense) grown, Tree.marksAll_eq_flatMap, List.map_flatMap]

end Grammar

end ConceptLogic
