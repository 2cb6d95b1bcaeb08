import ConceptLogic.Draft.Judgement
import ConceptLogic.Phrase.Text
import ConceptLogic.Proofs.Grammar.FormReading
import Mathlib.Data.List.TakeWhile

namespace ConceptLogic

theorem differs_of_isNameChar {x y : Char} (part : isNameChar x = true) (strange : isNameChar y = false) :
    x ≠ y := by
  rintro rfl
  rw [strange] at part
  cases part

theorem bare_of_isNameChar {x : Char} (part : isNameChar x = true) : isBare x = true := by
  have space := differs_of_isNameChar part (show isNameChar ' ' = false by decide)
  have tab := differs_of_isNameChar part (show isNameChar '\t' = false by decide)
  have ret := differs_of_isNameChar part (show isNameChar '\r' = false by decide)
  have line := differs_of_isNameChar part (show isNameChar '\n' = false by decide)
  have hash := differs_of_isNameChar part (show isNameChar '#' = false by decide)
  simp [isBare, isBlank, space, tab, ret, line, hash]

/-- Whether a text is a name as the grammar has it: underscores, a letter, and any name
characters. -/
def IsIdentifier (name : String) : Prop :=
  ∃ marks letter tail, name.toList = marks ++ letter :: tail ∧ (∀ x ∈ marks, (x == '_') = true) ∧
    letter.isAlpha = true ∧ ∀ x ∈ tail, isNameChar x = true

theorem isUpper_iff {x : Char} : x.isUpper = true ↔ 'A'.toNat ≤ x.toNat ∧ x.toNat ≤ 'Z'.toNat :=
  decide_eq_true_iff

theorem isLower_iff {x : Char} : x.isLower = true ↔ 'a'.toNat ≤ x.toNat ∧ x.toNat ≤ 'z'.toNat :=
  Bool.and_eq_true_iff.trans (and_congr decide_eq_true_iff decide_eq_true_iff)

theorem isDigit_iff {x : Char} : x.isDigit = true ↔ '0'.toNat ≤ x.toNat ∧ x.toNat ≤ '9'.toNat :=
  Bool.and_eq_true_iff.trans (and_congr decide_eq_true_iff decide_eq_true_iff)

theorem isAlpha_iff {x : Char} : x.isAlpha = true ↔ x.isUpper = true ∨ x.isLower = true :=
  Bool.or_eq_true_iff

namespace IsIdentifier

theorem of_conforms {name : String} {r : Role} (holds : conforms name r = true) :
    IsIdentifier name := by
  have capital : ∀ {x : Char} {tail : List Char}, name.toList = x :: tail →
      (x.isUpper && tail.all isNameChar) = true → IsIdentifier name := by
    intro x tail name_eq holds
    obtain ⟨upper, all⟩ := Bool.and_eq_true_iff.mp holds
    exact ⟨[], x, tail, name_eq, nofun, isAlpha_iff.mpr (.inl upper), List.all_eq_true.mp all⟩
  unfold conforms at holds
  cases r with
  | individual =>
    cases unmarked_eq : unmarked name with
    | nil => simp [unmarked_eq] at holds
    | cons x tail =>
      simp only [unmarked_eq, Bool.and_eq_true] at holds
      refine ⟨name.toList.takeWhile (· == '_'), x, tail, ?_, fun y => List.mem_takeWhile_imp (p := (· == '_')),
        isAlpha_iff.mpr (.inr holds.1), List.all_eq_true.mp holds.2⟩
      rw [← unmarked_eq, unmarked, List.takeWhile_append_dropWhile]
  | concept | relation =>
    cases name_eq : name.toList with
    | nil => simp [name_eq] at holds
    | cons x tail => exact capital name_eq (by simpa [name_eq] using holds)

theorem opens {name : String} (identifier : IsIdentifier name) :
    ∃ x tail, name.toList = x :: tail ∧ isNameChar x = true := by
  obtain ⟨marks, letter, tail, name_eq, all, alpha, _⟩ := identifier
  cases marks with
  | nil => exact ⟨letter, tail, name_eq, by simp [isNameChar, Char.isAlphanum, alpha]⟩
  | cons x marks =>
    exact ⟨x, marks ++ letter :: tail, name_eq, by simp [isNameChar, all x (List.mem_cons_self ..)]⟩

end IsIdentifier

/-- Concepts and relations begin with a capital letter. -/
theorem capital_of_conforms {name : String} {role : Role} (named : role = .concept ∨ role = .relation)
    (holds : conforms name role = true) : ∃ x tail, name.toList = x :: tail ∧ x.isUpper = true := by
  cases name_eq : name.toList with
  | nil => rcases named with rfl | rfl <;> simp [conforms, name_eq] at holds
  | cons x tail =>
    refine ⟨x, tail, rfl, ?_⟩
    rcases named with rfl | rfl
    all_goals
      simp only [conforms, name_eq, Bool.and_eq_true] at holds
      exact holds.1

theorem isLower_of_isUpper {x : Char} (upper : x.isUpper = true) : x.isLower = false := by
  rw [isUpper_iff] at upper
  rw [← Bool.not_eq_true, isLower_iff]
  exact fun lower => absurd (Nat.le_trans lower.1 upper.2) (by decide)

section Marked

/-! A name taken apart into the underscores in front, the character after them and the rest. -/

variable {s : String} {n : Nat} {x : Char} {tail : List Char}

theorem ne_mark_of_isAlpha (alpha : x.isAlpha = true) : x ≠ '_' := by
  rintro rfl
  exact absurd alpha (by decide)

theorem unmarked_eq (chars : s.toList = List.replicate n '_' ++ x :: tail) (letter : x ≠ '_') :
    unmarked s = x :: tail := by
  rw [unmarked, chars, List.dropWhile_append_of_pos (by simp), List.dropWhile_cons_of_neg (by simp [letter])]

theorem conforms_individual_eq (chars : s.toList = List.replicate n '_' ++ x :: tail) (letter : x ≠ '_') :
    conforms s .individual = (x.isLower && tail.all isNameChar) := by
  simp [conforms, unmarked_eq chars letter]

/-- Underscores are passed over for individuals only. -/
theorem conforms_concept_eq (chars : s.toList = List.replicate n '_' ++ x :: tail) :
    conforms s .concept = (n == 0 && x.isUpper && tail.all isNameChar) := by
  cases n with
  | zero => simp [conforms, chars]
  | succ n =>
    have mark : Char.isUpper '_' = false := by decide
    simp [conforms, chars, List.replicate_succ, mark]

theorem variableRole_eq (chars : s.toList = List.replicate n '_' ++ x :: tail) (letter : x ≠ '_') :
    variableRole s = if x.isUpper then .concept else .individual := by
  simp [variableRole, unmarked_eq chars letter]

theorem IsIdentifier.marked (identifier : IsIdentifier s) :
    ∃ n x tail, s.toList = List.replicate n '_' ++ x :: tail ∧ x.isAlpha = true ∧ tail.all isNameChar = true := by
  obtain ⟨marks, x, tail, chars, all, alpha, parts⟩ := identifier
  have same : marks = List.replicate marks.length '_' :=
    List.eq_replicate_of_mem fun y member => eq_of_beq (all y member)
  exact ⟨marks.length, x, tail, same ▸ chars, alpha, List.all_eq_true.mpr parts⟩

/-- A variable named like a concept ranges over concepts. -/
theorem variableRole_of_concept (holds : conforms s .concept = true) : variableRole s = .concept := by
  obtain ⟨n, x, tail, chars, alpha, _⟩ := (IsIdentifier.of_conforms holds).marked
  rw [conforms_concept_eq chars, Bool.and_eq_true, Bool.and_eq_true] at holds
  rw [variableRole_eq chars (ne_mark_of_isAlpha alpha), if_pos holds.1.2]

/-- A variable named like an individual ranges over individuals. -/
theorem variableRole_of_individual (holds : conforms s .individual = true) : variableRole s = .individual := by
  obtain ⟨n, x, tail, chars, alpha, _⟩ := (IsIdentifier.of_conforms holds).marked
  have letter := ne_mark_of_isAlpha alpha
  have small : ¬x.isUpper = true := by
    intro upper
    rw [conforms_individual_eq chars letter, isLower_of_isUpper upper] at holds
    cases holds
  rw [variableRole_eq chars letter, if_neg small]

end Marked

/-- Whether no further name character follows. -/
def Stops (rest : List Char) : Prop := ∀ x ∈ rest.head?, isNameChar x = false

@[simp] theorem stops_nil : Stops [] := nofun

@[simp] theorem stops_cons {x : Char} {rest : List Char} :
    Stops (x :: rest) ↔ isNameChar x = false := by
  simp [Stops]

theorem separated_toList (separator t : String) (ts : List String) :
    (separated separator (t :: ts)).toList =
      t.toList ++ (ts.map fun t => separator.toList ++ t.toList).flatten := by
  induction ts generalizing t with
  | nil => simp [separated]
  | cons u ts ih => simp [separated, ih]

namespace Grammar

open Pattern

theorem scanned_then {α β γ : Type} (combine : α → β → γ) {p : Form α} {q : Form β}
    {c c' c'' : Cursor} {a : α} {b : β} (first : scanned p c = some (a, c'))
    (second : scanned q c' = some (b, c'')) :
    scanned (seq combine p q) c = some (combine a b, c'') := by
  rw [scanned_seq, first]
  change (scanned q c').map _ = _
  rw [second]
  rfl

theorem scanned_char {accepts : Char → Bool} {x : Char} (accepted : accepts x = true)
    (rest : List Char) (n : Nat) :
    scanned (char accepts) ⟨x :: rest, n⟩ = some (x, ⟨rest, n + 1⟩) := by
  simp [scanned, scan, accepted]

theorem scanned_identifier {name : String} (identifier : IsIdentifier name) {rest : List Char}
    (stops : Stops rest) (n : Nat) :
    scanned Grammar.identifier ⟨name.toList ++ rest, n⟩ =
      some (name, ⟨rest, n + name.toList.length⟩) := by
  obtain ⟨marks, letter, tail, name_eq, all, alpha, parts⟩ := identifier
  have unmarked : ∀ x ∈ (letter :: (tail ++ rest)).head?, (x == '_') = false := by
    intro x here
    cases here
    exact beq_eq_false_iff_ne.mpr (ne_mark_of_isAlpha alpha)
  have read := scanned_then (fun marks name => String.ofList (marks ++ name))
    (scanned_run all unmarked n)
    (scanned_then List.cons (scanned_char alpha _ _) (scanned_run parts stops _))
  simp only [name_eq, List.append_assoc, List.cons_append, List.length_append, List.length_cons]
  rw [Grammar.identifier, read, ← name_eq, String.ofList_toList]
  congr 3
  omega

theorem Reads.identifier {name : String} (identifier : IsIdentifier name) {rest : List Char}
    (stops : Stops rest) : Reads Grammar.identifier name.toList rest (· = name) := by
  obtain ⟨x, tail, name_eq, part⟩ := identifier.opens
  have reads := scanned_identifier identifier stops
  rw [name_eq] at reads ⊢
  exact Reads.exact (bare_of_isNameChar part) reads

/-- What a keyword has to be followed by, and what follows it in a written quantifier. -/
theorem Reads.keyword {x : Char} {word rest : List Char} (bare : isBare x = true)
    (stops : Stops rest) :
    Reads (Pattern.keyword (x :: word) isNameChar) (x :: word) rest fun _ => True := by
  have last : ∀ n, scanned (notNext isNameChar) ⟨rest, n⟩ = some ((), ⟨rest, n⟩) := by
    intro n
    cases rest with
    | nil => rfl
    | cons y rest => simp [scanned, scan, stops y rfl]
  have first : ∀ n, scanned (Pattern.literal (x :: word)) ⟨x :: word ++ rest, n⟩ =
      some ((), ⟨rest, n + (x :: word).length⟩) := fun n => by
    rw [scanned_literal, read?_append]
    rfl
  exact (Reads.exact bare fun n => scanned_then _ (first n) (last _)).mono fun _ _ => trivial

theorem numberOf_toDigits (n : Nat) : numberOf 10 (Nat.toDigits 10 n) = n := by
  have digits : ∀ {l : List Char} (m : Nat), (∀ x ∈ l, x.isDigit = true) →
      l.foldl (fun total c => 10 * total + digitValue c) m = Nat.ofDigitChars 10 l m := by
    intro l
    induction l with
    | nil => exact fun m _ => rfl
    | cons x l ih =>
      intro m all
      have first : digitValue x = x.toNat - '0'.toNat := if_pos (all x (List.mem_cons_self ..))
      rw [List.foldl_cons, ih _ fun y member => all y (List.mem_cons_of_mem _ member), first]
      rfl
  rw [numberOf, digits 0 fun x => Nat.isDigit_of_mem_toDigits (by decide) (by decide)]
  exact Nat.ofDigitChars_toDigits (by decide) (by decide)

theorem Reads.integer (n : Nat) {rest : List Char} (stops : Stops rest) :
    Reads (nested .integer) (toString n).toList rest fun d => d.value = n := by
  have all : ∀ x ∈ Nat.toDigits 10 n, x.isDigit = true :=
    fun x => Nat.isDigit_of_mem_toDigits (by decide) (by decide)
  have part : ∀ x : Char, x.isDigit = true → isNameChar x = true := fun x digit => by
    simp [isNameChar, Char.isAlphanum, digit]
  rw [Nat.toString_eq_repr, Nat.repr_eq_ofList_toDigits, String.toList_ofList]
  obtain ⟨x, digits, digits_eq⟩ := List.exists_cons_of_ne_nil (Nat.toDigits_ne_nil (n := n) (b := 10))
  have stopsDigits : ∀ y ∈ rest.head?, y.isDigit = false := fun y here => by
    have stop := stops y here
    simp only [isNameChar, Char.isAlphanum, Bool.or_eq_false_iff] at stop
    exact stop.1.2
  refine Reads.rule fun m => ?_
  rw [digits_eq] at all ⊢
  refine ⟨⟨x :: digits, m⟩, ⟨rest, m + (x :: digits).length⟩, ?_, ?_, rfl⟩
  · rw [List.cons_append, afterLayout_bare (bare_of_isNameChar (part x (all x (List.mem_cons_self ..))))]
    have read := scanned_then (fun offset digits => (⟨digits, offset⟩ : Numeral))
      (p := here) (c := ⟨x :: (digits ++ rest), m⟩) rfl
      (scanned_then List.cons (scanned_char (all x (List.mem_cons_self ..)) _ _)
        (scanned_run (fun y member => all y (List.mem_cons_of_mem _ member)) stopsDigits _))
    rw [List.length_cons, Nat.add_comm digits.length, ← Nat.add_assoc]
    exact read
  · rw [Numeral.value, ← digits_eq, numberOf_toDigits]

theorem Reads.counted {word : Form Unit} {letters rest : List Char}
    (reads : ∀ tail, Stops tail → Reads word letters tail fun _ => True) (n : Nat)
    (stops : Stops rest) :
    Reads (before word (nested .integer)) (letters ++ ' ' :: (toString n).toList) rest
      fun d => d.value = n :=
  (reads _ (stops_cons.mpr (by decide))).spaced (Reads.integer n stops).space fun _ _ _ value => value

theorem Refuses.keyword {x : Char} {word s : List Char} (differs : nextChar s ≠ some x) :
    Refuses (Pattern.keyword (x :: word) isNameChar) s :=
  Refuses.first (Refuses.literal differs)

/-- A quantifier begins with a small letter, and so with no sign and no capital letter. -/
theorem Refuses.quantifier {s : List Char} (begins : ∀ x ∈ nextChar s, x.isLower = false) :
    Refuses (nested .quantifier) s := by
  have word : ∀ {x : Char} {word : List Char} (_ : x.isLower = true),
      Refuses (Pattern.keyword (x :: word) isNameChar) s := fun lower =>
    Refuses.keyword fun here => by
      rw [begins _ here] at lower
      cases lower
  refine Refuses.rule (Refuses.choice ?_ (Refuses.choice ?_ (Refuses.choice ?_ (Refuses.choice ?_ ?_))))
  · exact Refuses.first (Refuses.rule (word (by decide)))
  · exact Refuses.first (Refuses.rule (word (by decide)))
  · exact Refuses.first (Refuses.rule (Refuses.first (Refuses.rule (word (by decide)))))
  · exact Refuses.first (Refuses.rule (Refuses.first (Refuses.rule (word (by decide)))))
  · exact Refuses.first (Refuses.rule (Refuses.first
      (Refuses.choice (Refuses.rule (word (by decide))) (Refuses.rule (word (by decide))))))

end Grammar

/-- Whether a cardinality is one that can be written. -/
def Quantifier.Fits : Quantifier → Prop
  | .count _ n => n < 4294967296
  | _ => True

namespace Grammar

open Pattern

theorem Reads.quantifier {q : Quantifier} (fits : q.Fits) {rest : List Char} (stops : Stops rest) :
    Reads (nested .quantifier) q.text.toList rest fun d => d.judge = .ok q := by
  refine Reads.rule ?_
  cases q with
  | some =>
    have word := Reads.rule (r := .wordSome) (Reads.keyword (by decide) stops)
    exact Reads.left (Reads.map (word.mono fun _ _ => rfl))
  | only =>
    have word := Reads.rule (r := .wordOnly) (Reads.keyword (by decide) stops)
    refine Reads.right ?_ (Reads.left (Reads.map (word.mono fun _ _ => rfl)))
    exact Refuses.first (Refuses.rule (r := .wordSome) (Refuses.keyword fun here => by
      cases (nextChar_bare (x := 'o') (by decide) _).symm.trans here))
  | count bound n =>
    have judged : ∀ {d : Numeral}, d.value = n →
        (Draft.Quantifier.count bound d).judge = .ok (.count bound n) := by
      intro d value
      simp [Draft.Quantifier.judge, Numeral.fits, value, show n < 4294967296 from fits]
    have text : (Quantifier.count bound n).text.toList =
        bound.word.toList ++ ' ' :: (toString n).toList := by
      simp [Quantifier.text]
    have initial : nextChar (bound.word.toList ++ ' ' :: (toString n).toList ++ rest) =
        bound.word.toList.head? := by
      cases bound <;> rfl
    have refuses : ∀ (x : Char) {word : List Char}, bound.word.toList.head? ≠ Option.some x →
        Refuses (Pattern.keyword (x :: word) isNameChar)
          (bound.word.toList ++ ' ' :: (toString n).toList ++ rest) := fun x _ differs =>
      Refuses.keyword (by rwa [initial])
    rw [text]
    refine Reads.right (Refuses.first (Refuses.rule (r := .wordSome) (refuses _ ?_)))
      (Reads.right (Refuses.first (Refuses.rule (r := .wordOnly) (refuses _ ?_))) ?_)
    · cases bound <;> decide
    · cases bound <;> decide
    cases bound with
    | atLeast =>
      refine Reads.left (Reads.map (Reads.rule (r := .atLeast) ?_))
      exact (Reads.counted (fun tail stops => Reads.rule (r := .wordMore)
        (Reads.keyword (by decide) stops)) n stops).mono fun _ => judged
    | atMost =>
      refine Reads.right ?_ (Reads.left (Reads.map (Reads.rule (r := .atMost) ?_)))
      · exact Refuses.first (Refuses.rule (r := .atLeast) (Refuses.first
          (Refuses.rule (r := .wordMore) (refuses _ (by decide)))))
      · exact (Reads.counted (fun tail stops => Reads.rule (r := .wordLess)
          (Reads.keyword (by decide) stops)) n stops).mono fun _ => judged
    | exactly =>
      refine Reads.right ?_ (Reads.right ?_ (Reads.map (Reads.rule (r := .exactly) ?_)))
      · exact Refuses.first (Refuses.rule (r := .atLeast) (Refuses.first
          (Refuses.rule (r := .wordMore) (refuses _ (by decide)))))
      · exact Refuses.first (Refuses.rule (r := .atMost) (Refuses.first
          (Refuses.rule (r := .wordLess) (refuses _ (by decide)))))
      · exact (Reads.counted (fun tail stops => Reads.left (Reads.rule (r := .wordExact)
          (Reads.keyword (by decide) stops))) n stops).mono fun _ => judged

theorem variable_opens (base : String) (type : Option String) :
    ∃ tail, (Variable.text ⟨base, type⟩).toList = '$' :: tail := by
  cases type with
  | none => exact ⟨base.toList, by simp [Variable.text, Variable.name]⟩
  | some t => exact ⟨base.toList ++ ':' :: t.toList, by simp [Variable.text, Variable.name]⟩

/-- A written quantifier is a word, which a number may follow. -/
theorem quantifier_word (q : Quantifier) :
    ∃ word tail, q.text.toList = word.toList ++ tail ∧ IsIdentifier word ∧
      (tail = [] ∨ ∃ x digits, tail = ' ' :: x :: digits ∧ x.isDigit = true) := by
  cases q with
  | some => exact ⟨"some", [], by simp [Quantifier.text], .of_conforms (r := .individual) rfl, .inl rfl⟩
  | only => exact ⟨"only", [], by simp [Quantifier.text], .of_conforms (r := .individual) rfl, .inl rfl⟩
  | count bound n =>
    obtain ⟨x, digits, digits_eq⟩ := List.exists_cons_of_ne_nil (Nat.toDigits_ne_nil (n := n) (b := 10))
    refine ⟨bound.word, ' ' :: x :: digits, ?_, ?_, .inr ⟨x, digits, rfl, ?_⟩⟩
    · simp [Quantifier.text, Nat.repr_eq_ofList_toDigits, digits_eq]
    · cases bound <;> exact .of_conforms (r := .individual) (by decide)
    · refine Nat.isDigit_of_mem_toDigits (n := n) (by decide : 0 < 10) (by decide) ?_
      rw [digits_eq]
      exact List.mem_cons_self ..

/-- A variable is read to its end, for which no colon may follow it at once. -/
theorem Reads.variable {base : String} {type : Option String} (baseHolds : IsIdentifier base)
    (typeHolds : ∀ t ∈ type, IsIdentifier t) {rest : List Char} (stops : Stops rest)
    (apart : rest.head? ≠ some ':') :
    Reads (nested .variable) (Variable.text ⟨base, type⟩).toList rest (· = (base, type)) := by
  have sigil : ∀ s n, scanned (Pattern.literal ['$']) ⟨'$' :: s, n⟩ = some ((), ⟨s, n + 1⟩) :=
    fun s n => rfl
  have named : ∀ {rest : List Char}, Stops rest → ∀ n,
      scanned (nested .variableName) ⟨base.toList ++ rest, n⟩ =
        some (base, ⟨rest, n + base.toList.length⟩) := fun stops n => by
    rw [scanned_rule]
    exact scanned_identifier baseHolds stops n
  cases type with
  | none =>
    have text : (Variable.text ⟨base, none⟩).toList = '$' :: base.toList := by
      simp [Variable.text, Variable.name]
    have untyped : ∀ n, scanned (opt (seq (fun _ type => type) (Pattern.literal [':'])
        (nested .variableType))) ⟨rest, n⟩ = some (none, ⟨rest, n⟩) := fun n => by
      rw [scanned_choice, scanned_seq, scanned_seq, scanned_literal, read?_differs apart]
      rfl
    rw [text]
    refine Reads.rule (Reads.exact (by decide) fun n => ?_)
    rw [List.length_cons, Nat.add_comm _ 1, ← Nat.add_assoc]
    exact scanned_then _ (sigil _ n) (scanned_then _ (named stops _) (untyped _))
  | some t =>
    have text : (Variable.text ⟨base, some t⟩).toList = '$' :: (base.toList ++ ':' :: t.toList) := by
      simp [Variable.text, Variable.name]
    have typed : ∀ n, scanned (opt (seq (fun _ type => type) (Pattern.literal [':'])
        (nested .variableType))) ⟨':' :: t.toList ++ rest, n⟩ =
          some (some t, ⟨rest, n + 1 + t.toList.length⟩) := fun n => by
      have colon : scanned (Pattern.literal [':']) ⟨':' :: t.toList ++ rest, n⟩ =
          some ((), ⟨t.toList ++ rest, n + 1⟩) := rfl
      have read := scanned_then (fun _ type => type) (q := nested .variableType) colon
        ((scanned_rule ..).trans (scanned_identifier (typeHolds t rfl) stops (n + 1)))
      rw [scanned_choice, scanned_seq, read]
      rfl
    rw [text]
    refine Reads.rule (Reads.exact (by decide) fun n => ?_)
    have untilColon : Stops (':' :: t.toList ++ rest) := stops_cons.mpr (by decide)
    have read := scanned_then (fun _ x => x) (sigil _ n)
      (scanned_then Prod.mk (named untilColon _) (typed _))
    simpa [body, Nat.add_assoc, Nat.add_comm, Nat.add_left_comm] using read

/-- Individuals in braces. -/
theorem Reads.individualSet {first : String} {members : List String}
    (identifiers : ∀ m ∈ first :: members, IsIdentifier m) (rest : List Char) :
    Reads (nested .individualSet) ("\x7b" ++ separated ", " (first :: members) ++ "\x7d").toList rest
      (· = first :: members) := by
  have text : ("\x7b" ++ separated ", " (first :: members) ++ "\x7d").toList =
      ['\x7b'] ++ (first.toList ++
        (((members.map String.toList).map fun s => [','] ++ ' ' :: s).flatten ++ ['\x7d'])) := by
    simp [separated_toList, Function.comp_def]
  have individual : ∀ m ∈ first :: members, ∀ tail, Stops tail →
      Reads (nested .individual) m.toList tail (· = m) := fun m member tail stops =>
    Reads.rule (r := .individual) (Reads.identifier (identifiers m member) stops)
  have others : List.Forall₂ (fun s m => ∀ tail, Stops tail → Reads (nested .individual) s tail (· = m))
      (members.map String.toList) members := by
    rw [List.forall₂_map_left_iff, List.forall₂_same]
    exact fun m member => individual m (List.mem_cons_of_mem _ member)
  have closes : nextChar (['\x7d'] ++ rest) = some '\x7d' := nextChar_bare (by decide) rest
  have comma : ∀ tail, Reads (Pattern.literal [',']) [','] tail fun _ => True :=
    fun _ => Reads.literal [] (by decide)
  have closing : Stops (['\x7d'] ++ rest) := stops_cons.mpr (by decide)
  have listed := Reads.signed comma others (fun _ => stops_cons.mpr (by decide)) closing
    (by rw [closes]; decide)
  have stops : Stops (((members.map String.toList).map fun s => [','] ++ ' ' :: s).flatten ++
      ['\x7d'] ++ rest) := by
    cases members <;> exact stops_cons.mpr (by decide)
  rw [text]
  refine Reads.rule (r := .individualSet) ((Reads.literal [] (by decide)).spaced
    ((individual first (List.mem_cons_self ..) _ stops).spaced
      (listed.spaced (Reads.literal [] (by decide)) fun as _ all _ => all) ?_) fun _ _ _ all => all)
  rintro a as rfl all
  rw [List.forall₂_eq_eq_eq] at all
  rw [all]

end Grammar

end ConceptLogic
