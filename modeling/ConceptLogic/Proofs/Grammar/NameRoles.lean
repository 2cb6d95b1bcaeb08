import ConceptLogic.Proofs.Grammar.ParseVerdicts
import Mathlib.Computability.RegularExpressions

namespace ConceptLogic

section Spelling

/-! Regular expressions over characters. -/

/-- The characters from one to another. -/
def span (first last : Char) : List Char :=
  (List.range' first.toNat (last.toNat + 1 - first.toNat)).map Char.ofNat

theorem mem_span {first last x : Char} (narrow : last.toNat < 0xd800) :
    x ∈ span first last ↔ first.toNat ≤ x.toNat ∧ x.toNat ≤ last.toNat := by
  simp only [span, List.mem_map, List.mem_range'_1]
  constructor
  · rintro ⟨n, bounds, rfl⟩
    have valid : n.isValidChar := .inl (by omega)
    have same : (Char.ofNat n).toNat = n := by
      rw [Char.ofNat, dif_pos valid]
      rfl
    omega
  · intro bounds
    exact ⟨x.toNat, by omega, Char.ofNat_toNat x⟩

/-- One of some characters. -/
def anyOf : List Char → RegularExpression Char
  | [] => 0
  | x :: xs => .char x + anyOf xs

theorem mem_anyOf {xs text : List Char} : text ∈ (anyOf xs).matches' ↔ ∃ x ∈ xs, text = [x] := by
  induction xs with
  | nil => simp [anyOf, Language.notMem_zero]
  | cons x xs ih =>
    rw [anyOf, RegularExpression.matches'_add, Language.mem_add, ih, List.exists_mem_cons_iff]
    exact Iff.rfl

theorem mem_anyOf_mul {xs text : List Char} {p : RegularExpression Char} :
    text ∈ (anyOf xs * p).matches' ↔ ∃ x rest, text = x :: rest ∧ x ∈ xs ∧ rest ∈ p.matches' := by
  rw [RegularExpression.matches'_mul, Language.mem_mul]
  constructor
  · rintro ⟨word, first, rest, member, rfl⟩
    obtain ⟨x, among, rfl⟩ := mem_anyOf.mp first
    exact ⟨x, rest, rfl, among, member⟩
  · rintro ⟨x, rest, rfl, among, member⟩
    exact ⟨[x], mem_anyOf.mpr ⟨x, among, rfl⟩, rest, member, rfl⟩

theorem mem_anyOf_star {xs text : List Char} : text ∈ (anyOf xs).star.matches' ↔ ∀ x ∈ text, x ∈ xs := by
  rw [RegularExpression.matches'_star, Language.mem_kstar]
  constructor
  · rintro ⟨words, rfl, each⟩ x member
    obtain ⟨word, inside, here⟩ := List.mem_flatten.mp member
    obtain ⟨y, among, rfl⟩ := mem_anyOf.mp (each word inside)
    rwa [List.mem_singleton.mp here]
  · intro all
    refine ⟨text.map fun x => [x], by simp [← List.flatMap_def], fun word member => ?_⟩
    obtain ⟨x, inside, rfl⟩ := List.mem_map.mp member
    exact mem_anyOf.mpr ⟨x, all x inside, rfl⟩

/-- What a name may go on with, `[A-Za-z0-9_]`. -/
def nameChars : List Char := span 'A' 'Z' ++ span 'a' 'z' ++ span '0' '9' ++ ['_']

theorem mem_capitals {x : Char} : x ∈ span 'A' 'Z' ↔ x.isUpper = true := by
  rw [mem_span (by decide), isUpper_iff]

theorem mem_smalls {x : Char} : x ∈ span 'a' 'z' ↔ x.isLower = true := by
  rw [mem_span (by decide), isLower_iff]

theorem mem_nameChars {x : Char} : x ∈ nameChars ↔ isNameChar x = true := by
  have digits : x ∈ span '0' '9' ↔ x.isDigit = true := by
    rw [mem_span (by decide), isDigit_iff]
  simp [nameChars, mem_capitals, mem_smalls, digits, isNameChar, Char.isAlphanum, isAlpha_iff, or_assoc]

/-- The names that fit a role: `[A-Z][A-Za-z0-9_]*` for concepts and relations, and
`_*[a-z][A-Za-z0-9_]*` for individuals. -/
def Role.spelling : Role → RegularExpression Char
  | .concept | .relation => anyOf (span 'A' 'Z') * (anyOf nameChars).star
  | .individual => (anyOf ['_']).star * (anyOf (span 'a' 'z') * (anyOf nameChars).star)

end Spelling

variable {s : String} {role : Role}

/-- The case rule admits the names that are spelled as the role wants them. -/
theorem conforms_iff_matches : conforms s role = true ↔ s.toList ∈ role.spelling.matches' := by
  have capital : (match s.toList with
      | [] => false
      | x :: tail => x.isUpper && tail.all isNameChar) = true ↔
        s.toList ∈ (anyOf (span 'A' 'Z') * (anyOf nameChars).star).matches' := by
    simp only [mem_anyOf_mul, mem_anyOf_star, mem_capitals, mem_nameChars]
    cases s.toList <;> simp
  cases role with
  | concept | relation => exact capital
  | individual =>
    rw [Role.spelling, RegularExpression.matches'_mul, Language.mem_mul]
    simp only [mem_anyOf_mul, mem_anyOf_star, mem_smalls, mem_nameChars, List.mem_singleton]
    constructor
    · intro holds
      obtain ⟨n, x, tail, chars, alpha, parts⟩ := (IsIdentifier.of_conforms holds).marked
      rw [conforms_individual_eq chars (ne_mark_of_isAlpha alpha), Bool.and_eq_true] at holds
      refine ⟨_, fun y member => List.eq_of_mem_replicate member, _, ⟨x, tail, rfl, holds.1, ?_⟩, chars.symm⟩
      exact List.all_eq_true.mp parts
    · rintro ⟨marks, all, _, ⟨x, tail, rfl, lower, parts⟩, chars⟩
      have letter : x ≠ '_' := ne_mark_of_isAlpha (isAlpha_iff.mpr (.inr lower))
      rw [List.eq_replicate_of_mem all] at chars
      rw [conforms_individual_eq chars.symm letter, lower, List.all_eq_true.mpr parts]
      rfl

/-- No name fits both a concept and an individual. -/
theorem not_conforms_both : ¬(conforms s .concept = true ∧ conforms s .individual = true) := by
  rintro ⟨concept, individual⟩
  cases (variableRole_of_concept concept).symm.trans (variableRole_of_individual individual)

/-- An identifier that fits nothing has underscores before a capital letter. -/
theorem conforms_neither_iff (identifier : IsIdentifier s) :
    conforms s .concept = false ∧ conforms s .individual = false ↔
      ∃ n x tail, s.toList = List.replicate (n + 1) '_' ++ x :: tail ∧ x.isUpper = true := by
  constructor
  · rintro ⟨concept, individual⟩
    obtain ⟨n, x, tail, chars, alpha, parts⟩ := identifier.marked
    rw [conforms_individual_eq chars (ne_mark_of_isAlpha alpha), parts, Bool.and_true] at individual
    have upper : x.isUpper = true := by simpa [individual] using isAlpha_iff.mp alpha
    cases n with
    | zero => simp [conforms_concept_eq chars, upper, parts] at concept
    | succ n => exact ⟨n, x, tail, chars, upper⟩
  · rintro ⟨n, x, tail, chars, upper⟩
    have letter : x ≠ '_' := ne_mark_of_isAlpha (isAlpha_iff.mpr (.inl upper))
    rw [conforms_concept_eq chars, conforms_individual_eq chars letter, isLower_of_isUpper upper]
    simp

/-- A name that fits some role fits the one that a variable of that name has. -/
theorem conforms_variableRole (holds : conforms s role = true) : conforms s (variableRole s) = true := by
  cases role with
  | concept | relation =>
    rw [variableRole_of_concept holds]
    exact holds
  | individual => rwa [variableRole_of_individual holds]

/-- A variable whose base fits some role and is not reserved can only be refused for its type. -/
theorem Variable.vet_of_conforms {v : Vocabulary} (free : v.isReserved s = false) (holds : conforms s role = true)
    (type : Option String) {error : Error} (refused : Variable.vet v s type = .error error) :
    ∃ t, type = some t ∧ v.vet .concept t = .error error := by
  have base : v.vet (variableRole s) s = .ok s := by
    refine Vocabulary.vet_eq_ok_iff.mpr ⟨rfl, ?_, conforms_variableRole holds⟩
    rwa [Phrase.unsigiled_of_conforms holds]
  simp only [Variable.vet, base, bind, Except.bind] at refused
  cases type with
  | none => cases refused
  | some t =>
    refine ⟨t, rfl, ?_⟩
    cases judged : v.vet .concept t with
    | ok t' => simp [judged, pure, Except.pure] at refused
    | error error' => simpa [judged] using refused

namespace Grammar

open Pattern

/-- Whether a pattern of the grammar reads a text from its beginning to its end. -/
def ReadsAll {α : Type} (p : Form α) (text : List Char) : Prop :=
  ∃ a n t, p.run (matchRule body (Rule.all.length * (text.length + 1))) (Cursor.ofText text) Trace.start =
    .matched a ⟨[], n⟩ t

theorem readsAll_iff {α : Type} {p : Form α} {text : List Char} : ReadsAll p text ↔ ∃ a n,
    p.scan (scanRule body (Rule.all.length * (text.length + 1))) (Cursor.ofText text) = some (a, ⟨[], n⟩) := by
  have outcome : (p.run (matchRule body (Rule.all.length * (text.length + 1))) (Cursor.ofText text)
      Trace.start).outcome = p.scan (scanRule body _) (Cursor.ofText text) :=
    run_outcome (matchRule_outcome _) p _ _
  unfold ReadsAll
  rw [← outcome]
  cases p.run (matchRule body _) (Cursor.ofText text) Trace.start <;> simp [Reply.outcome]

/-- The rule for names reads just the identifiers. -/
theorem readsAll_identifier_iff : ReadsAll identifier s.toList ↔ IsIdentifier s := by
  rw [readsAll_iff]
  constructor
  · rintro ⟨name, n, found⟩
    obtain ⟨takes, identifier, _⟩ := identifier_found found
    have whole : s.toList = name.toList := by simpa [Cursor.ofText] using takes.rest
    rwa [String.toList_inj.mp whole]
  · intro identifier
    have read := scanned_identifier identifier stops_nil 0
    rw [List.append_nil] at read
    exact ⟨_, _, read⟩

end Grammar

/-- The roles part the identifiers among them. No name fits a concept and an individual, and an
identifier fits neither only if underscores stand before a capital letter. What fits a role is an
identifier and fits the role of a variable of that name, so no base of a variable is refused in vain. -/
theorem conforms_partition (s : String) :
    (∀ role, conforms s role = true ↔ s.toList ∈ role.spelling.matches') ∧
    ¬(conforms s .concept = true ∧ conforms s .individual = true) ∧
    (Grammar.ReadsAll Grammar.identifier s.toList →
      (conforms s .concept = false ∧ conforms s .individual = false ↔
        ∃ n x tail, s.toList = List.replicate (n + 1) '_' ++ x :: tail ∧ x.isUpper = true)) ∧
    (∀ role, conforms s role = true → Grammar.ReadsAll Grammar.identifier s.toList) ∧
    (∀ role, conforms s role = true → conforms s (variableRole s) = true) ∧
    ∀ v type error, v.isReserved s = false → Variable.vet v s type = .error error →
      (∀ role, conforms s role = false) ∨ ∃ t, type = some t ∧ v.vet .concept t = .error error := by
  refine ⟨fun role => conforms_iff_matches, not_conforms_both,
    fun reads => conforms_neither_iff (Grammar.readsAll_identifier_iff.mp reads),
    fun role holds => Grammar.readsAll_identifier_iff.mpr (.of_conforms holds),
    fun role => conforms_variableRole, fun v type error free refused => ?_⟩
  by_cases fits : ∃ role, conforms s role = true
  · obtain ⟨role, holds⟩ := fits
    exact .inr (Variable.vet_of_conforms free holds type refused)
  · simp only [not_exists, Bool.not_eq_true] at fits
    exact .inl fits

theorem underscored_partition : Grammar.ReadsAll Grammar.identifier "__Bob".toList ∧
    (conforms "__Bob" .concept = false ∧ conforms "__Bob" .individual = false) ∧
    conforms "_bob9" .individual = true ∧ Grammar.ReadsAll Grammar.identifier "_bob9".toList ∧
    conforms "_bob9" (variableRole "_bob9") = true ∧ Vocabulary.usual.isReserved "_9" = false ∧
    Variable.vet .usual "_9" none = .error (.namingConvention "_9" .individual) ∧
    ∀ role, conforms "_9" role = false := by
  have reads : Grammar.ReadsAll Grammar.identifier "__Bob".toList :=
    Grammar.readsAll_identifier_iff.mpr ⟨['_', '_'], 'B', ['o', 'b'], rfl, by simp, rfl, List.all_eq_true.mp rfl⟩
  have fits : conforms "_bob9" .individual = true := by decide
  have free : Vocabulary.usual.isReserved "_9" = false := by decide
  have refused : Variable.vet .usual "_9" none = .error (.namingConvention "_9" .individual) := rfl
  obtain ⟨_, _, neither, _⟩ := conforms_partition "__Bob"
  obtain ⟨_, _, _, identifier, variable', _⟩ := conforms_partition "_bob9"
  obtain ⟨_, _, _, _, _, bases⟩ := conforms_partition "_9"
  refine ⟨reads, (neither reads).mpr ⟨1, 'B', ['o', 'b'], rfl, rfl⟩, fits, identifier .individual fits,
    variable' .individual fits, free, refused, ?_⟩
  exact (bases .usual none _ free refused).resolve_right nofun

end ConceptLogic
