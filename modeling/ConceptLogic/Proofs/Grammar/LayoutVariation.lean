import ConceptLogic.Proofs.Grammar.JoinedPrograms

namespace ConceptLogic

/-- Blanks and comments, each comment closed by the end of its line. -/
inductive Layout : List Char → Prop
  | nothing : Layout []
  | blank {x : Char} {g : List Char} (blank : isBlank x = true) (rest : Layout g) : Layout (x :: g)
  | comment {t : List Char} {x : Char} {g : List Char} (inside : ∀ y ∈ t, endsComment y = false)
      (ends : endsComment x = true) (rest : Layout g) : Layout ('#' :: (t ++ x :: g))

theorem skipLayout_comment {t : List Char} {x : Char} (inside : ∀ y ∈ t, endsComment y = false)
    (ends : endsComment x = true) (s : List Char) (n : Nat) :
    skipLayout true (t ++ x :: s) n = skipLayout false s (n + (t.length + 1)) := by
  induction t generalizing n with
  | nil => simp [skipLayout, ends]
  | cons y t ih =>
    obtain ⟨goesOn, others⟩ := List.forall_mem_cons.mp inside
    rw [List.cons_append, skipLayout, goesOn, Bool.not_false, ih others, List.length_cons]
    congr 1
    omega

namespace Layout

variable {g : List Char}

theorem skipped (layout : Layout g) (s : List Char) (n : Nat) :
    skipLayout false (g ++ s) n = skipLayout false s (n + g.length) := by
  induction layout generalizing n with
  | nothing => rfl
  | blank blank _ ih =>
    rw [List.cons_append, skipLayout, if_pos blank, ih, List.length_cons]
    congr 1
    omega
  | @comment t x g inside ends _ ih =>
    have mark : skipLayout false ('#' :: (t ++ x :: g) ++ s) n =
        skipLayout true (t ++ x :: (g ++ s)) (n + 1) := by
      simp [skipLayout, isBlank]
    rw [mark, skipLayout_comment inside ends, ih]
    congr 1
    simp only [List.length_cons, List.length_append]
    omega

theorem head_not_bare (layout : Layout g) (some : g ≠ []) (s : List Char) :
    ∀ x, (g ++ s).head? = .some x → isBare x = false := by
  cases layout with
  | nothing => exact absurd rfl some
  | blank blank _ =>
    rintro _ ⟨⟩
    simp [isBare, blank]
  | comment =>
    rintro _ ⟨⟩
    rfl

end Layout

/-- Whether two texts differ in their layout alone, with some of it in one text wherever there is some in
the other. Only at the end one of them may have none. -/
inductive Spaced : List Char → List Char → Prop
  | ends {g g' : List Char} (layout : Layout g) (layout' : Layout g') : Spaced g g'
  | apart {g g' s s' : List Char} (layout : Layout g) (layout' : Layout g') (some : g ≠ [])
      (some' : g' ≠ []) (rest : Spaced s s') : Spaced (g ++ s) (g' ++ s')
  | char {x : Char} {s s' : List Char} (bare : isBare x = true) (rest : Spaced s s') :
      Spaced (x :: s) (x :: s')

namespace Spaced

variable {s s' : List Char}

theorem word {word : List Char} (bare : ∀ x ∈ word, isBare x = true) (spaced : Spaced s s') :
    Spaced (word ++ s) (word ++ s') := by
  induction word with
  | nil => exact spaced
  | cons x word ih =>
    obtain ⟨first, others⟩ := List.forall_mem_cons.mp bare
    exact .char first (ih others)

/-- Either the same character is next in both, or layout is next in each that has something left. -/
theorem next (spaced : Spaced s s') :
    (∃ x t t', s = x :: t ∧ s' = x :: t' ∧ Spaced t t') ∨
      (∀ x, s.head? = some x → isBare x = false) ∧ ∀ x, s'.head? = some x → isBare x = false := by
  have nothing_or : ∀ {g : List Char}, Layout g → ∀ x, g.head? = some x → isBare x = false := by
    intro g layout x here
    by_cases empty : g = []
    · subst empty
      cases here
    · exact layout.head_not_bare empty [] x (by rwa [List.append_nil])
  cases spaced with
  | ends layout layout' => exact .inr ⟨nothing_or layout, nothing_or layout'⟩
  | apart layout layout' some some' _ =>
    exact .inr ⟨layout.head_not_bare some _, layout'.head_not_bare some' _⟩
  | char _ rest => exact .inl ⟨_, _, _, rfl, rfl, rest⟩

/-- Behind layout, both texts are at their ends or go on with the same character. -/
theorem behindLayout (spaced : Spaced s s') (n m : Nat) :
    ((skipLayout false s n).rest = [] ∧ (skipLayout false s' m).rest = []) ∨
      ∃ x t t', (skipLayout false s n).rest = x :: t ∧ (skipLayout false s' m).rest = x :: t' ∧
        isBare x = true ∧ Spaced t t' := by
  induction spaced generalizing n m with
  | @ends g g' layout layout' =>
    have spent := layout.skipped [] n
    have spent' := layout'.skipped [] m
    rw [List.append_nil] at spent spent'
    rw [spent, spent']
    exact .inl ⟨rfl, rfl⟩
  | apart layout layout' _ _ _ ih =>
    rw [layout.skipped, layout'.skipped]
    exact ih _ _
  | @char x s s' bare rest _ =>
    have stays := afterLayout_bare bare s n
    have stays' := afterLayout_bare bare s' m
    rw [Cursor.afterLayout] at stays stays'
    rw [stays, stays']
    exact .inr ⟨x, s, s', rfl, rfl, bare, rest⟩

theorem afterLayout (spaced : Spaced s s') (n m : Nat) :
    Spaced (skipLayout false s n).rest (skipLayout false s' m).rest := by
  rcases spaced.behindLayout n m with ⟨spent, spent'⟩ | ⟨x, t, t', here, here', bare, rest⟩
  · rw [spent, spent']
    exact .ends .nothing .nothing
  · rw [here, here']
    exact .char bare rest

/-- Behind layout, nothing is left of one text just if nothing is left of the other one. -/
theorem spent_iff (spaced : Spaced s s') (n m : Nat) :
    (skipLayout false s n).rest = [] ↔ (skipLayout false s' m).rest = [] := by
  rcases spaced.behindLayout n m with ⟨spent, spent'⟩ | ⟨x, t, t', here, here', _⟩
  · simp [spent, spent']
  · simp [here, here']

/-- Two texts that differ in their layout. -/
def alignment : Alignment where
  aligned c c' := Spaced c.rest c'.rest
  bars x := isBare x = false
  barred {x} strange := by
    by_contra absent
    simp only [outer, List.mem_cons, List.not_mem_nil, or_false, not_or] at absent
    obtain ⟨space, tab, ret, line, hash, _⟩ := absent
    simp [isBare, isBlank, space, tab, ret, line, hash] at strange
  next {c c'} spaced := by
    obtain ⟨s, n⟩ := c
    obtain ⟨s', m⟩ := c'
    rcases spaced.next with ⟨x, t, t', rfl, rfl, rest⟩ | stop
    · exact .inl ⟨x, t, t', n, m, rfl, rfl, rest⟩
    · exact .inr stop
  layout spaced := spaced.afterLayout _ _

end Spaced

namespace Grammar

/-- Texts that differ in their layout are read as drafts that are judged alike, or both not. -/
theorem outcome_spaced (v : Vocabulary) {s t : List Char}
    (spaced : Spaced (skipLayout false s 0).rest (skipLayout false t 0).rest) :
    Option.Rel (fun x y => List.Forall₂ (Draft.Statement.Repeated v) x.1 y.1)
      (read s).outcome (read t).outcome := by
  have opening : ∀ c : Cursor, scanned clause c = scanned clause c.afterLayout := fun c => by
    rw [scanned_clause, scanned_clause, Cursor.afterLayout_again]
  obtain ⟨o, c, first⟩ := clause_found (Cursor.ofText s)
  obtain ⟨os, d, others⟩ := clauses_found c
  have opened : Spaced.alignment.aligned (Cursor.ofText s).afterLayout (Cursor.ofText t).afterLayout := spaced
  obtain ⟨o', c', first', same, aligned⟩ :=
    (Parallel.clause (v := v) (A := Spaced.alignment)).found opened ((opening _).symm.trans first)
  obtain ⟨os', d', others', each, aligned'⟩ :=
    (Parallel.clauses (v := v) (A := Spaced.alignment) nofun).found aligned others
  rw [read_outcome, read_outcome, scanned_program first others,
    scanned_program ((opening _).trans first') others']
  have ends : d.afterLayout.rest = [] ↔ d'.afterLayout.rest = [] := Spaced.spent_iff aligned' _ _
  by_cases spent : d.afterLayout.rest = []
  · rw [if_pos spent, if_pos (ends.mp spent)]
    exact .some (reduce_repeated (.cons same each))
  · rw [if_neg spent, if_neg (ends.not.mp spent)]
    exact .none

end Grammar

namespace Language

/-- Whether two texts are read alike: with the same outcome, or with errors that differ in the place alone
or in what had been expected there. -/
inductive Alike : Except Error Phrase → Except Error Phrase → Prop
  | same (outcome : Except Error Phrase) : Alike outcome outcome
  | expected (rules rules' : List Rule) (p q : Position) :
      Alike (.error (.unreadable (.expected rules) p)) (.error (.unreadable (.expected rules') q))
  | cardinality (digits : String) (p q : Position) :
      Alike (.error (.unreadable (.cardinality digits) p)) (.error (.unreadable (.cardinality digits) q))

theorem judged_repeated {v : Vocabulary} {ds es : List Draft.Statement}
    (each : List.Forall₂ (Draft.Statement.Repeated v) ds es) :
    Draft.unplaced (ds.mapM (Draft.Statement.judge v)) = Draft.unplaced (es.mapM (Draft.Statement.judge v)) := by
  induction each with
  | nil => rfl
  | cons first _ ih =>
    rw [List.mapM_cons, List.mapM_cons]
    exact Draft.unplaced_congr first fun _ => Draft.unplaced_congr ih fun _ => rfl

theorem alike_of_judged (s t : List Char) (x y : Except Draft.Flaw (List Phrase)) :
    Draft.unplaced x = Draft.unplaced y → Alike
      (match x with
        | .ok ps => .ok (.program ps)
        | .error flaw => .error (flaw.error s))
      (match y with
        | .ok ps => .ok (.program ps)
        | .error flaw => .error (flaw.error t)) := by
  intro same
  cases x with
  | ok ps =>
    rw [Draft.unplaced_ok same rfl]
    exact .same _
  | error flaw =>
    cases y with
    | ok => cases same
    | error flaw' =>
      have same : flaw.unplaced = flaw'.unplaced := Except.error.inj same
      cases flaw with
      | name error =>
        cases flaw' with
        | name error' =>
          cases same
          exact .same _
        | cardinality => cases same
      | cardinality n =>
        cases flaw' with
        | name => cases same
        | cardinality m =>
          have digits : n.digits = m.digits := by
            injection same with same
            injection same
          dsimp only [Draft.Flaw.error]
          rw [digits]
          exact .cardinality _ _ _

/-- Texts are read alike that differ in their layout. -/
theorem parse_spaced (l : Language) {s t : String}
    (spaced : Spaced (skipLayout false s.toList 0).rest (skipLayout false t.toList 0).rest) :
    Alike (l.parse s) (l.parse t) := by
  have read := Grammar.outcome_spaced l.vocabulary spaced
  unfold parse draft
  revert read
  cases Grammar.read s.toList with
  | failed =>
    cases Grammar.read t.toList with
    | failed =>
      intro _
      exact .expected _ _ _ _
    | matched => exact nofun
  | matched =>
    cases Grammar.read t.toList with
    | failed => exact nofun
    | matched =>
      rintro ⟨each⟩
      exact alike_of_judged _ _ _ _ (judged_repeated each)

end Language

/-- The signs that the grammar has. -/
def signs : List String :=
  ["!", ":=", "::", ":", ",", ";", "->", "<=", ">=", "=>", "==", "<", ">", "^", "|", "&", "~", ".", "(", ")",
    "\x7b", "\x7d", "$", "@"]

/-- The pieces of a text between which layout may stand. Keywords are among the names, and a variable with
its type is one piece. -/
inductive Token : String → Prop
  | name {name : String} (identifier : IsIdentifier name) : Token name
  | number {digits : List Char} (some : digits ≠ []) (all : ∀ x ∈ digits, x.isDigit = true) :
      Token (String.ofList digits)
  | sign {sign : String} (member : sign ∈ signs) : Token sign
  | untyped {base : String} (identifier : IsIdentifier base) : Token ("$" ++ base)
  | typed {base type : String} (identifier : IsIdentifier base) (typeHolds : IsIdentifier type) :
      Token ("$" ++ base ++ ":" ++ type)

/-- Whether a text is some characters none of which is layout. -/
structure IsBare (t : String) : Prop where
  some : t.toList ≠ []
  all : ∀ x ∈ t.toList, isBare x = true

theorem IsBare.append {t u : String} (first : IsBare t) (second : IsBare u) : IsBare (t ++ u) := by
  constructor
  · rw [String.toList_append]
    exact List.append_ne_nil_of_left_ne_nil first.some _
  · intro x member
    rw [String.toList_append, List.mem_append] at member
    exact member.elim (first.all x) (second.all x)

theorem IsIdentifier.bare {name : String} (identifier : IsIdentifier name) : IsBare name := by
  obtain ⟨marks, letter, tail, name_eq, all, alpha, parts⟩ := identifier
  refine ⟨by simp [name_eq], fun x member => bare_of_isNameChar ?_⟩
  rw [name_eq, List.mem_append, List.mem_cons] at member
  rcases member with mark | rfl | part
  · simp [isNameChar, all x mark]
  · simp [isNameChar, Char.isAlphanum, alpha]
  · exact parts x part

theorem Token.bare {t : String} (token : Token t) : IsBare t := by
  have dollar : IsBare "$" := ⟨by simp, by simp [isBare, isBlank]⟩
  have colon : IsBare ":" := ⟨by simp, by simp [isBare, isBlank]⟩
  cases token with
  | name identifier => exact identifier.bare
  | number some all =>
    refine ⟨by simpa using some, fun x member => bare_of_isNameChar ?_⟩
    rw [String.toList_ofList] at member
    simp [isNameChar, Char.isAlphanum, all x member]
  | sign member =>
    have each : ∀ t ∈ signs, t.toList ≠ [] ∧ ∀ x ∈ t.toList, isBare x = true := by
      simp [signs, isBare, isBlank]
    exact ⟨(each t member).1, (each t member).2⟩
  | untyped identifier => exact dollar.append identifier.bare
  | typed identifier typeHolds =>
    exact ((dollar.append identifier.bare).append colon).append typeHolds.bare

/-- Whether a text is some tokens with layout behind each, of which only the last may have none. -/
inductive Spells : List String → List Char → Prop
  | last {t : String} {g : List Char} (layout : Layout g) : Spells [t] (t.toList ++ g)
  | more {t : String} {ts : List String} {g s : List Char} (layout : Layout g) (some : g ≠ [])
      (rest : Spells ts s) : Spells (t :: ts) (t.toList ++ (g ++ s))

/-- Whether a text is some tokens with layout between them, and perhaps around them. -/
inductive Writes : List String → List Char → Prop
  | nothing {g : List Char} (layout : Layout g) : Writes [] g
  | opened {ts : List String} {g s : List Char} (layout : Layout g) (rest : Spells ts s) : Writes ts (g ++ s)

section Writings

variable {ts : List String} {s s' : List Char}

theorem Spells.spaced (bare : ∀ t ∈ ts, IsBare t) (spells : Spells ts s) (spells' : Spells ts s') :
    Spaced s s' := by
  induction spells generalizing s' with
  | last layout =>
    cases spells' with
    | last layout' => exact .word (bare _ (List.mem_singleton_self _)).all (.ends layout layout')
    | more _ _ rest => cases rest
  | more layout some rest ih =>
    obtain ⟨first, others⟩ := List.forall_mem_cons.mp bare
    cases spells' with
    | last => cases rest
    | more layout' some' rest' =>
      exact .word first.all (.apart layout layout' some some' (ih others rest'))

/-- No layout stands before the first token. -/
theorem Spells.starts (bare : ∀ t ∈ ts, IsBare t) (spells : Spells ts s) (n : Nat) :
    (skipLayout false s n).rest = s := by
  have stays : ∀ {t : String} {s : List Char}, IsBare t →
      (skipLayout false (t.toList ++ s) n).rest = t.toList ++ s := by
    intro t s here
    obtain ⟨x, word, word_eq⟩ := List.exists_cons_of_ne_nil here.some
    have first : isBare x = true := here.all x (by simp [word_eq])
    rw [word_eq, List.cons_append]
    exact congrArg Cursor.rest (afterLayout_bare first (word ++ s) n)
  cases spells with
  | last => exact stays (bare _ (List.mem_cons_self ..))
  | more => exact stays (bare _ (List.mem_cons_self ..))

theorem Writes.spaced (bare : ∀ t ∈ ts, IsBare t) (writes : Writes ts s) (writes' : Writes ts s') :
    Spaced (skipLayout false s 0).rest (skipLayout false s' 0).rest := by
  cases writes with
  | nothing layout =>
    cases writes' with
    | nothing layout' => exact Spaced.afterLayout (.ends layout layout') 0 0
    | opened _ rest => cases rest
  | opened layout rest =>
    cases writes' with
    | nothing => cases rest
    | opened layout' rest' =>
      rw [layout.skipped, layout'.skipped, rest.starts bare, rest'.starts bare]
      exact rest.spaced bare rest'

end Writings

namespace Language

/-- Layout does not matter. However tokens are written down, with blanks and comments between any two of
them, they are read as the same program, or refused with the same error. -/
theorem parse_layout (l : Language) {tokens : List String} (all : ∀ t ∈ tokens, Token t) {s t : String}
    (first : Writes tokens s.toList) (second : Writes tokens t.toList) : Alike (l.parse s) (l.parse t) :=
  l.parse_spaced (first.spaced (fun t member => (all t member).bare) second)

/-- A comment may end with a carriage return, and layout may open and close a text. -/
theorem parse_layout_comment :
    parse ⟨Vocabulary.usual⟩ "A <= T" = .ok (.program [.comparison [.concept "A", .concept "T"] ["<="]]) ∧
    Alike (parse ⟨Vocabulary.usual⟩ "A <= T") (parse ⟨Vocabulary.usual⟩ "#\rA\n<= #a\r\tT ") := by
  have space : Layout [' '] := .blank rfl .nothing
  have line : Layout ['\n'] := .blank rfl .nothing
  have opening : Layout ['#', '\r'] := .comment (t := []) nofun rfl .nothing
  have comment : Layout [' ', '#', 'a', '\r', '\t'] :=
    .blank rfl (.comment (t := ['a']) (by simp [endsComment]) rfl (.blank rfl .nothing))
  have plain : Writes ["A", "<=", "T"] "A <= T".toList :=
    .opened .nothing (.more (t := "A") space nofun (.more (t := "<=") space nofun
      (.last (t := "T") .nothing)))
  have spread : Writes ["A", "<=", "T"] "#\rA\n<= #a\r\tT ".toList :=
    .opened opening (.more (t := "A") line nofun (.more (t := "<=") comment nofun
      (.last (t := "T") space)))
  have tokens : ∀ t ∈ ["A", "<=", "T"], Token t := by
    have name : ∀ x, x.isAlpha = true → IsIdentifier (String.ofList [x]) :=
      fun x alpha => ⟨[], x, [], by simp, nofun, alpha, nofun⟩
    simp only [List.forall_mem_cons]
    exact ⟨.name (name 'A' rfl), .sign (by decide), .name (name 'T' rfl), nofun⟩
  exact ⟨rfl, parse_layout _ tokens plain spread⟩

end Language

end ConceptLogic
