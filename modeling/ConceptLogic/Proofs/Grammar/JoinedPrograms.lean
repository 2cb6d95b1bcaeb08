import ConceptLogic.Proofs.Grammar.AbuttingTexts
import ConceptLogic.Proofs.Grammar.FencedCursors
import ConceptLogic.Proofs.Session.ReachedStates
import Mathlib.Data.List.ReduceOption

namespace ConceptLogic

namespace Grammar

open Pattern

/-- A statement behind layout, if there is one. -/
def clause : Form (Option Draft.Statement) := seq (fun _ d => d) gap (opt statement)

/-- Further statements that may be missing, with a semicolon before each. -/
def clauses : Form (List (Option Draft.Statement)) :=
  star (seq (fun _ d => d) gap (seq (fun _ d => d) (literal [';']) clause))

section Clauses

variable {c d e : Cursor} {o : Option Draft.Statement} {os : List (Option Draft.Statement)}

/-- A form behind one whose value does not count. -/
theorem scanned_behind {α β : Type} {p : Form α} {q : Form β} {a : α} (found : scanned p c = some (a, d)) :
    scanned (seq (fun _ b => b) p q) c = scanned q d := by
  rw [scanned_seq, found]
  change (scanned q d).map id = _
  rw [Option.map_id_fun, id]

theorem scanned_clause (c : Cursor) : scanned clause c = scanned (opt statement) c.afterLayout :=
  scanned_behind (scanned_gap c)

/-- A statement may always be missing. -/
theorem clause_found (c : Cursor) : ∃ o d, scanned clause c = some (o, d) := by
  rw [scanned_clause, scanned_choice]
  cases scanned (Pattern.map some statement) c.afterLayout with
  | none => exact ⟨none, _, rfl⟩
  | some found => exact ⟨found.1, found.2, rfl⟩

theorem eats_semicolon : Eats (seq (fun _ d => d) gap (seq (fun _ d => d) (literal [';']) clause)) :=
  Eats.behindGap (Eats.of_eats rfl)

theorem clauses_semicolon {s : List Char} {n : Nat} (mark : c.afterLayout = ⟨';' :: s, n⟩)
    (first : scanned clause ⟨s, n + 1⟩ = some (o, d)) (others : scanned clauses d = some (os, e)) :
    scanned clauses c = some (o :: os, e) := by
  have item : scanned (seq (fun _ d => d) gap (seq (fun _ d => d) (literal [';']) clause)) c = some (o, d) := by
    have read : scanned (literal [';']) ⟨';' :: s, n⟩ = some ((), ⟨s, n + 1⟩) := rfl
    rw [scanned_behind (scanned_gap c), mark, scanned_behind read, first]
  rw [clauses, scanned_star _ eats_semicolon, item]
  exact congrArg (Option.map _) others

theorem clauses_stop (stop : c.afterLayout.rest.head? ≠ some ';') : scanned clauses c = some ([], c) := by
  have none : scanned (seq (fun _ d => d) gap (seq (fun _ d => d) (literal [';']) clause)) c = none := by
    rw [scanned_behind (scanned_gap c), scanned_seq, scanned_literal, read?_differs stop]
    rfl
  rw [clauses, scanned_star _ eats_semicolon, none]

theorem semicolon_or_stop (c : Cursor) :
    (∃ s n, c.afterLayout = ⟨';' :: s, n⟩) ∨ c.afterLayout.rest.head? ≠ some ';' := by
  obtain ⟨_ | ⟨x, s⟩, n⟩ := c.afterLayout
  · exact .inr nofun
  · by_cases mark : x = ';'
    · exact .inl ⟨s, n, by rw [mark]⟩
    · exact .inr fun same => mark (Option.some.inj same)

theorem clauses_found (c : Cursor) : ∃ os e, scanned clauses c = some (os, e) := ⟨_, _, rfl⟩

/-- Layout before the first semicolon makes no difference. -/
theorem clauses_afterLayout (found : scanned clauses c = some (os, e)) :
    ∃ e', scanned clauses c.afterLayout = some (os, e') ∧ e'.afterLayout = e.afterLayout := by
  rcases semicolon_or_stop c with ⟨s, n, mark⟩ | stop
  · obtain ⟨o, d, first⟩ := clause_found ⟨s, n + 1⟩
    obtain ⟨ps, f, others⟩ := clauses_found d
    rw [clauses_semicolon mark first others] at found
    cases found
    exact ⟨e, clauses_semicolon (by rwa [Cursor.afterLayout_again]) first others, rfl⟩
  · rw [clauses_stop stop] at found
    cases found
    exact ⟨_, clauses_stop (by rwa [Cursor.afterLayout_again]), Cursor.afterLayout_again _⟩

/-- A program is a statement and further ones up to the end of the text. -/
theorem scanned_program (first : scanned clause c = some (o, d)) (others : scanned clauses d = some (os, e)) :
    scanned (nested .program) c =
      if e.afterLayout.rest = [] then some ((o :: os).reduceOption, e.afterLayout) else none := by
  obtain ⟨e', found, same⟩ := clauses_afterLayout others
  have opening : scanned gap c = some ((), c.afterLayout) := rfl
  have items : scanned (many (before (literal [';']) (opt statement))) d.afterLayout = some (os, e') :=
    (scanned_many (Eats.of_eats rfl) (Cursor.afterLayout_again d)).trans found
  rw [scanned_clause] at first
  rw [scanned_rule, body, scanned_spaced opening, Cursor.afterLayout_again, scanned_spaced first,
    scanned_spaced items, same, scanned_rule]
  have ending : scanned (body .endOfInput) e.afterLayout =
      if e.afterLayout.rest = [] then some ((), e.afterLayout) else none := by
    simp [scanned, body, scan]
  rw [ending]
  split <;> rfl

end Clauses

section Joining

variable {v : Vocabulary} {A : Alignment} {more : List Char}

theorem Parallel.clause : Parallel v A clause (Option.Rel (Draft.Statement.Repeated v)) :=
  Parallel.gap.seq (.choice (Parallel.statement.map fun _ _ => .some) (.pure .none))
    fun _ _ _ _ _ same => same

theorem Parallel.clauses (passed : ¬A.bars ';') :
    Parallel v A clauses (List.Forall₂ (Option.Rel (Draft.Statement.Repeated v))) := by
  have mark : Parallel v A (.literal [';']) Eq := .literal (List.forall_mem_singleton.mpr passed)
  have item : Parallel v A (.seq (fun _ d => d) (.literal [';']) Grammar.clause)
      (Option.Rel (Draft.Statement.Repeated v)) :=
    mark.seq Parallel.clause fun _ _ _ _ _ same => same
  exact Parallel.star (Parallel.gap.seq item fun _ _ _ _ _ same => same) (.behindGap (.of_eats rfl))

/-- What is read of two cursors that stand at one place. -/
theorem Parallel.found {α : Type} {p : Form α} {R : α → α → Prop} (parallel : Parallel v A p R)
    {c c' d : Cursor} {a : α} (aligned : A.aligned c c') (found : Grammar.scanned p c = some (a, d)) :
    ∃ a' d', Grammar.scanned p c' = some (a', d') ∧ R a a' ∧ A.aligned d d' := by
  have paired := parallel.scanned aligned
  rw [found] at paired
  revert paired
  generalize Grammar.scanned p c' = x
  rintro ⟨⟩
  exact ⟨_, _, rfl, ‹_›⟩

/-- Statements of a text one after the other, each behind a semicolon, up to the semicolon behind which
another text begins. -/
inductive Rounds (t : List Char) (place : Nat) : Cursor → List (Option Draft.Statement) → Prop
  | border {c} : c.afterLayout = ⟨';' :: t, place⟩ → Rounds t place c []
  | next {c s n o d os} : c.afterLayout = ⟨';' :: s, n⟩ → Fenced t place ⟨s, n + 1⟩ →
      scanned clause ⟨s, n + 1⟩ = some (o, d) → Rounds t place d os → Rounds t place c (o :: os)

/-- After the statements of one text those of the other are read. -/
theorem Rounds.scanned {t : List Char} {place : Nat} {c d f : Cursor} {os ps : List (Option Draft.Statement)}
    {o : Option Draft.Statement} (rounds : Rounds t place c os)
    (second : Grammar.scanned Grammar.clause ⟨t, place + 1⟩ = some (o, d))
    (others : Grammar.scanned Grammar.clauses d = some (ps, f)) :
    Grammar.scanned Grammar.clauses c = some (os ++ o :: ps, f) := by
  induction rounds with
  | border mark => exact clauses_semicolon mark second others
  | next mark _ first _ ih => exact clauses_semicolon mark first ih

theorem clause_stays (t : List Char) (place : Nat) :
    Stays t place (fun c => (scanned clause c).map Prod.snd) (vain clause) :=
  stays rfl t place

/-- Where a text can be read to its end, the text with another one behind a border is read in rounds up
to that border. -/
theorem clauses_rounds {t : List Char} {place : Nat} {c c' e : Cursor} (abuts : Abuts ('\n' :: ';' :: t) c c')
    (fenced : Fenced t place c') {os : List (Option Draft.Statement)}
    (found : scanned clauses c = some (os, e)) (ends : e.afterLayout.rest = []) :
    ∃ os', List.Forall₂ (Option.Rel (Draft.Statement.Repeated v)) os os' ∧ Rounds t place c' os' := by
  have border : Border ('\n' :: ';' :: t) := .line t
  -- Each semicolon is a character less, so the induction is on how much of the first text is left.
  induction left : c.rest.length using Nat.strong_induction_on generalizing c c' os with
  | _ k ih =>
    have length := fenced.afterLayout.length
    rcases abuts.layout border with ⟨x, s, k, l, here, there⟩ | ⟨k, l, here, there⟩
    · by_cases mark : x = ';'
      · subst mark
        obtain ⟨o, d, first⟩ := clause_found ⟨s, k + 1⟩
        obtain ⟨ps, f, others⟩ := clauses_found d
        rw [clauses_semicolon here first others] at found
        cases found
        obtain ⟨o', d', first', same, abuts'⟩ :=
          (Parallel.clause (v := v) (A := border.alignment)).found (.inside s (k + 1) (l + 1)) first
        have shorter : d.rest.length < c.rest.length := by
          have within : d.rest.length ≤ s.length := (scan_forward (scanWhole_forward _ _) first).1
          have layout : c.afterLayout.rest.length ≤ c.rest.length := skipLayout_length ..
          rw [here, List.length_cons] at layout
          exact Nat.lt_of_le_of_lt within layout
        have inside : Fenced t place ⟨s ++ '\n' :: ';' :: t, l + 1⟩ := by
          simp only [there, List.length_cons, List.length_append] at length
          exact .before s (l + 1) (by omega)
        have fenced' := (clause_stays t place inside).2 d' (congrArg (Option.map Prod.snd) first')
        obtain ⟨ps', each, rounds⟩ := ih _ (left ▸ shorter) abuts' fenced' others rfl
        exact ⟨o' :: ps', .cons same each, .next there inside first' rounds⟩
      · have stop : c.afterLayout.rest.head? ≠ some ';' := by
          rw [here]
          exact fun same => mark (Option.some.inj same)
        rw [clauses_stop stop] at found
        cases found
        rw [here] at ends
        cases ends
    · have stop : c.afterLayout.rest.head? ≠ some ';' := by
        rw [here]
        exact nofun
      rw [clauses_stop stop] at found
      cases found
      simp only [there, List.tail_cons, List.length_cons] at length
      obtain rfl : l = place := by omega
      exact ⟨[], .nil, .border there⟩

theorem reduce_repeated {os os' : List (Option Draft.Statement)}
    (each : List.Forall₂ (Option.Rel (Draft.Statement.Repeated v)) os os') :
    List.Forall₂ (Draft.Statement.Repeated v) os.reduceOption os'.reduceOption := by
  induction each with
  | nil => exact .nil
  | cons first _ ih =>
    cases first with
    | none => exact ih
    | some same => exact .cons same ih

theorem fenced_joined (s t : List Char) :
    Fenced t (s.length + 1) (Cursor.ofText (s ++ '\n' :: ';' :: t)) :=
  .before s 0 (by omega)

/-- A text that can be read is read alike with another one behind a border, and up to that border. -/
theorem joined_rounds {s : List Char} {ds : List Draft.Statement} {c : Cursor}
    (accepted : (read s).outcome = some (ds, c)) (t : List Char) :
    ∃ o d os, scanned clause (Cursor.ofText (s ++ '\n' :: ';' :: t)) = some (o, d) ∧
      Rounds t (s.length + 1) d os ∧ List.Forall₂ (Draft.Statement.Repeated v) ds (o :: os).reduceOption := by
  rw [read_outcome] at accepted
  obtain ⟨o, d, opening⟩ := clause_found (Cursor.ofText s)
  obtain ⟨os, e, others⟩ := clauses_found d
  rw [scanned_program opening others] at accepted
  obtain ⟨ends, ⟨⟩⟩ := Option.ite_none_right_eq_some.mp accepted
  have border : Border ('\n' :: ';' :: t) := .line t
  obtain ⟨o', d', found, same, abuts⟩ :=
    (Parallel.clause (v := v) (A := border.alignment)).found (.inside s 0 0) opening
  have fenced := (clause_stays t _ (fenced_joined s t)).2 d' (congrArg (Option.map Prod.snd) found)
  obtain ⟨os', each, rounds⟩ := clauses_rounds (v := v) abuts fenced others ends
  exact ⟨o', d', os', found, rounds, reduce_repeated (.cons same each)⟩

/-- Two texts with a line between them that begins with a semicolon are read as the statements of the
first and then those of the second. -/
theorem read_joined {s t : List Char} {ds es : List Draft.Statement} {c d : Cursor}
    (first : (read s).outcome = some (ds, c)) (second : (read t).outcome = some (es, d)) :
    ∃ ds' es' e, (read (s ++ '\n' :: ';' :: t)).outcome = some (ds' ++ es', e) ∧
      List.Forall₂ (Draft.Statement.Repeated v) ds ds' ∧ List.Forall₂ (Draft.Statement.Repeated v) es es' := by
  obtain ⟨o, c₁, os, opening, rounds, same⟩ := joined_rounds (v := v) first t
  rw [read_outcome] at second ⊢
  obtain ⟨p, d₁, opening'⟩ := clause_found (Cursor.ofText t)
  obtain ⟨ps, d₂, others'⟩ := clauses_found d₁
  rw [scanned_program opening' others'] at second
  obtain ⟨ends', ⟨⟩⟩ := Option.ite_none_right_eq_some.mp second
  -- The second text is read as it would be read alone, but for the place where it begins.
  have shifted : Abuts [] (Cursor.ofText t) ⟨t, s.length + 1 + 1⟩ := by
    have inside : Abuts [] ⟨t, 0⟩ ⟨t ++ [], s.length + 1 + 1⟩ := .inside t 0 _
    rwa [List.append_nil] at inside
  have passed : ¬Border.nothing.alignment.bars ';' := by
    rintro (here | here) <;> cases here
  obtain ⟨p', d₁', found', same', abuts'⟩ :=
    (Parallel.clause (v := v) (A := Border.nothing.alignment)).found shifted opening'
  obtain ⟨ps', d₂', last, each', abuts''⟩ := (Parallel.clauses (v := v) passed).found abuts' others'
  have spent : d₂'.afterLayout.rest = [] := by
    rcases Abuts.layout .nothing abuts'' with ⟨x, rest, k, l, here, _⟩ | ⟨k, l, _, there⟩
    · rw [here] at ends'
      cases ends'
    · rw [there]
      rfl
  refine ⟨_, _, d₂'.afterLayout, ?_, same, reduce_repeated (.cons same' each')⟩
  rw [scanned_program opening (rounds.scanned found' last), if_pos spent, ← List.cons_append,
    List.reduceOption_append]

end Joining

end Grammar

theorem Phrase.run_evalAll_append (before rest : List Phrase) (s : State) :
    (evalAll (before ++ rest)).run s =
      match (evalAll before).run s with
      | .error e s' => .error e s'
      | .ok vs s' =>
        match (evalAll rest).run s' with
        | .error e s'' => .error e s''
        | .ok ws s'' => .ok (vs ++ ws) s'' := by
  induction before generalizing s with
  | nil =>
    change (evalAll rest).run s = match (evalAll rest).run s with
      | .error e s'' => .error e s''
      | .ok ws s'' => .ok ws s''
    cases (evalAll rest).run s <;> rfl
  | cons p before ih =>
    rw [List.cons_append, run_evalAll_cons, run_evalAll_cons]
    cases p.eval.run s with
    | error e s' => rfl
    | ok v s' =>
      dsimp only
      rw [ih]
      cases (evalAll before).run s' with
      | error e s'' => rfl
      | ok vs s'' =>
        dsimp only
        cases (evalAll rest).run s'' <;> rfl

/-- Statements have a value each. -/
theorem Phrase.evalAll_length {ps : List Phrase} {vs : List Value} {s s' : State}
    (run : (evalAll ps).run s = .ok vs s') : vs.length = ps.length := by
  induction ps generalizing vs s with
  | nil =>
    cases run
    rfl
  | cons p ps ih =>
    obtain ⟨v, s₁, ws, _, others, rfl⟩ := evalAll_cons_eq_ok.mp run
    exact congrArg (· + 1) (ih others)

namespace Language

open Phrase (evalAll)

variable {l : Language} {t u : String} {p q : Phrase}

theorem parse_joined (first : l.parse t = .ok p) (second : l.parse u = .ok q) :
    l.parse (t ++ "\n;" ++ u) = .ok (.program (p.statements ++ q.statements)) := by
  obtain ⟨ds, c, ps, read, each, rfl⟩ := parse_eq_ok_iff.mp first
  obtain ⟨es, d, qs, read', each', rfl⟩ := parse_eq_ok_iff.mp second
  obtain ⟨ds', es', e, joined, same, same'⟩ := Grammar.read_joined (v := l.vocabulary) read read'
  have judged : ∀ {ds ds' : List Draft.Statement} {ps : List Phrase},
      List.Forall₂ (Draft.Statement.Repeated l.vocabulary) ds ds' →
        List.Forall₂ (fun d p => d.judge l.vocabulary = .ok p) ds ps →
          List.Forall₂ (fun d p => d.judge l.vocabulary = .ok p) ds' ps := by
    intro ds ds' ps same each
    induction same generalizing ps with
    | nil => exact each
    | cons first _ ih =>
      cases each with
      | cons here others => exact .cons (Draft.unplaced_ok first here) (ih others)
  have text : (t ++ "\n;" ++ u).toList = t.toList ++ '\n' :: ';' :: u.toList := by simp
  refine parse_eq_ok_iff.mpr ⟨_, _, _, by rw [text]; exact joined, ?_, rfl⟩
  exact List.rel_append (judged same each) (judged same' each')

/-- A program can be run in pieces. Two texts that can be read, with a line between them that begins with
a semicolon, are the program of all their statements. It runs as the first and then the second one do:
where the first one fails, so does it, and in the same way; else it ends as the second one does, with the
value of the first one if the second one has no statement. -/
theorem run_pieces (first : l.parse t = .ok p) (second : l.parse u = .ok q) :
    l.parse (t ++ "\n;" ++ u) = .ok (.program (p.statements ++ q.statements)) ∧
    ∀ s, (l.run (t ++ "\n;" ++ u)).run s =
      match (l.run t).run s with
      | .error e s' => .error e s'
      | .ok v s' =>
        match (l.run u).run s' with
        | .error e s'' => .error e s''
        | .ok w s'' => .ok (if q.statements.isEmpty then v else w) s'' := by
  have parsed := parse_joined first second
  refine ⟨parsed, fun s => ?_⟩
  obtain ⟨_, _, ps, _, _, rfl⟩ := parse_eq_ok_iff.mp first
  obtain ⟨_, _, qs, _, _, rfl⟩ := parse_eq_ok_iff.mp second
  rw [run_of_ok parsed, run_program, run_of_ok first, run_program]
  dsimp only [Phrase.statements]
  rw [Phrase.run_evalAll_append]
  cases (evalAll ps).run s with
  | error e s' => rfl
  | ok vs s' =>
    dsimp only
    rw [run_of_ok second, run_program]
    cases run : (evalAll qs).run s' with
    | error e s'' => rfl
    | ok ws s'' =>
      have length := Phrase.evalAll_length run
      dsimp only
      cases qs with
      | nil =>
        cases List.eq_nil_of_length_eq_zero length
        rw [List.append_nil]
        rfl
      | cons q qs =>
        obtain ⟨w, ws, rfl⟩ := List.exists_cons_of_length_eq_add_one length
        rw [List.getLastD_eq_getLast?, List.getLastD_eq_getLast?,
          List.getLast?_append_of_ne_nil _ (List.cons_ne_nil _ _)]
        rfl

/-- What is left by a program that declares a concept. -/
def declaredA : State :=
  ⟨(Environment.initial "T").assign "A" (.concept ⟨2⟩),
    ⟨#[.concept (.named "T") [] [], .concept (.named "A") [⟨1⟩] []]⟩⟩

/-- A comment that is open where the first text ends is closed by the line between the two. -/
theorem declaredA_pieces :
    parse ⟨Vocabulary.usual⟩ "!A::T#" = .ok (.program [.declareConcept "A" [.concept "T"]]) ∧
    parse ⟨Vocabulary.usual⟩ "A<=T" =
      .ok (.program [.comparison [.concept "A", .concept "T"] ["<="]]) ∧
    parse ⟨Vocabulary.usual⟩ ("!A::T#" ++ "\n;" ++ "A<=T") = .ok (.program
      [.declareConcept "A" [.concept "T"], .comparison [.concept "A", .concept "T"] ["<="]]) ∧
    (run ⟨Vocabulary.usual⟩ ("!A::T#" ++ "\n;" ++ "A<=T")).run (.initial "T") =
      .ok (.boolean true) declaredA := by
  have first : parse ⟨Vocabulary.usual⟩ "!A::T#" = .ok (.program [.declareConcept "A" [.concept "T"]]) := by
    rfl
  have second : parse ⟨Vocabulary.usual⟩ "A<=T" =
      .ok (.program [.comparison [.concept "A", .concept "T"] ["<="]]) := rfl
  have declared : (Phrase.program [.declareConcept "A" [.concept "T"]]).eval.run (.initial "T") =
      .ok .nothing declaredA := by with_unfolding_all rfl
  have compared : (Phrase.program [.comparison [.concept "A", .concept "T"] ["<="]]).eval.run declaredA =
      .ok (.boolean true) declaredA := rfl
  obtain ⟨parsed, runs⟩ := run_pieces first second
  refine ⟨first, second, parsed, ?_⟩
  rw [runs, run_of_ok first, declared]
  dsimp only
  rw [run_of_ok second, compared]
  rfl

end Language

end ConceptLogic
