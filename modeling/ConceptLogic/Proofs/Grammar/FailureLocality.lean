import ConceptLogic.Proofs.Grammar.JoinedPrograms

namespace ConceptLogic

theorem Position.after_append (start : Position) (s t : List Char) :
    start.after (s ++ t) = (start.after s).after t := by
  induction s generalizing start with
  | nil => rfl
  | cons x s ih =>
    simp only [List.cons_append, after]
    split <;> exact ih _

theorem Position.after_line (start : Position) (s : List Char) :
    (start.after s).line = start.line + s.count '\n' := by
  induction s generalizing start with
  | nil => rfl
  | cons x s ih =>
    simp only [after]
    split
    · rename_i feed
      rw [ih, feed, List.count_cons_self]
      exact Nat.add_right_comm ..
    · rename_i other
      rw [ih, List.count_cons_of_ne other]

/-- The same text from somewhere further down and to the right. Only its first line is moved to the
right. -/
theorem Position.after_moved (start : Position) (lines columns : Nat) (s : List Char) :
    Position.after ⟨start.line + lines, start.column + columns⟩ s =
      ⟨(start.after s).line + lines,
        if '\n' ∈ s then (start.after s).column else (start.after s).column + columns⟩ := by
  induction s generalizing start columns with
  | nil => rfl
  | cons x s ih =>
    simp only [after]
    split
    · rename_i feed
      subst feed
      have next := ih ⟨start.line + 1, 1⟩ 0
      simp only [Nat.add_zero, ite_self] at next
      rw [Nat.add_right_comm, if_pos (List.mem_cons_self ..)]
      exact next
    · rename_i other
      have next := ih ⟨start.line, start.column + 1⟩ columns
      rw [Nat.add_right_comm, next]
      simp only [List.mem_cons, Ne.symm other, false_or]

/-- A position in a text, when another text and a line that begins with a semicolon stand before it. -/
def Position.behind (s : List Char) (p : Position) : Position :=
  ⟨p.line + s.count '\n' + 1, if p.line = 1 then p.column + 1 else p.column⟩

theorem Position.of_joined (s t : List Char) (n : Nat) :
    Position.of (s ++ '\n' :: ';' :: t) (s.length + 2 + n) = (Position.of t n).behind s := by
  have split : (s ++ '\n' :: ';' :: t).take (s.length + 2 + n) = s ++ '\n' :: ';' :: t.take n := by
    rw [Nat.add_assoc, List.take_length_add_append, Nat.add_comm 2 n]
    rfl
  have first : (Position.after ⟨1, 1⟩ s).line = 1 + s.count '\n' := Position.after_line _ s
  have moved := Position.after_moved ⟨1, 1⟩ (s.count '\n' + 1) 1 (t.take n)
  have line : (Position.after ⟨1, 1⟩ (t.take n)).line = 1 + (t.take n).count '\n' := Position.after_line _ _
  unfold Position.of Position.behind
  rw [split, Position.after_append]
  simp only [Position.after, if_true, first, show ¬(';' = '\n') by decide, if_false]
  rw [← Nat.add_assoc] at moved
  rw [moved, line]
  by_cases feed : '\n' ∈ t.take n
  · have several := List.count_pos_iff.mpr feed
    rw [if_pos feed, if_neg (by omega)]
    rfl
  · rw [if_neg feed, List.count_eq_zero_of_not_mem feed]
    rfl

theorem foldl_max_le_iff {places : List Nat} {start k : Nat} :
    places.foldl max start ≤ k ↔ start ≤ k ∧ ∀ n ∈ places, n ≤ k := by
  induction places generalizing start with
  | nil => simp
  | cons n places ih => rw [List.foldl_cons, ih, max_le_iff, List.forall_mem_cons, and_assoc]

/-- What is tried before is of no account, if what comes after begins further on. -/
theorem foldl_max_moved {early places : List Nat} {m : Nat} (before : ∀ n ∈ early, n ≤ m) (some : places ≠ []) :
    (early ++ places.map (· + m)).foldl max 0 = m + places.foldl max 0 := by
  refine eq_of_forall_ge_iff fun k => ?_
  have bound : m + places.foldl max 0 ≤ k ↔ m ≤ k ∧ places.foldl max 0 ≤ k - m := by omega
  rw [bound, foldl_max_le_iff, foldl_max_le_iff, List.forall_mem_append, List.forall_mem_map,
    and_iff_right (Nat.zero_le _), and_iff_right (Nat.zero_le _)]
  constructor
  · rintro ⟨_, each⟩
    obtain ⟨n, member⟩ := List.exists_mem_of_ne_nil places some
    have := each n member
    refine ⟨by omega, fun n member => ?_⟩
    have := each n member
    omega
  · rintro ⟨low, each⟩
    refine ⟨fun n member => (before n member).trans low, fun n member => ?_⟩
    have := each n member
    omega

namespace Grammar

open Pattern

section Program

variable {c d e : Cursor} {o : Option Draft.Statement} {os : List (Option Draft.Statement)}

theorem separator_quiet (c : Cursor) (spent : c.rest = []) :
    vain (seq (fun _ d => d) gap (seq (fun _ d => d) (literal [';']) clause)) c = [] := by
  obtain ⟨rest, n⟩ := c
  cases spent
  rfl

theorem vain_clauses (c : Cursor) : vain clauses c =
    vain (seq (fun _ d => d) (literal [';']) clause) c.afterLayout ++
      (Pattern.ends (scanWhole body Rule.rank 10) (seq (fun _ d => d) (literal [';']) clause)
        c.afterLayout).elim [] (vain clauses) := by
  have rounds : vain (star (seq (fun _ d => d) gap (seq (fun _ d => d) (literal [';']) clause))) c = _ :=
    vain_star (fun found => eats_semicolon found) separator_quiet c
  rw [ends_gap, ← vain, vain_gap] at rounds
  exact rounds

theorem vain_clauses_semicolon {s : List Char} {n : Nat} (mark : c.afterLayout = ⟨';' :: s, n⟩)
    (first : scanned clause ⟨s, n + 1⟩ = some (o, d)) :
    vain clauses c = vain clause ⟨s, n + 1⟩ ++ vain clauses d := by
  have read : scanned (literal [';']) ⟨';' :: s, n⟩ = some ((), ⟨s, n + 1⟩) := rfl
  have item : scanned (seq (fun _ d => d) (literal [';']) clause) ⟨';' :: s, n⟩ = some (o, d) :=
    (scanned_behind read).trans first
  rw [vain_clauses, mark, ends_found item, vain_seq read]
  rfl

theorem vain_clauses_stop (stop : c.afterLayout.rest.head? ≠ some ';') : vain clauses c = [] := by
  have none : c.afterLayout.read? [';'] = .none := read?_differs stop
  have unread : Pattern.ends (scanWhole body Rule.rank 10) (literal [';']) c.afterLayout = .none := by
    simp only [Pattern.ends, Pattern.scan, none]
    rfl
  rw [vain_clauses, ends_seq, unread, vain, Pattern.vain, unread]
  rfl

theorem vain_clauses_afterLayout (c : Cursor) : vain clauses c.afterLayout = vain clauses c := by
  rcases semicolon_or_stop c with ⟨s, n, mark⟩ | stop
  · obtain ⟨o, d, first⟩ := clause_found ⟨s, n + 1⟩
    rw [vain_clauses_semicolon mark first, vain_clauses_semicolon (by rwa [Cursor.afterLayout_again]) first]
  · rw [vain_clauses_stop stop, vain_clauses_stop (by rwa [Cursor.afterLayout_again])]

theorem vain_endOfInput (c : Cursor) :
    vain (nested .endOfInput) c = if c.rest = [] then [] else [c.offset] := by
  obtain ⟨_ | ⟨x, rest⟩, n⟩ := c <;> rfl

/-- What is tried in vain in a program: what is in its statements, and the end if there is more. -/
theorem vain_program (first : scanned clause c = some (o, d)) (others : scanned clauses d = some (os, e)) :
    vain (body .program) c = vain clause c ++ (vain clauses d ++
      if e.afterLayout.rest = [] then [] else [e.afterLayout.offset]) := by
  obtain ⟨e', found, same⟩ := clauses_afterLayout others
  have items : scanned (many (before (literal [';']) (opt statement))) d.afterLayout = some (os, e') :=
    (scanned_many (Eats.of_eats rfl) (Cursor.afterLayout_again d)).trans found
  have tried : vain (many (before (literal [';']) (opt statement))) d.afterLayout = vain clauses d :=
    (vain_many (Eats.of_eats rfl) separator_quiet (Cursor.afterLayout_again d)).trans
      (vain_clauses_afterLayout d)
  have opening : scanned (opt statement) c.afterLayout.afterLayout = some (o, d) := by
    rwa [Cursor.afterLayout_again, ← scanned_clause]
  rw [body, before, spaced, vain_gap, vain_gap, vain_spaced opening, vain_spaced items, tried, same,
    vain_endOfInput, Cursor.afterLayout_again]
  rfl

theorem read_failed {text : List Char} {t : Trace Rule} (failed : read text = .failed t)
    (first : scanned clause (Cursor.ofText text) = some (o, d)) (others : scanned clauses d = some (os, e)) :
    t.furthest =
      (vain clause (Cursor.ofText text) ++ (vain clauses d ++ [e.afterLayout.offset])).foldl max 0 := by
  have outcome := read_outcome text
  rw [failed, scanned_program first others] at outcome
  have more : e.afterLayout.rest ≠ [] := fun spent => by
    rw [if_pos spent] at outcome
    cases outcome
  have enough : 10 * text.length + 9 < Rule.all.length * (text.length + 1) := by
    change 10 * text.length + 9 < 36 * (text.length + 1)
    omega
  rw [read, matchRule_enough rank_below body_ranked enough] at failed
  have furthest := failed_furthest rank_below body_ranked failed
  rw [← vain, vain_program first others, if_neg more] at furthest
  exact furthest.trans (Nat.max_zero _)

/-- Before the border nothing is tried behind it, and behind it the other text is read. -/
theorem Rounds.tried {t : List Char} {place : Nat} (rounds : Rounds t place c os) :
    ∃ early, (∀ n ∈ early, n ≤ place) ∧ ∀ {o d}, Grammar.scanned clause ⟨t, place + 1⟩ = some (o, d) →
      vain clauses c = early ++ (vain clause ⟨t, place + 1⟩ ++ vain clauses d) := by
  induction rounds with
  | border mark => exact ⟨[], nofun, fun second => vain_clauses_semicolon mark second⟩
  | @next c s n o d os mark fenced first _ ih =>
    obtain ⟨early, before, rest⟩ := ih
    refine ⟨vain clause ⟨s, n + 1⟩ ++ early,
      List.forall_mem_append.mpr ⟨(clause_stays t place fenced).1, before⟩, fun second => ?_⟩
    rw [vain_clauses_semicolon mark first, rest second, List.append_assoc]

end Program

/-- Behind a text that can be read and a border, another one is read as it would be alone, but for the
values, and if it cannot be, the furthest failure is as far into it. -/
theorem read_behind {s : List Char} {ds : List Draft.Statement} {c : Cursor}
    (accepted : (read s).outcome = some (ds, c)) (t : List Char) :
    (read (s ++ '\n' :: ';' :: t)).outcome.isSome = (read t).outcome.isSome ∧
      ∀ {r r' : Trace Rule}, read t = .failed r → read (s ++ '\n' :: ';' :: t) = .failed r' →
        r'.furthest = s.length + 2 + r.furthest := by
  obtain ⟨o, c₁, os, opening, rounds, _⟩ := joined_rounds (v := Vocabulary.usual) accepted t
  obtain ⟨p, d₁, first⟩ := clause_found (Cursor.ofText t)
  obtain ⟨ps, d₂, others⟩ := clauses_found d₁
  obtain ⟨p', first'⟩ := found_moved (s.length + 2) first
  obtain ⟨ps', others'⟩ := found_moved (s.length + 2) others
  have here : (Cursor.ofText t).moved (s.length + 2) = ⟨t, s.length + 1 + 1⟩ :=
    congrArg (Cursor.mk t) (Nat.zero_add _)
  have second := here ▸ first'
  have whole := rounds.scanned second others'
  have last : (d₂.moved (s.length + 2)).afterLayout = d₂.afterLayout.moved (s.length + 2) :=
    d₂.afterLayout_moved _
  constructor
  · rw [read_outcome, read_outcome, scanned_program opening whole, scanned_program first others, last]
    change Option.isSome (if d₂.afterLayout.rest = [] then _ else _) = _
    split <;> rfl
  · intro r r' alone behind
    obtain ⟨early, before, tried⟩ := rounds.tried
    have fenced := fenced_joined s t
    have inside := (clause_stays t _ fenced).1
    have low : ∀ n ∈ vain clause (Cursor.ofText (s ++ '\n' :: ';' :: t)) ++ early, n ≤ s.length + 2 := by
      intro n member
      have : n ≤ s.length + 1 := (List.mem_append.mp member).elim (inside n) (before n)
      omega
    have places : vain clause ⟨t, s.length + 1 + 1⟩ ++ vain clauses (d₁.moved (s.length + 2)) =
        (vain clause (Cursor.ofText t) ++ vain clauses d₁).map (· + (s.length + 2)) := by
      rw [List.map_append, ← vain_shifted, ← vain_shifted, here]
    rw [read_failed alone first others, read_failed behind opening whole, tried second, places, last]
    have some : vain clause (Cursor.ofText t) ++ (vain clauses d₁ ++ [d₂.afterLayout.offset]) ≠ [] := by
      simp
    rw [← foldl_max_moved low some]
    simp only [List.map_append, List.append_assoc]
    rfl

end Grammar

namespace Language

theorem accepts_eq (text : String) : accepts text = (Grammar.read text.toList).outcome.isSome := by
  unfold accepts draft
  cases Grammar.read text.toList <;> rfl

theorem parse_of_failed {l : Language} {text : String} {t : Trace Rule}
    (failed : Grammar.read text.toList = .failed t) :
    l.parse text = .error (.unreadable (.expected t.expected) (Position.of text.toList t.furthest)) := by
  have unread : draft text.toList =
      .error (.unreadable (.expected t.expected) (Position.of text.toList t.furthest)) := by
    unfold draft
    rw [failed]
  unfold parse
  rw [unread]
  rfl

theorem failed_of_accepts {text : String} (rejected : accepts text = false) :
    ∃ t, Grammar.read text.toList = .failed t := by
  unfold accepts draft at rejected
  revert rejected
  cases Grammar.read text.toList with
  | matched ds c t => exact nofun
  | failed t => exact fun _ => ⟨t, rfl⟩

/-- An error in a text that stands behind one that can be read, with a line between them that begins with
a semicolon, is the error of that text alone, as far on as it stands in the whole. -/
theorem failure_local {good : String} (accepted : accepts good = true) (bad : String) :
    accepts (good ++ "\n;" ++ bad) = accepts bad ∧
      (accepts bad = false → ∃ t t' : Trace Rule, Grammar.read bad.toList = .failed t ∧
        Grammar.read (good ++ "\n;" ++ bad).toList = .failed t' ∧
        t'.furthest = good.length + 2 + t.furthest ∧
        Position.of (good ++ "\n;" ++ bad).toList t'.furthest =
          (Position.of bad.toList t.furthest).behind good.toList ∧
        ∀ l : Language,
          l.parse bad = .error (.unreadable (.expected t.expected) (Position.of bad.toList t.furthest)) ∧
          l.parse (good ++ "\n;" ++ bad) = .error (.unreadable (.expected t'.expected)
            ((Position.of bad.toList t.furthest).behind good.toList))) := by
  rw [accepts_eq] at accepted
  obtain ⟨⟨ds, c⟩, whole⟩ := Option.isSome_iff_exists.mp accepted
  have joined : (good ++ "\n;" ++ bad).toList = good.toList ++ '\n' :: ';' :: bad.toList := by
    simp only [String.toList_append, List.append_assoc]
    rfl
  obtain ⟨found, further⟩ := Grammar.read_behind whole bad.toList
  have same : accepts (good ++ "\n;" ++ bad) = accepts bad := by
    rw [accepts_eq, accepts_eq, joined, found]
  refine ⟨same, fun rejected => ?_⟩
  obtain ⟨t, alone⟩ := failed_of_accepts rejected
  obtain ⟨t', behind⟩ := failed_of_accepts (same.trans rejected)
  have furthest := further alone (joined ▸ behind)
  have place : Position.of (good ++ "\n;" ++ bad).toList t'.furthest =
      (Position.of bad.toList t.furthest).behind good.toList := by
    rw [joined, furthest]
    exact Position.of_joined good.toList bad.toList t.furthest
  refine ⟨t, t', alone, behind, furthest, place, fun l => ⟨parse_of_failed alone, ?_⟩⟩
  rw [← place]
  exact parse_of_failed behind

/-- The second statement lacks its right side. -/
theorem failure_local_comment :
    accepts "!A :: T # an atom" = true ∧ accepts "A <=" = false ∧ ∃ t t' : Trace Rule,
      Grammar.read "A <=".toList = .failed t ∧
        Grammar.read "!A :: T # an atom\n;A <=".toList = .failed t' ∧ t.furthest = 4 ∧ t'.furthest = 23 := by
  have accepted : accepts "!A :: T # an atom" = true := by
    rw [accepts_eq]
    rfl
  have rejected : accepts "A <=" = false := by
    rw [accepts_eq]
    rfl
  obtain ⟨_, further⟩ := failure_local accepted "A <="
  obtain ⟨t, t', alone, behind, furthest, _⟩ := further rejected
  have known : Grammar.read "A <=".toList = .failed ⟨4, [.and]⟩ := by
    set_option maxRecDepth 4000 in rfl
  obtain rfl : t = ⟨4, [.and]⟩ := by
    rw [known] at alone
    exact (Reply.failed.inj alone).symm
  exact ⟨accepted, rejected, _, t', alone, behind, rfl, furthest⟩

end Language

end ConceptLogic
