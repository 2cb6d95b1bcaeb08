import ConceptLogic.Proofs.Grammar.PatternMatching

namespace ConceptLogic

/-- What a reply leaves to report, be it a match or not. -/
def Reply.trace {ρ α : Type} : Reply ρ α → Trace ρ
  | .matched _ _ t => t
  | .failed t => t

/-- A failure that is noted puts the trace forward to its place, or leaves it where it is if that is
further on. -/
theorem Trace.furthest_note {ρ : Type} (t : Trace ρ) (r : ρ) (place before : Nat) :
    (t.note r place before).furthest = max t.furthest place := by
  unfold note countAt
  by_cases here : t.furthest = place
  · simp only [if_pos here]
    split
    · omega
    · exact (Nat.max_eq_right (Nat.le_of_eq here)).symm
  · simp only [if_neg here]
    split
    · omega
    · split
      · exact (Nat.max_eq_right (Nat.le_of_lt ‹_›)).symm
      · exact (Nat.max_eq_left (Nat.le_of_not_lt ‹_›)).symm

/-- A cursor for the same text with so much more before it. -/
def Cursor.moved (m : Nat) (c : Cursor) : Cursor := ⟨c.rest, c.offset + m⟩

theorem skipLayout_moved (m : Nat) (commented : Bool) (s : List Char) (n : Nat) :
    skipLayout commented s (n + m) = (skipLayout commented s n).moved m := by
  induction s generalizing commented n with
  | nil => cases commented <;> rfl
  | cons x rest ih =>
    have next := fun commented => Nat.add_right_comm n m 1 ▸ ih commented (n + 1)
    cases commented with
    | true => exact next _
    | false =>
      unfold skipLayout
      split
      · exact next false
      · split
        · exact next true
        · rfl

theorem Cursor.afterLayout_moved (m : Nat) (c : Cursor) : (c.moved m).afterLayout = c.afterLayout.moved m :=
  skipLayout_moved ..

theorem Cursor.read?_moved (m : Nat) (word : List Char) (c : Cursor) :
    (c.moved m).read? word = (c.read? word).map (moved m) := by
  induction word generalizing c with
  | nil => rfl
  | cons x word ih =>
    obtain ⟨_ | ⟨y, rest⟩, n⟩ := c
    · rfl
    · unfold moved read?
      split
      · rw [Nat.add_right_comm]
        exact ih ⟨rest, n + 1⟩
      · rfl

namespace Pattern

variable {ρ : Type} {V : ρ → Type}

/-- Where a pattern leaves off, if it matches. -/
def ends (call : (r : ρ) → Cursor → Option (V r × Cursor)) {α : Type} (p : Pattern V α) (c : Cursor) :
    Option Cursor :=
  (p.scan call c).map Prod.snd

def vainRounds (ends : Cursor → Option Cursor) (vain : Cursor → List Nat) : List Char → Cursor → List Nat
  | [], _ => []
  | _ :: left, c => vain c ++ (ends c).elim [] (vainRounds ends vain left)

/-- The places at which rules are tried in vain while a pattern is matched, be it in the end with
success or not, given where the rules leave off and where others are tried in vain inside them. -/
def vain (call : (r : ρ) → Cursor → Option (V r × Cursor)) (within : ρ → Cursor → List Nat) :
    {α : Type} → Pattern V α → Cursor → List Nat
  | _, .seq _ first second, c =>
    first.vain call within c ++ (first.ends call c).elim [] (second.vain call within)
  | _, .choice first second, c =>
    first.vain call within c ++ (first.ends call c).elim (second.vain call within c) fun _ => []
  | _, .star item, c => vainRounds (item.ends call) (item.vain call within) c.rest c
  | _, .rule r, c => within r c
  | _, _, _ => []

section Ends

variable (call : (r : ρ) → Cursor → Option (V r × Cursor)) {α β γ : Type} (c : Cursor)

theorem ends_seq (combine : α → β → γ) (p : Pattern V α) (q : Pattern V β) :
    (seq combine p q).ends call c = (p.ends call c).bind (q.ends call) := by
  simp only [ends, scan]
  cases p.scan call c with
  | none => rfl
  | some found =>
    change ((q.scan call found.2).map _).map _ = _
    rw [Option.map_map]
    rfl

theorem ends_choice (p q : Pattern V α) :
    (choice p q).ends call c = (p.ends call c).or (q.ends call c) := by
  simp only [ends, scan]
  cases p.scan call c <;> rfl

end Ends

/-- A repetition whose items take characters tries what one item tries and then what the rest does.
Where the text is at its end nothing may be tried, as no round is left there. -/
theorem vainRounds_stable {ends : Cursor → Option Cursor} {vain : Cursor → List Nat}
    (further : ∀ {c c'}, ends c = some c' → c'.rest.length < c.rest.length)
    (quiet : ∀ c : Cursor, c.rest = [] → vain c = []) {left left' : List Char} {c : Cursor}
    (enough : c.rest.length ≤ left.length) (enough' : c.rest.length ≤ left'.length) :
    vainRounds ends vain left c = vainRounds ends vain left' c := by
  have spent : ∀ {c : Cursor} (left : List Char), c.rest.length ≤ 0 → vainRounds ends vain left c = [] := by
    intro c left none
    have stuck : ends c = .none := Option.eq_none_iff_forall_ne_some.mpr fun c' found =>
      Nat.not_lt_zero _ (Nat.lt_of_lt_of_le (further found) none)
    cases left with
    | nil => rfl
    | cons x left => simp [vainRounds, stuck, quiet c (List.eq_nil_of_length_eq_zero (Nat.le_zero.mp none))]
  induction left generalizing left' c with
  | nil => rw [spent [] enough, spent left' enough]
  | cons x left ih =>
    cases left' with
    | nil => rw [spent [] enough', spent (x :: left) enough']
    | cons y left' =>
      unfold vainRounds
      cases found : ends c with
      | none => rfl
      | some c' =>
        have shorter := further found
        simp only [List.length_cons] at enough enough'
        exact congrArg _ (ih (by omega) (by omega))

theorem vain_star {call : (r : ρ) → Cursor → Option (V r × Cursor)} {within : ρ → Cursor → List Nat} {α : Type}
    {item : Pattern V α}
    (further : ∀ {c a c'}, item.scan call c = some (a, c') → c'.rest.length < c.rest.length)
    (quiet : ∀ c : Cursor, c.rest = [] → item.vain call within c = []) (c : Cursor) :
    (star item).vain call within c =
      item.vain call within c ++ (item.ends call c).elim [] ((star item).vain call within) := by
  have shorter : ∀ {c c'}, item.ends call c = some c' → c'.rest.length < c.rest.length := by
    intro c c' found
    obtain ⟨next, scanned, rfl⟩ := Option.map_eq_some_iff.mp found
    exact further scanned
  change vainRounds (item.ends call) (item.vain call within) c.rest c = _ ++ (item.ends call c).elim []
    fun c => vainRounds (item.ends call) (item.vain call within) c.rest c
  cases rest : c.rest with
  | nil =>
    have stuck : item.ends call c = none := Option.eq_none_iff_forall_ne_some.mpr fun c' found =>
      Nat.not_lt_zero _ (Nat.lt_of_lt_of_eq (shorter found) (congrArg List.length rest))
    rw [stuck, quiet c rest]
    rfl
  | cons x left =>
    change _ ++ (item.ends call c).elim [] (vainRounds (item.ends call) (item.vain call within) left) = _
    cases found : item.ends call c with
    | none => rfl
    | some c' =>
      have less := shorter found
      rw [rest] at less
      exact congrArg _ (vainRounds_stable shorter quiet (Nat.le_of_lt_succ less) (Nat.le_refl _))

section Furthest

variable {call : (r : ρ) → Cursor → Trace ρ → Reply ρ (V r)}
  {scanned : (r : ρ) → Cursor → Option (V r × Cursor)} {within : ρ → Cursor → List Nat}

theorem rounds_furthest {α : Type} {item : Cursor → Trace ρ → Reply ρ α} {ends : Cursor → Option Cursor}
    {vain : Cursor → List Nat} (same : ∀ c t, (item c t).outcome.map Prod.snd = ends c)
    (furthest : ∀ c t, (item c t).trace.furthest = (vain c).foldl max t.furthest) (left : List Char)
    (c : Cursor) (t : Trace ρ) :
    (rounds item left c t).2.2.furthest = (vainRounds ends vain left c).foldl max t.furthest := by
  induction left generalizing c t with
  | nil => rfl
  | cons x left ih =>
    have here := furthest c t
    have next := same c t
    unfold rounds vainRounds
    rw [List.foldl_append, ← here, ← next]
    cases item c t with
    | failed t' => rfl
    | matched a c' t' => exact ih c' t'

/-- The trace ends at the furthest place at which a rule was tried in vain. -/
theorem run_furthest (same : ∀ r c t, (call r c t).outcome = scanned r c)
    (furthest : ∀ r c t, (call r c t).trace.furthest = (within r c).foldl max t.furthest) {α : Type}
    (p : Pattern V α) (c : Cursor) (t : Trace ρ) :
    (p.run call c t).trace.furthest = (p.vain scanned within c).foldl max t.furthest := by
  induction p generalizing c t with
  | pure | gap | here => rfl
  | char accepts =>
    obtain ⟨_ | ⟨x, rest⟩, n⟩ := c
    · rfl
    · simp only [run]
      split <;> rfl
  | literal word =>
    simp only [run]
    cases c.read? word <;> rfl
  | notNext refuses =>
    obtain ⟨_ | ⟨x, rest⟩, n⟩ := c
    · rfl
    · simp only [run]
      split <;> rfl
  | atEnd =>
    simp only [run]
    split <;> rfl
  | seq combine first second ihFirst ihSecond =>
    have atFirst := ihFirst c t
    have outcome := run_outcome same first c t
    simp only [run, vain, ends, List.foldl_append, ← atFirst, ← outcome]
    cases first.run call c t with
    | failed t' => rfl
    | matched a c' t' =>
      have atSecond := ihSecond c' t'
      revert atSecond
      simp only
      cases second.run call c' t' <;> exact id
  | choice first second ihFirst ihSecond =>
    have atFirst := ihFirst c t
    have outcome := run_outcome same first c t
    simp only [run, vain, ends, List.foldl_append, ← atFirst, ← outcome]
    cases first.run call c t with
    | failed t' => exact ihSecond c t'
    | matched a c' t' => rfl
  | star item ih =>
    exact rounds_furthest (fun c t => congrArg _ (run_outcome same item c t)) ih c.rest c t
  | rule r => exact furthest r c t

end Furthest

section Moved

variable {call : (r : ρ) → Cursor → Option (V r × Cursor)} {within : ρ → Cursor → List Nat} {m : Nat}

theorem repeated_moved {α : Type} {item : Cursor → Option (α × Cursor)}
    (same : ∀ c : Cursor, (item (c.moved m)).map Prod.snd = ((item c).map Prod.snd).map (Cursor.moved m))
    (left : List Char) (c : Cursor) :
    (repeated item left (c.moved m)).2 = (repeated item left c).2.moved m := by
  induction left generalizing c with
  | nil => rfl
  | cons x left ih =>
    have next := same c
    unfold repeated
    revert next
    cases item c with
    | none =>
      intro next
      rw [Option.map_eq_none_iff.mp next]
    | some found =>
      intro next
      obtain ⟨found', here, moved⟩ := Option.map_eq_some_iff.mp next
      rw [here]
      obtain ⟨a, c'⟩ := found'
      cases moved
      exact ih found.2

/-- What stands before a text has no say in where a pattern leaves off. -/
theorem ends_moved
    (same : ∀ r c, (call r (c.moved m)).map Prod.snd = ((call r c).map Prod.snd).map (Cursor.moved m))
    {α : Type} (p : Pattern V α) (c : Cursor) :
    p.ends call (c.moved m) = (p.ends call c).map (Cursor.moved m) := by
  induction p generalizing c with
  | pure | here => rfl
  | gap => exact congrArg some (c.afterLayout_moved m)
  | char accepts =>
    obtain ⟨_ | ⟨x, rest⟩, n⟩ := c
    · rfl
    · simp only [ends, scan, Cursor.moved]
      split
      · exact congrArg (fun k => some (Cursor.mk rest k)) (Nat.add_right_comm n m 1)
      · rfl
  | literal word =>
    simp only [ends, scan, Cursor.read?_moved]
    cases c.read? word <;> rfl
  | notNext refuses =>
    obtain ⟨_ | ⟨x, rest⟩, n⟩ := c
    · rfl
    · simp only [ends, scan, Cursor.moved]
      split <;> rfl
  | atEnd =>
    obtain ⟨_ | ⟨x, rest⟩, n⟩ := c <;> rfl
  | seq combine first second ihFirst ihSecond =>
    rw [ends_seq, ends_seq, ihFirst]
    cases first.ends call c with
    | none => rfl
    | some c' => exact ihSecond c'
  | choice first second ihFirst ihSecond =>
    rw [ends_choice, ends_choice, ihFirst, ihSecond]
    cases first.ends call c <;> rfl
  | star item ih => exact congrArg some (repeated_moved ih c.rest c)
  | rule r => exact same r c

theorem vainRounds_moved {ends : Cursor → Option Cursor} {vain : Cursor → List Nat}
    (same : ∀ c, ends (c.moved m) = (ends c).map (Cursor.moved m))
    (places : ∀ c, vain (c.moved m) = (vain c).map (· + m)) (left : List Char) (c : Cursor) :
    vainRounds ends vain left (c.moved m) = (vainRounds ends vain left c).map (· + m) := by
  induction left generalizing c with
  | nil => rfl
  | cons x left ih =>
    unfold vainRounds
    rw [same, places, List.map_append]
    cases ends c with
    | none => rfl
    | some c' => exact congrArg _ (ih c')

/-- What stands before a text moves the places at which rules are tried in vain, and nothing else. -/
theorem vain_moved
    (same : ∀ r c, (call r (c.moved m)).map Prod.snd = ((call r c).map Prod.snd).map (Cursor.moved m))
    (places : ∀ r c, within r (c.moved m) = (within r c).map (· + m))
    {α : Type} (p : Pattern V α) (c : Cursor) :
    p.vain call within (c.moved m) = (p.vain call within c).map (· + m) := by
  induction p generalizing c with
  | pure | gap | here | char | literal | notNext | atEnd => rfl
  | seq combine first second ihFirst ihSecond =>
    simp only [vain, ends_moved same, ihFirst, List.map_append]
    cases first.ends call c with
    | none => rfl
    | some c' => exact congrArg _ (ihSecond c')
  | choice first second ihFirst ihSecond =>
    simp only [vain, ends_moved same, ihFirst, List.map_append]
    cases first.ends call c with
    | none => exact congrArg _ (ihSecond c)
    | some c' => rfl
  | star item ih => exact vainRounds_moved (ends_moved same item) ih c.rest c
  | rule r => exact places r c

end Moved

end Pattern

open Pattern

section Rules

variable {ρ : Type} {V : ρ → Type} {body : (r : ρ) → Pattern V (V r)}

/-- The places at which rules are tried in vain on behalf of a rule, with its own at the end if it
fails itself. -/
def vainRule (body : (r : ρ) → Pattern V (V r)) : Nat → ρ → Cursor → List Nat
  | 0, _, _ => []
  | fuel + 1, r, c =>
    (body r).vain (scanRule body fuel) (vainRule body fuel) c ++
      ((body r).ends (scanRule body fuel) c).elim [c.offset] fun _ => []

theorem matchRule_furthest (fuel : Nat) (r : ρ) (c : Cursor) (t : Trace ρ) :
    (matchRule body fuel r c t).trace.furthest = (vainRule body fuel r c).foldl max t.furthest := by
  induction fuel generalizing r c t with
  | zero => rfl
  | succ fuel ih =>
    have inside := run_furthest (matchRule_outcome fuel) ih (body r) c t
    have outcome : ((body r).run (matchRule body fuel) c t).outcome = _ :=
      run_outcome (matchRule_outcome fuel) (body r) c t
    unfold matchRule vainRule
    rw [List.foldl_append, ← inside, ends, ← outcome]
    cases (body r).run (matchRule body fuel) c t with
    | matched value rest t' => rfl
    | failed after => exact after.furthest_note r c.offset _

theorem scanRule_moved (m fuel : Nat) (r : ρ) (c : Cursor) :
    (scanRule body fuel r (c.moved m)).map Prod.snd =
      ((scanRule body fuel r c).map Prod.snd).map (Cursor.moved m) := by
  induction fuel generalizing r c with
  | zero => rfl
  | succ fuel ih => exact ends_moved ih (body r) c

theorem vainRule_moved (m fuel : Nat) (r : ρ) (c : Cursor) :
    vainRule body fuel r (c.moved m) = (vainRule body fuel r c).map (· + m) := by
  induction fuel generalizing r c with
  | zero => rfl
  | succ fuel ih =>
    unfold vainRule
    rw [vain_moved (scanRule_moved m fuel) ih, ends_moved (scanRule_moved m fuel), List.map_append]
    cases (body r).ends (scanRule body fuel) c <;> rfl

/-- The places at which rules are tried in vain on behalf of a rule, with fuel as a whole match has it. -/
def vainWhole (body : (r : ρ) → Pattern V (V r)) (rank : ρ → Nat) (height : Nat) (r : ρ) (c : Cursor) :
    List Nat :=
  vainRule body (height * c.rest.length + rank r + 1) r c

theorem matchWhole_furthest (rank : ρ → Nat) (height : Nat) (r : ρ) (c : Cursor) (t : Trace ρ) :
    (matchWhole body rank height r c t).trace.furthest =
      (vainWhole body rank height r c).foldl max t.furthest :=
  matchRule_furthest _ r c t

theorem scanWhole_moved (rank : ρ → Nat) (height m : Nat) (r : ρ) (c : Cursor) :
    (scanWhole body rank height r (c.moved m)).map Prod.snd =
      ((scanWhole body rank height r c).map Prod.snd).map (Cursor.moved m) :=
  scanRule_moved m _ r c

theorem vainWhole_moved (rank : ρ → Nat) (height m : Nat) (r : ρ) (c : Cursor) :
    vainWhole body rank height r (c.moved m) = (vainWhole body rank height r c).map (· + m) :=
  vainRule_moved m _ r c

/-- A rule that fails reports the furthest of the places at which rules were tried in vain inside it,
or its own if that is further. -/
theorem failed_furthest {rank : ρ → Nat} {height : Nat} (below : ∀ r, rank r < height)
    (ranked : ∀ r, (body r).leads (fun s => rank s < rank r) = true) {r : ρ} {c : Cursor} {t t' : Trace ρ}
    (failed : matchWhole body rank height r c t = .failed t') :
    t'.furthest = max (((body r).vain (scanWhole body rank height) (vainWhole body rank height) c).foldl max
      t.furthest) c.offset := by
  have whole : (body r).run (matchRule body (height * c.rest.length + rank r)) c t =
      (body r).run (matchWhole body rank height) c t :=
    body_congr below ranked fun s c' t lower => matchRule_enough below ranked lower
  have inside : ((body r).run (matchWhole body rank height) c t).trace.furthest = _ :=
    run_furthest (matchWhole_outcome rank height) (matchWhole_furthest rank height) (body r) c t
  unfold matchWhole matchRule at failed
  rw [whole] at failed
  revert failed inside
  cases (body r).run (matchWhole body rank height) c t with
  | matched value rest after =>
    intro _ failed
    cases failed
  | failed after =>
    rintro inside ⟨⟩
    rw [← inside]
    exact after.furthest_note r c.offset _

end Rules

end ConceptLogic
