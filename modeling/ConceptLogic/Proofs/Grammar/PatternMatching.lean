import ConceptLogic.Pattern

namespace ConceptLogic

theorem skipLayout_length (commented : Bool) (text : List Char) (n : Nat) :
    (skipLayout commented text n).rest.length ≤ text.length := by
  induction text generalizing commented n with
  | nil => cases commented <;> exact Nat.le_refl _
  | cons x rest ih =>
    have further := fun commented => Nat.le_succ_of_le (ih commented (n + 1))
    cases commented with
    | true => exact further _
    | false =>
      unfold skipLayout
      split
      · exact further false
      · split
        · exact further true
        · exact Nat.le_refl _

/-- A word that is read begins with what comes next, and its rest is read behind that. -/
theorem Cursor.read?_cons {x : Char} {word : List Char} {c c' : Cursor} (read : c.read? (x :: word) = some c') :
    ∃ rest n, c = ⟨x :: rest, n⟩ ∧ Cursor.read? word ⟨rest, n + 1⟩ = some c' := by
  obtain ⟨_ | ⟨y, rest⟩, n⟩ := c
  · cases read
  · unfold Cursor.read? at read
    split at read
    · rename_i same
      subst same
      exact ⟨rest, n, rfl, read⟩
    · cases read

theorem Cursor.read?_length {word : List Char} {c c' : Cursor} (read : c.read? word = some c') :
    c'.rest.length + word.length = c.rest.length := by
  induction word generalizing c with
  | nil =>
    cases read
    rfl
  | cons x word ih =>
    obtain ⟨rest, n, rfl, behind⟩ := Cursor.read?_cons read
    have shorter := ih behind
    simp only [List.length_cons] at shorter ⊢
    omega

/-- What a reply says if its trace is left aside. -/
def Reply.outcome {ρ α : Type} : Reply ρ α → Option (α × Cursor)
  | .matched a c _ => some (a, c)
  | .failed _ => none

namespace Pattern

variable {ρ : Type} {V : ρ → Type}

/-- Scans items until one fails, for at most as many rounds as the first list has members. -/
def repeated {α : Type} (item : Cursor → Option (α × Cursor)) : List Char → Cursor → List α × Cursor
  | [], c => ([], c)
  | _ :: left, c =>
    match item c with
    | none => ([], c)
    | some (a, c) =>
      let (as, c) := repeated item left c
      (a :: as, c)

/-- Matching without a trace, given how the rules are scanned. -/
def scan (call : (r : ρ) → Cursor → Option (V r × Cursor)) :
    {α : Type} → Pattern V α → Cursor → Option (α × Cursor)
  | _, .pure value, c => some (value, c)
  | _, .char accepts, c =>
    match c with
    | ⟨[], _⟩ => none
    | ⟨x :: rest, n⟩ => if accepts x then some (x, ⟨rest, n + 1⟩) else none
  | _, .literal word, c => (c.read? word).map fun c => ((), c)
  | _, .notNext refuses, c =>
    match c with
    | ⟨[], _⟩ => some ((), c)
    | ⟨x :: _, _⟩ => if refuses x then none else some ((), c)
  | _, .gap, c => some ((), c.afterLayout)
  | _, .atEnd, c => if c.rest.isEmpty then some ((), c) else none
  | _, .here, c => some (c.offset, c)
  | _, .seq combine first second, c =>
    (first.scan call c).bind fun (a, c) => (second.scan call c).map fun (b, c) => (combine a b, c)
  | _, .choice first second, c => (first.scan call c).or (second.scan call c)
  | _, .star item, c => some (repeated (item.scan call) c.rest c)
  | _, .rule r, c => call r c

theorem rounds_outcome {α : Type} {item : Cursor → Trace ρ → Reply ρ α}
    {scanned : Cursor → Option (α × Cursor)} (same : ∀ c t, (item c t).outcome = scanned c)
    (left : List Char) (c : Cursor) (t : Trace ρ) :
    ∃ t', rounds item left c t = ((repeated scanned left c).1, (repeated scanned left c).2, t') := by
  induction left generalizing c t with
  | nil => exact ⟨t, rfl⟩
  | cons x left ih =>
    have first := same c t
    unfold rounds repeated
    cases reply : item c t with
    | failed t' =>
      rw [reply] at first
      rw [← first]
      exact ⟨t', rfl⟩
    | matched a c' t' =>
      rw [reply] at first
      rw [← first]
      obtain ⟨t'', rest⟩ := ih c' t'
      exact ⟨t'', by simp only [rest, Reply.outcome]⟩

/-- The trace is only reported: it has no say in what is matched. -/
theorem run_outcome {call : (r : ρ) → Cursor → Trace ρ → Reply ρ (V r)}
    {scanned : (r : ρ) → Cursor → Option (V r × Cursor)}
    (same : ∀ r c t, (call r c t).outcome = scanned r c) {α : Type} (p : Pattern V α) (c : Cursor)
    (t : Trace ρ) : (p.run call c t).outcome = p.scan scanned c := by
  induction p generalizing c t with
  | pure | gap | here => rfl
  | char accepts =>
    obtain ⟨_ | ⟨x, rest⟩, n⟩ := c
    · rfl
    · simp only [run, scan]
      split <;> rfl
  | literal word =>
    simp only [run, scan]
    cases c.read? word <;> rfl
  | notNext refuses =>
    obtain ⟨_ | ⟨x, rest⟩, n⟩ := c
    · rfl
    · simp only [run, scan]
      split <;> rfl
  | atEnd =>
    simp only [run, scan]
    split <;> rfl
  | seq combine first second ihFirst ihSecond =>
    have atFirst := ihFirst c t
    simp only [run, scan, ← atFirst]
    cases first.run call c t with
    | failed t' => rfl
    | matched a c' t' =>
      have atSecond := ihSecond c' t'
      simp only [Reply.outcome, Option.bind_some, ← atSecond]
      cases second.run call c' t' <;> rfl
  | choice first second ihFirst ihSecond =>
    have atFirst := ihFirst c t
    simp only [run, scan, ← atFirst]
    cases first.run call c t with
    | failed t' => exact ihSecond c t'
    | matched a c' t' => rfl
  | star item ih =>
    obtain ⟨t', rest⟩ := rounds_outcome ih c.rest c t
    simp only [run, scan, rest]
    rfl
  | rule r => exact same r c t

/-- Whether a pattern takes a character whenever it matches. -/
def eats : {α : Type} → Pattern V α → Bool
  | _, .char _ => true
  | _, .literal word => !word.isEmpty
  | _, .seq _ first second => first.eats || second.eats
  | _, .choice first second => first.eats && second.eats
  | _, _ => false

/-- Whether all rules that a pattern may try before it has taken a character are small. -/
def leads (small : ρ → Bool) : {α : Type} → Pattern V α → Bool
  | _, .seq _ first second => first.leads small && (first.eats || second.leads small)
  | _, .choice first second => first.leads small && second.leads small
  | _, .star item => item.leads small
  | _, .rule r => small r
  | _, _ => true

/-- Whether rules never go back behind the place where they begin. -/
def Forward (call : (r : ρ) → Cursor → Option (V r × Cursor)) : Prop :=
  ∀ ⦃r c a c'⦄, call r c = some (a, c') → c'.rest.length ≤ c.rest.length

theorem repeated_forward {α : Type} {item : Cursor → Option (α × Cursor)}
    (further : ∀ {c a c'}, item c = some (a, c') → c'.rest.length ≤ c.rest.length) (left : List Char)
    (c : Cursor) : (repeated item left c).2.rest.length ≤ c.rest.length := by
  induction left generalizing c with
  | nil => exact Nat.le_refl _
  | cons x left ih =>
    unfold repeated
    cases found : item c with
    | none => exact Nat.le_refl _
    | some next => exact Nat.le_trans (ih next.2) (further found)

theorem scan_forward {call : (r : ρ) → Cursor → Option (V r × Cursor)} (forward : Forward call)
    {α : Type} {p : Pattern V α} {c c' : Cursor} {a : α} (scanned : p.scan call c = some (a, c')) :
    c'.rest.length ≤ c.rest.length ∧ (p.eats = true → c'.rest.length < c.rest.length) := by
  induction p generalizing c c' with
  | pure value =>
    cases scanned
    exact ⟨Nat.le_refl _, nofun⟩
  | char accepts =>
    obtain ⟨_ | ⟨x, rest⟩, n⟩ := c
    · cases scanned
    · simp only [scan, Option.ite_none_right_eq_some] at scanned
      cases scanned.2
      exact ⟨Nat.le_succ _, fun _ => Nat.lt_succ_self _⟩
  | literal word =>
    obtain ⟨c', read, same⟩ := Option.map_eq_some_iff.mp scanned
    cases same
    have length := Cursor.read?_length read
    refine ⟨by omega, fun nonempty => ?_⟩
    cases word with
    | nil => cases nonempty
    | cons x word =>
      simp only [List.length_cons] at length
      omega
  | notNext refuses =>
    obtain ⟨_ | ⟨x, rest⟩, n⟩ := c
    · cases scanned
      exact ⟨Nat.le_refl _, nofun⟩
    · simp only [scan, Option.ite_none_left_eq_some] at scanned
      cases scanned.2
      exact ⟨Nat.le_refl _, nofun⟩
  | gap =>
    cases scanned
    exact ⟨skipLayout_length .., nofun⟩
  | atEnd =>
    simp only [scan, Option.ite_none_right_eq_some] at scanned
    cases scanned.2
    exact ⟨Nat.le_refl _, nofun⟩
  | here =>
    cases scanned
    exact ⟨Nat.le_refl _, nofun⟩
  | seq combine first second ihFirst ihSecond =>
    obtain ⟨next, atFirst, scanned⟩ := Option.bind_eq_some_iff.mp scanned
    obtain ⟨last, atSecond, same⟩ := Option.map_eq_some_iff.mp scanned
    cases same
    have before := ihFirst atFirst
    have after := ihSecond atSecond
    refine ⟨Nat.le_trans after.1 before.1, fun eating => ?_⟩
    rcases Bool.or_eq_true_iff.mp eating with eating | eating
    · exact Nat.lt_of_le_of_lt after.1 (before.2 eating)
    · exact Nat.lt_of_lt_of_le (after.2 eating) before.1
  | choice first second ihFirst ihSecond =>
    rcases Option.or_eq_some_iff.mp scanned with found | ⟨_, found⟩
    · have further := ihFirst found
      exact ⟨further.1, fun eating => further.2 (Bool.and_eq_true_iff.mp eating).1⟩
    · have further := ihSecond found
      exact ⟨further.1, fun eating => further.2 (Bool.and_eq_true_iff.mp eating).2⟩
  | star item ih =>
    have further := repeated_forward (fun found => (ih found).1) c.rest c
    rw [Option.some.inj scanned] at further
    exact ⟨further, nofun⟩
  | rule r => exact ⟨forward scanned, nofun⟩

theorem repeated_stable {α : Type} {item : Cursor → Option (α × Cursor)}
    (further : ∀ {c a c'}, item c = some (a, c') → c'.rest.length < c.rest.length)
    {left left' : List Char} {c : Cursor} (enough : c.rest.length ≤ left.length)
    (enough' : c.rest.length ≤ left'.length) : repeated item left c = repeated item left' c := by
  have atEnd : ∀ {c : Cursor}, c.rest.length ≤ 0 → item c = none := fun spent =>
    Option.eq_none_iff_forall_ne_some.mpr fun next found =>
      Nat.not_lt_zero _ (Nat.lt_of_lt_of_le (further found) spent)
  induction left generalizing left' c with
  | nil =>
    cases left' with
    | nil => rfl
    | cons y left' =>
      unfold repeated
      rw [atEnd enough]
  | cons x left ih =>
    cases left' with
    | nil =>
      unfold repeated
      rw [atEnd enough']
    | cons y left' =>
      unfold repeated
      cases found : item c with
      | none => rfl
      | some next =>
        have shorter := further found
        simp only [List.length_cons] at enough enough'
        have same : repeated item left next.2 = repeated item left' next.2 := ih (by omega) (by omega)
        simp only [same]

/-- A repetition whose items take characters: one item and the rest, or nothing. -/
theorem scan_star {call : (r : ρ) → Cursor → Option (V r × Cursor)} {α : Type} {item : Pattern V α}
    (further : ∀ {c a c'}, item.scan call c = some (a, c') → c'.rest.length < c.rest.length)
    (c : Cursor) :
    (star item).scan call c =
      match item.scan call c with
      | none => some ([], c)
      | some (a, c') => ((star item).scan call c').map fun (as, c'') => (a :: as, c'') := by
  simp only [scan]
  cases found : item.scan call c with
  | none =>
    cases c.rest with
    | nil => rfl
    | cons x rest => simp only [repeated, found]
  | some next =>
    have shorter := further found
    obtain ⟨_ | ⟨x, rest⟩, n⟩ := c
    · exact absurd shorter (Nat.not_lt_zero _)
    · simp only [repeated, found, Option.map_some,
        repeated_stable further (Nat.le_of_lt_succ shorter) (Nat.le_refl _)]

section Congruence

variable {call call' : (r : ρ) → Cursor → Trace ρ → Reply ρ (V r)}
  {scanned : (r : ρ) → Cursor → Option (V r × Cursor)}
  (outcomes : ∀ r c t, (call r c t).outcome = scanned r c) (forward : Forward scanned)
include outcomes forward

theorem run_forward {α : Type} {p : Pattern V α} {c c' : Cursor} {t t' : Trace ρ} {a : α}
    (matched : p.run call c t = .matched a c' t') :
    c'.rest.length ≤ c.rest.length ∧ (p.eats = true → c'.rest.length < c.rest.length) := by
  have outcome := run_outcome outcomes p c t
  rw [matched] at outcome
  exact scan_forward forward outcome.symm

omit outcomes forward in
theorem rounds_congr {α : Type} {item item' : Cursor → Trace ρ → Reply ρ α} {Near : Cursor → Prop}
    (same : ∀ c t, Near c → item c t = item' c t)
    (near : ∀ {c t a c' t'}, Near c → item c t = .matched a c' t' → Near c')
    (left : List Char) (c : Cursor) (t : Trace ρ) (here : Near c) :
    rounds item left c t = rounds item' left c t := by
  induction left generalizing c t with
  | nil => rfl
  | cons x left ih =>
    unfold rounds
    rw [← same c t here]
    cases reply : item c t with
    | failed t' => rfl
    | matched a c' t' => simp only [ih c' t' (near here reply)]

/-- To match a pattern, it is enough to know how the small rules are matched here and how all
rules are matched further on. -/
theorem run_congr {bound : Nat} {small : ρ → Bool}
    (same : ∀ r c t, c.rest.length < bound ∨ c.rest.length ≤ bound ∧ small r = true →
      call r c t = call' r c t)
    {α : Type} (p : Pattern V α) (c : Cursor) (t : Trace ρ)
    (near : c.rest.length < bound ∨ c.rest.length ≤ bound ∧ p.leads small = true) :
    p.run call c t = p.run call' c t := by
  induction p generalizing c t with
  | pure | char | literal | notNext | gap | atEnd | here => rfl
  | seq combine first second ihFirst ihSecond =>
    have nearFirst : c.rest.length < bound ∨ c.rest.length ≤ bound ∧ first.leads small = true :=
      near.imp_right (And.imp_right fun leads => (Bool.and_eq_true_iff.mp leads).1)
    simp only [run, ← ihFirst c t nearFirst]
    cases reply : first.run call c t with
    | failed t' => rfl
    | matched a c' t' =>
      have further := run_forward outcomes forward reply
      have nearSecond : c'.rest.length < bound ∨ c'.rest.length ≤ bound ∧ second.leads small = true := by
        rcases near with below | ⟨within, leads⟩
        · exact Or.inl (Nat.lt_of_le_of_lt further.1 below)
        · rcases Bool.or_eq_true_iff.mp (Bool.and_eq_true_iff.mp leads).2 with eating | leads
          · exact Or.inl (Nat.lt_of_lt_of_le (further.2 eating) within)
          · exact Or.inr ⟨Nat.le_trans further.1 within, leads⟩
      simp only [ihSecond c' t' nearSecond]
  | choice first second ihFirst ihSecond =>
    have nearFirst := near.imp_right (And.imp_right fun leads => (Bool.and_eq_true_iff.mp leads).1)
    have nearSecond := near.imp_right (And.imp_right fun leads => (Bool.and_eq_true_iff.mp leads).2)
    simp only [run, ← ihFirst c t nearFirst]
    cases first.run call c t with
    | failed t' => exact ihSecond c t' nearSecond
    | matched a c' t' => rfl
  | star item ih =>
    have same : rounds (item.run call) c.rest c t = rounds (item.run call') c.rest c t := by
      refine rounds_congr ih (fun here reply => ?_) c.rest c t near
      have further := (run_forward outcomes forward reply).1
      exact here.imp (Nat.lt_of_le_of_lt further) (And.imp_left (Nat.le_trans further))
    simp only [run, same]
  | rule r => exact same r c t near

end Congruence

end Pattern

open Pattern

section Rules

variable {ρ : Type} {V : ρ → Type} {body : (r : ρ) → Pattern V (V r)}

/-- Scans a rule by its pattern, with rules inside rules at most `fuel` deep. -/
def scanRule (body : (r : ρ) → Pattern V (V r)) : Nat → (r : ρ) → Cursor → Option (V r × Cursor)
  | 0, _, _ => none
  | fuel + 1, r, c => (body r).scan (scanRule body fuel) c

theorem matchRule_outcome (fuel : Nat) (r : ρ) (c : Cursor) (t : Trace ρ) :
    (matchRule body fuel r c t).outcome = scanRule body fuel r c := by
  induction fuel generalizing r c t with
  | zero => rfl
  | succ fuel ih =>
    have same := run_outcome ih (body r) c t
    unfold matchRule scanRule
    revert same
    cases (body r).run (matchRule body fuel) c t <;> exact id

theorem scanRule_forward (fuel : Nat) : Forward (scanRule body fuel) := by
  induction fuel with
  | zero =>
    intro r c a c' scanned
    cases scanned
  | succ fuel ih =>
    intro r c a c' scanned
    exact (scan_forward ih scanned).1

/-- A rule by its pattern, with fuel for as many rules inside one another as can stand at each
place that is still ahead. -/
def matchWhole (body : (r : ρ) → Pattern V (V r)) (rank : ρ → Nat) (height : Nat) (r : ρ) (c : Cursor)
    (t : Trace ρ) : Reply ρ (V r) :=
  matchRule body (height * c.rest.length + rank r + 1) r c t

def scanWhole (body : (r : ρ) → Pattern V (V r)) (rank : ρ → Nat) (height : Nat) (r : ρ) (c : Cursor) :
    Option (V r × Cursor) :=
  scanRule body (height * c.rest.length + rank r + 1) r c

theorem matchWhole_outcome (rank : ρ → Nat) (height : Nat) (r : ρ) (c : Cursor) (t : Trace ρ) :
    (matchWhole body rank height r c t).outcome = scanWhole body rank height r c :=
  matchRule_outcome _ r c t

theorem scanWhole_forward (rank : ρ → Nat) (height : Nat) : Forward (scanWhole body rank height) :=
  fun _ _ _ _ scanned => scanRule_forward _ scanned

variable {rank : ρ → Nat} {height : Nat} (below : ∀ r, rank r < height)
  (ranked : ∀ r, (body r).leads (fun s => rank s < rank r) = true)
include below ranked

/-- The pattern of a rule asks for rules only where less is left to do. -/
theorem body_congr {fuel : Nat} {call : (r : ρ) → Cursor → Trace ρ → Reply ρ (V r)} {r : ρ} {c : Cursor}
    {t : Trace ρ}
    (same : ∀ s c' t, height * c'.rest.length + rank s < height * c.rest.length + rank r →
      matchRule body fuel s c' t = call s c' t) :
    (body r).run (matchRule body fuel) c t = (body r).run call c t := by
  have nearer : ∀ s (c' : Cursor) t, c'.rest.length < c.rest.length ∨
      c'.rest.length ≤ c.rest.length ∧ decide (rank s < rank r) = true →
      matchRule body fuel s c' t = call s c' t := by
    refine fun s c' t near => same s c' t ?_
    rcases near with shorter | ⟨within, smaller⟩
    · have step := Nat.mul_le_mul_left height (Nat.succ_le_of_lt shorter)
      have bounded := below s
      rw [Nat.mul_succ] at step
      omega
    · have step := Nat.mul_le_mul_left height within
      have smaller := of_decide_eq_true smaller
      omega
  exact run_congr (matchRule_outcome fuel) (scanRule_forward fuel) nearer (body r) c t
    (Or.inr ⟨Nat.le_refl _, ranked r⟩)

/-- More fuel changes nothing where there is enough. -/
theorem matchRule_stable {fuel fuel' : Nat} {r : ρ} {c : Cursor} {t : Trace ρ}
    (enough : height * c.rest.length + rank r < fuel)
    (enough' : height * c.rest.length + rank r < fuel') :
    matchRule body fuel r c t = matchRule body fuel' r c t := by
  induction fuel generalizing fuel' r c t with
  | zero => omega
  | succ fuel ih =>
    obtain _ | fuel' := fuel'
    · omega
    have same : (body r).run (matchRule body fuel) c t = (body r).run (matchRule body fuel') c t :=
      body_congr below ranked fun s c' t lower => ih (by omega) (by omega)
    unfold matchRule
    rw [same]

theorem matchRule_enough {fuel : Nat} {r : ρ} {c : Cursor} {t : Trace ρ}
    (enough : height * c.rest.length + rank r < fuel) :
    matchRule body fuel r c t = matchWhole body rank height r c t :=
  matchRule_stable below ranked enough (Nat.lt_succ_self _)

theorem scanRule_enough {fuel : Nat} {r : ρ} {c : Cursor} (enough : height * c.rest.length + rank r < fuel) :
    scanRule body fuel r c = scanWhole body rank height r c := by
  rw [← matchRule_outcome fuel r c Trace.start, matchRule_enough below ranked enough, matchWhole_outcome]

/-- Scanning a rule is scanning its pattern. -/
theorem scanWhole_eq (r : ρ) (c : Cursor) :
    scanWhole body rank height r c = (body r).scan (scanWhole body rank height) c := by
  have same : (body r).run (matchRule body (height * c.rest.length + rank r)) c Trace.start =
      (body r).run (matchWhole body rank height) c Trace.start :=
    body_congr below ranked fun s c' t lower => matchRule_enough below ranked lower
  calc scanWhole body rank height r c
      = ((body r).run (matchRule body (height * c.rest.length + rank r)) c Trace.start).outcome :=
        (run_outcome (matchRule_outcome _) (body r) c Trace.start).symm
    _ = (body r).scan (scanWhole body rank height) c := by
        rw [same, run_outcome (matchWhole_outcome rank height)]

end Rules

end ConceptLogic
