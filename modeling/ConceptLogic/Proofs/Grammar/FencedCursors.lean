import ConceptLogic.Proofs.Grammar.FailureTraces
import ConceptLogic.Proofs.Grammar.FormReading

namespace ConceptLogic

/-- The cursors of a text that goes on with a line of its own that begins with a semicolon, as far as
that semicolon. -/
inductive Fenced (t : List Char) (place : Nat) : Cursor → Prop
  | before (s : List Char) (n : Nat) : n + s.length + 1 = place → Fenced t place ⟨s ++ '\n' :: ';' :: t, n⟩
  | mark : Fenced t place ⟨';' :: t, place⟩

namespace Fenced

variable {t : List Char} {place : Nat} {c c' : Cursor}

theorem offset_le (fenced : Fenced t place c) : c.offset ≤ place := by
  cases fenced with
  | before s n long =>
    change n ≤ place
    omega
  | mark => exact Nat.le_refl _

/-- All cursors of one text agree on where it ends. -/
theorem length (fenced : Fenced t place c) : c.offset + c.rest.length = place + t.length + 1 := by
  cases fenced with
  | before s n long =>
    simp only [List.length_append, List.length_cons]
    omega
  | mark => rfl

/-- Only a semicolon leads out. -/
theorem next {x : Char} {s : List Char} {n : Nat} (fenced : Fenced t place ⟨x :: s, n⟩) (other : x ≠ ';') :
    Fenced t place ⟨s, n + 1⟩ := by
  generalize same : (⟨x :: s, n⟩ : Cursor) = c at fenced
  cases fenced with
  | before r k long =>
    cases r with
    | nil =>
      cases same
      exact long ▸ .mark
    | cons y r =>
      cases same
      exact .before r _ (by rw [List.length_cons] at long; omega)
  | mark =>
    cases same
    exact absurd rfl other

theorem read? {word : List Char} (fenced : Fenced t place c) (apart : ';' ∉ word)
    (read : c.read? word = some c') : Fenced t place c' := by
  induction word generalizing c with
  | nil =>
    cases read
    exact fenced
  | cons x word ih =>
    obtain ⟨rest, n, rfl, behind⟩ := Cursor.read?_cons read
    rw [List.mem_cons, not_or] at apart
    exact ih (fenced.next (Ne.symm apart.1)) apart.2 behind

/-- Layout ends at the semicolon at the latest: the line feed before it ends a comment. -/
theorem skipLayout (commented : Bool) (s : List Char) (n : Nat) (long : n + s.length + 1 = place) :
    Fenced t place (ConceptLogic.skipLayout commented (s ++ '\n' :: ';' :: t) n) := by
  induction s generalizing commented n with
  | nil => cases commented <;> exact long ▸ .mark
  | cons x s ih =>
    have further := fun commented => ih commented (n + 1) (by rw [List.length_cons] at long; omega)
    rw [List.cons_append]
    cases commented with
    | true => exact further _
    | false =>
      unfold ConceptLogic.skipLayout
      split
      · exact further _
      · split
        · exact further _
        · exact .before (x :: s) n long

theorem afterLayout (fenced : Fenced t place c) : Fenced t place c.afterLayout := by
  cases fenced with
  | before s n long => exact skipLayout false s n long
  | mark => exact .mark

end Fenced

namespace Pattern

variable {ρ : Type} {V : ρ → Type}

/-- Whether a pattern never reads a character, given the rules that do not. Layout counts for nothing. -/
def spares (x : Char) (sparing : ρ → Bool) : {α : Type} → Pattern V α → Bool
  | _, .char accepts => !accepts x
  | _, .literal word => !word.contains x
  | _, .seq _ first second => first.spares x sparing && second.spares x sparing
  | _, .choice first second => first.spares x sparing && second.spares x sparing
  | _, .star item => item.spares x sparing
  | _, .rule r => sparing r
  | _, _ => true

/-- Whether what begins before the fence tries nothing behind it, and leaves off before it too. -/
def Stays (t : List Char) (place : Nat) (ends : Cursor → Option Cursor) (vain : Cursor → List Nat) : Prop :=
  ∀ ⦃c⦄, Fenced t place c → (∀ n ∈ vain c, n ≤ place) ∧ ∀ c' ∈ ends c, Fenced t place c'

theorem Stays.quiet {t : List Char} {place : Nat} {ends : Cursor → Option Cursor}
    (leaves : ∀ ⦃c⦄, Fenced t place c → ∀ c' ∈ ends c, Fenced t place c') : Stays t place ends fun _ => [] :=
  fun _ fenced => ⟨nofun, leaves fenced⟩

variable {t : List Char} {place : Nat}

theorem stays_rounds {α : Type} {item : Cursor → Option (α × Cursor)} {vain : Cursor → List Nat}
    (stays : Stays t place (fun c => (item c).map Prod.snd) vain) (left : List Char) {c : Cursor}
    (fenced : Fenced t place c) :
    (∀ n ∈ vainRounds (fun c => (item c).map Prod.snd) vain left c, n ≤ place) ∧
      Fenced t place (repeated item left c).2 := by
  induction left generalizing c with
  | nil => exact ⟨nofun, fenced⟩
  | cons x left ih =>
    obtain ⟨places, leaves⟩ := stays fenced
    unfold vainRounds repeated
    cases found : item c with
    | none =>
      refine ⟨fun n member => places n ?_, fenced⟩
      simpa [found] using member
    | some next =>
      obtain ⟨later, last⟩ := ih (leaves next.2 (by simp [found]))
      refine ⟨fun n member => ?_, last⟩
      exact (List.mem_append.mp member).elim (places n) (later n)

theorem stays_of_spares {call : (r : ρ) → Cursor → Option (V r × Cursor)} {within : ρ → Cursor → List Nat}
    {sparing : ρ → Bool}
    (rules : ∀ r, sparing r = true → Stays t place (fun c => (call r c).map Prod.snd) (within r)) {α : Type}
    {p : Pattern V α} (spares : p.spares ';' sparing = true) :
    Stays t place (p.ends call) (p.vain call within) := by
  induction p with
  | pure | here => exact .quiet fun c fenced c' same => Option.some.inj same ▸ fenced
  | gap => exact .quiet fun c fenced c' same => Option.some.inj same ▸ fenced.afterLayout
  | char accepts =>
    refine .quiet fun c fenced c' same => ?_
    obtain ⟨_ | ⟨x, rest⟩, n⟩ := c
    · cases same
    · simp only [ends, scan, Option.mem_def] at same
      split at same
      · rename_i accepted
        cases same
        refine fenced.next ?_
        rintro rfl
        simp [Pattern.spares, accepted] at spares
      · cases same
  | literal word =>
    refine .quiet fun c fenced c' same => ?_
    simp only [ends, scan, Option.mem_def, Option.map_map] at same
    obtain ⟨d, read, rfl⟩ := Option.map_eq_some_iff.mp same
    exact fenced.read? (by simpa [Pattern.spares] using spares) read
  | notNext refuses =>
    refine .quiet fun c fenced c' same => ?_
    obtain ⟨_ | ⟨x, rest⟩, n⟩ := c
    · cases same
      exact fenced
    · simp only [ends, scan, Option.mem_def] at same
      split at same
      · cases same
      · cases same
        exact fenced
  | atEnd =>
    refine .quiet fun c fenced c' same => ?_
    simp only [ends, scan, Option.mem_def] at same
    split at same
    · cases same
      exact fenced
    · cases same
  | seq combine first second ihFirst ihSecond =>
    obtain ⟨left, right⟩ := Bool.and_eq_true_iff.mp spares
    intro c fenced
    obtain ⟨places, leaves⟩ := ihFirst left fenced
    simp only [vain, ends_seq]
    cases found : first.ends call c with
    | none =>
      refine ⟨by simpa using places, fun c' same => ?_⟩
      cases same
    | some d =>
      obtain ⟨later, last⟩ := ihSecond right (leaves d found)
      exact ⟨fun n member => (List.mem_append.mp member).elim (places n) (later n), last⟩
  | choice first second ihFirst ihSecond =>
    obtain ⟨left, right⟩ := Bool.and_eq_true_iff.mp spares
    intro c fenced
    obtain ⟨places, leaves⟩ := ihFirst left fenced
    obtain ⟨places', leaves'⟩ := ihSecond right fenced
    simp only [vain, ends_choice]
    cases found : first.ends call c with
    | none => exact ⟨fun n member => (List.mem_append.mp member).elim (places n) (places' n), leaves'⟩
    | some d => exact ⟨by simpa using places, fun c' same => leaves c' (found.trans same)⟩
  | star item ih =>
    intro c fenced
    obtain ⟨places, last⟩ := stays_rounds (ih spares) c.rest fenced
    exact ⟨places, fun c' same => Option.some.inj same ▸ last⟩
  | rule r => exact rules r spares

/-- Rules whose patterns never read a semicolon. -/
theorem stays_rule {body : (r : ρ) → Pattern V (V r)} {sparing : ρ → Bool}
    (spared : ∀ r, sparing r = true → (body r).spares ';' sparing = true) (fuel : Nat) {r : ρ}
    (spares : sparing r = true) :
    Stays t place (fun c => (scanRule body fuel r c).map Prod.snd) (vainRule body fuel r) := by
  induction fuel generalizing r with
  | zero => exact fun c _ => ⟨nofun, nofun⟩
  | succ fuel ih =>
    intro c fenced
    obtain ⟨places, leaves⟩ := stays_of_spares (fun r => ih) (spared r spares) fenced
    refine ⟨fun n member => ?_, leaves⟩
    unfold vainRule at member
    rcases List.mem_append.mp member with inside | own
    · exact places n inside
    · cases found : (body r).ends (scanRule body fuel) c with
      | none =>
        rw [found] at own
        exact List.mem_singleton.mp own ▸ fenced.offset_le
      | some d =>
        rw [found] at own
        cases own

end Pattern

namespace Grammar

open Pattern

/-- The places at which rules are tried in vain while a form is read. -/
def vain {α : Type} (p : Form α) (c : Cursor) : List Nat :=
  Pattern.vain (scanWhole body Rule.rank 10) (vainWhole body Rule.rank 10) p c

section Vain

variable {α β γ : Type} {c d : Cursor} {a : α}

theorem ends_found {p : Form α} (found : scanned p c = some (a, d)) :
    p.ends (scanWhole body Rule.rank 10) c = some d :=
  congrArg (Option.map Prod.snd) found

theorem vain_seq {combine : α → β → γ} {p : Form α} {q : Form β} (found : scanned p c = some (a, d)) :
    vain (seq combine p q) c = vain p c ++ vain q d := by
  rw [vain, Pattern.vain, ends_found found]
  rfl

theorem ends_gap {combine : Unit → β → γ} (q : Form β) (c : Cursor) :
    (seq combine gap q).ends (scanWhole body Rule.rank 10) c =
      q.ends (scanWhole body Rule.rank 10) c.afterLayout :=
  ends_seq ..

theorem vain_gap {combine : Unit → β → γ} (q : Form β) (c : Cursor) :
    vain (seq combine gap q) c = vain q c.afterLayout := rfl

theorem vain_spaced {combine : α → β → γ} {p : Form α} {q : Form β} (found : scanned p c = some (a, d)) :
    vain (spaced combine p q) c = vain p c ++ vain q d.afterLayout :=
  vain_seq found

/-- To go without takes no attempt. -/
theorem vain_or_pure (p : Form α) (b : α) (c : Cursor) : vain (choice p (pure b)) c = vain p c := by
  change vain p c ++ (p.ends (scanWhole body Rule.rank 10) c).elim [] (fun _ => []) = _
  cases p.ends (scanWhole body Rule.rank 10) c <;> exact List.append_nil _

theorem vain_many {item : Form α} (eats : Eats item)
    (quiet : ∀ c : Cursor, c.rest = [] → vain (seq (fun _ a => a) gap item) c = []) (here : c.afterLayout = c) :
    vain (many item) c = vain (star (seq (fun _ a => a) gap item)) c := by
  have rounds : vain (star (seq (fun _ a => a) gap item)) c = _ :=
    vain_star (fun found => eats.behindGap found) quiet c
  rw [vain_or_pure, rounds, ends_gap, ← vain, vain_gap, here]
  rfl

theorem found_moved {p : Form α} (m : Nat) (found : scanned p c = some (a, d)) :
    ∃ b, scanned p (c.moved m) = some (b, d.moved m) := by
  have moved : ∀ (r : Rule) (c : Cursor), (scanWhole body Rule.rank 10 r (c.moved m)).map Prod.snd = _ :=
    scanWhole_moved Rule.rank 10 m
  have ends := ends_moved moved p c
  rw [ends_found found] at ends
  obtain ⟨⟨b, e⟩, found', same⟩ := Option.map_eq_some_iff.mp ends
  exact ⟨b, same ▸ found'⟩

theorem vain_shifted (p : Form α) (m : Nat) (c : Cursor) : vain p (c.moved m) = (vain p c).map (· + m) :=
  vain_moved (scanWhole_moved Rule.rank 10 m) (vainWhole_moved Rule.rank 10 m) p c

end Vain

/-- Statements are separated by semicolons, and nothing in them is. -/
theorem body_spares (r : Rule) (inner : decide (r ≠ .program) = true) :
    (body r).spares ';' (fun r => decide (r ≠ .program)) = true := by
  cases r <;> first | rfl | cases inner

theorem stays {α : Type} {p : Form α} (spares : p.spares ';' (fun r => decide (r ≠ .program)) = true)
    (t : List Char) (place : Nat) :
    Stays t place (fun c => (scanned p c).map Prod.snd) (vain p) :=
  stays_of_spares (fun _ inner _ fenced => stays_rule body_spares _ inner fenced) spares

end Grammar

end ConceptLogic
