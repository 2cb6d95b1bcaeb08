import ConceptLogic.Cursor

namespace ConceptLogic

/-- What a failed reading leaves to report: the furthest place at which a rule
was tried in vain, and the rules that were expected there. -/
structure Trace (ρ : Type) where
  furthest : Nat
  expected : List ρ

namespace Trace

variable {ρ : Type}

def start : Trace ρ := ⟨0, []⟩

/-- How many rules are expected at a place. -/
def countAt (t : Trace ρ) (place : Nat) : Nat :=
  if t.furthest = place then t.expected.length else 0

/-- Notes that a rule failed at a place where `before` rules were expected when
it was tried. It stands for all that was noted there in the meantime, unless
that is a single rule, which then says more than the rule that contains it. -/
def note (t : Trace ρ) (r : ρ) (place before : Nat) : Trace ρ :=
  if t.countAt place = before + 1 then t
  else if t.furthest = place then ⟨place, t.expected.take before ++ [r]⟩
  else if t.furthest < place then ⟨place, [r]⟩
  else t

end Trace

/-- What comes of trying to read something at a cursor. -/
inductive Reply (ρ α : Type)
  | matched (value : α) (rest : Cursor) (trace : Trace ρ)
  | failed (trace : Trace ρ)

/-- A pattern describes a piece of text and the value read from it. Rules are
named in `ρ`, and rule `r` reads a value of type `V r`. Choice is ordered: the
second pattern is tried only where the first fails. A sequence allows nothing
between its parts but what `gap`, which reads layout, stands for. -/
inductive Pattern {ρ : Type} (V : ρ → Type) : Type → Type 1
  | pure {α : Type} (value : α) : Pattern V α
  | char (accepts : Char → Bool) : Pattern V Char
  | literal (word : List Char) : Pattern V Unit
  | notNext (refuses : Char → Bool) : Pattern V Unit
  | gap : Pattern V Unit
  | atEnd : Pattern V Unit
  | here : Pattern V Nat
  | seq {α β γ : Type} (combine : α → β → γ) (first : Pattern V α) (second : Pattern V β) :
      Pattern V γ
  | choice {α : Type} (first second : Pattern V α) : Pattern V α
  | star {α : Type} (item : Pattern V α) : Pattern V (List α)
  | rule (r : ρ) : Pattern V (V r)

namespace Pattern

variable {ρ : Type} {V : ρ → Type}

/-- Reads items until one fails, for at most as many rounds as the first list
has members. A failing round leaves the cursor where it was. -/
def rounds {α : Type} (item : Cursor → Trace ρ → Reply ρ α) :
    List Char → Cursor → Trace ρ → List α × Cursor × Trace ρ
  | [], c, t => ([], c, t)
  | _ :: left, c, t =>
    match item c t with
    | .failed t => ([], c, t)
    | .matched a c t =>
      let (as, c, t) := rounds item left c t
      (a :: as, c, t)

/-- Matches a pattern at a cursor, given how the rules are matched. Every item
of a repetition takes a character, so there are as many rounds as it needs. -/
def run (call : (r : ρ) → Cursor → Trace ρ → Reply ρ (V r)) :
    {α : Type} → Pattern V α → Cursor → Trace ρ → Reply ρ α
  | _, .pure value, c, t => .matched value c t
  | _, .char accepts, c, t =>
    match c with
    | ⟨[], _⟩ => .failed t
    | ⟨x :: rest, n⟩ => if accepts x then .matched x ⟨rest, n + 1⟩ t else .failed t
  | _, .literal word, c, t =>
    match c.read? word with
    | none => .failed t
    | some c => .matched () c t
  | _, .notNext refuses, c, t =>
    match c.rest with
    | [] => .matched () c t
    | x :: _ => if refuses x then .failed t else .matched () c t
  | _, .gap, c, t => .matched () c.afterLayout t
  | _, .atEnd, c, t => if c.rest.isEmpty then .matched () c t else .failed t
  | _, .here, c, t => .matched c.offset c t
  | _, .seq combine first second, c, t =>
    match first.run call c t with
    | .failed t => .failed t
    | .matched a c t =>
      match second.run call c t with
      | .failed t => .failed t
      | .matched b c t => .matched (combine a b) c t
  | _, .choice first second, c, t =>
    match first.run call c t with
    | .matched a c t => .matched a c t
    | .failed t => second.run call c t
  | _, .star item, c, t =>
    let (as, c, t) := rounds (item.run call) c.rest c t
    .matched as c t
  | _, .rule r, c, t => call r c t

abbrev map {α β : Type} (f : α → β) (g : Pattern V α) : Pattern V β :=
  seq (fun a _ => f a) g (pure ())

/-- Two patterns in turn, with layout allowed between them. -/
abbrev spaced {α β γ : Type} (combine : α → β → γ) (first : Pattern V α)
    (second : Pattern V β) : Pattern V γ :=
  seq combine first (seq (fun _ b => b) gap second)

/-- A first pattern for which only its presence counts. -/
abbrev before {α β : Type} (first : Pattern V α) (second : Pattern V β) : Pattern V β :=
  spaced (fun _ b => b) first second

/-- Any number of items, with layout allowed between them. -/
abbrev many {α : Type} (item : Pattern V α) : Pattern V (List α) :=
  choice (seq List.cons item (star (seq (fun _ a => a) gap item))) (pure [])

abbrev opt {α : Type} (g : Pattern V α) : Pattern V (Option α) :=
  choice (map some g) (pure none)

/-- A word that no further name character follows. -/
abbrev keyword (word : List Char) (continues : Char → Bool) : Pattern V Unit :=
  seq (fun _ _ => ()) (literal word) (notNext continues)

end Pattern

/-- Matches a rule by its pattern, with rules inside rules at most `fuel` deep,
and notes its failure. -/
def matchRule {ρ : Type} {V : ρ → Type} (body : (r : ρ) → Pattern V (V r)) :
    Nat → (r : ρ) → Cursor → Trace ρ → Reply ρ (V r)
  | 0, _, _, t => .failed t
  | fuel + 1, r, c, t =>
    match (body r).run (matchRule body fuel) c t with
    | .matched value rest t => .matched value rest t
    | .failed after => .failed (after.note r c.offset (t.countAt c.offset))

end ConceptLogic
