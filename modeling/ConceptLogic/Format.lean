import ConceptLogic.Pattern

namespace ConceptLogic

/-- A pattern that needs no rules. -/
abbrev Format (α : Type) := Pattern (fun _ : Empty => Unit) α

namespace Format

open Pattern

/-- Reads a text from end to end. -/
def read? {α : Type} (f : Format α) (text : List Char) : Option α :=
  match (seq (fun a _ => a) f atEnd).run (fun r => nomatch r) (Cursor.ofText text) Trace.start with
  | .matched a _ _ => some a
  | .failed _ => none

/-- A format whose value does not count. -/
abbrev passing {α : Type} (f : Format α) : Format Unit :=
  map (fun _ => ()) f

/-- A format for which only what comes after it counts. -/
abbrev andThen {α β : Type} (f : Format α) (g : Format β) : Format β :=
  seq (fun _ b => b) f g

/-- A format of which only what it begins with counts. -/
abbrev upTo {α β : Type} (f : Format α) (g : Format β) : Format α :=
  seq (fun a _ => a) f g

abbrev atLeastOne {α : Type} (f : Format α) : Format (List α) :=
  seq List.cons f (star f)

def exactly {α : Type} (n : Nat) (f : Format α) : Format (List α) :=
  (List.replicate n f).foldr (seq List.cons) (pure [])

/-- A word in capital or small letters. -/
def anyCase (word : List Char) : Format Unit :=
  passing ((word.map fun c => char fun x => x.toLower == c).foldr (seq List.cons) (pure []))

end Format

end ConceptLogic
