namespace ConceptLogic

/-- A place in a text: what is still to be read, and how many characters stand
before it. -/
structure Cursor where
  rest : List Char
  offset : Nat
  deriving DecidableEq, Repr

def isBlank (c : Char) : Bool :=
  c == ' ' || c == '\t' || c == '\r' || c == '\n'

/-- A comment runs from its mark to the end of the line, and a carriage return
ends it as a line feed does. -/
def endsComment (c : Char) : Bool :=
  c == '\r' || c == '\n'

/-- Passes over blanks and comments. The flag says that a comment is open; the
character that ends one is a blank, so it is passed over with the rest. -/
def skipLayout : Bool → List Char → Nat → Cursor
  | _, [], offset => ⟨[], offset⟩
  | true, c :: rest, offset => skipLayout (!endsComment c) rest (offset + 1)
  | false, c :: rest, offset =>
    if isBlank c then skipLayout false rest (offset + 1)
    else if c == '#' then skipLayout true rest (offset + 1)
    else ⟨c :: rest, offset⟩

namespace Cursor

def ofText (text : List Char) : Cursor := ⟨text, 0⟩

def afterLayout (c : Cursor) : Cursor := skipLayout false c.rest c.offset

/-- Reads the given characters, one after the other. -/
def read? : List Char → Cursor → Option Cursor
  | [], c => some c
  | _ :: _, ⟨[], _⟩ => none
  | x :: word, ⟨y :: rest, offset⟩ => if x = y then read? word ⟨rest, offset + 1⟩ else none

end Cursor

/-- Line and column, both counted from one. -/
structure Position where
  line : Nat
  column : Nat
  deriving DecidableEq, Repr

/-- The position after reading a text. A line feed begins a new line, and every
other character, a carriage return too, takes one column. -/
def Position.after (start : Position) : List Char → Position
  | [] => start
  | c :: rest =>
    if c = '\n' then Position.after ⟨start.line + 1, 1⟩ rest
    else Position.after ⟨start.line, start.column + 1⟩ rest

/-- The position of the character at an offset into a text. -/
def Position.of (text : List Char) (offset : Nat) : Position :=
  Position.after ⟨1, 1⟩ (text.take offset)

end ConceptLogic
