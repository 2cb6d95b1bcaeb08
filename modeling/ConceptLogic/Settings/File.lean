import ConceptLogic.Settings.Setting

namespace ConceptLogic.Settings.File

open Pattern Format
open Setting (Number Scalar)

/-- Line ends and control characters do not belong into a line, but a tab does. -/
def inLine (c : Char) : Bool :=
  c == '\t' || (32 ≤ c.toNat && c.toNat != 127)

def spaces : Format Unit :=
  passing (star (char fun c => c == ' ' || c == '\t'))

/-- A format with spaces after it. -/
abbrev padded {α : Type} (f : Format α) : Format α :=
  upTo f spaces

/-- The letters that stand for a character after a backslash. -/
def escapes : List (Char × Char) :=
  [('"', '"'), ('\\', '\\'), ('b', '\x08'), ('t', '\t'), ('n', '\n'), ('f', '\x0c'),
    ('r', '\r'), ('e', '\x1b')]

def character? (n : Nat) : Option Char :=
  if n.isValidChar then some (Char.ofNat n) else none

def isHexadecimal (c : Char) : Bool :=
  c.isDigit || ('a' ≤ c.toLower && c.toLower ≤ 'f')

/-- A character by its number, which has so many digits. -/
def numbered (mark : Char) (width : Nat) : Format (Option Char) :=
  andThen (literal [mark])
    (map (fun ds => character? (numberOf 16 ds)) (exactly width (char isHexadecimal)))

/-- A character inside quotes, unless its number is that of none. -/
def letter : Format (Option Char) :=
  choice (map some (char fun c => inLine c && c != '"' && c != '\\')) <|
  andThen (literal ['\\']) <|
  choice (map (fun c => escapes.lookup c) (char fun c => (escapes.lookup c).isSome)) <|
  choice (numbered 'x' 2) (choice (numbered 'u' 4) (numbered 'U' 8))

def string : Format (Option String) :=
  andThen (literal ['"']) <|
  upTo (map (fun cs => (cs.mapM id).map String.ofList) (star letter)) (literal ['"'])

/-- Digits, which may be kept apart by single underscores. -/
def digits (isDigit : Char → Bool) : Format (List Char) :=
  seq List.cons (char isDigit) (star (andThen (opt (literal ['_'])) (char isDigit)))

/-- Digits of a base other than ten. -/
def based (mark : Char) (base : Nat) (isDigit : Char → Bool) : Format Int :=
  andThen (literal ['0', mark]) (map (fun ds => (numberOf base ds : Int)) (digits isDigit))

/-- A whole number. In base ten it may have a sign, but no zeros before its digits. -/
def integer : Format Int :=
  choice (based 'x' 16 isHexadecimal) <|
  choice (based 'o' 8 fun c => '0' ≤ c && c ≤ '7') <|
  choice (based 'b' 2 fun c => c == '0' || c == '1') <|
  seq (fun negative ds => Number.signed negative (numberOf 10 ds)) Number.sign
    (choice (map (fun _ => ['0']) (literal ['0'])) (digits Char.isDigit))

/-- A single value, unless it is a number that does not fit. -/
def scalar : Format (Option Scalar) :=
  choice (map (fun s => s.map .text) string) <|
  map (fun n => if Number.fits n then some (.number (.whole n)) else none) integer

def list : Format (Option (List Scalar)) :=
  andThen (padded (literal ['['])) <|
  map (fun items => items.mapM id) <|
  upTo
    (choice
      (seq List.cons (padded scalar)
        (upTo (star (andThen (padded (literal [','])) (padded scalar)))
          (opt (padded (literal [','])))))
      (pure []))
    (literal [']'])

def value : Format (Option Setting) :=
  choice (map (fun s => s.map .scalar) scalar) (map (fun items => items.map .list) list)

def key : Format String :=
  map String.ofList (atLeastOne (char fun c => c.isAlphanum || c == '_' || c == '-'))

def entry : Format (Option (String × Setting)) :=
  seq (fun k v => v.map fun v => (k, v)) (padded key) (andThen (padded (literal ['='])) (padded value))

def comment : Format Unit :=
  passing (opt (andThen (literal ['#']) (star (char inLine))))

/-- A line of a settings file: a key and its value, or nothing but a comment. -/
def line : Format (Option (Option (String × Setting))) :=
  andThen spaces (upTo (opt entry) comment)

def lineEnd : Format Unit :=
  choice (literal ['\n']) (literal ['\r', '\n'])

/-- A mark of the order of bytes, which may be left out. -/
def mark : Format Unit :=
  passing (opt (literal ['\ufeff']))

/-- A settings file. A mark may begin its bytes, and another one the text in them. -/
def file : Format (Option (List (String × Setting))) :=
  andThen mark <|
  andThen mark <|
  map (fun entries => entries.reduceOption.mapM id) <|
  seq List.cons line (star (andThen lineEnd line))

/-- The keys and values of a settings file in which no key stands twice. -/
def entries? (text : String) : Option (List (String × Setting)) := do
  let entries ← (← file.read? text.toList)
  if (entries.map Prod.fst).Nodup then some entries else none

end ConceptLogic.Settings.File
