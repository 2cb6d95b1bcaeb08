import ConceptLogic.Binary
import ConceptLogic.Digits
import ConceptLogic.Format

namespace ConceptLogic.Setting

/-- A number that a setting can be. -/
inductive Number
  | whole (n : Int)
  | fraction (negative : Bool) (size : Decimal)
  | infinite (negative : Bool)
  | undefined
  deriving DecidableEq, Repr

namespace Number

/-- A whole number has sixty-four bits with its sign. -/
def fits (n : Int) : Bool :=
  -9223372036854775808 ≤ n && n ≤ 9223372036854775807

def signed (negative : Bool) (n : Nat) : Int :=
  if negative then -n else n

def withSign (negative : Bool) (text : String) : String :=
  if negative then "-" ++ text else text

/-- A number as it serves for a text. A fraction is written with the fewest digits
that tell it from the others of its format, and is infinite if it is too great. -/
def text : Number → String
  | .whole n => withSign (n < 0) (toString n.natAbs)
  | .fraction negative size =>
    withSign negative (((Binary.nearest? size).map fun b => b.shortest.text).getD "inf")
  | .infinite negative => withSign negative "inf"
  | .undefined => "NaN"

open Pattern Format

def sign : Format Bool :=
  map (fun mark => mark == some '-') (opt (char fun c => c == '+' || c == '-'))

def digit : Format Char := char Char.isDigit

/-- Digits, and those after a point if there is one. One digit at least is there. -/
def places : Format (List Char × Option (List Char)) :=
  choice (seq Prod.mk (atLeastOne digit) (opt (andThen (literal ['.']) (star digit))))
    (map (fun ds => ([], some ds)) (andThen (literal ['.']) (atLeastOne digit)))

def exponent : Format Int :=
  andThen (anyCase ['e'])
    (seq (fun negative ds => signed negative (numberOf 10 ds)) sign (atLeastOne digit))

/-- What digits with their sign stand for: a whole number if they have neither point
nor exponent, and are not too many. -/
def ofPlaces (digits : List Char × Option (List Char)) (exponent : Option Int)
    (negative : Bool) : Number :=
  let after := digits.2.getD []
  let size := numberOf 10 (digits.1 ++ after)
  if digits.2.isNone && exponent.isNone && fits (signed negative size) then
    .whole (signed negative size)
  else .fraction negative ⟨size, exponent.getD 0 - after.length⟩

def unsigned : Format (Bool → Number) :=
  choice (map (fun _ _ => .undefined) (anyCase ['n', 'a', 'n'])) <|
  choice (map (fun _ => .infinite) (anyCase ['i', 'n', 'f', 'i', 'n', 'i', 't', 'y'])) <|
  choice (map (fun _ => .infinite) (anyCase ['i', 'n', 'f'])) <|
  seq ofPlaces places (opt exponent)

/-- Any number, as a variable may hold it. -/
def any : Format Number :=
  seq (fun negative make => make negative) sign unsigned

end Number

end ConceptLogic.Setting
