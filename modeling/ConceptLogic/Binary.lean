import ConceptLogic.Decimal

namespace ConceptLogic

/-- A number that is not negative in the binary format of sixty-four bits: at most
fifty-three digits, and the power of two that they count. -/
structure Binary where
  mantissa : Nat
  exponent : Int
  deriving DecidableEq, Repr

namespace Binary

/-- The least number with more digits than there may be. -/
def bound : Nat := power 2 53

def leastExponent : Int := -1074

def greatestExponent : Int := 971

def zero : Binary := ⟨0, leastExponent⟩

/-- A decimal counted in a power of two, as a quotient. -/
def scaled (d : Decimal) (exponent : Int) : Nat × Nat :=
  (d.digits * power 10 d.exponent * power 2 (-exponent),
    power 10 (-d.exponent) * power 2 exponent)

/-- The nearest whole number to a quotient, and of two the even one. -/
def rounded (n m : Nat) : Nat :=
  if 2 * (n % m) < m || (2 * (n % m) == m && n / m % 2 == 0) then n / m else n / m + 1

/-- The least exponent that leaves a decimal no more digits than there may be. -/
def exponentFor (d : Decimal) : Int :=
  let (n, m) := scaled d 0
  let guess := (n.log2 : Int) - m.log2 - 53
  let (n, m) := scaled d guess
  max leastExponent (if n / m < bound then guess else guess + 1)

/-- The number nearest to a decimal, unless that is too great. The first cases
keep the powers small. -/
def nearest? (d : Decimal) : Option Binary :=
  if d.digits = 0 || d.magnitude < -400 then some zero
  else if 400 < d.magnitude then none
  else
    let exponent := exponentFor d
    let (n, m) := scaled d exponent
    let mantissa := rounded n m
    let b : Binary :=
      if mantissa < bound then ⟨mantissa, exponent⟩ else ⟨mantissa / 2, exponent + 1⟩
    if b.exponent ≤ greatestExponent then some b else none

/-- Whether a decimal is nearer to a number than to its neighbours. A number with
an even mantissa has what lies halfway too. Below a power of two the neighbour is
only half as far. -/
def covers (b : Binary) (d : Decimal) : Bool :=
  let below :=
    if 2 * b.mantissa = bound && leastExponent < b.exponent then 1 else 2
  let unit := power 2 b.exponent * power 10 (-d.exponent)
  let least := (4 * b.mantissa - below) * unit
  let greatest := (4 * b.mantissa + 2) * unit
  let point := 4 * d.digits * power 10 d.exponent * power 2 (-b.exponent)
  (least < point && point < greatest) ||
    (b.mantissa % 2 == 0 && (point == least || point == greatest))

/-- Of the two multiples of a power of ten around a number, the nearer one that the
number covers. The greater one is taken where both are as near. -/
def multiple? (b : Binary) (exponent : Int) : Option Decimal :=
  let n := b.mantissa * power 2 b.exponent * power 10 (-exponent)
  let m := power 2 (-b.exponent) * power 10 exponent
  let less : Decimal := ⟨n / m, exponent⟩
  let greater : Decimal := ⟨n / m + 1, exponent⟩
  let candidates := if 2 * (n % m) < m then [less, greater] else [greater, less]
  candidates.find? b.covers

/-- A number as it is. -/
def exactly (b : Binary) : Decimal :=
  ⟨b.mantissa * power 2 b.exponent * power 5 (-b.exponent), min b.exponent 0⟩

/-- The decimal with the fewest digits to which a number is the nearest. -/
def shortest (b : Binary) : Decimal :=
  if b.mantissa = 0 then ⟨0, 0⟩
  else ((List.range 640).findSome? fun i : Nat => b.multiple? (310 - i)).getD b.exactly

end Binary

end ConceptLogic
