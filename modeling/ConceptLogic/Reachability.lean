import Std.Data.TreeSet

namespace ConceptLogic

/-- Adds to the places that wait those of a list that are not reached yet. -/
def visit : List Nat → List Nat → Std.TreeSet Nat → List Nat × Std.TreeSet Nat
  | [], waiting, reached => (waiting, reached)
  | n :: rest, waiting, reached =>
    if reached.contains n then visit rest waiting reached
    else visit rest (n :: waiting) (reached.insert n)

/-- Follows edges from the places that wait, in at most `fuel` steps. A place
waits at most once for each time it is reached, which happens only once. -/
def spread (next : Nat → List Nat) : Nat → List Nat → Std.TreeSet Nat → Std.TreeSet Nat
  | 0, _, reached => reached
  | _ + 1, [], reached => reached
  | fuel + 1, n :: waiting, reached =>
    let (waiting, reached) := visit (next n) waiting reached
    spread next fuel waiting reached

/-- Where one or more edges lead from a place, if no more than `bound` places
can be reached. The place itself is among them only if it lies on a cycle. -/
def reachable (next : Nat → List Nat) (bound start : Nat) : Std.TreeSet Nat :=
  spread next (bound + 1) [start] {}

end ConceptLogic
