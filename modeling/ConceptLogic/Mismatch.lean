import ConceptLogic.Name
import ConceptLogic.Operator

namespace ConceptLogic

/-- The kinds of values. -/
inductive Kind
  | concept
  | individual
  | relation
  | boolean
  | mapping
  | tuple
  | deferred
  | operator
  | nothing
  deriving DecidableEq, Repr

def Kind.label : Kind → String
  | .concept => "concept"
  | .individual => "individual"
  | .relation => "relation"
  | .boolean => "boolean"
  | .mapping => "mapping"
  | .tuple => "concept tuple"
  | .deferred => "unbound variable"
  | .operator => "operator"
  | .nothing => "nothing"

/-- How a value can be unfit for its place: it is of another kind, it does not
work as an operator, there are too many or too few, or it is not of the type
that a variable asks for. -/
inductive Mismatch
  | kind (expected found : Kind)
  | operator (token : String) (found : Kind)
  | count (op : Operator) (expected found : Nat)
  | ofType (role : Role) (type found : String)
  deriving DecidableEq, Repr

namespace Mismatch

def expected : Mismatch → String
  | .kind expected _ => expected.label
  | .operator token _ => "an operator for `" ++ token ++ "`"
  | .count op expected _ => toString expected ++ " operand(s) for `" ++ op.token ++ "`"
  | .ofType role type _ => role.label ++ " of type " ++ type

def found : Mismatch → String
  | .kind _ found => found.label
  | .operator _ found => found.label
  | .count _ _ found => toString found ++ " operand(s)"
  | .ofType _ _ found => found

end Mismatch

end ConceptLogic
