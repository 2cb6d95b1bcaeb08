namespace ConceptLogic

/-- The built-in operations on concepts. -/
inductive Operator
  | conjunction
  | disjunction
  | exclusiveDisjunction
  | negation
  | subsumedBy
  | subsumes
  | strictlySubsumedBy
  | strictlySubsumes
  | equivalentTo
  deriving DecidableEq, Repr

def Operator.token : Operator → String
  | .conjunction => "&"
  | .disjunction => "|"
  | .exclusiveDisjunction => "^"
  | .negation => "~"
  | .subsumedBy => "<="
  | .subsumes => ">="
  | .strictlySubsumedBy => "<"
  | .strictlySubsumes => ">"
  | .equivalentTo => "=="

end ConceptLogic
