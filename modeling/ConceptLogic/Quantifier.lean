namespace ConceptLogic

inductive Connective
  | and
  | or
  | xor
  deriving DecidableEq, Repr

def Connective.token : Connective → String
  | .and => "&"
  | .or => "|"
  | .xor => "^"

/-- How a counting restriction bounds the number of fillers. -/
inductive Bound
  | atLeast
  | atMost
  | exactly
  deriving DecidableEq, Repr

def Bound.word : Bound → String
  | .atLeast => "more"
  | .atMost => "less"
  | .exactly => "exact"

inductive Quantifier
  | some
  | only
  | count (bound : Bound) (n : Nat)
  deriving DecidableEq, Repr

def Quantifier.text : Quantifier → String
  | .some => "some"
  | .only => "only"
  | .count bound n => bound.word ++ " " ++ toString n

end ConceptLogic
