import ConceptLogic.Digits
import ConceptLogic.Phrase

namespace ConceptLogic

/-- A number as it stands in a text, and where. -/
structure Numeral where
  digits : List Char
  offset : Nat
  deriving DecidableEq, Repr

namespace Numeral

def value (n : Numeral) : Nat := numberOf 10 n.digits

/-- Cardinalities have thirty-two bits. -/
def fits (n : Numeral) : Bool :=
  n.value < 4294967296

end Numeral

namespace Draft

/-! A draft is what the grammar reads from a text before any name is judged. -/

inductive Quantifier
  | some
  | only
  | count (bound : Bound) (n : Numeral)
  deriving DecidableEq, Repr

inductive Concept
  | atom (name : String)
  | nominal (members : List String)
  | var (base : String) (type : Option String)
  | anaphora
  | negation (operand : Concept)
  | restriction (quantifier : Quantifier) (relation : String) (operand : Concept)
  | junction (kind : Connective) (operands : List Concept)
  deriving Repr, Inhabited

/-- Operands read around a connective. One by itself is just that operand. -/
def Concept.chain (kind : Connective) (first : Concept) : List Concept → Concept
  | [] => first
  | rest => .junction kind (first :: rest)

/-- What may stand before the colon of a membership. -/
inductive Subject
  | individual (name : String)
  | var (base : String) (type : Option String)
  | anaphora
  deriving DecidableEq, Repr

inductive Statement
  | concept (body : Concept)
  | define (name : String) (body : Concept)
  | declareRelation (name : String) (domain range : Concept)
  | declareConcept (name : String) (parts : List Concept)
  | declareIndividual (name : String) (parts : List Concept)
  | membership (subject : Subject) (concept : Concept)
  | comparison (first : Concept) (links : List (String × Concept))
  deriving Repr, Inhabited

end Draft

end ConceptLogic
