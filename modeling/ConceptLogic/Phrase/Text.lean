import ConceptLogic.Phrase

namespace ConceptLogic

/-- Texts in a row with a separator between neighbours. -/
def separated (separator : String) : List String → String
  | [] => ""
  | [t] => t
  | t :: ts => t ++ separator ++ separated separator ts

def Connective.separator (kind : Connective) : String :=
  " " ++ kind.token ++ " "

/-- The loosest operand that stands without parentheses under a connective. -/
def Connective.admits : Connective → Nat
  | .and => 2
  | .or => 3
  | .xor => 4

namespace Phrase

/-- How loosely a written phrase holds together: names and the like not at all,
then negation, restriction, the three connectives, and everything else. -/
def looseness : Phrase → Nat
  | .concept _ | .individual _ | .relation _ | .nominal _ | .var _ | .anaphora => 0
  | .negation _ => 1
  | .restriction .. => 2
  | .junction .and _ => 3
  | .junction .or _ => 4
  | .junction .xor _ => 5
  | _ => 6

/-- Puts a written phrase in parentheses if it is looser than its place admits. -/
def wrapped (admits : Nat) (p : Phrase) (written : String) : String :=
  if admits < p.looseness then "(" ++ written ++ ")" else written

/-- The links of a written chain of comparisons. -/
def chained : List String → List String → String
  | c :: cs, t :: ts => " " ++ c ++ " " ++ t ++ chained cs ts
  | _, _ => ""

mutual

/-- A phrase as it is written, with no more parentheses than it needs. -/
def text : Phrase → String
  | .concept name | .individual name | .relation name => name
  | .nominal members => "\x7b" ++ separated ", " members ++ "\x7d"
  | .var x => x.text
  | .anaphora => "@"
  | .negation p => "~" ++ wrapped 2 p p.text
  | .restriction q r p => q.text ++ " " ++ r.text ++ " . " ++ wrapped 2 p p.text
  | .junction kind ps => separated kind.separator (texts kind.admits ps)
  | .tuple ps => separated ", " (texts 6 ps)
  | .declareIndividual name ps => "! " ++ name ++ " : " ++ separated ", " (texts 6 ps)
  | .declareConcept name ps => "! " ++ name ++ " :: " ++ separated ", " (texts 6 ps)
  | .declareRelation name p q => "! " ++ name ++ " :: " ++ p.text ++ " -> " ++ q.text
  | .define name p => "! " ++ name ++ " := " ++ p.text
  | .membership p q => p.text ++ " : " ++ q.text
  | .comparison ps cs =>
    match texts 6 ps with
    | [] => ""
    | t :: ts => t ++ chained cs ts
  | .mapping p q => p.text ++ " -> " ++ q.text
  | .program ps => separated "; " (texts 6 ps)

def texts (admits : Nat) : List Phrase → List String
  | [] => []
  | p :: ps => wrapped admits p p.text :: texts admits ps

end

end Phrase

end ConceptLogic
