import ConceptLogic.Ontology.Text
import ConceptLogic.Phrase.Text

namespace ConceptLogic

/-- Names and what they stand for, in two tiers. What is bound goes to the
memory, and the dictionary holds what is built in. -/
structure Scope (α : Type) where
  memory : List (String × α)
  dictionary : List (String × α)

/-- What a phrase can stand for. A deferred value waits for a variable; it keeps
the phrase to be evaluated then and the names that were known. -/
inductive Value
  | concept (c : ConceptId)
  | individual (i : IndividualId)
  | relation (r : RelationId)
  | boolean (b : Bool)
  | mapping (domain range : ConceptId)
  | tuple (bases others : List Value)
  | deferred (x : Variable) (body : Phrase) (scope : Scope Value)
  | operator (op : Operator)
  | nothing
  deriving Inhabited

abbrev Environment := Scope Value

/-- The text of a phrase that waits for a variable. -/
def deferredText (x : Variable) (body : Phrase) : String :=
  if isJust x body then "\\" ++ x.text else "\\" ++ x.text ++ ". " ++ body.text
where
  isJust (x : Variable) : Phrase → Bool
    | .var y => y = x
    | _ => false

namespace Value

def kind : Value → Kind
  | .concept _ => .concept
  | .individual _ => .individual
  | .relation _ => .relation
  | .boolean _ => .boolean
  | .mapping .. => .mapping
  | .tuple .. => .tuple
  | .deferred .. => .deferred
  | .operator _ => .operator
  | .nothing => .nothing

def mismatch (v : Value) (expected : Kind) : Error :=
  .typeMismatch (.kind expected v.kind)

def asConcept : Value → Except Error ConceptId
  | .concept c => .ok c
  | v => .error (v.mismatch .concept)

def asIndividual : Value → Except Error IndividualId
  | .individual i => .ok i
  | v => .error (v.mismatch .individual)

def asRelation : Value → Except Error RelationId
  | .relation r => .ok r
  | v => .error (v.mismatch .relation)

def asBoolean : Value → Except Error Bool
  | .boolean b => .ok b
  | v => .error (v.mismatch .boolean)

def asOperator? : Value → Option Operator
  | .operator op => some op
  | _ => none

mutual

/-- Whether two values are the same. A deferred value is not even the same as
itself. -/
def same : Value → Value → Bool
  | .concept c, .concept d => c = d
  | .individual i, .individual j => i = j
  | .relation r, .relation s => r = s
  | .boolean a, .boolean b => a = b
  | .mapping a b, .mapping c d => a = c && b = d
  | .tuple as bs, .tuple cs ds => allSame as cs && allSame bs ds
  | .operator f, .operator g => f = g
  | .nothing, .nothing => true
  | _, _ => false

def allSame : List Value → List Value → Bool
  | [], [] => true
  | v :: vs, w :: ws => v.same w && allSame vs ws
  | _, _ => false

end

mutual

/-- A value as it is shown, with the names that the ontology gives to things. -/
def text (o : Ontology) : Value → String
  | .concept c => o.conceptText c
  | .individual i => o.individualText i
  | .relation r => o.relationText r
  | .boolean b => if b then "true" else "false"
  | .mapping domain range => o.conceptText domain ++ " -> " ++ o.conceptText range
  | .tuple bases others => separated ", " (texts o bases ++ texts o others)
  | .deferred x body _ => deferredText x body
  | .operator op => op.token
  | .nothing => ""

def texts (o : Ontology) : List Value → List String
  | [] => []
  | v :: vs => v.text o :: texts o vs

end

/-- The first deferred value of a list. -/
def pending? : List Value → Option (Variable × Environment)
  | [] => none
  | .deferred x _ scope :: _ => some (x, scope)
  | _ :: vs => pending? vs

end Value

end ConceptLogic
