import ConceptLogic.Quantifier
import ConceptLogic.Vocabulary

namespace ConceptLogic

/-- A variable ranges over individuals or concepts, as its base says, and may be
held to the instances or subconcepts of a named concept. -/
structure Variable where
  base : String
  type : Option String
  deriving DecidableEq, Repr

namespace Variable

def name (x : Variable) : String := "$" ++ x.base

def role (x : Variable) : Role := variableRole x.base

def text (x : Variable) : String :=
  match x.type with
  | none => x.name
  | some type => x.name ++ ":" ++ type

end Variable

/-- The language's trees. A text yields a `program`; the other shapes are its
statements and their parts, and a tuple, a mapping or a program may also be
built as a part of something else. -/
inductive Phrase
  | concept (name : String)
  | individual (name : String)
  | relation (name : String)
  | nominal (members : List String)
  | var (x : Variable)
  | anaphora
  | negation (operand : Phrase)
  | restriction (quantifier : Quantifier) (relation operand : Phrase)
  | junction (kind : Connective) (operands : List Phrase)
  | tuple (parts : List Phrase)
  | declareIndividual (name : String) (parts : List Phrase)
  | declareConcept (name : String) (parts : List Phrase)
  | declareRelation (name : String) (domain range : Phrase)
  | define (name : String) (body : Phrase)
  | membership (individual concept : Phrase)
  | comparison (operands : List Phrase) (comparators : List String)
  | mapping (domain range : Phrase)
  | program (statements : List Phrase)
  deriving BEq, Repr, Inhabited

namespace Phrase

def isConcept : Phrase → Bool
  | .concept _ => true
  | _ => false

/-- What an operand of a connective contributes: its own operands if it joins
them by that connective, else itself. -/
def spliced (kind : Connective) : Phrase → List Phrase
  | .junction kind' operands => if kind' = kind then operands else [junction kind' operands]
  | p => [p]

/-- Joins operands by a connective. One operand by itself needs none. -/
def join (kind : Connective) (operands : List Phrase) : Phrase :=
  match operands.flatMap (spliced kind) with
  | [p] => p
  | ps => junction kind ps

/-- A chain of comparisons, each comparator followed by its right operand. -/
def compare (first : Phrase) (links : List (String × Phrase)) : Phrase :=
  comparison (first :: links.map Prod.snd) (links.map Prod.fst)

/-- Whether the comparators of a chain differ. -/
def isHybrid : List String → Bool
  | [] => false
  | c :: rest => rest.any (· != c)

def isDeclaration : Phrase → Bool
  | .declareIndividual .. | .declareConcept .. | .declareRelation .. | .define .. => true
  | _ => false

/-- A phrase that is no program is a program of one statement. -/
def statements : Phrase → List Phrase
  | .program ps => ps
  | p => [p]

mutual

/-- The height of the tree, in which names, nominals and variables are leaves
and the relation of a restriction is not counted. -/
def depth : Phrase → Nat
  | .concept _ | .individual _ | .relation _ | .nominal _ | .var _ | .anaphora => 1
  | .negation p => 1 + p.depth
  | .restriction _ _ p => 1 + p.depth
  | .junction _ ps => 1 + deepest ps
  | .tuple ps => 1 + deepest ps
  | .declareIndividual _ ps => 1 + deepest ps
  | .declareConcept _ ps => 1 + deepest ps
  | .declareRelation _ p q => 1 + max p.depth q.depth
  | .define _ p => 1 + p.depth
  | .membership p q => 1 + max p.depth q.depth
  | .comparison ps _ => 1 + deepest ps
  | .mapping p q => 1 + max p.depth q.depth
  | .program ps => 1 + deepest ps

def deepest : List Phrase → Nat
  | [] => 0
  | p :: ps => max p.depth (deepest ps)

end

end Phrase

/-- The variable with a given base and type, both admitted in their roles. -/
def Variable.vet (v : Vocabulary) (base : String) (type : Option String) :
    Except Error Variable := do
  let base ← v.vet (variableRole base) base
  match type with
  | none => return ⟨base, none⟩
  | some type => return ⟨base, some (← v.vet .concept type)⟩

end ConceptLogic
