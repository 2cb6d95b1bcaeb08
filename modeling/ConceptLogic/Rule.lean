namespace ConceptLogic

/-- The rules of the grammar that an error message can name, in the order in
which it names them. -/
inductive Rule
  | endOfInput
  | integer
  | program
  | definition
  | relationDeclaration
  | conceptDeclaration
  | individualDeclaration
  | declaredName
  | conceptTuple
  | mappingFormula
  | containingFormula
  | comparisonFormula
  | comparator
  | individual
  | xor
  | or
  | and
  | negation
  | restriction
  | quantifier
  | wordSome
  | wordOnly
  | atLeast
  | atMost
  | exactly
  | wordMore
  | wordLess
  | wordExact
  | wordEqual
  | relation
  | individualSet
  | conceptAtom
  | variable
  | variableName
  | variableType
  | anaphora
  deriving DecidableEq, Repr

namespace Rule

def all : List Rule :=
  [.endOfInput, .integer, .program, .definition, .relationDeclaration, .conceptDeclaration,
    .individualDeclaration, .declaredName, .conceptTuple, .mappingFormula, .containingFormula,
    .comparisonFormula, .comparator, .individual, .xor, .or, .and, .negation, .restriction,
    .quantifier, .wordSome, .wordOnly, .atLeast, .atMost, .exactly, .wordMore, .wordLess,
    .wordExact, .wordEqual, .relation, .individualSet, .conceptAtom, .variable, .variableName,
    .variableType, .anaphora]

def label : Rule → String
  | .endOfInput => "EOI"
  | .integer => "integer"
  | .program => "program"
  | .definition => "definition"
  | .relationDeclaration => "relation_declaration"
  | .conceptDeclaration => "concept_declaration"
  | .individualDeclaration => "individual_declaration"
  | .declaredName => "declared_name"
  | .conceptTuple => "concept_tuple"
  | .mappingFormula => "mapping_formula"
  | .containingFormula => "containing_formula"
  | .comparisonFormula => "comparison_formula"
  | .comparator => "comparator"
  | .individual => "individual"
  | .xor => "xor"
  | .or => "or"
  | .and => "and"
  | .negation => "negation"
  | .restriction => "restriction"
  | .quantifier => "quantifier"
  | .wordSome => "some"
  | .wordOnly => "only"
  | .atLeast => "at_least"
  | .atMost => "at_most"
  | .exactly => "exactly"
  | .wordMore => "kw_more"
  | .wordLess => "kw_less"
  | .wordExact => "kw_exact"
  | .wordEqual => "kw_equal"
  | .relation => "relation"
  | .individualSet => "individual_set"
  | .conceptAtom => "concept_atom"
  | .variable => "variable"
  | .variableName => "variable_name"
  | .variableType => "variable_type"
  | .anaphora => "anaphora"

/-- The rules of a list, each once, in the order of the grammar. -/
def inOrder (rules : List Rule) : List Rule :=
  all.filter rules.contains

/-- A choice in words: `a`, `a or b`, `a, b, or c`. -/
def enumerate : List Rule → String
  | [] => ""
  | [r] => r.label
  | [r, s] => r.label ++ " or " ++ s.label
  | r :: rest => r.label ++ ", " ++ tail rest
where
  tail : List Rule → String
    | [] => ""
    | [r] => "or " ++ r.label
    | r :: rest => r.label ++ ", " ++ tail rest

end Rule

end ConceptLogic
