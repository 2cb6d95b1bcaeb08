import ConceptLogic.Draft
import ConceptLogic.Pattern

namespace ConceptLogic

/-- What each rule of the grammar reads. -/
@[reducible] def Rule.Value : Rule → Type
  | .endOfInput => Unit
  | .integer => Numeral
  | .program => List Draft.Statement
  | .definition => Draft.Statement
  | .relationDeclaration => Draft.Statement
  | .conceptDeclaration => Draft.Statement
  | .individualDeclaration => Draft.Statement
  | .declaredName => String
  | .conceptTuple => List Draft.Concept
  | .mappingFormula => Draft.Concept × Draft.Concept
  | .containingFormula => Draft.Statement
  | .comparisonFormula => Draft.Statement
  | .comparator => String
  | .individual => String
  | .xor => Draft.Concept
  | .or => Draft.Concept
  | .and => Draft.Concept
  | .negation => Draft.Concept
  | .restriction => Draft.Concept
  | .quantifier => Draft.Quantifier
  | .wordSome => Unit
  | .wordOnly => Unit
  | .atLeast => Numeral
  | .atMost => Numeral
  | .exactly => Numeral
  | .wordMore => Unit
  | .wordLess => Unit
  | .wordExact => Unit
  | .wordEqual => Unit
  | .relation => String
  | .individualSet => List String
  | .conceptAtom => String
  | .variable => String × Option String
  | .variableName => String
  | .variableType => String
  | .anaphora => Unit

namespace Grammar

open Pattern

/-- Patterns over the rules of the grammar. -/
abbrev Form (α : Type) := Pattern Rule.Value α

/-- What a rule reads, as a part of something larger. -/
abbrev nested (r : Rule) : Form r.Value := Pattern.rule r

/-- Underscores, a letter, and then any name characters. -/
def identifier : Form String :=
  seq (fun marks name => String.ofList (marks ++ name)) (star (char (· == '_')))
    (seq List.cons (char Char.isAlpha) (star (char isNameChar)))

/-- A concept that needs no parentheses wherever it stands, or one in them. -/
def primary : Form Draft.Concept :=
  choice (before (literal ['(']) (spaced (fun c _ => c) (nested .xor) (literal [')']))) <|
  choice (map .nominal (nested .individualSet)) <|
  choice (map (fun x => .var x.1 x.2) (nested .variable)) <|
  choice (map (fun _ => .anaphora) (nested .anaphora)) <|
  map .atom (nested .conceptAtom)

def unary : Form Draft.Concept :=
  choice (nested .negation) (choice (nested .restriction) primary)

/-- Operands with a sign between them. -/
def chain (kind : Connective) (sign : List Char) (operand : Form Draft.Concept) :
    Form Draft.Concept :=
  spaced (Draft.Concept.chain kind) operand (many (before (literal sign) operand))

def declaration : Form Draft.Statement :=
  before (literal ['!']) <|
  choice (nested .definition) <|
  choice (nested .relationDeclaration) <|
  choice (nested .conceptDeclaration) (nested .individualDeclaration)

def subject : Form Draft.Subject :=
  choice (map (fun _ => .anaphora) (nested .anaphora)) <|
  choice (map (fun x => .var x.1 x.2) (nested .variable)) <|
  map .individual (nested .individual)

def statement : Form Draft.Statement :=
  choice declaration <|
  choice (nested .containingFormula) <|
  choice (nested .comparisonFormula) (map .concept (nested .xor))

/-- One of the comparators, each as it is written. -/
def sign (word : List Char) : Form String :=
  map (fun _ => String.ofList word) (literal word)

/-- The pattern of each rule. Keywords are tried before the names they begin, and
a sign before the signs that it begins with. -/
def body : (r : Rule) → Form r.Value
  | .endOfInput => atEnd
  | .integer =>
    seq (fun offset digits => ⟨digits, offset⟩) here
      (seq List.cons (char Char.isDigit) (star (char Char.isDigit)))
  | .program =>
    before gap <|
    spaced (fun first rest => (first :: rest).reduceOption) (opt statement) <|
    spaced (fun rest _ => rest) (many (before (literal [';']) (opt statement))) (nested .endOfInput)
  | .definition => spaced .define (nested .declaredName) (before (literal [':', '=']) (nested .xor))
  | .relationDeclaration =>
    spaced (fun name m => .declareRelation name m.1 m.2) (nested .declaredName)
      (before (literal [':', ':']) (nested .mappingFormula))
  | .conceptDeclaration =>
    spaced .declareConcept (nested .declaredName)
      (before (literal [':', ':']) (nested .conceptTuple))
  | .individualDeclaration =>
    spaced .declareIndividual (nested .declaredName) (before (literal [':']) (nested .conceptTuple))
  | .declaredName => identifier
  | .conceptTuple => spaced List.cons (nested .xor) (many (before (literal [',']) (nested .xor)))
  | .mappingFormula => spaced Prod.mk (nested .xor) (before (literal ['-', '>']) (nested .xor))
  | .containingFormula =>
    spaced .membership subject <|
    before (literal [':']) <|
    before (notNext (fun c => c == ':' || c == '=')) (nested .xor)
  | .comparisonFormula =>
    spaced (fun first (links : (String × Draft.Concept) × List (String × Draft.Concept)) =>
      .comparison first (links.1 :: links.2)) (nested .xor) <|
    spaced Prod.mk (spaced Prod.mk (nested .comparator) (nested .xor))
      (many (spaced Prod.mk (nested .comparator) (nested .xor)))
  | .comparator =>
    choice (sign ['<', '=']) <|
    choice (sign ['>', '=']) <|
    choice (sign ['=', '>']) <|
    choice (sign ['=', '=']) <|
    choice (sign ['<']) (sign ['>'])
  | .individual => identifier
  | .xor => chain .xor ['^'] (nested .or)
  | .or => chain .or ['|'] (nested .and)
  | .and => chain .and ['&'] unary
  | .negation => before (literal ['~']) (map .negation unary)
  | .restriction =>
    spaced (fun q (rest : String × Draft.Concept) => .restriction q rest.1 rest.2)
      (nested .quantifier) <|
    spaced Prod.mk (nested .relation) (before (literal ['.']) unary)
  | .quantifier =>
    choice (map (fun _ => .some) (nested .wordSome)) <|
    choice (map (fun _ => .only) (nested .wordOnly)) <|
    choice (map (.count .atLeast) (nested .atLeast)) <|
    choice (map (.count .atMost) (nested .atMost)) (map (.count .exactly) (nested .exactly))
  | .wordSome => keyword ['s', 'o', 'm', 'e'] isNameChar
  | .wordOnly => keyword ['o', 'n', 'l', 'y'] isNameChar
  | .atLeast => before (nested .wordMore) (nested .integer)
  | .atMost => before (nested .wordLess) (nested .integer)
  | .exactly => before (choice (nested .wordExact) (nested .wordEqual)) (nested .integer)
  | .wordMore => keyword ['m', 'o', 'r', 'e'] isNameChar
  | .wordLess => keyword ['l', 'e', 's', 's'] isNameChar
  | .wordExact => keyword ['e', 'x', 'a', 'c', 't'] isNameChar
  | .wordEqual => keyword ['e', 'q', 'u', 'a', 'l'] isNameChar
  | .relation => identifier
  | .individualSet =>
    before (literal ['\x7b']) <|
    spaced (fun first (rest : List String) => first :: rest) (nested .individual) <|
    spaced (fun rest _ => rest) (many (before (literal [',']) (nested .individual)))
      (literal ['\x7d'])
  | .conceptAtom => identifier
  | .variable =>
    seq (fun _ x => x) (literal ['$']) <|
    seq Prod.mk (nested .variableName) <|
    opt (seq (fun _ type => type) (literal [':']) (nested .variableType))
  | .variableName => identifier
  | .variableType => identifier
  | .anaphora => literal ['@']

/-- Reads a program. No rule stands inside itself without a character between,
so at each place the rules inside one another are all different. -/
def read (text : List Char) : Reply Rule (List Draft.Statement) :=
  matchRule body (Rule.all.length * (text.length + 1)) .program (Cursor.ofText text) Trace.start

end Grammar

end ConceptLogic
