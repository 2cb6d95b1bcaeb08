import ConceptLogic.Draft.Judgement
import ConceptLogic.Proofs.Grammar.NameMarks

namespace ConceptLogic

/-- Why no phrase comes of a tree: a name or a number in it is not admitted, or it is no tree that the
grammar has. -/
inductive Halt
  | flaw (flaw : Draft.Flaw)
  | unexpected (rule : Rule) (offset : Nat)
  | empty
  deriving DecidableEq, Repr

namespace Tree

def unexpected {α : Type} (t : Tree Rule) : Except Halt α :=
  .error (.unexpected t.rule t.offset)

/-- The next of the parts of a tree, if there is another. -/
def next (t : Tree Rule) : List (Tree Rule) → Except Halt (Tree Rule × List (Tree Rule))
  | [] => t.unexpected
  | p :: ps => .ok (p, ps)

def name (t : Tree Rule) : String := String.ofList t.text

/-! A phrase is put together from the text of a tree and from those of its parts that have a say, in
their order. -/

def atom (v : Vocabulary) (role : Role) (t : Tree Rule) : Except Halt String :=
  (v.vet role t.name).mapError fun e => .flaw (.name e)

def typedVariable (v : Vocabulary) (t : Tree Rule) : Except Halt Variable :=
  let (base, type) := t.parts.foldl (fun (base, type) part =>
    match part.rule with
    | .variableName => (part.name, type)
    | .variableType => (base, some part.name)
    | _ => (base, type)) ("", none)
  (Variable.vet v base type).mapError fun e => .flaw (.name e)

def count (t : Tree Rule) : Except Halt Nat :=
  match t.parts.find? (fun part => part.rule == .integer) with
  | none => t.unexpected
  | some part =>
    let n : Numeral := ⟨part.text, part.offset⟩
    if n.fits then .ok n.value else .error (.flaw (.cardinality n))

def quantifier (t : Tree Rule) : Except Halt Quantifier := do
  let (kind, _) ← t.next t.parts
  match kind.rule with
  | .wordSome => return .some
  | .wordOnly => return .only
  | .atLeast => return .count .atLeast (← kind.count)
  | .atMost => return .count .atMost (← kind.count)
  | .exactly => return .count .exactly (← kind.count)
  | _ => kind.unexpected

mutual

def concept (v : Vocabulary) : Tree Rule → Except Halt Phrase
  | .node .xor _ _ parts => do return Phrase.join .xor (← concepts v parts)
  | .node .or _ _ parts => do return Phrase.join .or (← concepts v parts)
  | .node .and _ _ parts => do return Phrase.join .and (← concepts v parts)
  | .node .negation text offset parts =>
    match parts with
    | [] => unexpected (.node .negation text offset [])
    | operand :: _ => do return .negation (← operand.concept v)
  | .node .restriction text offset parts =>
    match parts with
    | [] => unexpected (.node .restriction text offset parts)
    | q :: parts => do
      let q ← q.quantifier
      match parts with
      | [] => unexpected (.node .restriction text offset parts)
      | r :: parts => do
        let r ← r.atom v .relation
        match parts with
        | [] => unexpected (.node .restriction text offset parts)
        | operand :: _ => do return .restriction q (.relation r) (← operand.concept v)
  | .node .individualSet _ _ parts => do return .nominal (← parts.mapM (atom v .individual))
  | .node .variable text offset parts => do
    return .var (← typedVariable v (.node .variable text offset parts))
  | .node .anaphora _ _ _ => .ok .anaphora
  | .node .conceptAtom text offset parts => do
    return .concept (← atom v .concept (.node .conceptAtom text offset parts))
  | t => t.unexpected

def concepts (v : Vocabulary) : List (Tree Rule) → Except Halt (List Phrase)
  | [] => .ok []
  | t :: ts => do
    let p ← t.concept v
    return p :: (← concepts v ts)

end

def mapping (v : Vocabulary) (t : Tree Rule) : Except Halt (Phrase × Phrase) := do
  let (domain, rest) ← t.next t.parts
  let domain ← domain.concept v
  let (range, _) ← t.next rest
  return (domain, ← range.concept v)

def individualTerm (v : Vocabulary) (t : Tree Rule) : Except Halt Phrase :=
  match t.rule with
  | .individual => do return .individual (← t.atom v .individual)
  | .anaphora => .ok .anaphora
  | .variable => do return .var (← t.typedVariable v)
  | _ => t.unexpected

/-- Comparators and what stands behind each of them. -/
def links (v : Vocabulary) (t : Tree Rule) : List (Tree Rule) → Except Halt (List (String × Phrase))
  | [] => .ok []
  | [_] => t.unexpected
  | comparator :: operand :: rest => do
    let p ← operand.concept v
    return (comparator.name, p) :: (← t.links v rest)

def statement (v : Vocabulary) (t : Tree Rule) : Except Halt Phrase :=
  match t.rule with
  | .definition => do
    let (declared, rest) ← t.next t.parts
    let name ← declared.atom v .concept
    let (body, _) ← t.next rest
    return .define name (← body.concept v)
  | .relationDeclaration => do
    let (declared, rest) ← t.next t.parts
    let name ← declared.atom v .relation
    let (formula, _) ← t.next rest
    let (domain, range) ← formula.mapping v
    return .declareRelation name domain range
  | .conceptDeclaration => do
    let (declared, rest) ← t.next t.parts
    let name ← declared.atom v .concept
    let (tuple, _) ← t.next rest
    return .declareConcept name (← concepts v tuple.parts)
  | .individualDeclaration => do
    let (declared, rest) ← t.next t.parts
    let name ← declared.atom v .individual
    let (tuple, _) ← t.next rest
    return .declareIndividual name (← concepts v tuple.parts)
  | .containingFormula => do
    let (subject, rest) ← t.next t.parts
    let subject ← subject.individualTerm v
    let (body, _) ← t.next rest
    return .membership subject (← body.concept v)
  | .comparisonFormula => do
    let (first, rest) ← t.next t.parts
    let first ← first.concept v
    return .compare first (← t.links v rest)
  | _ => t.concept v

/-- The statements of a program, up to the end of its text. -/
def statements (v : Vocabulary) : List (Tree Rule) → Except Halt (List Phrase)
  | [] => .ok []
  | t :: ts =>
    if t.rule = .endOfInput then .ok []
    else do
      let p ← t.statement v
      return p :: (← statements v ts)

/-- The program of the first of some trees. -/
def assemble (v : Vocabulary) : List (Tree Rule) → Except Halt Phrase
  | [] => .error .empty
  | t :: _ => do return .program (← statements v t.parts)

end Tree

end ConceptLogic
