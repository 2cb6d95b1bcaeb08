import ConceptLogic.Draft

namespace ConceptLogic.Draft

/-- What can be wrong with a draft: a name that is not admitted where it stands,
or a cardinality that is too large. -/
inductive Flaw
  | name (error : Error)
  | cardinality (n : Numeral)
  deriving DecidableEq, Repr

/-- The error that a flaw in the draft of a text amounts to. -/
def Flaw.error (text : List Char) : Flaw → Error
  | .name error => error
  | .cardinality n =>
    .unreadable (.cardinality (String.ofList n.digits)) (Position.of text n.offset)

/-- Admits a name in a role. -/
def name (v : Vocabulary) (role : Role) (name : String) : Except Flaw String :=
  (v.vet role name).mapError .name

def typedVariable (v : Vocabulary) (base : String) (type : Option String) : Except Flaw Variable :=
  (Variable.vet v base type).mapError .name

/-! Judging follows the order of the text, and the first flaw is the one found. -/

def Quantifier.judge : Quantifier → Except Flaw ConceptLogic.Quantifier
  | .some => .ok .some
  | .only => .ok .only
  | .count bound n => if n.fits then .ok (.count bound n.value) else .error (.cardinality n)

mutual

def Concept.judge (v : Vocabulary) : Concept → Except Flaw Phrase
  | .atom n => do return .concept (← name v .concept n)
  | .nominal ns => do return .nominal (← ns.mapM (name v .individual))
  | .var base type => do return .var (← typedVariable v base type)
  | .anaphora => .ok .anaphora
  | .negation c => do return .negation (← c.judge v)
  | .restriction q r c => do
    let q ← q.judge
    let r ← name v .relation r
    return .restriction q (.relation r) (← c.judge v)
  | .junction kind cs => do return Phrase.join kind (← judgeAll v cs)

def judgeAll (v : Vocabulary) : List Concept → Except Flaw (List Phrase)
  | [] => .ok []
  | c :: cs => do
    let p ← c.judge v
    return p :: (← judgeAll v cs)

end

def Subject.judge (v : Vocabulary) : Subject → Except Flaw Phrase
  | .individual n => do return .individual (← name v .individual n)
  | .var base type => do return .var (← typedVariable v base type)
  | .anaphora => .ok .anaphora

def Statement.judge (v : Vocabulary) : Statement → Except Flaw Phrase
  | .concept c => c.judge v
  | .define n c => do
    let n ← name v .concept n
    return .define n (← c.judge v)
  | .declareRelation n domain range => do
    let n ← name v .relation n
    let domain ← domain.judge v
    return .declareRelation n domain (← range.judge v)
  | .declareConcept n cs => do
    let n ← name v .concept n
    return .declareConcept n (← judgeAll v cs)
  | .declareIndividual n cs => do
    let n ← name v .individual n
    return .declareIndividual n (← judgeAll v cs)
  | .membership s c => do
    let s ← s.judge v
    return .membership s (← c.judge v)
  | .comparison first links => do
    let first ← first.judge v
    let operands ← judgeAll v (links.map Prod.snd)
    return Phrase.comparison (first :: operands) (links.map Prod.fst)

end ConceptLogic.Draft
