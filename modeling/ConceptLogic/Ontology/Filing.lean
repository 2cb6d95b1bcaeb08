import ConceptLogic.Ontology.Call
import ConceptLogic.Ontology.Tables

namespace ConceptLogic

/-- Work on the tables of an ontology that can be refused. What was done before a
refusal stays done. -/
abbrev Filing := EStateM Fault Tables

namespace Filing

/-- A number that nothing has yet. -/
def generate : Filing Nat :=
  modifyGet fun t => (t.bound + 1, { t with bound := t.bound + 1 })

/-- Every expression is filed once, under the next number. -/
def keep (e : Expression) : Filing ConceptId := do
  match (← get).conceptOf? e with
  | some c => return c
  | none =>
    let c : ConceptId := ⟨← generate⟩
    modify fun t => { t with concepts := t.concepts.insert e c }
    return c

/-- Changes what a concept was told. The table has a line for it from then on. -/
def tell (c : ConceptId) (f : Edges → Edges) : Filing Unit :=
  modify fun t => { t with edges := t.edges.insert c (f (t.told c)) }

def tellIsA (c : ConceptId) (parents : List ConceptId) : Filing Unit :=
  tell c fun edges => { edges with isA := edges.isA ++ parents }

def tellEquivalent (c d : ConceptId) : Filing Unit :=
  tell c fun edges => { edges with equivalentTo := edges.equivalentTo ++ [d] }

def requireFresh (name : String) : Filing Unit := do
  let t ← get
  if (t.conceptOf? (.named name)).isSome || (t.individualNamed? name).isSome ||
      (t.relationNamed? name).isSome then
    throw (.alreadyExists name)

def requireConcept (c : ConceptId) : Filing Unit := do
  if ((← get).expression? c).isNone then throw (.unknownConcept c)

def requireIndividual (i : IndividualId) : Filing Unit := do
  if ((← get).individualName? i).isNone then throw (.unknownIndividual i)

def requireRelation (r : RelationId) : Filing Unit := do
  if ((← get).relationName? r).isNone then throw (.unknownRelation r)

def createConcept (name : String) (bases : List ConceptId) : Filing ConceptId := do
  requireFresh name
  bases.forM requireConcept
  let c ← keep (.named name)
  let top := (← get).top
  tellIsA c (if bases.isEmpty then [top] else bases)
  return c

def createIndividual (name : String) (type : ConceptId) : Filing IndividualId := do
  requireFresh name
  requireConcept type
  let i : IndividualId := ⟨← generate⟩
  modify fun t => { t with individuals := t.individuals.insert name i }
  modify fun t => { t with typesOf := t.typesOf.insert i [type] }
  return i

def createRelation (name : String) (supers : List RelationId) : Filing RelationId := do
  requireFresh name
  supers.forM requireRelation
  let r : RelationId := ⟨← generate⟩
  modify fun t => { t with relations := t.relations.insert name r }
  modify fun t => { t with supersOf := t.supersOf.insert r supers }
  return r

def addIsA (e : Entity) (c : ConceptId) : Filing Unit := do
  requireConcept c
  match e with
  | .concept d =>
    requireConcept d
    tellIsA d [c]
  | .individual i =>
    requireIndividual i
    modify fun t => { t with typesOf := t.typesOf.insert i (t.types i ++ [c]) }
  | .relation _ => throw .relationUnderConcept

def addEquivalence (e : Entity) (c : ConceptId) : Filing Unit := do
  requireConcept c
  match e with
  | .concept d =>
    requireConcept d
    tellEquivalent d c
    tellEquivalent c d
  | _ => throw (.conceptsOnly ((← get).shown.conceptText c))

def setSignature (r : RelationId) (domain range : ConceptId) : Filing Unit := do
  requireRelation r
  requireConcept domain
  requireConcept range
  modify fun t => { t with signatureOf := t.signatureOf.insert r (domain, range) }

def parts (operands? : Expression → Option (List ConceptId)) (c : ConceptId) :
    Filing (List ConceptId) := do
  match (← get).expression? c with
  | none => throw (.unknownConcept c)
  | some e => return (operands? e).getD [c]

def connect (operands? : Expression → Option (List ConceptId))
    (make : List ConceptId → Expression) (cs : List ConceptId) : Filing ConceptId := do
  let all ← cs.mapM (parts operands?)
  match Handle.sorted all.flatten with
  | [] => throw .noOperand
  | [c] => return c
  | cs => keep (make cs)

def conjunction : List ConceptId → Filing ConceptId :=
  connect (fun | .conjunction cs => some cs | _ => none) .conjunction

def disjunction : List ConceptId → Filing ConceptId :=
  connect (fun | .disjunction cs => some cs | _ => none) .disjunction

def negation (c : ConceptId) : Filing ConceptId := do
  match (← get).expression? c with
  | none => throw (.unknownConcept c)
  | some (.negation x) => return x
  | some _ => keep (.negation c)

def nominal (is : List IndividualId) : Filing ConceptId := do
  is.forM requireIndividual
  keep (.nominal (Handle.sorted is))

def restriction (q : Quantifier) (r : RelationId) (c : ConceptId) : Filing ConceptId := do
  requireRelation r
  requireConcept c
  keep (.restriction q r c)

/-- Reasoning reads no more of the tables than what they show. -/
def isSubsumedBy (c d : ConceptId) : Filing Bool := do
  requireConcept c
  requireConcept d
  return (← get).shown.answer (.subsumed c d)

def isEquivalentTo (c d : ConceptId) : Filing Bool := do
  if ← isSubsumedBy c d then isSubsumedBy d c else return false

def isInstanceOf (i : IndividualId) (c : ConceptId) : Filing Bool := do
  requireIndividual i
  requireConcept c
  return (← get).shown.answer (.member i c)

end Filing

/-- A call, carried out on the tables. -/
def Call.file : Call → Filing Answer
  | .createConcept name bases => .concept <$> Filing.createConcept name bases
  | .createIndividual name type => .individual <$> Filing.createIndividual name type
  | .createRelation name supers => .relation <$> Filing.createRelation name supers
  | .addIsA e c => (fun _ => .done) <$> Filing.addIsA e c
  | .addEquivalence e c => (fun _ => .done) <$> Filing.addEquivalence e c
  | .setSignature r domain range => (fun _ => .done) <$> Filing.setSignature r domain range
  | .conjunction cs => .concept <$> Filing.conjunction cs
  | .disjunction cs => .concept <$> Filing.disjunction cs
  | .negation c => .concept <$> Filing.negation c
  | .nominal is => .concept <$> Filing.nominal is
  | .restriction q r c => .concept <$> Filing.restriction q r c
  | .isSubsumedBy c d => .boolean <$> Filing.isSubsumedBy c d
  | .isEquivalentTo c d => .boolean <$> Filing.isEquivalentTo c d
  | .isInstanceOf i c => .boolean <$> Filing.isInstanceOf i c

/-- The tables after a call, be it refused or not. -/
def Tables.after (t : Tables) (call : Call) : Tables :=
  match call.file.run t with
  | .ok _ t' => t'
  | .error _ t' => t'

def Tables.afterAll (t : Tables) (calls : List Call) : Tables :=
  calls.foldl Tables.after t

end ConceptLogic
