import ConceptLogic.Ontology.Text

namespace ConceptLogic

/-- Work on an ontology that can be refused. What was done before a refusal
stays done. -/
abbrev Building := EStateM Fault Ontology

namespace Building

/-- Gives a new thing the next number. -/
def add (entry : Entry) : Building Nat :=
  modifyGet fun o => (o.size + 1, ⟨o.entries.push entry⟩)

def change (id : Nat) (f : Entry → Entry) : Building Unit :=
  modify fun o => ⟨o.entries.modify (id - 1) f⟩

/-- Every expression has one concept, which is made the first time. -/
def keep (e : Expression) : Building ConceptId := do
  match (← get).conceptOf? e with
  | some c => return c
  | none => return ⟨← add (.concept e [] [])⟩

def requireFresh (name : String) : Building Unit := do
  let o ← get
  if (o.conceptNamed? name).isSome || (o.individualNamed? name).isSome ||
      (o.relationNamed? name).isSome then
    throw (.alreadyExists name)

def requireConcept (c : ConceptId) : Building Unit := do
  if ((← get).expression? c).isNone then throw (.unknownConcept c)

def requireIndividual (i : IndividualId) : Building Unit := do
  if ((← get).individualName? i).isNone then throw (.unknownIndividual i)

def requireRelation (r : RelationId) : Building Unit := do
  if ((← get).relationName? r).isNone then throw (.unknownRelation r)

/-- A named concept is a part of its bases, or of everything if it has none. -/
def createConcept (name : String) (bases : List ConceptId) : Building ConceptId := do
  requireFresh name
  bases.forM requireConcept
  return ⟨← add (.concept (.named name) (if bases.isEmpty then [Ontology.top] else bases) [])⟩

def createIndividual (name : String) (type : ConceptId) : Building IndividualId := do
  requireFresh name
  requireConcept type
  return ⟨← add (.individual name [type])⟩

def createRelation (name : String) (supers : List RelationId) : Building RelationId := do
  requireFresh name
  supers.forM requireRelation
  return ⟨← add (.relation name supers none)⟩

/-- Tells that a concept or an individual falls under a concept. -/
def addIsA (e : Entity) (c : ConceptId) : Building Unit := do
  requireConcept c
  match e with
  | .concept d =>
    requireConcept d
    change d.id (.tellIsA c)
  | .individual i =>
    requireIndividual i
    change i.id (.tellIsA c)
  | .relation _ => throw .relationUnderConcept

/-- Tells that two concepts are the same, to both of them. -/
def addEquivalence (e : Entity) (c : ConceptId) : Building Unit := do
  requireConcept c
  match e with
  | .concept d =>
    requireConcept d
    change d.id (.tellEquivalent c)
    change c.id (.tellEquivalent d)
  | _ => throw (.conceptsOnly ((← get).conceptText c))

def setSignature (r : RelationId) (domain range : ConceptId) : Building Unit := do
  requireRelation r
  requireConcept domain
  requireConcept range
  change r.id (.sign (domain, range))

/-- The parts of a concept under a connective: its own operands if it is made
by that connective, else itself. -/
def parts (operands? : Expression → Option (List ConceptId)) (c : ConceptId) :
    Building (List ConceptId) := do
  match (← get).expression? c with
  | none => throw (.unknownConcept c)
  | some e => return (operands? e).getD [c]

/-- Joins concepts by a connective. Order and repetition do not count, and a
single part is the whole. -/
def connect (operands? : Expression → Option (List ConceptId))
    (make : List ConceptId → Expression) (cs : List ConceptId) : Building ConceptId := do
  let all ← cs.mapM (parts operands?)
  match Handle.sorted all.flatten with
  | [] => throw .noOperand
  | [c] => return c
  | cs => keep (make cs)

def conjunction : List ConceptId → Building ConceptId :=
  connect (fun | .conjunction cs => some cs | _ => none) .conjunction

def disjunction : List ConceptId → Building ConceptId :=
  connect (fun | .disjunction cs => some cs | _ => none) .disjunction

/-- The negation of a negation is what was negated. -/
def negation (c : ConceptId) : Building ConceptId := do
  match (← get).expression? c with
  | none => throw (.unknownConcept c)
  | some (.negation x) => return x
  | some _ => keep (.negation c)

/-- The concept of the given individuals and no others. -/
def nominal (is : List IndividualId) : Building ConceptId := do
  is.forM requireIndividual
  keep (.nominal (Handle.sorted is))

def restriction (q : Quantifier) (r : RelationId) (c : ConceptId) : Building ConceptId := do
  requireRelation r
  requireConcept c
  keep (.restriction q r c)

end Building

end ConceptLogic
