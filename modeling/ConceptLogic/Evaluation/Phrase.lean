import ConceptLogic.Evaluation.Declaration
import ConceptLogic.Evaluation.Operator

namespace ConceptLogic

open Evaluation

/-- A tuple's values, those that stand for single names first. -/
def Phrase.split : List Phrase → List Value → List Value × List Value
  | p :: ps, v :: vs =>
    let (bases, others) := Phrase.split ps vs
    if p.isConcept then (v :: bases, others) else (bases, v :: others)
  | _, _ => ([], [])

namespace Evaluation

/-- What is bound to a variable has to be of the variable's type. -/
def checkType (x : Variable) (v : Value) : Evaluation Unit := do
  match x.type with
  | none => return
  | some type =>
    let c ← require (← lookup type).asConcept
    let fits ← match x.role with
      | .individual => do
        let i ← require v.asIndividual
        building (Building.isInstanceOf i c)
      | _ => do
        let d ← require v.asConcept
        building (Building.isSubsumedBy d c)
    unless fits do
      throw (.typeMismatch (.ofType x.role type (v.text (← get).ontology)))

/-- A variable stands for what it is bound to, and waits if it is not bound. -/
def variableValue (x : Variable) : Evaluation Value := do
  let env := (← get).env
  if env.knows x.name then
    let v ← lookup x.name
    checkType x v
    return v
  else
    return .deferred x (.var x) env

def individualNamed (name : String) : Evaluation IndividualId := do
  require (← lookup name).asIndividual

/-- Tests neighbours in a chain until one test fails. -/
def compareNeighbours : List String → List Value → Evaluation Bool
  | token :: tokens, v :: w :: rest => do
    let op ← resolve token
    let holds ← require (← op.apply [v, w]).asBoolean
    if holds then compareNeighbours tokens (w :: rest) else return false
  | _, _ => return true

end Evaluation

namespace Phrase

mutual

/-- The value of a phrase. A phrase whose parts wait for a variable waits too. -/
def eval : Phrase → Evaluation Value
  | .concept name | .individual name | .relation name => lookup name
  | .nominal names => do
    let is ← names.mapM individualNamed
    return .concept (← building (Building.nominal is))
  | .var x => variableValue x
  | .anaphora => lookup anaphoraName
  | .negation p => do
    let op ← resolve Operator.negation.token
    match ← p.eval with
    | .deferred x _ env => return .deferred x (.negation p) env
    | v => op.apply [v]
  | .restriction q r p => do
    let relation ← require (← r.eval).asRelation
    match ← p.eval with
    | .deferred x _ env => return .deferred x (.restriction q r p) env
    | v =>
      let c ← require v.asConcept
      return .concept (← building (Building.restriction q relation c))
  | .junction kind ps => do
    let op ← resolve kind.token
    let vs ← evalAll ps
    match Value.pending? vs with
    | some (x, env) => return .deferred x (join kind ps) env
    | none => op.apply vs
  | .tuple ps => do
    let (bases, others) := Phrase.split ps (← evalAll ps)
    return .tuple bases others
  | .declareIndividual name ps => do
    Evaluation.declareIndividual name (Phrase.split ps <$> evalAll ps) Ontology.top
    return .nothing
  | .declareConcept name ps => do
    Evaluation.declareConcept name (Phrase.split ps <$> evalAll ps) Ontology.top
    return .nothing
  | .declareRelation name p q => do
    Evaluation.declareRelation name (do
      let domain ← require (← p.eval).asConcept
      return (domain, ← require (← q.eval).asConcept))
    return .nothing
  | .define name p => do
    Evaluation.define name (do require (← p.eval).asConcept) Ontology.top
    return .nothing
  | .membership p q => do
    let v ← p.eval
    let w ← q.eval
    match Value.pending? [v, w] with
    | some (x, env) => return .deferred x (.membership p q) env
    | none =>
      let i ← require v.asIndividual
      let c ← require w.asConcept
      return .boolean (← building (Building.isInstanceOf i c))
  | .comparison ps comparators => do
    let vs ← evalAll ps
    match Value.pending? vs with
    | some (x, env) => return .deferred x (.comparison ps comparators) env
    | none => return .boolean (← compareNeighbours comparators vs)
  | .mapping p q => do
    let domain ← require (← p.eval).asConcept
    return .mapping domain (← require (← q.eval).asConcept)
  | .program ps => do
    return (← evalAll ps).getLastD .nothing

def evalAll : List Phrase → Evaluation (List Value)
  | [] => return []
  | p :: ps => do
    let v ← p.eval
    return v :: (← evalAll ps)

end

def evalConcept (p : Phrase) : Evaluation ConceptId := do
  require (← p.eval).asConcept

/-- The domain and the range of a mapping. -/
def evalMapping (p q : Phrase) : Evaluation (ConceptId × ConceptId) := do
  let domain ← evalConcept p
  return (domain, ← evalConcept q)

/-- A declaration as a piece of work, given the concept that stands in where it
names none. Other phrases declare nothing. -/
def create? (default : ConceptId) : Phrase → Option (Evaluation Unit)
  | .declareIndividual name ps =>
    some (Evaluation.declareIndividual name (Phrase.split ps <$> evalAll ps) default)
  | .declareConcept name ps =>
    some (Evaluation.declareConcept name (Phrase.split ps <$> evalAll ps) default)
  | .declareRelation name p q => some (Evaluation.declareRelation name (evalMapping p q))
  | .define name p => some (Evaluation.define name (evalConcept p) default)
  | _ => none

/-- The right-hand side of a declaration, evaluated by itself. -/
def rightSide? : Phrase → Option (Evaluation Value)
  | .declareIndividual _ ps | .declareConcept _ ps => some (eval (.tuple ps))
  | .declareRelation _ p q => some (eval (.mapping p q))
  | .define _ p => some p.eval
  | _ => none

end Phrase

/-- Gives a deferred value what it waits for. Its body is evaluated where the
value was made, with the variable bound there. -/
def Value.resume (x : Variable) (body : Phrase) (env : Environment) (v : Value) :
    Evaluation Value := do
  let env ← require (env.bind x.name v)
  within env body.eval

end ConceptLogic
