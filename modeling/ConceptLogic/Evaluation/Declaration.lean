import ConceptLogic.Evaluation

namespace ConceptLogic.Evaluation

/-! Declarations. Each evaluates its right-hand side, given here as `rhs`, makes
a new thing, tells what is left to tell, and only then binds the name. -/

def declareIndividual (name : String) (rhs : Evaluation (List Value × List Value))
    (default : ConceptId) : Evaluation Unit := do
  assignable name
  let (bases, others) ← rhs
  let bases ← require (bases.mapM Value.asConcept)
  let others ← require (others.mapM Value.asConcept)
  let i ← building (Building.createIndividual name (bases.headD default))
  building ((bases.tail ++ others).forM (Building.addIsA (.individual i)))
  bind name (.individual i)

/-- A right-hand side of nothing but relation names declares a relation. -/
def declaresRelation (bases others : List Value) : Bool :=
  !bases.isEmpty && others.isEmpty && bases.all fun
    | .relation _ => true
    | _ => false

def declareConcept (name : String) (rhs : Evaluation (List Value × List Value))
    (default : ConceptId) : Evaluation Unit := do
  assignable name
  let (bases, others) ← rhs
  if declaresRelation bases others then
    let supers ← require (bases.mapM Value.asRelation)
    let r ← building (Building.createRelation name supers)
    bind name (.relation r)
  else
    let bases ← require (bases.mapM Value.asConcept)
    let others ← require (others.mapM Value.asConcept)
    let c ← building (Building.createConcept name (if bases.isEmpty then [default] else bases))
    building (others.forM (Building.addIsA (.concept c)))
    bind name (.concept c)

def declareRelation (name : String) (rhs : Evaluation (ConceptId × ConceptId)) :
    Evaluation Unit := do
  assignable name
  let (domain, range) ← rhs
  let r ← building (Building.createRelation name [])
  building (Building.setSignature r domain range)
  bind name (.relation r)

def define (name : String) (rhs : Evaluation ConceptId) (default : ConceptId) :
    Evaluation Unit := do
  assignable name
  let body ← rhs
  let c ← building (Building.createConcept name [default])
  building (Building.addEquivalence (.concept c) body)
  bind name (.concept c)

end ConceptLogic.Evaluation
