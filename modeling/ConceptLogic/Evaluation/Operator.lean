import ConceptLogic.Evaluation
import ConceptLogic.Ontology.Reasoning

namespace ConceptLogic

open Evaluation

namespace Operator

def wrongCount (op : Operator) (expected found : Nat) : Error :=
  .typeMismatch (.count op expected found)

/-- What holds of one of two concepts, but not of both. -/
def either (c d : ConceptId) : Building ConceptId := do
  let notD ← Building.negation d
  let notC ← Building.negation c
  let left ← Building.conjunction [c, notD]
  let right ← Building.conjunction [notC, d]
  Building.disjunction [left, right]

/-- Whether a comparison holds; no other operator compares. -/
def compares (op : Operator) (c d : ConceptId) : Building Bool :=
  match op with
  | .subsumedBy => Building.isSubsumedBy c d
  | .subsumes => Building.isSubsumedBy d c
  | .strictlySubsumedBy => do
    if ← Building.isSubsumedBy c d then return !(← Building.isEquivalentTo c d)
    else return false
  | .strictlySubsumes => do
    if ← Building.isSubsumedBy d c then return !(← Building.isEquivalentTo c d)
    else return false
  | .equivalentTo => Building.isEquivalentTo c d
  | _ => return false

/-- Applies an operator to values. -/
def apply (op : Operator) (args : List Value) : Evaluation Value :=
  match op with
  | .conjunction => do
    let cs ← require (args.mapM Value.asConcept)
    return .concept (← building (Building.conjunction cs))
  | .disjunction => do
    let cs ← require (args.mapM Value.asConcept)
    return .concept (← building (Building.disjunction cs))
  | .exclusiveDisjunction => do
    match ← require (args.mapM Value.asConcept) with
    | [] => throw (op.wrongCount 1 0)
    | c :: cs => return .concept (← building (cs.foldlM either c))
  | .negation =>
    match args with
    | [v] => do
      let c ← require v.asConcept
      return .concept (← building (Building.negation c))
    | _ => throw (op.wrongCount 1 args.length)
  | _ =>
    match args with
    | [v, w] => do
      let c ← require v.asConcept
      let d ← require w.asConcept
      return .boolean (← building (op.compares c d))
    | _ => throw (op.wrongCount 2 args.length)

end Operator

end ConceptLogic
