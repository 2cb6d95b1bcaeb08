import ConceptLogic.Handle

namespace ConceptLogic

/-- Why an ontology refuses a call. -/
inductive Fault
  | alreadyExists (name : String)
  | unknownConcept (c : ConceptId)
  | unknownIndividual (i : IndividualId)
  | unknownRelation (r : RelationId)
  | noOperand
  | relationUnderConcept
  | conceptsOnly (rendered : String)
  deriving DecidableEq, Repr

def Fault.message : Fault → String
  | .alreadyExists name => "`" ++ name ++ "` already exists"
  | .unknownConcept c => "unknown class #" ++ toString c.id
  | .unknownIndividual i => "unknown individual #" ++ toString i.id
  | .unknownRelation r => "unknown relation #" ++ toString r.id
  | .noOperand => "a connective needs at least one operand"
  | .relationUnderConcept => "a relation cannot specialise a concept"
  | .conceptsOnly rendered => "only concepts can be equivalent to " ++ rendered

end ConceptLogic
