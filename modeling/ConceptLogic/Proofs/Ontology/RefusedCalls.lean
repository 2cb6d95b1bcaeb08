import ConceptLogic.Proofs.Ontology.NamedThings
import ConceptLogic.Proofs.Reasoning.Distribution

namespace ConceptLogic

namespace Ontology

variable {o : Ontology} {name : String}

end Ontology

namespace Call

/-- The name that a call gives to a new thing. -/
@[simp] def names? : Call → Option String
  | .createConcept name _ | .createIndividual name _ | .createRelation name _ => some name
  | _ => none

/-- Everything that a call is given, be it known or not. -/
@[simp] def given : Call → List Entity
  | .createConcept _ bases => bases.map .concept
  | .createIndividual _ type => [.concept type]
  | .createRelation _ supers => supers.map .relation
  | .addIsA e c | .addEquivalence e c => [.concept c, e]
  | .setSignature r domain range => [.relation r, .concept domain, .concept range]
  | .conjunction cs | .disjunction cs => cs.map .concept
  | .negation c => [.concept c]
  | .nominal is => is.map .individual
  | .restriction _ r c => [.relation r, .concept c]
  | .isSubsumedBy c d | .isEquivalentTo c d => [.concept c, .concept d]
  | .isInstanceOf i c => [.individual i, .concept c]

/-- A call that no ontology takes: a connective that joins nothing, a relation that is told to fall
under a concept, and anything else than a concept that is told to be the same as one. -/
@[simp] def Misplaced : Call → Prop
  | .conjunction cs | .disjunction cs => cs = []
  | .addIsA e _ => ∃ r, e = .relation r
  | .addEquivalence e _ => ∀ d, e ≠ .concept d
  | _ => False

/-- What an ontology asks of a call: that its name is free, that all it is given is known, and that
it is in place. -/
structure Admitted (o : Ontology) (call : Call) : Prop where
  free : ∀ name ∈ call.names?, o.Fresh name
  known : ∀ x ∈ call.given, o.Knows x
  placed : ¬call.Misplaced

section

open Building

variable {o : Ontology}

end

end Call

end ConceptLogic
