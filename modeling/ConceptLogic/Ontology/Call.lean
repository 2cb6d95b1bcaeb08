import ConceptLogic.Ontology.Reasoning

namespace ConceptLogic

/-- All that can be done with an ontology and asked of it. -/
inductive Call
  | createConcept (name : String) (bases : List ConceptId)
  | createIndividual (name : String) (type : ConceptId)
  | createRelation (name : String) (supers : List RelationId)
  | addIsA (e : Entity) (c : ConceptId)
  | addEquivalence (e : Entity) (c : ConceptId)
  | setSignature (r : RelationId) (domain range : ConceptId)
  | conjunction (cs : List ConceptId)
  | disjunction (cs : List ConceptId)
  | negation (c : ConceptId)
  | nominal (is : List IndividualId)
  | restriction (q : Quantifier) (r : RelationId) (c : ConceptId)
  | isSubsumedBy (c d : ConceptId)
  | isEquivalentTo (c d : ConceptId)
  | isInstanceOf (i : IndividualId) (c : ConceptId)
  deriving DecidableEq, Repr

/-- What comes back from a call that is not refused. -/
inductive Answer
  | done
  | concept (c : ConceptId)
  | individual (i : IndividualId)
  | relation (r : RelationId)
  | boolean (b : Bool)
  deriving DecidableEq, Repr

def Call.perform : Call → Building Answer
  | .createConcept name bases => .concept <$> Building.createConcept name bases
  | .createIndividual name type => .individual <$> Building.createIndividual name type
  | .createRelation name supers => .relation <$> Building.createRelation name supers
  | .addIsA e c => (fun _ => .done) <$> Building.addIsA e c
  | .addEquivalence e c => (fun _ => .done) <$> Building.addEquivalence e c
  | .setSignature r domain range => (fun _ => .done) <$> Building.setSignature r domain range
  | .conjunction cs => .concept <$> Building.conjunction cs
  | .disjunction cs => .concept <$> Building.disjunction cs
  | .negation c => .concept <$> Building.negation c
  | .nominal is => .concept <$> Building.nominal is
  | .restriction q r c => .concept <$> Building.restriction q r c
  | .isSubsumedBy c d => .boolean <$> Building.isSubsumedBy c d
  | .isEquivalentTo c d => .boolean <$> Building.isEquivalentTo c d
  | .isInstanceOf i c => .boolean <$> Building.isInstanceOf i c

end ConceptLogic
