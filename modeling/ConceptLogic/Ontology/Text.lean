import ConceptLogic.Ontology
import ConceptLogic.Phrase.Text

namespace ConceptLogic.Ontology

/-- An unknown handle is written as its number. -/
def numbered {role : Role} (h : Handle role) : String :=
  "#" ++ toString h.id

def individualText (o : Ontology) (i : IndividualId) : String :=
  (o.individualName? i).getD (numbered i)

def relationText (o : Ontology) (r : RelationId) : String :=
  (o.relationName? r).getD (numbered r)

/-- A concept as it can be written, with every connective and restriction in
parentheses. Expressions are at most `fuel` deep. -/
def conceptTextWithin (o : Ontology) : Nat → ConceptId → String
  | 0, c => numbered c
  | fuel + 1, c =>
    match o.expression? c with
    | none => numbered c
    | some (.named name) => name
    | some (.conjunction cs) => "(" ++ separated " & " (cs.map (o.conceptTextWithin fuel)) ++ ")"
    | some (.disjunction cs) => "(" ++ separated " | " (cs.map (o.conceptTextWithin fuel)) ++ ")"
    | some (.negation x) => "~" ++ o.conceptTextWithin fuel x
    | some (.nominal is) => "\x7b" ++ separated ", " (is.map o.individualText) ++ "\x7d"
    | some (.restriction q r x) =>
      "(" ++ q.text ++ " " ++ o.relationText r ++ " . " ++ o.conceptTextWithin fuel x ++ ")"

/-- A concept is made of older ones only, so its number bounds its depth. -/
def conceptText (o : Ontology) (c : ConceptId) : String :=
  o.conceptTextWithin c.id c

def text (o : Ontology) : Entity → String
  | .concept c => o.conceptText c
  | .individual i => o.individualText i
  | .relation r => o.relationText r

end ConceptLogic.Ontology
