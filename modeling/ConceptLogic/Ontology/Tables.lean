import ConceptLogic.Bimap
import ConceptLogic.Ontology

namespace ConceptLogic

/-- What one concept was told to be a part of, and to be equivalent to. -/
structure Edges where
  isA : List ConceptId
  equivalentTo : List ConceptId

def Edges.none : Edges := ⟨[], []⟩

/-- An ontology as it is filed: a counter that numbers things of every kind, and a table for each
sort of thing that is kept of them. Nothing here makes the tables agree with each other. -/
structure Tables where
  /-- The last number that was given out. -/
  bound : Nat
  concepts : Bimap Expression ConceptId
  edges : AList fun _ : ConceptId => Edges
  individuals : Bimap String IndividualId
  typesOf : AList fun _ : IndividualId => List ConceptId
  relations : Bimap String RelationId
  supersOf : AList fun _ : RelationId => List RelationId
  signatureOf : AList fun _ : RelationId => ConceptId × ConceptId
  top : ConceptId

namespace Tables

/-- Tables in which nothing is filed yet. -/
def blank : Tables where
  bound := 0
  concepts := .empty
  edges := ∅
  individuals := .empty
  typesOf := ∅
  relations := .empty
  supersOf := ∅
  signatureOf := ∅
  top := ⟨1⟩

/-- The first number goes to the concept of everything. -/
def initial (name : String) : Tables :=
  { blank with bound := 1, concepts := Bimap.empty.insert (.named name) ⟨1⟩ }

section Reading

variable (t : Tables)

def expression? (c : ConceptId) : Option Expression := t.concepts.toLeft? c

def conceptOf? (e : Expression) : Option ConceptId := t.concepts.toRight? e

def individualName? (i : IndividualId) : Option String := t.individuals.toLeft? i

def individualNamed? (name : String) : Option IndividualId := t.individuals.toRight? name

def relationName? (r : RelationId) : Option String := t.relations.toLeft? r

def relationNamed? (name : String) : Option RelationId := t.relations.toRight? name

/-- What a concept was told, which may be nothing. -/
def told (c : ConceptId) : Edges := (t.edges.lookup c).getD .none

def types (i : IndividualId) : List ConceptId := (t.typesOf.lookup i).getD []

def supers (r : RelationId) : List RelationId := (t.supersOf.lookup r).getD []

def signature? (r : RelationId) : Option (ConceptId × ConceptId) := t.signatureOf.lookup r

/-- All that the tables keep under a number, of whatever kind. -/
def thing? (n : Nat) : Option Entry :=
  match t.expression? ⟨n⟩, t.individualName? ⟨n⟩, t.relationName? ⟨n⟩ with
  | some e, _, _ => some (.concept e (t.told ⟨n⟩).isA (t.told ⟨n⟩).equivalentTo)
  | none, some name, _ => some (.individual name (t.types ⟨n⟩))
  | none, none, some name => some (.relation name (t.supers ⟨n⟩) (t.signature? ⟨n⟩))
  | none, none, none => none

/-- The ontology that the tables show: what they keep, in the order of the numbers. -/
def shown : Ontology :=
  ⟨((List.range t.bound).filterMap fun n => t.thing? (n + 1)).toArray⟩

end Reading

end Tables

end ConceptLogic
