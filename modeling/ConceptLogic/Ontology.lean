import ConceptLogic.Fault
import ConceptLogic.Quantifier

namespace ConceptLogic

/-- What a concept is made of. -/
inductive Expression
  | named (name : String)
  | conjunction (operands : List ConceptId)
  | disjunction (operands : List ConceptId)
  | negation (operand : ConceptId)
  | nominal (members : List IndividualId)
  | restriction (quantifier : Quantifier) (relation : RelationId) (filler : ConceptId)
  deriving DecidableEq, Repr

/-- What is kept of one thing. Concepts are told what they are a part of and
what they are equivalent to, individuals their types, and relations the
relations they are a part of and between which concepts they hold. -/
inductive Entry
  | concept (expression : Expression) (isA equivalentTo : List ConceptId)
  | individual (name : String) (types : List ConceptId)
  | relation (name : String) (supers : List RelationId)
      (signature : Option (ConceptId × ConceptId))
  deriving DecidableEq, Repr

/-- Adds to what a concept or an individual falls under. -/
def Entry.tellIsA (c : ConceptId) : Entry → Entry
  | .concept e isA equivalentTo => .concept e (isA ++ [c]) equivalentTo
  | .individual name types => .individual name (types ++ [c])
  | entry => entry

def Entry.tellEquivalent (c : ConceptId) : Entry → Entry
  | .concept e isA equivalentTo => .concept e isA (equivalentTo ++ [c])
  | entry => entry

def Entry.sign (signature : ConceptId × ConceptId) : Entry → Entry
  | .relation name supers _ => .relation name supers (some signature)
  | entry => entry

/-- What is known, each thing under a number of its own: the first entry has
number one. Nothing is ever taken back. -/
structure Ontology where
  entries : Array Entry
  deriving Repr

/-- Anything an ontology can be told something about. -/
inductive Entity
  | concept (c : ConceptId)
  | individual (i : IndividualId)
  | relation (r : RelationId)
  deriving DecidableEq, Repr

namespace Ontology

/-- An ontology that knows no more than the concept of everything. -/
def initial (top : String) : Ontology :=
  ⟨#[.concept (.named top) [] []]⟩

/-- The concept of everything. -/
def top : ConceptId := ⟨1⟩

def size (o : Ontology) : Nat := o.entries.size

def thing? (o : Ontology) : Nat → Option Entry
  | 0 => none
  | n + 1 => o.entries[n]?

def expression? (o : Ontology) (c : ConceptId) : Option Expression :=
  match o.thing? c.id with
  | some (.concept e _ _) => some e
  | _ => none

def isA (o : Ontology) (c : ConceptId) : List ConceptId :=
  match o.thing? c.id with
  | some (.concept _ isA _) => isA
  | _ => []

def equivalentTo (o : Ontology) (c : ConceptId) : List ConceptId :=
  match o.thing? c.id with
  | some (.concept _ _ equivalentTo) => equivalentTo
  | _ => []

/-- All that a concept has been told to be a part of. -/
def told (o : Ontology) (c : ConceptId) : List ConceptId :=
  o.isA c ++ o.equivalentTo c

def types (o : Ontology) (i : IndividualId) : List ConceptId :=
  match o.thing? i.id with
  | some (.individual _ types) => types
  | _ => []

def individualName? (o : Ontology) (i : IndividualId) : Option String :=
  match o.thing? i.id with
  | some (.individual name _) => some name
  | _ => none

def relationName? (o : Ontology) (r : RelationId) : Option String :=
  match o.thing? r.id with
  | some (.relation name _ _) => some name
  | _ => none

def supers (o : Ontology) (r : RelationId) : List RelationId :=
  match o.thing? r.id with
  | some (.relation _ supers _) => supers
  | _ => []

/-- The domain and the range of a relation, if it was given any. -/
def signature? (o : Ontology) (r : RelationId) : Option (ConceptId × ConceptId) :=
  match o.thing? r.id with
  | some (.relation _ _ signature) => signature
  | _ => none

/-- The number of the first entry of a certain kind. -/
def find? (o : Ontology) (p : Entry → Bool) : Option Nat :=
  (o.entries.findIdx? p).map (· + 1)

/-- The concept that is kept for an expression. -/
def conceptOf? (o : Ontology) (e : Expression) : Option ConceptId :=
  (o.find? fun
    | .concept e' _ _ => e' = e
    | _ => false).map Handle.mk

def conceptNamed? (o : Ontology) (name : String) : Option ConceptId :=
  o.conceptOf? (.named name)

def individualNamed? (o : Ontology) (name : String) : Option IndividualId :=
  (o.find? fun
    | .individual name' _ => name' = name
    | _ => false).map Handle.mk

def relationNamed? (o : Ontology) (name : String) : Option RelationId :=
  (o.find? fun
    | .relation name' _ _ => name' = name
    | _ => false).map Handle.mk

def conceptCount (o : Ontology) : Nat :=
  o.entries.countP fun
    | .concept .. => true
    | _ => false

def individualCount (o : Ontology) : Nat :=
  o.entries.countP fun
    | .individual .. => true
    | _ => false

end Ontology

end ConceptLogic
