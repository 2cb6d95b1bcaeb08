import ConceptLogic.Ontology.Building
import ConceptLogic.Reachability
import Std.Data.TreeMap

namespace ConceptLogic

/-- What can be asked: whether a concept is a part of another, and whether an
individual falls under a concept. -/
inductive Query
  | subsumed (c d : ConceptId)
  | member (i : IndividualId) (d : ConceptId)
  deriving DecidableEq, Repr

/-- What makes a restriction a part of another, if anything does: that they are
the same, or how their relations and fillers have to lie to each other. -/
inductive Entailment
  | never
  | same
  | wider
  | universal
  | narrower
  deriving DecidableEq, Repr

/-- When one quantifier gives what another asks for. To have exactly some number
of fillers is to have at least and at most that many, and to have at least one
is to have some. -/
def Quantifier.entails : Quantifier → Quantifier → Entailment
  | .some, .some => .wider
  | .only, .only => .universal
  | .count .exactly n, .count .exactly m => if n = m then .same else .never
  | .count .atLeast n, .count .atLeast m => if m ≤ n then .wider else .never
  | .count .exactly n, .count .atLeast m => if m ≤ n then .wider else .never
  | .count .atMost n, .count .atMost m => if n ≤ m then .narrower else .never
  | .count .exactly n, .count .atMost m => if n ≤ m then .narrower else .never
  | .count .atLeast n, .some => if 1 ≤ n then .wider else .never
  | .count .exactly n, .some => if 1 ≤ n then .wider else .never
  | .some, .count .atLeast m => if m ≤ 1 then .wider else .never
  | _, _ => .never

namespace Ontology

/-- The numbers of all that a concept leads to over one or more told edges. -/
def above (o : Ontology) (c : ConceptId) : Std.TreeSet Nat :=
  reachable (fun n => (o.told ⟨n⟩).map Handle.id) o.size c.id

/-- The told ancestors of a concept, in the order of their numbers. -/
def ancestors (o : Ontology) (c : ConceptId) : List ConceptId :=
  (o.above c).toList.map Handle.mk

/-- Whether a relation is another one or was told, over any number of steps, to
be a part of it. -/
def isSubRelation (o : Ontology) (r s : RelationId) : Bool :=
  r = s || (reachable (fun n => (o.supers ⟨n⟩).map Handle.id) o.size r.id).contains s.id

section Rules

/-! The rules of reasoning. A rule answers a query by asking others. -/

variable {m : Type → Type} [Monad m] (o : Ontology) (ask : Query → m Bool)

/-- A part of the whole, judged by how the two are made. -/
def byForm : Expression → Expression → m Bool
  | .negation x, .negation y => ask (.subsumed y x)
  | .restriction q r x, .restriction p s y =>
    match q.entails p with
    | .never => pure false
    | .same => pure (r = s && x = y)
    | .wider => if o.isSubRelation r s then ask (.subsumed x y) else pure false
    | .universal => if o.isSubRelation s r then ask (.subsumed x y) else pure false
    | .narrower => if o.isSubRelation s r then ask (.subsumed y x) else pure false
  | _, _ => pure false

def byConjunct (d : ConceptId) : Option Expression → m Bool
  | some (.conjunction cs) => cs.anyM fun c => ask (.subsumed c d)
  | _ => pure false

def byDisjunct (c : ConceptId) : Option Expression → m Bool
  | some (.disjunction ds) => ds.anyM fun d => ask (.subsumed c d)
  | _ => pure false

/-- A part of the whole, judged by what both were told. -/
def byTelling (c d : ConceptId) : m Bool :=
  pure ((o.above c).contains d.id) <||>
    ((o.told c).anyM fun p => ask (.subsumed p d)) <||>
      ((o.equivalentTo d).anyM fun e => ask (.subsumed c e))

/-- Whether one concept is a part of another. What falls under a conjunction
falls under each operand, and what a disjunction or a nominal is made of has to
fall under the whole; only then do the other rules come in turn. -/
def decideSubsumed (c d : ConceptId) : m Bool :=
  match o.expression? c, o.expression? d with
  | _, some (.conjunction ds) => ds.allM fun x => ask (.subsumed c x)
  | some (.disjunction cs), _ => cs.allM fun x => ask (.subsumed x d)
  | some (.nominal is), _ => is.allM fun i => ask (.member i d)
  | left, right =>
    byConjunct ask d left <||> byDisjunct ask c right <||>
      (match left, right with
        | some l, some r => o.byForm ask l r
        | _, _ => pure false) <||>
      o.byTelling ask c d

/-- Whether an individual falls under a concept by one of its types, or under
something equivalent. -/
def decideMember (i : IndividualId) (d : ConceptId) : m Bool :=
  ((o.types i).anyM fun t => ask (.subsumed t d)) <||>
    ((o.equivalentTo d).anyM fun e => ask (.member i e))

/-- One step of reasoning. Queries that a glance answers are not worth noting;
the others go through `noting`. -/
def step (noting : Query → m Bool → m Bool) : Query → m Bool
  | .subsumed c d =>
    if c = d || d = top then pure true
    else noting (.subsumed c d) (o.decideSubsumed ask c d)
  | .member i d =>
    if d = top then pure true
    else
      match o.expression? d with
      | some (.nominal is) => pure (is.contains i)
      | some (.conjunction ds) => ds.allM fun x => ask (.member i x)
      | some (.disjunction ds) =>
        (ds.anyM fun x => ask (.member i x)) <||> noting (.member i d) (o.decideMember ask i d)
      | _ => noting (.member i d) (o.decideMember ask i d)

end Rules

end Ontology

/-- The pair of numbers a query is noted under. A concept and an individual never
share a number, so it need not be noted which of the two was asked about. -/
def Query.key : Query → Nat × Nat
  | .subsumed c d => (c.id, d.id)
  | .member i d => (i.id, d.id)

/-- The order in which pairs are noted. -/
def compareKeys : Nat × Nat → Nat × Nat → Ordering :=
  compareLex (compareOn Prod.fst) (compareOn Prod.snd)

instance : Std.TransCmp compareKeys :=
  inferInstanceAs (Std.TransCmp (compareLex _ _))

theorem compareKeys_eq {k l : Nat × Nat} : compareKeys k l = .eq ↔ k = l := by
  simp only [compareKeys, compareLex, compareOn, Ordering.then_eq_eq,
    Std.LawfulEqCmp.compare_eq_iff_eq, Prod.ext_iff]

/-- The answers found, or supposed, in the course of one search. -/
structure Notes where
  answers : Std.TreeMap (Nat × Nat) Bool compareKeys

namespace Notes

def empty : Notes := ⟨{}⟩

def find? (notes : Notes) (q : Query) : Option Bool := notes.answers[q.key]?

def note (notes : Notes) (q : Query) (b : Bool) : Notes := ⟨notes.answers.insert q.key b⟩

@[simp] theorem find?_empty (q : Query) : empty.find? q = none := rfl

theorem find?_note (notes : Notes) (q p : Query) (b : Bool) :
    (notes.note q b).find? p = if q.key = p.key then some b else notes.find? p := by
  simp only [find?, note, Std.TreeMap.getElem?_insert, compareKeys_eq]

/-- Finds an answer once. While it is looked for, the answer is supposed to be
no, so that a search that comes back to its own query gains nothing there. -/
def noting (q : Query) (search : StateM Notes Bool) : StateM Notes Bool := do
  match (← get).find? q with
  | some b => return b
  | none =>
    modify (·.note q false)
    let b ← search
    modify (·.note q b)
    return b

end Notes

namespace Ontology

/-- Answers a query by the rules, at most `fuel` steps deep. -/
def search (o : Ontology) : Nat → Query → StateM Notes Bool
  | 0, _ => return false
  | fuel + 1, q => o.step (search o fuel) Notes.noting q

/-- Between two queries noted one inside the other, steps only go down to older
operands, and there are no more queries to note than pairs of numbers. -/
def searchDepth (o : Ontology) : Nat :=
  (o.size * o.size + 1) * (o.size + 2)

def answer (o : Ontology) (q : Query) : Bool :=
  ((o.search o.searchDepth q).run Notes.empty).1

end Ontology

namespace Building

def isSubsumedBy (c d : ConceptId) : Building Bool := do
  requireConcept c
  requireConcept d
  return (← get).answer (.subsumed c d)

/-- Two concepts are equivalent if each is a part of the other. -/
def isEquivalentTo (c d : ConceptId) : Building Bool := do
  if ← isSubsumedBy c d then isSubsumedBy d c else return false

def isInstanceOf (i : IndividualId) (c : ConceptId) : Building Bool := do
  requireIndividual i
  requireConcept c
  return (← get).answer (.member i c)

end Building

end ConceptLogic
