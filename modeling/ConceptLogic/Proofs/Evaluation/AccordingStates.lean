import ConceptLogic.Proofs.Evaluation.RepeatedOperators

namespace ConceptLogic

open Evaluation

namespace Phrase

mutual

/-- The names, nominals, variables and references back of a phrase, from left to right. -/
def leaves : Phrase → List Phrase
  | .concept name => [.concept name]
  | .individual name => [.individual name]
  | .relation name => [.relation name]
  | .nominal members => [.nominal members]
  | .var x => [.var x]
  | .anaphora => [.anaphora]
  | .negation p => p.leaves
  | .restriction _ r p => r.leaves ++ p.leaves
  | .junction _ ps => leavesAll ps
  | .tuple ps => leavesAll ps
  | .declareIndividual _ ps => leavesAll ps
  | .declareConcept _ ps => leavesAll ps
  | .declareRelation _ p q => p.leaves ++ q.leaves
  | .define _ p => p.leaves
  | .membership p q => p.leaves ++ q.leaves
  | .comparison ps _ => leavesAll ps
  | .mapping p q => p.leaves ++ q.leaves
  | .program ps => leavesAll ps

def leavesAll : List Phrase → List Phrase
  | [] => []
  | p :: ps => p.leaves ++ leavesAll ps

end

def asVariable? : Phrase → Option Variable
  | .var x => some x
  | _ => none

def isAnaphora : Phrase → Bool
  | .anaphora => true
  | _ => false

/-- The variables of a phrase, as often as they occur. -/
def vars (p : Phrase) : List Variable :=
  p.leaves.filterMap asVariable?

/-- Whether anything in a phrase refers back. -/
def refersBack (p : Phrase) : Bool :=
  p.leaves.any isAnaphora

/-- The first variable of a phrase that is not bound. -/
def awaited? (env : Environment) (p : Phrase) : Option Variable :=
  p.vars.find? fun x => !env.knows x.name

def awaitedAmong? (env : Environment) (ps : List Phrase) : Option Variable :=
  ps.findSome? (awaited? env)

variable {ps : List Phrase}

theorem leavesAll_eq_flatMap (ps : List Phrase) : leavesAll ps = ps.flatMap leaves := by
  induction ps with
  | nil => rfl
  | cons p ps ih => rw [leavesAll, ih, List.flatMap_cons]

theorem vars_of_leaves {p : Phrase} (parts : p.leaves = leavesAll ps) : p.vars = ps.flatMap vars := by
  rw [vars, parts, leavesAll_eq_flatMap, List.filterMap_flatMap]
  rfl

theorem vars_negation (p : Phrase) : (negation p).vars = [p].flatMap vars := by
  simp [vars, leaves]

theorem vars_restriction (q : Quantifier) (r : String) (p : Phrase) :
    (restriction q (.relation r) p).vars = [p].flatMap vars := by
  simp only [vars, leaves, List.flatMap_singleton, List.singleton_append]
  rfl

theorem vars_membership (p q : Phrase) : (membership p q).vars = [p, q].flatMap vars := by
  simp [vars, leaves]

/-- A phrase whose variables are those of its parts waits for what they wait for. -/
theorem awaited?_of_vars {env : Environment} {p : Phrase} (parts : p.vars = ps.flatMap vars) :
    p.awaited? env = awaitedAmong? env ps := by
  rw [awaited?, parts, List.find?_flatMap]
  rfl

theorem refersBack_of_leaves {p : Phrase} (parts : p.leaves = leavesAll ps) (plain : p.refersBack = false) :
    ∀ q ∈ ps, q.refersBack = false := by
  rw [refersBack, parts, leavesAll_eq_flatMap, List.any_flatMap] at plain
  exact fun q member => Bool.eq_false_of_not_eq_true (List.any_eq_false.mp plain q member)

end Phrase

theorem Variable.name_ne (x : Variable) : x.name ≠ anaphoraName := by
  intro same
  have heads := congrArg (fun name => name.toList.head?) same
  rw [name, String.toList_append] at heads
  cases heads

/-- A name that is no name of a variable and does not refer back. -/
def Ordinary (name : String) : Prop :=
  name ≠ anaphoraName ∧ ∀ x : Variable, name ≠ x.name

namespace Ordinary

theorem of_head {name : String} (differs : name ≠ anaphoraName) (head : name.toList.head? ≠ some '$') :
    Ordinary name := by
  refine ⟨differs, fun x same => head ?_⟩
  rw [same, Variable.name, String.toList_append]
  rfl

theorem of_vetted {v : Vocabulary} {role : Role} {name : String} (vetted : v.vet role name = .ok name) :
    Ordinary name := by
  refine of_head (differs_of_vetted vetted) fun head => ?_
  have conforming := (Vocabulary.vet_eq_ok_iff.mp vetted).2.2
  obtain ⟨rest, chars⟩ : ∃ rest, name.toList = '$' :: rest := by
    cases chars : name.toList with
    | nil => simp [chars] at head
    | cons c rest =>
      rw [chars] at head
      cases head
      exact ⟨rest, rfl⟩
  cases role <;> simp [conforms, unmarked, chars] at conforming

theorem of_comparator {token : String} (known : token ∈ Grammar.comparators) : Ordinary token := by
  have all : ∀ token ∈ Grammar.comparators, token ≠ anaphoraName ∧ token.toList.head? ≠ some '$' := by
    decide
  exact of_head (all token known).1 (all token known).2

theorem negation : Ordinary Operator.negation.token := of_head (by decide) (by decide)

theorem connective (kind : Connective) : Ordinary kind.token := by
  cases kind <;> exact of_head (by decide) (by decide)

end Ordinary

/-- A second environment in which further variables may be bound; otherwise it tells the same. -/
structure Environment.Widens (env env' : Environment) : Prop where
  alike : ∀ {name}, Ordinary name → env.find? name = env'.find? name
  further : ∀ {x : Variable} {v}, env.find? x.name = some v → env'.find? x.name = some v

theorem Environment.Widens.refl (env : Environment) : env.Widens env := ⟨fun _ => rfl, id⟩

theorem Environment.Widens.awaited? {env env' : Environment} (widens : env.Widens env') {p : Phrase}
    (settled : p.awaited? env = none) : p.awaited? env' = none := by
  refine List.find?_eq_none.mpr fun x member => ?_
  have bound := List.find?_eq_none.mp settled x member
  simp only [Bool.not_eq_true, Bool.not_eq_false', Scope.knows, Option.isSome_iff_exists] at bound ⊢
  exact bound.imp fun _ => widens.further

/-- Whether all that names lead to is known to an ontology. -/
def Environment.Old (o : Ontology) (env : Environment) : Prop :=
  ∀ ⦃name v⦄, name ≠ anaphoraName → env.find? name = some v → v.Old o

/-- States that have grown out of one ontology. In the first one, further variables may be bound to what
is known there. -/
structure State.Accords (base : Ontology) (s t : State) : Prop where
  fork : base.Fork s.ontology t.ontology
  widens : t.env.Widens s.env
  old : s.env.Old base

namespace State.Accords

variable {base : Ontology} {s t s' t' : State} (accords : s.Accords base t)
include accords

theorem lasts (adds : s.Extends s') (adds' : t.Extends t') : s'.Accords base t' where
  fork := accords.fork.further adds.ontology adds'.ontology
  widens := adds.env ▸ adds'.env ▸ accords.widens
  old := adds.env ▸ accords.old

theorem left : s.Accords base s :=
  ⟨⟨accords.fork.kept, accords.fork.arranged, accords.fork.left, accords.fork.left⟩, .refl s.env, accords.old⟩

end State.Accords

namespace Phrase

variable {base : Ontology} {s t s' t' : State} {p : Phrase} {a b : Value} {ps : List Phrase}
  {as bs : List Value}

/-- What may become of a phrase: it waits for the first of its variables that is not bound, or else has a
value. -/
def Becomes (base : Ontology) (s : State) (p : Phrase) (v : Value) : Prop :=
  match p.awaited? s.env with
  | some x => v = .deferred x p s.env
  | none => v.Twin base s.ontology s.ontology v

/-- What may become of a phrase in two states, of which the second one binds less. -/
structure Recurs (base : Ontology) (p : Phrase) (a : Value) (s : State) (b : Value) (t : State) : Prop where
  first : p.Becomes base s a
  second : p.Becomes base t b
  twin : p.awaited? t.env = none → a.Twin base s.ontology t.ontology b

structure RecurAll (base : Ontology) (ps : List Phrase) (as : List Value) (s : State) (bs : List Value)
    (t : State) : Prop where
  first : List.Forall₂ (Becomes base s) ps as
  second : List.Forall₂ (Becomes base t) ps bs
  twin : awaitedAmong? t.env ps = none → List.Forall₂ (Value.Twin base s.ontology t.ontology) as bs

theorem Becomes.lasts (becomes : p.Becomes base s a) (adds : s.Extends s') : p.Becomes base s' a := by
  unfold Becomes at becomes ⊢
  rw [adds.env]
  split
  · rename_i x awaited
    rw [awaited] at becomes
    exact becomes
  · rename_i awaited
    rw [awaited] at becomes
    exact becomes.mono adds.ontology.annexes.within adds.ontology.annexes.within

theorem Becomes.waiting {x : Variable} (becomes : p.Becomes base s a) (awaits : p.awaited? s.env = some x) :
    a = .deferred x p s.env := by
  rw [Becomes, awaits] at becomes
  exact becomes

theorem Becomes.settled (becomes : p.Becomes base s a) (settled : p.awaited? s.env = none) :
    a.Twin base s.ontology s.ontology a := by
  rw [Becomes, settled] at becomes
  exact becomes

theorem Becomes.of_waiting {x : Variable} (awaits : p.awaited? s.env = some x) :
    p.Becomes base s (.deferred x p s.env) := by
  rw [Becomes, awaits]

theorem Becomes.of_settled (settled : p.awaited? s.env = none) (own : a.Twin base s.ontology s.ontology a) :
    p.Becomes base s a := by
  rw [Becomes, settled]
  exact own

theorem Recurs.lasts (recurs : p.Recurs base a s b t) (adds : s.Extends s') (adds' : t.Extends t') :
    p.Recurs base a s' b t' where
  first := recurs.first.lasts adds
  second := recurs.second.lasts adds'
  twin settled := (recurs.twin (adds'.env ▸ settled)).mono adds.ontology.annexes.within
    adds'.ontology.annexes.within

theorem RecurAll.nil : RecurAll base [] [] s [] t := ⟨.nil, .nil, fun _ => .nil⟩

theorem RecurAll.cons (recurs : p.Recurs base a s b t) (others : RecurAll base ps as s bs t) :
    RecurAll base (p :: ps) (a :: as) s (b :: bs) t where
  first := .cons recurs.first others.first
  second := .cons recurs.second others.second
  twin settled := by
    obtain ⟨here, there⟩ := List.forall_mem_cons.mp (List.findSome?_eq_none_iff.mp settled)
    exact .cons (recurs.twin here) (others.twin (List.findSome?_eq_none_iff.mpr there))

/-- What a list of phrases waits for is what the first of them that waits does wait for. -/
theorem pending?_eq (become : List.Forall₂ (Becomes base s) ps as) :
    Value.pending? as = (awaitedAmong? s.env ps).map fun x => (x, s.env) := by
  induction become with
  | nil => rfl
  | @cons p a ps as becomes _ ih =>
    rw [awaitedAmong?, List.findSome?_cons]
    cases awaits : p.awaited? s.env with
    | some x =>
      cases becomes.waiting awaits
      rfl
    | none =>
      cases becomes.settled awaits <;> exact ih

theorem twins_of_become (become : List.Forall₂ (Becomes base s) ps as)
    (settled : awaitedAmong? s.env ps = none) :
    List.Forall₂ (Value.Twin base s.ontology s.ontology) as as := by
  induction become with
  | nil => exact .nil
  | cons becomes _ ih =>
    obtain ⟨here, there⟩ := List.forall_mem_cons.mp (List.findSome?_eq_none_iff.mp settled)
    exact .cons (becomes.settled here) (ih (List.findSome?_eq_none_iff.mpr there))

end Phrase

end ConceptLogic
