import ConceptLogic.Proofs.Evaluation.StateInvariants
import ConceptLogic.Proofs.Session.ReachedStates

namespace ConceptLogic

open Evaluation

/-- Whether a name stands for what the dictionary has under it: the memory does not hold it, and it is
looked up as if nothing were bound. -/
structure Environment.Shields (env : Environment) (name : String) : Prop where
  unbound : name ∉ env.memory.map Prod.fst
  lookup : env.lookup name = Environment.lookup (Scope.of env.dictionary) name
  resolve : env.resolve name = Environment.resolve (Scope.of env.dictionary) name

/-- Whether the memory holds nothing that is built in but, once anything is bound, the anaphora. -/
structure Environment.Guarded (env : Environment) : Prop where
  unbound : ∀ {name}, env.isBuiltIn name = true → name ≠ anaphoraName → env.memory.lookup name = none
  anaphora : env.memory = [] ∨ ∃ v, env.memory.lookup anaphoraName = some v

/-- Whether all environments that a value keeps are guarded, be it that it waits there for a variable or
that a value does that is found there. -/
inductive Value.Sealed : Value → Prop
  | concept (c : ConceptId) : Sealed (.concept c)
  | individual (i : IndividualId) : Sealed (.individual i)
  | relation (r : RelationId) : Sealed (.relation r)
  | boolean (b : Bool) : Sealed (.boolean b)
  | mapping (domain range : ConceptId) : Sealed (.mapping domain range)
  | tuple {bases others : List Value} : (∀ v ∈ bases, Sealed v) → (∀ v ∈ others, Sealed v) →
      Sealed (.tuple bases others)
  | deferred {x : Variable} {body : Phrase} {env : Environment} : env.Guarded →
      (∀ name v, env.find? name = some v → Sealed v) → Sealed (.deferred x body env)
  | operator (op : Operator) : Sealed (.operator op)
  | nothing : Sealed .nothing

/-- A guarded environment in which only such values are found as keep guarded environments. -/
structure Environment.Sealed (env : Environment) : Prop where
  guarded : env.Guarded
  found : ∀ {name v}, env.find? name = some v → v.Sealed

namespace Environment

variable {env env' : Environment} {name : String} {v : Value}

theorem lookup_eq_none_iff {t : Table Value} : t.lookup name = none ↔ name ∉ t.map Prod.fst := by
  simp only [List.lookup_eq_none_iff, List.mem_map, bne_iff_ne, ne_eq, not_exists, not_and]
  exact forall₂_congr fun entry _ => ⟨Ne.symm, Ne.symm⟩

theorem Guarded.of (dictionary : Table Value) : Guarded (Scope.of dictionary) :=
  ⟨fun _ _ => rfl, .inl rfl⟩

/-- In a guarded environment the anaphora alone can hide what is built in, and it does so once anything
is bound. -/
theorem Guarded.shields_iff (guarded : env.Guarded) (builtIn : env.isBuiltIn name = true) :
    env.Shields name ↔ name ≠ anaphoraName ∨ env.memory = [] := by
  have shields : env.memory.lookup name = none → env.Shields name := by
    intro unbound
    have same : env.find? name = Scope.find? (Scope.of env.dictionary) name := by
      rw [Scope.find?, unbound]
      rfl
    refine ⟨lookup_eq_none_iff.mp unbound, ?_, ?_⟩
    · rw [lookup, lookup, same]
    · rw [resolve, resolve, same]
  constructor
  · intro shielded
    rcases guarded.anaphora with empty | ⟨v, bound⟩
    · exact .inr empty
    · left
      rintro rfl
      rw [lookup_eq_none_iff.mpr shielded.unbound] at bound
      cases bound
  · rintro (differs | empty)
    · exact shields (guarded.unbound builtIn differs)
    · exact shields (empty ▸ rfl)

theorem bind_eq_ok (bound : env.bind name v = .ok env') :
    env.isBuiltIn name = false ∧ env' = env.assign name v := by
  rw [bind, assignable] at bound
  split at bound
  · cases bound
  · rename_i free
    cases bound
    exact ⟨Bool.eq_false_of_not_eq_true free, rfl⟩

theorem Sealed.bind (sealed : env.Sealed) (kept : v.Sealed) (bound : env.bind name v = .ok env') :
    env'.Sealed ∧ env'.dictionary = env.dictionary := by
  obtain ⟨free, rfl⟩ := bind_eq_ok bound
  have lookup : ∀ n, (env.assign name v).memory.lookup n =
      if n = anaphoraName then some v else if n = name then some v else env.memory.lookup n := by
    intro n
    rw [Scope.assign, Table.lookup_assign, Table.lookup_assign]
  refine ⟨⟨⟨fun {n} builtIn differs => ?_, .inr ⟨v, ?_⟩⟩, fun {n w} found => ?_⟩, rfl⟩
  · have apart : n ≠ name := by
      rintro rfl
      exact Bool.false_ne_true (free.symm.trans builtIn)
    rw [lookup, if_neg differs, if_neg apart]
    exact sealed.guarded.unbound builtIn differs
  · rw [lookup, if_pos rfl]
  · rw [Scope.find?, lookup] at found
    split at found
    · cases found
      exact kept
    · split at found
      · cases found
        exact kept
      · exact sealed.found found

end Environment

theorem Value.Sealed.environment {x : Variable} {body : Phrase} {env : Environment}
    (sealed : (Value.deferred x body env).Sealed) : env.Sealed := by
  cases sealed with
  | deferred guarded found => exact ⟨guarded, fun {name v} => found name v⟩

theorem Environment.Sealed.deferred {x : Variable} {body : Phrase} {env : Environment} (sealed : env.Sealed) :
    (Value.deferred x body env).Sealed :=
  .deferred sealed.guarded fun _ _ => sealed.found

/-- What evaluation does to an environment. -/
structure State.Guards (s s' : State) : Prop where
  dictionary : s'.env.dictionary = s.env.dictionary
  sealed : s.env.Sealed → s'.env.Sealed

instance : Std.Refl State.Guards := ⟨fun _ => ⟨rfl, id⟩⟩

instance : IsTrans State State.Guards := ⟨fun _ _ _ first second =>
  ⟨second.dictionary.trans first.dictionary, fun sealed => second.sealed (first.sealed sealed)⟩⟩

section Guarding

variable {s : State}

/-- Work on the ontology leaves the environment alone. -/
theorem guards_building {α : Type} (b : Building α) : Moves State.Guards (building b) s fun _ _ => True := by
  unfold Moves Settles
  rw [run_building]
  cases b.run s.ontology with
  | ok a o => exact ⟨⟨rfl, id⟩, trivial⟩
  | error fault o => exact ⟨rfl, id⟩

/-- What is evaluated in another environment leaves one's own as it is. -/
theorem guards_within {α : Type} {env : Environment} {x : Evaluation α} {P : α → Prop}
    (guards : Moves State.Guards x { s with env := env } fun a _ => P a) :
    Moves State.Guards (within env x) s fun a _ => P a := by
  unfold Moves Settles at guards ⊢
  rw [run_within]
  cases outcome : x.run { s with env := env } with
  | ok a t =>
    rw [outcome] at guards
    exact ⟨⟨rfl, id⟩, guards.2⟩
  | error e t => exact ⟨rfl, id⟩

end Guarding

theorem Answer.value_sealed (answer : Answer) : answer.value.Sealed := by
  cases answer <;> constructor

theorem State.Guards.upkeep : Upkeep True State.Guards (fun s => s.env.Sealed) fun _ v => v.Sealed where
  sound guards := guards.sealed
  lasting _ kept := kept
  call _ call := (guards_building call.perform).mono fun answer _ _ _ => answer.value_sealed
  binding _ _ _ _ _ sealed kept bound :=
    have ⟨sealed', same⟩ := sealed.bind kept bound
    ⟨same, fun _ => sealed'⟩
  found sealed := sealed.found
  waiting _ _ sealed := sealed.deferred
  wrapped kept _ _ := kept.environment.deferred
  boolean := .boolean
  nothing := .nothing
  mapping := .mapping
  tuple := .tuple

/-- Whether the evaluation of a phrase keeps environments guarded wherever it starts from. -/
def Phrase.Guarding (p : Phrase) : Prop :=
  ∀ {s : State}, s.env.Sealed → Moves State.Guards p.eval s fun v _ => v.Sealed

/-- Whatever is evaluated, dictionaries stay as they are, and no environment ceases to be guarded, be the
evaluation a success or a failure. -/
theorem Phrase.guards (p : Phrase) : p.Guarding :=
  fun sealed => State.Guards.upkeep.kept p (absurd trivial) sealed

/-- So do declarations, whatever concept stands in where they name none. -/
theorem guards_create {p : Phrase} {default : ConceptId} {work : Evaluation Unit}
    (creates : p.create? default = some work) {s : State} (sealed : s.env.Sealed) :
    Moves State.Guards work s fun _ _ => True :=
  State.Guards.upkeep.create trivial creates sealed

mutual

/-- The environments that come of a dictionary. Values may be bound in them, and phrases evaluated and
declarations carried out, on any ontology, with success or not. The environment that a deferred value keeps
comes of its own dictionary. -/
inductive Environment.Made : Table Value → Environment → Prop
  | new {dictionary : Table Value} : (∀ entry ∈ dictionary, Value.Given entry.2) →
      Environment.Made dictionary (Scope.of dictionary)
  | bound {dictionary : Table Value} {env env' : Environment} {name : String} {v : Value} :
      Environment.Made dictionary env → Value.Given v → env.bind name v = .ok env' →
      Environment.Made dictionary env'
  | evaluated {dictionary : Table Value} {env : Environment} (p : Phrase) (o : Ontology) :
      Environment.Made dictionary env → Environment.Made dictionary (after p.eval ⟨env, o⟩).env
  | created {dictionary : Table Value} {env : Environment} {p : Phrase} {default : ConceptId}
      {work : Evaluation Unit} (o : Ontology) : p.create? default = some work →
      Environment.Made dictionary env → Environment.Made dictionary (after work ⟨env, o⟩).env
  | captured {x : Variable} {body : Phrase} {env : Environment} : Value.Given (.deferred x body env) →
      Environment.Made env.dictionary env

/-- The values that can be had: those that refer to nothing but things, and those that evaluation yields,
be it of phrases or of what was deferred. -/
inductive Value.Given : Value → Prop
  | concept (c : ConceptId) : Value.Given (.concept c)
  | individual (i : IndividualId) : Value.Given (.individual i)
  | relation (r : RelationId) : Value.Given (.relation r)
  | boolean (b : Bool) : Value.Given (.boolean b)
  | mapping (domain range : ConceptId) : Value.Given (.mapping domain range)
  | tuple {bases others : List Value} : (∀ v ∈ bases, Value.Given v) → (∀ v ∈ others, Value.Given v) →
      Value.Given (.tuple bases others)
  | operator (op : Operator) : Value.Given (.operator op)
  | nothing : Value.Given .nothing
  | evaluated {dictionary : Table Value} {env : Environment} {p : Phrase} {o : Ontology} {v : Value}
      {s : State} : Environment.Made dictionary env → p.eval.run ⟨env, o⟩ = .ok v s → Value.Given v
  | resumed {x : Variable} {body : Phrase} {env : Environment} {v w : Value} {s s' : State} :
      Value.Given (.deferred x body env) → Value.Given v →
      (Value.resume x body env v).run s = .ok w s' → Value.Given w

end

theorem after_guards {α : Type} {x : Evaluation α} {s : State} {Q : α → State → Prop}
    (guards : Moves State.Guards x s Q) : s.Guards (after x s) :=
  Evaluation.after_of (Settles.mono guards (fun _ _ => And.left) fun _ => id)

theorem resume_sealed {x : Variable} {body : Phrase} {env : Environment} {v w : Value} {s s' : State}
    (deferred : (Value.deferred x body env).Sealed) (kept : v.Sealed)
    (run : (Value.resume x body env v).run s = .ok w s') : w.Sealed := by
  have guards : Moves State.Guards (Value.resume x body env v) s fun w _ => w.Sealed := by
    refine .require_bind fun env' bound => ?_
    obtain ⟨sealed, _⟩ := deferred.environment.bind kept bound
    exact guards_within (body.guards (s := { s with env := env' }) sealed)
  exact (Settles.ok guards run).2

mutual

/-- Every environment that is made is guarded, and so are those that are found by way of it. -/
theorem Environment.Made.sealed {dictionary : Table Value} {env : Environment} :
    Environment.Made dictionary env → env.Sealed ∧ env.dictionary = dictionary
  | .new given => by
    refine ⟨⟨.of dictionary, fun {name v} found => ?_⟩, rfl⟩
    have entry : dictionary.lookup name = some v := found
    obtain ⟨_, rest, split, _⟩ := List.lookup_eq_some_iff.mp entry
    exact (given (name, v) (by simp [split])).sealed
  | .bound before given bound => by
    obtain ⟨sealed, same⟩ := before.sealed
    obtain ⟨sealed', same'⟩ := sealed.bind given.sealed bound
    exact ⟨sealed', same'.trans same⟩
  | .evaluated p o before => by
    obtain ⟨sealed, same⟩ := before.sealed
    have guards := after_guards (p.guards (s := ⟨_, o⟩) sealed)
    exact ⟨guards.sealed sealed, guards.dictionary.trans same⟩
  | .created o creates before => by
    obtain ⟨sealed, same⟩ := before.sealed
    have guards := after_guards (guards_create creates (s := ⟨_, o⟩) sealed)
    exact ⟨guards.sealed sealed, guards.dictionary.trans same⟩
  | .captured given => ⟨given.sealed.environment, rfl⟩

theorem Value.Given.sealed {v : Value} : Value.Given v → v.Sealed
  | .concept c => .concept c
  | .individual i => .individual i
  | .relation r => .relation r
  | .boolean b => .boolean b
  | .mapping domain range => .mapping domain range
  | .tuple bases others =>
    .tuple (fun v member => (bases v member).sealed) fun v member => (others v member).sealed
  | .operator op => .operator op
  | .nothing => .nothing
  | .evaluated made run => (Settles.ok (Phrase.guards _ made.sealed.1) run).2
  | .resumed deferred given run => resume_sealed deferred.sealed given.sealed run

end

namespace Environment

theorem given_assign {t : Table Value} {name : String} {v : Value} (given : ∀ entry ∈ t, Value.Given entry.2)
    (last : Value.Given v) : ∀ entry ∈ Table.assign name v t, Value.Given entry.2 := by
  induction t with
  | nil => exact List.forall_mem_singleton.mpr last
  | cons first rest ih =>
    obtain ⟨n, w⟩ := first
    obtain ⟨here, there⟩ := List.forall_mem_cons.mp given
    unfold Table.assign
    split
    · exact List.forall_mem_cons.mpr ⟨last, there⟩
    · exact List.forall_mem_cons.mpr ⟨here, ih there⟩

/-- The operators and one constant make a dictionary. -/
theorem made_withOperators (constant : String) {v : Value} (given : Value.Given v) :
    Made (withOperators constant v).dictionary (withOperators constant v) := by
  refine .new (given_assign (fun entry member => ?_) given)
  have all : ∀ entry ∈ operators, ∃ op, entry.2 = .operator op := by
    simp [operators]
  obtain ⟨op, same⟩ := all entry member
  exact same ▸ .operator op

/-- Whatever becomes of an environment and of those that are copied from it, it keeps its dictionary, and
each name there stands for what the dictionary has under it, unless the name is that of the anaphora: then
it does so until anything is bound, and no longer. -/
theorem builtIn_shielded_iff {dictionary : Table Value} {env : Environment} (made : Made dictionary env)
    {name : String} (builtIn : name ∈ dictionary.map Prod.fst) :
    env.dictionary = dictionary ∧ (env.Shields name ↔ name ≠ anaphoraName ∨ env.memory = []) := by
  obtain ⟨sealed, rfl⟩ := made.sealed
  refine ⟨rfl, sealed.guarded.shields_iff ?_⟩
  exact Option.isSome_iff_ne_none.mpr fun missing => lookup_eq_none_iff.mp missing builtIn

/-- A program that declares a name and then tries to declare one that is built in. -/
def trespassing : Phrase :=
  .program [.declareConcept "A" [.concept "T"], .declareConcept "T" [.concept "A"]]

def trespassed : Environment :=
  (after trespassing.eval (.initial "T")).env

/-- The environment of a value that was deferred then, with the variable bound. -/
def released : Environment :=
  trespassed.assign "$X" (.concept ⟨2⟩)

theorem released_shields_top :
    Made (initial "T").dictionary released ∧ "T" ∈ (initial "T").dictionary.map Prod.fst ∧
      released.memory.map Prod.fst = ["A", "@", "$X"] ∧ released.dictionary = (initial "T").dictionary ∧
        released.Shields "T" := by
  have start := made_withOperators "T" (.concept Ontology.top)
  have made : Made (initial "T").dictionary trespassed := .evaluated trespassing (.initial "T") start
  have waits : (Phrase.var ⟨"X", none⟩).eval.run ⟨trespassed, .initial "T"⟩ =
      .ok (.deferred ⟨"X", none⟩ (.var ⟨"X", none⟩) trespassed) ⟨trespassed, .initial "T"⟩ := by with_unfolding_all rfl
  have kept : Made trespassed.dictionary trespassed := .captured (.evaluated made waits)
  have bound : trespassed.bind "$X" (.concept ⟨2⟩) = .ok released := by with_unfolding_all rfl
  have made' : Made (initial "T").dictionary released := made.sealed.2 ▸ .bound kept (.concept ⟨2⟩) bound
  have builtIn : "T" ∈ (initial "T").dictionary.map Prod.fst := by decide
  obtain ⟨same, shields⟩ := builtIn_shielded_iff made' builtIn
  exact ⟨made', builtIn, by with_unfolding_all rfl, same, shields.mpr (.inl (by decide))⟩

/-- The environment of a program in which the concept of everything is called like the anaphora, after a
declaration. -/
def overtaken : Environment :=
  (after (Phrase.declareConcept "A" [.anaphora]).eval (.initial "@")).env

/-- The constant is hidden by what was bound last. -/
theorem overtaken_unshielded :
    Made (initial "@").dictionary overtaken ∧ "@" ∈ (initial "@").dictionary.map Prod.fst ∧
      lookup (initial "@") "@" = .ok (.concept Ontology.top) ∧ "@" ∈ overtaken.memory.map Prod.fst ∧
        overtaken.lookup "@" = .ok (.concept ⟨2⟩) ∧ ¬overtaken.Shields "@" := by
  have start := made_withOperators "@" (.concept Ontology.top)
  have keys : overtaken.memory.map Prod.fst = ["A", "@"] := by with_unfolding_all rfl
  have hidden : "@" ∈ overtaken.memory.map Prod.fst := by rw [keys]; decide
  exact ⟨.evaluated _ _ start, by decide, by with_unfolding_all rfl, hidden, by with_unfolding_all rfl, fun shields => shields.unbound hidden⟩

end Environment

end ConceptLogic
