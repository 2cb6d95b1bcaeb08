import ConceptLogic.Evaluation.Phrase
import Mathlib.Data.List.Basic

namespace ConceptLogic

/-- Other names for everything. Different names become different ones, the mark of a variable stays, and what
is built in keeps its name. -/
structure Renaming where
  name : String → String
  base : String → String
  injective : Function.Injective name
  marked : ∀ b, name ("$" ++ b) = "$" ++ base b
  role : ∀ b, variableRole (base b) = variableRole b
  anaphora : name anaphoraName = anaphoraName
  operators : ∀ entry ∈ Environment.operators, name entry.1 = entry.1

def Variable.renamed (R : Renaming) (x : Variable) : Variable :=
  ⟨R.base x.base, x.type.map R.name⟩

namespace Phrase

mutual

def renamed (R : Renaming) : Phrase → Phrase
  | .concept name => .concept (R.name name)
  | .individual name => .individual (R.name name)
  | .relation name => .relation (R.name name)
  | .nominal members => .nominal (members.map R.name)
  | .var x => .var (x.renamed R)
  | .anaphora => .anaphora
  | .negation p => .negation (p.renamed R)
  | .restriction q r p => .restriction q (r.renamed R) (p.renamed R)
  | .junction kind ps => .junction kind (renamedAll R ps)
  | .tuple ps => .tuple (renamedAll R ps)
  | .declareIndividual name ps => .declareIndividual (R.name name) (renamedAll R ps)
  | .declareConcept name ps => .declareConcept (R.name name) (renamedAll R ps)
  | .declareRelation name p q => .declareRelation (R.name name) (p.renamed R) (q.renamed R)
  | .define name p => .define (R.name name) (p.renamed R)
  | .membership p q => .membership (p.renamed R) (q.renamed R)
  | .comparison ps tokens => .comparison (renamedAll R ps) (tokens.map R.name)
  | .mapping p q => .mapping (p.renamed R) (q.renamed R)
  | .program ps => .program (renamedAll R ps)

def renamedAll (R : Renaming) : List Phrase → List Phrase
  | [] => []
  | p :: ps => p.renamed R :: renamedAll R ps

end

end Phrase

namespace Value

mutual

/-- A value under other names. Only deferred values hold any. -/
def renamed (R : Renaming) : Value → Value
  | .tuple bases others => .tuple (renamedAll R bases) (renamedAll R others)
  | .deferred x body scope => .deferred (x.renamed R) (body.renamed R) (renamedScope R scope)
  | .concept c => .concept c
  | .individual i => .individual i
  | .relation r => .relation r
  | .boolean b => .boolean b
  | .mapping domain range => .mapping domain range
  | .operator op => .operator op
  | .nothing => .nothing

def renamedAll (R : Renaming) : List Value → List Value
  | [] => []
  | v :: vs => v.renamed R :: renamedAll R vs

def renamedScope (R : Renaming) : Scope Value → Scope Value
  | ⟨memory, dictionary⟩ => ⟨renamedTable R memory, renamedTable R dictionary⟩

def renamedTable (R : Renaming) : List (String × Value) → List (String × Value)
  | [] => []
  | entry :: rest => renamedEntry R entry :: renamedTable R rest

def renamedEntry (R : Renaming) : String × Value → String × Value
  | (name, v) => (R.name name, v.renamed R)

end

end Value

def Environment.renamed (R : Renaming) (env : Environment) : Environment := Value.renamedScope R env

def Expression.renamed (R : Renaming) : Expression → Expression
  | .named name => .named (R.name name)
  | e => e

def Entry.renamed (R : Renaming) : Entry → Entry
  | .concept e isA equivalentTo => .concept (e.renamed R) isA equivalentTo
  | .individual name types => .individual (R.name name) types
  | .relation name supers signature => .relation (R.name name) supers signature

def Ontology.renamed (R : Renaming) (o : Ontology) : Ontology := ⟨o.entries.map (Entry.renamed R)⟩

def State.renamed (R : Renaming) (s : State) : State := ⟨s.env.renamed R, s.ontology.renamed R⟩

/-- A text that is shown as the name of a concept is left open: it is made of names, among other things. -/
def Fault.renamed (R : Renaming) : Fault → Fault
  | .alreadyExists name => .alreadyExists (R.name name)
  | fault => fault

variable (R : Renaming)

namespace Phrase

variable (kind : Connective) (ps : List Phrase)

theorem renamedAll_eq_map : renamedAll R ps = ps.map (renamed R) := by
  induction ps with
  | nil => rfl
  | cons p ps ih => rw [renamedAll, ih, List.map_cons]

theorem spliced_renamed (p : Phrase) : (p.renamed R).spliced kind = (p.spliced kind).map (renamed R) := by
  cases p with
  | junction kind' qs =>
    rw [renamed, renamedAll_eq_map, spliced, spliced]
    split
    · rfl
    · rw [List.map_singleton, renamed, renamedAll_eq_map]
  | _ => rfl

theorem join_renamed : join kind (ps.map (renamed R)) = (join kind ps).renamed R := by
  have flat : (ps.map (renamed R)).flatMap (spliced kind) = (ps.flatMap (spliced kind)).map (renamed R) := by
    rw [List.flatMap_map, List.map_flatMap]
    exact List.flatMap_congr fun p _ => spliced_renamed R kind p
  unfold join
  rw [flat]
  match ps.flatMap (spliced kind) with
  | [] => rfl
  | [_] => rfl
  | p :: q :: qs =>
    simp only [List.map_cons]
    rw [renamed, renamedAll_eq_map, List.map_cons, List.map_cons]

@[simp] theorem isConcept_renamed (p : Phrase) : (p.renamed R).isConcept = p.isConcept := by
  cases p <;> rfl

theorem split_renamed (vs : List Value) : split (ps.map (renamed R)) (vs.map (Value.renamed R)) =
    ((split ps vs).1.map (Value.renamed R), (split ps vs).2.map (Value.renamed R)) := by
  induction ps generalizing vs with
  | nil => rfl
  | cons p ps ih =>
    cases vs with
    | nil => rfl
    | cons v vs =>
      rw [List.map_cons, List.map_cons, split, ih, isConcept_renamed, split]
      cases p.isConcept <;> rfl

end Phrase

namespace Value

variable (v : Value) (vs : List Value)

theorem renamedAll_eq_map : renamedAll R vs = vs.map (renamed R) := by
  induction vs with
  | nil => rfl
  | cons v vs ih => rw [renamedAll, ih, List.map_cons]

theorem renamedTable_eq_map (t : Table Value) :
    renamedTable R t = t.map fun entry => (R.name entry.1, entry.2.renamed R) := by
  induction t with
  | nil => rfl
  | cons entry t ih =>
    obtain ⟨name, v⟩ := entry
    rw [renamedTable, ih, List.map_cons, renamedEntry]

theorem kind_renamed : (v.renamed R).kind = v.kind := by
  cases v <;> rfl

theorem asOperator?_renamed : (v.renamed R).asOperator? = v.asOperator? := by
  cases v <;> rfl

theorem pending?_renamed : pending? (vs.map (renamed R)) =
    (pending? vs).map fun (x, env) => (x.renamed R, Environment.renamed R env) := by
  induction vs with
  | nil => rfl
  | cons v vs ih =>
    rw [List.map_cons]
    cases v with
    | deferred => rfl
    | _ => exact ih

end Value

namespace Environment

variable (env : Environment) (name : String) (v : Value)

theorem memory_renamed :
    (env.renamed R).memory = env.memory.map fun entry => (R.name entry.1, entry.2.renamed R) := by
  obtain ⟨memory, dictionary⟩ := env
  exact Value.renamedTable_eq_map R memory

theorem dictionary_renamed :
    (env.renamed R).dictionary = env.dictionary.map fun entry => (R.name entry.1, entry.2.renamed R) := by
  obtain ⟨memory, dictionary⟩ := env
  exact Value.renamedTable_eq_map R dictionary

theorem lookup_table_renamed (t : Table Value) :
    (t.map fun entry => (R.name entry.1, entry.2.renamed R)).lookup (R.name name) =
      (t.lookup name).map (Value.renamed R) := by
  induction t with
  | nil => rfl
  | cons entry t ih =>
    obtain ⟨n, w⟩ := entry
    have same : (R.name name == R.name n) = (name == n) := by
      rw [Bool.beq_eq_decide_eq, Bool.beq_eq_decide_eq, decide_eq_decide, R.injective.eq_iff]
    rw [List.map_cons, List.lookup_cons, List.lookup_cons, ih, same]
    cases name == n <;> rfl

theorem find?_renamed : (env.renamed R).find? (R.name name) = (env.find? name).map (Value.renamed R) := by
  rw [Scope.find?, Scope.find?, memory_renamed, dictionary_renamed, lookup_table_renamed, lookup_table_renamed]
  cases env.memory.lookup name <;> rfl

theorem knows_renamed : (env.renamed R).knows (R.name name) = env.knows name := by
  rw [Scope.knows, Scope.knows, find?_renamed, Option.isSome_map]

theorem isBuiltIn_renamed : (env.renamed R).isBuiltIn (R.name name) = env.isBuiltIn name := by
  rw [Scope.isBuiltIn, Scope.isBuiltIn, dictionary_renamed, lookup_table_renamed, Option.isSome_map]

theorem assign_table_renamed (t : Table Value) :
    Table.assign (R.name name) (v.renamed R) (t.map fun entry => (R.name entry.1, entry.2.renamed R)) =
      (Table.assign name v t).map fun entry => (R.name entry.1, entry.2.renamed R) := by
  induction t with
  | nil => rfl
  | cons entry t ih =>
    obtain ⟨n, w⟩ := entry
    rw [List.map_cons, Table.assign, Table.assign, ih]
    by_cases same : n = name
    · simp [same]
    · simp [same, R.injective.ne same]

theorem assign_renamed :
    (env.renamed R).assign (R.name name) (v.renamed R) = Environment.renamed R (env.assign name v) := by
  have parts : ∀ env' : Environment, env'.renamed R = ⟨(env'.renamed R).memory, (env'.renamed R).dictionary⟩ :=
    fun _ => rfl
  rw [parts (env.assign name v), memory_renamed, dictionary_renamed]
  unfold Scope.assign
  rw [memory_renamed, dictionary_renamed, assign_table_renamed, ← assign_table_renamed R anaphoraName, R.anaphora]

end Environment

namespace Expression

variable {R}

theorem renamed_inj {e e' : Expression} : e.renamed R = e'.renamed R ↔ e = e' := by
  constructor
  · intro same
    cases e with
    | named n =>
      cases e' with
      | named m => rw [R.injective (Expression.named.inj same)]
      | _ => cases same
    | _ =>
      cases e' with
      | named => cases same
      | _ => exact same
  · exact congrArg _

end Expression

namespace Ontology

variable (o : Ontology) (c d : ConceptId) (i : IndividualId) (r s : RelationId)

@[simp] theorem size_renamed : (o.renamed R).size = o.size := Array.size_map ..

theorem thing?_renamed (n : Nat) : (o.renamed R).thing? n = (o.thing? n).map (Entry.renamed R) := by
  cases n with
  | zero => rfl
  | succ n => exact Array.getElem?_map ..

theorem expression?_renamed : (o.renamed R).expression? c = (o.expression? c).map (Expression.renamed R) := by
  unfold expression?
  rw [thing?_renamed]
  rcases o.thing? c.id with _ | _ | _ | _ <;> rfl

theorem isA_renamed : (o.renamed R).isA c = o.isA c := by
  unfold isA
  rw [thing?_renamed]
  rcases o.thing? c.id with _ | _ | _ | _ <;> rfl

@[simp] theorem equivalentTo_renamed : (o.renamed R).equivalentTo c = o.equivalentTo c := by
  unfold equivalentTo
  rw [thing?_renamed]
  rcases o.thing? c.id with _ | _ | _ | _ <;> rfl

@[simp] theorem told_renamed : (o.renamed R).told c = o.told c := by
  rw [told, told, isA_renamed, equivalentTo_renamed]

@[simp] theorem types_renamed : (o.renamed R).types i = o.types i := by
  unfold types
  rw [thing?_renamed]
  rcases o.thing? i.id with _ | _ | _ | _ <;> rfl

theorem individualName?_renamed : (o.renamed R).individualName? i = (o.individualName? i).map R.name := by
  unfold individualName?
  rw [thing?_renamed]
  rcases o.thing? i.id with _ | _ | _ | _ <;> rfl

theorem relationName?_renamed : (o.renamed R).relationName? r = (o.relationName? r).map R.name := by
  unfold relationName?
  rw [thing?_renamed]
  rcases o.thing? r.id with _ | _ | _ | _ <;> rfl

@[simp] theorem supers_renamed : (o.renamed R).supers r = o.supers r := by
  unfold supers
  rw [thing?_renamed]
  rcases o.thing? r.id with _ | _ | _ | _ <;> rfl

/-- What is looked for is found at the same place if it is the same but for the names. -/
theorem find?_renamed {p p' : Entry → Bool} (same : ∀ entry, p' (entry.renamed R) = p entry) :
    (o.renamed R).find? p' = o.find? p := by
  unfold find? renamed
  rw [Array.findIdx?_map]
  exact congrArg (fun p => (o.entries.findIdx? p).map (· + 1)) (funext same)

theorem conceptOf?_renamed (e : Expression) : (o.renamed R).conceptOf? (e.renamed R) = o.conceptOf? e := by
  refine congrArg (Option.map Handle.mk) (find?_renamed R o fun entry => ?_)
  cases entry with
  | concept => exact decide_eq_decide.mpr Expression.renamed_inj
  | _ => rfl

theorem individualNamed?_renamed (name : String) :
    (o.renamed R).individualNamed? (R.name name) = o.individualNamed? name := by
  refine congrArg (Option.map Handle.mk) (find?_renamed R o fun entry => ?_)
  cases entry with
  | individual => exact decide_eq_decide.mpr R.injective.eq_iff
  | _ => rfl

theorem relationNamed?_renamed (name : String) :
    (o.renamed R).relationNamed? (R.name name) = o.relationNamed? name := by
  refine congrArg (Option.map Handle.mk) (find?_renamed R o fun entry => ?_)
  cases entry with
  | relation => exact decide_eq_decide.mpr R.injective.eq_iff
  | _ => rfl

theorem count_renamed {p : Entry → Bool} (same : ∀ entry, p (entry.renamed R) = p entry) :
    (o.renamed R).entries.countP p = o.entries.countP p := by
  unfold renamed
  rw [Array.countP_map]
  exact congrArg (fun p => o.entries.countP p) (funext same)

theorem conceptCount_renamed : (o.renamed R).conceptCount = o.conceptCount :=
  count_renamed R o fun entry => by cases entry <;> rfl

theorem individualCount_renamed : (o.renamed R).individualCount = o.individualCount :=
  count_renamed R o fun entry => by cases entry <;> rfl

/-! Reasoning looks at the numbers of things and how they are made, and never at a name. -/

section Reasoning

variable {m : Type → Type} [Monad m] (ask : Query → m Bool)

@[simp] theorem above_renamed : (o.renamed R).above c = o.above c := by
  simp only [above, told_renamed, size_renamed]

@[simp] theorem isSubRelation_renamed : (o.renamed R).isSubRelation r s = o.isSubRelation r s := by
  simp only [isSubRelation, supers_renamed, size_renamed]

theorem byForm_renamed (e e' : Expression) : (o.renamed R).byForm ask e e' = o.byForm ask e e' := by
  cases e with
  | restriction =>
    cases e' with
    | restriction => simp only [byForm, isSubRelation_renamed]
    | _ => rfl
  | negation => cases e' <;> rfl
  | _ => rfl

theorem byTelling_renamed : (o.renamed R).byTelling ask c d = o.byTelling ask c d := by
  simp only [byTelling, above_renamed, told_renamed, equivalentTo_renamed]

theorem decideSubsumed_renamed : (o.renamed R).decideSubsumed ask c d = o.decideSubsumed ask c d := by
  simp only [decideSubsumed, expression?_renamed, byTelling_renamed, byForm_renamed]
  rcases o.expression? c with _ | _ | _ | _ | _ | _ | _ <;>
    rcases o.expression? d with _ | _ | _ | _ | _ | _ | _ <;> rfl

theorem decideMember_renamed : (o.renamed R).decideMember ask i d = o.decideMember ask i d := by
  simp only [decideMember, types_renamed, equivalentTo_renamed]

theorem step_renamed (noting : Query → m Bool → m Bool) (q : Query) :
    (o.renamed R).step ask noting q = o.step ask noting q := by
  cases q with
  | subsumed c d => simp only [step, decideSubsumed_renamed]
  | member i d =>
    simp only [step, decideMember_renamed, expression?_renamed]
    rcases o.expression? d with _ | _ | _ | _ | _ | _ | _ <;> rfl

theorem search_renamed (fuel : Nat) (q : Query) : (o.renamed R).search fuel q = o.search fuel q := by
  induction fuel generalizing q with
  | zero => rfl
  | succ fuel ih =>
    rw [search, search, step_renamed]
    exact congrArg (fun ask => o.step ask Notes.noting q) (funext ih)

/-- No answer depends on a name. -/
theorem answer_renamed (q : Query) : (o.renamed R).answer q = o.answer q := by
  unfold answer
  rw [search_renamed, searchDepth, searchDepth, size_renamed]

end Reasoning

end Ontology

end ConceptLogic
