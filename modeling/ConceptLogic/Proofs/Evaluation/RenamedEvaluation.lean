import ConceptLogic.Proofs.Evaluation.CarriedWork

namespace ConceptLogic

/-- The errors of an evaluation that are the same but for names. How the text of a value comes out is left
open. -/
inductive Error.Renamed (R : Renaming) : Error → Error → Prop
  | unboundName (name : String) : Renamed R (.unboundName name) (.unboundName (R.name name))
  | immutableRebind (name : String) : Renamed R (.immutableRebind name) (.immutableRebind (R.name name))
  | unboundOperator (token : String) : Renamed R (.unboundOperator token) (.unboundOperator (R.name token))
  | kind (expected found : Kind) :
      Renamed R (.typeMismatch (.kind expected found)) (.typeMismatch (.kind expected found))
  | operator (token : String) (found : Kind) :
      Renamed R (.typeMismatch (.operator token found)) (.typeMismatch (.operator (R.name token) found))
  | count (op : Operator) (expected found : Nat) :
      Renamed R (.typeMismatch (.count op expected found)) (.typeMismatch (.count op expected found))
  | ofType (role : Role) (type found found' : String) :
      Renamed R (.typeMismatch (.ofType role type found)) (.typeMismatch (.ofType role (R.name type) found'))
  | refused (fault : Fault) : Renamed R (.refused fault) (.refused (fault.renamed R))

namespace Renaming

open Evaluation

variable (R : Renaming)

/-- Whether something comes of names as it does of other names. -/
def Answers {α β : Type} (f : α → β) (x : Except Error α) (y : Except Error β) : Prop :=
  match x with
  | .ok a => y = .ok (f a)
  | .error e => ∃ e', y = .error e' ∧ e.Renamed R e'

/-- Whether an evaluation does under other names what another one does. -/
def Evaluates {α β : Type} (f : α → β) (x : Evaluation α) (y : Evaluation β) : Prop :=
  ∀ s, Carries (Error.Renamed R) (State.renamed R) f x s y

namespace Evaluates

variable {R} {α β γ δ : Type} {f : α → β} {g : γ → δ}

theorem pure (a : α) : R.Evaluates f (Pure.pure a) (Pure.pure (f a)) := fun _ => .pure a

theorem throw {e e' : Error} (like : e.Renamed R e') :
    R.Evaluates f (throw e : Evaluation α) (throw e' : Evaluation β) := fun _ => .throw like

theorem bind {x : Evaluation α} {y : Evaluation β} {h : α → Evaluation γ} {k : β → Evaluation δ}
    (first : R.Evaluates f x y) (next : ∀ a, R.Evaluates g (h a) (k (f a))) :
    R.Evaluates g (x >>= h) (y >>= k) :=
  fun s => (first s).bind fun a s' => next a s'

theorem map {x : Evaluation α} {y : Evaluation β} {h : α → γ} {k : β → δ} (evaluates : R.Evaluates f x y)
    (same : ∀ a, k (f a) = g (h a)) : R.Evaluates g (h <$> x) (k <$> y) :=
  fun s => (evaluates s).map same

theorem get_bind {h : State → Evaluation γ} {k : State → Evaluation δ}
    (next : ∀ s, R.Evaluates g (h s) (k (s.renamed R))) : R.Evaluates g (get >>= h) (get >>= k) :=
  fun s => .get_bind (next s s)

theorem require {x : Except Error α} {y : Except Error β} (same : R.Answers f x y) :
    R.Evaluates f (Evaluation.require x) (Evaluation.require y) := by
  cases x with
  | ok a =>
    cases same
    exact .pure a
  | error e =>
    obtain ⟨e', rfl, like⟩ := same
    exact .throw like

theorem building {b b' : Building α} (builds : R.Builds b b') :
    R.Evaluates id (Evaluation.building b) (Evaluation.building b') := by
  intro s
  have carries := builds s.ontology
  have ontology : (s.renamed R).ontology = s.ontology.renamed R := rfl
  unfold Carries at carries ⊢
  rw [run_building, run_building, ontology]
  cases outcome : b.run s.ontology with
  | ok a o =>
    rw [outcome] at carries
    rw [carries]
    rfl
  | error fault o =>
    rw [outcome] at carries
    obtain ⟨_, outcome', rfl⟩ := carries
    rw [outcome']
    exact ⟨_, rfl, .refused fault⟩

end Evaluates

section Taking

/-- Whether something is taken from values as it is from the same values under other names. -/
def Takes {α : Type} (take : Value → Except Error α) : Prop :=
  ∀ v : Value, R.Answers id (take v) (take (v.renamed R))

theorem takesConcept : R.Takes Value.asConcept := by
  rintro ⟨⟩
  case concept => rfl
  all_goals exact ⟨_, rfl, .kind _ _⟩

theorem takesIndividual : R.Takes Value.asIndividual := by
  rintro ⟨⟩
  case individual => rfl
  all_goals exact ⟨_, rfl, .kind _ _⟩

theorem takesRelation : R.Takes Value.asRelation := by
  rintro ⟨⟩
  case relation => rfl
  all_goals exact ⟨_, rfl, .kind _ _⟩

theorem takesBoolean : R.Takes Value.asBoolean := by
  rintro ⟨⟩
  case boolean => rfl
  all_goals exact ⟨_, rfl, .kind _ _⟩

namespace Takes

variable {R} {α : Type} {take : Value → Except Error α} (takes : R.Takes take)
include takes

theorem evaluates (v : Value) : R.Evaluates id (require (take v)) (require (take (v.renamed R))) :=
  .require (takes v)

/-- The first value that is refused is so under either names. -/
theorem evaluates_each (vs : List Value) : R.Evaluates id (require (vs.mapM take))
    (require ((vs.map (Value.renamed R)).mapM take)) := by
  refine .require ?_
  induction vs with
  | nil => rfl
  | cons v vs ih =>
    have first := takes v
    unfold Answers at first ih ⊢
    rw [List.map_cons, List.mapM_cons, List.mapM_cons]
    cases taken : take v with
    | error e =>
      rw [taken] at first
      obtain ⟨e', taken', like⟩ := first
      rw [taken']
      exact ⟨e', rfl, like⟩
    | ok a =>
      rw [taken] at first
      rw [first]
      cases others : vs.mapM take with
      | error e =>
        rw [others] at ih
        obtain ⟨e', others', like⟩ := ih
        rw [others']
        exact ⟨e', rfl, like⟩
      | ok as =>
        rw [others] at ih
        rw [ih]
        rfl

end Takes

end Taking

section Names

theorem lookup_evaluates (name : String) :
    R.Evaluates (Value.renamed R) (lookup name) (lookup (R.name name)) := by
  refine .get_bind fun s => .require ?_
  have same : (s.renamed R).env.find? (R.name name) = (s.env.find? name).map (Value.renamed R) :=
    Environment.find?_renamed R s.env name
  unfold Environment.lookup
  rw [same]
  cases s.env.find? name with
  | none => exact ⟨_, rfl, .unboundName name⟩
  | some v => rfl

theorem anaphora_evaluates :
    R.Evaluates (Value.renamed R) (lookup anaphoraName) (lookup anaphoraName) := by
  have found := R.lookup_evaluates anaphoraName
  rwa [R.anaphora] at found

theorem resolve_evaluates (token : String) : R.Evaluates id (resolve token) (resolve (R.name token)) := by
  refine .get_bind fun s => .require ?_
  have same : (s.renamed R).env.find? (R.name token) = (s.env.find? token).map (Value.renamed R) :=
    Environment.find?_renamed R s.env token
  unfold Environment.resolve
  rw [same]
  cases s.env.find? token with
  | none => exact ⟨_, rfl, .unboundOperator token⟩
  | some v =>
    dsimp only [Option.map]
    rw [Value.asOperator?_renamed, Value.kind_renamed]
    cases v.asOperator? with
    | none => exact ⟨_, rfl, .operator token v.kind⟩
    | some op => rfl

theorem token_evaluates (op : Operator) : R.Evaluates id (resolve op.token) (resolve op.token) := by
  have fixed : R.name op.token = op.token := by
    refine R.operators (op.token, .operator op) ?_
    cases op <;> simp [Environment.operators]
  have resolved := R.resolve_evaluates op.token
  rwa [fixed] at resolved

theorem assignable_answers (env : Environment) (name : String) :
    R.Answers id (env.assignable name) ((env.renamed R).assignable (R.name name)) := by
  unfold Environment.assignable
  rw [Environment.isBuiltIn_renamed]
  cases env.isBuiltIn name with
  | true => exact ⟨_, rfl, .immutableRebind name⟩
  | false => rfl

theorem assignable_evaluates (name : String) :
    R.Evaluates id (assignable name) (assignable (R.name name)) :=
  .get_bind fun s => .require (R.assignable_answers s.env name)

theorem bind_evaluates (name : String) (v : Value) :
    R.Evaluates id (Evaluation.bind name v) (Evaluation.bind (R.name name) (v.renamed R)) := by
  refine .get_bind fun s => ?_
  have bound : R.Evaluates (Environment.renamed R) (require (s.env.bind name v))
      (require ((s.renamed R).env.bind (R.name name) (v.renamed R))) := by
    refine .require ?_
    have free := R.assignable_answers s.env name
    have assigned := Environment.assign_renamed R s.env name v
    have env : (s.renamed R).env = s.env.renamed R := rfl
    rw [env]
    unfold Environment.bind
    cases outcome : s.env.assignable name with
    | ok =>
      rw [outcome] at free
      rw [free]
      exact congrArg Except.ok assigned
    | error e =>
      rw [outcome] at free
      obtain ⟨e', outcome', like⟩ := free
      rw [outcome']
      exact ⟨e', rfl, like⟩
  exact bound.bind fun env _ => rfl

end Names

section Operators

/-- A concept that is made is the same under other names. -/
theorem making {b b' : Building ConceptId} (builds : R.Builds b b') :
    R.Evaluates (Value.renamed R) (do return .concept (← building b)) (do return .concept (← building b')) :=
  (Evaluates.building builds).bind fun c => .pure (Value.concept c)

theorem asking {b b' : Building Bool} (builds : R.Builds b b') :
    R.Evaluates (Value.renamed R) (do return .boolean (← building b)) (do return .boolean (← building b')) :=
  (Evaluates.building builds).bind fun b => .pure (Value.boolean b)

theorem apply_evaluates (op : Operator) (vs : List Value) :
    R.Evaluates (Value.renamed R) (op.apply vs) (op.apply (vs.map (Value.renamed R))) := by
  have compared : ∀ op v w, R.Evaluates (Value.renamed R) (do
      let c ← require (Value.asConcept v)
      let d ← require (Value.asConcept w)
      return .boolean (← building (Operator.compares op c d))) (do
      let c ← require (v.renamed R).asConcept
      let d ← require (w.renamed R).asConcept
      return .boolean (← building (Operator.compares op c d))) := fun op v w =>
    (R.takesConcept.evaluates v).bind fun c => (R.takesConcept.evaluates w).bind fun d =>
      R.asking (R.compares_builds op c d)
  cases op with
  | conjunction => exact (R.takesConcept.evaluates_each vs).bind fun cs => R.making (R.conjunction_builds cs)
  | disjunction => exact (R.takesConcept.evaluates_each vs).bind fun cs => R.making (R.disjunction_builds cs)
  | exclusiveDisjunction =>
    refine (R.takesConcept.evaluates_each vs).bind fun cs => ?_
    cases cs with
    | nil => exact .throw (.count _ _ _)
    | cons c cs => exact R.making (R.foldlM_either_builds c cs)
  | negation =>
    match vs with
    | [v] => exact (R.takesConcept.evaluates v).bind fun c => R.making (R.negation_builds c)
    | [] => exact .throw (.count _ _ _)
    | v :: w :: vs =>
      simp only [Operator.apply, List.map_cons, List.length_cons, List.length_map]
      exact .throw (.count _ _ _)
  | _ =>
    match vs with
    | [v, w] => exact compared _ v w
    | [] => exact .throw (.count _ _ _)
    | [v] => exact .throw (.count _ _ _)
    | v :: w :: x :: vs =>
      simp only [Operator.apply, List.map_cons, List.length_cons, List.length_map]
      exact .throw (.count _ _ _)

theorem compareNeighbours_evaluates (tokens : List String) (vs : List Value) :
    R.Evaluates id (compareNeighbours tokens vs)
      (compareNeighbours (tokens.map R.name) (vs.map (Value.renamed R))) := by
  induction tokens generalizing vs with
  | nil => exact .pure true
  | cons token tokens ih =>
    match vs with
    | [] => exact .pure true
    | [_] => exact .pure true
    | v :: w :: rest =>
      refine (R.resolve_evaluates token).bind fun op => (R.apply_evaluates op [v, w]).bind fun z => ?_
      refine (R.takesBoolean.evaluates z).bind fun holds => ?_
      cases holds with
      | true => exact ih (w :: rest)
      | false => exact .pure false

end Operators

section Variables

theorem name_renamed (x : Variable) : (x.renamed R).name = R.name x.name := (R.marked x.base).symm

theorem role_renamed (x : Variable) : (x.renamed R).role = x.role := R.role x.base

theorem checkType_evaluates (x : Variable) (v : Value) :
    R.Evaluates id (checkType x v) (checkType (x.renamed R) (v.renamed R)) := by
  unfold checkType
  rw [role_renamed]
  obtain ⟨base, type⟩ := x
  cases type with
  | none => exact .pure ()
  | some type =>
    have judged : ∀ (role : Role) (fits : Bool), R.Evaluates id (do
        unless fits do throw (.typeMismatch (.ofType role type (v.text (← get).ontology)))) (do
        unless fits do throw (.typeMismatch
          (.ofType role (R.name type) ((v.renamed R).text (← get).ontology)))) := by
      intro role fits
      cases fits with
      | true => exact .pure ()
      | false => exact .get_bind fun s => .throw (.ofType _ _ _ _)
    refine (R.lookup_evaluates type).bind fun w => (R.takesConcept.evaluates w).bind fun c => ?_
    dsimp only
    split
    · exact (R.takesIndividual.evaluates v).bind fun i =>
        (Evaluates.building (R.isInstanceOf_builds i c)).bind fun fits => judged _ fits
    · exact (R.takesConcept.evaluates v).bind fun d =>
        (Evaluates.building (R.isSubsumedBy_builds d c)).bind fun fits => judged _ fits

theorem variableValue_evaluates (x : Variable) :
    R.Evaluates (Value.renamed R) (variableValue x) (variableValue (x.renamed R)) := by
  refine .get_bind fun s => ?_
  have knows : (s.renamed R).env.knows (x.renamed R).name = s.env.knows x.name := by
    rw [R.name_renamed]
    exact Environment.knows_renamed R s.env x.name
  dsimp only
  rw [knows]
  split
  · rw [R.name_renamed]
    exact (R.lookup_evaluates x.name).bind fun v => (R.checkType_evaluates x v).bind fun _ => .pure v
  · exact .pure (Value.deferred x (.var x) s.env)

theorem individualNamed_evaluates (name : String) :
    R.Evaluates id (individualNamed name) (individualNamed (R.name name)) :=
  (R.lookup_evaluates name).bind fun v => R.takesIndividual.evaluates v

theorem individuals_evaluates (names : List String) :
    R.Evaluates id (names.mapM individualNamed) ((names.map R.name).mapM individualNamed) := by
  intro s
  have each := Carries.mapM (f := id) (s := s) R.individualNamed_evaluates names
  rwa [List.map_id_fun] at each

end Variables

section Declarations

variable {R} (name : String) (default : ConceptId)

/-- The values of a tuple's parts under other names. -/
def renamedParts (R : Renaming) (parts : List Value × List Value) : List Value × List Value :=
  (parts.1.map (Value.renamed R), parts.2.map (Value.renamed R))

variable {rhs rhs' : Evaluation (List Value × List Value)}

theorem declareIndividual_evaluates (evaluates : R.Evaluates (renamedParts R) rhs rhs') :
    R.Evaluates id (declareIndividual name rhs default) (declareIndividual (R.name name) rhs' default) := by
  refine (R.assignable_evaluates name).bind fun _ => evaluates.bind fun (bases, others) => ?_
  refine (R.takesConcept.evaluates_each bases).bind fun cs => (R.takesConcept.evaluates_each others).bind fun ds => ?_
  refine (Evaluates.building (R.createIndividual_builds name (cs.headD default))).bind fun i => ?_
  refine (Evaluates.building (.forM (R.addIsA_builds (.individual i)) (cs.tail ++ ds))).bind fun _ => ?_
  exact R.bind_evaluates name (.individual i)

theorem declaresRelation_renamed (bases others : List Value) :
    declaresRelation (bases.map (Value.renamed R)) (others.map (Value.renamed R)) =
      declaresRelation bases others := by
  unfold declaresRelation
  rw [List.isEmpty_map, List.isEmpty_map, List.all_map]
  refine congrArg (fun f => !bases.isEmpty && others.isEmpty && bases.all f) (funext fun v => ?_)
  cases v <;> rfl

theorem declareConcept_evaluates (evaluates : R.Evaluates (renamedParts R) rhs rhs') :
    R.Evaluates id (declareConcept name rhs default) (declareConcept (R.name name) rhs' default) := by
  refine (R.assignable_evaluates name).bind fun _ => evaluates.bind fun (bases, others) => ?_
  dsimp only [renamedParts]
  rw [declaresRelation_renamed]
  split
  · refine (R.takesRelation.evaluates_each bases).bind fun rs => ?_
    refine (Evaluates.building (R.createRelation_builds name rs)).bind fun r => ?_
    exact R.bind_evaluates name (.relation r)
  · refine (R.takesConcept.evaluates_each bases).bind fun cs => (R.takesConcept.evaluates_each others).bind fun ds => ?_
    refine (Evaluates.building (R.createConcept_builds name _)).bind fun c => ?_
    refine (Evaluates.building (.forM (R.addIsA_builds (.concept c)) ds)).bind fun _ => ?_
    exact R.bind_evaluates name (.concept c)

theorem declareRelation_evaluates {rhs rhs' : Evaluation (ConceptId × ConceptId)}
    (evaluates : R.Evaluates id rhs rhs') :
    R.Evaluates id (declareRelation name rhs) (declareRelation (R.name name) rhs') := by
  refine (R.assignable_evaluates name).bind fun _ => evaluates.bind fun (domain, range) => ?_
  refine (Evaluates.building (R.createRelation_builds name [])).bind fun r => ?_
  refine (Evaluates.building (R.setSignature_builds r domain range)).bind fun _ => ?_
  exact R.bind_evaluates name (.relation r)

theorem define_evaluates {rhs rhs' : Evaluation ConceptId} (evaluates : R.Evaluates id rhs rhs') :
    R.Evaluates id (define name rhs default) (define (R.name name) rhs' default) := by
  refine (R.assignable_evaluates name).bind fun _ => evaluates.bind fun body => ?_
  refine (Evaluates.building (R.createConcept_builds name [default])).bind fun c => ?_
  refine (Evaluates.building (R.addEquivalence_builds c body)).bind fun _ => ?_
  exact R.bind_evaluates name (.concept c)

end Declarations

section Parts

/-- Whether a phrase under other names has the value under other names. -/
def Keeps (p : Phrase) : Prop := R.Evaluates (Value.renamed R) p.eval (p.renamed R).eval

variable {R}

theorem evalAll_evaluates {ps : List Phrase} (each : ∀ p ∈ ps, R.Keeps p) :
    R.Evaluates (List.map (Value.renamed R)) (Phrase.evalAll ps) (Phrase.evalAll (Phrase.renamedAll R ps)) := by
  induction ps with
  | nil => exact .pure []
  | cons p ps ih =>
    obtain ⟨first, others⟩ := List.forall_mem_cons.mp each
    exact first.bind fun v => (ih others).bind fun vs => .pure (v :: vs)

theorem parts_evaluates {ps : List Phrase} (each : ∀ p ∈ ps, R.Keeps p) :
    R.Evaluates (renamedParts R) (Phrase.split ps <$> Phrase.evalAll ps)
      (Phrase.split (Phrase.renamedAll R ps) <$> Phrase.evalAll (Phrase.renamedAll R ps)) :=
  (evalAll_evaluates each).map fun vs => by
    rw [Phrase.renamedAll_eq_map, Phrase.split_renamed]
    rfl

theorem concept_evaluates {p : Phrase} (keeps : R.Keeps p) : R.Evaluates id (do require (← p.eval).asConcept)
    (do require (← (p.renamed R).eval).asConcept) :=
  keeps.bind fun v => R.takesConcept.evaluates v

theorem mapping_evaluates {p q : Phrase} (domain : R.Keeps p) (range : R.Keeps q) : R.Evaluates id (do
      let domain ← require (← p.eval).asConcept
      return (domain, ← require (← q.eval).asConcept)) (do
      let domain ← require (← (p.renamed R).eval).asConcept
      return (domain, ← require (← (q.renamed R).eval).asConcept)) :=
  domain.bind fun v => (R.takesConcept.evaluates v).bind fun c => range.bind fun w =>
    (R.takesConcept.evaluates w).bind fun d => .pure (c, d)

end Parts

/-- Evaluation does not look at names. A phrase under other names is evaluated, where everything has its other
name, to the same value under other names, or fails with the same error under other names; and so is what it
leaves behind. -/
theorem keeps (p : Phrase) : R.Keeps p := by
  match p with
  | .concept name | .individual name | .relation name => exact R.lookup_evaluates name
  | .nominal members =>
    exact (R.individuals_evaluates members).bind fun is => R.making (R.nominal_builds is)
  | .var x => exact R.variableValue_evaluates x
  | .anaphora => exact R.anaphora_evaluates
  | .negation p =>
    refine (R.token_evaluates .negation).bind fun op => (keeps p).bind fun v => ?_
    cases v with
    | deferred x body env => exact .pure (Value.deferred x (.negation p) env)
    | _ => exact R.apply_evaluates op [_]
  | .restriction q r p =>
    refine (keeps r).bind fun y => (R.takesRelation.evaluates y).bind fun relation => (keeps p).bind fun v => ?_
    have restricted : ∀ v, R.Evaluates (Value.renamed R) (do
        let c ← require (Value.asConcept v)
        return .concept (← building (Building.restriction q relation c))) (do
        let c ← require (v.renamed R).asConcept
        return .concept (← building (Building.restriction q relation c))) :=
      fun v => (R.takesConcept.evaluates v).bind fun c => R.making (R.restriction_builds q relation c)
    cases v with
    | deferred x body env => exact .pure (Value.deferred x (.restriction q r p) env)
    | _ => exact restricted _
  | .junction kind ps =>
    have token := R.token_evaluates kind.operator
    rw [kind.operator_token] at token
    refine token.bind fun op => (evalAll_evaluates fun p _ => keeps p).bind fun vs => ?_
    rw [Value.pending?_renamed]
    cases Value.pending? vs with
    | none => exact R.apply_evaluates op vs
    | some pending =>
      have joined := Phrase.join_renamed R kind ps
      rw [← Phrase.renamedAll_eq_map] at joined
      dsimp only [Option.map]
      rw [joined]
      exact .pure (Value.deferred pending.1 (.join kind ps) pending.2)
  | .tuple ps =>
    refine (evalAll_evaluates fun p _ => keeps p).bind fun vs => ?_
    rw [Phrase.renamedAll_eq_map, Phrase.split_renamed]
    have tuple : (Value.tuple (Phrase.split ps vs).1 (Phrase.split ps vs).2).renamed R =
        .tuple ((Phrase.split ps vs).1.map (Value.renamed R)) ((Phrase.split ps vs).2.map (Value.renamed R)) := by
      rw [Value.renamed, Value.renamedAll_eq_map, Value.renamedAll_eq_map]
    dsimp only
    rw [← tuple]
    exact .pure (Value.tuple (Phrase.split ps vs).1 (Phrase.split ps vs).2)
  | .declareIndividual name ps =>
    exact (declareIndividual_evaluates name _ (parts_evaluates fun p _ => keeps p)).bind fun _ =>
      .pure Value.nothing
  | .declareConcept name ps =>
    exact (declareConcept_evaluates name _ (parts_evaluates fun p _ => keeps p)).bind fun _ =>
      .pure Value.nothing
  | .declareRelation name p q =>
    exact (declareRelation_evaluates name (mapping_evaluates (keeps p) (keeps q))).bind fun _ =>
      .pure Value.nothing
  | .define name p =>
    exact (define_evaluates name _ (concept_evaluates (keeps p))).bind fun _ => .pure Value.nothing
  | .membership p q =>
    refine (keeps p).bind fun v => (keeps q).bind fun w => ?_
    have pending := Value.pending?_renamed R [v, w]
    rw [List.map_cons, List.map_singleton] at pending
    rw [pending]
    cases Value.pending? [v, w] with
    | none =>
      exact (R.takesIndividual.evaluates v).bind fun i => (R.takesConcept.evaluates w).bind fun c =>
        R.asking (R.isInstanceOf_builds i c)
    | some pending => exact .pure (Value.deferred pending.1 (.membership p q) pending.2)
  | .comparison ps tokens =>
    refine (evalAll_evaluates fun p _ => keeps p).bind fun vs => ?_
    rw [Value.pending?_renamed]
    cases Value.pending? vs with
    | none => exact (R.compareNeighbours_evaluates tokens vs).bind fun b => .pure (Value.boolean b)
    | some pending => exact .pure (Value.deferred pending.1 (.comparison ps tokens) pending.2)
  | .mapping p q =>
    refine (keeps p).bind fun v => (R.takesConcept.evaluates v).bind fun domain => ?_
    refine (keeps q).bind fun w => (R.takesConcept.evaluates w).bind fun range => ?_
    exact .pure (Value.mapping domain range)
  | .program ps =>
    refine (evalAll_evaluates fun p _ => keeps p).bind fun vs => ?_
    have last : (vs.map (Value.renamed R)).getLastD .nothing = (vs.getLastD .nothing).renamed R := by
      rw [List.getLastD_eq_getLast?, List.getLastD_eq_getLast?, List.getLast?_map]
      cases vs.getLast? <;> rfl
    rw [last]
    exact .pure _
termination_by p

end Renaming

end ConceptLogic
