import ConceptLogic.Evaluation.Phrase
import ConceptLogic.Proofs.Evaluation.PhraseDenotation
import ConceptLogic.Proofs.Grammar.PrintedStatements

namespace ConceptLogic

open Evaluation

universe u

namespace State

/-- What statements that declare nothing do to a state. -/
structure Extends (s s' : State) : Prop where
  env : s'.env = s.env
  ontology : s.ontology.Extends s'.ontology

instance : Std.Refl Extends := ⟨fun s => ⟨rfl, Std.Refl.refl s.ontology⟩⟩

instance : IsTrans State Extends :=
  ⟨fun s s' s'' first second => ⟨second.env.trans first.env,
    IsTrans.trans s.ontology s'.ontology s''.ontology first.ontology second.ontology⟩⟩

/-- What evaluation relies on: what is bound is known, names stand for what the ontology keeps under
them, and the operators are where their tokens lead. -/
structure Ready (s : State) : Prop where
  kept : s.ontology.Kept
  known : ∀ {name v}, s.env.find? name = some v → v.Known s.ontology
  named : ∀ {name v}, name ≠ anaphoraName → s.env.find? name = some v →
    (∃ op, v = .operator op) ∨ s.ontology.Names name v
  operator : ∀ {op op' : Operator}, s.env.find? op.token = some (.operator op') → op' = op

theorem Ready.lasts {s s' : State} (ready : s.Ready) (adds : s.Extends s') : s'.Ready where
  kept := adds.ontology.kept ready.kept
  known found := (ready.known (adds.env ▸ found)).within adds.ontology.annexes.within
  named differs found := (ready.named differs (adds.env ▸ found)).imp_right adds.ontology.upholds.names.mpr
  operator found := ready.operator (adds.env ▸ found)

end State

namespace Value

variable {v : Value} {vs : List Value}

theorem asConcept_eq_ok {c : ConceptId} (taken : v.asConcept = .ok c) : v = .concept c := by
  cases v <;> cases taken
  rfl

theorem asIndividual_eq_ok {i : IndividualId} (taken : v.asIndividual = .ok i) : v = .individual i := by
  cases v <;> cases taken
  rfl

theorem asRelation_eq_ok {r : RelationId} (taken : v.asRelation = .ok r) : v = .relation r := by
  cases v <;> cases taken
  rfl

theorem mapM_asConcept_eq_ok {cs : List ConceptId} (taken : vs.mapM Value.asConcept = .ok cs) :
    vs = cs.map .concept := by
  have each := (mapM_eq_ok_iff.mp taken).imp fun _ _ => asConcept_eq_ok
  exact List.forall₂_eq_eq_eq ▸ List.forall₂_map_right_iff.mpr each

end Value

theorem run_building {β : Type} (b : Building β) (s : State) :
    (Evaluation.building b).run s = match b.run s.ontology with
      | .ok a o => .ok a { s with ontology := o }
      | .error fault o => .error (.refused fault) { s with ontology := o } := rfl

theorem run_building_eq_ok {β : Type} {b : Building β} {s s' : State} {a : β} :
    (Evaluation.building b).run s = .ok a s' ↔
      ∃ o, b.run s.ontology = .ok a o ∧ s' = { s with ontology := o } := by
  rw [run_building]
  cases b.run s.ontology <;> simp [eq_comm]

theorem run_within {β : Type} (env : Environment) (x : Evaluation β) (s : State) :
    (within env x).run s = match x.run { s with env := env } with
      | .ok a t => .ok a { t with env := s.env }
      | .error e t => .error e { t with env := s.env } := rfl

theorem Settles.require_bind {β γ : Type} {x : Except Error β} {f : β → Evaluation γ} {s : State}
    {done : γ → State → Prop} (next : ∀ a, x = .ok a → Settles (f a) s done (State.Extends s)) :
    Settles (require x >>= f) s done (State.Extends s) := by
  cases x with
  | ok a => exact next a rfl
  | error e => exact Std.Refl.refl s

namespace Moves

variable {β : Type} {s : State}

theorem building {b : Building β} {Q : β → Ontology → Prop} (moves : Moves Ontology.Extends b s.ontology Q) :
    Moves State.Extends (Evaluation.building b) s fun a s' => Q a s'.ontology := by
  unfold Moves Settles at moves ⊢
  rw [run_building]
  cases outcome : b.run s.ontology with
  | ok a o =>
    rw [outcome] at moves
    exact ⟨⟨rfl, moves.1⟩, moves.2⟩
  | error fault o =>
    rw [outcome] at moves
    exact ⟨rfl, moves⟩

/-- To ask is to change nothing. -/
theorem asking {b : Building β} {p : Prop} {a : β} (yields : b.Yields s.ontology p a s.ontology) :
    Moves State.Extends (Evaluation.building b) s fun _ _ => True :=
  building (Q := fun _ _ => True) (yields.keeps fun _ => ⟨Std.Refl.refl s.ontology, trivial⟩)

variable {R : State → State → Prop} [Std.Refl R]

theorem require_bind {γ : Type} {x : Except Error β} {f : β → Evaluation γ} {Q : γ → State → Prop}
    (next : ∀ a, x = .ok a → Moves R (f a) s Q) : Moves R (Evaluation.require x >>= f) s Q := by
  cases x with
  | ok a => exact next a rfl
  | error e => exact Std.Refl.refl s

theorem lookup_bind {γ : Type} {name : String} {f : Value → Evaluation γ} {Q : γ → State → Prop}
    (next : ∀ v, s.env.find? name = some v → Moves R (f v) s Q) :
    Moves R (Evaluation.lookup name >>= f) s Q := by
  have run : Moves R (Evaluation.require (s.env.lookup name) >>= f) s Q := by
    refine require_bind fun v looked => next v ?_
    unfold Environment.lookup at looked
    split at looked
    · rename_i found
      cases looked
      exact found
    · cases looked
  exact run

theorem resolve_bind {γ : Type} {token : String} {f : Operator → Evaluation γ} {Q : γ → State → Prop}
    (next : ∀ op, s.env.find? token = some (.operator op) → Moves R (f op) s Q) :
    Moves R (Evaluation.resolve token >>= f) s Q := by
  have run : Moves R (Evaluation.require (s.env.resolve token) >>= f) s Q := by
    refine require_bind fun op resolved => next op ?_
    unfold Environment.resolve at resolved
    split at resolved
    · cases resolved
    · rename_i v found
      cases v <;> cases resolved
      exact found
  exact run

/-- Looking a name up is all there is to do. -/
theorem lookup {name : String} {Q : Value → State → Prop}
    (holds : ∀ v, s.env.find? name = some v → Q v s) : Moves R (Evaluation.lookup name) s Q := by
  rw [← bind_pure (Evaluation.lookup name)]
  exact lookup_bind fun v found => Moves.pure (holds v found)

end Moves

section Operators

variable {α : Type u} {s : State}

def Connective.operator : Connective → Operator
  | .and => .conjunction
  | .or => .disjunction
  | .xor => .exclusiveDisjunction

theorem Connective.operator_token (kind : Connective) : kind.operator.token = kind.token := by
  cases kind <;> rfl

theorem known_of_values {o : Ontology} {vs : List Value} {cs : List ConceptId} (same : vs = cs.map .concept)
    (known : ∀ v ∈ vs, v.Known o) : ∀ c ∈ cs, o.Knows (.concept c) := by
  subst same
  exact fun c member => known _ (List.mem_map_of_mem member)

/-- Concepts that are known mean what they mean. -/
theorem depict_extents {o : Ontology} {cs : List ConceptId} (known : ∀ c ∈ cs, o.Knows (.concept c)) :
    List.Forall₂ o.Depicts cs (cs.map fun c (I : Interpretation α) => I.extent o c) := by
  rw [List.forall₂_map_right_iff, List.forall₂_same]
  exact fun c member => ⟨known c member, fun _ => rfl⟩

/-- What an operator that joins concepts makes of values. -/
def Joins (kind : Connective) (vs : List Value) (s : State) (α : Type u) (w : Value) (s' : State) : Prop :=
  ∃ (c : ConceptId) (cs : List ConceptId), w = .concept c ∧ vs = cs.map .concept ∧
    s'.ontology.Depicts c fun I : Interpretation α => kind.meaning (cs.map (I.extent s.ontology))

theorem moves_connective (kept : s.ontology.Kept) (kind : Connective) {vs : List Value}
    (known : ∀ v ∈ vs, v.Known s.ontology) :
    Moves State.Extends (kind.operator.apply vs) s (Joins kind vs s α) := by
  have done : ∀ {b : Building ConceptId} {cs : List ConceptId}, vs = cs.map .concept →
      Moves Ontology.Extends b s.ontology (fun w o' => o'.Depicts w fun I : Interpretation α =>
        kind.meaning ((cs.map fun c (I : Interpretation α) => I.extent s.ontology c).map (· I))) →
      Moves State.Extends (do return .concept (← building b)) s (Joins kind vs s α) := by
    intro b cs same moves
    refine moves.building.bind fun c s' _ depicts => Moves.pure ⟨c, cs, rfl, same, ?_⟩
    simpa [List.map_map, Function.comp_def] using depicts
  cases kind with
  | and =>
    refine Moves.require_bind fun cs taken => ?_
    have same := Value.mapM_asConcept_eq_ok taken
    exact done same (kept.conjunction_keeps (depict_extents (known_of_values same known)))
  | or =>
    refine Moves.require_bind fun cs taken => ?_
    have same := Value.mapM_asConcept_eq_ok taken
    exact done same (kept.disjunction_keeps (depict_extents (known_of_values same known)))
  | xor =>
    refine Moves.require_bind fun cs taken => ?_
    have same := Value.mapM_asConcept_eq_ok taken
    cases cs with
    | nil => exact Moves.throw
    | cons c cs =>
      cases depict_extents (α := α) (known_of_values same known) with
      | cons first others => exact done same (kept.foldlM_either_keeps first others)

theorem moves_negation (kept : s.ontology.Kept) {v : Value} (known : v.Known s.ontology) :
    Moves State.Extends (Operator.negation.apply [v]) s fun w s' => ∃ c d, v = .concept c ∧ w = .concept d ∧
      s'.ontology.Depicts d fun I : Interpretation α => (I.extent s.ontology c)ᶜ := by
  refine Moves.require_bind fun c taken => ?_
  cases Value.asConcept_eq_ok taken
  have depicts : s.ontology.Depicts c fun I : Interpretation α => I.extent s.ontology c :=
    ⟨known, fun _ => rfl⟩
  exact (kept.negation_keeps depicts).building.bind fun d s' _ depicts =>
    Moves.pure ⟨c, d, rfl, rfl, depicts⟩

/-- To compare is to ask. -/
theorem moves_compares {o : Ontology} (op : Operator) (c d : ConceptId) :
    Moves Ontology.Extends (op.compares c d) o fun _ _ => True := by
  have asked : ∀ c d, Moves Ontology.Extends (Building.isSubsumedBy c d) o fun _ o' => o' = o :=
    fun c d => (Building.isSubsumedBy_yields c d).keeps fun _ => ⟨Std.Refl.refl o, rfl⟩
  have equivalent : ∀ c d, Moves Ontology.Extends (Building.isEquivalentTo c d) o fun _ _ => True :=
    fun c d => (Building.isEquivalentTo_yields c d).keeps fun _ => ⟨Std.Refl.refl o, trivial⟩
  have strictly : ∀ x y, Moves Ontology.Extends (do
      if ← Building.isSubsumedBy x y then return !(← Building.isEquivalentTo c d)
      else return false) o fun _ _ => True := by
    intro x y
    refine (asked x y).bind fun b o' _ same => ?_
    subst same
    cases b with
    | true => exact (equivalent c d).bind fun _ _ _ _ => Moves.pure trivial
    | false => exact Moves.pure trivial
  cases op with
  | subsumedBy => exact (asked c d).mono fun _ _ _ _ => trivial
  | subsumes => exact (asked d c).mono fun _ _ _ _ => trivial
  | strictlySubsumedBy => exact strictly c d
  | strictlySubsumes => exact strictly d c
  | equivalentTo => exact equivalent c d
  | _ => exact Moves.pure trivial

/-- Any operator makes something known of values that are known. -/
theorem moves_apply (kept : s.ontology.Kept) (op : Operator) {vs : List Value}
    (known : ∀ v ∈ vs, v.Known s.ontology) :
    Moves State.Extends (op.apply vs) s fun w s' => w.Known s'.ontology := by
  have joins : ∀ kind : Connective,
      Moves State.Extends (kind.operator.apply vs) s fun w s' => w.Known s'.ontology := by
    intro kind
    refine (moves_connective (α := Unit) kept kind known).mono ?_
    rintro w s' _ ⟨c, cs, rfl, _, depicts⟩
    exact depicts.1
  have pair : ∀ (op : Operator) (v w : Value), Moves State.Extends (do
      let c ← require v.asConcept
      let d ← require w.asConcept
      return .boolean (← building (op.compares c d)) : Evaluation Value) s
        fun w s' => w.Known s'.ontology := fun op v w =>
    Moves.require_bind fun c _ => Moves.require_bind fun d _ =>
      (moves_compares op c d).building.bind fun _ _ _ _ => Moves.pure trivial
  cases op with
  | conjunction => exact joins .and
  | disjunction => exact joins .or
  | exclusiveDisjunction => exact joins .xor
  | negation =>
    match vs, known with
    | [], _ => exact Moves.throw
    | [v], known =>
      refine (moves_negation (α := Unit) kept (known v (List.mem_singleton.mpr rfl))).mono ?_
      rintro w s' _ ⟨c, d, _, rfl, depicts⟩
      exact depicts.1
    | _ :: _ :: _, _ => exact Moves.throw
  | _ =>
    match vs with
    | [v, w] => exact pair _ v w
    | [] | [_] | _ :: _ :: _ :: _ => exact Moves.throw

end Operators

theorem Phrase.evalAll_eq_mapM (ps : List Phrase) : Phrase.evalAll ps = ps.mapM Phrase.eval := by
  induction ps with
  | nil => rfl
  | cons p ps ih => rw [evalAll, List.mapM_cons, ih]

section Phrases

variable {α : Type u} (W : Interpretation α → World α) {v : Vocabulary} {s : State}

/-- What the value of a phrase has to be: known, and what the phrase denotes in every interpretation
if the phrase is plain. -/
def Value.Means (o : Ontology) (p : Phrase) (x : Value) : Prop :=
  x.Known o ∧ (p.Plain → ∀ c, x = .concept c → ∀ I, I.extent o c = (W I).denotes p)

/-- A state in which names can be told what they stand for in every interpretation. -/
structure State.Interpreted (s : State) : Prop where
  ready : s.Ready
  follows : ∀ I : Interpretation α, I.Follows (W I) s.ontology

variable {W}

theorem State.Interpreted.lasts {s' : State} (interpreted : s.Interpreted W) (adds : s.Extends s') :
    s'.Interpreted W :=
  ⟨interpreted.ready.lasts adds, fun I => (interpreted.follows I).lasts adds.ontology.upholds⟩

theorem Value.Means.lasts {s' : State} (interpreted : s.Interpreted W) (adds : s.Extends s')
    {p : Phrase} {x : Value} (means : x.Means W s.ontology p) : x.Means W s'.ontology p := by
  refine ⟨means.1.within adds.ontology.annexes.within, fun plain c same I => ?_⟩
  subst same
  have depicts : s.ontology.Depicts c fun I => (W I).denotes p := ⟨means.1, means.2 plain c rfl⟩
  exact (depicts.lasts interpreted.ready.kept adds.ontology).2 I

/-- A value that stands for no concept means nothing in particular. -/
theorem Value.Means.of_other {o : Ontology} {p : Phrase} {x : Value} (known : x.Known o)
    (other : ∀ c, x ≠ .concept c) : x.Means W o p :=
  ⟨known, fun _ c same => absurd same (other c)⟩

theorem differs_of_vetted {role : Role} {name : String} (vetted : v.vet role name = .ok name) :
    name ≠ anaphoraName := by
  have holds := (Vocabulary.vet_eq_ok_iff.mp vetted).2.2
  rintro rfl
  cases role <;> revert holds <;> decide

/-- What an admitted name leads to is kept under it, unless it is an operator. -/
theorem State.Ready.names (ready : s.Ready) {role : Role} {name : String} {x : Value}
    (vetted : v.vet role name = .ok name) (found : s.env.find? name = some x)
    (other : ∀ op, x ≠ .operator op) : s.ontology.Names name x := by
  rcases ready.named (differs_of_vetted vetted) found with ⟨op, same⟩ | names
  · exact absurd same (other op)
  · exact names

theorem known_of_means {o : Ontology} {ps : List Phrase} {xs : List Value}
    (each : List.Forall₂ (fun p x => Value.Means W o p x) ps xs) : ∀ x ∈ xs, x.Known o := by
  intro x member
  obtain ⟨p, _, means⟩ := exists_of_forall₂ each member
  exact means.1

theorem moves_evalAll {ps : List Phrase} (each : ∀ p ∈ ps, ∀ s : State, s.Interpreted W →
    Moves State.Extends p.eval s fun x s' => x.Means W s'.ontology p) (interpreted : s.Interpreted W) :
    Moves State.Extends (Phrase.evalAll ps) s fun xs s' =>
      List.Forall₂ (fun p x => x.Means W s'.ontology p) ps xs := by
  rw [Phrase.evalAll_eq_mapM]
  exact Moves.mapM (I := State.Interpreted W) (P := fun p x s => Value.Means W s.ontology p x)
    State.Interpreted.lasts (fun interpreted means adds => means.lasts interpreted adds) each interpreted

theorem moves_individualNamed {name : String} (vetted : v.vet .individual name = .ok name) (ready : s.Ready) :
    Moves State.Extends (individualNamed name) s fun i s' => s'.ontology.Names name (.individual i) := by
  refine Moves.lookup_bind fun x found => ?_
  rw [← bind_pure (require x.asIndividual)]
  refine Moves.require_bind fun i taken => Moves.pure ?_
  cases Value.asIndividual_eq_ok taken
  exact ready.names vetted found nofun

theorem moves_nominal {members : List String} (inhabited : members ≠ [])
    (vetted : ∀ m ∈ members, v.vet .individual m = .ok m) (interpreted : s.Interpreted W) :
    Moves State.Extends (Phrase.nominal members).eval s fun x s' =>
      x.Means W s'.ontology (.nominal members) := by
  have named : Moves State.Extends (members.mapM individualNamed) s fun is s' =>
      List.Forall₂ (fun m i => s'.ontology.Names m (.individual i)) members is :=
    Moves.mapM (I := State.Ready) (P := fun m i s => s.ontology.Names m (.individual i))
      State.Ready.lasts (fun _ names adds => adds.ontology.upholds.names.mpr names)
      (fun m member s ready => moves_individualNamed (vetted m member) ready) interpreted.ready
  refine named.bind fun is s' adds each => ?_
  have interpreted' := interpreted.lasts adds
  have some : is ≠ [] := by
    rintro rfl
    cases each
    exact inhabited rfl
  have known : ∀ i ∈ is, s'.ontology.Knows (.individual i) := by
    intro i member
    obtain ⟨m, _, names⟩ := exists_of_forall₂ each member
    exact names.known
  refine (interpreted'.ready.kept.nominal_keeps (α := α) some known).building.bind
    fun c s'' adds' depicts => Moves.pure ⟨depicts.1, ?_⟩
  rintro _ _ ⟨⟩ I
  have same : is.map I.individual = members.map (W I).individual := by
    clear * - each interpreted'
    induction each with
    | nil => rfl
    | cons names _ ih => rw [List.map_cons, List.map_cons, ih, (interpreted'.follows I).individual names]
  rw [depicts.2 I, World.denotes]
  simp only [← List.mem_map, same]

theorem moves_negated {p : Phrase} (operand : ∀ s : State, s.Interpreted W →
    Moves State.Extends p.eval s fun x s' => x.Means W s'.ontology p) (interpreted : s.Interpreted W) :
    Moves State.Extends (Phrase.negation p).eval s fun x s' => x.Means W s'.ontology (.negation p) := by
  refine Moves.resolve_bind fun op found => ?_
  cases interpreted.ready.operator found
  refine (operand s interpreted).bind fun x s' adds means => ?_
  have negated : Moves State.Extends (Operator.negation.apply [x]) s' fun y s'' =>
      y.Means W s''.ontology (.negation p) := by
    refine (moves_negation (α := α) (interpreted.lasts adds).ready.kept means.1).mono ?_
    rintro _ s'' _ ⟨c, d, rfl, rfl, depicts⟩
    refine ⟨depicts.1, ?_⟩
    rintro (_ | _ | plain) _ ⟨⟩ I
    exact (depicts.2 I).trans (congrArg compl (means.2 plain c rfl I))
  cases x with
  | deferred => exact Moves.pure (.of_other trivial nofun)
  | _ => exact negated

theorem moves_restricted {q : Quantifier} {r : String} {p : Phrase} (fits : q.Fits)
    (vetted : v.vet .relation r = .ok r) (operand : ∀ s : State, s.Interpreted W →
      Moves State.Extends p.eval s fun x s' => x.Means W s'.ontology p) (interpreted : s.Interpreted W) :
    Moves State.Extends (Phrase.restriction q (.relation r) p).eval s fun x s' =>
      x.Means W s'.ontology (.restriction q (.relation r) p) := by
  refine Moves.lookup_bind fun y found => Moves.require_bind fun relation taken => ?_
  cases Value.asRelation_eq_ok taken
  have names : s.ontology.Names r (.relation relation) := interpreted.ready.names vetted found nofun
  refine (operand s interpreted).bind fun x s' adds means => ?_
  have restricted : Moves State.Extends (do
      let c ← require x.asConcept
      return .concept (← building (Building.restriction q relation c)) : Evaluation Value) s'
        fun y s'' => y.Means W s''.ontology (.restriction q (.relation r) p) := by
    refine Moves.require_bind fun c taken => ?_
    cases Value.asConcept_eq_ok taken
    have interpreted' := interpreted.lasts adds
    have names' := adds.ontology.upholds.names.mpr names
    have depicts : s'.ontology.Depicts c fun I : Interpretation α => I.extent s'.ontology c :=
      ⟨means.1, fun _ => rfl⟩
    refine (interpreted'.ready.kept.restriction_keeps fits names'.known depicts).building.bind
      fun d s'' _ depicts => Moves.pure ⟨depicts.1, ?_⟩
    rintro (_ | _ | _ | plain) _ ⟨⟩ I
    refine (depicts.2 I).trans ?_
    dsimp only
    rw [World.denotes, means.2 plain c rfl I, (interpreted'.follows I).relation names']
  cases x with
  | deferred => exact Moves.pure (.of_other trivial nofun)
  | _ => exact restricted

theorem extents_of_means {o : Ontology} {ps : List Phrase} {cs : List ConceptId}
    (each : List.Forall₂ (fun p x => Value.Means W o p x) ps (cs.map .concept))
    (plain : ∀ p ∈ ps, p.Plain) {I : Interpretation α} :
    cs.map (I.extent o) = ps.map (W I).denotes := by
  rw [List.forall₂_map_right_iff] at each
  induction each with
  | nil => rfl
  | cons means _ ih =>
    obtain ⟨first, others⟩ := List.forall_mem_cons.mp plain
    rw [List.map_cons, List.map_cons, ih others, means.2 first _ rfl I]

theorem moves_joined {kind : Connective} {ps : List Phrase} (operands : ∀ p ∈ ps, ∀ s : State,
      s.Interpreted W → Moves State.Extends p.eval s fun x s' => x.Means W s'.ontology p)
    (interpreted : s.Interpreted W) :
    Moves State.Extends (Phrase.junction kind ps).eval s fun x s' =>
      x.Means W s'.ontology (.junction kind ps) := by
  refine Moves.resolve_bind fun op found => ?_
  rw [← kind.operator_token] at found
  cases interpreted.ready.operator found
  refine (moves_evalAll operands interpreted).bind fun xs s' adds each => ?_
  split
  · exact Moves.pure (.of_other trivial nofun)
  · refine (moves_connective (α := α) (interpreted.lasts adds).ready.kept kind (known_of_means each)).mono ?_
    rintro _ s'' _ ⟨c, cs, rfl, rfl, depicts⟩
    refine ⟨depicts.1, ?_⟩
    rintro (_ | _ | _ | _ | plain) _ ⟨⟩ I
    refine (depicts.2 I).trans ?_
    dsimp only
    rw [World.denotes, World.denoteAll_eq_map, extents_of_means each plain]

/-- What a variable is bound to is checked by asking. -/
theorem moves_checkType (x : Variable) (y : Value) :
    Moves State.Extends (checkType x y) s fun _ _ => True := by
  unfold checkType
  split
  · exact Moves.pure trivial
  · rename_i type _
    refine Moves.lookup_bind fun z _ => Moves.require_bind fun c _ => ?_
    have judged : ∀ (fits : Bool) (s' : State), Moves State.Extends (do
        unless fits do throw (.typeMismatch (.ofType x.role type (y.text (← get).ontology)))
        : Evaluation Unit) s' fun _ _ => True := by
      intro fits s'
      cases fits with
      | true => exact Moves.pure trivial
      | false => exact Moves.get_bind Moves.throw
    dsimp only
    split
    · exact Moves.require_bind fun i _ =>
        (Moves.asking (Building.isInstanceOf_yields i c)).bind fun fits s' _ _ => judged fits s'
    · exact Moves.require_bind fun d _ =>
        (Moves.asking (Building.isSubsumedBy_yields d c)).bind fun fits s' _ _ => judged fits s'

theorem moves_variableValue (x : Variable) (ready : s.Ready) :
    Moves State.Extends (variableValue x) s fun y s' => y.Known s'.ontology := by
  refine Moves.get_bind ?_
  dsimp only
  split
  · refine Moves.lookup_bind fun y found => (moves_checkType x y).bind fun _ s' adds _ => ?_
    exact Moves.pure ((ready.known found).within adds.ontology.annexes.within)
  · exact Moves.pure trivial

/-- A phrase for a concept leaves its environment alone, adds anonymous concepts at most, and has the
value that it denotes if it is plain. -/
theorem Phrase.Proper.moves {p : Phrase} (proper : p.Proper v) {s : State} (interpreted : s.Interpreted W) :
    Moves State.Extends p.eval s fun x s' => x.Means W s'.ontology p := by
  -- The state is left open, as an operand starts from where those before it have ended.
  induction proper generalizing s with
  | @concept name vetted =>
    refine Moves.lookup fun x found => ⟨interpreted.ready.known found, ?_⟩
    rintro _ c rfl I
    have names : s.ontology.Names name (.concept c) := interpreted.ready.names vetted found nofun
    rw [Interpretation.extent_eq interpreted.ready.kept.wellFormed (Ontology.names_concept.mp names)]
    exact (interpreted.follows I).concept names
  | nominal inhabited vetted => exact moves_nominal inhabited vetted interpreted
  | @var x vetted => exact (moves_variableValue x interpreted.ready).mono fun _ _ _ known => ⟨known, nofun⟩
  | anaphora => exact Moves.lookup fun x found => ⟨interpreted.ready.known found, nofun⟩
  | negation operand ih => exact moves_negated (fun _ => ih) interpreted
  | restriction fits vetted operand ih => exact moves_restricted fits vetted (fun _ => ih) interpreted
  | junction several apart proper ih => exact moves_joined (fun p member _ => ih p member) interpreted

theorem Phrase.Subject.moves {p : Phrase} (subject : p.Subject v) (ready : s.Ready) :
    Moves State.Extends p.eval s fun x s' => x.Known s'.ontology := by
  cases subject with
  | individual => exact Moves.lookup fun x found => ready.known found
  | var => exact moves_variableValue _ ready
  | anaphora => exact Moves.lookup fun x found => ready.known found

theorem moves_compareNeighbours (kept : s.ontology.Kept) (tokens : List String) {xs : List Value}
    (known : ∀ x ∈ xs, x.Known s.ontology) :
    Moves State.Extends (compareNeighbours tokens xs) s fun _ _ => True := by
  induction tokens generalizing s xs with
  | nil => exact Moves.pure trivial
  | cons token tokens ih =>
    match xs, known with
    | [], _ => exact Moves.pure trivial
    | [_], _ => exact Moves.pure trivial
    | x :: y :: rest, known =>
      obtain ⟨first, others⟩ := List.forall_mem_cons.mp known
      have pair : ∀ z ∈ [x, y], z.Known s.ontology :=
        List.forall_mem_cons.mpr ⟨first, List.forall_mem_singleton.mpr (others y (List.mem_cons_self ..))⟩
      refine Moves.resolve_bind fun op _ => (moves_apply kept op pair).bind fun z s' adds _ => ?_
      refine Moves.require_bind fun holds _ => ?_
      cases holds with
      | true =>
        exact ih (adds.ontology.kept kept) fun x member =>
          (others x member).within adds.ontology.annexes.within
      | false => exact Moves.pure trivial

/-- A statement that declares nothing does no more, whether it succeeds or fails. -/
theorem Phrase.Stated.moves {p : Phrase} (stated : p.Stated v) (quiet : p.isDeclaration = false)
    (interpreted : s.Interpreted W) : Moves State.Extends p.eval s fun x s' => x.Known s'.ontology := by
  cases stated with
  | concept proper => exact (proper.moves interpreted).mono fun _ _ _ means => means.1
  | membership subject concept =>
    refine (subject.moves interpreted.ready).bind fun x s' adds _ => ?_
    refine (concept.moves (interpreted.lasts adds)).bind fun y s'' _ _ => ?_
    split
    · exact Moves.pure trivial
    · exact Moves.require_bind fun i _ => Moves.require_bind fun c _ =>
        (Moves.asking (Building.isInstanceOf_yields i c)).bind fun _ _ _ _ => Moves.pure trivial
  | comparison first inhabited known operands =>
    have each := List.forall_mem_cons.mpr ⟨first, List.forall_mem_map.mpr operands⟩
    refine (moves_evalAll (fun p member _ => (each p member).moves) interpreted).bind
      fun xs s' adds means => ?_
    split
    · exact Moves.pure trivial
    · exact (moves_compareNeighbours (interpreted.lasts adds).ready.kept _ (known_of_means means)).bind
        fun _ _ _ _ => Moves.pure trivial
  | _ => cases quiet

end Phrases

end ConceptLogic
