import ConceptLogic.Proofs.Evaluation.RepeatedBuilding

namespace ConceptLogic

open Evaluation

namespace Repeats

section

variable {ε σ α β : Type} {R : σ → σ → Prop} {x : EStateM ε σ α} {y : EStateM ε σ β} {s t : σ}
  {Q : α → σ → β → σ → Prop}

theorem throw {e : ε} : Repeats R (throw e : EStateM ε σ α) s y t Q := nofun

end

variable {α β γ δ : Type} {s t : State} {Q : γ → State → δ → State → Prop}

theorem building {b : Building α} {c : Building β} {P : α → Ontology → β → Ontology → Prop}
    (repeats : Repeats Ontology.Extends b s.ontology c t.ontology P) :
    Repeats State.Extends (Evaluation.building b) s (Evaluation.building c) t fun a s' d t' =>
      P a s'.ontology d t'.ontology := by
  intro a s' run
  obtain ⟨o, outcome, rfl⟩ := run_building_eq_ok.mp run
  obtain ⟨adds, d, u, again, adds', same, holds⟩ := repeats a o outcome
  refine ⟨⟨rfl, adds⟩, d, { t with ontology := u }, run_building_eq_ok.mpr ⟨u, again, rfl⟩, ⟨rfl, adds'⟩,
    fun back => ?_, holds⟩
  rw [same back.ontology]

theorem require_bind {x : Except Error α} {y : Except Error β} {f : α → Evaluation γ} {g : β → Evaluation δ}
    (next : ∀ a, x = .ok a → ∃ b, y = .ok b ∧ Repeats State.Extends (f a) s (g b) t Q) :
    Repeats State.Extends (require x >>= f) s (require y >>= g) t Q := by
  cases x with
  | error e => exact nofun
  | ok a =>
    obtain ⟨b, rfl, repeats⟩ := next a rfl
    exact repeats

/-- A name that leads to one value in both states is looked up alike. -/
theorem lookup_bind {name : String} {f : Value → Evaluation γ} {g : Value → Evaluation δ}
    (same : t.env.find? name = s.env.find? name)
    (next : ∀ v, s.env.find? name = some v → Repeats State.Extends (f v) s (g v) t Q) :
    Repeats State.Extends (lookup name >>= f) s (lookup name >>= g) t Q := by
  have alike : t.env.lookup name = s.env.lookup name := by
    rw [Environment.lookup, Environment.lookup, same]
  have run : Repeats State.Extends (require (s.env.lookup name) >>= f) s
      (require (t.env.lookup name) >>= g) t Q := by
    rw [alike]
    refine require_bind fun v looked => ⟨v, looked, next v ?_⟩
    unfold Environment.lookup at looked
    split at looked
    · rename_i found
      cases looked
      exact found
    · cases looked
  exact run

theorem resolve_bind {token : String} {f : Operator → Evaluation γ} {g : Operator → Evaluation δ}
    (same : t.env.find? token = s.env.find? token)
    (next : ∀ op, Repeats State.Extends (f op) s (g op) t Q) :
    Repeats State.Extends (resolve token >>= f) s (resolve token >>= g) t Q := by
  have alike : t.env.resolve token = s.env.resolve token := by
    rw [Environment.resolve, Environment.resolve, same]
  have run : Repeats State.Extends (require (s.env.resolve token) >>= f) s
      (require (t.env.resolve token) >>= g) t Q := by
    rw [alike]
    exact require_bind fun op resolved => ⟨op, resolved, next op⟩
  exact run

end Repeats

namespace Value

variable {base o u : Ontology} {v w : Value}

/-- Values of two evaluations that come to the same in ontologies that have grown out of a third one. -/
inductive Twin (base o u : Ontology) : Value → Value → Prop
  | concept {c d : ConceptId} : base.Twins o u c d → Twin base o u (.concept c) (.concept d)
  | individual {i : IndividualId} : base.Knows (.individual i) → Twin base o u (.individual i) (.individual i)
  | relation {r : RelationId} : base.Knows (.relation r) → Twin base o u (.relation r) (.relation r)
  | boolean (b : Bool) : Twin base o u (.boolean b) (.boolean b)
  | operator (op : Operator) : Twin base o u (.operator op) (.operator op)

/-- The variable that a value waits for. -/
def awaits? : Value → Option Variable
  | .deferred x _ _ => some x
  | _ => none

/-- What names can be bound to: what an ontology knows, and the operators. -/
def Old (o : Ontology) : Value → Prop
  | .concept c => o.Knows (.concept c)
  | .individual i => o.Knows (.individual i)
  | .relation r => o.Knows (.relation r)
  | .operator _ => True
  | _ => False

theorem Old.twin (old : v.Old base) : v.Twin base o u v := by
  cases v with
  | concept c => exact .concept (.of_old old)
  | individual i => exact .individual old
  | relation r => exact .relation old
  | operator op => exact .operator op
  | _ => exact old.elim

namespace Twin

variable (twin : v.Twin base o u w)
include twin

theorem mono {o' u' : Ontology} (within : o.Within o') (within' : u.Within u') : v.Twin base o' u' w := by
  cases twin with
  | concept twins => exact .concept (twins.mono within within')
  | individual known => exact .individual known
  | relation known => exact .relation known
  | boolean b => exact .boolean b
  | operator op => exact .operator op

theorem symm : w.Twin base u o v := by
  cases twin with
  | concept twins => exact .concept twins.symm
  | individual known => exact .individual known
  | relation known => exact .relation known
  | boolean b => exact .boolean b
  | operator op => exact .operator op

theorem settled : v.awaits? = none := by
  cases twin <;> rfl

/-- What comes to the same as anything comes to the same as itself. -/
theorem own (fork : base.Fork o u) : v.Twin base o o v := by
  cases twin with
  | concept twins =>
    exact .concept (.refl fork.leftKept.wellFormed (.refl o) fork.left.annexes.old_of_named (fork.known twins))
  | individual known => exact .individual known
  | relation known => exact .relation known
  | boolean b => exact .boolean b
  | operator op => exact .operator op

theorem asConcept {c : ConceptId} (taken : v.asConcept = .ok c) :
    ∃ d, w.asConcept = .ok d ∧ base.Twins o u c d := by
  cases twin with
  | concept twins =>
    cases taken
    exact ⟨_, rfl, twins⟩
  | _ => cases taken

theorem asIndividual {i : IndividualId} (taken : v.asIndividual = .ok i) :
    w.asIndividual = .ok i ∧ base.Knows (.individual i) := by
  cases twin with
  | individual known =>
    cases taken
    exact ⟨rfl, known⟩
  | _ => cases taken

theorem asBoolean {b : Bool} (taken : v.asBoolean = .ok b) : w.asBoolean = .ok b := by
  cases twin with
  | boolean => exact taken
  | _ => cases taken

end Twin

/-- In one ontology, what comes to the same is the same. -/
theorem Twin.eq (fork : base.Fork o o) (twin : v.Twin base o o w) : v = w := by
  cases twin with
  | @concept c d twins =>
    have itself : base.Twins o o c c := .refl fork.leftKept.wellFormed (.refl o)
      fork.left.annexes.old_of_named (fork.known twins)
    exact congrArg Value.concept (fork.unique itself twins)
  | _ => rfl

theorem mapM_asConcept_twin {vs ws : List Value} {cs : List ConceptId}
    (twins : List.Forall₂ (Twin base o u) vs ws) (taken : vs.mapM Value.asConcept = .ok cs) :
    ∃ ds, ws.mapM Value.asConcept = .ok ds ∧ List.Forall₂ (base.Twins o u) cs ds := by
  have each := mapM_eq_ok_iff.mp taken
  clear taken
  induction twins generalizing cs with
  | nil =>
    cases each
    exact ⟨[], rfl, .nil⟩
  | cons first _ ih =>
    cases each with
    | cons taken others =>
      obtain ⟨d, taken', twins⟩ := first.asConcept taken
      obtain ⟨ds, taken'', each⟩ := ih others
      refine ⟨d :: ds, mapM_eq_ok_iff.mpr (.cons taken' (mapM_eq_ok_iff.mp taken'')), .cons twins each⟩

end Value

/-- An operator makes of values that come to the same what comes to the same. -/
theorem Operator.apply_repeats {base : Ontology} {s t : State} (fork : base.Fork s.ontology t.ontology)
    (op : Operator) {vs ws : List Value}
    (twins : List.Forall₂ (Value.Twin base s.ontology t.ontology) vs ws) :
    Repeats State.Extends (op.apply vs) s (op.apply ws) t fun a s' b t' =>
      a.Twin base s'.ontology t'.ontology b := by
  have made : ∀ {b c : Building ConceptId}, Repeats Ontology.Extends b s.ontology c t.ontology
      (fun x o y u => base.Twins o u x y) →
      Repeats State.Extends (do return .concept (← building b) : Evaluation Value) s
        (do return .concept (← building c) : Evaluation Value) t fun a s' b t' =>
          a.Twin base s'.ontology t'.ontology b :=
    fun repeats => repeats.building.bind fun x s' y t' _ _ twins => .pure (.concept twins)
  have compared : ∀ (op : Operator) {v w v' w' : Value}, v.Twin base s.ontology t.ontology v' →
      w.Twin base s.ontology t.ontology w' → Repeats State.Extends (do
        let c ← require v.asConcept
        let d ← require w.asConcept
        return .boolean (← building (op.compares c d)) : Evaluation Value) s (do
        let c ← require v'.asConcept
        let d ← require w'.asConcept
        return .boolean (← building (op.compares c d)) : Evaluation Value) t
          fun a s' b t' => a.Twin base s'.ontology t'.ontology b := by
    intro op v w v' w' left right
    refine .require_bind fun c taken => ?_
    obtain ⟨c', taken', twins⟩ := left.asConcept taken
    refine ⟨c', taken', .require_bind fun d taken => ?_⟩
    obtain ⟨d', taken', twins'⟩ := right.asConcept taken
    refine ⟨d', taken', (fork.compares_repeats op twins twins').building.bind fun x s' y t' _ _ same => ?_⟩
    subst same
    exact .pure (.boolean x)
  cases op with
  | conjunction =>
    refine .require_bind fun cs taken => ?_
    obtain ⟨ds, taken', each⟩ := Value.mapM_asConcept_twin twins taken
    exact ⟨ds, taken', made (fork.conjunction_repeats (.of_forall₂ each))⟩
  | disjunction =>
    refine .require_bind fun cs taken => ?_
    obtain ⟨ds, taken', each⟩ := Value.mapM_asConcept_twin twins taken
    exact ⟨ds, taken', made (fork.disjunction_repeats (.of_forall₂ each))⟩
  | exclusiveDisjunction =>
    refine .require_bind fun cs taken => ?_
    obtain ⟨ds, taken', each⟩ := Value.mapM_asConcept_twin twins taken
    refine ⟨ds, taken', ?_⟩
    cases each with
    | nil => exact .throw
    | cons first others => exact made (fork.foldlM_either_repeats first others)
  | negation =>
    match vs, ws, twins with
    | [], [], _ => exact .throw
    | [v], [w], .cons twin .nil =>
      refine .require_bind fun c taken => ?_
      obtain ⟨d, taken', twins⟩ := twin.asConcept taken
      exact ⟨d, taken', made (fork.negation_repeats twins)⟩
    | _ :: _ :: _, _ :: _ :: _, _ => exact .throw
  | _ =>
    match vs, ws, twins with
    | [v, w], [v', w'], .cons left (.cons right .nil) => exact compared _ left right
    | [], [], _ => exact .throw
    | [_], [_], _ => exact .throw
    | _ :: _ :: _ :: _, _ :: _ :: _ :: _, _ => exact .throw

end ConceptLogic
