import Mathlib.Data.List.Forall2
import Mathlib.Order.Defs.Unbundled

namespace ConceptLogic

section

variable {ε σ α β : Type} {x : EStateM ε σ α} {s s' : σ} {b : β}

theorem run_eq_ok_of_bind {f : α → EStateM ε σ β} :
    (x >>= f).run s = .ok b s' ↔ ∃ a s₁, x.run s = .ok a s₁ ∧ (f a).run s₁ = .ok b s' := by
  rw [EStateM.run_bind]
  cases x.run s <;> simp

theorem run_map_eq_ok {f : α → β} : (f <$> x).run s = .ok b s' ↔ ∃ a, x.run s = .ok a s' ∧ f a = b := by
  rw [map_eq_pure_bind, run_eq_ok_of_bind]
  simp only [EStateM.run_pure, EStateM.Result.ok.injEq]
  constructor
  · rintro ⟨a, _, run, same, rfl⟩
    exact ⟨a, run, same⟩
  · rintro ⟨a, run, same⟩
    exact ⟨a, s', run, same, rfl⟩

end

/-- What work comes to: a condition on what it returns and on where it stands then, and another on
where it stands if it fails. -/
def Settles {ε σ α : Type} (x : EStateM ε σ α) (s : σ) (done : α → σ → Prop) (failed : σ → Prop) : Prop :=
  match x.run s with
  | .ok a s' => done a s'
  | .error _ s' => failed s'

/-- Work that goes from a state to a related one, whether it succeeds or fails. -/
def Moves {ε σ α : Type} (R : σ → σ → Prop) (x : EStateM ε σ α) (s : σ) (Q : α → σ → Prop) : Prop :=
  Settles x s (fun a s' => R s s' ∧ Q a s') (R s)

namespace Settles

variable {ε σ α β : Type} {x : EStateM ε σ α} {s : σ} {done : α → σ → Prop} {failed : σ → Prop}

theorem ok (settles : Settles x s done failed) {a : α} {s' : σ} (run : x.run s = .ok a s') :
    done a s' := by
  rw [Settles, run] at settles
  exact settles

theorem error (settles : Settles x s done failed) {e : ε} {s' : σ} (run : x.run s = .error e s') :
    failed s' := by
  rw [Settles, run] at settles
  exact settles

theorem mono {done' : α → σ → Prop} {failed' : σ → Prop} (settles : Settles x s done failed)
    (weaker : ∀ a s', done a s' → done' a s') (weaker' : ∀ s', failed s' → failed' s') :
    Settles x s done' failed' := by
  unfold Settles at settles ⊢
  split
  · rename_i run
    rw [run] at settles
    exact weaker _ _ settles
  · rename_i run
    rw [run] at settles
    exact weaker' _ settles

theorem bind {f : α → EStateM ε σ β} {done' : β → σ → Prop} (first : Settles x s done failed)
    (next : ∀ a s', done a s' → Settles (f a) s' done' failed) : Settles (x >>= f) s done' failed := by
  unfold Settles at first ⊢
  rw [EStateM.run_bind]
  cases run : x.run s with
  | error e s' =>
    rw [run] at first
    exact first
  | ok a s' =>
    rw [run] at first
    exact next a s' first

end Settles

namespace Moves

variable {ε σ α β : Type} {R : σ → σ → Prop} {x : EStateM ε σ α} {s : σ} {Q : α → σ → Prop}

theorem mono {Q' : α → σ → Prop} (keeps : Moves R x s Q) (weaker : ∀ a s', R s s' → Q a s' → Q' a s') :
    Moves R x s Q' :=
  Settles.mono keeps (fun a s' both => ⟨both.1, weaker a s' both.1 both.2⟩) fun _ => id

theorem pure [Std.Refl R] {a : α} (holds : Q a s) : Moves R (Pure.pure a : EStateM ε σ α) s Q :=
  ⟨Std.Refl.refl s, holds⟩

theorem throw [Std.Refl R] {e : ε} : Moves R (throw e : EStateM ε σ α) s Q :=
  Std.Refl.refl s

/-- Work that goes on from a related state. -/
theorem settles [IsTrans σ R] {f : α → EStateM ε σ β} {done : β → σ → Prop} (first : Moves R x s Q)
    (next : ∀ a s', R s s' → Q a s' → Settles (f a) s' done (R s')) :
    Settles (x >>= f) s done (R s) :=
  Settles.bind first fun a s' ⟨related, holds⟩ =>
    (next a s' related holds).mono (fun _ _ => id) fun s'' => IsTrans.trans s s' s'' related

theorem bind [IsTrans σ R] {f : α → EStateM ε σ β} {Q' : β → σ → Prop} (first : Moves R x s Q)
    (next : ∀ a s', R s s' → Q a s' → Moves R (f a) s' Q') : Moves R (x >>= f) s Q' :=
  Settles.bind first fun a s' ⟨related, holds⟩ =>
    Settles.mono (next a s' related holds)
      (fun _ s'' both => ⟨IsTrans.trans s s' s'' related both.1, both.2⟩)
      fun s'' => IsTrans.trans s s' s'' related

theorem get_bind {f : σ → EStateM ε σ α} (next : Moves R (f s) s Q) : Moves R (get >>= f) s Q := next

theorem map [IsTrans σ R] [Std.Refl R] {f : α → β} {Q' : β → σ → Prop} (keeps : Moves R x s Q)
    (holds : ∀ a s', R s s' → Q a s' → Q' (f a) s') : Moves R (f <$> x) s Q' := by
  rw [map_eq_pure_bind]
  exact keeps.bind fun a s' related here => pure (holds a s' related here)

/-- Work on the members of a list, one after the other. -/
theorem mapM [IsTrans σ R] [Std.Refl R] {f : α → EStateM ε σ β} {I : σ → Prop} {P : α → β → σ → Prop}
    {as : List α} (stable : ∀ {s s'}, I s → R s s' → I s')
    (lasting : ∀ {a b s s'}, I s → P a b s → R s s' → P a b s')
    (each : ∀ a ∈ as, ∀ s, I s → Moves R (f a) s (P a)) (holds : I s) :
    Moves R (as.mapM f) s fun bs s' => List.Forall₂ (fun a b => P a b s') as bs := by
  induction as generalizing s with
  | nil => exact pure .nil
  | cons a as ih =>
    rw [List.mapM_cons]
    refine (each a (List.mem_cons_self ..) s holds).bind fun b s' related here => ?_
    have holds' := stable holds related
    refine (ih (fun a member => each a (List.mem_cons_of_mem _ member)) holds').bind
      fun bs s'' related' others => pure (.cons (lasting holds' here related') others)

end Moves

end ConceptLogic
