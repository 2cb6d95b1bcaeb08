import ConceptLogic.Proofs.Grammar.FullDrafts
import ConceptLogic.Proofs.Grammar.TreeAssembly

namespace ConceptLogic

open Draft (Flaw judgeAll)

/-- The flaw of a word, if it is a name that is not admitted in its role or too large a number. -/
def Mark.flaw? (v : Vocabulary) (m : Mark) : Option Flaw :=
  match m.sense with
  | .keyword => none
  | .name role =>
    match v.vet role (String.ofList m.word.text) with
    | .ok _ => none
    | .error e => some (.name e)
  | .cardinality =>
    let n : Numeral := ⟨m.word.text, m.word.offset⟩
    if n.fits then none else some (.cardinality n)

/-- Whether a phrase put together from a tree and one judged from a draft come to the same: both fail of
the first word with a flaw, and if there is none they come to related values. -/
def Concur {α β : Type} (v : Vocabulary) (ms : List Mark) (R : α → β → Prop) (x : Except Halt α)
    (y : Except Flaw β) : Prop :=
  match ms.findSome? (Mark.flaw? v) with
  | none => ∃ a b, x = .ok a ∧ y = .ok b ∧ R a b
  | some f => x = .error (.flaw f) ∧ y = .error f

theorem mapError_bind {ε ε' α β : Type} (x : Except ε α) (f : α → Except ε β) (g : ε → ε') :
    (x >>= f).mapError g = x.mapError g >>= fun a => (f a).mapError g := by
  cases x <;> rfl

namespace Concur

variable {α β γ δ : Type} {v : Vocabulary} {ms ns : List Mark} {R : α → β → Prop} {S : γ → δ → Prop}
  {x : Except Halt α} {y : Except Flaw β}

theorem ok {a : α} {b : β} (related : R a b) : Concur v [] R (.ok a) (.ok b) :=
  ⟨a, b, rfl, rfl, related⟩

theorem bind {f : α → Except Halt γ} {g : β → Except Flaw δ} (first : Concur v ms R x y)
    (next : ∀ a b, R a b → Concur v ns S (f a) (g b)) : Concur v (ms ++ ns) S (x >>= f) (y >>= g) := by
  unfold Concur at first
  cases found : ms.findSome? (Mark.flaw? v) with
  | none =>
    rw [found] at first
    obtain ⟨a, b, rfl, rfl, related⟩ := first
    have second := next a b related
    unfold Concur at second ⊢
    rw [List.findSome?_append, found]
    exact second
  | some flaw =>
    rw [found] at first
    obtain ⟨rfl, rfl⟩ := first
    unfold Concur
    rw [List.findSome?_append, found]
    exact ⟨rfl, rfl⟩

theorem map {f : α → γ} {g : β → δ} (concur : Concur v ms R x y) (related : ∀ a b, R a b → S (f a) (g b)) :
    Concur v ms S (do return f (← x)) (do return g (← y)) := by
  have both : Concur v (ms ++ []) S (do return f (← x)) (do return g (← y)) :=
    concur.bind fun a b here => ok (related a b here)
  rwa [List.append_nil] at both

/-- What is known of what is judged. -/
theorem and {P : β → Prop} (concur : Concur v ms R x y) (known : ∀ b, y = .ok b → P b) :
    Concur v ms (fun a b => R a b ∧ P b) x y := by
  unfold Concur at concur ⊢
  split at concur
  · obtain ⟨a, b, rfl, rfl, related⟩ := concur
    exact ⟨a, b, rfl, rfl, related, known b rfl⟩
  · exact concur

/-- A keyword has no flaw. -/
theorem keyword {word : Word} (concur : Concur v ms R x y) : Concur v (⟨word, .keyword⟩ :: ms) R x y :=
  concur

theorem vet (word : Word) (role : Role) :
    Concur v [⟨word, .name role⟩] Eq ((v.vet role (String.ofList word.text)).mapError fun e => .flaw (.name e))
      ((v.vet role (String.ofList word.text)).mapError .name) := by
  unfold Concur
  simp only [List.findSome?, Mark.flaw?]
  cases v.vet role (String.ofList word.text) with
  | ok admitted => exact ⟨admitted, admitted, rfl, rfl, rfl⟩
  | error e => exact ⟨rfl, rfl⟩

theorem atom {t : Tree Rule} {name : String} {role : Role} (spelled : t.text = name.toList) :
    Concur v [⟨⟨t.text, t.offset⟩, .name role⟩] Eq (t.atom v role) (Draft.name v role name) := by
  have same : String.ofList t.text = name := by rw [spelled, String.ofList_toList]
  have vetted := vet (v := v) ⟨t.text, t.offset⟩ role
  rw [same] at vetted
  rwa [Tree.atom, Tree.name, same]

/-- The name of a variable, and its type if it has one. -/
theorem typed (base : Word) (type : Option Word) :
    Concur v (⟨base, .name (variableRole (String.ofList base.text))⟩ ::
        (type.map fun word => (⟨word, .name .concept⟩ : Mark)).toList) Eq
      ((Variable.vet v (String.ofList base.text) (type.map fun word => String.ofList word.text)).mapError
        fun e => .flaw (.name e))
      (Draft.typedVariable v (String.ofList base.text) (type.map fun word => String.ofList word.text)) := by
  unfold Draft.typedVariable Variable.vet
  rw [mapError_bind, mapError_bind]
  refine (vet base _).bind ?_
  rintro name _ rfl
  cases type with
  | none => exact .ok rfl
  | some word =>
    simp only [Option.map_some, mapError_bind]
    exact (vet word .concept).map fun type _ same => congrArg (fun t => Variable.mk name (some t)) same

theorem number (n : Numeral) :
    Concur v [⟨⟨n.digits, n.offset⟩, .cardinality⟩] Eq
      (if n.fits then .ok n.value else .error (.flaw (.cardinality n)))
      (if n.fits then .ok n.value else .error (.cardinality n)) := by
  unfold Concur
  simp only [List.findSome?, Mark.flaw?]
  cases n.fits with
  | true => exact ⟨_, _, rfl, rfl, rfl⟩
  | false => exact ⟨rfl, rfl⟩

end Concur

end ConceptLogic
