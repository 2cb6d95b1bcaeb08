import ConceptLogic.Proofs.Session.ReachedStates

namespace ConceptLogic

open Evaluation

/-- The names that statements have declared, the last one first, when they are through or one of
them has failed. -/
def Phrase.declared : List Phrase → State → List String
  | [], _ => []
  | p :: ps, s =>
    match p.eval.run s with
    | .ok _ s' => declared ps s' ++ p.declares?.toList
    | .error _ _ => []

/-- The names that a program declares. -/
def Language.declared (l : Language) (text : String) (s : State) : List String :=
  match l.parse text with
  | .ok p => Phrase.declared p.statements s
  | .error _ => []

namespace State

/-- The states that programs lead to, with all the names that they have declared on the way. -/
inductive Recorded (spoken : Language → Prop) (top : String) : List String → State → Prop
  | initial : Recorded spoken top [] (.initial top)
  | run {names : List String} {s : State} {l : Language} (text : String) : spoken l →
      Recorded spoken top names s →
      Recorded spoken top (l.declared text s ++ names) (Evaluation.after (l.run text) s)

/-- The states that further programs lead to. -/
inductive Later (spoken : Language → Prop) (s : State) : State → Prop
  | same : Later spoken s s
  | run {s' : State} {l : Language} (text : String) : spoken l → Later spoken s s' →
      Later spoken s (Evaluation.after (l.run text) s')

variable {spoken : Language → Prop} {top : String} {names : List String} {s s' : State}

/-- Names that are written down change nothing about what programs do. -/
theorem Recorded.forget (recorded : Recorded spoken top names s) : Reached spoken top s := by
  induction recorded with
  | initial => exact .initial
  | run text speaks _ ih => exact .run text speaks ih

theorem Reached.recorded (reached : Reached spoken top s) : ∃ names, Recorded spoken top names s := by
  induction reached with
  | initial => exact ⟨[], .initial⟩
  | run text speaks _ ih =>
    obtain ⟨names, recorded⟩ := ih
    exact ⟨_, .run text speaks recorded⟩

theorem Later.reached (later : Later spoken s s') (reached : Reached spoken top s) :
    Reached spoken top s' := by
  induction later with
  | same => exact reached
  | run text speaks _ ih => exact .run text speaks ih

end State

section Keeping

variable {spoken : Language → Prop} {top : String} {s s' : State} {l : Language} {ps : List Phrase}

theorem Evaluation.after_cons (p : Phrase) (ps : List Phrase) (s : State) :
    after (Phrase.evalAll (p :: ps)) s =
      match p.eval.run s with
      | .ok _ s' => after (Phrase.evalAll ps) s'
      | .error _ s' => s' := by
  unfold after
  rw [Phrase.run_evalAll_cons]
  cases p.eval.run s with
  | error e s' => rfl
  | ok v s' =>
    dsimp only
    cases (Phrase.evalAll ps).run s' <;> rfl

/-- Statements that succeed leave off where those after them go on. -/
theorem Evaluation.after_append {before : List Phrase} {vs : List Value}
    (done : (Phrase.evalAll before).run s = .ok vs s') (ps : List Phrase) :
    after (Phrase.evalAll (before ++ ps)) s = after (Phrase.evalAll ps) s' := by
  induction before generalizing s vs with
  | nil =>
    cases done
    rfl
  | cons p before ih =>
    obtain ⟨v, s₁, ws, first, others, rfl⟩ := Phrase.evalAll_cons_eq_ok.mp done
    rw [List.cons_append, after_cons, first]
    exact ih others

theorem Language.after_run {text : String} (parsed : l.parse text = .ok (.program ps)) (s : State) :
    after (l.run text) s = after (Phrase.evalAll ps) s := by
  unfold after
  rw [run_of_ok parsed, run_program]
  cases (Phrase.evalAll ps).run s <;> rfl

theorem Language.declared_of_parse {text : String} (parsed : l.parse text = .ok (.program ps)) (s : State) :
    l.declared text s = Phrase.declared ps s := by
  unfold declared
  rw [parsed]
  rfl

theorem Language.after_unread {text : String} {e : Error} (failed : l.parse text = .error e) (s : State) :
    after (l.run text) s = s := by
  unfold after
  rw [run_of_error failed]

/-- Whether no statement puts an end to what holds of a state and the names declared before it. -/
def Lasting (spoken : Language → Prop) (top : String) (P : List String → State → Prop) : Prop :=
  ∀ ⦃l names name? s s'⦄, spoken l → s.Sound spoken top → s.Advances l.vocabulary name? s' →
    P names s → P (name?.toList ++ names) s'

variable {P : List String → State → Prop} (lasting : Lasting spoken top P) (speaks : spoken l)
  (names : List String)
include lasting speaks

theorem Phrase.evalAll_keeps (stated : ∀ p ∈ ps, p.Stated l.vocabulary) (sound : s.Sound spoken top)
    (holds : P names s) : P (declared ps s ++ names) (after (evalAll ps) s) := by
  induction ps generalizing s names with
  | nil => exact holds
  | cons p ps ih =>
    obtain ⟨first, others⟩ := List.forall_mem_cons.mp stated
    have advances := first.advances (sound.interpreted (α := Unit))
    rw [after_cons, declared]
    cases run : p.eval.run s with
    | error e s' => exact lasting speaks sound (.quiet (advances.error run)) holds
    | ok v s' =>
      have advanced := advances.ok run
      dsimp only
      rw [List.append_assoc]
      exact ih _ others (sound.advances speaks advanced) (lasting speaks sound advanced holds)

theorem Language.run_keeps (text : String) (sound : s.Sound spoken top) (holds : P names s) :
    P (l.declared text s ++ names) (after (l.run text) s) := by
  cases parsed : l.parse text with
  | error e =>
    have none : l.declared text s = [] := by
      unfold declared
      rw [parsed]
    rw [after_unread parsed, none]
    exact holds
  | ok p =>
    obtain ⟨ps, rfl, stated⟩ := stated_of_parse parsed
    rw [after_run parsed, declared_of_parse parsed]
    exact Phrase.evalAll_keeps lasting speaks names stated sound holds

end Keeping

namespace State

variable {spoken : Language → Prop} {top : String} {names : List String} {s s' : State}

/-- What holds to begin with and is kept by every step holds of every record. -/
theorem Recorded.keeps {P : List String → State → Prop} (lasting : Lasting spoken top P)
    (start : P [] (.initial top)) (recorded : Recorded spoken top names s) : P names s := by
  induction recorded with
  | initial => exact start
  | run text speaks before ih => exact Language.run_keeps lasting speaks _ text before.forget.sound ih

/-- What is kept by every step stays for good. -/
theorem Later.keeps {P : State → Prop} (lasting : Lasting spoken top fun _ => P) (later : Later spoken s s')
    (reached : Reached spoken top s) (holds : P s) : P s' := by
  induction later with
  | same => exact holds
  | run text speaks before ih =>
    exact Language.run_keeps (P := fun _ => P) lasting speaks [] text (before.reached reached).sound ih

/-- In the midst of a program, after statements that have succeeded, what every step keeps still holds. -/
theorem keeps_midst {P : State → Prop} (lasting : Lasting spoken top fun _ => P) {l : Language}
    (speaks : spoken l) {ps : List Phrase} (stated : ∀ p ∈ ps, p.Stated l.vocabulary)
    (sound : s.Sound spoken top) (holds : P s) {vs : List Value}
    (run : (Phrase.evalAll ps).run s = .ok vs s') : P s' := by
  have kept : P (after (Phrase.evalAll ps) s) :=
    Phrase.evalAll_keeps (P := fun _ => P) lasting speaks [] stated sound holds
  unfold after at kept
  rwa [run] at kept

end State

end ConceptLogic
