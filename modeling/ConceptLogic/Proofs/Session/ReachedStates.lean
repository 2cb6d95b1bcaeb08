import ConceptLogic.Program
import ConceptLogic.Proofs.Evaluation.DeclarationOutcomes

namespace ConceptLogic

open Evaluation

universe u

/-- Where a state stands after an evaluation, be it a success or a failure. -/
def Evaluation.after {α : Type} (x : Evaluation α) (s : State) : State :=
  match x.run s with
  | .ok _ s' => s'
  | .error _ s' => s'

/-- The states that programs of some languages lead to. Programs that can not be read and programs
that fail are among them. -/
inductive State.Reached (spoken : Language → Prop) (top : String) : State → Prop
  | initial : Reached spoken top (.initial top)
  | run {s : State} {l : Language} (text : String) : spoken l → Reached spoken top s →
      Reached spoken top (Evaluation.after (l.run text) s)

namespace Environment

theorem operator_of_lookup {name : String} {v : Value} (found : operators.lookup name = some v) :
    ∃ op, v = .operator op := by
  have all : ∀ entry ∈ operators, ∃ op, entry.2 = .operator op := by
    simp [operators]
  obtain ⟨before, rest, split, _⟩ := List.lookup_eq_some_iff.mp found
  refine all (name, v) ?_
  rw [split]
  exact List.mem_append_right before (List.mem_cons_self ..)

theorem lookup_token (op : Operator) : operators.lookup op.token = some (.operator op) := by
  cases op <;> rfl

end Environment

namespace State

variable {spoken : Language → Prop} {top : String} {s s' : State}

/-- What holds of every state that programs lead to: the ontology and the memory agree on all names
but that of the concept of everything, which is built in. -/
structure Sound (spoken : Language → Prop) (top : String) (s : State) : Prop where
  kept : s.ontology.Kept
  everything : s.ontology.Names top (.concept Ontology.top)
  dictionary : s.env.dictionary = (Environment.initial top).dictionary
  named : ∀ {name v}, s.ontology.Names name v → v ≠ .concept Ontology.top →
    s.env.memory.lookup name = some v ∧ s.env.isBuiltIn name = false ∧
      ∃ l, spoken l ∧ v.Admitted l.vocabulary name
  bound : ∀ {name v}, name ≠ anaphoraName → s.env.memory.lookup name = some v →
    s.ontology.Names name v ∧ v ≠ .concept Ontology.top
  anaphora : ∀ {v}, s.env.memory.lookup anaphoraName = some v → v.Known s.ontology

namespace Sound

theorem initial (spoken : Language → Prop) (top : String) : Sound spoken top (.initial top) where
  kept := Ontology.initial_kept top
  everything := Ontology.names_concept.mpr rfl
  dictionary := rfl
  named {name v} names other := by
    obtain ⟨id, entry, found, named⟩ := names
    obtain ⟨rfl, rfl⟩ := Ontology.initial_thing? found
    cases named
    exact absurd rfl other
  bound _ found := by cases found
  anaphora found := by cases found

variable (sound : Sound spoken top s)
include sound

theorem lasts (adds : s.Extends s') : Sound spoken top s' := by
  obtain ⟨env, ontology⟩ := s'
  obtain ⟨rfl, upholds⟩ : env = s.env ∧ s.ontology.Upholds ontology := ⟨adds.env, adds.ontology.upholds⟩
  exact {
    kept := upholds.kept sound.kept
    everything := upholds.names.mpr sound.everything
    dictionary := sound.dictionary
    named := fun names => sound.named (upholds.names.mp names)
    bound := fun differs found => (sound.bound differs found).imp_left upholds.names.mpr
    anaphora := fun found => (sound.anaphora found).within upholds.within }

theorem dictionary_lookup (name : String) : s.env.dictionary.lookup name =
    if name = top then some (.concept Ontology.top) else Environment.operators.lookup name := by
  rw [sound.dictionary]
  exact Table.lookup_assign ..

theorem builtIn_top : s.env.isBuiltIn top = true := by
  rw [Scope.isBuiltIn, sound.dictionary_lookup, if_pos rfl]
  rfl

theorem top_name {name : String} (names : s.ontology.Names name (.concept Ontology.top)) : name = top := by
  have same := (Ontology.names_concept.mp names).symm.trans (Ontology.names_concept.mp sound.everything)
  cases same
  rfl

/-- No name is given twice. -/
theorem unique {name : String} {v w : Value} (names : s.ontology.Names name v)
    (names' : s.ontology.Names name w) : v = w := by
  -- The memory tells all values of a name apart but the one that it never holds.
  have top_only : ∀ {x}, s.ontology.Names name (.concept Ontology.top) → s.ontology.Names name x →
      x = .concept Ontology.top := by
    intro x atTop other
    by_contra differs
    cases sound.top_name atTop
    have free := (sound.named other differs).2.1
    rw [sound.builtIn_top] at free
    cases free
  by_cases left : v = .concept Ontology.top
  · subst left
    exact (top_only names names').symm
  · by_cases right : w = .concept Ontology.top
    · subst right
      exact top_only names' names
    · exact Option.some.inj ((sound.named names left).1.symm.trans (sound.named names' right).1)

/-- What a name leads to. -/
theorem found {name : String} {v : Value} (found : s.env.find? name = some v) :
    s.env.memory.lookup name = some v ∨ name = top ∧ v = .concept Ontology.top ∨
      Environment.operators.lookup name = some v := by
  rcases Option.or_eq_some_iff.mp found with bound | ⟨_, builtIn⟩
  · exact .inl bound
  · rw [sound.dictionary_lookup] at builtIn
    split at builtIn
    · exact .inr (.inl ⟨‹_›, (Option.some.inj builtIn).symm⟩)
    · exact .inr (.inr builtIn)

theorem ready : s.Ready where
  kept := sound.kept
  known {name v} found := by
    rcases sound.found found with bound | ⟨rfl, rfl⟩ | builtIn
    · by_cases differs : name = anaphoraName
      · subst differs
        exact sound.anaphora bound
      · exact (sound.bound differs bound).1.known
    · exact sound.everything.known
    · obtain ⟨op, rfl⟩ := Environment.operator_of_lookup builtIn
      trivial
  named {name v} differs found := by
    rcases sound.found found with bound | ⟨rfl, rfl⟩ | builtIn
    · exact .inr (sound.bound differs bound).1
    · exact .inr sound.everything
    · exact .inl (Environment.operator_of_lookup builtIn)
  operator {op op'} found := by
    rcases sound.found found with bound | ⟨_, same⟩ | builtIn
    · have differs : op.token ≠ anaphoraName := by cases op <;> decide
      rcases (sound.bound differs bound).1.cases with ⟨_, same⟩ | ⟨_, same⟩ | ⟨_, same⟩ <;> cases same
    · cases same
    · rw [Environment.lookup_token] at builtIn
      cases builtIn
      rfl

theorem interpreted {α : Type u} : s.Interpreted fun I : Interpretation α => I.world s.ontology :=
  ⟨sound.ready, fun I => I.follows_world sound.unique⟩

/-- Something new under a name, and the name bound to it. -/
theorem declares {name : String} {x : Value} (declares : s.Declares name x s')
    (admitted : ∃ l, spoken l ∧ x.Admitted l.vocabulary name) : s'.Sound spoken top := by
  obtain ⟨adds, free, founds⟩ := declares
  rename_i s₁ o
  have sound₁ := sound.lasts adds
  have differs : name ≠ anaphoraName := by
    obtain ⟨l, _, admitted⟩ := admitted
    exact admitted.differs
  have lookup : ∀ n, n ≠ anaphoraName → (s.env.assign name x).memory.lookup n =
      if n = name then some x else s₁.env.memory.lookup n := by
    intro n apart
    rw [Scope.assign, Table.lookup_assign, if_neg apart, Table.lookup_assign, adds.env]
  exact {
    kept := founds.kept sound₁.kept
    everything := founds.names.mpr (.inl sound₁.everything)
    dictionary := sound.dictionary
    named := by
      intro n w atName apart
      rcases founds.names.mp atName with old | ⟨rfl, rfl⟩
      · obtain ⟨bound, free', l, speaks, accepted⟩ := sound₁.named old apart
        refine ⟨?_, adds.env ▸ free', l, speaks, accepted⟩
        rw [lookup n accepted.differs, if_neg, bound]
        rintro rfl
        exact founds.fresh.unnamed old
      · exact ⟨by rw [lookup n differs, if_pos rfl], free, admitted⟩
    bound := by
      intro n w apart found
      rw [lookup n apart] at found
      split at found
      · cases found
        exact ⟨founds.names.mpr (.inr ⟨‹_›, rfl⟩), founds.younger sound₁.everything.known⟩
      · obtain ⟨old, apart⟩ := sound₁.bound apart found
        exact ⟨founds.names.mpr (.inl old), apart⟩
    anaphora := by
      intro w found
      rw [Scope.assign, Table.lookup_assign, if_pos rfl] at found
      cases found
      exact (founds.names.mpr (.inr ⟨rfl, rfl⟩)).known }

theorem advances {l : Language} (speaks : spoken l) {name? : Option String}
    (advances : s.Advances l.vocabulary name? s') : s'.Sound spoken top := by
  cases advances with
  | quiet adds => exact sound.lasts adds
  | declared admitted declares => exact sound.declares declares ⟨l, speaks, admitted⟩

end Sound

end State

section Statements

variable {spoken : Language → Prop} {top : String} {s : State}

/-- Whatever a statement does, the state stays sound; if it fails, it has added anonymous concepts at
most. -/
theorem Phrase.Stated.settles {l : Language} {p : Phrase} (speaks : spoken l)
    (stated : p.Stated l.vocabulary) (sound : s.Sound spoken top) :
    Settles p.eval s (fun _ s' => s'.Sound spoken top) (State.Extends s) :=
  (stated.advances (sound.interpreted (α := Unit))).mono
    (fun _ _ advances => sound.advances speaks advances) fun _ => id

theorem settles_evalAll {l : Language} {ps : List Phrase} (speaks : spoken l)
    (stated : ∀ p ∈ ps, p.Stated l.vocabulary) (sound : s.Sound spoken top) :
    Settles (Phrase.evalAll ps) s (fun _ s' => s'.Sound spoken top) (·.Sound spoken top) := by
  induction ps generalizing s with
  | nil => exact sound
  | cons p ps ih =>
    obtain ⟨first, others⟩ := List.forall_mem_cons.mp stated
    have settles : Settles p.eval s (fun _ s' => s'.Sound spoken top) (·.Sound spoken top) :=
      (first.settles speaks sound).mono (fun _ _ => id) fun _ adds => sound.lasts adds
    refine settles.bind fun v s' sound' => (ih others sound').bind fun vs s'' sound'' => ?_
    exact sound''

end Statements

theorem Evaluation.after_of {α : Type} {x : Evaluation α} {s : State} {P : State → Prop}
    (settles : Settles x s (fun _ => P) P) : P (after x s) := by
  unfold after
  cases run : x.run s with
  | ok a s' => exact settles.ok run
  | error e s' => exact settles.error run

/-- What work that succeeds returns. -/
def Evaluation.answer? {α : Type} (x : Evaluation α) (s : State) : Option α :=
  match x.run s with
  | .ok a _ => some a
  | .error .. => none

theorem Evaluation.run_eq_ok_after {α : Type} {x : Evaluation α} {s : State} {a : α}
    (answers : x.answer? s = some a) : x.run s = .ok a (x.after s) := by
  unfold answer? at answers
  unfold after
  split at answers
  · rename_i run
    cases answers
    rw [run]
  · cases answers

namespace Language

variable {l : Language} {text : String} {s s' : State}

theorem run_of_error {e : Error} (failed : l.parse text = .error e) : (l.run text).run s = .error e s := by
  change (require (l.parse text) >>= Phrase.eval).run s = _
  rw [failed]
  rfl

theorem run_of_ok {p : Phrase} (parsed : l.parse text = .ok p) : (l.run text).run s = p.eval.run s := by
  change (require (l.parse text) >>= Phrase.eval).run s = _
  rw [parsed]
  rfl

theorem run_program (ps : List Phrase) : (Phrase.program ps).eval.run s =
    match (Phrase.evalAll ps).run s with
    | .ok vs s' => .ok (vs.getLastD .nothing) s'
    | .error e s' => .error e s' := by
  rw [Phrase.eval, EStateM.run_bind]
  cases (Phrase.evalAll ps).run s <;> rfl

end Language

/-- Every state that programs lead to is sound. -/
theorem State.Reached.sound {spoken : Language → Prop} {top : String} {s : State}
    (reached : State.Reached spoken top s) : s.Sound spoken top := by
  induction reached with
  | initial => exact .initial spoken top
  | @run s l text speaks _ sound =>
    refine Evaluation.after_of ?_
    unfold Settles
    cases parsed : l.parse text with
    | error e =>
      rw [Language.run_of_error parsed]
      exact sound
    | ok p =>
      obtain ⟨ps, rfl, stated⟩ := Language.stated_of_parse parsed
      rw [Language.run_of_ok parsed, Language.run_program]
      have settles := settles_evalAll speaks stated sound
      cases run : (Phrase.evalAll ps).run s with
      | ok vs s' => exact settles.ok run
      | error e s' => exact settles.error run

namespace Phrase

/-- Statements are evaluated one after the other until one fails. -/
theorem run_evalAll_cons (p : Phrase) (ps : List Phrase) (s : State) : (evalAll (p :: ps)).run s =
    match p.eval.run s with
    | .error e s' => .error e s'
    | .ok v s' =>
      match (evalAll ps).run s' with
      | .error e s'' => .error e s''
      | .ok vs s'' => .ok (v :: vs) s'' := by
  rw [evalAll, EStateM.run_bind]
  cases p.eval.run s with
  | error e s' => rfl
  | ok v s' =>
    dsimp only
    rw [EStateM.run_bind]
    cases (evalAll ps).run s' <;> rfl

theorem evalAll_cons_eq_ok {p : Phrase} {ps : List Phrase} {vs : List Value} {s s' : State} :
    (evalAll (p :: ps)).run s = .ok vs s' ↔
      ∃ v s₁ ws, p.eval.run s = .ok v s₁ ∧ (evalAll ps).run s₁ = .ok ws s' ∧ vs = v :: ws := by
  rw [evalAll, run_eq_ok_of_bind]
  constructor
  · rintro ⟨v, s₁, first, rest⟩
    obtain ⟨ws, _, others, ⟨⟩⟩ := run_eq_ok_of_bind.mp rest
    exact ⟨v, s₁, ws, first, others, rfl⟩
  · rintro ⟨v, s₁, ws, first, others, rfl⟩
    exact ⟨v, s₁, first, run_eq_ok_of_bind.mpr ⟨ws, s', others, rfl⟩⟩

/-- A row of statements fails at one of them, after those before it have succeeded. -/
theorem evalAll_error {ps : List Phrase} {s s' : State} {e : Error}
    (run : (evalAll ps).run s = .error e s') : ∃ before q rest vs s₁, ps = before ++ q :: rest ∧
      (evalAll before).run s = .ok vs s₁ ∧ q.eval.run s₁ = .error e s' := by
  induction ps generalizing s with
  | nil => cases run
  | cons p ps ih =>
    rw [run_evalAll_cons] at run
    cases first : p.eval.run s with
    | error e' s₁ =>
      rw [first] at run
      cases run
      exact ⟨[], p, ps, [], s, rfl, rfl, first⟩
    | ok v s₁ =>
      rw [first] at run
      dsimp only at run
      cases others : (evalAll ps).run s₁ with
      | ok vs s₂ =>
        rw [others] at run
        cases run
      | error e' s₂ =>
        rw [others] at run
        cases run
        obtain ⟨before, q, rest, vs, s₃, rfl, done, failed⟩ := ih others
        refine ⟨p :: before, q, rest, v :: vs, s₃, rfl, ?_, failed⟩
        rw [run_evalAll_cons, first]
        dsimp only
        rw [done]

end Phrase

namespace Language

open Phrase (evalAll)

/-- Only declarations that succeed leave a trace. A program that can not be read changes nothing. One
that fails at a statement has, after those before it, added anonymous concepts at most; and so has
each of its statements that declares nothing, whether it succeeds or fails. -/
theorem only_declarations_trace {top : String} {s : State} (reached : State.Reached (fun _ => True) top s)
    (l : Language) (text : String) :
    (∀ e, l.parse text = .error e → (l.run text).run s = .error e s) ∧
    ∀ p, l.parse text = .ok p → ∃ ps, p = .program ps ∧
      (∀ e s', (l.run text).run s = .error e s' → ∃ before q rest vs s₁, ps = before ++ q :: rest ∧
        (evalAll before).run s = .ok vs s₁ ∧ q.eval.run s₁ = .error e s' ∧
          s'.env = s₁.env ∧ s₁.ontology.Annexes s'.ontology) ∧
      ∀ before q rest vs s₁, ps = before ++ q :: rest → (evalAll before).run s = .ok vs s₁ →
        q.isDeclaration = false →
          (after q.eval s₁).env = s₁.env ∧ s₁.ontology.Annexes (after q.eval s₁).ontology := by
  refine ⟨fun e failed => run_of_error failed, fun p parsed => ?_⟩
  obtain ⟨ps, rfl, stated⟩ := stated_of_parse parsed
  have soundAt : ∀ before q rest vs s₁, ps = before ++ q :: rest → (evalAll before).run s = .ok vs s₁ →
      s₁.Sound (fun _ => True) top := by
    rintro before q rest vs s₁ rfl done
    have earlier : ∀ p ∈ before, p.Stated l.vocabulary :=
      fun p member => stated p (List.mem_append_left _ member)
    exact (settles_evalAll trivial earlier reached.sound).ok done
  refine ⟨ps, rfl, fun e s' run => ?_, fun before q rest vs s₁ split done quiet => ?_⟩
  · rw [run_of_ok parsed, run_program] at run
    have failed : (evalAll ps).run s = .error e s' := by
      cases outcome : (evalAll ps).run s with
      | ok vs s'' =>
        rw [outcome] at run
        cases run
      | error e' s'' =>
        rw [outcome] at run
        cases run
        rfl
    obtain ⟨before, q, rest, vs, s₁, split, done, failed⟩ := Phrase.evalAll_error failed
    have sound := soundAt before q rest vs s₁ split done
    have statement : q.Stated l.vocabulary := stated q (by simp [split])
    have adds := (statement.settles trivial sound).error failed
    exact ⟨before, q, rest, vs, s₁, split, done, failed, adds.env, adds.ontology.annexes⟩
  · have sound := soundAt before q rest vs s₁ split done
    have statement : q.Stated l.vocabulary := stated q (by simp [split])
    have moves := statement.moves quiet (sound.interpreted (α := Unit))
    have adds : s₁.Extends (after q.eval s₁) :=
      Evaluation.after_of (Settles.mono moves (fun _ _ => And.left) fun _ => id)
    exact ⟨adds.env, adds.ontology.annexes⟩

/-- A program that declares a name twice. -/
def doubled : Phrase :=
  .program [.declareConcept "A" [.concept "T"], .declareConcept "A" [.negation (.concept "T")]]

/-- What it leaves: the name declared first, and the concept that was made before the second
declaration failed. -/
def doubledLeft : State :=
  ⟨(Environment.initial "T").assign "A" (.concept ⟨2⟩), ⟨#[.concept (.named "T") [] [],
    .concept (.named "A") [⟨1⟩] [], .concept (.negation ⟨1⟩) [] []]⟩⟩

theorem doubled_traceless :
    (run ⟨Vocabulary.usual⟩ "!A::T;!A::~T").run (.initial "T") =
      .error (.refused (.alreadyExists "A")) doubledLeft ∧
    ∃ before q rest vs s₁, doubled = .program (before ++ q :: rest) ∧
      (evalAll before).run (.initial "T") = .ok vs s₁ ∧
        q.eval.run s₁ = .error (.refused (.alreadyExists "A")) doubledLeft ∧
          doubledLeft.env = s₁.env ∧ s₁.ontology.Annexes doubledLeft.ontology := by
  have parsed : parse ⟨Vocabulary.usual⟩ "!A::T;!A::~T" = .ok doubled := rfl
  have evaluated : doubled.eval.run (.initial "T") = .error (.refused (.alreadyExists "A")) doubledLeft := by
    with_unfolding_all rfl
  have failed := (run_of_ok parsed).trans evaluated
  obtain ⟨_, same, failing, _⟩ := (only_declarations_trace .initial _ _).2 _ parsed
  obtain ⟨before, q, rest, vs, s₁, rfl, outcome⟩ := failing _ _ failed
  exact ⟨failed, before, q, rest, vs, s₁, same, outcome⟩

end Language

end ConceptLogic
