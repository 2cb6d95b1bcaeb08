import ConceptLogic.Proofs.Session.DeclaredNames

namespace ConceptLogic

open Phrase (evalAll)

namespace State

/-- Whether the anaphora stands for what was declared last, given the names declared so far, the last
one first, and for nothing if nothing was declared. -/
def RefersBack : List String → State → Prop
  | [], s => s.env.anaphora? = none
  | name :: _, s => ∃ v, s.ontology.Names name v ∧ s.env.anaphora? = some v

/-- How the memory of a state agrees with its ontology, given the names declared so far. -/
structure Agrees (top : String) (names : List String) (s : State) : Prop where
  bound : ∀ name v, name ≠ anaphoraName → s.env.memory.lookup name = some v → s.ontology.Names name v
  known : ∀ name v, s.ontology.Names name v → name ≠ top → s.env.memory.lookup name = some v
  single : ∀ name v w, s.ontology.Names name v → s.ontology.Names name w → v = w
  found : s.env.find? anaphoraName = s.env.anaphora?
  anaphora : RefersBack names s

/-- Whether a name stands for a value for good. However many programs are run, it stays bound, and
whatever statement is to declare it fails and binds nothing. -/
def Unalterable (spoken : Language → Prop) (name : String) (v : Value) (s : State) : Prop :=
  ∀ s', Later spoken s s' → s'.env.memory.lookup name = some v ∧
    ∀ l text before q rest vs s₁, spoken l → l.parse text = .ok (.program (before ++ q :: rest)) →
      (evalAll before).run s' = .ok vs s₁ → q.declares? = some name →
        s₁.env.memory.lookup name = some v ∧ ∃ e s₂, q.eval.run s₁ = .error e s₂ ∧ s₂.env = s₁.env

/-- What is true of the names declared so far. -/
structure Logged (names : List String) (s : State) : Prop where
  known : ∀ name ∈ names, ∃ v, s.ontology.Names name v ∧ v ≠ .concept Ontology.top
  last : RefersBack names s

variable {spoken : Language → Prop} {top : String} {names : List String} {s : State}

theorem logged_lasting : Lasting spoken top Logged := by
  intro l names name? s s' _ sound advances logged
  have older : ∀ name ∈ names, ∃ v, s'.ontology.Names name v ∧ v ≠ .concept Ontology.top := by
    intro name member
    obtain ⟨v, given, other⟩ := logged.known name member
    exact ⟨v, advances.names given, other⟩
  cases advances with
  | quiet adds =>
    refine ⟨older, ?_⟩
    have last := logged.last
    have same : s'.env.anaphora? = s.env.anaphora? := congrArg Environment.anaphora? adds.env
    cases names with
    | nil => exact same.trans last
    | cons name names =>
      obtain ⟨v, given, bound⟩ := last
      exact ⟨v, adds.ontology.upholds.names.mpr given, same.trans bound⟩
  | @declared name x _ _ declares =>
    cases declares with
    | @bound s₁ o adds _ founds =>
      have given : o.Names name x := founds.names.mpr (.inr ⟨rfl, rfl⟩)
      refine ⟨List.forall_mem_cons.mpr ⟨⟨x, given, ?_⟩, older⟩, x, given, ?_⟩
      · exact founds.younger (sound.lasts adds).everything.known
      · rw [Environment.anaphora?, Scope.assign, Table.lookup_assign, if_pos rfl]

theorem initial_logged (top : String) : Logged [] (.initial top) :=
  ⟨nofun, rfl⟩

/-- A name once given is given for good. -/
theorem names_lasting (name : String) (v : Value) : Lasting spoken top fun _ s => s.ontology.Names name v :=
  fun _ _ _ _ _ _ _ advances => advances.names

theorem unalterable_of_names (reached : Reached spoken top s) {name : String} {v : Value}
    (given : s.ontology.Names name v) (other : v ≠ .concept Ontology.top) : s.Unalterable spoken name v := by
  intro s' later
  have reached' := later.reached reached
  have given' := later.keeps (names_lasting name v) reached given
  refine ⟨(reached'.sound.named given' other).1, ?_⟩
  intro l text before q rest vs s₁ speaks parsed done declares
  obtain ⟨_, ⟨⟩, stated⟩ := Language.stated_of_parse parsed
  obtain ⟨earlier, others⟩ := List.forall_mem_append.mp stated
  have sound := (settles_evalAll speaks earlier reached'.sound).ok done
  have given₁ := keeps_midst (names_lasting name v) speaks earlier reached'.sound given' done
  have advances := (others q (List.mem_cons_self ..)).advances (sound.interpreted (α := Unit))
  refine ⟨(sound.named given₁ other).1, ?_⟩
  cases run : q.eval.run s₁ with
  | error e s₂ => exact ⟨e, s₂, rfl, (advances.error run).env⟩
  | ok w s₂ =>
    have advanced := advances.ok run
    rw [declares] at advanced
    cases advanced with
    | declared _ founding => exact absurd given₁ founding.unnamed

/-- Memory and ontology agree on names, whatever programs are run. What is bound is what is kept under
the same name, all that is kept is bound but the concept of everything, and no name is given twice. The
anaphora stands for what was declared last, if anything was. And whatever has been declared stays. -/
theorem recorded_agrees (other : top ≠ anaphoraName) (recorded : Recorded (fun _ => True) top names s) :
    s.Agrees top names ∧
      ∀ name ∈ names, ∃ v, s.ontology.Names name v ∧ s.Unalterable (fun _ => True) name v := by
  have sound := recorded.forget.sound
  have logged := recorded.keeps logged_lasting (initial_logged top)
  constructor
  · exact {
      bound := fun _ _ differs found => (sound.bound differs found).1
      known := by
        intro name v given apart
        refine (sound.named given ?_).1
        rintro rfl
        exact apart (sound.top_name given)
      single := fun _ _ _ => sound.unique
      found := by
        rw [Scope.find?, sound.dictionary_lookup, if_neg other.symm]
        exact Option.or_none
      anaphora := logged.last }
  · intro name member
    obtain ⟨v, given, notTop⟩ := logged.known name member
    exact ⟨v, given, unalterable_of_names recorded.forget given notTop⟩

/-- What a program leaves that declares a concept and an individual. -/
def paired : State :=
  ⟨((Environment.initial "T").assign "A" (.concept ⟨2⟩)).assign "b" (.individual ⟨3⟩),
    ⟨#[.concept (.named "T") [] [], .concept (.named "A") [⟨1⟩] [], .individual "b" [⟨2⟩]]⟩⟩

/-- What is left of it after a program that declares another concept and then fails, as it declares
the first one again. -/
def redeclared : State :=
  ⟨paired.env.assign "B" (.concept ⟨4⟩),
    ⟨paired.ontology.entries.push (.concept (.named "B") [⟨2⟩] [])⟩⟩

theorem redeclared_recorded : Recorded (fun _ => True) "T" ["B", "b", "A"] redeclared := by
  have program : ∀ {names s} new s' text ps, Recorded (fun _ => True) "T" names s →
      Language.parse ⟨Vocabulary.usual⟩ text = .ok (.program ps) → Evaluation.after (evalAll ps) s = s' →
      Phrase.declared ps s = new → Recorded (fun _ => True) "T" (new ++ names) s' := by
    intro names s new s' text ps recorded parsed left declared
    rw [← left, ← declared, ← Language.after_run parsed, ← Language.declared_of_parse parsed]
    exact .run text trivial recorded
  have first : Recorded (fun _ => True) "T" ["b", "A"] paired :=
    program ["b", "A"] paired "!A::T;!b:A"
      [.declareConcept "A" [.concept "T"], .declareIndividual "b" [.concept "A"]] .initial
      rfl (by with_unfolding_all rfl) (by with_unfolding_all rfl)
  exact program ["B"] redeclared "!B::A;!A::B"
    [.declareConcept "B" [.concept "A"], .declareConcept "A" [.concept "B"]] first
    rfl (by with_unfolding_all rfl) (by with_unfolding_all rfl)

theorem redeclared_agrees : "T" ≠ anaphoraName ∧ Recorded (fun _ => True) "T" ["B", "b", "A"] redeclared ∧
    redeclared.Agrees "T" ["B", "b", "A"] ∧ redeclared.Unalterable (fun _ => True) "b" (.individual ⟨3⟩) := by
  obtain ⟨agrees, settled⟩ := recorded_agrees (by decide) redeclared_recorded
  obtain ⟨v, given, unalterable⟩ := settled "b" (by decide)
  have atThree : redeclared.ontology.Names "b" (.individual ⟨3⟩) := Ontology.names_individual.mpr rfl
  cases agrees.single _ _ _ given atThree
  exact ⟨by decide, redeclared_recorded, agrees, unalterable⟩

end State

end ConceptLogic
