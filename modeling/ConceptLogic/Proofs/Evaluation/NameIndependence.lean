import ConceptLogic.Proofs.Evaluation.AdmittedRenamings
import ConceptLogic.Proofs.Session.ReachedStates

namespace ConceptLogic

/-- How a row of statements fares: the values of those that succeed, the error of the one that fails, if one
does, and the state that is left. -/
structure Course where
  values : List Value
  failure : Option Error
  left : State

/-- What a program comes to that fares so. -/
def Course.outcome (c : Course) : EStateM.Result Error State Value :=
  match c.failure with
  | none => .ok (c.values.getLastD .nothing) c.left
  | some e => .error e c.left

def Phrase.course : List Phrase → State → Course
  | [], s => ⟨[], none, s⟩
  | p :: ps, s =>
    match p.eval.run s with
    | .ok v s' => ⟨v :: (course ps s').values, (course ps s').failure, (course ps s').left⟩
    | .error e s' => ⟨[], some e, s'⟩

/-- How the statements of a text fare. A text that can not be read has none. -/
def Language.course (l : Language) (text : String) (s : State) : Course :=
  match l.parse text with
  | .ok p => Phrase.course p.statements s
  | .error e => ⟨[], some e, s⟩

section Courses

variable {l : Language} {s : State} {ps : List Phrase}

theorem Phrase.run_evalAll_course (ps : List Phrase) (s : State) : (evalAll ps).run s =
    match (course ps s).failure with
    | none => .ok (course ps s).values (course ps s).left
    | some e => .error e (course ps s).left := by
  induction ps generalizing s with
  | nil => rfl
  | cons p ps ih =>
    rw [run_evalAll_cons, course]
    cases p.eval.run s with
    | error e s' => rfl
    | ok v s' =>
      dsimp only
      rw [ih]
      cases (course ps s').failure <;> rfl

theorem Language.course_of_parse {text : String} {p : Phrase} (parsed : l.parse text = .ok p) (s : State) :
    l.course text s = Phrase.course p.statements s := by
  unfold course
  rw [parsed]

/-- A program runs as its statements fare. -/
theorem Language.run_course (l : Language) (text : String) (s : State) :
    (l.run text).run s = (l.course text s).outcome := by
  unfold course
  cases parsed : l.parse text with
  | error e => exact run_of_error parsed
  | ok p =>
    obtain ⟨ps, rfl, _⟩ := stated_of_parse parsed
    rw [run_of_ok parsed, run_program, Phrase.run_evalAll_course]
    unfold Course.outcome
    dsimp only [Phrase.statements]
    cases (Phrase.course ps s).failure <;> rfl

/-- Whether statements fare as others do but for names. -/
structure Course.Renamed (R : Renaming) (c c' : Course) : Prop where
  values : c'.values = c.values.map (Value.renamed R)
  failure : Option.Rel (Error.Renamed R) c.failure c'.failure
  left : c'.left = c.left.renamed R

theorem Phrase.course_renamed (R : Renaming) (ps : List Phrase) (s : State) :
    (course ps s).Renamed R (course (ps.map (renamed R)) (s.renamed R)) := by
  induction ps generalizing s with
  | nil => exact ⟨rfl, .none, rfl⟩
  | cons p ps ih =>
    have first := R.keeps p s
    unfold Carries at first
    rw [List.map_cons, course, course]
    cases outcome : p.eval.run s with
    | ok v s' =>
      rw [outcome] at first
      rw [first]
      obtain ⟨values, failure, left⟩ := ih s'
      exact ⟨congrArg (v.renamed R :: ·) values, failure, left⟩
    | error e s' =>
      rw [outcome] at first
      obtain ⟨e', outcome', like⟩ := first
      rw [outcome']
      exact ⟨rfl, .some like, rfl⟩

end Courses

namespace Language

variable {l : Language} {top text : String} {p : Phrase}

theorem parse_renamed (names : Pseudonyms l.vocabulary top) (parsed : l.parse text = .ok p) :
    l.parse (p.renamed names.total).text = .ok (p.renamed names.total) := by
  obtain ⟨ps, rfl, stated⟩ := stated_of_parse parsed
  rw [Phrase.renamed, Phrase.renamedAll_eq_map]
  exact parse_text (List.forall_mem_map.mpr fun q member => (stated q member).renamed names)

/-- Names do not matter. A program under other names is a program, and however it is written, its statements
fare as those of the program do: as many succeed, with the same values; if one fails, so does the other one,
with the same error; and they leave equally many concepts, individuals and names that are bound. -/
theorem fares_alike (l : Language) {top : String} (names : Pseudonyms l.vocabulary top) {text : String}
    {p : Phrase} (parsed : l.parse text = .ok p) :
    l.parse (p.renamed names.total).text = .ok (p.renamed names.total) ∧
    ∀ text', l.parse text' = .ok (p.renamed names.total) → ∃ c c',
      l.course text (.initial top) = c ∧ (l.run text).run (.initial top) = c.outcome ∧
      l.course text' (.initial top) = c' ∧ (l.run text').run (.initial top) = c'.outcome ∧
      c'.values = c.values.map (Value.renamed names.total) ∧
      Option.Rel (Error.Renamed names.total) c.failure c'.failure ∧
      c'.left.ontology.conceptCount = c.left.ontology.conceptCount ∧
      c'.left.ontology.individualCount = c.left.ontology.individualCount ∧
      c'.left.env.memory.length = c.left.env.memory.length := by
  refine ⟨parse_renamed names parsed, fun text' parsed' => ?_⟩
  refine ⟨_, _, rfl, l.run_course text _, rfl, l.run_course text' _, ?_⟩
  obtain ⟨ps, rfl, _⟩ := stated_of_parse parsed
  have statements :
      (Phrase.renamed names.total (.program ps)).statements = ps.map (Phrase.renamed names.total) := by
    rw [Phrase.renamed, Phrase.renamedAll_eq_map, Phrase.statements]
  have fares := Phrase.course_renamed names.total ps (.initial top)
  rw [names.initial_total, ← statements] at fares
  rw [course_of_parse parsed, course_of_parse parsed', Phrase.statements]
  have ontology : ∀ s : State, (s.renamed names.total).ontology = s.ontology.renamed names.total := fun _ => rfl
  have env : ∀ s : State, (s.renamed names.total).env = s.env.renamed names.total := fun _ => rfl
  refine ⟨fares.values, fares.failure, ?_⟩
  rw [fares.left, ontology, env]
  refine ⟨Ontology.conceptCount_renamed .., Ontology.individualCount_renamed .., ?_⟩
  rw [Environment.memory_renamed, List.length_map]

/-- Two names that take each other's place. -/
def exchange (n : String) : String := if n = "A" then "B" else if n = "B" then "A" else n

theorem exchange_exchange (n : String) : exchange (exchange n) = n := by
  unfold exchange
  split_ifs <;> simp_all

def exchanged : Pseudonyms Vocabulary.usual "T" where
  name := exchange
  base := id
  vetted {role n} vetted := by
    unfold exchange
    split
    · rename_i same
      subst same
      cases role <;> revert vetted <;> decide
    · split
      · rename_i same
        subst same
        cases role <;> revert vetted <;> decide
      · exact vetted
  apart {_ _ n m} _ _ same := by rw [← exchange_exchange n, same, exchange_exchange]
  baseVetted := id
  baseApart _ _ := id
  keepsTop := rfl
  keepsTopVariable _ _ := rfl

/-- A program that declares its first name twice. -/
def relapse (n m : String) : Phrase :=
  .program [.declareConcept n [.concept "T"], .declareConcept m [.concept n],
    .comparison [.concept m, .concept n] ["<="], .declareConcept n [.concept "T"]]

/-- Such a program fails at its last statement, and so it does with the names exchanged. -/
theorem exchanged_fares :
    parse ⟨Vocabulary.usual⟩ "!A::T;!B::A;B<=A;!A::T" = .ok (relapse "A" "B") ∧
    parse ⟨Vocabulary.usual⟩ "! B :: T; ! A :: B; A <= B; ! B :: T" = .ok (relapse "B" "A") ∧
    (course ⟨Vocabulary.usual⟩ "! B :: T; ! A :: B; A <= B; ! B :: T" (.initial "T")).values =
      [.nothing, .nothing, .boolean true] ∧
    (course ⟨Vocabulary.usual⟩ "! B :: T; ! A :: B; A <= B; ! B :: T" (.initial "T")).failure =
      some (.refused (.alreadyExists "B")) := by
  have parsed : parse ⟨Vocabulary.usual⟩ "!A::T;!B::A;B<=A;!A::T" = .ok (relapse "A" "B") := rfl
  obtain ⟨values, failure⟩ :
      (course ⟨Vocabulary.usual⟩ "!A::T;!B::A;B<=A;!A::T" (.initial "T")).values =
        [.nothing, .nothing, .boolean true] ∧
      (course ⟨Vocabulary.usual⟩ "!A::T;!B::A;B<=A;!A::T" (.initial "T")).failure =
        some (.refused (.alreadyExists "A")) := by
    rw [course_of_parse parsed]
    exact ⟨by with_unfolding_all rfl, by with_unfolding_all rfl⟩
  have renamed : (relapse "A" "B").renamed exchanged.total = relapse "B" "A" := rfl
  have text : (relapse "B" "A").text = "! B :: T; ! A :: B; A <= B; ! B :: T" := rfl
  obtain ⟨parsed', fares⟩ := fares_alike ⟨Vocabulary.usual⟩ exchanged parsed
  rw [renamed] at parsed' fares
  rw [text] at parsed'
  obtain ⟨_, _, rfl, _, rfl, _, same, failed, _⟩ := fares _ parsed'
  refine ⟨parsed, parsed', by rw [same, values]; rfl, ?_⟩
  have exchangedName : exchanged.total.name "A" = "B" := rfl
  rw [failure] at failed
  revert failed
  generalize (course ⟨Vocabulary.usual⟩ "! B :: T; ! A :: B; A <= B; ! B :: T" (.initial "T")).failure = outcome
  rintro ⟨⟨⟩⟩
  rw [Fault.renamed, exchangedName]

end Language

end ConceptLogic
