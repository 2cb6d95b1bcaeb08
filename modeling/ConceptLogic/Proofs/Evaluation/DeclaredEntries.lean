import ConceptLogic.Proofs.Evaluation.KnownValues
import ConceptLogic.Proofs.Grammar.JoinedPrograms

namespace ConceptLogic

open Evaluation
open Phrase (evalAll)

section Runs

variable {α β : Type} {s s' : State} {name : String}

theorem require_bind_eq_ok {x : Except Error α} {f : α → Evaluation β} {b : β}
    (run : (require x >>= f).run s = .ok b s') : ∃ a, x = .ok a ∧ (f a).run s = .ok b s' := by
  cases x with
  | ok a => exact ⟨a, rfl, run⟩
  | error e => cases run

theorem building_bind_eq_ok {x : Building α} {f : α → Evaluation β} {b : β}
    (run : (building x >>= f).run s = .ok b s') :
    ∃ a o, x.run s.ontology = .ok a o ∧ (f a).run ⟨s.env, o⟩ = .ok b s' := by
  obtain ⟨a, s₁, built, rest⟩ := run_eq_ok_of_bind.mp run
  obtain ⟨o, outcome, rfl⟩ := run_building_eq_ok.mp built
  exact ⟨a, o, outcome, rest⟩

/-- Work that asks first whether a name can be bound. -/
theorem assignable_bind_eq_ok {f : Unit → Evaluation Unit}
    (run : (assignable name >>= f).run s = .ok () s') : (f ()).run s = .ok () s' := by
  have checked : (require (s.env.assignable name) >>= f).run s = .ok () s' := run
  obtain ⟨_, _, rest⟩ := require_bind_eq_ok checked
  exact rest

theorem Evaluation.bind_eq_ok {v : Value} (run : (Evaluation.bind name v).run s = .ok () s') :
    s' = ⟨s.env.assign name v, s.ontology⟩ := by
  have parts : (require (s.env.bind name v) >>= fun env => modify fun s => { s with env := env } :
    Evaluation Unit).run s = .ok () s' := run
  obtain ⟨env, bound, done⟩ := require_bind_eq_ok parts
  obtain ⟨_, rfl⟩ := Environment.bind_eq_ok bound
  cases done
  rfl

/-- What the newest thing is told to fall under is added to its entry, in order. -/
theorem run_tells_eq_ok {o o' : Ontology} {x : Entity} (tellable : ∀ r, x ≠ .relation r)
    (newest : x.id = o.size + 1) {entry : Entry} {cs : List ConceptId}
    (run : (cs.forM (Building.addIsA x)).run (o.adding entry) = .ok () o') :
    o' = o.adding (cs.foldl (fun entry c => entry.tellIsA c) entry) := by
  -- each telling changes the entry added, which is the one the next telling finds
  induction cs generalizing entry with
  | nil =>
    cases run
    rfl
  | cons c cs ih =>
    have parts : (Building.addIsA x c >>= fun _ => cs.forM (Building.addIsA x)).run (o.adding entry) =
      .ok () o' := run
    obtain ⟨_, o₁, first, rest⟩ := run_eq_ok_of_bind.mp parts
    have told : o₁ = o.adding (entry.tellIsA c) := by
      rw [← Ontology.adding_changing, ← newest]
      cases x with
      | concept d => exact ((Building.addIsA_concept_yields d c).of_ok first).2.2
      | individual i => exact ((Building.addIsA_individual_yields i c).of_ok first).2.2
      | relation r => exact absurd rfl (tellable r)
    exact ih (told ▸ rest)

end Runs

/-- What a thing falls under by its declaration: its bases, or what stands in for them if there are none,
and then all else. -/
def under (default : ConceptId) (bases others : List ConceptId) : List ConceptId :=
  (if bases.isEmpty then [default] else bases) ++ others

section Works

variable {s s' : State} {name : String} {default : ConceptId}

theorem foldl_tellIsA_individual (types cs : List ConceptId) :
    cs.foldl (fun entry c => entry.tellIsA c) (Entry.individual name types) =
      .individual name (types ++ cs) := by
  induction cs generalizing types with
  | nil => rw [List.append_nil]; rfl
  | cons c cs ih => rw [List.foldl_cons, Entry.tellIsA, ih, List.append_assoc, List.singleton_append]

theorem foldl_tellIsA_concept (e : Expression) (isA cs : List ConceptId) :
    cs.foldl (fun entry c => entry.tellIsA c) (Entry.concept e isA []) = .concept e (isA ++ cs) [] := by
  induction cs generalizing isA with
  | nil => rw [List.append_nil]; rfl
  | cons c cs ih => rw [List.foldl_cons, Entry.tellIsA, ih, List.append_assoc, List.singleton_append]

theorem declareIndividual_eq_ok {rhs : Evaluation (List Value × List Value)}
    (run : (declareIndividual name rhs default).run s = .ok () s') :
    ∃ bases others s₁, rhs.run s = .ok (bases.map .concept, others.map .concept) s₁ ∧
      s₁.ontology.Fresh name ∧ s' = ⟨s₁.env.assign name (.individual ⟨s₁.ontology.size + 1⟩),
        s₁.ontology.adding (.individual name (under default bases others))⟩ := by
  obtain ⟨⟨vs, ws⟩, s₁, evaluated, run₁⟩ := run_eq_ok_of_bind.mp (assignable_bind_eq_ok run)
  obtain ⟨bases, taken, run₂⟩ := require_bind_eq_ok run₁
  obtain ⟨others, taken', run₃⟩ := require_bind_eq_ok run₂
  obtain ⟨i, o₁, made, run₄⟩ := building_bind_eq_ok run₃
  obtain ⟨⟨fresh, _⟩, rfl, rfl⟩ := (Building.createIndividual_yields name _).of_ok made
  obtain ⟨_, o₂, told, run₅⟩ := building_bind_eq_ok run₄
  have types : [bases.headD default] ++ (bases.tail ++ others) = under default bases others := by
    cases bases <;> rfl
  have tellings := run_tells_eq_ok (by simp) rfl told
  rw [foldl_tellIsA_individual, types] at tellings
  subst tellings
  cases Value.mapM_asConcept_eq_ok taken
  cases Value.mapM_asConcept_eq_ok taken'
  exact ⟨bases, others, s₁, evaluated, fresh, bind_eq_ok run₅⟩

theorem relations_of_declaresRelation {vs ws : List Value} (relational : declaresRelation vs ws = true)
    {supers : List RelationId} (taken : vs.mapM Value.asRelation = .ok supers) :
    supers ≠ [] ∧ vs = supers.map .relation ∧ ws = [] := by
  have each := (mapM_eq_ok_iff.mp taken).imp fun _ _ => Value.asRelation_eq_ok
  have same : vs = supers.map .relation := List.forall₂_eq_eq_eq ▸ List.forall₂_map_right_iff.mpr each
  simp only [declaresRelation, Bool.and_eq_true, Bool.not_eq_true', List.isEmpty_iff,
    List.isEmpty_eq_false_iff] at relational
  obtain ⟨⟨some, none⟩, _⟩ := relational
  refine ⟨?_, same, none⟩
  rintro rfl
  exact some same

theorem declareConcept_eq_ok {rhs : Evaluation (List Value × List Value)}
    (run : (declareConcept name rhs default).run s = .ok () s') :
    (∃ supers s₁, supers ≠ [] ∧ rhs.run s = .ok (supers.map .relation, []) s₁ ∧ s₁.ontology.Fresh name ∧
      s' = ⟨s₁.env.assign name (.relation ⟨s₁.ontology.size + 1⟩),
        s₁.ontology.adding (.relation name supers none)⟩) ∨
    ∃ bases others s₁, rhs.run s = .ok (bases.map .concept, others.map .concept) s₁ ∧
      s₁.ontology.Fresh name ∧ s' = ⟨s₁.env.assign name (.concept ⟨s₁.ontology.size + 1⟩),
        s₁.ontology.adding (.concept (.named name) (under default bases others) [])⟩ := by
  obtain ⟨⟨vs, ws⟩, s₁, evaluated, run₁⟩ := run_eq_ok_of_bind.mp (assignable_bind_eq_ok run)
  dsimp only at run₁
  split at run₁
  · rename_i relational
    obtain ⟨supers, taken, run₂⟩ := require_bind_eq_ok run₁
    obtain ⟨r, o₁, made, run₃⟩ := building_bind_eq_ok run₂
    obtain ⟨⟨fresh, _⟩, rfl, rfl⟩ := (Building.createRelation_yields name _).of_ok made
    obtain ⟨some, rfl, rfl⟩ := relations_of_declaresRelation relational taken
    exact .inl ⟨supers, s₁, some, evaluated, fresh, bind_eq_ok run₃⟩
  · obtain ⟨bases, taken, run₂⟩ := require_bind_eq_ok run₁
    obtain ⟨others, taken', run₃⟩ := require_bind_eq_ok run₂
    obtain ⟨c, o₁, made, run₄⟩ := building_bind_eq_ok run₃
    obtain ⟨⟨fresh, _⟩, rfl, rfl⟩ := (Building.createConcept_yields name _).of_ok made
    obtain ⟨_, o₂, told, run₅⟩ := building_bind_eq_ok run₄
    -- the default stands in before the concept is made, which then has no need of the top
    have isA : ∀ bs : List ConceptId, bs = (if bases.isEmpty then [default] else bases) →
        (if bs.isEmpty then [Ontology.top] else bs) ++ others = under default bases others := by
      rintro _ rfl
      cases bases <;> rfl
    have tellings := run_tells_eq_ok (by simp) rfl told
    rw [foldl_tellIsA_concept, isA _ rfl] at tellings
    subst tellings
    cases Value.mapM_asConcept_eq_ok taken
    cases Value.mapM_asConcept_eq_ok taken'
    exact .inr ⟨bases, others, s₁, evaluated, fresh, bind_eq_ok run₅⟩

theorem declareRelation_eq_ok {rhs : Evaluation (ConceptId × ConceptId)}
    (run : (declareRelation name rhs).run s = .ok () s') :
    ∃ domain range s₁, rhs.run s = .ok (domain, range) s₁ ∧ s₁.ontology.Fresh name ∧
      s' = ⟨s₁.env.assign name (.relation ⟨s₁.ontology.size + 1⟩),
        s₁.ontology.adding (.relation name [] (some (domain, range)))⟩ := by
  obtain ⟨⟨domain, range⟩, s₁, evaluated, run₁⟩ := run_eq_ok_of_bind.mp (assignable_bind_eq_ok run)
  obtain ⟨r, o₁, made, run₂⟩ := building_bind_eq_ok run₁
  obtain ⟨⟨fresh, _⟩, rfl, rfl⟩ := (Building.createRelation_yields name _).of_ok made
  obtain ⟨_, o₂, signed, run₃⟩ := building_bind_eq_ok run₂
  obtain ⟨_, _, rfl⟩ := (Building.setSignature_yields _ _ _).of_ok signed
  refine ⟨domain, range, s₁, evaluated, fresh, ?_⟩
  rw [bind_eq_ok run₃]
  exact congrArg _ Ontology.adding_changing

theorem define_eq_ok {rhs : Evaluation ConceptId} (run : (define name rhs default).run s = .ok () s') :
    ∃ body s₁, rhs.run s = .ok body s₁ ∧ s₁.ontology.Fresh name ∧
      s' = ⟨s₁.env.assign name (.concept ⟨s₁.ontology.size + 1⟩),
        (s₁.ontology.adding (.concept (.named name) [default] [body])).changing body.id
          (.tellEquivalent ⟨s₁.ontology.size + 1⟩)⟩ := by
  obtain ⟨body, s₁, evaluated, run₁⟩ := run_eq_ok_of_bind.mp (assignable_bind_eq_ok run)
  obtain ⟨c, o₁, made, run₂⟩ := building_bind_eq_ok run₁
  obtain ⟨⟨fresh, _⟩, rfl, rfl⟩ := (Building.createConcept_yields name _).of_ok made
  obtain ⟨_, o₂, told, run₃⟩ := building_bind_eq_ok run₂
  obtain ⟨_, _, rfl⟩ := (Building.addEquivalence_concept_yields _ _).of_ok told
  refine ⟨body, s₁, evaluated, fresh, ?_⟩
  rw [bind_eq_ok run₃]
  exact congrArg (fun o => State.mk _ (Ontology.changing o _ _)) Ontology.adding_changing

end Works

namespace Phrase

/-- The values of those parts of a tuple that are of one sort, in their order. -/
def valuesOf (sort : Phrase → Bool) (ps : List Phrase) (vs : List Value) : List Value :=
  ((ps.zip vs).filter fun part => sort part.1).map Prod.snd

theorem split_eq (ps : List Phrase) (vs : List Value) :
    split ps vs = (valuesOf isConcept ps vs, valuesOf (fun p => !p.isConcept) ps vs) := by
  induction ps generalizing vs with
  | nil => rfl
  | cons p ps ih =>
    cases vs with
    | nil => rfl
    | cons v vs =>
      rw [split, ih]
      cases atomic : p.isConcept <;> simp [valuesOf, atomic]

/-- A tuple of which nothing is left beside single names has nothing else in it. -/
theorem atomic_of_valuesOf {ps : List Phrase} {vs : List Value} (each : vs.length = ps.length)
    (none : valuesOf (fun p => !p.isConcept) ps vs = []) :
    (∀ p ∈ ps, p.isConcept = true) ∧ valuesOf isConcept ps vs = vs := by
  induction ps generalizing vs with
  | nil =>
    cases List.eq_nil_of_length_eq_zero each
    exact ⟨nofun, rfl⟩
  | cons p ps ih =>
    obtain ⟨v, vs, rfl⟩ := List.exists_cons_of_length_eq_add_one each
    cases atomic : p.isConcept with
    | false => simp [valuesOf, atomic] at none
    | true =>
      have rest : valuesOf (fun p => !p.isConcept) ps vs = [] := by simpa [valuesOf, atomic] using none
      obtain ⟨all, same⟩ := ih (Nat.succ.inj each) rest
      refine ⟨List.forall_mem_cons.mpr ⟨atomic, all⟩, ?_⟩
      simpa [valuesOf, atomic] using same

/-- What a declaration makes of the ontology that the evaluation of its right-hand side leaves, and the
value that its name stands for then. -/
inductive Establishes (default : ConceptId) (s s₁ : State) : Phrase → Value → Ontology → Prop
  | individual {name : String} {ps : List Phrase} {vs : List Value} {bases others : List ConceptId} :
      (evalAll ps).run s = .ok vs s₁ → valuesOf isConcept ps vs = bases.map .concept →
      valuesOf (fun p => !p.isConcept) ps vs = others.map .concept →
      Establishes default s s₁ (.declareIndividual name ps) (.individual ⟨s₁.ontology.size + 1⟩)
        (s₁.ontology.adding (.individual name (under default bases others)))
  | concept {name : String} {ps : List Phrase} {vs : List Value} {bases others : List ConceptId} :
      (evalAll ps).run s = .ok vs s₁ → valuesOf isConcept ps vs = bases.map .concept →
      valuesOf (fun p => !p.isConcept) ps vs = others.map .concept →
      Establishes default s s₁ (.declareConcept name ps) (.concept ⟨s₁.ontology.size + 1⟩)
        (s₁.ontology.adding (.concept (.named name) (under default bases others) []))
  | subrelation {name : String} {ps : List Phrase} {supers : List RelationId} :
      (evalAll ps).run s = .ok (supers.map .relation) s₁ → ps ≠ [] → (∀ p ∈ ps, p.isConcept = true) →
      Establishes default s s₁ (.declareConcept name ps) (.relation ⟨s₁.ontology.size + 1⟩)
        (s₁.ontology.adding (.relation name supers none))
  | relation {name : String} {p q : Phrase} {domain range : ConceptId} {s₀ : State} :
      p.eval.run s = .ok (.concept domain) s₀ → q.eval.run s₀ = .ok (.concept range) s₁ →
      Establishes default s s₁ (.declareRelation name p q) (.relation ⟨s₁.ontology.size + 1⟩)
        (s₁.ontology.adding (.relation name [] (some (domain, range))))
  | definition {name : String} {p : Phrase} {body : ConceptId} :
      p.eval.run s = .ok (.concept body) s₁ → s₁.ontology.Knows (.concept body) →
      Establishes default s s₁ (.define name p) (.concept ⟨s₁.ontology.size + 1⟩)
        ((s₁.ontology.adding (.concept (.named name) [default] [body])).changing body.id
          (.tellEquivalent ⟨s₁.ontology.size + 1⟩))

/-- The phrases that the right-hand side of a declaration consists of. -/
def parts : Phrase → List Phrase
  | .declareIndividual _ ps | .declareConcept _ ps => ps
  | .declareRelation _ p q => [p, q]
  | .define _ p => [p]
  | _ => []

/-- What a declaration does to a state if it succeeds. When its right-hand side has been evaluated, which
binds nothing unless something is declared there, something is made under a name that was free, and the
name and the anaphora are bound to it. -/
structure Enacts (default : ConceptId) (d : Phrase) (s s₁ : State) (name : String) (x : Value) (o : Ontology)
    (s' : State) : Prop where
  declares : d.declares? = some name
  evaluated : ∃ rhs v, d.rightSide? = some rhs ∧ rhs.run s = .ok v s₁
  still : (∀ p ∈ d.parts, p.Still) → s₁.env = s.env
  free : ∀ v, ¬s₁.ontology.Names name v
  establishes : d.Establishes default s s₁ x o
  left : s' = ⟨s₁.env.assign name x, o⟩

variable {s s' s₁ : State} {d p q : Phrase} {default : ConceptId}

theorem evalConcept_eq_ok {c : ConceptId} (run : (evalConcept p).run s = .ok c s') :
    p.eval.run s = .ok (.concept c) s' := by
  obtain ⟨v, s₁, evaluated, rest⟩ := run_eq_ok_of_bind.mp run
  rw [← bind_pure (require v.asConcept)] at rest
  obtain ⟨c', taken, done⟩ := require_bind_eq_ok rest
  cases done
  cases Value.asConcept_eq_ok taken
  exact evaluated

theorem evalMapping_eq_ok {domain range : ConceptId}
    (run : (evalMapping p q).run s = .ok (domain, range) s') :
    ∃ s₀, p.eval.run s = .ok (.concept domain) s₀ ∧ q.eval.run s₀ = .ok (.concept range) s' := by
  obtain ⟨c, s₀, first, rest⟩ := run_eq_ok_of_bind.mp run
  obtain ⟨d, s₁, second, done⟩ := run_eq_ok_of_bind.mp rest
  cases done
  exact ⟨s₀, evalConcept_eq_ok first, evalConcept_eq_ok second⟩

theorem run_tuple {ps : List Phrase} {vs : List Value} (run : (evalAll ps).run s = .ok vs s₁) :
    (tuple ps).eval.run s = .ok (.tuple (split ps vs).1 (split ps vs).2) s₁ := by
  rw [eval, EStateM.run_bind, run]
  rfl

theorem run_mapping {domain range : ConceptId} {s₀ : State} (first : p.eval.run s = .ok (.concept domain) s₀)
    (second : q.eval.run s₀ = .ok (.concept range) s₁) :
    (mapping p q).eval.run s = .ok (.mapping domain range) s₁ := by
  rw [eval, EStateM.run_bind, first]
  change (q.eval >>= fun w => require w.asConcept >>= fun d => Pure.pure (Value.mapping domain d)).run s₀ = _
  rw [EStateM.run_bind, second]
  rfl

/-- A right-hand side in which nothing is declared binds nothing. -/
theorem rightSide_still {rhs : Evaluation Value} {v : Value} (knowing : s.Knowing)
    (side : d.rightSide? = some rhs) (still : ∀ p ∈ d.parts, p.Still) (run : rhs.run s = .ok v s₁) :
    s₁.env = s.env := by
  have whole : ∃ p : Phrase, rhs = p.eval ∧ p.Still := by
    cases d with
    | declareIndividual name ps =>
      cases side
      exact ⟨.tuple ps, rfl, .tuple still⟩
    | declareConcept name ps =>
      cases side
      exact ⟨.tuple ps, rfl, .tuple still⟩
    | declareRelation name p q =>
      cases side
      obtain ⟨first, second⟩ := List.forall_mem_cons.mp still
      exact ⟨.mapping p q, rfl, .mapping first (List.forall_mem_singleton.mp second)⟩
    | define name p =>
      cases side
      exact ⟨p, rfl, List.forall_mem_singleton.mp still⟩
    | _ => cases side
  obtain ⟨p, rfl, still⟩ := whole
  have kept : p.Kept (State.Learns False) State.Knowing _ := p.learns fun _ => still
  exact (Settles.ok (kept knowing) run).1.env id

theorem Enacts.of_right {rhs : Evaluation Value} {v x : Value} {name : String} {o : Ontology}
    (knowing : s.Knowing) (declares : d.declares? = some name) (side : d.rightSide? = some rhs)
    (evaluated : rhs.run s = .ok v s₁) (fresh : s₁.ontology.Fresh name)
    (establishes : d.Establishes default s s₁ x o) :
    d.Enacts default s s₁ name x o ⟨s₁.env.assign name x, o⟩ where
  declares := declares
  evaluated := ⟨rhs, v, side, evaluated⟩
  still still := rightSide_still knowing side still evaluated
  free _ := fresh.unnamed
  establishes := establishes
  left := rfl

theorem enacts_of_create {work : Evaluation Unit} (knowing : s.Knowing)
    (creates : d.create? default = some work) (run : work.run s = .ok () s') :
    ∃ s₁ name x o, d.Enacts default s s₁ name x o s' := by
  cases d with
  | declareIndividual name ps =>
    cases creates
    obtain ⟨bases, others, s₁, side, fresh, rfl⟩ := declareIndividual_eq_ok run
    obtain ⟨vs, evaluated, same⟩ := run_map_eq_ok.mp side
    rw [split_eq] at same
    obtain ⟨atoms, rest⟩ := Prod.mk.inj same
    exact ⟨_, _, _, _,
      .of_right knowing rfl rfl (run_tuple evaluated) fresh (.individual evaluated atoms rest)⟩
  | declareConcept name ps =>
    cases creates
    obtain ⟨supers, s₁, some, side, fresh, rfl⟩ | ⟨bases, others, s₁, side, fresh, rfl⟩ :=
      declareConcept_eq_ok run
    all_goals
      obtain ⟨vs, evaluated, same⟩ := run_map_eq_ok.mp side
      rw [split_eq] at same
      obtain ⟨atoms, rest⟩ := Prod.mk.inj same
    -- relations are made of single names only, so nothing was set apart from the tuple
    · obtain ⟨all, same⟩ := atomic_of_valuesOf (evalAll_length evaluated) rest
      rw [same] at atoms
      subst atoms
      have inhabited : ps ≠ [] := by
        rintro rfl
        exact some (by simpa using evalAll_length evaluated)
      exact ⟨_, _, _, _,
        .of_right knowing rfl rfl (run_tuple evaluated) fresh (.subrelation evaluated inhabited all)⟩
    · exact ⟨_, _, _, _,
        .of_right knowing rfl rfl (run_tuple evaluated) fresh (.concept evaluated atoms rest)⟩
  | declareRelation name p q =>
    cases creates
    obtain ⟨domain, range, s₁, side, fresh, rfl⟩ := declareRelation_eq_ok run
    obtain ⟨s₀, first, second⟩ := evalMapping_eq_ok side
    exact ⟨_, _, _, _,
      .of_right knowing rfl rfl (run_mapping first second) fresh (.relation first second)⟩
  | define name p =>
    cases creates
    obtain ⟨body, s₁, side, fresh, rfl⟩ := define_eq_ok run
    have evaluated := evalConcept_eq_ok side
    -- the body is there before the new concept, so its entry is another one
    have kept : p.Kept (State.Learns True) State.Knowing _ := p.learns (absurd trivial)
    have known := (Settles.ok (kept knowing) evaluated).2
    exact ⟨_, _, _, _, .of_right knowing rfl rfl evaluated fresh (.definition evaluated known)⟩
  | _ => cases creates

/-- To evaluate a declaration is to create it under the topmost concept. -/
theorem eval_of_create {work : Evaluation Unit} (creates : d.create? Ontology.top = some work) :
    d.eval = (do work; return .nothing) := by
  cases d with
  | declareRelation =>
    cases creates
    rw [eval, ← evalMapping_eq]
  | define =>
    cases creates
    rw [eval]
    rfl
  | declareIndividual | declareConcept =>
    cases creates
    rw [eval]
  | _ => cases creates

theorem creates_of_isDeclaration (declaration : d.isDeclaration = true) (default : ConceptId) :
    ∃ work, d.create? default = some work := by
  cases d with
  | declareIndividual | declareConcept | declareRelation | define => exact ⟨_, rfl⟩
  | _ => cases declaration

theorem Proper.still {v : Vocabulary} (proper : Proper v p) : p.Still := by
  induction proper with
  | concept => exact .concept _
  | nominal => exact .nominal _
  | var => exact .var _
  | anaphora => exact .anaphora
  | negation _ part => exact .negation part
  | restriction _ _ _ part => exact .restriction (.relation _) part
  | junction _ _ _ parts => exact .junction parts

/-- No text declares anything on the right-hand side of a declaration. -/
theorem Stated.still_parts {v : Vocabulary} (stated : d.Stated v) : ∀ p ∈ d.parts, p.Still := by
  cases stated with
  | concept proper => cases proper <;> exact nofun
  | define _ body => exact List.forall_mem_singleton.mpr body.still
  | declareRelation _ domain range =>
    exact List.forall_mem_cons.mpr ⟨domain.still, List.forall_mem_singleton.mpr range.still⟩
  | declareConcept _ _ parts | declareIndividual _ _ parts => exact fun p member => (parts p member).still
  | membership | comparison => exact nofun

end Phrase

namespace Language

/-- What declarations do. One that succeeds, evaluated or created, leaves the ontology as the evaluation
of its right-hand side leaves it, but for what it establishes, which is one new thing that has its name.
Declarations that texts yield bind nothing besides this name and the anaphora. -/
theorem declaration_enacts {top : String} {s s' : State} (reached : State.Reached (fun _ => True) top s)
    (d : Phrase) :
    (∀ default work, d.create? default = some work → work.run s = .ok () s' →
      ∃ s₁ name x o, d.Enacts default s s₁ name x o s') ∧
    (d.isDeclaration = true → ∀ v, d.eval.run s = .ok v s' →
      v = .nothing ∧ ∃ s₁ name x o, d.Enacts Ontology.top s s₁ name x o s') ∧
    ∀ (l : Language) (text : String) (ps : List Phrase), l.parse text = .ok (.program ps) → d ∈ ps →
      ∀ default s₁ name x o, d.Enacts default s s₁ name x o s' → s'.env = s.env.assign name x := by
  have knowing := reached.sound.knowing
  refine ⟨fun _ _ creates => Phrase.enacts_of_create knowing creates, fun declaration v run => ?_,
    fun l text ps parsed member default s₁ name x o enacts => ?_⟩
  · obtain ⟨work, creates⟩ := Phrase.creates_of_isDeclaration declaration Ontology.top
    rw [Phrase.eval_of_create creates] at run
    obtain ⟨_, s₂, done, rest⟩ := run_eq_ok_of_bind.mp run
    cases rest
    exact ⟨rfl, Phrase.enacts_of_create knowing creates done⟩
  · obtain ⟨_, ⟨⟩, stated⟩ := stated_of_parse parsed
    rw [enacts.left, ← enacts.still (stated d member).still_parts]

/-- Where two concepts have been declared. -/
def twoConcepts : State :=
  Evaluation.after (run ⟨Vocabulary.usual⟩ "!A::T;!B::T") (.initial "T")

theorem twoConcepts_eq : twoConcepts =
    ⟨((Environment.initial "T").assign "A" (.concept ⟨2⟩)).assign "B" (.concept ⟨3⟩),
      ⟨#[.concept (.named "T") [] [], .concept (.named "A") [⟨1⟩] [], .concept (.named "B") [⟨1⟩] []]⟩⟩ := by
  have parsed : parse ⟨Vocabulary.usual⟩ "!A::T;!B::T" =
      .ok (.program [.declareConcept "A" [.concept "T"], .declareConcept "B" [.concept "T"]]) := rfl
  exact (after_run parsed _).trans (by with_unfolding_all rfl)

/-- The right-hand side of `!i:~A,B,A`. -/
def mixedTypes : List Phrase := [.negation (.concept "A"), .concept "B", .concept "A"]

theorem mixedTypes_enacted :
    parse ⟨Vocabulary.usual⟩ "!i:~A,B,A" = .ok (.program [.declareIndividual "i" mixedTypes]) ∧
    ∃ s₁, (evalAll mixedTypes).run twoConcepts = .ok ([⟨4⟩, ⟨3⟩, ⟨2⟩].map .concept) s₁ ∧
      (Phrase.declareIndividual "i" mixedTypes).eval.run twoConcepts = .ok .nothing
        ⟨twoConcepts.env.assign "i" (.individual ⟨5⟩),
          s₁.ontology.adding (.individual "i" [⟨3⟩, ⟨2⟩, ⟨4⟩])⟩ := by
  have parsed : parse ⟨Vocabulary.usual⟩ "!i:~A,B,A" =
      .ok (.program [.declareIndividual "i" mixedTypes]) := rfl
  have types : (evalAll mixedTypes).run twoConcepts = .ok ([⟨4⟩, ⟨3⟩, ⟨2⟩].map .concept)
      (Evaluation.after (evalAll mixedTypes) twoConcepts) :=
    Evaluation.run_eq_ok_after (by rw [twoConcepts_eq]; with_unfolding_all rfl)
  have size : (Evaluation.after (evalAll mixedTypes) twoConcepts).ontology.size = 4 := by
    rw [twoConcepts_eq]
    with_unfolding_all rfl
  have run : (Phrase.declareIndividual "i" mixedTypes).eval.run twoConcepts = .ok .nothing
      (Evaluation.after (Phrase.declareIndividual "i" mixedTypes).eval twoConcepts) :=
    Evaluation.run_eq_ok_after (by rw [twoConcepts_eq]; with_unfolding_all rfl)
  obtain ⟨_, evaluated, same⟩ := declaration_enacts (.run "!A::T;!B::T" trivial .initial)
    (.declareIndividual "i" mixedTypes)
  obtain ⟨_, s₁, name, x, o, enacts⟩ := evaluated rfl _ run
  have env := same _ _ _ parsed (List.mem_singleton.mpr rfl) _ _ _ _ _ enacts
  have left := enacts.left
  cases enacts.declares
  cases enacts.establishes with
  | individual again atoms rest =>
    cases types.symm.trans again
    have values : Function.Injective (List.map Value.concept) :=
      List.map_injective_iff.mpr fun _ _ => Value.concept.inj
    cases values (show [⟨3⟩, ⟨2⟩].map Value.concept = _ from atoms)
    cases values (show [⟨4⟩].map Value.concept = _ from rest)
    rw [size] at left env
    have bound := (congrArg State.env left).symm.trans env
    refine ⟨parsed, _, types, run.trans (congrArg _ (left.trans ?_))⟩
    exact congrArg (State.mk · _) bound

end Language

end ConceptLogic
