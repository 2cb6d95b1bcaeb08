import ConceptLogic.Proofs.Ontology.RebuiltConcepts

namespace ConceptLogic

open Evaluation Grammar

section Runs

variable {s : State}

theorem run_lookup {name : String} {v : Value} (found : s.env.find? name = some v) :
    (Evaluation.lookup name).run s = .ok v s := by
  change (Evaluation.require (s.env.lookup name)).run s = _
  rw [Environment.lookup, found]
  rfl

theorem run_resolve {token : String} {op : Operator} (found : s.env.find? token = some (.operator op)) :
    (Evaluation.resolve token).run s = .ok op s := by
  change (Evaluation.require (s.env.resolve token)).run s = _
  rw [Environment.resolve, found]
  rfl

/-- To build what is there already is to find it. -/
theorem run_building_again {b : Building ConceptId} {c : ConceptId} (run : b.run s.ontology = .ok c s.ontology) :
    (do return .concept (← building b) : Evaluation Value).run s = .ok (.concept c) s := by
  rw [EStateM.run_bind, run_building, run]
  rfl

theorem run_evalAll {ps : List Phrase} {cs : List ConceptId}
    (each : List.Forall₂ (fun p c => p.eval.run s = .ok (.concept c) s) ps cs) :
    (Phrase.evalAll ps).run s = .ok (cs.map .concept) s := by
  induction each with
  | nil => rfl
  | cons first _ ih =>
    rw [Phrase.run_evalAll_cons, first]
    dsimp only
    rw [ih]
    rfl

theorem pending?_concepts (cs : List ConceptId) : Value.pending? (cs.map .concept) = none := by
  induction cs with
  | nil => rfl
  | cons c cs ih => exact ih

theorem mapM_asConcept (cs : List ConceptId) : (cs.map Value.concept).mapM Value.asConcept = .ok cs := by
  rw [mapM_eq_ok_iff, List.forall₂_map_left_iff, List.forall₂_same]
  exact fun _ _ => rfl

end Runs

/-- A text that is read as a phrase, whose value is a concept that is known already. The phrase is a
chain of a connective only if the concept is. -/
structure Renders (l : Language) (s : State) (c : ConceptId) (p : Phrase) (text : List Char) : Prop where
  legible : Legible l.vocabulary 2 p text
  evaluates : p.eval.run s = .ok (.concept c) s
  chained : ∀ {kind ps}, p = .junction kind ps →
    kind = .and ∧ (∃ cs, s.ontology.expression? c = some (.conjunction cs)) ∨
      kind = .or ∧ ∃ cs, s.ontology.expression? c = some (.disjunction cs)

theorem Phrase.spliced_of_other {kind : Connective} {p : Phrase} (other : ∀ ps, p ≠ .junction kind ps) :
    p.spliced kind = [p] := by
  cases p with
  | junction kind' ps => exact if_neg fun same => other ps (by rw [same])
  | _ => rfl

section Rendering

variable {l : Language} {s : State} (articulate : s.Articulate l) {c : ConceptId}
include articulate

theorem renders_named {name : String} (made : s.ontology.expression? c = some (.named name)) :
    Renders l s c (.concept name) name.toList where
  legible := Legible.concept (articulate.admitted (Ontology.names_concept.mpr made))
  evaluates := run_lookup (articulate.found (Ontology.names_concept.mpr made))
  chained same := by cases same

theorem renders_negation {x : ConceptId} {p : Phrase} {text : List Char}
    (made : s.ontology.expression? c = some (.negation x)) (renders : Renders l s x p text) :
    Renders l s c (.negation p) ('~' :: text) where
  legible := renders.legible.negation
  chained same := by cases same
  evaluates := by
    have applied : (Operator.negation.apply [.concept x]).run s = .ok (.concept c) s :=
      run_building_again (Ontology.negation_again articulate.kept.distinct articulate.kept.wellFormed made)
    rw [Phrase.eval, EStateM.run_bind, run_resolve (articulate.operator .negation)]
    dsimp only
    rw [EStateM.run_bind, renders.evaluates]
    exact applied

theorem renders_restriction {q : Quantifier} {r : RelationId} {x : ConceptId} {p : Phrase}
    {text : List Char} (made : s.ontology.expression? c = some (.restriction q r x))
    (renders : Renders l s x p text) :
    ∃ p, Renders l s c p ('(' :: (q.text.toList ++ (' ' :: (s.ontology.relationText r).toList ++
      ([' ', '.'] ++ ' ' :: text)) ++ [')'])) := by
  obtain ⟨name, named⟩ := articulate.kept.wellFormed.relation_known made
  have names : s.ontology.Names name (.relation r) := Ontology.names_relation.mpr named
  have vetted := (Vocabulary.vet_relation _ _).mpr (articulate.admitted names)
  have fits : q.Fits := articulate.kept.writable made
  have text_eq : s.ontology.relationText r = name := by rw [Ontology.relationText, named, Option.getD_some]
  have related : (Phrase.relation name).eval.run s = .ok (.relation r) s :=
    run_lookup (articulate.found names)
  have restricted : (do
      let d ← require (Value.concept x).asConcept
      return .concept (← building (Building.restriction q r d)) : Evaluation Value).run s =
        .ok (.concept c) s := run_building_again (articulate.kept.restriction_again made)
  refine ⟨.restriction q (.relation name) p, ?_, ?_, fun same => by cases same⟩
  · rw [text_eq]
    exact ((renders.legible.restriction fits vetted).looser (by decide)).enclosed
  · rw [Phrase.eval, EStateM.run_bind, related]
    dsimp only
    change (p.eval >>= _).run s = _
    rw [EStateM.run_bind, renders.evaluates]
    exact restricted

theorem renders_nominal {is : List IndividualId} (made : s.ontology.expression? c = some (.nominal is)) :
    ∃ p, Renders l s c p
      ("\x7b" ++ separated ", " (is.map s.ontology.individualText) ++ "\x7d").toList := by
  have each : ∀ i ∈ is, s.ontology.Names (s.ontology.individualText i) (.individual i) := by
    intro i member
    obtain ⟨name, named⟩ := articulate.kept.wellFormed.nominated_known made member
    rw [Ontology.individualText, named, Option.getD_some]
    exact Ontology.names_individual.mpr named
  have looked : ((is.map s.ontology.individualText).mapM individualNamed).run s = .ok is s := by
    clear made
    induction is with
    | nil => rfl
    | cons i is ih =>
      obtain ⟨first, others⟩ := List.forall_mem_cons.mp each
      have here : (individualNamed (s.ontology.individualText i)).run s = .ok i s := by
        rw [individualNamed, EStateM.run_bind, run_lookup (articulate.found first)]
        rfl
      rw [List.map_cons, List.mapM_cons, EStateM.run_bind, here]
      dsimp only
      rw [EStateM.run_bind, ih others]
      rfl
  have inhabited : is ≠ [] := articulate.kept.writable made
  refine ⟨.nominal (is.map s.ontology.individualText), ?_, ?_, fun same => by cases same⟩
  · have vetted : ∀ m ∈ is.map s.ontology.individualText, l.vocabulary.vet .individual m = .ok m := by
      intro m member
      obtain ⟨i, here, rfl⟩ := List.mem_map.mp member
      exact articulate.admitted (each i here)
    obtain ⟨i, is, rfl⟩ := List.exists_cons_of_ne_nil inhabited
    exact Legible.nominal vetted
  · rw [Phrase.eval, EStateM.run_bind, looked]
    exact run_building_again (articulate.kept.nominal_again made)

/-- Concepts joined by a connective, none of which it joins itself. -/
theorem renders_joined {kind : Connective} {cs : List ConceptId} {text : ConceptId → String}
    (several : 2 ≤ cs.length) (operands : ∀ x ∈ cs, ∃ p, Renders l s x p (text x).toList ∧ p.spliced kind = [p])
    (applied : (kind.operator.apply (cs.map .concept)).run s = .ok (.concept c) s)
    (own : kind = .and ∧ (∃ cs, s.ontology.expression? c = some (.conjunction cs)) ∨
      kind = .or ∧ ∃ cs, s.ontology.expression? c = some (.disjunction cs)) :
    ∃ p, Renders l s c p ("(" ++ separated kind.separator (cs.map text) ++ ")").toList := by
  obtain ⟨ps, each⟩ := exists_forall₂_of_forall operands
  have apart : ∀ p ∈ ps, p.spliced kind = [p] := by
    intro p member
    obtain ⟨x, _, _, itself⟩ := exists_of_forall₂ each member
    exact itself
  have length : ps.length = cs.length := each.length_eq.symm
  have evaluated := run_evalAll (each.flip.imp fun _ _ both => both.1.evaluates)
  have resolved : (Evaluation.resolve kind.token).run s = .ok kind.operator s :=
    run_resolve (kind.operator_token ▸ articulate.operator kind.operator)
  refine ⟨.junction kind ps, ?_, ?_, ?_⟩
  · have joined : Phrase.join kind ps = .junction kind ps :=
      Phrase.join_of_apart (length ▸ several) apart
    have separator : kind.separator.toList = [' ', kind.sign, ' '] := by cases kind <;> rfl
    have tight : 2 ≤ kind.admits := by cases kind <;> decide
    have loose : kind.admits + 1 ≤ 5 := by cases kind <;> decide
    have legible : List.Forall₂ (fun x p => Legible l.vocabulary kind.admits p (text x).toList) cs ps :=
      each.imp fun _ _ both => both.1.legible.looser tight
    rw [← joined]
    match cs, ps, several, legible with
    | x :: y :: cs, p :: q :: ps, _, .cons first (.cons second others) =>
      have written : ("(" ++ separated kind.separator ((x :: y :: cs).map text) ++ ")").toList =
          '(' :: ((text x).toList ++ (((text y).toList :: cs.map fun x => (text x).toList).map
            fun s => [' ', kind.sign] ++ ' ' :: s).flatten ++ [')']) := by
        rw [List.map_cons, String.toList_append, String.toList_append, separated_toList, separator]
        simp [Function.comp_def]
      have others' : List.Forall₂ (fun s p => Legible l.vocabulary kind.admits p s)
          (cs.map fun x => (text x).toList) ps := List.forall₂_map_left_iff.mpr others
      rw [written]
      exact ((first.junction second others').looser loose).enclosed
  · rw [Phrase.eval, EStateM.run_bind, resolved]
    dsimp only
    rw [EStateM.run_bind, evaluated]
    dsimp only
    rw [pending?_concepts]
    exact applied
  · rintro _ _ ⟨⟩
    exact own

theorem renders_conjunction {cs : List ConceptId} {text : ConceptId → String}
    (made : s.ontology.expression? c = some (.conjunction cs))
    (operands : ∀ x ∈ cs, ∃ p, Renders l s x p (text x).toList) :
    ∃ p, Renders l s c p ("(" ++ separated " & " (cs.map text) ++ ")").toList := by
  obtain ⟨several, _, apart⟩ := articulate.kept.wellFormed.normal made
  have applied : (Operator.conjunction.apply (cs.map .concept)).run s = .ok (.concept c) s := by
    rw [Operator.apply, mapM_asConcept]
    exact run_building_again (articulate.kept.conjunction_again made)
  have separator : " & " = Connective.and.separator := by decide
  rw [separator]
  refine renders_joined articulate several (fun x member => ?_) applied (.inl ⟨rfl, cs, made⟩)
  obtain ⟨p, renders⟩ := operands x member
  refine ⟨p, renders, Phrase.spliced_of_other fun ps same => ?_⟩
  rcases renders.chained same with ⟨_, xs, own⟩ | ⟨other, _⟩
  · exact apart x member xs own
  · cases other

theorem renders_disjunction {cs : List ConceptId} {text : ConceptId → String}
    (made : s.ontology.expression? c = some (.disjunction cs))
    (operands : ∀ x ∈ cs, ∃ p, Renders l s x p (text x).toList) :
    ∃ p, Renders l s c p ("(" ++ separated " | " (cs.map text) ++ ")").toList := by
  obtain ⟨several, _, apart⟩ := articulate.kept.wellFormed.normal made
  have applied : (Operator.disjunction.apply (cs.map .concept)).run s = .ok (.concept c) s := by
    rw [Operator.apply, mapM_asConcept]
    exact run_building_again (articulate.kept.disjunction_again made)
  have separator : " | " = Connective.or.separator := by decide
  rw [separator]
  refine renders_joined articulate several (fun x member => ?_) applied (.inr ⟨rfl, cs, made⟩)
  obtain ⟨p, renders⟩ := operands x member
  refine ⟨p, renders, Phrase.spliced_of_other fun ps same => ?_⟩
  rcases renders.chained same with ⟨other, _⟩ | ⟨_, xs, own⟩
  · cases other
  · exact apart x member xs own

/-- The text of a concept leads back to it. -/
theorem renders {fuel : Nat} (known : s.ontology.Knows (.concept c)) (deep : c.id ≤ fuel) :
    ∃ p, Renders l s c p (s.ontology.conceptTextWithin fuel c).toList := by
  -- The parts of a concept are older than it is, so its number bounds the depth of its text.
  induction fuel generalizing c with
  | zero =>
    have positive : 1 ≤ c.id := known.bounds.1
    omega
  | succ fuel ih =>
    obtain ⟨e, made⟩ := known
    have operand : ∀ {x : ConceptId}, .concept x ∈ e.parts →
        ∃ p, Renders l s x p (s.ontology.conceptTextWithin fuel x).toList := by
      intro x part
      have older : x.id < c.id := articulate.kept.wellFormed.older made _ part
      exact ih (articulate.kept.wellFormed.parts_known made _ part) (by omega)
    rw [Ontology.conceptTextWithin, made]
    cases e with
    | named name => exact ⟨_, renders_named articulate made⟩
    | conjunction cs =>
      exact renders_conjunction articulate made fun x member => operand (List.mem_map_of_mem member)
    | disjunction cs =>
      exact renders_disjunction articulate made fun x member => operand (List.mem_map_of_mem member)
    | negation x =>
      obtain ⟨p, renders⟩ := operand (List.mem_singleton.mpr rfl)
      rw [String.toList_append]
      exact ⟨_, renders_negation articulate made renders⟩
    | nominal is => exact renders_nominal articulate made
    | restriction q r x =>
      obtain ⟨p, renders⟩ := operand (List.mem_cons_of_mem _ (List.mem_singleton.mpr rfl))
      have written : ("(" ++ q.text ++ " " ++ s.ontology.relationText r ++ " . " ++
          s.ontology.conceptTextWithin fuel x ++ ")").toList =
          '(' :: (q.text.toList ++ (' ' :: (s.ontology.relationText r).toList ++
            ([' ', '.'] ++ ' ' :: (s.ontology.conceptTextWithin fuel x).toList)) ++ [')']) := by
        simp
      rw [written]
      exact renders_restriction articulate made renders

end Rendering

namespace Language

/-- A concept that is known, written and run as a program, is what comes back, and nothing else
happens. -/
theorem run_described {l : Language} {top : String} {s : State} (reached : State.Reached (· = l) top s)
    (vetted : l.vocabulary.vet .concept top = .ok top) {k : ConceptId}
    (known : s.ontology.Knows (.concept k)) :
    (l.run (s.ontology.text (.concept k))).run s = .ok (.concept k) s := by
  obtain ⟨p, renders⟩ := renders (reached.sound.articulate vetted) known (Nat.le_refl k.id)
  have parsed : l.parse (s.ontology.conceptText k) = .ok (.program [p]) := by
    have one := parse_texts (l := l) (renders.legible.looser (by decide)).states .nil
    rwa [List.map_nil, List.flatten_nil, List.append_nil, String.ofList_toList] at one
  rw [Ontology.text, run_of_ok parsed, run_program, run_evalAll (.cons renders.evaluates .nil)]
  rfl

/-- What is known after a program that declares `a` and writes that something is no `a` or is a `T`. -/
def withoutA : State :=
  ⟨(Environment.initial "T").assign "a" (.individual ⟨2⟩), ⟨#[.concept (.named "T") [] [],
    .individual "a" [⟨1⟩], .concept (.nominal [⟨2⟩]) [] [], .concept (.negation ⟨3⟩) [] [],
    .concept (.disjunction [⟨1⟩, ⟨4⟩]) [] []]⟩⟩

theorem withoutA_reached : State.Reached (· = ⟨Vocabulary.usual⟩) "T" withoutA := by
  have left : after (run ⟨Vocabulary.usual⟩ "!a:T;~{a}|T") (.initial "T") = withoutA := by with_unfolding_all rfl
  rw [← left]
  exact .run _ rfl .initial

/-- The operands are written in the order of their numbers. -/
theorem withoutA_described : withoutA.ontology.text (.concept ⟨5⟩) = "(T | ~{a})" ∧
    Vocabulary.usual.vet .concept "T" = .ok "T" ∧ withoutA.ontology.Knows (.concept ⟨5⟩) ∧
      (run ⟨Vocabulary.usual⟩ (withoutA.ontology.text (.concept ⟨5⟩))).run withoutA =
        .ok (.concept ⟨5⟩) withoutA := by
  have vetted : Vocabulary.usual.vet .concept "T" = .ok "T" := rfl
  have known : withoutA.ontology.Knows (.concept ⟨5⟩) := ⟨_, rfl⟩
  exact ⟨rfl, vetted, known, run_described withoutA_reached vetted known⟩

end Language

end ConceptLogic
