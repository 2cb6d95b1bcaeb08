import ConceptLogic.Proofs.Reasoning.QueryWeights
import ConceptLogic.Proofs.Session.DeclaredNames

namespace ConceptLogic

open Evaluation
open Phrase (evalAll)

universe u

namespace State

variable {spoken : Language → Prop} {top : String} {s s' : State}

/-- Whether a name was told to be the same as a concept, and the concept to be the same as it. -/
structure Equated (name : String) (d k : ConceptId) (s : State) : Prop where
  stratified : ∃ level, s.ontology.Stratified level
  named : s.ontology.expression? d = some (.named name)
  told : k ∈ s.ontology.equivalentTo d
  back : d ∈ s.ontology.equivalentTo k

theorem stratified_lasting : Lasting spoken top fun _ s => ∃ level, s.ontology.Stratified level :=
  fun _ _ _ _ _ _ sound advances => advances.stratified sound.kept

theorem equated_lasting (name : String) (d k : ConceptId) :
    Lasting spoken top fun _ => Equated name d k := by
  intro l names name? s s' _ sound advances equated
  have within := advances.within
  exact ⟨advances.stratified sound.kept equated.stratified, within.expression? equated.named,
    within.equivalentTo d equated.told, within.equivalentTo k equated.back⟩

theorem Reached.stratified (reached : Reached spoken top s) : ∃ level, s.ontology.Stratified level := by
  obtain ⟨names, recorded⟩ := reached.recorded
  exact recorded.keeps (P := fun _ s => ∃ level, s.ontology.Stratified level) stratified_lasting
    ⟨_, Ontology.initial_stratified top⟩

theorem Equated.answered {name : String} {d k : ConceptId} (equated : s.Equated name d k)
    (sound : s.Sound spoken top) : s.ontology.conceptNamed? name = some d ∧
      (Building.isEquivalentTo d k).run s.ontology = .ok true s.ontology := by
  obtain ⟨level, stratified⟩ := equated.stratified
  exact ⟨Ontology.conceptOf?_eq sound.kept.distinct equated.named,
    Ontology.equivalent_of_told stratified sound.kept.wellFormed equated.named equated.told equated.back⟩

end State

theorem run_evalConcept {p : Phrase} {s s' : State} {k : ConceptId}
    (run : (do require (← p.eval).asConcept : Evaluation ConceptId).run s = .ok k s') :
    p.eval.run s = .ok (.concept k) s' := by
  obtain ⟨x, s₁, evaluated, taken⟩ := run_eq_ok_of_bind.mp run
  cases x <;> cases taken
  exact evaluated

/-- What a definition that succeeds tells: that its name and what its right-hand side comes to are the
same. -/
theorem Phrase.Stated.defines {v : Vocabulary} {name : String} {p : Phrase} {s s' : State} {x : Value}
    {α : Type u} {W : Interpretation α → World α} (stated : (Phrase.define name p).Stated v)
    (interpreted : s.Interpreted W) (run : (Phrase.define name p).eval.run s = .ok x s') :
    ∃ d k s₁, p.eval.run s = .ok (.concept k) s₁ ∧ s'.ontology.expression? d = some (.named name) ∧
      k ∈ s'.ontology.equivalentTo d ∧ d ∈ s'.ontology.equivalentTo k := by
  cases stated with
  | concept proper => cases proper
  | define vetted body =>
    have settles : Settles (Phrase.define name p).eval s (fun _ s' => ∃ d k s₁,
        p.eval.run s = .ok (.concept k) s₁ ∧ s'.ontology.expression? d = some (.named name) ∧
          k ∈ s'.ontology.equivalentTo d ∧ d ∈ s'.ontology.equivalentTo k) (State.Extends s) := by
      refine (settles_define (moves_concept interpreted body)).bind ?_
      rintro _ s' ⟨d, k, s₁, evaluated, declares, told⟩
      refine ⟨d, k, s₁, run_evalConcept evaluated, Ontology.names_concept.mp ?_, told⟩
      cases declares with
      | bound _ _ founds => exact founds.names.mpr (.inr ⟨rfl, rfl⟩)
    exact settles.ok run

namespace Language

/-- A definition is an equivalence for good. Once a statement has defined a name as a concept, the two
are answered to be equivalent, at once and after every further program, be it carried out or not. -/
theorem definition_lasts {top : String} {s s₁ s₂ : State} (reached : State.Reached (fun _ => True) top s)
    {l : Language} {text name : String} {before rest : List Phrase} {p : Phrase}
    (parsed : l.parse text = .ok (.program (before ++ .define name p :: rest))) {vs : List Value}
    (done : (evalAll before).run s = .ok vs s₁) {v : Value}
    (defined : (Phrase.define name p).eval.run s₁ = .ok v s₂) :
    ∃ d k s', p.eval.run s₁ = .ok (.concept k) s' ∧
      ∀ s₃, s₃ = s₂ ∨ State.Later (fun _ => True) (after (l.run text) s) s₃ →
        s₃.ontology.conceptNamed? name = some d ∧
          (Building.isEquivalentTo d k).run s₃.ontology = .ok true s₃.ontology := by
  obtain ⟨_, ⟨⟩, stated⟩ := stated_of_parse parsed
  obtain ⟨earlier, statement, others⟩ : (∀ q ∈ before, q.Stated l.vocabulary) ∧
      (Phrase.define name p).Stated l.vocabulary ∧ ∀ q ∈ rest, q.Stated l.vocabulary :=
    (List.forall_mem_append.mp stated).imp_right List.forall_mem_cons.mp
  have sound₁ := (settles_evalAll trivial earlier reached.sound).ok done
  have interpreted := sound₁.interpreted (α := Unit)
  have advances := (statement.advances interpreted).ok defined
  have sound₂ := sound₁.advances trivial advances
  obtain ⟨d, k, s', evaluated, named, told, back⟩ := statement.defines interpreted defined
  have stratified := State.keeps_midst State.stratified_lasting trivial earlier reached.sound
    reached.stratified done
  have equated : s₂.Equated name d k :=
    ⟨advances.stratified sound₁.kept stratified, named, told, back⟩
  refine ⟨d, k, s', evaluated, fun s₃ here => ?_⟩
  rcases here with rfl | later
  · exact equated.answered sound₂
  · have program : after (l.run text) s = after (evalAll rest) s₂ := by
      rw [after_run parsed, after_append done, after_cons, defined]
    have reached' : State.Reached (fun _ => True) top (after (l.run text) s) := .run text trivial reached
    have left : (after (l.run text) s).Equated name d k := by
      rw [program]
      exact Phrase.evalAll_keeps (P := fun _ => State.Equated name d k) (State.equated_lasting name d k)
        trivial [] others sound₂ equated
    exact (later.keeps (State.equated_lasting name d k) reached' left).answered (later.reached reached').sound

/-- A concept and an individual, to be joined. -/
def unionParts : List Phrase :=
  [.declareConcept "A" [.concept "T"], .declareIndividual "b" [.concept "A"]]

def union : Phrase := .junction .or [.concept "A", .nominal ["b"]]

def unionMade : State :=
  ⟨((Environment.initial "T").assign "A" (.concept ⟨2⟩)).assign "b" (.individual ⟨3⟩),
    ⟨#[.concept (.named "T") [] [], .concept (.named "A") [⟨1⟩] [], .individual "b" [⟨2⟩]]⟩⟩

/-- What is left once the disjunction of the two has a name. -/
def unionDefined : State :=
  ⟨unionMade.env.assign "D" (.concept ⟨6⟩), ⟨unionMade.ontology.entries ++
    #[.concept (.nominal [⟨3⟩]) [] [], .concept (.disjunction [⟨2⟩, ⟨4⟩]) [] [⟨6⟩],
      .concept (.named "D") [⟨1⟩] [⟨5⟩]]⟩⟩

theorem union_lasts :
    parse ⟨Vocabulary.usual⟩ "!A::T;!b:A;!D:=A|{b}" = .ok (.program (unionParts ++ .define "D" union :: [])) ∧
      (evalAll unionParts).run (.initial "T") = .ok [.nothing, .nothing] unionMade ∧
        (Phrase.define "D" union).eval.run unionMade = .ok .nothing unionDefined ∧
          (Building.isEquivalentTo ⟨6⟩ ⟨5⟩).run unionDefined.ontology = .ok true unionDefined.ontology := by
  have parsed : parse ⟨Vocabulary.usual⟩ "!A::T;!b:A;!D:=A|{b}" =
      .ok (.program (unionParts ++ .define "D" union :: [])) := rfl
  have done : (evalAll unionParts).run (.initial "T") = .ok [.nothing, .nothing] unionMade := by with_unfolding_all rfl
  have defined : (Phrase.define "D" union).eval.run unionMade = .ok .nothing unionDefined := by with_unfolding_all rfl
  obtain ⟨d, k, s', evaluated, lasts⟩ := definition_lasts .initial parsed done defined
  obtain ⟨named, equivalent⟩ := lasts unionDefined (.inl rfl)
  have body : union.eval.run unionMade = .ok (.concept ⟨5⟩) ⟨unionMade.env, ⟨unionMade.ontology.entries ++
      #[.concept (.nominal [⟨3⟩]) [] [], .concept (.disjunction [⟨2⟩, ⟨4⟩]) [] []]⟩⟩ := by with_unfolding_all rfl
  cases body.symm.trans evaluated
  have there : unionDefined.ontology.conceptNamed? "D" = some ⟨6⟩ := by decide +kernel
  cases there.symm.trans named
  exact ⟨parsed, done, defined, equivalent⟩

end Language

end ConceptLogic
