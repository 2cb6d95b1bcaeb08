import ConceptLogic.Proofs.Evaluation.FaithfulEvaluation
import ConceptLogic.Proofs.Ontology.RebuiltConcepts
import ConceptLogic.Proofs.Session.DeclaredNames

namespace ConceptLogic

open Evaluation

/-- Whether work that succeeds would come to the same wherever all is found that it has left, and would
change nothing there. -/
def Abides {ε σ α : Type} (Found : σ → σ → Prop) (x : EStateM ε σ α) (s : σ) : Prop :=
  ∀ a s', x.run s = .ok a s' → ∀ t, Found s' t → Found s t ∧ x.run t = .ok a t

namespace Abides

variable {ε σ α β : Type} {Found : σ → σ → Prop} {x : EStateM ε σ α} {s : σ}

theorem pure (a : α) : Abides Found (Pure.pure a : EStateM ε σ α) s := by
  rintro _ _ ⟨⟩ t found
  exact ⟨found, rfl⟩

theorem throw (e : ε) : Abides Found (throw e : EStateM ε σ α) s := nofun

theorem bind {f : α → EStateM ε σ β} (first : Abides Found x s)
    (next : ∀ a s', x.run s = .ok a s' → Abides Found (f a) s') : Abides Found (x >>= f) s := by
  intro b s'' run t found
  obtain ⟨a, s', outcome, rest⟩ := run_eq_ok_of_bind.mp run
  obtain ⟨found', again'⟩ := next a s' outcome b s'' rest t found
  obtain ⟨found, again⟩ := first a s' outcome t found'
  exact ⟨found, run_eq_ok_of_bind.mpr ⟨a, t, again, again'⟩⟩

theorem mapM {f : α → EStateM ε σ β} {as : List α} (each : ∀ a ∈ as, ∀ s, Abides Found (f a) s) :
    Abides Found (as.mapM f) s := by
  induction as generalizing s with
  | nil => exact pure []
  | cons a as ih =>
    obtain ⟨first, others⟩ := List.forall_mem_cons.mp each
    rw [List.mapM_cons]
    exact (first s).bind fun b _ _ => (ih others).bind fun bs _ _ => pure (b :: bs)

theorem foldlM {f : β → α → EStateM ε σ β} {as : List α} {b : β} (each : ∀ b a s, Abides Found (f b a) s) :
    Abides Found (as.foldlM f b) s := by
  induction as generalizing s b with
  | nil => exact pure b
  | cons a as ih =>
    rw [List.foldlM_cons]
    exact (each b a s).bind fun _ _ _ => ih

end Abides

namespace Ontology

variable {o o' u : Ontology}

/-- Whether all of an ontology is found again in a kept one. -/
structure Precedes (o u : Ontology) : Prop where
  within : o.Within u
  kept : u.Kept

theorem within_keeping (o : Ontology) (e : Expression) : o.Within (o.keeping e) := by
  unfold keeping
  split
  · exact .refl o
  · exact within_adding o _

theorem joined_within {operands? : Expression → Option (List ConceptId)} {cs : List ConceptId}
    (within : o.Within u) (known : ∀ c ∈ cs, o.Knows (.concept c)) :
    u.joined operands? cs = o.joined operands? cs := by
  have parts : cs.map (u.partsUnder operands?) = cs.map (o.partsUnder operands?) := by
    refine List.map_congr_left fun c member => ?_
    rw [partsUnder, partsUnder, within.expression?_eq (known c member)]
  rw [joined, joined, parts]

namespace Precedes

/-- A concept that was made for an expression is found under it. -/
theorem recovers {e : Expression} (precedes : (o.keeping e).Precedes u) :
    u.keptAs e = o.keptAs e ∧ u.keeping e = u :=
  Ontology.found_again precedes.kept.distinct (precedes.within.expression? (o.keeping_expression? e))

end Precedes

end Ontology

namespace Building

variable {o o' : Ontology} {p : Prop} {c : ConceptId}

theorem Yields.abides {α : Type} {x : Building α} {a : α} (yields : x.Yields o p a o') (within : o.Within o')
    (again : p → ∀ u, o.Precedes u → o'.Precedes u → x.run u = .ok a u) :
    Abides Ontology.Precedes x o := by
  intro b o'' run u found
  obtain ⟨holds, rfl, rfl⟩ := yields.of_ok run
  have before : o.Precedes u := ⟨within.trans found.within, found.kept⟩
  exact ⟨before, again holds u before found⟩

theorem negation_abides (c : ConceptId) : Abides Ontology.Precedes (negation c) o := by
  refine (negation_yields c).abides ?_ fun known u before found => ?_
  · split
    · exact .refl o
    · exact o.within_keeping _
  · have again := (negation_yields (o := u) c).1 (before.within.knows known)
    rw [before.within.expression?_eq known] at again
    rw [again]
    split
    · rfl
    · rename_i plain
      split at found
      · exact absurd ‹_› (plain _)
      · obtain ⟨same, unchanged⟩ := found.recovers
        rw [same, unchanged]

theorem connect_abides (operands? : Expression → Option (List ConceptId))
    (make : List ConceptId → Expression) (cs : List ConceptId) :
    Abides Ontology.Precedes (connect operands? make cs) o := by
  refine (connect_yields operands? make cs).abides ?_ fun ⟨known, filled⟩ u before found => ?_
  · split
    · exact .refl o
    · exact o.within_keeping _
  · have same : u.joined operands? cs = o.joined operands? cs :=
      Ontology.joined_within before.within known
    have again := (connect_yields (o := u) operands? make cs).1
      ⟨fun c member => before.within.knows (known c member), same ▸ filled⟩
    rw [same] at again
    rw [again]
    split
    · rfl
    · rename_i several
      split at found
      · exact absurd ‹_› (several _)
      · obtain ⟨same, unchanged⟩ := found.recovers
        rw [same, unchanged]

theorem nominal_abides (is : List IndividualId) : Abides Ontology.Precedes (nominal is) o := by
  refine (nominal_yields is).abides (o.within_keeping _) fun known u before found => ?_
  obtain ⟨same, unchanged⟩ := found.recovers
  rw [(nominal_yields is).1 fun i member => before.within.knows (known i member), same, unchanged]

theorem restriction_abides (q : Quantifier) (r : RelationId) (c : ConceptId) :
    Abides Ontology.Precedes (restriction q r c) o := by
  refine (restriction_yields q r c).abides (o.within_keeping _) fun known u before found => ?_
  obtain ⟨same, unchanged⟩ := found.recovers
  rw [(restriction_yields q r c).1 ⟨before.within.knows known.1, before.within.knows known.2⟩, same,
    unchanged]

theorem either_abides (c d : ConceptId) : Abides Ontology.Precedes (Operator.either c d) o :=
  (negation_abides d).bind fun notD _ _ => (negation_abides c).bind fun notC _ _ =>
    (connect_abides _ _ [c, notD]).bind fun left _ _ => (connect_abides _ _ [notC, d]).bind fun right _ _ =>
      connect_abides _ _ [left, right]

end Building

namespace State

variable {s s' t : State}

/-- Whether all of a state is found again in another one: its things, and what its names lead to, but
for what was bound last. -/
structure Precedes (s t : State) : Prop where
  ontology : s.ontology.Precedes t.ontology
  found : ∀ {name v}, name ≠ anaphoraName → s.env.find? name = some v → t.env.find? name = some v

end State

namespace Abides

variable {α β : Type} {s : State}

theorem building {b : Building α} (abides : Abides Ontology.Precedes b s.ontology) :
    Abides State.Precedes (Evaluation.building b) s := by
  intro a s' run t found
  obtain ⟨o, outcome, rfl⟩ := run_building_eq_ok.mp run
  obtain ⟨before, again⟩ := abides a o outcome t.ontology found.ontology
  exact ⟨⟨before, found.found⟩, run_building_eq_ok.mpr ⟨t.ontology, again, rfl⟩⟩

theorem require_bind {x : Except Error α} {f : α → Evaluation β} (next : ∀ a, Abides State.Precedes (f a) s) :
    Abides State.Precedes (require x >>= f) s := by
  cases x with
  | ok a => exact next a
  | error e => exact throw e

theorem lookup_bind {name : String} {f : Value → Evaluation β} (differs : name ≠ anaphoraName)
    (next : ∀ v, Abides State.Precedes (f v) s) : Abides State.Precedes (Evaluation.lookup name >>= f) s := by
  have run : ∀ s : State, (Evaluation.lookup name >>= f).run s =
      (require (s.env.lookup name) >>= f).run s := fun _ => rfl
  intro a s' done t found
  rw [run] at done ⊢
  unfold Environment.lookup at done
  cases here : s.env.find? name with
  | none =>
    rw [here] at done
    cases done
  | some v =>
    rw [here] at done
    obtain ⟨before, again⟩ := next v a s' done t found
    rw [Environment.lookup, before.found differs here]
    exact ⟨before, again⟩

theorem lookup {name : String} (differs : name ≠ anaphoraName) :
    Abides State.Precedes (Evaluation.lookup name) s := by
  rw [← bind_pure (Evaluation.lookup name)]
  exact lookup_bind differs fun v => pure v

/-- An operator's token leads to the operator. -/
theorem resolve_bind {op : Operator} {f : Operator → Evaluation β} (ready : s.Ready)
    (next : Abides State.Precedes (f op) s) : Abides State.Precedes (resolve op.token >>= f) s := by
  have differs : op.token ≠ anaphoraName := by cases op <;> decide
  have run : ∀ s : State, (resolve op.token >>= f).run s =
      (require (s.env.resolve op.token) >>= f).run s := fun _ => rfl
  intro a s' done t found
  rw [run] at done ⊢
  unfold Environment.resolve at done
  cases here : s.env.find? op.token with
  | none =>
    rw [here] at done
    cases done
  | some v =>
    rw [here] at done
    cases v with
    | operator op' =>
      cases ready.operator here
      obtain ⟨before, again⟩ := next a s' done t found
      rw [Environment.resolve, before.found differs here]
      exact ⟨before, again⟩
    | _ => cases done

end Abides

section Phrases

universe u

variable {α : Type u} {W : Interpretation α → World α} {v : Vocabulary} {s : State} {p : Phrase}

/-- What a connective has made of its operands it makes no second time. -/
theorem Connective.abides (kind : Connective) (vs : List Value) :
    Abides State.Precedes (kind.operator.apply vs) s := by
  have made : ∀ {b : Building ConceptId}, Abides Ontology.Precedes b s.ontology →
      Abides State.Precedes (do return .concept (← building b) : Evaluation Value) s :=
    fun abides => abides.building.bind fun c _ _ => .pure (Value.concept c)
  cases kind with
  | and => exact .require_bind fun cs => made (Building.connect_abides _ _ cs)
  | or => exact .require_bind fun cs => made (Building.connect_abides _ _ cs)
  | xor =>
    refine .require_bind fun cs => ?_
    cases cs with
    | nil => exact .throw _
    | cons c cs => exact made (.foldlM fun d e _ => Building.either_abides d e)

theorem negating_abides (x : Value) : Abides State.Precedes (Operator.negation.apply [x]) s :=
  .require_bind fun c => (Building.negation_abides c).building.bind fun d _ _ => .pure (Value.concept d)

theorem restricting_abides (q : Quantifier) (r : RelationId) (x : Value) :
    Abides State.Precedes (do
      let c ← require x.asConcept
      return .concept (← building (Building.restriction q r c)) : Evaluation Value) s :=
  .require_bind fun c =>
    (Building.restriction_abides q r c).building.bind fun d _ _ => .pure (Value.concept d)

theorem individualNamed_abides {name : String} (differs : name ≠ anaphoraName) :
    Abides State.Precedes (individualNamed name) s := by
  refine .lookup_bind differs fun x => ?_
  rw [← bind_pure (require x.asIndividual)]
  exact .require_bind fun i => .pure i

theorem evalAll_abides {ps : List Phrase} (proper : ∀ p ∈ ps, p.Proper v)
    (each : ∀ p ∈ ps, ∀ s : State, s.Interpreted W → Abides State.Precedes p.eval s)
    (interpreted : s.Interpreted W) : Abides State.Precedes (Phrase.evalAll ps) s := by
  induction ps generalizing s with
  | nil => exact .pure []
  | cons p ps ih =>
    obtain ⟨first, others⟩ := List.forall_mem_cons.mp proper
    obtain ⟨here, there⟩ := List.forall_mem_cons.mp each
    rw [Phrase.evalAll]
    refine (here s interpreted).bind fun x s' run => ?_
    have adds : s.Extends s' := (Settles.ok (first.moves interpreted) run).1
    exact (ih others there (interpreted.lasts adds)).bind fun xs _ _ => .pure (x :: xs)

/-- A plain phrase that was evaluated once has the same value wherever all is found that was left then. -/
theorem Phrase.Proper.abides (proper : p.Proper v) (plain : p.Plain) (interpreted : s.Interpreted W) :
    Abides State.Precedes p.eval s := by
  induction proper generalizing s with
  | concept vetted => exact .lookup (differs_of_vetted vetted)
  | nominal inhabited vetted =>
    refine (Abides.mapM fun m member _ => individualNamed_abides (differs_of_vetted (vetted m member))).bind
      fun is _ _ => ?_
    exact (Building.nominal_abides is).building.bind fun c _ _ => .pure (Value.concept c)
  | var => cases plain
  | anaphora => cases plain
  | negation operand ih =>
    cases plain with
    | negation plain =>
      refine .resolve_bind interpreted.ready ((ih plain interpreted).bind fun x s' _ => ?_)
      cases x with
      | deferred => exact .pure _
      | _ => exact negating_abides _
  | @restriction q r p fits vetted operand ih =>
    cases plain with
    | restriction plain =>
      refine .lookup_bind (differs_of_vetted vetted) fun y => .require_bind fun relation => ?_
      refine (ih plain interpreted).bind fun x s'' _ => ?_
      cases x with
      | deferred => exact .pure _
      | _ => exact restricting_abides q relation _
  | @junction kind ps several apart proper ih =>
    cases plain with
    | junction plain =>
      have operands := fun p member s => ih p member (s := s) (plain p member)
      rw [Phrase.eval, ← kind.operator_token]
      refine .resolve_bind interpreted.ready ?_
      refine (evalAll_abides proper operands interpreted).bind fun xs s' _ => ?_
      split
      · exact .pure _
      · exact kind.abides xs

end Phrases

namespace State

variable {spoken : Language → Prop} {top : String} {s s' t : State}

theorem Later.sound (later : Later spoken s s') (sound : s.Sound spoken top) : s'.Sound spoken top := by
  induction later with
  | same => exact sound
  | run text speaks _ ih =>
    have trivially : Lasting spoken top fun _ s => s.Sound spoken top :=
      fun _ _ _ _ _ speaks _ advances sound => sound.advances speaks advances
    exact Language.run_keeps (P := fun _ s => s.Sound spoken top) trivially speaks [] text ih ih

/-- What a statement leaves has all that it has found. -/
theorem Advances.precedes {l : Language} {name? : Option String} (speaks : spoken l)
    (sound : s.Sound spoken top) (advances : s.Advances l.vocabulary name? s') : s.Precedes s' where
  ontology := ⟨advances.within, (sound.advances speaks advances).kept⟩
  found {other v} differs found := by
    cases advances with
    | quiet adds => exact adds.env ▸ found
    | @declared name x _ admitted declares =>
      have unnamed := declares.unnamed (y := v)
      cases declares with
      | bound adds free founds =>
        have apart : other ≠ name := by
          rintro rfl
          have unbuilt : s.env.dictionary.lookup other = none := by
            simpa [Scope.isBuiltIn] using free
          rw [Scope.find?, unbuilt, Option.or_none] at found
          exact unnamed (sound.bound differs found).1
        rw [Scope.find?, Scope.assign, Table.lookup_assign, if_neg differs, Table.lookup_assign, if_neg apart]
        exact found

theorem Precedes.trans (first : s.Precedes s') (second : s'.Precedes t) : s.Precedes t where
  ontology := ⟨first.ontology.within.trans second.ontology.within, second.ontology.kept⟩
  found differs found := second.found differs (first.found differs found)

/-- All that there is in a state is found again after all programs. -/
theorem Later.precedes (later : Later spoken s s') (sound : s.Sound spoken top) : s.Precedes s' := by
  induction later with
  | same => exact ⟨⟨.refl s.ontology, sound.kept⟩, fun _ => id⟩
  | run text speaks before ih =>
    have lasting : Lasting spoken top fun _ t => s.Precedes t :=
      fun _ _ _ _ _ speaks sound advances precedes => precedes.trans (advances.precedes speaks sound)
    exact Language.run_keeps (P := fun _ t => s.Precedes t) lasting speaks [] text (before.sound sound) ih

end State

namespace Language

/-- Evaluation is stable: whatever programs are run after it, be it with success or not, a plain phrase
that has been evaluated comes to the same concept, and evaluating it again changes nothing. -/
theorem eval_stable {top : String} {s s₁ s' : State} (reached : State.Reached (fun _ => True) top s)
    {l : Language} {text : String} {ps : List Phrase} (parsed : l.parse text = .ok (.program ps))
    {e : Phrase} (member : e ∈ ps) (plain : e.Plain) {k : ConceptId}
    (run : e.eval.run s = .ok (.concept k) s₁) (later : State.Later (fun _ => True) s₁ s') :
    e.eval.run s' = .ok (.concept k) s' := by
  obtain ⟨_, ⟨⟩, stated⟩ := stated_of_parse parsed
  have proper := (stated e member).proper_of_plain plain
  have interpreted := reached.sound.interpreted (α := Unit)
  have adds : s.Extends s₁ := (Settles.ok (proper.moves interpreted) run).1
  have precedes := later.precedes (reached.sound.lasts adds)
  exact (proper.abides plain interpreted (.concept k) s₁ run s' precedes).2

/-- What is in one of a concept and all but one individual, and not in both. -/
def notAlone : Phrase :=
  .junction .xor [.concept "A", .negation (.nominal ["a"])]

/-- Where the concept and the individual have been declared. -/
def notAloneFrom : State :=
  Evaluation.after (run ⟨Vocabulary.usual⟩ "!A::T;!a:A") (.initial "T")

theorem notAloneFrom_eq : notAloneFrom =
    ⟨((Environment.initial "T").assign "A" (.concept ⟨2⟩)).assign "a" (.individual ⟨3⟩),
      ⟨#[.concept (.named "T") [] [], .concept (.named "A") [⟨1⟩] [], .individual "a" [⟨2⟩]]⟩⟩ := by
  have parsed : parse ⟨Vocabulary.usual⟩ "!A::T;!a:A" =
      .ok (.program [.declareConcept "A" [.concept "T"], .declareIndividual "a" [.concept "A"]]) := rfl
  exact (after_run parsed _).trans (by with_unfolding_all rfl)

/-- Where, after the phrase, a program has been run that declares a name, makes a concept for a second
declaration of it, and fails. -/
def notAloneLater : State :=
  Evaluation.after (run ⟨Vocabulary.usual⟩ "!B::A;!B::T|~B") (Evaluation.after notAlone.eval notAloneFrom)

theorem notAlone_stable :
    parse ⟨Vocabulary.usual⟩ "A^~{a}" = .ok (.program [notAlone]) ∧ notAlone.Plain ∧
      notAlone.eval.run notAloneFrom = .ok (.concept ⟨9⟩) (Evaluation.after notAlone.eval notAloneFrom) ∧
        notAloneLater.ontology.size = 12 ∧
          notAlone.eval.run notAloneLater = .ok (.concept ⟨9⟩) notAloneLater := by
  have parsed : parse ⟨Vocabulary.usual⟩ "A^~{a}" = .ok (.program [notAlone]) := rfl
  have plain : notAlone.Plain := by
    refine .junction fun p member => ?_
    simp only [List.mem_cons, List.not_mem_nil, or_false] at member
    rcases member with rfl | rfl
    · exact .concept "A"
    · exact .negation (.nominal ["a"])
  have evaluated : notAlone.eval.run notAloneFrom =
      .ok (.concept ⟨9⟩) (Evaluation.after notAlone.eval notAloneFrom) :=
    Evaluation.run_eq_ok_after (by rw [notAloneFrom_eq]; with_unfolding_all rfl)
  have parsedLater : parse ⟨Vocabulary.usual⟩ "!B::A;!B::T|~B" = .ok (.program [.declareConcept "B" [.concept "A"],
      .declareConcept "B" [.junction .or [.concept "T", .negation (.concept "B")]]]) := rfl
  have grown : notAloneLater.ontology.size = 12 := by
    rw [notAloneLater, after_run parsedLater, notAloneFrom_eq]
    with_unfolding_all rfl
  have reached : State.Reached (fun _ => True) "T" notAloneFrom := .run _ trivial .initial
  exact ⟨parsed, plain, evaluated, grown, eval_stable reached parsed (List.mem_singleton.mpr rfl) plain
    evaluated (.run _ trivial .same)⟩

end Language

end ConceptLogic
