import ConceptLogic.Proofs.Evaluation.RenderedConcepts
import ConceptLogic.Proofs.Evaluation.StableEvaluation

namespace ConceptLogic

open Evaluation
open Phrase (evalAll Proper Stated)

/-- What is made of each two neighbours in a chain and of what links them. -/
def linked {α β : Type} (link : α → String → α → β) : List α → List String → List β
  | a :: b :: rest, token :: tokens => link a token b :: linked link (b :: rest) tokens
  | _, _ => []

/-- The comparison of two phrases, as a statement of its own. -/
def Phrase.pair (p : Phrase) (token : String) (q : Phrase) : Phrase :=
  .comparison [p, q] [token]

/-- Whether an ontology answers yes to what a comparator says of two concepts. -/
def Ontology.holds (o : Ontology) (c : ConceptId) (token : String) (d : ConceptId) : Bool :=
  match token with
  | "<=" => o.answer (.subsumed c d)
  | ">=" | "=>" => o.answer (.subsumed d c)
  | "==" => o.answer (.subsumed c d) && o.answer (.subsumed d c)
  | "<" => o.answer (.subsumed c d) && !o.answer (.subsumed d c)
  | ">" => o.answer (.subsumed d c) && !o.answer (.subsumed c d)
  | _ => false

/-- Whether a statement evaluates to true. -/
def State.verdict (s : State) (q : Phrase) : Bool :=
  match q.eval.run s with
  | .ok (.boolean b) _ => b
  | _ => false

section Linked

variable {α β γ δ : Type} {link : α → String → α → β} {link' : γ → String → γ → δ} {tokens : List String}

theorem linked_nil (as : List α) : linked link as [] = [] := by
  match as with
  | [] | [_] | _ :: _ :: _ => rfl

/-- A chain has as many links as there stand between its places. -/
theorem linked_length {as : List α} (fits : as.length = tokens.length + 1) :
    (linked link as tokens).length = tokens.length := by
  induction tokens generalizing as with
  | nil => rw [linked_nil, List.length_nil, List.length_nil]
  | cons token tokens ih =>
    match as, fits with
    | a :: b :: rest, fits => exact congrArg (· + 1) (ih (Nat.succ.inj fits))

theorem linked_forall₂ {R : α → γ → Prop} {S : β → δ → Prop} {as : List α} {cs : List γ}
    (links : ∀ token ∈ tokens, ∀ {a b c d}, R a c → R b d → S (link a token b) (link' c token d))
    (each : List.Forall₂ R as cs) : List.Forall₂ S (linked link as tokens) (linked link' cs tokens) := by
  induction tokens generalizing as cs with
  | nil =>
    rw [linked_nil, linked_nil]
    exact .nil
  | cons token tokens ih =>
    obtain ⟨here, there⟩ := List.forall_mem_cons.mp links
    cases each with
    | nil => exact .nil
    | cons first rest =>
      cases rest with
      | nil => exact .nil
      | cons second others => exact .cons (here first second) (ih there (.cons second others))

end Linked

/-- Work that leaves all as it is can be done again and again, in any order. -/
theorem run_mapM_still {ε σ α β : Type} {f : α → EStateM ε σ β} {g : α → β} {s : σ} {as : List α}
    (each : ∀ a ∈ as, (f a).run s = .ok (g a) s) : (as.mapM f).run s = .ok (as.map g) s := by
  induction as with
  | nil => rfl
  | cons a as ih =>
    obtain ⟨first, others⟩ := List.forall_mem_cons.mp each
    rw [List.mapM_cons, EStateM.run_bind, first]
    dsimp only
    rw [EStateM.run_bind, ih others]
    rfl

section Comparators

variable {spoken : Language → Prop} {top token : String} {s s' : State} {o : Ontology} {c d : ConceptId}

/-- No comparator can be taken for a name. -/
theorem comparator_strange (known : token ∈ Grammar.comparators) (role : Role) :
    conforms token role = false := by
  have none : ∀ token ∈ Grammar.comparators, conforms token .concept = false ∧
      conforms token .individual = false ∧ conforms token .relation = false := by decide
  obtain ⟨concept, individual, relation⟩ := none token known
  cases role with
  | concept => exact concept
  | individual => exact individual
  | relation => exact relation

/-- What is a name leaves the comparators alone. -/
theorem State.Sound.find?_comparator (sound : s.Sound spoken top) (named : conforms top .concept = true)
    (known : token ∈ Grammar.comparators) :
    s.env.find? token = Environment.operators.lookup token := by
  have free : s.env.memory.lookup token = none := by
    refine Option.eq_none_iff_forall_ne_some.mpr fun v bound => ?_
    have differs : ∀ token ∈ Grammar.comparators, token ≠ anaphoraName := by decide
    obtain ⟨given, other⟩ := sound.bound (differs token known) bound
    obtain ⟨_, _, l, _, admitted⟩ := sound.named given other
    obtain ⟨role, vetted⟩ := admitted.vetted
    have conforming := (Vocabulary.vet_eq_ok_iff.mp vetted).2.2
    rw [comparator_strange known role] at conforming
    cases conforming
  have other : token ≠ top := by
    rintro rfl
    rw [comparator_strange known .concept] at named
    cases named
  rw [Scope.find?, free, Option.none_or, sound.dictionary_lookup, if_neg other]

/-- A strict comparison asks for the one direction and then whether it is not the same. -/
theorem run_strictly {x y : ConceptId} (left : o.Knows (.concept x)) (right : o.Knows (.concept y))
    (left' : o.Knows (.concept c)) (right' : o.Knows (.concept d)) : (do
      if ← Building.isSubsumedBy x y then return !(← Building.isEquivalentTo c d)
      else return false : Building Bool).run o =
    .ok (o.answer (.subsumed x y) && !(o.answer (.subsumed c d) && o.answer (.subsumed d c))) o := by
  rw [EStateM.run_bind, (Building.isSubsumedBy_yields x y).1 ⟨left, right⟩]
  cases o.answer (.subsumed x y) with
  | false => rfl
  | true =>
    dsimp only
    rw [if_pos rfl, EStateM.run_bind, (Building.isEquivalentTo_yields c d).1 ⟨left', right'⟩]
    rfl

theorem run_comparing (op : Operator) {b : Bool} (compared : op.apply [.concept c, .concept d] =
      (do return .boolean (← building (op.compares c d)) : Evaluation Value))
    (run : (op.compares c d).run o = .ok b o) {s : State} (here : s.ontology = o) :
    (op.apply [.concept c, .concept d]).run s = .ok (.boolean b) s := by
  subst here
  rw [compared, EStateM.run_bind, run_building, run]
  rfl

/-- Every comparator stands for an operator that tests what it says. -/
theorem comparator_operator (known : token ∈ Grammar.comparators) (left : o.Knows (.concept c))
    (right : o.Knows (.concept d)) : ∃ op, Environment.operators.lookup token = some (.operator op) ∧
      ∀ {s : State}, s.ontology = o →
        (op.apply [.concept c, .concept d]).run s = .ok (.boolean (o.holds c token d)) s := by
  simp only [Grammar.comparators, List.mem_cons, List.not_mem_nil, or_false] at known
  rcases known with rfl | rfl | rfl | rfl | rfl | rfl
  · have run := (Building.isSubsumedBy_yields c d).1 ⟨left, right⟩
    exact ⟨_, rfl, fun here => run_comparing .subsumedBy rfl run here⟩
  · have run := (Building.isSubsumedBy_yields d c).1 ⟨right, left⟩
    exact ⟨_, rfl, fun here => run_comparing .subsumes rfl run here⟩
  · have run := (Building.isSubsumedBy_yields d c).1 ⟨right, left⟩
    exact ⟨_, rfl, fun here => run_comparing .subsumes rfl run here⟩
  · have run := (Building.isEquivalentTo_yields c d).1 ⟨left, right⟩
    exact ⟨_, rfl, fun here => run_comparing .equivalentTo rfl run here⟩
  · refine ⟨_, rfl, fun here =>
      run_comparing .strictlySubsumedBy rfl ((run_strictly left right left right).trans ?_) here⟩
    simp only [Ontology.holds]
    cases o.answer (.subsumed c d) <;> rfl
  · refine ⟨_, rfl, fun here =>
      run_comparing .strictlySubsumes rfl ((run_strictly right left left right).trans ?_) here⟩
    simp only [Ontology.holds]
    cases o.answer (.subsumed d c)
    · rfl
    · cases o.answer (.subsumed c d) <;> rfl

/-- The tests of a chain are made one after the other and change nothing. -/
theorem run_compareNeighbours (sound : s.Sound spoken top) (named : conforms top .concept = true)
    {tokens : List String} (known : ∀ token ∈ tokens, token ∈ Grammar.comparators) {cs : List ConceptId}
    (concepts : ∀ c ∈ cs, s.ontology.Knows (.concept c)) :
    (compareNeighbours tokens (cs.map .concept)).run s =
      .ok ((linked s.ontology.holds cs tokens).all id) s := by
  induction tokens generalizing cs with
  | nil =>
    rw [linked_nil]
    rfl
  | cons token tokens ih =>
    obtain ⟨here, there⟩ := List.forall_mem_cons.mp known
    match cs, concepts with
    | [], _ | [_], _ => rfl
    | c :: d :: cs, concepts =>
      obtain ⟨left, others⟩ := List.forall_mem_cons.mp concepts
      obtain ⟨op, found, tests⟩ := comparator_operator here left (others d (List.mem_cons_self ..))
      rw [List.map_cons, List.map_cons, compareNeighbours, EStateM.run_bind,
        run_resolve ((sound.find?_comparator named here).trans found)]
      dsimp only
      rw [EStateM.run_bind, tests rfl]
      change (do
        if s.ontology.holds c token d then compareNeighbours tokens ((d :: cs).map .concept)
        else return false : Evaluation Bool).run s = _
      rw [linked, List.all_cons]
      cases s.ontology.holds c token d with
      | true => exact ih there others
      | false => rfl

end Comparators

namespace Phrase

universe u

variable {α : Type u} {W : Interpretation α → World α} {v : Vocabulary} {s s' : State} {ps : List Phrase}

/-- Plain phrases that were evaluated one after the other come to the same by themselves, where all of
them have been evaluated. -/
theorem evalAll_again {xs : List Value} (proper : ∀ p ∈ ps, p.Proper v) (plain : ∀ p ∈ ps, p.Plain)
    (interpreted : s.Interpreted W) (run : (evalAll ps).run s = .ok xs s') :
    List.Forall₂ (fun p x => p.eval.run s' = .ok x s') ps xs := by
  induction ps generalizing s xs with
  | nil =>
    cases run
    exact .nil
  | cons p ps ih =>
    obtain ⟨proper₁, proper⟩ := List.forall_mem_cons.mp proper
    obtain ⟨plain₁, plain⟩ := List.forall_mem_cons.mp plain
    obtain ⟨x, s₁, xs, first, others, rfl⟩ := evalAll_cons_eq_ok.mp run
    have interpreted₁ := interpreted.lasts (Settles.ok (proper₁.moves interpreted) first).1
    have adds : s₁.Extends s' :=
      (Settles.ok (moves_evalAll (fun p member _ => (proper p member).moves) interpreted₁) others).1
    have kept := (interpreted₁.lasts adds).ready.kept
    have precedes : s₁.Precedes s' :=
      ⟨⟨adds.ontology.annexes.within, kept⟩, fun _ found => adds.env ▸ found⟩
    exact .cons (proper₁.abides plain₁ interpreted x s₁ first s' precedes).2
      (ih proper plain interpreted₁ others)

theorem run_comparison {tokens : List String} {cs : List ConceptId} {b : Bool}
    (operands : (evalAll ps).run s = .ok (cs.map .concept) s')
    (tests : (compareNeighbours tokens (cs.map .concept)).run s' = .ok b s') :
    (comparison ps tokens).eval.run s = .ok (.boolean b) s' := by
  rw [eval, EStateM.run_bind, operands]
  dsimp only
  rw [pending?_concepts, EStateM.run_bind, tests]
  rfl

theorem Proper.stated_pair {p q : Phrase} {token : String} (left : p.Proper v) (right : q.Proper v)
    (known : token ∈ Grammar.comparators) : (pair p token q).Stated v := by
  have stated : (compare p [(token, q)]).Stated v :=
    .comparison left (List.cons_ne_nil _ _) (List.forall_mem_singleton.mpr known)
      (List.forall_mem_singleton.mpr right)
  exact stated

/-- A link finds its operands where they have been evaluated, and leaves all as it is. -/
theorem run_pair {spoken : Language → Prop} {top token : String} (sound : s.Sound spoken top)
    (named : conforms top .concept = true) (known : token ∈ Grammar.comparators) {p q : Phrase}
    {c d : ConceptId} (left : p.Proper v) (right : q.Proper v) (first : p.eval.run s = .ok (.concept c) s)
    (second : q.eval.run s = .ok (.concept d) s) :
    (pair p token q).eval.run s = .ok (.boolean (s.ontology.holds c token d)) s := by
  have interpreted := sound.interpreted (α := Unit)
  have concepts : ∀ x ∈ [c, d], s.ontology.Knows (.concept x) :=
    List.forall_mem_cons.mpr ⟨(Settles.ok (left.moves interpreted) first).2.1,
      List.forall_mem_singleton.mpr (Settles.ok (right.moves interpreted) second).2.1⟩
  have tests := run_compareNeighbours sound named (List.forall_mem_singleton.mpr known) concepts
  rw [linked, linked_nil, List.all_cons, List.all_nil, Bool.and_true, id] at tests
  exact run_comparison (run_evalAll (.cons first (.cons second .nil))) tests

theorem run_links {spoken : Language → Prop} {top : String} {tokens : List String} {cs : List ConceptId}
    (sound : s.Sound spoken top) (named : conforms top .concept = true)
    (known : ∀ token ∈ tokens, token ∈ Grammar.comparators) (proper : ∀ p ∈ ps, p.Proper v)
    (operands : List.Forall₂ (fun p c => p.eval.run s = .ok (.concept c) s) ps cs) :
    List.Forall₂ (fun q b => q.Stated v ∧ q.eval.run s = .ok (.boolean b) s) (linked pair ps tokens)
      (linked s.ontology.holds cs tokens) := by
  refine linked_forall₂ (fun token member p q c d left right => ?_)
    ((List.forall₂_and_left _ _).mpr ⟨proper, operands⟩)
  have here := known token member
  exact ⟨left.1.stated_pair right.1 here, run_pair sound named here left.1 right.1 left.2 right.2⟩

end Phrase

namespace Language

/-- The text of a statement yields it. -/
theorem parse_statement {l : Language} {q : Phrase} (stated : q.Stated l.vocabulary) :
    l.parse q.text = .ok (.program [q]) := by
  have text : (Phrase.program [q]).text = q.text := by
    rw [Phrase.text, Phrase.texts, Phrase.texts, Grammar.Stated.text_wrapped stated, separated]
  rw [← text]
  exact parse_text (List.forall_mem_singleton.mpr stated)

/-- A chain of comparisons says what its links say. Where the operands of a chain have been evaluated,
which are plain and come to concepts, it is true exactly if each link is that is run by itself after it.
Links can be run in any order and change nothing, and a link is true if the test of its comparator is. -/
theorem chain_conjoins {top : String} {s s' : State} (reached : State.Reached (fun _ => True) top s)
    (named : conforms top .concept = true) {l : Language} {text : String} {statements : List Phrase}
    (parsed : l.parse text = .ok (.program statements)) {ps : List Phrase} {tokens : List String}
    (member : .comparison ps tokens ∈ statements) (plain : ∀ p ∈ ps, p.Plain) {cs : List ConceptId}
    (operands : (evalAll ps).run s = .ok (cs.map .concept) s') :
    (Phrase.comparison ps tokens).eval.run s =
        .ok (.boolean ((linked Phrase.pair ps tokens).all s'.verdict)) s' ∧
      (∀ order : List Phrase, (∀ q ∈ order, q ∈ linked Phrase.pair ps tokens) →
        (order.mapM fun q => l.run q.text).run s' = .ok ((order.map s'.verdict).map .boolean) s') ∧
      (linked Phrase.pair ps tokens).map s'.verdict = linked s'.ontology.holds cs tokens ∧
      (linked Phrase.pair ps tokens).length = tokens.length := by
  obtain ⟨_, ⟨⟩, stated⟩ := stated_of_parse parsed
  cases stated _ member with
  | concept proper => cases proper
  | @comparison p links first inhabited known rest =>
    have proper := List.forall_mem_cons.mpr ⟨first, List.forall_mem_map.mpr rest⟩
    have known := List.forall_mem_map.mpr known
    have interpreted := reached.sound.interpreted (α := Unit)
    obtain ⟨adds, means⟩ :=
      Settles.ok (moves_evalAll (fun p member _ => (proper p member).moves) interpreted) operands
    have sound := reached.sound.lasts adds
    have tests := run_compareNeighbours sound named known fun c member =>
      known_of_means means (.concept c) (List.mem_map_of_mem member)
    have again := List.forall₂_map_right_iff.mp (Phrase.evalAll_again proper plain interpreted operands)
    have runs := Phrase.run_links sound named known proper again
    have verdicts : (linked Phrase.pair (p :: links.map Prod.snd) (links.map Prod.fst)).map s'.verdict =
        linked s'.ontology.holds cs (links.map Prod.fst) := by
      rw [← List.forall₂_eq_eq_eq, List.forall₂_map_left_iff]
      exact runs.imp fun q b run => by rw [State.verdict, run.2]
    refine ⟨?_, fun order chosen => ?_, verdicts, linked_length (by simp)⟩
    · rw [← verdicts, List.all_map, Function.id_comp] at tests
      exact Phrase.run_comparison operands tests
    · rw [List.map_map]
      refine run_mapM_still fun q member => ?_
      obtain ⟨b, _, stated, run⟩ := exists_of_forall₂ runs.flip (chosen q member)
      rw [Function.comp_apply, State.verdict, run, run_of_ok (parse_statement stated), run_program,
        Phrase.run_evalAll_cons, run]
      rfl

/-- Where a concept has been declared under another one. -/
def underA : State :=
  Evaluation.after (run ⟨Vocabulary.usual⟩ "!A::T;!B::A") (.initial "T")

theorem underA_eq : underA = ⟨((Environment.initial "T").assign "A" (.concept ⟨2⟩)).assign "B" (.concept ⟨3⟩),
    ⟨#[.concept (.named "T") [] [], .concept (.named "A") [⟨1⟩] [], .concept (.named "B") [⟨2⟩] []]⟩⟩ := by
  have parsed : parse ⟨Vocabulary.usual⟩ "!A::T;!B::A" =
      .ok (.program [.declareConcept "A" [.concept "T"], .declareConcept "B" [.concept "A"]]) := rfl
  exact (after_run parsed _).trans (by with_unfolding_all rfl)

def eitherAB : Phrase := .junction .or [.concept "A", .concept "B"]

/-- The operands of `B<=A|B=>B>A`, a chain whose last link does not hold. -/
def mixedOperands : List Phrase := [.concept "B", eitherAB, .concept "B", .concept "A"]

def mixedChain : Phrase := .comparison mixedOperands ["<=", "=>", ">"]

theorem mixedChain_conjoins : conforms "T" .concept = true ∧
    parse ⟨Vocabulary.usual⟩ "B<=A|B=>B>A" = .ok (.program [mixedChain]) ∧
    (∀ p ∈ mixedOperands, p.Plain) ∧
    ∃ s', (evalAll mixedOperands).run underA = .ok ([⟨3⟩, ⟨4⟩, ⟨3⟩, ⟨2⟩].map .concept) s' ∧
      mixedChain.eval.run underA = .ok (.boolean false) s' ∧
      (["B > A", "A | B => B", "B <= A | B"].mapM (run ⟨Vocabulary.usual⟩)).run s' =
        .ok [.boolean false, .boolean true, .boolean true] s' := by
  have parsed : parse ⟨Vocabulary.usual⟩ "B<=A|B=>B>A" = .ok (.program [mixedChain]) := rfl
  have plain : ∀ p ∈ mixedOperands, p.Plain := by
    have names : ∀ p ∈ [Phrase.concept "A", .concept "B"], p.Plain :=
      List.forall_mem_cons.mpr ⟨.concept "A", List.forall_mem_singleton.mpr (.concept "B")⟩
    have either : eitherAB.Plain := .junction names
    simp [mixedOperands, Phrase.Plain.concept, either]
  have operands : (evalAll mixedOperands).run underA = .ok ([⟨3⟩, ⟨4⟩, ⟨3⟩, ⟨2⟩].map .concept)
      (Evaluation.after (evalAll mixedOperands) underA) :=
    Evaluation.run_eq_ok_after (by rw [underA_eq]; with_unfolding_all rfl)
  have tests : linked (Evaluation.after (evalAll mixedOperands) underA).ontology.holds
      [⟨3⟩, ⟨4⟩, ⟨3⟩, ⟨2⟩] ["<=", "=>", ">"] = [true, true, false] := by
    rw [underA_eq]
    with_unfolding_all rfl
  obtain ⟨chain, links, verdicts, _⟩ := chain_conjoins (.run _ trivial .initial) (by decide) parsed
    (List.mem_singleton.mpr rfl) plain operands
  rw [tests] at verdicts
  have backwards := links (linked Phrase.pair mixedOperands ["<=", "=>", ">"]).reverse
    fun q member => List.mem_reverse.mp member
  have texts : (linked Phrase.pair mixedOperands ["<=", "=>", ">"]).reverse.map Phrase.text =
      ["B > A", "A | B => B", "B <= A | B"] := rfl
  refine ⟨by decide, parsed, plain, _, operands, ?_, ?_⟩
  · rw [← Function.id_comp (State.verdict _), ← List.all_map, verdicts] at chain
    exact chain
  · rw [List.map_reverse, verdicts] at backwards
    rw [← texts, List.mapM_map]
    exact backwards

end Language

end ConceptLogic
