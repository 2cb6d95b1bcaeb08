import ConceptLogic.Proofs.Session.ReachedStates

namespace ConceptLogic

universe u

/-- A plain statement is a phrase for a concept. -/
theorem Phrase.Stated.proper_of_plain {v : Vocabulary} {p : Phrase} (stated : p.Stated v)
    (plain : p.Plain) : p.Proper v := by
  cases stated with
  | concept proper => exact proper
  | _ => cases plain

namespace Language

/-- Evaluation builds the concept that is written: in every interpretation of what has a name, the
concept that comes out means what the phrase denotes. -/
theorem eval_denotes {top : String} {s s' : State} (reached : State.Reached (fun _ => True) top s)
    {l : Language} {text : String} {ps : List Phrase} (parsed : l.parse text = .ok (.program ps))
    {e : Phrase} (member : e ∈ ps) (plain : e.Plain) {k : ConceptId}
    (run : e.eval.run s = .ok (.concept k) s') {α : Type u} (I : Interpretation α) :
    I.extent s'.ontology k = (I.world s'.ontology).denotes e := by
  obtain ⟨_, ⟨⟩, stated⟩ := stated_of_parse parsed
  have proper := (stated e member).proper_of_plain plain
  have sound := reached.sound
  have adds : s.Extends s' := (Settles.ok (proper.moves (sound.interpreted (α := Unit))) run).1
  have unique : ∀ {name v w}, s'.ontology.Names name v → s'.ontology.Names name w → v = w :=
    (sound.lasts adds).unique
  have interpreted : s.Interpreted fun I : Interpretation α => I.world s'.ontology :=
    ⟨sound.ready, fun I => (I.follows_world unique).before adds.ontology.upholds⟩
  have means := (Settles.ok (proper.moves interpreted) run).2
  exact means.2 plain k rfl I

/-- A chain of three operands, two of which are the same. -/
def oddChain : Phrase :=
  .junction .xor [.concept "T", .negation (.concept "T"), .concept "T"]

/-- The concepts that are made for the chain, one after the other. -/
def oddChainLeft : State :=
  ⟨Environment.initial "T", ⟨#[.concept (.named "T") [] [], .concept (.negation ⟨1⟩) [] [],
    .concept (.disjunction [⟨1⟩, ⟨2⟩]) [] [], .concept (.negation ⟨3⟩) [] [],
    .concept (.conjunction [⟨2⟩, ⟨3⟩]) [] [], .concept (.conjunction [⟨1⟩, ⟨4⟩]) [] [],
    .concept (.disjunction [⟨5⟩, ⟨6⟩]) [] []]⟩⟩

/-- A world of two, of which one falls under everything that has a name. -/
def halfNamed : Interpretation Bool where
  named _ := {true}
  individual _ := false
  relation _ _ _ := False

theorem oddChain_denotes :
    parse ⟨Vocabulary.usual⟩ "T^~T^T" = .ok (.program [oddChain]) ∧ oddChain.Plain ∧
      oddChain.eval.run (.initial "T") = .ok (.concept ⟨7⟩) oddChainLeft ∧
        halfNamed.extent oddChainLeft.ontology ⟨7⟩ =
          (halfNamed.world oddChainLeft.ontology).denotes oddChain := by
  have parsed : parse ⟨Vocabulary.usual⟩ "T^~T^T" = .ok (.program [oddChain]) := rfl
  have plain : oddChain.Plain := by
    refine .junction fun p member => ?_
    simp only [List.mem_cons, List.not_mem_nil, or_false] at member
    rcases member with rfl | rfl | rfl
    · exact .concept "T"
    · exact .negation (.concept "T")
    · exact .concept "T"
  have evaluated : oddChain.eval.run (.initial "T") = .ok (.concept ⟨7⟩) oddChainLeft := by with_unfolding_all rfl
  exact ⟨parsed, plain, evaluated,
    eval_denotes .initial parsed (List.mem_singleton.mpr rfl) plain evaluated halfNamed⟩

end Language

end ConceptLogic
