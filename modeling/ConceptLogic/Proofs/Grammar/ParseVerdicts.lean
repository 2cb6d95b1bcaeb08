import ConceptLogic.Proofs.Grammar.DraftTrees
import ConceptLogic.Proofs.Grammar.FailureLocality

namespace ConceptLogic

namespace Phrase

mutual

/-- A phrase and the phrases inside it. -/
def nodes : Phrase → List Phrase
  | .negation p => .negation p :: p.nodes
  | .restriction q r p => .restriction q r p :: (r.nodes ++ p.nodes)
  | .junction kind ps => .junction kind ps :: nodesAll ps
  | .tuple ps => .tuple ps :: nodesAll ps
  | .declareIndividual name ps => .declareIndividual name ps :: nodesAll ps
  | .declareConcept name ps => .declareConcept name ps :: nodesAll ps
  | .declareRelation name p q => .declareRelation name p q :: (p.nodes ++ q.nodes)
  | .define name p => .define name p :: p.nodes
  | .membership p q => .membership p q :: (p.nodes ++ q.nodes)
  | .comparison ps words => .comparison ps words :: nodesAll ps
  | .mapping p q => .mapping p q :: (p.nodes ++ q.nodes)
  | .program ps => .program ps :: nodesAll ps
  | p => [p]

def nodesAll : List Phrase → List Phrase
  | [] => []
  | p :: ps => p.nodes ++ nodesAll ps

end

/-- The names that a phrase itself holds, and their roles. -/
def names : Phrase → List (Role × String)
  | .concept name | .declareConcept name _ | .define name _ => [(.concept, name)]
  | .individual name | .declareIndividual name _ => [(.individual, name)]
  | .relation name | .declareRelation name _ _ => [(.relation, name)]
  | .nominal members => members.map fun name => (.individual, name)
  | .var x => (x.role, x.base) :: x.type.toList.map fun name => (.concept, name)
  | _ => []

/-- Whether the names that a phrase itself holds are in order, and it is no connective of its own operands
or of one alone. -/
def Kempt (v : Vocabulary) (p : Phrase) : Prop :=
  (∀ e ∈ p.names, v.isReserved e.2 = false ∧ conforms e.2 e.1 = true) ∧
    ∀ kind ps, p = .junction kind ps → 2 ≤ ps.length ∧ ∀ q ∈ ps, ∀ qs, q ≠ .junction kind qs

theorem forall_nodesAll {P : Phrase → Prop} {ps : List Phrase} (each : ∀ p ∈ ps, ∀ q ∈ p.nodes, P q) :
    ∀ q ∈ nodesAll ps, P q := by
  induction ps with
  | nil => exact nofun
  | cons p ps ih =>
    obtain ⟨first, others⟩ := List.forall_mem_cons.mp each
    rw [nodesAll]
    exact List.forall_mem_append.mpr ⟨first, ih others⟩

variable {v : Vocabulary}

theorem unsigiled_of_conforms {name : String} {role : Role} (holds : conforms name role = true) :
    Vocabulary.unsigiled name = name := by
  obtain ⟨x, tail, name_eq, part⟩ := (IsIdentifier.of_conforms holds).opens
  unfold Vocabulary.unsigiled
  rw [name_eq]
  split
  · rename_i same
    cases same
    cases part
  · rfl

/-- A name that is admitted is not reserved and in keeping with its role. -/
theorem admitted_of_vetted {name : String} {role : Role} (vetted : v.vet role name = .ok name) :
    v.isReserved name = false ∧ conforms name role = true := by
  obtain ⟨_, free, holds⟩ := Vocabulary.vet_eq_ok_iff.mp vetted
  rw [unsigiled_of_conforms holds] at free
  exact ⟨free, holds⟩

theorem kempt_single {p : Phrase} {role : Role} {name : String} (named : p.names = [(role, name)])
    (other : ∀ kind ps, p ≠ .junction kind ps) (vetted : v.vet role name = .ok name) : p.Kempt v := by
  refine ⟨?_, fun kind ps same => absurd same (other kind ps)⟩
  rw [named]
  exact List.forall_mem_singleton.mpr (admitted_of_vetted vetted)

theorem kempt_var {x : Variable} (vetted : Variable.vet v x.base x.type = .ok x) : (Phrase.var x).Kempt v := by
  obtain ⟨_, base, type⟩ := Variable.of_vetted vetted
  refine ⟨List.forall_mem_cons.mpr ⟨admitted_of_vetted base, fun e member => ?_⟩, nofun⟩
  obtain ⟨name, here, rfl⟩ := List.mem_map.mp member
  exact admitted_of_vetted (type name (Option.mem_toList.mp here))

theorem kempt_nameless {p : Phrase} (nameless : p.names = []) (other : ∀ kind ps, p ≠ .junction kind ps) :
    p.Kempt v :=
  ⟨nameless ▸ nofun, fun kind ps same => absurd same (other kind ps)⟩

theorem Proper.kempt {p : Phrase} (proper : p.Proper v) : ∀ q ∈ p.nodes, q.Kempt v := by
  induction proper with
  | concept vetted => exact List.forall_mem_singleton.mpr (kempt_single rfl nofun vetted)
  | nominal inhabited vetted =>
    refine List.forall_mem_singleton.mpr ⟨fun e member => ?_, nofun⟩
    obtain ⟨name, here, rfl⟩ := List.mem_map.mp member
    exact admitted_of_vetted (vetted name here)
  | var vetted => exact List.forall_mem_singleton.mpr (kempt_var vetted)
  | anaphora => exact List.forall_mem_singleton.mpr (kempt_nameless rfl nofun)
  | negation operand ih => exact List.forall_mem_cons.mpr ⟨kempt_nameless rfl nofun, ih⟩
  | restriction fits vetted operand ih =>
    exact List.forall_mem_cons.mpr ⟨kempt_nameless rfl nofun, List.forall_mem_append.mpr
      ⟨List.forall_mem_singleton.mpr (kempt_single rfl nofun vetted), ih⟩⟩
  | @junction kind ps several apart operands ih =>
    refine List.forall_mem_cons.mpr ⟨⟨nofun, ?_⟩, forall_nodesAll ih⟩
    rintro _ _ ⟨⟩
    refine ⟨several, fun q member qs same => ?_⟩
    subst same
    have single : qs = [.junction kind qs] := (if_pos rfl).symm.trans (apart _ member)
    cases operands _ member with
    | junction several' =>
      rw [single] at several'
      exact Nat.not_succ_le_self 1 several'

theorem Stated.kempt {p : Phrase} (stated : p.Stated v) : ∀ q ∈ p.nodes, q.Kempt v := by
  cases stated with
  | concept proper => exact proper.kempt
  | define vetted body => exact List.forall_mem_cons.mpr ⟨kempt_single rfl nofun vetted, body.kempt⟩
  | declareRelation vetted domain range =>
    exact List.forall_mem_cons.mpr ⟨kempt_single rfl nofun vetted,
      List.forall_mem_append.mpr ⟨domain.kempt, range.kempt⟩⟩
  | declareConcept vetted _ parts | declareIndividual vetted _ parts =>
    exact List.forall_mem_cons.mpr ⟨kempt_single rfl nofun vetted,
      forall_nodesAll fun p member => (parts p member).kempt⟩
  | membership subject concept =>
    refine List.forall_mem_cons.mpr ⟨kempt_nameless rfl nofun, List.forall_mem_append.mpr ⟨?_, concept.kempt⟩⟩
    cases subject with
    | individual vetted => exact List.forall_mem_singleton.mpr (kempt_single rfl nofun vetted)
    | var vetted => exact List.forall_mem_singleton.mpr (kempt_var vetted)
    | anaphora => exact List.forall_mem_singleton.mpr (kempt_nameless rfl nofun)
  | comparison first _ _ operands =>
    refine List.forall_mem_cons.mpr ⟨kempt_nameless rfl nofun, forall_nodesAll ?_⟩
    exact List.forall_mem_cons.mpr ⟨first.kempt, List.forall_mem_map.mpr fun link member =>
      (operands link member).kempt⟩

theorem kempt_program {ps : List Phrase} (each : ∀ p ∈ ps, ∀ q ∈ p.nodes, q.Kempt v) :
    ∀ q ∈ (Phrase.program ps).nodes, q.Kempt v :=
  List.forall_mem_cons.mpr ⟨kempt_nameless rfl nofun, forall_nodesAll each⟩

end Phrase

namespace Grammar

/-- The tree of a text, if the grammar has it. -/
def tree? (text : List Char) : Option (Tree Rule) :=
  (growRule body (Rule.all.length * (text.length + 1)) .program (Cursor.ofText text)).map fun x => x.1.2

theorem tree_of_read {text : List Char} {ds : List Draft.Statement} {c : Cursor}
    (accepted : (read text).outcome = some (ds, c)) :
    ∃ t, growRule body (Rule.all.length * (text.length + 1)) .program (Cursor.ofText text) =
      some ((ds, t), c) := by
  rw [read, matchRule_outcome, ← growRule_bare] at accepted
  obtain ⟨⟨⟨ds, t⟩, c⟩, grown, same⟩ := Option.map_eq_some_iff.mp accepted
  cases same
  exact ⟨t, grown⟩

/-- A text is read to its end. -/
theorem spent_of_read {text : List Char} {ds : List Draft.Statement} {c : Cursor}
    (accepted : (read text).outcome = some (ds, c)) : c.rest = [] := by
  rw [read_outcome] at accepted
  obtain ⟨o, d, opening⟩ := clause_found (Cursor.ofText text)
  obtain ⟨os, e, others⟩ := clauses_found d
  rw [scanned_program opening others] at accepted
  obtain ⟨ends, same⟩ := Option.ite_none_right_eq_some.mp accepted
  cases same
  exact ends

end Grammar

namespace Language

open Grammar

theorem parse_of_read {l : Language} {text : String} {ds : List Draft.Statement} {c : Cursor}
    (accepted : (read text.toList).outcome = some (ds, c)) :
    l.parse text =
      match ds.mapM (Draft.Statement.judge l.vocabulary) with
      | .ok ps => .ok (.program ps)
      | .error flaw => .error (flaw.error text.toList) := by
  unfold parse draft
  revert accepted
  cases read text.toList with
  | failed t => exact nofun
  | matched ds c t =>
    rintro ⟨⟩
    rfl

/-- The first word with a flaw decides, and it decides alike whether the draft is judged or the tree is
walked. -/
theorem parse_verdict {text : String} {ds : List Draft.Statement} {t : Tree Rule} {c : Cursor}
    (accepted : (read text.toList).outcome = some (ds, c)) (tells : Rule.Tells .program ds t) (l : Language) :
    match (t.marks .program).findSome? (Mark.flaw? l.vocabulary) with
    | none => ∃ p, l.parse text = .ok p ∧ Tree.assemble l.vocabulary [t] = .ok p
    | some f =>
      l.parse text = .error (f.error text.toList) ∧ Tree.assemble l.vocabulary [t] = .error (.flaw f) := by
  have concur := tells l.vocabulary .program
  have parsed := parse_of_read (l := l) accepted
  have walk : Tree.assemble l.vocabulary [t] =
      do return .program (← Tree.statements l.vocabulary t.parts) := rfl
  unfold Concur at concur
  cases first : (t.marks .program).findSome? (Mark.flaw? l.vocabulary) with
  | none =>
    rw [first] at concur
    obtain ⟨ps, _, walked, judged, rfl⟩ := concur
    rw [judged] at parsed
    rw [walked] at walk
    exact ⟨_, parsed, walk⟩
  | some f =>
    rw [first] at concur
    rw [concur.2] at parsed
    rw [concur.1] at walk
    exact ⟨parsed, walk⟩

/-- A text that the grammar has is parsed if each of its names passes in the role that its place gives it
and each of its numbers is small enough; else the error is that of the first of them. The words of the
tree are the words of the text, and walking the tree comes to the same and never finds it out of shape. -/
theorem parse_outcome {text : String} (accepted : accepts text = true) :
    ∃ t, tree? text.toList = some t ∧ (t.marks .program).map Mark.word = words text.toList 0 ∧
      ∀ l : Language,
        ((∃ p, l.parse text = .ok p) ↔ ∀ m ∈ t.marks .program, m.flaw? l.vocabulary = none) ∧
        (∀ before m after f, t.marks .program = before ++ m :: after →
          (∀ n ∈ before, n.flaw? l.vocabulary = none) → m.flaw? l.vocabulary = some f →
            l.parse text = .error (f.error text.toList) ∧ Tree.assemble l.vocabulary [t] = .error (.flaw f)) ∧
        ∀ p, l.parse text = .ok p →
          Tree.assemble l.vocabulary [t] = .ok p ∧ ∀ q ∈ p.nodes, q.Kempt l.vocabulary := by
  rw [accepts_eq] at accepted
  obtain ⟨⟨ds, c⟩, whole⟩ := Option.isSome_iff_exists.mp accepted
  obtain ⟨t, grown⟩ := tree_of_read whole
  have covered := growRule_words grown .program
  have none : c.words = [] := by
    rw [Cursor.words, spent_of_read whole, words]
  rw [none, List.append_nil] at covered
  refine ⟨t, congrArg (Option.map _) grown, covered.symm, fun l => ?_⟩
  have verdict := parse_verdict whole (growRule_faithful _ grown).2.2 l
  refine ⟨⟨?_, fun passed => ?_⟩, fun before m after f split early flaw => ?_, fun p parsed => ?_⟩
  · rintro ⟨p, parsed⟩
    rw [← List.findSome?_eq_none_iff]
    split at verdict
    · assumption
    · rw [parsed] at verdict
      cases verdict.1
  · rw [List.findSome?_eq_none_iff.mpr passed] at verdict
    obtain ⟨p, parsed, _⟩ := verdict
    exact ⟨p, parsed⟩
  · have first : (t.marks .program).findSome? (Mark.flaw? l.vocabulary) = some f := by
      rw [split, List.findSome?_append, List.findSome?_eq_none_iff.mpr early, List.findSome?_cons, flaw]
      rfl
    rw [first] at verdict
    exact verdict
  · obtain ⟨ps, rfl, stated⟩ := stated_of_parse parsed
    split at verdict
    · obtain ⟨p, parsed', walked⟩ := verdict
      rw [parsed] at parsed'
      cases parsed'
      exact ⟨walked, Phrase.kempt_program fun q member => (stated q member).kempt⟩
    · rw [parsed] at verdict
      cases verdict.1

/-- Of three flaws the first is reported, which is that `b` begins with a small letter. -/
def misnamed : String := "!R :: A -> b; more 4294967296 s.D"

theorem misnamed_outcome :
    accepts misnamed = true ∧ parse ⟨Vocabulary.usual⟩ misnamed = .error (.namingConvention "b" .concept) := by
  have accepted : accepts misnamed = true := by
    rw [accepts_eq]
    decide +kernel
  obtain ⟨t, tree, _, verdict⟩ := parse_outcome accepted
  have marks : (tree? misnamed.toList).map (Tree.marks .program) = some
      ([⟨⟨['R'], 1⟩, .name .relation⟩, ⟨⟨['A'], 6⟩, .name .concept⟩] ++ ⟨⟨['b'], 11⟩, .name .concept⟩ ::
        [⟨⟨['m', 'o', 'r', 'e'], 14⟩, .keyword⟩,
          ⟨⟨['4', '2', '9', '4', '9', '6', '7', '2', '9', '6'], 19⟩, .cardinality⟩,
          ⟨⟨['s'], 30⟩, .name .relation⟩, ⟨⟨['D'], 32⟩, .name .concept⟩]) := by
    decide +kernel
  rw [tree] at marks
  have early : ∀ n ∈ [⟨⟨['R'], 1⟩, .name .relation⟩, ⟨⟨['A'], 6⟩, .name .concept⟩],
      Mark.flaw? Vocabulary.usual n = none := by decide
  have flaw : Mark.flaw? Vocabulary.usual ⟨⟨['b'], 11⟩, .name .concept⟩ =
      some (.name (.namingConvention "b" .concept)) := by decide
  exact ⟨accepted, ((verdict ⟨Vocabulary.usual⟩).2.1 _ _ _ _ (Option.some.inj marks) early flaw).1⟩

end Language

end ConceptLogic
