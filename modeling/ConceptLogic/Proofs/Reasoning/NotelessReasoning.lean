import ConceptLogic.Proofs.Reasoning.QueryWeights
import ConceptLogic.Proofs.Session.ReachedStates

namespace ConceptLogic

/-- Whether an entry was told to fall under older concepts only, and to be the same as none. -/
def Entry.Graded (id : Nat) : Entry → Prop
  | .concept _ isA equivalentTo => (∀ p ∈ isA, p.id < id) ∧ equivalentTo = []
  | .individual _ types => ∀ t ∈ types, t.id < id
  | .relation .. => True

namespace Ontology

/-- Answers a query by the rules alone, with nothing noted. There is no answer if the rules go more than
`fuel` steps deep. -/
def reason (o : Ontology) : Nat → Query → Option Bool
  | 0, _ => none
  | fuel + 1, q => o.step (reason o fuel) (fun _ search => search) q

/-- An ontology in which all that is told leads to something older. -/
def Graded (o : Ontology) : Prop :=
  ∀ n entry, o.thing? n = some entry → entry.Graded n

variable {o o' : Ontology} {c : ConceptId} {q : Query}

theorem initial_graded (name : String) : (initial name).Graded := by
  intro n entry found
  obtain ⟨rfl, rfl⟩ := initial_thing? found
  exact ⟨nofun, rfl⟩

theorem Graded.annexing (graded : o.Graded) (annexes : o.Annexes o') : o'.Graded := by
  intro n entry found
  by_cases old : n ≤ o.size
  · exact graded n entry (annexes.thing?_old old ▸ found)
  · obtain ⟨e, _, rfl⟩ := annexes.thing?_new (Nat.lt_of_not_le old) found
    exact ⟨nofun, rfl⟩

theorem Graded.adding (graded : o.Graded) {entry : Entry} {name : String} {x : Value}
    (founded : entry.Founded o name x) : (o.adding entry).Graded := by
  intro n new found
  rw [adding_thing?] at found
  split at found
  · rename_i last
    cases found
    subst last
    have older : ∀ {c}, .concept c ∈ entry.mentions → c.id < o.size + 1 :=
      fun mentioned => Nat.lt_succ_of_le (founded.known _ mentioned).bounds.2
    cases entry with
    | concept e isA equivalentTo =>
      refine ⟨fun p member => older ?_, founded.novel.2.1⟩
      exact List.mem_append_right _ (List.mem_map_of_mem (List.mem_append_left _ member))
    | individual name types => exact fun t member => older (List.mem_map_of_mem member)
    | relation => trivial
  · exact graded n new found

namespace Graded

variable (graded : o.Graded)
include graded

theorem told_lt {p : ConceptId} (told : p ∈ o.told c) : p.id < c.id := by
  rcases List.mem_append.mp told with isA | equivalent
  · obtain ⟨e, isA, equivalentTo, found, member⟩ := mem_isA.mp isA
    exact (graded _ _ found).1 p member
  · obtain ⟨e, isA, equivalentTo, found, member⟩ := mem_equivalentTo.mp equivalent
    rw [(graded _ _ found).2] at member
    cases member

theorem type_lt {i : IndividualId} (told : c ∈ o.types i) : c.id < i.id := by
  obtain ⟨name, types, found, member⟩ := mem_types.mp told
  exact graded _ _ found c member

theorem alone : o.equivalentTo c = [] := by
  refine List.eq_nil_iff_forall_not_mem.mpr fun p equivalent => ?_
  obtain ⟨e, isA, equivalentTo, found, member⟩ := mem_equivalentTo.mp equivalent
  rw [(graded _ _ found).2] at member
  cases member

/-- Every step goes down. Where it swaps the sides of a subsumption, both of them have become older. -/
theorem weight_lt (wf : o.WellFormed) {p : Query} (leads : o.Leads q p) :
    p.weight Handle.id < q.weight Handle.id := by
  have operand : ∀ {c e x}, o.expression? c = some e → .concept x ∈ e.parts → x.id < c.id :=
    fun made part => wf.older made _ part
  rcases leads with asks | descends
  · cases asks with
    | toConjunction made member => exact Nat.add_lt_add_left (operand made (List.mem_map_of_mem member)) _
    | ofDisjunction _ made member => exact Nat.add_lt_add_right (operand made (List.mem_map_of_mem member)) _
    | ofNominal _ made listed => exact Nat.add_lt_add_right (wf.older made _ (List.mem_map_of_mem listed)) _
    | conjunct _ made member => exact Nat.add_lt_add_right (operand made (List.mem_map_of_mem member)) _
    | disjunct _ made member => exact Nat.add_lt_add_left (operand made (List.mem_map_of_mem member)) _
    | negation made made' => exact Confronts.negation.weight_lt (operand made) (operand made')
    | filler made made' how => exact (Confronts.filler how).weight_lt (operand made) (operand made')
    | reversed made made' how => exact (Confronts.reversed how).weight_lt (operand made) (operand made')
    | told _ told => exact Nat.add_lt_add_right (graded.told_lt told) _
    | definition _ told =>
      rw [graded.alone] at told
      cases told
    | type _ told => exact Nat.add_lt_add_right (graded.type_lt told) _
    | equivalent _ told =>
      rw [graded.alone] at told
      cases told
  · cases descends with
    | conjunct made member => exact Nat.add_lt_add_left (operand made (List.mem_map_of_mem member)) _
    | disjunct made member => exact Nat.add_lt_add_left (operand made (List.mem_map_of_mem member)) _

/-- No search comes back to a query that it is in the midst of. -/
theorem straight (wf : o.WellFormed) : ¬o.Circles q := by
  rintro ⟨p, _, back⟩
  have lighter : ∀ {r}, Relation.TransGen o.Leads p r → r.weight Handle.id < p.weight Handle.id := by
    intro r path
    induction path with
    | single leads => exact graded.weight_lt wf leads
    | tail _ leads ih => exact (graded.weight_lt wf leads).trans ih
  exact Nat.lt_irrefl _ (lighter back)

theorem answer_iff_follows (wf : o.WellFormed) (known : o.Knowable q) : o.answer q = true ↔ o.Follows q := by
  have affirms := affirms_iff_follows wf known
  rw [affirms_iff, and_iff_right known] at affirms
  exact affirms.trans (and_iff_left fun misses => graded.straight wf (misses.circles wf known))

end Graded

/-- What follows from what its own search asks about. -/
def Sought (o : Ontology) (q : Query) : Prop := o.Warrants (fun p => o.Asks q p ∧ o.Follows p) q

/-- Notes of what is sought grant all that follows. -/
theorem granted_sought_iff : o.Granted o.Sought q ↔ o.Follows q := by
  constructor
  · exact fun granted => granted.follows fun _ sought => .of_warrants (sought.mono fun _ _ => And.right)
  intro follows
  induction follows with
  | @step q given earlier warrants ih =>
    exact warrants.granted (fun own => own.mono fun p _ ⟨asks, granted⟩ => ⟨asks, earlier p granted⟩)
      fun p _ granted => ih p granted

/-- Computations that give an answer are connected like their answers. -/
theorem respects_some : Respects fun (x : Option Bool) (b : Id Bool) => x = some b where
  pure _ := rfl
  or := by
    rintro _ _ b b' rfl rfl
    cases b <;> rfl
  and := by
    rintro _ _ b b' rfl rfl
    cases b <;> rfl

open Classical in
/-- Where all that is told leads to something older, the rules alone come to an end, and they say yes to
what follows and no to all else. -/
theorem Graded.reason_eq (graded : o.Graded) (wf : o.WellFormed) {fuel : Nat}
    (enough : q.weight Handle.id < fuel) : o.reason fuel q = some (decide (o.Follows q)) := by
  induction fuel generalizing q with
  | zero => cases enough
  | succ fuel ih =>
    have led : ∀ p, o.Leads q p → o.reason fuel p = some (decide (o.Follows p)) := fun p leads =>
      ih ((graded.weight_lt wf leads).trans_le (Nat.le_of_lt_succ enough))
    have related : o.reason (fuel + 1) q = some (o.step (m := Id) (fun p => decide (o.Granted o.Sought p))
        (fun p _ => decide (o.Sought p)) q) := by
      refine step_related respects_some (fun p descends => ?_) fun x y decides _ => ?_
      · rw [led p (.inr descends), decide_eq_decide.mpr granted_sought_iff]
      · obtain ⟨b, decides'⟩ := decides.elsewhere (n := Id) fun p => decide (o.Follows p)
        have same : x = some b := Decides.related (m := Option) (n := Id) respects_some
          (fun p asks => led p (.inl asks)) decides decides'
        have sought : b = true ↔ o.Sought q := by
          simp only [decides'.iff, decide_eq_true_eq]
          rfl
        exact same.trans (congrArg some (Bool.eq_iff_iff.mpr (sought.trans decide_eq_true_iff.symm)))
    rw [related, step_eq_granted, decide_eq_decide.mpr granted_sought_iff]

/-- What the rules alone say is what is answered. -/
theorem Graded.reasoned (graded : o.Graded) (wf : o.WellFormed) (known : o.Knowable q) :
    ∃ b, o.Answers b q ∧ ∃ depth, ∀ fuel, depth ≤ fuel → o.reason fuel q = some b := by
  classical
  refine ⟨o.answer q, answers_iff.mpr ⟨known, rfl⟩, q.weight Handle.id + 1, fun fuel enough => ?_⟩
  rw [graded.reason_eq wf enough]
  exact congrArg some (Bool.eq_iff_iff.mpr (decide_eq_true_iff.trans (graded.answer_iff_follows wf known).symm))

end Ontology

namespace State

/-- The states that programs without definitions lead to. -/
inductive Primitive (top : String) : State → Prop
  | initial : Primitive top (.initial top)
  | run {s : State} {l : Language} {text : String} :
      (∀ p, l.parse text = .ok p → ∀ q ∈ p.statements, q.isDefinition = false) → Primitive top s →
      Primitive top (Evaluation.after (l.run text) s)

variable {top : String} {s : State}

theorem Primitive.reached (primitive : Primitive top s) : Reached (fun _ => True) top s := by
  induction primitive with
  | initial => exact .initial
  | run _ _ ih => exact .run _ trivial ih

theorem Makes.graded {s' : State} {name : String} {x : Value} (makes : s.Makes name x s')
    (graded : s.ontology.Graded) : s'.ontology.Graded := by
  cases makes with
  | bound adds _ founded => exact (graded.annexing adds.ontology.annexes).adding founded

end State

section Statements

variable {top : String} {s : State} {l : Language} {ps : List Phrase}

theorem Phrase.Stated.settles_graded {p : Phrase} (stated : p.Stated l.vocabulary)
    (other : p.isDefinition = false) (sound : s.Sound (fun _ => True) top) (graded : s.ontology.Graded) :
    Settles p.eval s (fun _ s' => s'.Sound (fun _ => True) top ∧ s'.ontology.Graded)
      (fun s' => s'.Sound (fun _ => True) top ∧ s'.ontology.Graded) := by
  have quiet : ∀ {s'}, s.Extends s' → s'.Sound (fun _ => True) top ∧ s'.ontology.Graded := fun adds =>
    ⟨sound.lasts adds, graded.annexing adds.ontology.annexes⟩
  refine Settles.mono (stated.makes (sound.interpreted (α := Unit)) other) ?_ fun _ => quiet
  rintro _ s' (⟨_, adds⟩ | ⟨name, x, _, admitted, makes⟩)
  · exact quiet adds
  · exact ⟨sound.declares makes.declares ⟨l, trivial, admitted⟩, makes.graded graded⟩

theorem settles_evalAll_graded (stated : ∀ p ∈ ps, p.Stated l.vocabulary)
    (others : ∀ p ∈ ps, p.isDefinition = false) (sound : s.Sound (fun _ => True) top)
    (graded : s.ontology.Graded) : Settles (Phrase.evalAll ps) s (fun _ s' => s'.ontology.Graded)
      (·.ontology.Graded) := by
  induction ps generalizing s with
  | nil => exact graded
  | cons p ps ih =>
    obtain ⟨first, later⟩ := List.forall_mem_cons.mp stated
    obtain ⟨other, others⟩ := List.forall_mem_cons.mp others
    refine ((first.settles_graded other sound graded).mono (fun _ _ => id) fun _ => And.right).bind ?_
    rintro v s' ⟨sound', graded'⟩
    exact (ih later others sound' graded').bind fun vs s'' graded'' => graded''

theorem State.Primitive.graded (primitive : State.Primitive top s) : s.ontology.Graded := by
  induction primitive with
  | initial => exact Ontology.initial_graded top
  | @run s l text undefined before graded =>
    cases parsed : l.parse text with
    | error e =>
      rw [Evaluation.after, Language.run_of_error parsed]
      exact graded
    | ok p =>
      obtain ⟨ps, rfl, stated⟩ := Language.stated_of_parse parsed
      have settles := settles_evalAll_graded stated (undefined _ parsed) before.reached.sound graded
      refine Evaluation.after_of (P := (·.ontology.Graded)) ?_
      unfold Settles
      rw [Language.run_of_ok parsed, Language.run_program]
      cases run : (Phrase.evalAll ps).run s with
      | ok vs s' => exact settles.ok run
      | error e s' => exact settles.error run

end Statements

namespace State

/-- Without definitions, notes save work and change no answer. Whatever is asked about things that are
known, the rules alone come to an end, and what they say is what is answered. -/
theorem Primitive.answers_reasoned {top : String} {s : State} (primitive : Primitive top s) {q : Query}
    (known : s.ontology.Knowable q) :
    ∃ b, s.ontology.Answers b q ∧ ∃ depth, ∀ fuel, depth ≤ fuel → s.ontology.reason fuel q = some b :=
  primitive.graded.reasoned primitive.reached.sound.kept.wellFormed known

/-- What is left by a program that declares a concept, an individual and a concept made of both. -/
def joinedMade : State :=
  ⟨(((Environment.initial "T").assign "A" (.concept ⟨2⟩)).assign "b" (.individual ⟨3⟩)).assign "C"
      (.concept ⟨7⟩), ⟨#[.concept (.named "T") [] [], .concept (.named "A") [⟨1⟩] [], .individual "b" [⟨2⟩],
    .concept (.negation ⟨2⟩) [] [], .concept (.nominal [⟨3⟩]) [] [], .concept (.disjunction [⟨4⟩, ⟨5⟩]) [] [],
    .concept (.named "C") [⟨1⟩, ⟨6⟩] []]⟩⟩

def joinedProgram : Phrase :=
  .program [.declareConcept "A" [.concept "T"], .declareIndividual "b" [.concept "A"],
    .declareConcept "C" [.junction .or [.negation (.concept "A"), .nominal ["b"]]]]

theorem joinedMade_reasoned : Primitive "T" joinedMade ∧
    joinedMade.ontology.Answers true (.subsumed ⟨5⟩ ⟨6⟩) ∧
    joinedMade.ontology.Answers false (.subsumed ⟨7⟩ ⟨2⟩) ∧
    ∃ depth, ∀ fuel, depth ≤ fuel → joinedMade.ontology.reason fuel (.subsumed ⟨7⟩ ⟨2⟩) = some false := by
  have parsed : Language.parse ⟨Vocabulary.usual⟩ "!A::T;!b:A;!C::~A|{b}" = .ok joinedProgram := rfl
  have evaluated : joinedProgram.eval.run (.initial "T") = .ok .nothing joinedMade := by with_unfolding_all rfl
  have left : Evaluation.after (Language.run ⟨Vocabulary.usual⟩ "!A::T;!b:A;!C::~A|{b}") (.initial "T") =
      joinedMade := by
    rw [Evaluation.after, (Language.run_of_ok parsed).trans evaluated]
  have primitive : Primitive "T" joinedMade := by
    rw [← left]
    refine .run (fun p read => ?_) .initial
    cases parsed.symm.trans read
    decide
  have no : joinedMade.ontology.Answers false (.subsumed ⟨7⟩ ⟨2⟩) := by decide +kernel
  have known : joinedMade.ontology.Knowable (.subsumed ⟨7⟩ ⟨2⟩) := by decide +kernel
  obtain ⟨b, answers, reasoned⟩ := primitive.answers_reasoned known
  cases (Ontology.answers_iff.mp answers).2.symm.trans (Ontology.answers_iff.mp no).2
  exact ⟨primitive, by decide +kernel, no, reasoned⟩

end State

end ConceptLogic
