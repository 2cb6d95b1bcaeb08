import ConceptLogic.Proofs.Ontology.ReachedOntologies
import ConceptLogic.Proofs.Reasoning.MissedQueries
import ConceptLogic.Proofs.Reasoning.ReachablePlaces

namespace ConceptLogic

namespace Ontology

variable {o o' : Ontology} {c d : ConceptId} {r s : RelationId}

/-- One told edge between two concepts, by their numbers. -/
def ToldEdge (o : Ontology) : Nat → Nat → Prop := Edge fun n => (o.told ⟨n⟩).map Handle.id

def SuperEdge (o : Ontology) : Nat → Nat → Prop := Edge fun n => (o.supers ⟨n⟩).map Handle.id

/-- Paths between handles are paths between their numbers. -/
theorem numberPath_iff {role : Role} {next : Handle role → List (Handle role)} {g h : Handle role} :
    Relation.TransGen (Edge fun n => (next ⟨n⟩).map Handle.id) g.id h.id ↔
      Relation.TransGen (fun g h => h ∈ next g) g h := by
  constructor
  · intro path
    suffices handles : ∀ n, Relation.TransGen (Edge fun n => (next ⟨n⟩).map Handle.id) g.id n →
        Relation.TransGen (fun g h => h ∈ next g) g ⟨n⟩ from handles h.id path
    intro n path
    induction path with
    | single edge =>
      obtain ⟨x, member, rfl⟩ := List.mem_map.mp edge
      exact .single member
    | tail _ edge ih =>
      obtain ⟨x, member, rfl⟩ := List.mem_map.mp edge
      exact ih.tail member
  · exact Relation.TransGen.lift Handle.id (fun _ _ member => List.mem_map_of_mem member) _ _

theorem WellFormed.above_iff (wf : o.WellFormed) :
    (o.above c).contains d.id = true ↔ Relation.TransGen o.ToldEdge c.id d.id := by
  refine reachable_iff fun a b edge => ?_
  obtain ⟨p, told, rfl⟩ := List.mem_map.mp edge
  exact (wf.told_known told).bounds

theorem WellFormed.isSubRelation_iff (wf : o.WellFormed) :
    o.isSubRelation r s = true ↔ r = s ∨ Relation.TransGen o.SuperEdge r.id s.id := by
  refine Bool.or_eq_true_iff.trans (or_congr decide_eq_true_iff (reachable_iff fun a b edge => ?_))
  obtain ⟨p, super, rfl⟩ := List.mem_map.mp edge
  exact (wf.supers_known super).bounds

section Monotony

variable (wf : o.WellFormed) (wf' : o'.WellFormed) (within : o.Within o')
include wf wf' within

theorem above_persists (above : (o.above c).contains d.id = true) : (o'.above c).contains d.id = true := by
  have edges : ∀ a b, o.ToldEdge a b → o'.ToldEdge a b :=
    fun a b edge => List.map_subset Handle.id (within.told ⟨a⟩) edge
  exact wf'.above_iff.mpr (Relation.TransGen.mono edges _ _ (wf.above_iff.mp above))

theorem isSubRelation_persists (sub : o.isSubRelation r s = true) : o'.isSubRelation r s = true := by
  have edges : ∀ a b, o.SuperEdge a b → o'.SuperEdge a b :=
    fun a b edge => List.map_subset Handle.id (within.supers ⟨a⟩) edge
  exact wf'.isSubRelation_iff.mpr
    ((wf.isSubRelation_iff.mp sub).imp_right (Relation.TransGen.mono edges _ _))

theorem Supports.persists {given : Query → Prop} {x y : ConceptId} {how : Entailment}
    (supports : o.Supports given r x s y how) : o'.Supports given r x s y how := by
  cases how with
  | never => exact supports
  | same => exact supports
  | wider => exact ⟨isSubRelation_persists wf wf' within supports.1, supports.2⟩
  | universal => exact ⟨isSubRelation_persists wf wf' within supports.1, supports.2⟩
  | narrower => exact ⟨isSubRelation_persists wf wf' within supports.1, supports.2⟩

omit wf wf' in
theorem Unsplit.persists (known : o.Knowable (.subsumed c d)) (unsplit : o.Unsplit c d) : o'.Unsplit c d := by
  unfold Unsplit
  rw [within.expression?_eq known.1, within.expression?_eq known.2]
  exact unsplit

omit wf wf' in
theorem Undivided.persists (known : o.Knows (.concept d)) (undivided : o.Undivided d) : o'.Undivided d := by
  unfold Undivided
  rw [within.expression?_eq known]
  exact undivided

/-- What the rules warrant they still warrant if more is known. -/
theorem Warrants.persists {given : Query → Prop} {q : Query} (known : o.Knowable q)
    (warrants : o.Warrants given q) : o'.Warrants given q := by
  cases warrants with
  | same => exact .same
  | everything => exact .everything
  | toConjunction made each => exact .toConjunction (within.expression? made) each
  | ofDisjunction apart made each =>
    exact .ofDisjunction (by rwa [within.expression?_eq known.2]) (within.expression? made) each
  | ofNominal apart made each =>
    exact .ofNominal (by rwa [within.expression?_eq known.2]) (within.expression? made) each
  | conjunct unsplit made member granted =>
    exact .conjunct (unsplit.persists within known) (within.expression? made) member granted
  | disjunct unsplit made member granted =>
    exact .disjunct (unsplit.persists within known) (within.expression? made) member granted
  | negation made made' granted =>
    exact .negation (within.expression? made) (within.expression? made') granted
  | restriction made made' supports =>
    exact .restriction (within.expression? made) (within.expression? made')
      (supports.persists wf wf' within)
  | ancestor unsplit above =>
    exact .ancestor (unsplit.persists within known) (above_persists wf wf' within above)
  | told unsplit member granted =>
    exact .told (unsplit.persists within known) (within.told _ member) granted
  | definition unsplit member granted =>
    exact .definition (unsplit.persists within known) (within.equivalentTo _ member) granted
  | everyone => exact .everyone
  | nominated notTop made listed => exact .nominated notTop (within.expression? made) listed
  | ofConjuncts notTop made each => exact .ofConjuncts notTop (within.expression? made) each
  | ofDisjunct notTop made member granted =>
    exact .ofDisjunct notTop (within.expression? made) member granted
  | type undivided member granted =>
    exact .type (undivided.persists within known.2) (within.types _ member) granted
  | equivalent undivided member granted =>
    exact .equivalent (undivided.persists within known.2) (within.equivalentTo _ member) granted

theorem Follows.persists {q : Query} (known : o.Knowable q) (follows : o.Follows q) : o'.Follows q :=
  follows.induct wf (fun _ known warrants => .of_warrants (warrants.persists wf wf' within known)) known

end Monotony

theorem Knowable.persists {q : Query} (known : o.Knowable q) (within : o.Within o') : o'.Knowable q := by
  cases q with
  | subsumed c d => exact ⟨within.knows known.1, within.knows known.2⟩
  | member i d => exact ⟨within.knows known.1, within.knows known.2⟩

/-- Whether a second ontology holds the same as a first one of all that the first one
knows, up to the signatures of relations, which no rule looks at. -/
structure Alike (o o' : Ontology) : Prop where
  within : o.Within o'
  concept : ∀ {c}, o.Knows (.concept c) → o'.thing? c.id = o.thing? c.id
  individual : ∀ {i}, o.Knows (.individual i) → o'.thing? i.id = o.thing? i.id

theorem Grows.alike (grows : o.Grows o') : o.Alike o' := by
  have within := grows.within
  cases grows with
  | same => exact ⟨within, fun _ => rfl, fun _ => rfl⟩
  | @added entry =>
    have old : ∀ n ≤ o.size, (o.adding entry).thing? n = o.thing? n := by
      intro n below
      rw [adding_thing?, if_neg (by omega)]
    exact ⟨within, fun known => old _ known.bounds.2, fun known => old _ known.bounds.2⟩
  | @signed r domain range known =>
    have positive : 1 ≤ r.id := known.bounds.1
    obtain ⟨name, named⟩ := known
    obtain ⟨supers, signature, atR⟩ := relationName?_eq_some.mp named
    refine ⟨within, fun known => ?_, fun known => ?_⟩
    · obtain ⟨e, made⟩ := known
      obtain ⟨isA, equivalentTo, found⟩ := expression?_eq_some.mp made
      rw [changing_thing? positive, if_neg]
      intro same
      cases atR.symm.trans (same ▸ found)
    · obtain ⟨name, named⟩ := known
      obtain ⟨types, found⟩ := individualName?_eq_some.mp named
      rw [changing_thing? positive, if_neg]
      intro same
      cases atR.symm.trans (same ▸ found)

namespace Alike

variable (alike : o.Alike o')
include alike

theorem isA (known : o.Knows (.concept c)) : o'.isA c = o.isA c := by
  unfold Ontology.isA
  rw [alike.concept known]

theorem equivalentTo (known : o.Knows (.concept c)) : o'.equivalentTo c = o.equivalentTo c := by
  unfold Ontology.equivalentTo
  rw [alike.concept known]

theorem told (known : o.Knows (.concept c)) : o'.told c = o.told c := by
  unfold Ontology.told
  rw [alike.isA known, alike.equivalentTo known]

theorem types {i : IndividualId} (known : o.Knows (.individual i)) : o'.types i = o.types i := by
  unfold Ontology.types
  rw [alike.individual known]

theorem toldPath (wf : o.WellFormed) (known : o.Knows (.concept c)) {n : Nat}
    (path : Relation.TransGen o'.ToldEdge c.id n) :
    Relation.TransGen o.ToldEdge c.id n ∧ o.Knows (.concept ⟨n⟩) := by
  induction path with
  | single edge =>
    obtain ⟨p, told, rfl⟩ := List.mem_map.mp edge
    rw [alike.told known] at told
    exact ⟨.single (List.mem_map_of_mem told), wf.told_known told⟩
  | tail _ edge ih =>
    obtain ⟨p, told, rfl⟩ := List.mem_map.mp edge
    rw [alike.told ih.2] at told
    exact ⟨.tail ih.1 (List.mem_map_of_mem told), wf.told_known told⟩

theorem superPath (wf : o.WellFormed) (known : o.Knows (.relation r)) {n : Nat}
    (path : Relation.TransGen o'.SuperEdge r.id n) :
    Relation.TransGen o.SuperEdge r.id n ∧ o.Knows (.relation ⟨n⟩) := by
  induction path with
  | single edge =>
    obtain ⟨p, super, rfl⟩ := List.mem_map.mp edge
    rw [alike.within.supers_eq known] at super
    exact ⟨.single (List.mem_map_of_mem super), wf.supers_known super⟩
  | tail _ edge ih =>
    obtain ⟨p, super, rfl⟩ := List.mem_map.mp edge
    rw [alike.within.supers_eq ih.2] at super
    exact ⟨.tail ih.1 (List.mem_map_of_mem super), wf.supers_known super⟩

variable (wf : o.WellFormed) (wf' : o'.WellFormed)
include wf wf'

theorem above (known : o.Knows (.concept c)) :
    (o'.above c).contains d.id = (o.above c).contains d.id := by
  refine Bool.eq_iff_iff.mpr ⟨fun above => ?_, above_persists wf wf' alike.within⟩
  exact wf.above_iff.mpr (alike.toldPath wf known (wf'.above_iff.mp above)).1

theorem isSubRelation (known : o.Knows (.relation r)) : o'.isSubRelation r s = o.isSubRelation r s := by
  refine Bool.eq_iff_iff.mpr ⟨fun sub => ?_, isSubRelation_persists wf wf' alike.within⟩
  exact wf.isSubRelation_iff.mpr
    ((wf'.isSubRelation_iff.mp sub).imp_right fun path => (alike.superPath wf known path).1)

section Steps

variable {m : Type → Type} [Monad m] {ask : Query → m Bool} {noting : Query → m Bool → m Bool}

theorem byForm {l e : Expression} (left : o.expression? c = some l) (right : o.expression? d = some e) :
    o'.byForm ask l e = o.byForm ask l e := by
  unfold Ontology.byForm
  split
  · rfl
  · rename_i q r x p s y
    rw [alike.isSubRelation wf wf' (wf.relation_known left),
      alike.isSubRelation wf wf' (wf.relation_known right)]
  · rfl

theorem byTelling (known : o.Knowable (.subsumed c d)) : o'.byTelling ask c d = o.byTelling ask c d := by
  unfold Ontology.byTelling
  rw [alike.above wf wf' known.1, alike.told known.1, alike.equivalentTo known.2]

theorem decideSubsumed (known : o.Knowable (.subsumed c d)) :
    o'.decideSubsumed ask c d = o.decideSubsumed ask c d := by
  have within := alike.within
  have right' := within.expression?_eq known.2
  rcases o.split_cases c d with ⟨ds, right⟩ | ⟨apart, ⟨cs, left⟩ | ⟨is, left⟩⟩ | unsplit
  · rw [decideSubsumed_toConjunction right, decideSubsumed_toConjunction (within.expression? right)]
  · have apart' : ∀ ds, o'.expression? d ≠ some (.conjunction ds) := by rwa [right']
    rw [decideSubsumed_ofDisjunction apart left, decideSubsumed_ofDisjunction apart' (within.expression? left)]
  · have apart' : ∀ ds, o'.expression? d ≠ some (.conjunction ds) := by rwa [right']
    rw [decideSubsumed_ofNominal apart left, decideSubsumed_ofNominal apart' (within.expression? left)]
  · obtain ⟨l, left⟩ := known.1
    obtain ⟨e, right⟩ := known.2
    rw [decideSubsumed_unsplit unsplit, decideSubsumed_unsplit (unsplit.persists within known),
      alike.byTelling wf wf' known, left, right, within.expression? left, within.expression? right]
    dsimp only
    rw [alike.byForm wf wf' left right]

omit wf wf' in
theorem decideMember {i : IndividualId} (known : o.Knowable (.member i d)) :
    o'.decideMember ask i d = o.decideMember ask i d := by
  unfold Ontology.decideMember
  rw [alike.types known.1, alike.equivalentTo known.2]

theorem step {q : Query} (known : o.Knowable q) : o'.step ask noting q = o.step ask noting q := by
  cases q with
  | subsumed c d =>
    dsimp only [Ontology.step]
    rw [alike.decideSubsumed wf wf' known]
  | member i d =>
    dsimp only [Ontology.step]
    rw [alike.decideMember known, alike.within.expression?_eq known.2]

end Steps

theorem search (fuel : Nat) {q : Query} (known : o.Knowable q) : o'.search fuel q = o.search fuel q := by
  induction fuel generalizing q with
  | zero => rfl
  | succ fuel ih =>
    have related : o.step (o'.search fuel) Notes.noting q = o.step (o.search fuel) Notes.noting q := by
      refine step_related respects_eq (fun p descends => ih (descends.knowable wf known))
        fun x y first second => ?_
      exact congrArg _ (first.related respects_eq (fun p asks => ih (asks.knowable wf known)) second)
    exact (alike.step wf wf' known).trans related

/-- What is kept alike is answered alike. The larger ontology is searched more deeply,
which makes no difference. -/
theorem answer {q : Query} (known : o.Knowable q) : o'.answer q = o.answer q := by
  have deeper : o.searchDepth ≤ o'.searchDepth := by
    have larger := alike.within.size_le
    exact Nat.mul_le_mul (Nat.succ_le_succ (Nat.mul_le_mul larger larger)) (Nat.add_le_add_right larger 2)
  unfold Ontology.answer
  rw [alike.search wf wf' _ known, search_deep_enough wf known deeper]

end Alike

/-- What becomes of answers of yes when an ontology is built further. They stay unless
they are missed from then on, since what followed still follows. Only calls that tell
something can do that, and only where the search can come back to a query that it is in
the midst of. -/
theorem affirms_after_iff {name : String} (reached : Reached name o) {call : Call} {a : Answer}
    (done : call.perform.run o = .ok a o') :
    (∀ q, o.Affirms q → (o'.Affirms q ↔ ¬o'.Misses q)) ∧
      (call.tells = false → ∀ q b, o.Answers b q → o'.Answers b q) ∧
      ∀ q, o.Affirms q → o'.Misses q → o'.Circles q := by
  have wf := reached.wellFormed
  have after : call.after o = o' := by
    unfold Call.after
    rw [done]
  have evolves := call.after_evolves wf
  rw [after] at evolves
  have wf' := wf.evolve evolves
  refine ⟨fun q affirms => ?_, fun quiet q b answers => ?_, fun q affirms misses => ?_⟩
  · have known := (affirms_iff.mp affirms).1
    have follows := ((affirms_iff_follows wf known).mp affirms).1
    have follows' := follows.persists wf wf' evolves.within known
    exact (affirms_iff_follows wf' (known.persists evolves.within)).trans (and_iff_right follows')
  · have grows := Call.after_grows wf quiet
    rw [after] at grows
    obtain ⟨known, same⟩ := answers_iff.mp answers
    exact answers_iff.mpr ⟨known.persists grows.within, (grows.alike.answer wf wf' known).trans same⟩
  · exact misses.circles wf' ((affirms_iff.mp affirms).1.persists evolves.within)

/-- A concept with a part of its own, told to be the same as a conjunction, and the
disjunction of the two. -/
def ladder : Ontology :=
  (initial "Thing").afterAll
    [.createConcept "A" [], .createConcept "B" [⟨2⟩], .createConcept "D" [], .createConcept "E" [],
      .conjunction [⟨4⟩, ⟨5⟩], .addEquivalence (.concept ⟨2⟩) ⟨6⟩, .disjunction [⟨2⟩, ⟨3⟩]]

theorem ladder_told : (Call.addIsA (.concept ⟨2⟩) ⟨3⟩).perform.run ladder =
    .ok .done (ladder.changing 2 (.tellIsA ⟨3⟩)) :=
  (Building.addIsA_concept_yields ⟨2⟩ ⟨3⟩).map.1 (by decide +kernel)

theorem ladder_affirms_after_iff :
    ∃ o', (Call.addIsA (.concept ⟨2⟩) ⟨3⟩).perform.run ladder = .ok .done o' ∧
      ladder.Affirms (.subsumed ⟨7⟩ ⟨4⟩) ∧
      (o'.Affirms (.subsumed ⟨7⟩ ⟨4⟩) ↔ ¬o'.Misses (.subsumed ⟨7⟩ ⟨4⟩)) := by
  have reached : Reached "Thing" ladder := .afterAll .initial _
  have affirms : ladder.Affirms (.subsumed ⟨7⟩ ⟨4⟩) := by decide +kernel
  exact ⟨_, ladder_told, affirms, (affirms_after_iff reached ladder_told).1 _ affirms⟩

/-- Once the concept is told to be a part of its part, the disjunction is said not to lie
within an operand of the conjunction any more. -/
theorem ladder_retracted : Reached "Thing" ladder ∧ ladder.Answers true (.subsumed ⟨7⟩ ⟨4⟩) ∧
    ∃ o', (Call.addIsA (.concept ⟨2⟩) ⟨3⟩).perform.run ladder = .ok .done o' ∧
      o'.Answers false (.subsumed ⟨7⟩ ⟨4⟩) :=
  ⟨.afterAll .initial _, by decide +kernel, _, ladder_told, by decide +kernel⟩

end Ontology

end ConceptLogic
