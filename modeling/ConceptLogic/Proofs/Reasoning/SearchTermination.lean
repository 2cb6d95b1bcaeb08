import ConceptLogic.Proofs.Ontology.ReachedOntologies
import ConceptLogic.Proofs.Reasoning.MissedQueries
import ConceptLogic.Proofs.Reasoning.ReachablePlaces

namespace ConceptLogic

/-- What a search has noted so far, and the queries that were asked in its course. -/
structure Record where
  notes : Notes
  asked : List Query

namespace Record

def start : Record := ⟨.empty, []⟩

def ask (record : Record) (q : Query) : Record := ⟨record.notes, q :: record.asked⟩

def note (record : Record) (q : Query) (b : Bool) : Record := ⟨record.notes.note q b, record.asked⟩

end Record

/-- A search that keeps a record, and that comes to nothing if it is cut short. -/
abbrev Journey := StateT Record Option

namespace Journey

/-- Finds an answer once, as a plain search does. -/
def noting (q : Query) (search : Journey Bool) : Journey Bool := do
  match (← get).notes.find? q with
  | some b => return b
  | none =>
    modify (·.note q false)
    let b ← search
    modify (·.note q b)
    return b

variable {x y : Journey Bool} {q : Query} {b : Bool} {record record' : Record}

theorem run_orM (ran : x.run record = some (b, record')) :
    (x <||> y).run record = if b = true then some (b, record') else y.run record' := by
  rw [orM, StateT.run_bind, ran]
  cases b <;> rfl

theorem run_andM (ran : x.run record = some (b, record')) :
    (x <&&> y).run record = if b = true then y.run record' else some (b, record') := by
  rw [andM, StateT.run_bind, ran]
  cases b <;> rfl

theorem run_noting_found (found : record.notes.find? q = some b) :
    (noting q x).run record = some (b, record) := by
  rw [noting, StateT.run_bind, StateT.run_get]
  change StateT.run (match record.notes.find? q with | some b => pure b | none => _) record = _
  rw [found]
  rfl

theorem run_noting_entered (missing : record.notes.find? q = none) :
    (noting q x).run record = (do
      let b ← x
      modify (·.note q b)
      return b : Journey Bool).run (record.note q false) := by
  rw [noting, StateT.run_bind, StateT.run_get]
  change StateT.run (match record.notes.find? q with | some b => pure b | none => _) record = _
  rw [missing]
  rfl

theorem run_noting_missing (missing : record.notes.find? q = none)
    (ran : x.run (record.note q false) = some (b, record')) :
    (noting q x).run record = some (b, record'.note q b) := by
  rw [run_noting_entered missing, StateT.run_bind, ran]
  rfl

/-- Whether wherever one journey comes to its end, another one comes to the same. -/
def Within (x y : Journey Bool) : Prop :=
  ∀ record b record', x.run record = some (b, record') → y.run record = some (b, record')

theorem respects_within : Respects Within where
  pure _ _ _ _ := id
  or := by
    intro x y x' y' first second record b record' ran
    cases before : x.run record with
    | none =>
      rw [orM, StateT.run_bind, before] at ran
      cases ran
    | some outcome =>
      rw [run_orM before] at ran
      rw [run_orM (first record _ _ before)]
      split
      · rwa [if_pos ‹_›] at ran
      · rw [if_neg ‹_›] at ran
        exact second _ _ _ ran
  and := by
    intro x y x' y' first second record b record' ran
    cases before : x.run record with
    | none =>
      rw [andM, StateT.run_bind, before] at ran
      cases ran
    | some outcome =>
      rw [run_andM before] at ran
      rw [run_andM (first record _ _ before)]
      split
      · rw [if_pos ‹_›] at ran
        exact second _ _ _ ran
      · rwa [if_neg ‹_›] at ran

theorem Within.noting (within : Within x y) (q : Query) : Within (noting q x) (noting q y) := by
  intro record b record' ran
  cases noted : record.notes.find? q with
  | some answer =>
    rw [run_noting_found noted] at ran ⊢
    exact ran
  | none =>
    cases inner : x.run (record.note q false) with
    | none =>
      rw [run_noting_entered noted, StateT.run_bind, inner] at ran
      cases ran
    | some outcome =>
      rw [run_noting_missing noted inner] at ran
      rw [run_noting_missing noted (within _ _ _ inner)]
      exact ran

end Journey

namespace Ontology

variable {o : Ontology} {q : Query}

/-- The search for an answer, with its record. Where a plain search that has no fuel left
supposes an answer, this one has none. -/
def journey (o : Ontology) : Nat → Query → Journey Bool
  | 0, _ => failure
  | fuel + 1, q => do
    modify (·.ask q)
    o.step (journey o fuel) Journey.noting q

/-- What an ontology is looked up for in one step of a search: the things that a query is
about, what a concept was told to be below, and the relations above those of two restrictions. -/
inductive Consults (o : Ontology) : Query → Entity → Prop
  | part {c d} : Consults o (.subsumed c d) (.concept c)
  | whole {c d} : Consults o (.subsumed c d) (.concept d)
  | individual {i d} : Consults o (.member i d) (.individual i)
  | type {i d} : Consults o (.member i d) (.concept d)
  | ancestor {c d n} : (o.above c).contains n = true → Consults o (.subsumed c d) (.concept ⟨n⟩)
  | ofPart {c d q r x s} : o.expression? c = some (.restriction q r x) → o.isSubRelation r s = true →
      Consults o (.subsumed c d) (.relation s)
  | ofWhole {c d q r x s} : o.expression? d = some (.restriction q r x) → o.isSubRelation r s = true →
      Consults o (.subsumed c d) (.relation s)

/-- Whether a search kept to what is known, in what it asked and in the pairs that it noted. -/
structure Confines (o : Ontology) (record : Record) : Prop where
  asked : ∀ q ∈ record.asked, o.Knowable q
  noted : ∀ n m b, record.notes.answers[(n, m)]? = some b → ∃ q, o.Knowable q ∧ q.key = (n, m)

theorem above_known (wf : o.WellFormed) {c : ConceptId} {n : Nat} (above : (o.above c).contains n = true) :
    o.Knows (.concept ⟨n⟩) := by
  have known : ∀ a, Edge (fun n => (o.told ⟨n⟩).map Handle.id) a n → o.Knows (.concept ⟨n⟩) := by
    intro a edge
    obtain ⟨p, told, rfl⟩ := List.mem_map.mp edge
    exact wf.told_known told
  cases reachable_sound above with
  | single edge => exact known _ edge
  | tail _ edge => exact known _ edge

theorem isSubRelation_known (wf : o.WellFormed) {r s : RelationId} (known : o.Knows (.relation r))
    (sub : o.isSubRelation r s = true) : o.Knows (.relation s) := by
  have super : ∀ a, Edge (fun n => (o.supers ⟨n⟩).map Handle.id) a s.id → o.Knows (.relation s) := by
    intro a edge
    obtain ⟨p, told, same⟩ := List.mem_map.mp edge
    cases p; cases s; cases same
    exact wf.supers_known told
  rcases Bool.or_eq_true_iff.mp sub with same | above
  · exact of_decide_eq_true same ▸ known
  · cases reachable_sound above with
    | single edge => exact super _ edge
    | tail _ edge => exact super _ edge

theorem Consults.known (wf : o.WellFormed) (known : o.Knowable q) {x : Entity} (consults : o.Consults q x) :
    o.Knows x := by
  cases consults with
  | part => exact known.1
  | whole => exact known.2
  | individual => exact known.1
  | type => exact known.2
  | ancestor above => exact above_known wf above
  | ofPart made sub => exact isSubRelation_known wf (wf.relation_known made) sub
  | ofWhole made sub => exact isSubRelation_known wf (wf.relation_known made) sub

namespace Confines

variable {record : Record}

theorem start (o : Ontology) : o.Confines .start where
  asked := nofun
  noted _ _ _ found := by cases found

theorem ask (known : o.Knowable q) (confines : o.Confines record) : o.Confines (record.ask q) :=
  ⟨List.forall_mem_cons.mpr ⟨known, confines.asked⟩, confines.noted⟩

theorem note (known : o.Knowable q) (b : Bool) (confines : o.Confines record) :
    o.Confines (record.note q b) := by
  refine ⟨confines.asked, fun n m answer found => ?_⟩
  by_cases same : q.key = (n, m)
  · exact ⟨q, known, same⟩
  · have old : record.notes.find? (.subsumed ⟨n⟩ ⟨m⟩) = some answer :=
      (Notes.find?_note_other same).symm.trans found
    exact confines.noted n m answer old

end Confines

/-- Whether a journey comes to its end as a plain search does and keeps to what is known,
wherever fewer than `count` queries are left to note. -/
def Ends (o : Ontology) (count : Nat) (x : Journey Bool) (y : StateM Notes Bool) : Prop :=
  ∀ record, o.Confines record → (o.unnoted record.notes).card < count →
    ∃ b record', x.run record = some (b, record') ∧ y.run record.notes = (b, record'.notes) ∧
      record.notes.Within record'.notes ∧ o.Confines record'

theorem respects_ends (o : Ontology) (count : Nat) : Respects (o.Ends count) where
  pure b record confines _ := ⟨b, record, rfl, rfl, .refl _, confines⟩
  or := by
    intro x y x' y' first second record confines few
    obtain ⟨b, record', ran, ran', within, confines'⟩ := first record confines few
    rw [Journey.run_orM ran, run_orM, ran']
    cases b with
    | true => exact ⟨true, record', rfl, rfl, within, confines'⟩
    | false =>
      have fewer := (Finset.card_le_card (unnoted_subset (o := o) within)).trans_lt few
      obtain ⟨b, record'', ran, ran', within', confines''⟩ := second record' confines' fewer
      exact ⟨b, record'', ran, ran', within.trans within', confines''⟩
  and := by
    intro x y x' y' first second record confines few
    obtain ⟨b, record', ran, ran', within, confines'⟩ := first record confines few
    rw [Journey.run_andM ran, run_andM, ran']
    cases b with
    | true =>
      have fewer := (Finset.card_le_card (unnoted_subset (o := o) within)).trans_lt few
      obtain ⟨b, record'', ran, ran', within', confines''⟩ := second record' confines' fewer
      exact ⟨b, record'', ran, ran', within.trans within', confines''⟩
    | false => exact ⟨false, record', rfl, rfl, within, confines'⟩

/-- What is noted on the way in leaves one query less to note, so the search inside may be one
noted query shorter. -/
theorem Ends.noting (known : o.Knowable q) {count : Nat} {x : Journey Bool} {y : StateM Notes Bool}
    (ends : o.Ends count x y) : o.Ends (count + 1) (Journey.noting q x) (Notes.noting q y) := by
  intro record confines few
  cases noted : record.notes.find? q with
  | some b =>
    rw [Journey.run_noting_found noted, Notes.run_noting_found noted]
    exact ⟨b, record, rfl, rfl, .refl _, confines⟩
  | none =>
    have less := unnoted_note_card known noted false
    obtain ⟨b, record', ran, ran', within, confines'⟩ :=
      ends (record.note q false) (confines.note known false) (less.trans_le (Nat.le_of_lt_succ few))
    have found : y.run (record.notes.note q false) = (b, record'.notes) := ran'
    rw [Journey.run_noting_missing noted ran, Notes.run_noting_missing noted, found]
    exact ⟨b, _, rfl, rfl, Notes.within_noting noted within b, confines'.note known b⟩

theorem journey_follows (wf : o.WellFormed) {fuel count : Nat} (known : o.Knowable q)
    (enough : count * (o.size + 2) + q.rank < fuel) :
    o.Ends (count + 1) (o.journey fuel q) (o.search fuel q) := by
  refine known.induct wf (motive := fun fuel count q =>
    o.Ends (count + 1) (o.journey fuel q) (o.search fuel q)) ?_ enough
  intro fuel count q known operands asked
  have ends : o.Ends (count + 1) (o.step (o.journey fuel) Journey.noting q)
      (o.step (o.search fuel) Notes.noting q) := by
    refine step_related (respects_ends o (count + 1)) operands fun x y first second => ?_
    refine Ends.noting known (first.related (respects_ends o count) (fun p asks => ?_) second)
    cases count with
    | zero => exact fun _ _ few => absurd few (Nat.not_lt_zero _)
    | succ count => exact asked count rfl p asks
  exact fun record confines few => ends (record.ask q) (confines.ask known) few

/-- A journey that has come to its end takes no more depth. -/
theorem journey_deeper (o : Ontology) (fuel : Nat) (q : Query) :
    Journey.Within (o.journey fuel q) (o.journey (fuel + 1) q) := by
  induction fuel generalizing q with
  | zero => exact fun _ _ _ ran => by cases ran
  | succ fuel ih =>
    have within : Journey.Within (o.step (o.journey fuel) Journey.noting q)
        (o.step (o.journey (fuel + 1)) Journey.noting q) := by
      refine step_related Journey.respects_within (fun p _ => ih p) fun x y first second => ?_
      exact (first.related Journey.respects_within (fun p _ => ih p) second).noting q
    exact fun record => within (record.ask q)

theorem journey_at_least {fuel depth : Nat} (deep : fuel ≤ depth) (q : Query) :
    Journey.Within (o.journey fuel q) (o.journey depth q) := by
  induction depth, deep using Nat.le_induction with
  | base => exact fun _ _ _ => id
  | succ depth _ ih => exact fun record b record' ran => o.journey_deeper depth q _ _ _ (ih _ _ _ ran)

/-- Every question about what is known comes to its end, whatever circles the ontology was told.
All journeys that are deep enough leave the same record, with the answer that is given and with what
is noted for it, and neither what they ask, nor what they look up, nor what they note is of anything
unknown. -/
theorem journey_ends {name : String} (reached : Reached name o) (known : o.Knowable q) :
    ∃ b record, (∀ depth ≥ o.searchDepth, (o.journey depth q).run .start = some (b, record)) ∧
      (o.search o.searchDepth q).run .empty = (b, record.notes) ∧ o.Answers b q ∧
      (∀ p ∈ record.asked, o.Knowable p ∧ ∀ x, o.Consults p x → o.Knows x) ∧
      ∀ n m answer, record.notes.answers[(n, m)]? = some answer →
        ∃ p, o.Knowable p ∧ p.key = (n, m) := by
  have wf := reached.wellFormed
  have few : (o.unnoted Notes.empty).card < o.size * o.size + 1 := Nat.lt_succ_of_le (unnoted_empty o)
  obtain ⟨b, record, ran, searched, _, confines⟩ :=
    journey_follows wf known known.depth .start (.start o) few
  refine ⟨b, record, fun depth deep => journey_at_least deep q _ _ _ ran, searched, ?_, fun p asked => ?_,
    confines.noted⟩
  · exact answers_iff.mpr ⟨known, congrArg Prod.fst searched⟩
  · exact ⟨confines.asked p asked, fun x => Consults.known wf (confines.asked p asked)⟩

/-- Two names below each other, one of them the same as a disjunction of a nominal and of its own
negation. The negation is the same as the other name, and the individual falls under both that name
and the disjunction. -/
def circling : Ontology :=
  (initial "Thing").afterAll
    [.createConcept "A" [], .createConcept "B" [⟨2⟩], .addIsA (.concept ⟨2⟩) ⟨3⟩,
      .createIndividual "i" ⟨2⟩, .nominal [⟨4⟩], .negation ⟨3⟩, .disjunction [⟨5⟩, ⟨6⟩],
      .addEquivalence (.concept ⟨3⟩) ⟨7⟩, .addEquivalence (.concept ⟨6⟩) ⟨2⟩,
      .addIsA (.individual ⟨4⟩) ⟨7⟩, .createConcept "C" []]

theorem circling_journey_ends : Reached "Thing" circling ∧ circling.Knowable (.subsumed ⟨7⟩ ⟨8⟩) ∧
    ∃ record, (∀ depth ≥ circling.searchDepth,
        (circling.journey depth (.subsumed ⟨7⟩ ⟨8⟩)).run .start = some (false, record)) ∧
      ∀ p ∈ record.asked, circling.Knowable p := by
  have reached : Reached "Thing" circling := .afterAll .initial _
  have known : circling.Knowable (.subsumed ⟨7⟩ ⟨8⟩) := by decide +kernel
  obtain ⟨b, record, ends, _, answers, asked, _⟩ := journey_ends reached known
  have no : circling.answer (.subsumed ⟨7⟩ ⟨8⟩) = false := by decide +kernel
  obtain rfl : b = false := (answers_iff.mp answers).2.symm.trans no
  exact ⟨reached, known, record, ends, fun p member => (asked p member).1⟩

end Ontology

end ConceptLogic
