import ConceptLogic.Proofs.Ontology.BuildingOutcomes
import ConceptLogic.Proofs.Reasoning.GroundedQueries

namespace ConceptLogic.Ontology

variable {o : Ontology} {q : Query}

/-- What the search for an answer finds: what follows without resting any query on one
that is in progress when that query is decided. -/
def Finds (o : Ontology) (q : Query) : Prop := o.Granted (o.Grounded (Busy (o.pathsOn q))) q

/-- What follows by the rules, but only by resting some query on one that is in progress
when that query is decided. -/
def Misses (o : Ontology) (q : Query) : Prop := o.Follows q ∧ ¬o.Finds q

/-- What is answered when a query is asked. -/
def Answers (o : Ontology) (b : Bool) : Query → Prop
  | .subsumed c d => (Building.isSubsumedBy c d).run o = .ok b o
  | .member i d => (Building.isInstanceOf i d).run o = .ok b o

def Affirms (o : Ontology) (q : Query) : Prop := o.Answers true q

theorem answers_iff {b : Bool} : o.Answers b q ↔ o.Knowable q ∧ o.answer q = b := by
  cases q with
  | subsumed c d => exact (Building.isSubsumedBy_yields c d).run_eq_ok_iff
  | member i d => exact (Building.isInstanceOf_yields i d).run_eq_ok_iff

theorem affirms_iff : o.Affirms q ↔ o.Knowable q ∧ o.answer q = true := answers_iff

instance (o : Ontology) (b : Bool) : DecidablePred (o.Answers b) :=
  fun _ => decidable_of_iff _ answers_iff.symm

instance (o : Ontology) : DecidablePred o.Affirms :=
  inferInstanceAs (DecidablePred (o.Answers true))

theorem affirms_iff_finds (wf : o.WellFormed) (known : o.Knowable q) : o.Affirms q ↔ o.Finds q := by
  rw [affirms_iff, and_iff_right known]
  exact answer_iff wf known

/-- What is answered yes follows, and what follows is answered yes unless it is missed. -/
theorem affirms_iff_follows (wf : o.WellFormed) (known : o.Knowable q) :
    o.Affirms q ↔ o.Follows q ∧ ¬o.Misses q := by
  rw [affirms_iff_finds wf known]
  constructor
  · intro finds
    exact ⟨finds.follows fun _ => Grounded.follows, fun misses => misses.2 finds⟩
  · rintro ⟨follows, notMissed⟩
    exact by_contra fun missed => notMissed ⟨follows, missed⟩

/-- Whether the search for a query can come back to a query that it is in the midst of. -/
def Circles (o : Ontology) (q : Query) : Prop :=
  ∃ p, Relation.ReflTransGen o.Leads q p ∧ Relation.TransGen o.Leads p p

section Straight

variable {p r : Query}

theorem Descends.leads (path : Relation.ReflTransGen o.Descends p r) : Relation.ReflTransGen o.Leads p r :=
  Relation.ReflTransGen.mono (fun _ _ => Or.inr) _ _ path

/-- What a query leads to is not in progress when the query is decided, unless the query
leads back to itself. -/
theorem not_busy (straight : ¬Relation.TransGen o.Leads p p) (ahead : Relation.TransGen o.Leads p r) :
    ¬Busy (o.pathsOn q) p r := by
  rintro ⟨path, taken, _ | ⟨_, member⟩⟩
  · exact straight ahead
  · exact straight (ahead.trans (o.pathsOn_leading taken member))

theorem grounded_of_straight (straight : ¬Relation.TransGen o.Leads p p)
    (warrants : o.Warrants (fun r => o.Asks p r ∧ o.Granted (o.Grounded (Busy (o.pathsOn q))) r) p) :
    o.Grounded (Busy (o.pathsOn q)) p := by
  refine .step (fun r => o.Grounded (Busy (o.pathsOn q)) r ∧ ¬Busy (o.pathsOn q) p r) (fun _ => And.left)
    (fun _ => And.right) (warrants.mono fun r _ asked => ⟨asked.1, ?_⟩)
  refine asked.2.mono fun s path grounded => ⟨grounded, not_busy straight ?_⟩
  exact .head' (Or.inl asked.1) (Descends.leads path)

/-- Where no query leads back to itself, the search finds all that follows. -/
theorem granted_of_straight (wf : o.WellFormed) (none : ¬o.Circles q) (known : o.Knowable p)
    (follows : o.Follows p) (way : Relation.ReflTransGen o.Leads q p) :
    o.Granted (o.Grounded (Busy (o.pathsOn q))) p := by
  refine follows.induct wf (motive := fun p => Relation.ReflTransGen o.Leads q p →
    o.Granted (o.Grounded (Busy (o.pathsOn q))) p) (fun p _ warrants way => ?_) known way
  have straight : ¬Relation.TransGen o.Leads p p := fun back => none ⟨p, way, back⟩
  refine warrants.granted (fun own => grounded_of_straight straight ?_) fun r descends granted =>
    granted (way.tail (Or.inr descends))
  exact own.mono fun r _ ⟨asks, granted⟩ => ⟨asks, granted (way.tail (Or.inl asks))⟩

theorem Misses.circles (wf : o.WellFormed) (known : o.Knowable q) (misses : o.Misses q) : o.Circles q := by
  by_contra none
  exact misses.2 (granted_of_straight wf none known misses.1 .refl)

end Straight

end ConceptLogic.Ontology
