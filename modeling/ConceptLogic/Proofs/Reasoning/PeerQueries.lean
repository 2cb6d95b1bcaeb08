import ConceptLogic.Proofs.Reasoning.PeerConcepts

namespace ConceptLogic

/-- Whether two queries ask about concepts on the same levels, and memberships of one individual. -/
def Query.Peer (level : ConceptId → Nat) : Query → Query → Prop
  | .subsumed c d, .subsumed c' d' => level c' = level c ∧ level d' = level d
  | .member i d, .member i' d' => i' = i ∧ level d' = level d
  | _, _ => False

namespace Ontology

variable {o : Ontology} {level : ConceptId → Nat} {c c' d d' e p r x : ConceptId} {q v : Query}

namespace Arranged

variable (arranged : o.Arranged level) (wf : o.WellFormed)
include arranged wf

/-- Whatever has been defined as something lies under all that everything lies under, and so does the
oldest concept on its level, if it is not taken apart. -/
theorem follows_of_everything (defined : o.DefinedAs c p) (known' : o.Knows (.concept c'))
    (known : o.Knows (.concept c)) (same : level c' = level c) (unsplit : o.Unsplit c' d)
    (follows : o.Follows (.subsumed top d)) : o.Follows (.subsumed c' d) := by
  obtain ⟨r, original, goes, goes'⟩ := arranged.common_origin wf known known' same
  have under : ∀ {x y}, o.DefinedAs x y → o.Follows (.subsumed x d) := fun defined =>
    .of_warrants (.told ⟨unsplit.1, defined.whole⟩ defined.top_told follows)
  rcases Relation.ReflTransGen.cases_head goes' with rfl | ⟨p', defined', _⟩
  · rcases Relation.ReflTransGen.cases_tail goes with rfl | ⟨y, _, last⟩
    · exact under defined
    · have back := List.mem_append_right (o.isA c') (arranged.told_back last)
      exact .of_warrants (.told unsplit back (under last))
  · exact under defined'

/-- What is not taken apart lies under all that another concept on its level lies under. -/
theorem follows_left (known : o.Knowable (.subsumed c d)) (known' : o.Knows (.concept c'))
    (same : level c' = level c) (whole : o.Whole c') (follows : o.Follows (.subsumed c d)) :
    o.Follows (.subsumed c' d) := by
  refine (follows.induct wf (motive := fun q => o.Follows q ∧ ∀ c d, q = .subsumed c d →
    ∀ c', o.Knows (.concept c') → level c' = level c → o.Whole c' → o.Follows (.subsumed c' d))
    (fun q known warrants => ⟨.of_warrants (warrants.mono fun _ _ => And.left), ?_⟩) known).2
    c d rfl c' known' same whole
  rintro c d rfl c' known' same whole
  have follows : o.Follows (.subsumed c d) := .of_warrants (warrants.mono fun _ _ => And.left)
  obtain ⟨r, original, goes, goes'⟩ := arranged.common_origin wf known.1 known' same
  -- What the oldest concept lies under is handed down the definitions.
  have down : c = r → (∀ ds, o.expression? d ≠ some (.conjunction ds)) → o.Follows (.subsumed c' d) := by
    rintro rfl apart
    exact goes'.follows_left apart follows
  cases warrants with
  | same =>
    by_cases own : c' = c
    · exact own ▸ follows
    by_cases conjunction : ∃ ds, o.expression? c = some (.conjunction ds)
    · obtain ⟨ds, made⟩ := conjunction
      cases goes.eq_of_made made nofun
      refine .of_warrants (.toConjunction made fun x member => ?_)
      exact goes'.follows_left ((wf.normal made).2.2 x member) (wf.follows_conjunct made member)
    · exact .of_warrants (.ancestor ⟨fun ds made => conjunction ⟨ds, made⟩, whole⟩
        (arranged.above_of_level wf known' known.1 same.symm own))
  | everything => exact .of_warrants .everything
  | toConjunction made each =>
    exact .of_warrants (.toConjunction made fun x member => (each x member).2 c x rfl c' known' same whole)
  | ofDisjunction apart made => exact down (goes.eq_of_made made nofun) apart
  | ofNominal apart made => exact down (goes.eq_of_made made nofun) apart
  | conjunct unsplit made => exact down (goes.eq_of_made made nofun) unsplit.1
  | disjunct unsplit made member granted =>
    exact .of_warrants (.disjunct ⟨unsplit.1, whole⟩ made member (granted.2 c _ rfl c' known' same whole))
  | negation made made' => exact down (goes.eq_of_made made nofun) (by simp [made'])
  | restriction made made' => exact down (goes.eq_of_made made nofun) (by simp [made'])
  | ancestor unsplit above =>
    exact .of_warrants (.ancestor ⟨unsplit.1, whole⟩
      (arranged.above_of_levels wf known.1 known' same known.2 known.2 rfl above))
  | told unsplit told granted =>
    rcases List.mem_append.mp told with base | equivalent
    · rcases arranged.original_or_defined known.1 with first | ⟨p, defined⟩
      · exact down (goes.eq_of_original first) unsplit.1
      · cases List.mem_singleton.mp (defined.base ▸ base)
        exact arranged.follows_of_everything wf defined known' known.1 same ⟨unsplit.1, whole⟩ granted.1
    · exact granted.2 _ d rfl c' known' (same.trans (arranged.stratified.equal equivalent).symm) whole
  | definition unsplit told granted =>
    exact .of_warrants (.definition ⟨unsplit.1, whole⟩ told (granted.2 c _ rfl c' known' same whole))

/-- What lies under a concept lies under every definition on its level. -/
theorem follows_right (known : o.Knowable q) (known' : o.Knows (.concept e)) (defined : o.DefinedAs e p)
    (same : level e = level q.target) (follows : o.Follows q) : o.Follows (q.onto e) := by
  refine (follows.induct wf (motive := fun q => o.Follows q ∧
    (level e = level q.target → o.Follows (q.onto e)))
    (fun q known warrants => ⟨.of_warrants (warrants.mono fun _ _ => And.left), ?_⟩) known).2 same
  intro same
  have follows : o.Follows q := .of_warrants (warrants.mono fun _ _ => And.left)
  obtain ⟨r, original, goes, goes'⟩ := arranged.common_origin wf known.target known' same
  -- What lies under the oldest concept on the level lies under all definitions that go back to it.
  have down : q.target = r → o.Follows (q.onto e) := by
    rintro rfl
    exact goes'.follows_right wf (q.onto_target.symm ▸ follows)
  have made : ∀ {x}, o.expression? q.target = some x → x.Anonymous → o.Follows (q.onto e) :=
    fun found anonymous => down (goes.eq_of_made found anonymous)
  have everything : q.target = top → o.Follows (q.onto e) := fun here =>
    down (goes.eq_of_original (here ▸ arranged.top_original wf))
  cases warrants with
  | @same d =>
    rcases Relation.ReflTransGen.cases_head goes with here | ⟨p', defined', _⟩
    · exact down here
    · by_cases own : d = e
      · exact own ▸ follows
      · exact .of_warrants (.ancestor (defined.unsplit defined'.whole)
          (arranged.above_of_level wf known.2 known' same own))
  | everything => exact everything rfl
  | toConjunction found => exact made found nofun
  | ofDisjunction _ found each =>
    exact .of_warrants (.ofDisjunction defined.undivided.1 found fun x member => (each x member).2 same)
  | ofNominal _ found each =>
    exact .of_warrants (.ofNominal defined.undivided.1 found fun i listed => (each i listed).2 same)
  | conjunct unsplit found member granted =>
    exact .of_warrants (.conjunct (defined.unsplit unsplit.2) found member (granted.2 same))
  | disjunct _ found => exact made found nofun
  | negation _ found => exact made found nofun
  | restriction _ found => exact made found nofun
  | ancestor unsplit above =>
    exact .of_warrants (.ancestor (defined.unsplit unsplit.2)
      (arranged.above_of_levels wf known.1 known.1 rfl known.2 known' same above))
  | told unsplit told granted =>
    exact .of_warrants (.told (defined.unsplit unsplit.2) told (granted.2 same))
  | definition _ told granted => exact granted.2 (same.trans (arranged.stratified.equal told).symm)
  | everyone => exact everything rfl
  | nominated _ found => exact made found nofun
  | ofConjuncts _ found => exact made found nofun
  | ofDisjunct _ found => exact made found nofun
  | type _ told granted => exact .of_warrants (.type defined.undivided told (granted.2 same))
  | equivalent _ told granted => exact granted.2 (same.trans (arranged.stratified.equal told).symm)

omit wf in
/-- What lies under a definition lies under the oldest concept on its level, if neither is taken apart. -/
theorem follows_up (goes : o.Goes d r) (loose : o.Loose (q.onto r)) (follows : o.Follows (q.onto d)) :
    o.Follows (q.onto r) := by
  induction goes using Relation.ReflTransGen.head_induction_on with
  | refl => exact follows
  | @head a b defined goes ih =>
    refine ih (Loose.follows ?_ (arranged.told_back defined) follows)
    rcases Relation.ReflTransGen.cases_head goes with rfl | ⟨p, defined', _⟩
    · exact loose
    · cases q with
      | subsumed => exact defined'.unsplit loose.2
      | member => exact defined'.undivided

/-- Queries about the same levels that rules answer by what was told are answered alike. -/
theorem follows_peer (known : o.Knowable q) (known' : o.Knowable v) (peer : q.Peer level v)
    (loose : o.Loose v) (follows : o.Follows q) : o.Follows v := by
  -- The left side is exchanged first, where there is one, and then the right side.
  have right : ∀ {q}, o.Knowable q → v = q.onto v.target → level v.target = level q.target →
      o.Follows q → o.Follows v := by
    intro q known onto same follows
    rcases arranged.original_or_defined known'.target with original | ⟨p, defined⟩
    · obtain ⟨r, _, goes, goes'⟩ := arranged.common_origin wf known.target known'.target same
      cases goes'.eq_of_original original
      rw [onto] at loose ⊢
      exact arranged.follows_up goes loose (q.onto_target.symm ▸ follows)
    · rw [onto]
      exact arranged.follows_right wf known known'.target defined same follows
  cases q with
  | subsumed c d =>
    cases v with
    | subsumed c' d' =>
      refine right (q := .subsumed c' d) ⟨known'.1, known.2⟩ rfl peer.2 ?_
      exact arranged.follows_left wf known known'.1 peer.1 loose.2 follows
    | member => exact peer.elim
  | member i d =>
    cases v with
    | subsumed => exact peer.elim
    | member i' d' =>
      obtain ⟨rfl, same⟩ := peer
      exact right known rfl same follows

end Arranged

end Ontology

end ConceptLogic
