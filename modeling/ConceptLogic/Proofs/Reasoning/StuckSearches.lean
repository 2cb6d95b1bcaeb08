import ConceptLogic.Proofs.Reasoning.PeerQueries

namespace ConceptLogic

/-- A query that is answered yes at a glance. -/
def Query.Plain : Query → Prop
  | .subsumed c d => c = d ∨ d = Ontology.top
  | .member _ d => d = Ontology.top

namespace Query.Peer

variable {level : ConceptId → Nat} {q p r : Query}

theorem refl (q : Query) : q.Peer level q := by
  cases q with
  | subsumed => exact ⟨rfl, rfl⟩
  | member => exact ⟨rfl, rfl⟩

theorem symm (peer : q.Peer level p) : p.Peer level q := by
  cases q <;> cases p
  · exact ⟨peer.1.symm, peer.2.symm⟩
  · exact peer.elim
  · exact peer.elim
  · exact ⟨peer.1.symm, peer.2.symm⟩

theorem trans (first : q.Peer level p) (second : p.Peer level r) : q.Peer level r := by
  cases q <;> cases p <;> cases r
  all_goals first
    | exact first.elim
    | exact second.elim
    | exact ⟨second.1.trans first.1, second.2.trans first.2⟩

theorem weight_eq (peer : q.Peer level p) : p.weight level = q.weight level := by
  cases q <;> cases p
  · exact congrArg₂ (· + ·) peer.1 peer.2
  · exact peer.elim
  · exact peer.elim
  · obtain ⟨rfl, same⟩ := peer
    exact congrArg (_ + ·) same

theorem target (peer : q.Peer level p) : level p.target = level q.target := by
  cases q <;> cases p
  · exact peer.2
  · exact peer.elim
  · exact peer.elim
  · exact peer.2

theorem onto (peer : q.Peer level p) {d : ConceptId} (same : level d = level p.target) :
    q.Peer level (p.onto d) := by
  cases q <;> cases p
  · exact ⟨peer.1, same.trans peer.2⟩
  · exact peer.elim
  · exact peer.elim
  · exact ⟨peer.1, same.trans peer.2⟩

end Query.Peer

namespace Ontology

variable {o : Ontology} {level : ConceptId → Nat} {V : Query → Prop} {q p r v : Query} {b c d e k : ConceptId}

/-- What a query asks about what was told of its left side. -/
def firsts (o : Ontology) : Query → List Query
  | .subsumed c d => (o.told c).map (.subsumed · d)
  | .member i d => (o.types i).map (.subsumed · d)

/-- What a query asks by what was told of its right side. -/
def seconds (o : Ontology) (q : Query) : List Query := (o.equivalentTo q.target).map q.onto

/-- What a query asks, in this order, if nothing else shows that it is so. -/
def tellings (o : Ontology) (q : Query) : List Query := o.firsts q ++ o.seconds q

/-- Whether nothing that weighs less shows that a query is so. -/
def Exhausted (o : Ontology) (level : ConceptId → Nat) (q : Query) : Prop :=
  ¬o.Warrants (fun p => o.Follows p ∧ p.weight level < q.weight level) q

/-- Whether a query is led on by what was told, over queries of a certain kind, to one where it goes no
further. On the way nothing is passed over that follows and is not of that kind. -/
inductive Onward (o : Ontology) (V : Query → Prop) : Query → Prop
  | stop {v : Query} : V v → (∀ r ∈ o.tellings v, o.Follows r → V r) → Onward o V v
  | next {v n : Query} {l rest : List Query} : V v → o.tellings v = l ++ n :: rest →
      (∀ r ∈ l, o.Follows r → V r) → Onward o V n → Onward o V v

/-- The queries of one kind that a search has been through, in vain so far, with no way on. -/
structure Stuck (o : Ontology) (level : ConceptId → Nat) (q : Query) (V : Query → Prop) : Prop where
  start : V q
  known : ∀ {v}, V v → o.Knowable v
  peer : ∀ {v}, V v → q.Peer level v
  loose : ∀ {v}, V v → o.Loose v
  notPlain : ∀ {v}, V v → ¬v.Plain
  exhausted : ∀ {v}, V v → o.Exhausted level v
  onward : ∀ {v}, V v → o.Onward V v

theorem Onward.holds (onward : o.Onward V v) : V v := by
  cases onward with
  | stop here => exact here
  | next here => exact here

theorem target_of_first (first : r ∈ o.firsts q) : r.target = q.target := by
  cases q with
  | subsumed =>
    obtain ⟨_, _, rfl⟩ := List.mem_map.mp first
    rfl
  | member =>
    obtain ⟨_, _, rfl⟩ := List.mem_map.mp first
    rfl

/-- On each row that is entered, some query has been told all of its left side, and the first of what
was told of its right side. -/
theorem Onward.row (onward : o.Onward V v) : ∃ w, V w ∧ w.target = v.target ∧
    (∀ r ∈ o.firsts w, o.Follows r → V r) ∧
      ∀ k rest, o.equivalentTo w.target = k :: rest → o.Follows (w.onto k) → V (w.onto k) := by
  induction onward with
  | @stop v here tried =>
    refine ⟨v, here, rfl, fun r first => tried r (List.mem_append_left _ first), fun k rest head => ?_⟩
    refine tried _ (List.mem_append_right _ ?_)
    rw [seconds, head]
    exact List.mem_cons_self ..
  | @next v n l rest here split tried onward ih =>
    rcases List.append_eq_append_iff.mp split with ⟨between, before, after⟩ | ⟨between, before, after⟩
    · refine ⟨v, here, rfl, fun r first => tried r (before ▸ List.mem_append_left _ first),
        fun k others head => ?_⟩
      rw [seconds, head, List.map_cons] at after
      cases between with
      | nil =>
        obtain ⟨rfl, _⟩ := List.cons.inj after
        exact fun _ => onward.holds
      | cons b between =>
        obtain ⟨rfl, _⟩ := List.cons.inj after
        exact tried _ (before ▸ List.mem_append_right _ (List.mem_cons_self ..))
    · cases between with
      | nil =>
        refine ⟨v, here, rfl, fun r first => tried r ?_, fun k others head => ?_⟩
        · rwa [before, List.append_nil] at first
        · rw [seconds, head, List.map_cons] at after
          obtain ⟨rfl, _⟩ := List.cons.inj after
          exact fun _ => onward.holds
      | cons b between =>
        obtain ⟨rfl, _⟩ := List.cons.inj after
        have first : n ∈ o.firsts v := before ▸ List.mem_append_right _ (List.mem_cons_self ..)
        obtain ⟨w, there, same, rest⟩ := ih
        exact ⟨w, there, same.trans (target_of_first first), rest⟩

namespace Stuck

section Rows

variable (stuck : o.Stuck level q V) (arranged : o.Arranged level) (wf : o.WellFormed) (follows : o.Follows q)
include stuck arranged wf follows

/-- What is told of queries of the kind follows if it is about the same levels and not taken apart. -/
theorem peers (known : o.Knowable r) (peer : q.Peer level r) (loose : o.Loose r) : o.Follows r :=
  arranged.follows_peer wf (stuck.known stuck.start) known peer loose follows

/-- From a definition the search has gone on to what it was defined as, and so to the oldest concept on
the level. -/
theorem climbs (goes : o.Goes c b) (original : o.Original level b) (known : o.Knows (.concept b)) :
    V (.subsumed c d) → o.Follows (.subsumed b d) → V (.subsumed b d) := by
  intro here shown
  induction goes using Relation.ReflTransGen.head_induction_on with
  | refl => exact here
  | @head c p defined goes ih =>
    obtain ⟨rest, first⟩ := defined.first
    have told : o.tellings (.subsumed c d) =
        .subsumed top d :: .subsumed p d :: (rest.map (.subsumed · d) ++ o.seconds (.subsumed c d)) := by
      simp [tellings, firsts, Ontology.told, defined.base, first]
    have on : V (.subsumed top d) ∨ (o.Follows (.subsumed p d) → V (.subsumed p d)) := by
      cases stuck.onward here with
      | stop _ tried => exact .inr (tried _ (by simp [told]))
      | @next _ n l rest' _ split tried onward =>
        rw [told] at split
        match l with
        | [] =>
          obtain ⟨rfl, _⟩ := List.cons.inj split
          exact .inl onward.holds
        | [first] =>
          obtain ⟨rfl, same⟩ := List.cons.inj split
          obtain ⟨rfl, _⟩ := List.cons.inj same
          exact .inr fun _ => onward.holds
        | first :: second :: l =>
          obtain ⟨rfl, same⟩ := List.cons.inj split
          obtain ⟨rfl, _⟩ := List.cons.inj same
          exact .inr (tried _ (List.mem_cons_of_mem _ (List.mem_cons_self ..)))
    rcases on with everything | on
    -- On the level of everything, what a definition is told first is the oldest concept itself.
    · have levels := ((stuck.peer here).symm.trans (stuck.peer everything)).1
      have same := levels.trans ((arranged.level_of_defined defined).symm.trans
        (arranged.level_of_goes goes).symm)
      cases arranged.original_unique wf.top_known known (arranged.top_original wf) original same
      exact everything
    · refine ih (on ?_)
      rcases Relation.ReflTransGen.cases_head goes with rfl | ⟨k, defined', _⟩
      · exact shown
      · have loose := stuck.loose here
        have asked := stuck.known here
        refine stuck.peers arranged wf follows
          ⟨wf.equivalentTo_known defined.mem_equivalentTo, asked.2⟩ ?_ ⟨loose.1, defined'.whole⟩
        exact (stuck.peer here).trans ⟨arranged.level_of_defined defined, rfl⟩

/-- The search has come to the row of the oldest concept on the right side, unless that row is shut. -/
theorem rises (goes : o.Goes d b) :
    ∀ v, V v → v.target = d → ∃ w, V w ∧ (w.target = b ∨ ¬o.Follows (w.onto b)) := by
  induction goes using Relation.ReflTransGen.head_induction_on with
  | refl => exact fun v here same => ⟨v, here, .inl same⟩
  | @head d p defined goes ih =>
    rintro v here rfl
    obtain ⟨w, there, same, _, first⟩ := (stuck.onward here).row
    obtain ⟨rest, head⟩ := defined.first
    by_cases shown : o.Follows (w.onto p)
    · refine ih (w.onto p) (first p rest (same ▸ head) shown) ?_
      cases w <;> rfl
    · refine ⟨w, there, .inr ?_⟩
      rcases Relation.ReflTransGen.cases_head goes with rfl | ⟨k, defined', _⟩
      · exact shown
      · refine absurd (stuck.peers arranged wf follows ?_ ?_ (defined'.loose (stuck.loose there))) shown
        · exact (stuck.known there).onto (wf.equivalentTo_known defined.mem_equivalentTo)
        · exact (stuck.peer there).onto (same ▸ arranged.level_of_defined defined)

/-- If there are definitions on the level of the right side, the search has come to one of them. -/
theorem sinks (known : o.Knows (.concept e)) (defined : o.DefinedAs e k) (same : level e = level q.target) :
    ∃ v d p, V v ∧ v.target = d ∧ o.DefinedAs d p := by
  have target := (stuck.known stuck.start).target
  rcases arranged.original_or_defined target with original | ⟨p, defined'⟩
  · obtain ⟨r, _, goes, goes'⟩ := arranged.common_origin wf target known same
    cases goes.eq_of_original original
    rcases Relation.ReflTransGen.cases_tail goes' with rfl | ⟨y, _, last⟩
    · exact absurd original defined.not_original
    have back := arranged.told_back last
    obtain ⟨w, there, row, _, first⟩ := (stuck.onward stuck.start).row
    cases head : o.equivalentTo w.target with
    | nil =>
      rw [row] at head
      rw [head] at back
      cases back
    | cons f rest =>
      have told : f ∈ o.equivalentTo q.target := row ▸ head ▸ List.mem_cons_self ..
      have atF := wf.equivalentTo_known told
      have levels := arranged.stratified.equal told
      obtain ⟨p, defined'⟩ := (arranged.original_or_defined atF).resolve_left fun oldest => by
        cases arranged.original_unique target atF original oldest levels.symm
        exact absurd (original.younger _ told) (Nat.lt_irrefl _)
      refine ⟨w.onto f, f, p, first f rest head ?_, by cases w <;> rfl, defined'⟩
      refine stuck.peers arranged wf follows ?_ ?_ (defined'.loose (stuck.loose there))
      · exact (stuck.known there).onto atF
      · exact (stuck.peer there).onto (row ▸ levels)
  · exact ⟨q, q.target, p, stuck.start, rfl, defined'⟩

/-- The search has come to the row of the oldest concept on the level, if all that it could ask about that
concept follows. -/
theorem comes (known : o.Knows (.concept d)) (original : o.Original level d) (same : level d = level q.target)
    (shown : ∀ v, V v → o.Follows (v.onto d)) : ∃ v, V v ∧ v.target = d := by
  obtain ⟨b, _, goes, goes'⟩ := arranged.common_origin wf (stuck.known stuck.start).target known same
  cases goes'.eq_of_original original
  obtain ⟨w, there, row | shut⟩ := stuck.rises arranged wf follows goes q stuck.start rfl
  · exact ⟨w, there, row⟩
  · exact absurd (shown w there) shut

/-- Whatever follows about a concept on the level of the right side follows about one that the search
has come to, if nothing shuts the search out. -/
theorem lands (known : o.Knowable r) (same : level r.target = level q.target)
    (loose : ∀ v, V v → o.Loose (v.onto r.target)) (shown : o.Follows r) :
    ∃ v, V v ∧ o.Follows (r.onto v.target) := by
  rcases arranged.original_or_defined known.target with original | ⟨p, defined⟩
  · obtain ⟨w, there, row⟩ := stuck.comes arranged wf follows known.target original same fun v here =>
      stuck.peers arranged wf follows ((stuck.known here).onto known.target)
        ((stuck.peer here).onto (same.trans (stuck.peer here).target.symm)) (loose v here)
    refine ⟨w, there, ?_⟩
    rw [row, Query.onto_target]
    exact shown
  · obtain ⟨v, d, k, there, rfl, defined'⟩ := stuck.sinks arranged wf follows known.target defined same
    refine ⟨v, there, arranged.follows_right wf known (stuck.known there).target defined' ?_ shown⟩
    exact (stuck.peer there).target.trans same.symm

end Rows

section Subsumption

variable {c₀ d₀ x : ConceptId} (stuck : o.Stuck level (.subsumed c₀ d₀) V) (arranged : o.Arranged level)
  (wf : o.WellFormed) (follows : o.Follows (.subsumed c₀ d₀))
include stuck arranged wf follows

omit arranged wf follows in
theorem subsumption (here : V v) : ∃ c d, v = .subsumed c d ∧ level c = level c₀ ∧ level d = level d₀ ∧
    o.Unsplit c d := by
  have peer := stuck.peer here
  have loose := stuck.loose here
  cases v with
  | subsumed c d => exact ⟨c, d, rfl, peer.1, peer.2, loose⟩
  | member => exact peer.elim

omit follows in
/-- What follows of one left side follows of all that the search has come to on its level. -/
theorem left (known : o.Knowable (.subsumed c x)) (same : level c = level c₀)
    (shown : o.Follows (.subsumed c x)) (here : V v) : o.Follows (v.onto x) := by
  obtain ⟨c', d', rfl, levels, _, unsplit⟩ := stuck.subsumption here
  exact arranged.follows_left wf known (stuck.known here).1 (levels.trans same.symm) unsplit.2 shown

/-- On each row that the search has come to, it has come to the oldest concept on the level of the left
side. -/
theorem climbs_to (known : o.Knows (.concept c)) (same : level c = level c₀) (original : o.Original level c)
    (here : V (.subsumed e d)) (shown : o.Follows (.subsumed c d)) : V (.subsumed c d) := by
  have levels := (stuck.peer here).1
  obtain ⟨b, _, goes, goes'⟩ := arranged.common_origin wf (stuck.known here).1 known (same.trans levels.symm)
  cases goes'.eq_of_original original
  exact stuck.climbs arranged wf follows goes original known here shown

variable (known : o.Knowable (.subsumed c d)) (same : level c = level c₀) (same' : level d = level d₀)
include known same same'

theorem comes_to (original : o.Original level d) (shown : o.Follows (.subsumed c d)) :
    ∃ e, V (.subsumed e d) := by
  obtain ⟨v, here, row⟩ := stuck.comes arranged wf follows known.2 original same' fun v here =>
    stuck.left arranged wf known same shown here
  obtain ⟨e, _, rfl, _⟩ := stuck.subsumption here
  cases row
  exact ⟨e, here⟩

omit known same in
theorem lands_on (known : o.Knowable (.subsumed x d)) (apart : ∀ ds, o.expression? d ≠ some (.conjunction ds))
    (shown : o.Follows (.subsumed x d)) : ∃ e k, V (.subsumed e k) ∧ o.Follows (.subsumed x k) := by
  have loose : ∀ v, V v → o.Loose (v.onto d) := by
    intro v here
    obtain ⟨e, k, rfl, _, _, unsplit⟩ := stuck.subsumption here
    exact ⟨apart, unsplit.2⟩
  obtain ⟨v, here, shown'⟩ := stuck.lands arranged wf follows known same' loose shown
  obtain ⟨e, k, rfl, _⟩ := stuck.subsumption here
  exact ⟨e, k, here, shown'⟩

/-- The search has come to no row where something lighter shows it for the oldest concept on the level of the
left side. -/
theorem no_exit (original : o.Original level c) (whole : o.Whole c)
    (apart : ∀ ds, o.expression? d ≠ some (.conjunction ds)) (atX : o.Knows (.concept x))
    (lighter : level x < level c)
    (rule : ∀ k (given : Query → Prop), o.Unsplit c k → given (.subsumed x k) →
      o.Warrants given (.subsumed c k))
    (shown : o.Follows (.subsumed x d)) : False := by
  obtain ⟨e, k, here, shown'⟩ := stuck.lands_on arranged wf follows same' ⟨atX, known.2⟩ apart shown
  have unsplit : o.Unsplit c k := ⟨(stuck.loose here).1, whole⟩
  have there := stuck.climbs_to arranged wf follows known.1 same original here
    (.of_warrants (rule k _ unsplit shown'))
  exact stuck.exhausted there (rule k _ unsplit ⟨shown', Nat.add_lt_add_right lighter _⟩)

/-- What a definition is told first, that it lies under everything, shows nothing either. -/
theorem no_everything (defined : o.DefinedAs c k) (lighter : level top < level c)
    (apart : ∀ ds, o.expression? d ≠ some (.conjunction ds)) (shown : o.Follows (.subsumed top d)) : False := by
  obtain ⟨e, k, here, shown'⟩ :=
    stuck.lands_on arranged wf follows same' ⟨wf.top_known, known.2⟩ apart shown
  have none : ∀ {y p}, V (.subsumed y k) → o.DefinedAs y p → False := fun {y p} there defined => by
    refine stuck.exhausted there (.told (stuck.loose there) defined.top_told ⟨shown', ?_⟩)
    exact Nat.add_lt_add_right (lighter.trans_eq (same.trans (stuck.peer there).1.symm)) _
  obtain ⟨w, there, row, tried, _⟩ := (stuck.onward here).row
  obtain ⟨y, _, rfl, levels, _, unsplit⟩ := stuck.subsumption there
  cases row
  obtain ⟨b, _, goes, goes'⟩ :=
    arranged.common_origin wf known.1 (stuck.known there).1 (levels.trans same.symm)
  rcases Relation.ReflTransGen.cases_head goes' with rfl | ⟨p, defined', _⟩
  -- The oldest concept was told the definitions that it was the first to be named by.
  · rcases Relation.ReflTransGen.cases_tail goes with rfl | ⟨z, _, last⟩
    · exact none there defined
    · refine none (tried (.subsumed z k) (List.mem_map_of_mem ?_) ?_) last
      · exact List.mem_append_right _ (arranged.told_back last)
      · exact .of_warrants (.told ⟨unsplit.1, last.whole⟩ last.top_told shown')
  · exact none there defined'

theorem no_subsumption (warrants : o.Warrants (fun p => o.Follows p ∧
    ¬(Query.subsumed c₀ d₀).Peer level p) (.subsumed c d)) : False := by
  have shown : o.Follows (.subsumed c d) := .of_warrants (warrants.mono fun _ _ => And.left)
  have made : ∀ {e}, o.expression? d = some e → e.Anonymous → ∃ y, V (.subsumed y d) := fun found anonymous =>
    stuck.comes_to arranged wf follows known same same' (arranged.made_original found anonymous) shown
  -- Where the left side is taken apart, the search would have done the same on a row that it has come to.
  have split : (∀ ds, o.expression? d ≠ some (.conjunction ds)) → o.Original level c → o.Whole c := by
    intro apart original
    obtain ⟨e, k, here, shown'⟩ := stuck.lands_on arranged wf follows same' known apart shown
    exact (stuck.loose (stuck.climbs_to arranged wf follows known.1 same original here shown')).2
  have lighter : ∀ {y e x}, o.expression? y = some e → .concept x ∈ e.parts → level x < level y :=
    fun found part => arranged.stratified.operand_lt wf found part
  cases warrants with
  | same =>
    have differ : c₀ ≠ d₀ := fun here => stuck.notPlain stuck.start (.inl here)
    have asked := stuck.known stuck.start
    exact stuck.exhausted stuck.start (.ancestor (stuck.loose stuck.start)
      (arranged.above_of_level wf asked.1 asked.2 (same'.symm.trans same) differ))
  | everything =>
    obtain ⟨y, here⟩ := stuck.comes_to arranged wf follows known same same' (arranged.top_original wf) shown
    exact stuck.notPlain here (.inr rfl)
  | toConjunction found =>
    obtain ⟨y, here⟩ := made found nofun
    exact (stuck.loose here).1 _ found
  | ofDisjunction apart found => exact (split apart (arranged.made_original found nofun)).1 _ found
  | ofNominal apart found => exact (split apart (arranged.made_original found nofun)).2 _ found
  | conjunct unsplit found member granted =>
    exact stuck.no_exit arranged wf follows known same same' (arranged.made_original found nofun) unsplit.2
      unsplit.1 (wf.conjunct_known found member) (lighter found (List.mem_map_of_mem member))
      (fun k given unsplit granted => .conjunct unsplit found member granted) granted.1
  | disjunct unsplit found member granted =>
    obtain ⟨y, here⟩ := made found nofun
    have shown' := stuck.left arranged wf ⟨known.1, wf.disjunct_known found member⟩ same granted.1 here
    exact stuck.exhausted here (.disjunct (stuck.loose here) found member
      ⟨shown', Nat.add_lt_add_left (lighter found (List.mem_map_of_mem member)) _⟩)
  | negation found found' granted =>
    obtain ⟨y, here⟩ := made found' nofun
    have original := arranged.made_original found nofun
    have there := stuck.climbs_to arranged wf follows known.1 same original here shown
    exact stuck.exhausted there (.negation found found'
      ⟨granted.1, Confronts.negation.weight_lt (lighter found) (lighter found')⟩)
  | restriction found found' supports =>
    obtain ⟨y, here⟩ := made found' nofun
    have original := arranged.made_original found nofun
    have there := stuck.climbs_to arranged wf follows known.1 same original here shown
    exact stuck.exhausted there (.restriction found found' (supports.mono
      (fun how granted => ⟨granted.1, (Confronts.filler how).weight_lt (lighter found) (lighter found')⟩)
      fun how granted => ⟨granted.1, (Confronts.reversed how).weight_lt (lighter found) (lighter found')⟩))
  | ancestor unsplit above =>
    have asked := stuck.known stuck.start
    exact stuck.exhausted stuck.start (.ancestor (stuck.loose stuck.start)
      (arranged.above_of_levels wf known.1 asked.1 same.symm known.2 asked.2 same'.symm above))
  | @told _ _ p unsplit told granted =>
    have less : level p < level c := by
      refine lt_of_le_of_ne (arranged.stratified.told_le told) fun levels => granted.2 ?_
      exact ⟨levels.trans same, same'⟩
    rcases arranged.original_or_defined known.1 with original | ⟨k, defined⟩
    · exact stuck.no_exit arranged wf follows known same same' original unsplit.2 unsplit.1 (wf.told_known told)
        less (fun k given unsplit granted => .told unsplit told granted) granted.1
    · rcases List.mem_append.mp told with base | equivalent
      · cases List.mem_singleton.mp (defined.base ▸ base)
        exact stuck.no_everything arranged wf follows known same same' defined less unsplit.1 granted.1
      · exact absurd (arranged.stratified.equal equivalent) less.ne
  | definition _ told granted =>
    exact granted.2 ⟨same, (arranged.stratified.equal told).trans same'⟩

end Subsumption

section Membership

variable {i : IndividualId} {d₀ : ConceptId} (stuck : o.Stuck level (.member i d₀) V)
  (arranged : o.Arranged level) (wf : o.WellFormed) (follows : o.Follows (.member i d₀))
include stuck arranged wf follows

theorem no_membership (known : o.Knowable (.member i d)) (same : level d = level d₀)
    (warrants : o.Warrants (fun p => o.Follows p ∧ ¬(Query.member i d₀).Peer level p) (.member i d)) :
    False := by
  have shown : o.Follows (.member i d) := .of_warrants (warrants.mono fun _ _ => And.left)
  have membership : ∀ {v}, V v → ∃ k, v = .member i k ∧ o.Undivided k := by
    intro v here
    have peer := stuck.peer here
    have loose := stuck.loose here
    cases v with
    | subsumed => exact peer.elim
    | member j k =>
      cases peer.1
      exact ⟨k, rfl, loose⟩
  have comes : o.Original level d → V (.member i d) := by
    intro original
    obtain ⟨v, here, row⟩ := stuck.comes arranged wf follows known.2 original same fun v here => by
      obtain ⟨k, rfl, _⟩ := membership here
      exact shown
    obtain ⟨k, rfl, _⟩ := membership here
    cases row
    exact here
  have made : ∀ {e}, o.expression? d = some e → e.Anonymous → V (.member i d) := fun found anonymous =>
    comes (arranged.made_original found anonymous)
  cases warrants with
  | everyone => exact stuck.notPlain (comes (arranged.top_original wf)) rfl
  | nominated _ found => exact (stuck.loose (made found nofun)).2 _ found
  | ofConjuncts _ found => exact (stuck.loose (made found nofun)).1 _ found
  | ofDisjunct notTop found member granted =>
    refine stuck.exhausted (made found nofun) (.ofDisjunct notTop found member ⟨granted.1, ?_⟩)
    exact Nat.add_lt_add_left (arranged.stratified.operand_lt wf found (List.mem_map_of_mem member)) _
  | type undivided told granted =>
    have loose : ∀ v, V v → o.Loose (v.onto d) := by
      intro v here
      obtain ⟨k, rfl, _⟩ := membership here
      exact undivided
    have asked : o.Knowable (.subsumed _ d) := ⟨wf.types_known told, known.2⟩
    obtain ⟨v, here, shown'⟩ := stuck.lands arranged wf follows asked same loose granted.1
    obtain ⟨k, rfl, undivided'⟩ := membership here
    exact stuck.exhausted here (.type undivided' told
      ⟨shown', Nat.add_lt_add_right (arranged.stratified.type_lt told) _⟩)
  | equivalent _ told granted => exact granted.2 ⟨rfl, (arranged.stratified.equal told).trans same⟩

end Membership

/-- A search that is stuck would have found what follows. -/
theorem not_follows (stuck : o.Stuck level q V) (arranged : o.Arranged level) (wf : o.WellFormed) :
    ¬o.Follows q := by
  intro follows
  have none : ∀ p, o.Follows p → o.Knowable p → ¬q.Peer level p := by
    intro p shown known
    refine (shown.induct wf (motive := fun p => o.Follows p ∧ ¬q.Peer level p)
      (fun p known warrants => ⟨.of_warrants (warrants.mono fun _ _ => And.left), fun peer => ?_⟩) known).2
    cases q with
    | subsumed =>
      cases p with
      | subsumed => exact stuck.no_subsumption arranged wf follows known peer.1 peer.2 warrants
      | member => exact peer
    | member =>
      cases p with
      | subsumed => exact peer
      | member =>
        obtain ⟨rfl, same⟩ := peer
        exact stuck.no_membership arranged wf follows known same warrants
  exact none q follows (stuck.known stuck.start) (.refl q)

end Stuck

end Ontology

end ConceptLogic
