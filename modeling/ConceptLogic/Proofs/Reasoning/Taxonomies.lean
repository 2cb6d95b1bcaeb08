import ConceptLogic.Proofs.Ontology.Consistency
import ConceptLogic.Proofs.Reasoning.PersistentAnswers

namespace ConceptLogic

namespace Ontology

variable {o : Ontology} {c d p t : ConceptId} {i : IndividualId} {q : Query}

def IsNamed (o : Ontology) (c : ConceptId) : Prop :=
  ∃ name, o.expression? c = some (.named name)

instance (o : Ontology) : DecidablePred o.IsNamed := fun c =>
  match made : o.expression? c with
  | some (.named name) => isTrue ⟨name, made⟩
  | none | some (.conjunction _) | some (.disjunction _) | some (.negation _) | some (.nominal _)
  | some (.restriction ..) => isFalse (by rintro ⟨name, named⟩; cases made.symm.trans named)

/-- Whether told edges lead from one concept up to another, at least one of them. -/
def Climbs (o : Ontology) : ConceptId → ConceptId → Prop :=
  Relation.TransGen fun c p => p ∈ o.told c

/-- An ontology that tells of named concepts only. Others may be kept, but nothing is said of them. -/
structure Taxonomy (o : Ontology) : Prop where
  edges : ∀ {c p}, p ∈ o.told c → o.IsNamed c ∧ o.IsNamed p
  types : ∀ {i t}, t ∈ o.types i → o.IsNamed t

/-- Nothing is told under numbers that are not given out. -/
theorem taxonomy_iff : o.Taxonomy ↔ ∀ n < o.size + 1,
    (∀ p ∈ o.told ⟨n⟩, o.IsNamed ⟨n⟩ ∧ o.IsNamed p) ∧ ∀ t ∈ o.types ⟨n⟩, o.IsNamed t := by
  refine ⟨fun taxonomy n _ => ⟨fun p => taxonomy.edges, fun t => taxonomy.types⟩, fun each => ⟨?_, ?_⟩⟩
  · intro c p told
    have known : ∃ entry, o.thing? c.id = some entry := by
      rcases List.mem_append.mp told with isA | equivalent
      · obtain ⟨_, _, _, found, _⟩ := mem_isA.mp isA
        exact ⟨_, found⟩
      · obtain ⟨_, _, _, found, _⟩ := mem_equivalentTo.mp equivalent
        exact ⟨_, found⟩
    obtain ⟨entry, found⟩ := known
    exact (each c.id (Nat.lt_succ_of_le (thing?_bounds found).2)).1 p told
  · intro i t told
    obtain ⟨_, _, found, _⟩ := mem_types.mp told
    exact (each i.id (Nat.lt_succ_of_le (thing?_bounds found).2)).2 t told

instance (o : Ontology) : Decidable o.Taxonomy := decidable_of_iff _ taxonomy_iff.symm

/-- What can be read off the told edges. -/
def Shown (o : Ontology) : Query → Prop
  | .subsumed c d => c = d ∨ d = top ∨ o.Climbs c d
  | .member i d => d = top ∨ ∃ t ∈ o.types i, t = d ∨ o.Climbs t d

/-- A query about named concepts. -/
def AsksNamed (o : Ontology) : Query → Prop
  | .subsumed c d => o.IsNamed c ∧ o.IsNamed d
  | .member _ d => o.IsNamed d

theorem IsNamed.known (named : o.IsNamed c) : o.Knows (.concept c) := by
  obtain ⟨name, made⟩ := named
  exact ⟨_, made⟩

theorem IsNamed.unsplit (left : o.IsNamed c) (right : o.IsNamed d) : o.Unsplit c d := by
  obtain ⟨_, made⟩ := left
  obtain ⟨_, made'⟩ := right
  exact ⟨by simp [made'], by simp [made], by simp [made]⟩

theorem IsNamed.undivided (named : o.IsNamed d) : o.Undivided d := by
  obtain ⟨_, made⟩ := named
  exact ⟨by simp [made], by simp [made]⟩

/-- Nothing named is taken apart. -/
theorem IsNamed.other {e : Expression} (named : o.IsNamed c) (made : o.expression? c = some e)
    (anonymous : e.Anonymous) : False := by
  obtain ⟨name, made'⟩ := named
  exact anonymous name (Option.some.inj (made.symm.trans made'))

theorem WellFormed.climbs_iff (wf : o.WellFormed) : o.Climbs c d ↔ (o.above c).contains d.id = true := by
  rw [wf.above_iff]
  exact numberPath_iff.symm

/-- The told ancestors are looked at before anything else is asked, so what they show is found. -/
theorem grounded_of_climbs {busy : Query → Query → Prop} (wf : o.WellFormed) (left : o.IsNamed c)
    (right : o.IsNamed d) (path : o.Climbs c d) : o.Grounded busy (.subsumed c d) :=
  grounded_of_nothing (.ancestor (left.unsplit right) (wf.climbs_iff.mp path))

namespace Taxonomy

variable (taxonomy : o.Taxonomy)
include taxonomy

/-- Every name leads up to everything. -/
theorem climbs_top (consistent : o.Consistent) (named : o.IsNamed c) : c = top ∨ o.Climbs c top := by
  -- The induction is on the number of the concept, as a base is always older.
  induction number : c.id using Nat.strong_induction_on generalizing c with
  | _ n ih =>
    subst number
    by_cases atTop : c = top
    · exact .inl atTop
    obtain ⟨name, made⟩ := named
    obtain ⟨p, told, older⟩ := consistent.under made atTop
    have edge : p ∈ o.told c := List.mem_append_left _ told
    rcases ih p.id older (taxonomy.edges edge).2 rfl with rfl | path
    · exact .inr (.single edge)
    · exact .inr (.head edge path)

/-- Whatever is the same as everything can be reached by every name. -/
theorem climbs_of_equivalent_top (consistent : o.Consistent) (named : o.IsNamed c)
    (told : top ∈ o.equivalentTo d) : o.Climbs c d := by
  have edge : d ∈ o.told top := List.mem_append_right _ (consistent.symmetric told)
  rcases taxonomy.climbs_top consistent named with rfl | path
  · exact .single edge
  · exact .tail path edge

/-- No rule gives more than the told edges show. -/
theorem shown_of_warrants (wf : o.WellFormed) (consistent : o.Consistent) (known : o.Knowable q)
    (warrants : o.Warrants (fun p => o.AsksNamed p → o.Shown p) q) (named : o.AsksNamed q) : o.Shown q := by
  have back : ∀ {e d}, e ∈ o.equivalentTo d → d ∈ o.told e :=
    fun told => List.mem_append_right _ (consistent.symmetric told)
  cases warrants with
  | same => exact .inl rfl
  | everything => exact .inr (.inl rfl)
  | toConjunction made => exact (named.2.other made nofun).elim
  | ofDisjunction _ made => exact (named.1.other made nofun).elim
  | ofNominal _ made => exact (named.1.other made nofun).elim
  | conjunct _ made => exact (named.1.other made nofun).elim
  | disjunct _ made => exact (named.2.other made nofun).elim
  | negation made => exact (named.1.other made nofun).elim
  | restriction made => exact (named.1.other made nofun).elim
  | ancestor _ above => exact .inr (.inr (wf.climbs_iff.mpr above))
  | told _ member given =>
    rcases given ⟨(taxonomy.edges member).2, named.2⟩ with rfl | everything | path
    · exact .inr (.inr (.single member))
    · exact .inr (.inl everything)
    · exact .inr (.inr (.head member path))
  | definition _ member given =>
    have edge := back member
    rcases given ⟨named.1, (taxonomy.edges edge).1⟩ with rfl | rfl | path
    · exact .inr (.inr (.single edge))
    · exact .inr (.inr (taxonomy.climbs_of_equivalent_top consistent named.1 member))
    · exact .inr (.inr (path.tail edge))
  | everyone => exact .inl rfl
  | nominated _ made => exact (IsNamed.other named made nofun).elim
  | ofConjuncts _ made => exact (IsNamed.other named made nofun).elim
  | ofDisjunct _ made => exact (IsNamed.other named made nofun).elim
  | type _ member given =>
    rcases given ⟨taxonomy.types member, named⟩ with same | everything | path
    · exact .inr ⟨_, member, .inl same⟩
    · exact .inl everything
    · exact .inr ⟨_, member, .inr path⟩
  | equivalent _ member given =>
    have edge := back member
    rcases given (taxonomy.edges edge).1 with rfl | ⟨t, type, rfl | path⟩
    · obtain ⟨t, type⟩ := consistent.typed known.1
      exact .inr ⟨t, type, .inr (taxonomy.climbs_of_equivalent_top consistent (taxonomy.types type) member)⟩
    · exact .inr ⟨t, type, .inr (.single edge)⟩
    · exact .inr ⟨t, type, .inr (path.tail edge)⟩

/-- What asks about named concepts whether one is a part of another asks nothing else. -/
theorem leads_subsumed (path : Relation.TransGen o.Leads (.subsumed c d) q) (left : o.IsNamed c)
    (right : o.IsNamed d) : ∃ x y, q = .subsumed x y ∧ o.IsNamed x ∧ o.IsNamed y := by
  have step : ∀ {x y p}, o.IsNamed x → o.IsNamed y → o.Leads (.subsumed x y) p →
      ∃ x' y', p = .subsumed x' y' ∧ o.IsNamed x' ∧ o.IsNamed y' := by
    rintro x y p left right (asks | ⟨⟨⟩⟩)
    cases asks with
    | toConjunction made => exact (right.other made nofun).elim
    | ofDisjunction _ made => exact (left.other made nofun).elim
    | ofNominal _ made => exact (left.other made nofun).elim
    | conjunct _ made => exact (left.other made nofun).elim
    | disjunct _ made => exact (right.other made nofun).elim
    | negation made => exact (left.other made nofun).elim
    | filler made => exact (left.other made nofun).elim
    | reversed made => exact (left.other made nofun).elim
    | told _ member => exact ⟨_, _, rfl, (taxonomy.edges member).2, right⟩
    | definition _ member =>
      exact ⟨_, _, rfl, left, (taxonomy.edges (List.mem_append_right _ member)).2⟩
  induction path with
  | single leads => exact step left right leads
  | tail _ leads ih =>
    obtain ⟨x, y, rfl, left, right⟩ := ih
    exact step left right leads

theorem finds_of_shown (wf : o.WellFormed) (named : o.AsksNamed q) (shown : o.Shown q) : o.Finds q := by
  cases q with
  | subsumed c d =>
    rcases shown with rfl | rfl | path
    · exact .same
    · exact .everything
    · exact .subsumed (grounded_of_climbs wf named.1 named.2 path)
  | member i d =>
    rcases shown with rfl | ⟨t, type, shown⟩
    · exact .everyone
    have left := taxonomy.types type
    have asks : o.Asks (.member i d) (.subsumed t d) := .type named.undivided type
    refine .member named.undivided (.step (fun p => o.Climbs t d ∧ p = .subsumed t d) ?_ ?_
      (.type named.undivided type ⟨asks, ?_⟩))
    · rintro _ ⟨path, rfl⟩
      exact grounded_of_climbs wf left named path
    · -- The search for a subsumption of names never comes to a membership.
      rintro _ ⟨_, rfl⟩ ⟨path, taken, _ | ⟨_, member⟩⟩
      obtain ⟨x, y, same, _⟩ := taxonomy.leads_subsumed (o.pathsOn_leading taken member) left named
      cases same
    · rcases shown with rfl | path
      · exact .same
      · exact .subsumed ⟨path, rfl⟩

theorem answers_shown (wf : o.WellFormed) (consistent : o.Consistent) (known : o.Knowable q)
    (named : o.AsksNamed q) : ∃ b, o.Answers b q ∧ (b = true ↔ o.Shown q) := by
  refine ⟨o.answer q, answers_iff.mpr ⟨known, rfl⟩, fun yes => ?_, fun shown => ?_⟩
  · exact (answer_sound wf known yes).induct wf (motive := fun q => o.AsksNamed q → o.Shown q)
      (fun q known warrants => taxonomy.shown_of_warrants wf consistent known warrants) known named
  · exact (answer_iff wf known).mpr (taxonomy.finds_of_shown wf named shown)

end Taxonomy

/-- Where only names are told of, the answers are what the told edges show, whatever circles they
make and whatever else is kept: a name lies within itself, within everything and within all that it
leads up to, and an individual falls under everything, under its types and under all that they lead
up to. -/
theorem taxonomy_exact {name : String} (reached : Reached name o) (taxonomy : o.Taxonomy) :
    (∀ c d, o.IsNamed c → o.IsNamed d →
      ∃ b, o.Answers b (.subsumed c d) ∧ (b = true ↔ c = d ∨ d = top ∨ o.Climbs c d)) ∧
    ∀ i d, o.Knows (.individual i) → o.IsNamed d →
      ∃ b, o.Answers b (.member i d) ∧ (b = true ↔ d = top ∨ ∃ t ∈ o.types i, t = d ∨ o.Climbs t d) :=
  ⟨fun _ _ left right => taxonomy.answers_shown reached.wellFormed reached.consistent
      ⟨left.known, right.known⟩ ⟨left, right⟩,
    fun _ _ known named => taxonomy.answers_shown reached.wellFormed reached.consistent
      ⟨known, named.known⟩ named⟩

/-- A circle of three names that is the same as everything, a name and an individual under it, and a
negation of which nothing is told. -/
def webbed : Ontology :=
  (initial "Thing").afterAll
    [.createConcept "A" [], .createConcept "B" [⟨2⟩], .createConcept "C" [⟨3⟩], .addIsA (.concept ⟨2⟩) ⟨4⟩,
      .addEquivalence (.concept ⟨1⟩) ⟨4⟩, .negation ⟨2⟩, .createIndividual "i" ⟨3⟩, .createConcept "D" []]

theorem webbed_exact : Reached "Thing" webbed ∧ webbed.Taxonomy ∧ webbed.Climbs ⟨7⟩ ⟨2⟩ ∧
    webbed.Answers true (.subsumed ⟨7⟩ ⟨2⟩) ∧ webbed.Answers true (.member ⟨6⟩ ⟨4⟩) := by
  have reached : Reached "Thing" webbed := .afterAll .initial _
  have taxonomy : webbed.Taxonomy := by decide +kernel
  have fromB : webbed.Climbs ⟨3⟩ ⟨2⟩ := .single (by decide +kernel)
  have path : webbed.Climbs ⟨7⟩ ⟨2⟩ :=
    .head (b := ⟨1⟩) (by decide +kernel) (.head (b := ⟨4⟩) (by decide +kernel) (.head (by decide +kernel) fromB))
  have path' : webbed.Climbs ⟨3⟩ ⟨4⟩ := fromB.tail (by decide +kernel)
  obtain ⟨names, individuals⟩ := taxonomy_exact reached taxonomy
  obtain ⟨b, answers, shown⟩ := names ⟨7⟩ ⟨2⟩ (by decide +kernel) (by decide +kernel)
  obtain ⟨b', answers', shown'⟩ := individuals ⟨6⟩ ⟨4⟩ (by decide +kernel) (by decide +kernel)
  refine ⟨reached, taxonomy, path, ?_, ?_⟩
  · rwa [shown.mpr (.inr (.inr path))] at answers
  · rwa [shown'.mpr (.inr ⟨⟨3⟩, by decide +kernel, .inr path'⟩)] at answers'

end Ontology

end ConceptLogic
