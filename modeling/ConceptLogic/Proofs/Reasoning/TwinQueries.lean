import ConceptLogic.Proofs.Ontology.TwinConcepts

namespace ConceptLogic

namespace Ontology

variable {base o o' : Ontology} {c d c' d' : ConceptId} {q q' : Query}

/-- Queries about twins. -/
inductive Counterparts (base o o' : Ontology) : Query → Query → Prop
  | subsumed {c d c' d' : ConceptId} : base.Twins o o' c c' → base.Twins o o' d d' →
      Counterparts base o o' (.subsumed c d) (.subsumed c' d')
  | member {i : IndividualId} {d d' : ConceptId} : base.Twins o o' d d' →
      Counterparts base o o' (.member i d) (.member i d')

theorem Counterparts.symm (counterparts : base.Counterparts o o' q q') : base.Counterparts o' o q' q := by
  cases counterparts with
  | subsumed left right => exact .subsumed left.symm right.symm
  | member right => exact .member right.symm

namespace Fork

variable (fork : base.Fork o o')
include fork

theorem knowable (counterparts : base.Counterparts o o' q q') (known : o.Knowable q) : o'.Knowable q' := by
  cases counterparts with
  | subsumed left right => exact ⟨fork.symm.known left.symm, fork.symm.known right.symm⟩
  | member right =>
    have old := fork.left.annexes.old_individual known.1
    exact ⟨fork.right.annexes.within.knows old, fork.symm.known right.symm⟩

/-- Edges lead from old concepts to old ones. -/
theorem above (left : base.Twins o o' c c') (right : base.Twins o o' d d')
    (above : (o.above c).contains d.id = true) : (o'.above c').contains d'.id = true := by
  have wf := fork.kept.wellFormed
  have alike := fork.left.annexes.alike
  have path := fork.leftKept.wellFormed.above_iff.mp above
  obtain ⟨n, edge, _⟩ := Relation.TransGen.head'_iff.mp path
  obtain ⟨p, told, _⟩ := List.mem_map.mp edge
  have old : base.Knows (.concept c) := fork.left.annexes.old_of_told told
  have old' : base.Knows (.concept d) := (alike.toldPath wf old path).2
  cases fork.eq_of_old left old
  cases fork.eq_of_old right old'
  rw [alike.above wf fork.leftKept.wellFormed old] at above
  rwa [fork.right.annexes.alike.above wf fork.rightKept.wellFormed old]

/-- What is told of a twin was told of what is the same. -/
theorem told {p : ConceptId} (left : base.Twins o o' c c') (told : p ∈ o.told c) :
    p ∈ o'.told c' ∧ base.Twins o o' p p := by
  have old := fork.left.annexes.old_of_told told
  cases fork.eq_of_old left old
  rw [fork.left.annexes.alike.told old] at told
  exact ⟨by rwa [fork.right.annexes.alike.told old], .of_old (fork.kept.wellFormed.told_known told)⟩

theorem equivalentTo {p : ConceptId} (left : base.Twins o o' c c') (told : p ∈ o.equivalentTo c) :
    p ∈ o'.equivalentTo c' ∧ base.Twins o o' p p := by
  have old := fork.left.annexes.old_of_told (List.mem_append_right (o.isA c) told)
  cases fork.eq_of_old left old
  rw [fork.left.annexes.alike.equivalentTo old] at told
  exact ⟨by rwa [fork.right.annexes.alike.equivalentTo old],
    .of_old (fork.kept.wellFormed.equivalentTo_known told)⟩

theorem types {i : IndividualId} {t : ConceptId} (known : o.Knows (.individual i)) (told : t ∈ o.types i) :
    t ∈ o'.types i ∧ base.Twins o o' t t := by
  have old := fork.left.annexes.old_individual known
  rw [fork.left.annexes.alike.types old] at told
  exact ⟨by rwa [fork.right.annexes.alike.types old], .of_old (fork.kept.wellFormed.types_known told)⟩

theorem supports {given given' : Query → Prop} {r s : RelationId} {x y x' y' : ConceptId} {how : Entailment}
    (known : o.Knows (.relation r)) (known' : o.Knows (.relation s)) (left : base.Twins o o' x x')
    (right : base.Twins o o' y y') (more : ∀ {p p'}, base.Counterparts o o' p p' → given p → given' p')
    (supports : o.Supports given r x s y how) : o'.Supports given' r x' s y' how := by
  cases how with
  | never => exact supports
  | same =>
    obtain ⟨rfl, rfl⟩ := supports
    exact ⟨rfl, fork.unique left right⟩
  | wider => exact ⟨fork.isSubRelation known ▸ supports.1, more (.subsumed left right) supports.2⟩
  | universal => exact ⟨fork.isSubRelation known' ▸ supports.1, more (.subsumed left right) supports.2⟩
  | narrower => exact ⟨fork.isSubRelation known' ▸ supports.1, more (.subsumed right left) supports.2⟩

/-- A rule that warrants something warrants it of twins, if it is given the same of twins. -/
theorem warrants {given given' : Query → Prop} (known : o.Knowable q)
    (more : ∀ {p p'}, base.Counterparts o o' p p' → given p → given' p') (warrants : o.Warrants given q)
    (counterparts : base.Counterparts o o' q q') : o'.Warrants given' q' := by
  have top : ∀ {d'}, base.Twins o o' Ontology.top d' → d' = Ontology.top := fun twins =>
    fork.eq_of_old twins fork.kept.wellFormed.top_known
  have notTop : ∀ {d d'}, base.Twins o o' d d' → d ≠ Ontology.top → d' ≠ Ontology.top := by
    rintro d _ twins differ rfl
    exact differ (fork.symm.eq_of_old twins.symm fork.kept.wellFormed.top_known)
  cases counterparts with
  | subsumed left right =>
    cases warrants with
    | same =>
      cases fork.unique left right
      exact .same
    | everything =>
      cases top right
      exact .everything
    | toConjunction made each =>
      obtain ⟨ds, made', matched⟩ := fork.conjunction right made
      refine .toConjunction made' fun y member => ?_
      obtain ⟨x, member', twins⟩ := matched.2 y member
      exact more (.subsumed left twins) (each x member')
    | ofDisjunction apart made each =>
      obtain ⟨ds, made', matched⟩ := fork.disjunction left made
      refine .ofDisjunction (fork.unjoined right apart) made' fun y member => ?_
      obtain ⟨x, member', twins⟩ := matched.2 y member
      exact more (.subsumed twins right) (each x member')
    | ofNominal apart made each =>
      exact .ofNominal (fork.unjoined right apart) (fork.nominal left made) fun i listed =>
        more (.member right) (each i listed)
    | conjunct unsplit made member granted =>
      obtain ⟨ds, made', matched⟩ := fork.conjunction left made
      obtain ⟨y, member', twins⟩ := matched.1 _ member
      exact .conjunct (fork.unsplit left right unsplit) made' member' (more (.subsumed twins right) granted)
    | disjunct unsplit made member granted =>
      obtain ⟨ds, made', matched⟩ := fork.disjunction right made
      obtain ⟨y, member', twins⟩ := matched.1 _ member
      exact .disjunct (fork.unsplit left right unsplit) made' member' (more (.subsumed left twins) granted)
    | negation madeLeft madeRight granted =>
      obtain ⟨x', madeLeft', twins⟩ := fork.negation left madeLeft
      obtain ⟨y', madeRight', twins'⟩ := fork.negation right madeRight
      exact .negation madeLeft' madeRight' (more (.subsumed twins' twins) granted)
    | restriction madeLeft madeRight supports =>
      obtain ⟨x', madeLeft', twins⟩ := fork.restriction left madeLeft
      obtain ⟨y', madeRight', twins'⟩ := fork.restriction right madeRight
      have known : ∀ {c q r x}, o.expression? c = some (.restriction q r x) → o.Knows (.relation r) :=
        fork.leftKept.wellFormed.relation_known
      exact .restriction madeLeft' madeRight'
        (fork.supports (known madeLeft) (known madeRight) twins twins' more supports)
    | ancestor unsplit above => exact .ancestor (fork.unsplit left right unsplit) (fork.above left right above)
    | told unsplit told granted =>
      obtain ⟨told', twins⟩ := fork.told left told
      exact .told (fork.unsplit left right unsplit) told' (more (.subsumed twins right) granted)
    | definition unsplit told granted =>
      obtain ⟨told', twins⟩ := fork.equivalentTo right told
      exact .definition (fork.unsplit left right unsplit) told' (more (.subsumed left twins) granted)
  | member right =>
    cases warrants with
    | everyone =>
      cases top right
      exact .everyone
    | nominated differ made listed => exact .nominated (notTop right differ) (fork.nominal right made) listed
    | ofConjuncts differ made each =>
      obtain ⟨ds, made', matched⟩ := fork.conjunction right made
      refine .ofConjuncts (notTop right differ) made' fun y member => ?_
      obtain ⟨x, member', twins⟩ := matched.2 y member
      exact more (.member twins) (each x member')
    | ofDisjunct differ made member granted =>
      obtain ⟨ds, made', matched⟩ := fork.disjunction right made
      obtain ⟨y, member', twins⟩ := matched.1 _ member
      exact .ofDisjunct (notTop right differ) made' member' (more (.member twins) granted)
    | type undivided told granted =>
      obtain ⟨told', twins⟩ := fork.types known.1 told
      exact .type (fork.undivided right undivided) told' (more (.subsumed twins right) granted)
    | equivalent undivided told granted =>
      obtain ⟨told', twins⟩ := fork.equivalentTo right told
      exact .equivalent (fork.undivided right undivided) told' (more (.member twins) granted)

/-- What follows follows of twins. -/
theorem follows (known : o.Knowable q) (follows : o.Follows q) (counterparts : base.Counterparts o o' q q') :
    o'.Follows q' := by
  refine follows.induct fork.leftKept.wellFormed
    (motive := fun q => ∀ q', base.Counterparts o o' q q' → o'.Follows q')
    (fun q known warrants q' counterparts => .of_warrants ?_) known q' counterparts
  exact fork.warrants known (fun {p p'} counterparts shown => shown p' counterparts) warrants counterparts

/-- Queries about twins are answered alike. How things are numbered makes no difference, since nothing
is missed. -/
theorem answer (known : o.Knowable q) (counterparts : base.Counterparts o o' q q') :
    o'.answer q' = o.answer q := by
  obtain ⟨level, arranged⟩ := fork.arranged
  have wf := fork.kept.wellFormed
  have known' := fork.knowable counterparts known
  have left := (arranged.annexing wf fork.left.annexes).answer_iff_follows fork.leftKept.wellFormed known
  have right := (arranged.annexing wf fork.right.annexes).answer_iff_follows fork.rightKept.wellFormed known'
  refine Bool.eq_iff_iff.mpr (right.trans (Iff.trans ?_ left.symm))
  exact ⟨fun follows => fork.symm.follows known' follows counterparts.symm,
    fun follows => fork.follows known follows counterparts⟩

end Fork

end Ontology

end ConceptLogic
