import ConceptLogic.Proofs.Ontology.ArrangedLevels
import ConceptLogic.Proofs.Reasoning.QueryWeights
import ConceptLogic.Proofs.Reasoning.RuleLaws

namespace ConceptLogic

/-- The concept under which a query asks whether something falls. -/
def Query.target : Query → ConceptId
  | .subsumed _ d | .member _ d => d

/-- The same question about another concept. -/
def Query.onto (e : ConceptId) : Query → Query
  | .subsumed c _ => .subsumed c e
  | .member i _ => .member i e

@[simp] theorem Query.onto_target (q : Query) : q.onto q.target = q := by
  cases q <;> rfl

namespace Ontology

theorem Knowable.target {o : Ontology} {q : Query} (known : o.Knowable q) : o.Knows (.concept q.target) := by
  cases q with
  | subsumed => exact known.2
  | member => exact known.2

theorem Knowable.onto {o : Ontology} {q : Query} (known : o.Knowable q) {d : ConceptId}
    (target : o.Knows (.concept d)) : o.Knowable (q.onto d) := by
  cases q with
  | subsumed => exact ⟨known.1, target⟩
  | member => exact ⟨known.1, target⟩

variable {o : Ontology} {level : ConceptId → Nat} {c c' d d' e p r x : ConceptId} {q : Query}

/-- A concept that is not taken apart on the left side of a subsumption. -/
def Whole (o : Ontology) (c : ConceptId) : Prop :=
  (∀ cs, o.expression? c ≠ some (.disjunction cs)) ∧ ∀ is, o.expression? c ≠ some (.nominal is)

/-- A query that rules answer by what was told. -/
def Loose (o : Ontology) : Query → Prop
  | .subsumed c d => o.Unsplit c d
  | .member _ d => o.Undivided d

/-- A name that was defined as an older concept. -/
structure DefinedAs (o : Ontology) (d p : ConceptId) : Prop where
  named : ∃ name, o.expression? d = some (.named name)
  base : o.isA d = [top]
  first : ∃ rest, o.equivalentTo d = p :: rest
  older : p.id < d.id

/-- The oldest concept on its level. -/
structure Original (o : Ontology) (level : ConceptId → Nat) (c : ConceptId) : Prop where
  level : level c = c.id ∨ c = Ontology.top
  younger : ∀ p ∈ o.equivalentTo c, c.id < p.id

namespace DefinedAs

variable (defined : o.DefinedAs d p)
include defined

theorem mem_equivalentTo : p ∈ o.equivalentTo d := by
  obtain ⟨rest, first⟩ := defined.first
  rw [first]
  exact List.mem_cons_self ..

theorem mem_told : p ∈ o.told d :=
  List.mem_append_right _ defined.mem_equivalentTo

theorem top_told : top ∈ o.told d := by
  refine List.mem_append_left _ ?_
  rw [defined.base]
  exact List.mem_cons_self ..

theorem whole : o.Whole d := by
  obtain ⟨name, named⟩ := defined.named
  exact ⟨by simp [named], by simp [named]⟩

theorem undivided : o.Undivided d := by
  obtain ⟨name, named⟩ := defined.named
  exact ⟨by simp [named], by simp [named]⟩

theorem unsplit (whole : o.Whole c) : o.Unsplit c d :=
  ⟨defined.undivided.1, whole⟩

theorem not_made {e : Expression} (made : o.expression? d = some e) : ¬e.Anonymous := by
  obtain ⟨name, named⟩ := defined.named
  exact fun anonymous => anonymous name (Option.some.inj (made.symm.trans named))

theorem not_original : ¬o.Original level d := fun original =>
  absurd (original.younger p defined.mem_equivalentTo) (Nat.lt_asymm defined.older)

end DefinedAs

/-- A definition that leads to the oldest concept on a level, by way of others or at once. -/
abbrev Goes (o : Ontology) : ConceptId → ConceptId → Prop := Relation.ReflTransGen o.DefinedAs

theorem Goes.eq_of_original (goes : o.Goes c r) (original : o.Original level c) : c = r := by
  rcases Relation.ReflTransGen.cases_head goes with same | ⟨p, defined, _⟩
  · exact same
  · exact absurd original defined.not_original

theorem Goes.eq_of_made (goes : o.Goes c r) {e : Expression} (made : o.expression? c = some e)
    (anonymous : e.Anonymous) : c = r := by
  rcases Relation.ReflTransGen.cases_head goes with same | ⟨p, defined, _⟩
  · exact same
  · exact absurd anonymous (defined.not_made made)

/-- What lies under the end of a chain of definitions lies under each concept in it. -/
theorem Goes.follows_left (goes : o.Goes c r) (apart : ∀ ds, o.expression? d ≠ some (.conjunction ds))
    (follows : o.Follows (.subsumed r d)) : o.Follows (.subsumed c d) := by
  induction goes using Relation.ReflTransGen.head_induction_on with
  | refl => exact follows
  | head defined _ ih => exact .of_warrants (.told ⟨apart, defined.whole⟩ defined.mem_told ih)

/-- A name takes over what falls under something it was told to be the same as. -/
theorem follows_retold (wf : o.WellFormed) (defined : o.DefinedAs d e) (told : p ∈ o.equivalentTo d)
    (follows : o.Follows (q.onto p)) : o.Follows (q.onto d) := by
  cases q with
  | member i _ => exact .of_warrants (.equivalent defined.undivided told follows)
  | subsumed c k =>
    induction bound : c.id using Nat.strongRecOn generalizing c with
    | ind n ih =>
      subst bound
      rcases o.split_cases c d with ⟨ds, made⟩ | ⟨apart, ⟨cs, made⟩ | ⟨is, made⟩⟩ | unsplit
      · exact absurd made (defined.undivided.1 ds)
      · have each := List.forall_mem_map.mp ((wf.follows_alternatives_iff made rfl).mp follows)
        refine .of_warrants (.ofDisjunction apart made fun x member => ?_)
        exact ih x.id (wf.older made _ (List.mem_map_of_mem member)) x (each x member) rfl
      · have each := List.forall_mem_map.mp ((wf.follows_alternatives_iff made rfl).mp follows)
        refine .of_warrants (.ofNominal apart made fun i listed => ?_)
        exact .of_warrants (.equivalent defined.undivided told (each i listed))
      · exact .of_warrants (.definition unsplit told follows)

theorem Goes.follows_right (wf : o.WellFormed) (goes : o.Goes e r) (follows : o.Follows (q.onto r)) :
    o.Follows (q.onto e) := by
  induction goes using Relation.ReflTransGen.head_induction_on with
  | refl => exact follows
  | head defined _ ih => exact follows_retold wf defined defined.mem_equivalentTo ih

/-- What is not taken apart falls under something told to be the same. -/
theorem Loose.follows (loose : o.Loose (q.onto p)) (told : d ∈ o.equivalentTo p)
    (follows : o.Follows (q.onto d)) : o.Follows (q.onto p) := by
  cases q with
  | subsumed => exact .of_warrants (.definition loose told follows)
  | member => exact .of_warrants (.equivalent loose told follows)

theorem DefinedAs.loose (defined : o.DefinedAs d p) (loose : o.Loose q) : o.Loose (q.onto d) := by
  cases q with
  | subsumed => exact defined.unsplit loose.2
  | member => exact defined.undivided

namespace Arranged

variable (arranged : o.Arranged level) (wf : o.WellFormed)
include arranged

theorem original_or_defined (known : o.Knows (.concept c)) :
    o.Original level c ∨ ∃ p, o.DefinedAs c p := by
  obtain ⟨e, made⟩ := known
  obtain ⟨isA, equivalentTo, found⟩ := expression?_eq_some.mp made
  have isA_eq : o.isA c = isA := by simp [Ontology.isA, found]
  have equivalentTo_eq : o.equivalentTo c = equivalentTo := by simp [Ontology.equivalentTo, found]
  rcases (arranged.arranged found).2 with ⟨levels, younger⟩ | ⟨⟨name, rfl⟩, base, p, rest, first, older⟩
  · refine .inl ⟨levels.imp_right fun one => ?_, equivalentTo_eq ▸ younger⟩
    cases c
    cases one
    rfl
  · exact .inr ⟨p, ⟨name, made⟩, isA_eq.trans base, ⟨rest, equivalentTo_eq.trans first⟩, older⟩

theorem isA_lt (told : p ∈ o.isA c) : p.id < c.id := by
  obtain ⟨e, isA, equivalentTo, found, member⟩ := mem_isA.mp told
  exact (arranged.arranged found).1 p member

/-- A concept made by a connective, a restriction or a nominal is the oldest on its level. -/
theorem made_original {e : Expression} (made : o.expression? c = some e) (anonymous : e.Anonymous) :
    o.Original level c :=
  (arranged.original_or_defined ⟨e, made⟩).resolve_right fun ⟨_, defined⟩ => defined.not_made made anonymous

theorem told_back (defined : o.DefinedAs d p) : d ∈ o.equivalentTo p :=
  arranged.symmetric defined.mem_equivalentTo

theorem level_of_defined (defined : o.DefinedAs d p) : level p = level d :=
  arranged.stratified.equal defined.mem_equivalentTo

theorem level_of_goes (goes : o.Goes c r) : level r = level c := by
  induction goes with
  | refl => rfl
  | tail _ defined ih => exact (arranged.level_of_defined defined).trans ih

/-- Chains of definitions can be followed over told edges, up and down. -/
theorem told_of_goes (goes : o.Goes c r) : Relation.ReflTransGen o.ToldEdge c.id r.id ∧
    Relation.ReflTransGen o.ToldEdge r.id c.id := by
  induction goes with
  | refl => exact ⟨.refl, .refl⟩
  | tail _ defined ih =>
    have back := arranged.told_back defined
    exact ⟨ih.1.tail (List.mem_map_of_mem defined.mem_told),
      .head (List.mem_map_of_mem (List.mem_append_right _ back)) ih.2⟩

/-- On each level there is one oldest concept. -/
theorem original_unique (known : o.Knows (.concept c)) (known' : o.Knows (.concept c'))
    (original : o.Original level c) (original' : o.Original level c') (same : level c = level c') : c = c' := by
  have first : 1 ≤ c.id := known.bounds.1
  have first' : 1 ≤ c'.id := known'.bounds.1
  have top := arranged.stratified.top
  rcases original.level with own | rfl
  · rcases original'.level with own' | rfl
    · cases c
      cases c'
      exact congrArg _ (own.symm.trans (same.trans own'))
    · omega
  · rcases original'.level with own' | rfl
    · omega
    · rfl

include wf

/-- Nothing is older than the concept of everything. -/
theorem top_original : o.Original level top := by
  refine (arranged.original_or_defined wf.top_known).resolve_right ?_
  rintro ⟨p, defined⟩
  have positive : 1 ≤ p.id := (wf.equivalentTo_known defined.mem_equivalentTo).bounds.1
  exact absurd defined.older (Nat.not_lt.mpr positive)

theorem exists_origin (known : o.Knows (.concept c)) :
    ∃ r, o.Knows (.concept r) ∧ o.Original level r ∧ o.Goes c r := by
  induction bound : c.id using Nat.strongRecOn generalizing c with
  | ind n ih =>
    subst bound
    rcases arranged.original_or_defined known with original | ⟨p, defined⟩
    · exact ⟨c, known, original, .refl⟩
    · obtain ⟨r, known', original, goes⟩ :=
        ih p.id defined.older (wf.equivalentTo_known defined.mem_equivalentTo) rfl
      exact ⟨r, known', original, .head defined goes⟩

/-- Concepts on one level have been defined as one and the same in the end. -/
theorem common_origin (known : o.Knows (.concept c)) (known' : o.Knows (.concept c'))
    (same : level c' = level c) : ∃ r, o.Original level r ∧ o.Goes c r ∧ o.Goes c' r := by
  obtain ⟨r, atR, original, goes⟩ := arranged.exists_origin wf known
  obtain ⟨r', atR', original', goes'⟩ := arranged.exists_origin wf known'
  have levels := (arranged.level_of_goes goes).trans (same.symm.trans (arranged.level_of_goes goes').symm)
  cases arranged.original_unique atR atR' original original' levels
  exact ⟨r, original, goes, goes'⟩

/-- Told edges lead from each concept to all others on its level. -/
theorem told_of_level (known : o.Knows (.concept c)) (known' : o.Knows (.concept c'))
    (same : level c' = level c) : Relation.ReflTransGen o.ToldEdge c.id c'.id := by
  obtain ⟨r, _, goes, goes'⟩ := arranged.common_origin wf known known' same
  exact (arranged.told_of_goes goes).1.trans (arranged.told_of_goes goes').2

theorem above_of_level (known : o.Knows (.concept c)) (known' : o.Knows (.concept c'))
    (same : level c' = level c) (differ : c ≠ c') : (o.above c).contains c'.id = true := by
  refine wf.above_iff.mpr ((Relation.reflTransGen_iff_eq_or_transGen.mp
    (arranged.told_of_level wf known known' same)).resolve_left fun here => differ ?_)
  cases c
  cases c'
  exact congrArg _ here.symm

/-- What lies above one concept lies above all on its level, along with all that is on its own level. -/
theorem above_of_levels (known : o.Knows (.concept c)) (known' : o.Knows (.concept c'))
    (same : level c' = level c) (target : o.Knows (.concept d)) (target' : o.Knows (.concept d'))
    (same' : level d' = level d) (above : (o.above c).contains d.id = true) :
    (o.above c').contains d'.id = true := by
  rw [wf.above_iff] at above ⊢
  exact Relation.TransGen.trans_right (arranged.told_of_level wf known' known same.symm)
    (above.trans_left (arranged.told_of_level wf target target' same'))

end Arranged

end Ontology

end ConceptLogic
