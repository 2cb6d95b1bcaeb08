import ConceptLogic.Proofs.Ontology.BuildingOutcomes

namespace ConceptLogic.Ontology

/-- Whether a second ontology holds at least what a first one holds. -/
def Within (o o' : Ontology) : Prop :=
  ∀ n entry, o.thing? n = some entry → ∃ entry', o'.thing? n = some entry' ∧ entry.Within entry'

namespace Within

variable {o o' : Ontology}

theorem refl (o : Ontology) : o.Within o :=
  fun _ entry found => ⟨entry, found, .refl entry⟩

theorem trans {o'' : Ontology} (within : o.Within o') (more : o'.Within o'') : o.Within o'' := by
  intro n entry found
  obtain ⟨entry', found', kept⟩ := within n entry found
  obtain ⟨entry'', found'', kept'⟩ := more n entry' found'
  exact ⟨entry'', found'', kept.trans kept'⟩

theorem size_le (within : o.Within o') : o.size ≤ o'.size := by
  cases size : o.size with
  | zero => exact Nat.zero_le _
  | succ n =>
    have last : n < o.entries.size := Nat.lt_of_lt_of_eq (Nat.lt_succ_self n) size.symm
    obtain ⟨entry', found, _⟩ := within (n + 1) _ (Array.getElem?_eq_getElem last)
    exact (thing?_bounds found).2

theorem concept (within : o.Within o') {n : Nat} {e : Expression} {isA equivalentTo : List ConceptId}
    (found : o.thing? n = some (.concept e isA equivalentTo)) :
    ∃ isA' equivalentTo', o'.thing? n = some (.concept e isA' equivalentTo') ∧
      isA ⊆ isA' ∧ equivalentTo ⊆ equivalentTo' := by
  obtain ⟨entry', found', kept⟩ := within n _ found
  cases entry' with
  | concept e' isA' equivalentTo' =>
    obtain ⟨rfl, more, moreEquivalent⟩ := kept
    exact ⟨isA', equivalentTo', found', more, moreEquivalent⟩
  | individual => exact kept.elim
  | relation => exact kept.elim

theorem individual (within : o.Within o') {n : Nat} {name : String} {types : List ConceptId}
    (found : o.thing? n = some (.individual name types)) :
    ∃ types', o'.thing? n = some (.individual name types') ∧ types ⊆ types' := by
  obtain ⟨entry', found', kept⟩ := within n _ found
  cases entry' with
  | concept => exact kept.elim
  | individual name' types' =>
    obtain ⟨rfl, more⟩ := kept
    exact ⟨types', found', more⟩
  | relation => exact kept.elim

theorem relation (within : o.Within o') {n : Nat} {name : String} {supers : List RelationId}
    {signature : Option (ConceptId × ConceptId)}
    (found : o.thing? n = some (.relation name supers signature)) :
    ∃ signature', o'.thing? n = some (.relation name supers signature') := by
  obtain ⟨entry', found', kept⟩ := within n _ found
  cases entry' with
  | concept => exact kept.elim
  | individual => exact kept.elim
  | relation name' supers' signature' =>
    obtain ⟨rfl, rfl⟩ := kept
    exact ⟨signature', found'⟩

theorem expression? (within : o.Within o') {c : ConceptId} {e : Expression}
    (found : o.expression? c = some e) : o'.expression? c = some e := by
  obtain ⟨isA, equivalentTo, found⟩ := expression?_eq_some.mp found
  obtain ⟨isA', equivalentTo', found', _⟩ := within.concept found
  exact expression?_eq_some.mpr ⟨isA', equivalentTo', found'⟩

theorem expression?_eq (within : o.Within o') {c : ConceptId} (known : o.Knows (.concept c)) :
    o'.expression? c = o.expression? c := by
  obtain ⟨e, found⟩ := known
  rw [found, within.expression? found]

theorem knows (within : o.Within o') {x : Entity} (known : o.Knows x) : o'.Knows x := by
  cases x with
  | concept c =>
    obtain ⟨e, found⟩ := known
    exact ⟨e, within.expression? found⟩
  | individual i =>
    obtain ⟨name, found⟩ := known
    obtain ⟨types, found⟩ := individualName?_eq_some.mp found
    obtain ⟨types', found', _⟩ := within.individual found
    exact ⟨name, individualName?_eq_some.mpr ⟨types', found'⟩⟩
  | relation r =>
    obtain ⟨name, found⟩ := known
    obtain ⟨supers, signature, found⟩ := relationName?_eq_some.mp found
    obtain ⟨signature', found'⟩ := within.relation found
    exact ⟨name, relationName?_eq_some.mpr ⟨supers, signature', found'⟩⟩

theorem isA (within : o.Within o') (c : ConceptId) : o.isA c ⊆ o'.isA c := by
  intro p told
  obtain ⟨e, isA, equivalentTo, found, member⟩ := mem_isA.mp told
  obtain ⟨isA', equivalentTo', found', more, _⟩ := within.concept found
  exact mem_isA.mpr ⟨e, isA', equivalentTo', found', more member⟩

theorem equivalentTo (within : o.Within o') (c : ConceptId) : o.equivalentTo c ⊆ o'.equivalentTo c := by
  intro p told
  obtain ⟨e, isA, equivalentTo, found, member⟩ := mem_equivalentTo.mp told
  obtain ⟨isA', equivalentTo', found', _, more⟩ := within.concept found
  exact mem_equivalentTo.mpr ⟨e, isA', equivalentTo', found', more member⟩

theorem told (within : o.Within o') (c : ConceptId) : o.told c ⊆ o'.told c := by
  intro p told
  rcases List.mem_append.mp told with isA | equivalent
  · exact List.mem_append_left _ (within.isA c isA)
  · exact List.mem_append_right _ (within.equivalentTo c equivalent)

theorem types (within : o.Within o') (i : IndividualId) : o.types i ⊆ o'.types i := by
  intro t told
  obtain ⟨name, types, found, member⟩ := mem_types.mp told
  obtain ⟨types', found', more⟩ := within.individual found
  exact mem_types.mpr ⟨name, types', found', more member⟩

theorem supers_eq (within : o.Within o') {r : RelationId} (known : o.Knows (.relation r)) :
    o'.supers r = o.supers r := by
  obtain ⟨name, named⟩ := known
  obtain ⟨supers, signature, found⟩ := relationName?_eq_some.mp named
  obtain ⟨signature', found'⟩ := within.relation found
  unfold Ontology.supers
  rw [found, found']

theorem supers (within : o.Within o') (r : RelationId) : o.supers r ⊆ o'.supers r := by
  intro s told
  obtain ⟨name, supers, signature, found, _⟩ := mem_supers.mp told
  rwa [within.supers_eq ⟨name, relationName?_eq_some.mpr ⟨supers, signature, found⟩⟩]

theorem normal (within : o.Within o') {e : Expression} (known : ∀ x ∈ e.parts, o.Knows x)
    (normal : e.Normal o) : e.Normal o' := by
  cases e with
  | named => exact normal
  | restriction => exact normal
  | nominal => exact normal
  | conjunction cs =>
    obtain ⟨two, increasing, apart⟩ := normal
    refine ⟨two, increasing, fun c member xs => ?_⟩
    rw [within.expression?_eq (known _ (List.mem_map_of_mem member))]
    exact apart c member xs
  | disjunction cs =>
    obtain ⟨two, increasing, apart⟩ := normal
    refine ⟨two, increasing, fun c member xs => ?_⟩
    rw [within.expression?_eq (known _ (List.mem_map_of_mem member))]
    exact apart c member xs
  | negation x =>
    intro y
    rw [within.expression?_eq (known _ (List.mem_singleton.mpr rfl))]
    exact normal y

end Within

theorem within_adding (o : Ontology) (entry : Entry) : o.Within (o.adding entry) := by
  intro n old found
  have bounds := thing?_bounds found
  refine ⟨old, ?_, .refl old⟩
  rw [adding_thing?, if_neg (by omega), found]

theorem within_changing {o : Ontology} {id : Nat} {f : Entry → Entry} (positive : 1 ≤ id)
    (more : ∀ entry : Entry, entry.Within (f entry)) : o.Within (o.changing id f) := by
  intro n old found
  rw [changing_thing? positive, found]
  split
  · exact ⟨f old, rfl, more old⟩
  · exact ⟨old, rfl, .refl old⟩

/-- What is a concept after something was told was the same concept before, and all that it was told
since was told to it. -/
theorem concept_of_changing {o : Ontology} {id n : Nat} {f : Entry → Entry} (positive : 1 ≤ id)
    (more : ∀ entry : Entry, entry.Within (f entry)) {e : Expression} {isA equivalentTo : List ConceptId}
    (found : (o.changing id f).thing? n = some (.concept e isA equivalentTo)) :
    ∃ isA' equivalentTo', o.thing? n = some (.concept e isA' equivalentTo') ∧
      (isA' = isA ∧ equivalentTo' = equivalentTo ∨
        n = id ∧ f (.concept e isA' equivalentTo') = .concept e isA equivalentTo) := by
  rw [changing_thing? positive] at found
  split at found
  · rename_i here
    obtain ⟨old, atOld, changed⟩ := Option.map_eq_some_iff.mp found
    have kept := more old
    rw [changed] at kept
    cases old with
    | concept e' isA' equivalentTo' =>
      obtain ⟨rfl, _⟩ := kept
      exact ⟨isA', equivalentTo', atOld, .inr ⟨here, changed⟩⟩
    | individual => exact kept.elim
    | relation => exact kept.elim
  · exact ⟨isA, equivalentTo, found, .inl ⟨rfl, rfl⟩⟩

/-- What is told to something makes no concept into another. -/
theorem changing_expression? {o : Ontology} {id : Nat} {f : Entry → Entry} (positive : 1 ≤ id)
    (more : ∀ entry : Entry, entry.Within (f entry)) {c : ConceptId} {e : Expression}
    (found : (o.changing id f).expression? c = some e) : o.expression? c = some e := by
  obtain ⟨_, _, found⟩ := expression?_eq_some.mp found
  obtain ⟨isA, equivalentTo, atOld, _⟩ := concept_of_changing positive more found
  exact expression?_eq_some.mpr ⟨isA, equivalentTo, atOld⟩

theorem within_tellIsA (c : ConceptId) (entry : Entry) : entry.Within (entry.tellIsA c) := by
  cases entry with
  | concept => exact ⟨rfl, List.subset_append_left .., fun _ => id⟩
  | individual => exact ⟨rfl, List.subset_append_left ..⟩
  | relation => exact ⟨rfl, rfl⟩

theorem within_tellEquivalent (c : ConceptId) (entry : Entry) :
    entry.Within (entry.tellEquivalent c) := by
  cases entry with
  | concept => exact ⟨rfl, fun _ => id, List.subset_append_left ..⟩
  | individual => exact ⟨rfl, fun _ => id⟩
  | relation => exact ⟨rfl, rfl⟩

theorem within_sign (signature : ConceptId × ConceptId) (entry : Entry) :
    entry.Within (entry.sign signature) := by
  cases entry with
  | concept => exact ⟨rfl, fun _ => id, fun _ => id⟩
  | individual => exact ⟨rfl, fun _ => id⟩
  | relation => exact ⟨rfl, rfl⟩

namespace WellFormed

variable {o : Ontology} (wf : o.WellFormed)
include wf

/-- An ontology that holds more stays well-formed if whatever it holds anew is. -/
theorem grow {o' : Ontology} (within : o.Within o')
    (mentions : ∀ n entry, o'.thing? n = some entry → ∀ x ∈ entry.mentions, o'.Knows x)
    (fresh : ∀ c e, o'.expression? c = some e → o.expression? c = some e ∨
      (∀ x ∈ e.parts, x.id < c.id) ∧ e.Normal o') : o'.WellFormed where
  top_named := by
    obtain ⟨name, found⟩ := wf.top_named
    exact ⟨name, within.expression? found⟩
  closed := fun found => mentions _ _ found
  older := by
    intro c e found
    rcases fresh c e found with old | new
    · exact wf.older old
    · exact new.1
  normal := by
    intro c e found
    rcases fresh c e found with old | new
    · exact within.normal (wf.parts_known old) (wf.normal old)
    · exact new.2

theorem adding {entry : Entry} (known : ∀ x ∈ entry.mentions, o.Knows x)
    (normal : ∀ e isA equivalentTo, entry = .concept e isA equivalentTo → e.Normal o) :
    (o.adding entry).WellFormed := by
  have within := within_adding o entry
  refine wf.grow within ?_ ?_
  · intro n new found x member
    rw [adding_thing?] at found
    split at found
    · cases found
      exact within.knows (known x member)
    · exact within.knows (wf.closed found x member)
  · intro c e found
    obtain ⟨isA, equivalentTo, found⟩ := expression?_eq_some.mp found
    rw [adding_thing?] at found
    split at found
    · rename_i last
      cases found
      have parts : ∀ x ∈ e.parts, o.Knows x := fun x part => known x (List.mem_append_left _ part)
      refine Or.inr ⟨fun x part => ?_, within.normal parts (normal _ _ _ rfl)⟩
      have bounds := (parts x part).bounds
      omega
    · exact Or.inl (expression?_eq_some.mpr ⟨isA, equivalentTo, found⟩)

theorem changing {id : Nat} {f : Entry → Entry} (positive : 1 ≤ id)
    (more : ∀ entry : Entry, entry.Within (f entry))
    (known : ∀ entry, o.thing? id = some entry → ∀ x ∈ (f entry).mentions, o.Knows x) :
    (o.changing id f).WellFormed := by
  have within : o.Within (o.changing id f) := within_changing positive more
  refine wf.grow within ?_ ?_
  · intro n entry found x member
    rw [changing_thing? positive] at found
    split at found
    · rename_i here
      subst here
      obtain ⟨old, atOld, rfl⟩ := Option.map_eq_some_iff.mp found
      exact within.knows (known old atOld x member)
    · exact within.knows (wf.closed found x member)
  · exact fun c e found => Or.inl (changing_expression? positive more found)

end WellFormed

end ConceptLogic.Ontology
