import ConceptLogic.Proofs.Ontology.NamedThings

namespace ConceptLogic

theorem Entry.Novel.fresh {o : Ontology} {entry : Entry} (novel : entry.Novel o) {id : Nat} {name : String}
    {v : Value} (named : entry.named? id = some (name, v)) : o.Fresh name := by
  cases entry with
  | concept e isA equivalentTo =>
    cases e <;> cases named
    exact (novel.2.2 name rfl).1
  | individual =>
    cases named
    exact novel.1
  | relation =>
    cases named
    exact novel

namespace Ontology

variable {o o' : Ontology} {c d x y : ConceptId}

section Edges

/-! How told equivalences change. -/

/-- A new thing is the same as nothing. -/
theorem mem_equivalentTo_adding {entry : Entry}
    (none : ∀ e isA equivalentTo, entry = .concept e isA equivalentTo → equivalentTo = []) :
    y ∈ (o.adding entry).equivalentTo x ↔ y ∈ o.equivalentTo x := by
  rw [mem_equivalentTo, mem_equivalentTo]
  constructor
  · rintro ⟨e, isA, equivalentTo, found, member⟩
    rw [adding_thing?] at found
    split at found
    · rw [none e isA equivalentTo (Option.some.inj found)] at member
      cases member
    · exact ⟨e, isA, equivalentTo, found, member⟩
  · rintro ⟨e, isA, equivalentTo, found, member⟩
    have bounds := thing?_bounds found
    refine ⟨e, isA, equivalentTo, ?_, member⟩
    rw [adding_thing?, if_neg (by omega), found]

/-- What is told of nothing else than equivalence leaves the equivalences alone. -/
theorem mem_equivalentTo_changing {id : Nat} {f : Entry → Entry} (positive : 1 ≤ id)
    (more : ∀ entry : Entry, entry.Within (f entry))
    (alone : ∀ e isA equivalentTo, ∃ isA', f (.concept e isA equivalentTo) = .concept e isA' equivalentTo) :
    y ∈ (o.changing id f).equivalentTo x ↔ y ∈ o.equivalentTo x := by
  constructor
  · intro told
    obtain ⟨e, isA, equivalentTo, found, member⟩ := mem_equivalentTo.mp told
    obtain ⟨isA', equivalentTo', atOld, ⟨rfl, rfl⟩ | ⟨_, changed⟩⟩ := concept_of_changing positive more found
    · exact mem_equivalentTo.mpr ⟨_, _, _, atOld, member⟩
    · obtain ⟨isA'', same⟩ := alone e isA' equivalentTo'
      cases same.symm.trans changed
      exact mem_equivalentTo.mpr ⟨_, _, _, atOld, member⟩
  · exact fun told => (within_changing positive more).equivalentTo x told

theorem mem_equivalentTo_tellEquivalent (known : o.Knows (.concept d)) :
    y ∈ (o.changing d.id (.tellEquivalent c)).equivalentTo x ↔ y ∈ o.equivalentTo x ∨ x = d ∧ y = c := by
  have positive : 1 ≤ d.id := known.bounds.1
  constructor
  · intro told
    obtain ⟨e, isA, equivalentTo, found, member⟩ := mem_equivalentTo.mp told
    obtain ⟨isA', equivalentTo', atOld, ⟨rfl, rfl⟩ | ⟨here, changed⟩⟩ :=
      concept_of_changing positive (within_tellEquivalent c) found
    · exact .inl (mem_equivalentTo.mpr ⟨_, _, _, atOld, member⟩)
    · cases changed
      rcases List.mem_append.mp member with before | new
      · exact .inl (mem_equivalentTo.mpr ⟨_, _, _, atOld, before⟩)
      · cases x
        cases d
        cases here
        exact .inr ⟨rfl, List.mem_singleton.mp new⟩
  · rintro (before | ⟨rfl, rfl⟩)
    · exact (within_equating c known).equivalentTo x before
    · obtain ⟨e, made⟩ := known
      obtain ⟨isA, equivalentTo, found⟩ := expression?_eq_some.mp made
      refine mem_equivalentTo.mpr ⟨e, isA, equivalentTo ++ [y], ?_, by simp⟩
      rw [changing_thing? positive, if_pos rfl, found]
      rfl

/-- An equivalence is told to both sides. -/
theorem mem_equivalentTo_equating (known : o.Knows (.concept d)) (concept : o.Knows (.concept c)) :
    y ∈ ((o.changing d.id (.tellEquivalent c)).changing c.id (.tellEquivalent d)).equivalentTo x ↔
      y ∈ o.equivalentTo x ∨ (x = d ∧ y = c ∨ x = c ∧ y = d) := by
  rw [mem_equivalentTo_tellEquivalent ((within_equating c known).knows concept),
    mem_equivalentTo_tellEquivalent known, or_assoc]

end Edges

/-- What calls keep of the things an ontology knows beyond that it is well-formed: no two have one
expression or one name, equivalences are told to both sides, and what has a name falls under
something, a concept under an older one. -/
structure Consistent (o : Ontology) : Prop where
  distinct : ∀ {c d e}, o.expression? c = some e → o.expression? d = some e → c = d
  unique : ∀ {name v w}, o.Names name v → o.Names name w → v = w
  symmetric : ∀ {c d}, d ∈ o.equivalentTo c → c ∈ o.equivalentTo d
  under : ∀ {c name}, o.expression? c = some (.named name) → c ≠ top → ∃ p ∈ o.isA c, p.id < c.id
  typed : ∀ {i}, o.Knows (.individual i) → ∃ t, t ∈ o.types i

theorem initial_consistent (name : String) : (initial name).Consistent := by
  refine ⟨(initial_kept name).distinct, ?_, ?_, ?_, ?_⟩
  · rintro n v w ⟨id, entry, found, named⟩ ⟨id', entry', found', named'⟩
    obtain ⟨rfl, rfl⟩ := initial_thing? found
    obtain ⟨rfl, rfl⟩ := initial_thing? found'
    cases named
    cases named'
    rfl
  · intro c d told
    obtain ⟨e, isA, equivalentTo, found, member⟩ := mem_equivalentTo.mp told
    cases (initial_thing? found).2
    cases member
  · intro c n named other
    obtain ⟨isA, equivalentTo, found⟩ := expression?_eq_some.mp named
    cases c
    cases (initial_thing? found).1
    exact absurd rfl other
  · rintro i ⟨n, named⟩
    obtain ⟨types, found⟩ := individualName?_eq_some.mp named
    cases (initial_thing? found).2

namespace Consistent

variable (consistent : o.Consistent)
include consistent

theorem adding {entry : Entry} (known : ∀ z ∈ entry.mentions, o.Knows z) (novel : entry.Novel o) :
    (o.adding entry).Consistent := by
  have within := within_adding o entry
  have alone : ∀ e isA equivalentTo, entry = .concept e isA equivalentTo → equivalentTo = [] := by
    rintro e isA equivalentTo rfl
    exact novel.2.1
  refine ⟨distinct_adding consistent.distinct ?_, fun {n v w} first second => ?_, fun {c d} told => ?_,
    fun {c n} named other => ?_, fun {i} individual => ?_⟩
  · rintro e isA equivalentTo rfl
    exact novel.1
  · rcases names_adding.mp first with old | new
    · rcases names_adding.mp second with old' | new'
      · exact consistent.unique old old'
      · exact absurd old (novel.fresh new').unnamed
    · rcases names_adding.mp second with old' | new'
      · exact absurd old' (novel.fresh new).unnamed
      · exact (Prod.mk.inj (Option.some.inj (new.symm.trans new'))).2
  · rw [mem_equivalentTo_adding alone] at told ⊢
    exact consistent.symmetric told
  · obtain ⟨isA, equivalentTo, found⟩ := expression?_eq_some.mp named
    rw [adding_thing?] at found
    split at found
    · rename_i last
      cases found
      obtain ⟨p, base⟩ := List.exists_mem_of_ne_nil isA (novel.2.2 n rfl).2
      have bounds := (known (.concept p) (by simp [Entry.mentions, base])).bounds
      refine ⟨p, mem_isA.mpr ⟨_, _, _, adding_thing?.trans (if_pos last), base⟩, ?_⟩
      rw [last]
      exact Nat.lt_succ_of_le bounds.2
    · obtain ⟨p, told, older⟩ :=
        consistent.under (expression?_eq_some.mpr ⟨isA, equivalentTo, found⟩) other
      exact ⟨p, within.isA c told, older⟩
  · obtain ⟨n, named⟩ := individual
    obtain ⟨types, found⟩ := individualName?_eq_some.mp named
    rw [adding_thing?] at found
    split at found
    · rename_i last
      cases found
      obtain ⟨t, member⟩ := List.exists_mem_of_ne_nil types novel.2
      exact ⟨t, mem_types.mpr ⟨_, _, adding_thing?.trans (if_pos last), member⟩⟩
    · obtain ⟨t, told⟩ := consistent.typed ⟨n, individualName?_eq_some.mpr ⟨types, found⟩⟩
      exact ⟨t, within.types i told⟩

/-- Where nothing is new but what is told, only the symmetry of equivalences is left to see to. -/
theorem retold (within : o.Within o') (names : ∀ {name v}, o'.Names name v → o.Names name v)
    (old : ∀ {c e}, o'.expression? c = some e → o.expression? c = some e)
    (symmetric : ∀ {c d}, d ∈ o'.equivalentTo c → c ∈ o'.equivalentTo d) : o'.Consistent where
  distinct found found' := consistent.distinct (old found) (old found')
  unique first second := consistent.unique (names first) (names second)
  symmetric := symmetric
  under {c name} named other := by
    obtain ⟨p, told, older⟩ := consistent.under (old named) other
    exact ⟨p, within.isA c told, older⟩
  typed {i} known := by
    obtain ⟨name, named⟩ := known
    obtain ⟨t, told⟩ := consistent.typed ⟨name, names_individual.mp (names (names_individual.mpr named))⟩
    exact ⟨t, within.types i told⟩

/-- Telling something else than an equivalence. -/
theorem changing {id : Nat} {f : Entry → Entry} (positive : 1 ≤ id)
    (more : ∀ entry : Entry, entry.Within (f entry))
    (alone : ∀ e isA equivalentTo, ∃ isA', f (.concept e isA equivalentTo) = .concept e isA' equivalentTo) :
    (o.changing id f).Consistent := by
  refine consistent.retold (within_changing positive more) (names_changing positive more).mp
    (changing_expression? positive more) fun {c d} told => ?_
  rw [mem_equivalentTo_changing positive more alone] at told ⊢
  exact consistent.symmetric told

theorem equating (known : o.Knows (.concept d)) (concept : o.Knows (.concept c)) :
    ((o.changing d.id (.tellEquivalent c)).changing c.id (.tellEquivalent d)).Consistent := by
  have first := within_equating c known
  have concept' := first.knows concept
  have positive : 1 ≤ d.id := known.bounds.1
  have positive' : 1 ≤ c.id := concept'.bounds.1
  have more := within_tellEquivalent c
  have more' := within_tellEquivalent d
  refine consistent.retold (first.trans (within_equating d concept'))
    (fun names => (names_changing positive more).mp ((names_changing positive' more').mp names))
    (fun found => changing_expression? positive more (changing_expression? positive' more' found))
    fun {x y} told => ?_
  rw [mem_equivalentTo_equating known concept] at told ⊢
  rcases told with old | ⟨rfl, rfl⟩ | ⟨rfl, rfl⟩
  · exact .inl (consistent.symmetric old)
  · exact .inr (.inr ⟨rfl, rfl⟩)
  · exact .inr (.inl ⟨rfl, rfl⟩)

theorem grown (grows : o.Grows o') : o'.Consistent := by
  cases grows with
  | same => exact consistent
  | added known _ novel => exact consistent.adding known novel
  | signed known =>
    exact consistent.changing known.bounds.1 (within_sign _) fun _ isA _ => ⟨isA, rfl⟩

theorem evolve (evolves : o.Evolves o') : o'.Consistent := by
  cases evolves with
  | grown grows => exact consistent.grown grows
  | told known =>
    exact consistent.changing known.bounds.1 (within_tellIsA _) fun _ isA _ => ⟨isA ++ [_], rfl⟩
  | equated known concept => exact consistent.equating known concept

end Consistent

theorem Reached.consistent {name : String} (reached : Reached name o) : o.Consistent := by
  induction reached with
  | initial => exact initial_consistent name
  | call call reached ih => exact ih.evolve (call.after_evolves reached.wellFormed)

end Ontology

end ConceptLogic
