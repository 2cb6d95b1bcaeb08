import ConceptLogic.Ontology.Building

namespace ConceptLogic

def Entity.id : Entity → Nat
  | .concept c => c.id
  | .individual i => i.id
  | .relation r => r.id

/-- What an expression is made of. -/
def Expression.parts : Expression → List Entity
  | .named _ => []
  | .conjunction cs | .disjunction cs => cs.map .concept
  | .negation x => [.concept x]
  | .nominal is => is.map .individual
  | .restriction _ r x => [.relation r, .concept x]

/-- Everything that an entry speaks of. -/
def Entry.mentions : Entry → List Entity
  | .concept e isA equivalentTo => e.parts ++ (isA ++ equivalentTo).map .concept
  | .individual _ types => types.map .concept
  | .relation _ supers none => supers.map .relation
  | .relation _ supers (some (domain, range)) =>
    supers.map .relation ++ [.concept domain, .concept range]

/-- Whether an entry holds at least what another one holds of the same thing. -/
def Entry.Within : Entry → Entry → Prop
  | .concept e isA equivalentTo, .concept e' isA' equivalentTo' =>
    e = e' ∧ isA ⊆ isA' ∧ equivalentTo ⊆ equivalentTo'
  | .individual name types, .individual name' types' => name = name' ∧ types ⊆ types'
  | .relation name supers _, .relation name' supers' _ => name = name' ∧ supers = supers'
  | _, _ => False

theorem Entry.Within.refl (entry : Entry) : entry.Within entry := by
  cases entry with
  | concept => exact ⟨rfl, fun _ => id, fun _ => id⟩
  | individual => exact ⟨rfl, fun _ => id⟩
  | relation => exact ⟨rfl, rfl⟩

theorem Entry.Within.trans {entry entry' entry'' : Entry} (first : entry.Within entry')
    (second : entry'.Within entry'') : entry.Within entry'' := by
  cases entry <;> cases entry' <;> cases entry'' <;>
    simp only [Entry.Within] at first second ⊢
  · obtain ⟨rfl, isA, equivalentTo⟩ := first
    obtain ⟨rfl, isA', equivalentTo'⟩ := second
    exact ⟨rfl, List.Subset.trans isA isA', List.Subset.trans equivalentTo equivalentTo'⟩
  · obtain ⟨rfl, types⟩ := first
    obtain ⟨rfl, types'⟩ := second
    exact ⟨rfl, List.Subset.trans types types'⟩
  · obtain ⟨rfl, rfl⟩ := first
    exact second

namespace Ontology

variable {o : Ontology}

def Knows (o : Ontology) : Entity → Prop
  | .concept c => ∃ e, o.expression? c = some e
  | .individual i => ∃ name, o.individualName? i = some name
  | .relation r => ∃ name, o.relationName? r = some name

instance (o : Ontology) : DecidablePred o.Knows
  | .concept c => decidable_of_iff _ (Option.isSome_iff_exists (x := o.expression? c))
  | .individual i => decidable_of_iff _ (Option.isSome_iff_exists (x := o.individualName? i))
  | .relation r => decidable_of_iff _ (Option.isSome_iff_exists (x := o.relationName? r))

theorem expression?_eq_some {c : ConceptId} {e : Expression} :
    o.expression? c = some e ↔ ∃ isA equivalentTo, o.thing? c.id = some (.concept e isA equivalentTo) := by
  unfold expression?
  split
  · rename_i e' isA equivalentTo found
    simp [found]
  · rename_i other
    simp only [reduceCtorEq, false_iff]
    rintro ⟨isA, equivalentTo, found⟩
    exact other _ _ _ found

theorem individualName?_eq_some {i : IndividualId} {name : String} :
    o.individualName? i = some name ↔ ∃ types, o.thing? i.id = some (.individual name types) := by
  unfold individualName?
  split
  · rename_i name' types found
    simp [found]
  · rename_i other
    simp only [reduceCtorEq, false_iff]
    rintro ⟨types, found⟩
    exact other _ _ found

theorem relationName?_eq_some {r : RelationId} {name : String} :
    o.relationName? r = some name ↔
      ∃ supers signature, o.thing? r.id = some (.relation name supers signature) := by
  unfold relationName?
  split
  · rename_i name' supers signature found
    simp [found]
  · rename_i other
    simp only [reduceCtorEq, false_iff]
    rintro ⟨supers, signature, found⟩
    exact other _ _ _ found

theorem mem_isA {c p : ConceptId} : p ∈ o.isA c ↔
    ∃ e isA equivalentTo, o.thing? c.id = some (.concept e isA equivalentTo) ∧ p ∈ isA := by
  unfold isA
  split
  · rename_i found
    simp [found, and_assoc]
  · rename_i other
    simp only [List.not_mem_nil, false_iff]
    rintro ⟨e, isA, equivalentTo, found, _⟩
    exact other _ _ _ found

theorem mem_equivalentTo {c p : ConceptId} : p ∈ o.equivalentTo c ↔
    ∃ e isA equivalentTo, o.thing? c.id = some (.concept e isA equivalentTo) ∧ p ∈ equivalentTo := by
  unfold equivalentTo
  split
  · rename_i found
    simp [found, and_assoc]
  · rename_i other
    simp only [List.not_mem_nil, false_iff]
    rintro ⟨e, isA, equivalentTo, found, _⟩
    exact other _ _ _ found

theorem mem_types {i : IndividualId} {t : ConceptId} : t ∈ o.types i ↔
    ∃ name types, o.thing? i.id = some (.individual name types) ∧ t ∈ types := by
  unfold types
  split
  · rename_i found
    simp [found, and_assoc]
  · rename_i other
    simp only [List.not_mem_nil, false_iff]
    rintro ⟨name, types, found, _⟩
    exact other _ _ found

theorem mem_supers {r s : RelationId} : s ∈ o.supers r ↔
    ∃ name supers signature, o.thing? r.id = some (.relation name supers signature) ∧ s ∈ supers := by
  unfold supers
  split
  · rename_i found
    simp [found, and_assoc]
  · rename_i other
    simp only [List.not_mem_nil, false_iff]
    rintro ⟨name, supers, signature, found, _⟩
    exact other _ _ _ found

theorem thing?_bounds {n : Nat} {entry : Entry} (found : o.thing? n = some entry) :
    1 ≤ n ∧ n ≤ o.size := by
  cases n with
  | zero => cases found
  | succ n =>
    obtain ⟨below, _⟩ := Array.getElem?_eq_some_iff.mp found
    exact ⟨Nat.succ_pos n, below⟩

/-- At first there is only the concept of everything. -/
theorem initial_thing? {name : String} {n : Nat} {entry : Entry} (found : (initial name).thing? n = some entry) :
    n = 1 ∧ entry = .concept (.named name) [] [] := by
  have bounds := thing?_bounds found
  have one : n = 1 := Nat.le_antisymm bounds.2 bounds.1
  subst one
  cases found
  exact ⟨rfl, rfl⟩

theorem Knows.entry {x : Entity} (known : o.Knows x) : ∃ entry, o.thing? x.id = some entry := by
  cases x with
  | concept c =>
    obtain ⟨e, found⟩ := known
    obtain ⟨isA, equivalentTo, found⟩ := expression?_eq_some.mp found
    exact ⟨_, found⟩
  | individual i =>
    obtain ⟨name, found⟩ := known
    obtain ⟨types, found⟩ := individualName?_eq_some.mp found
    exact ⟨_, found⟩
  | relation r =>
    obtain ⟨name, found⟩ := known
    obtain ⟨supers, signature, found⟩ := relationName?_eq_some.mp found
    exact ⟨_, found⟩

theorem Knows.bounds {x : Entity} (known : o.Knows x) : 1 ≤ x.id ∧ x.id ≤ o.size := by
  obtain ⟨_, found⟩ := known.entry
  exact thing?_bounds found

/-- One number is never that of a concept and of an individual. -/
theorem Knows.id_ne {c : ConceptId} {i : IndividualId} (concept : o.Knows (.concept c))
    (individual : o.Knows (.individual i)) : c.id ≠ i.id := by
  intro same
  obtain ⟨e, found⟩ := concept
  obtain ⟨name, found'⟩ := individual
  obtain ⟨isA, equivalentTo, found⟩ := expression?_eq_some.mp found
  obtain ⟨types, found'⟩ := individualName?_eq_some.mp found'
  rw [same, found'] at found
  cases found

end Ontology

/-- The form in which expressions are kept. Operands of a connective are at least
two, in the order of their numbers, and none is made by the same connective. -/
def Expression.Normal (o : Ontology) : Expression → Prop
  | .named _ | .restriction .. => True
  | .conjunction cs => 2 ≤ cs.length ∧ cs.Pairwise (·.id < ·.id) ∧
    ∀ c ∈ cs, ∀ xs, o.expression? c ≠ some (.conjunction xs)
  | .disjunction cs => 2 ≤ cs.length ∧ cs.Pairwise (·.id < ·.id) ∧
    ∀ c ∈ cs, ∀ xs, o.expression? c ≠ some (.disjunction xs)
  | .negation x => ∀ y, o.expression? x ≠ some (.negation y)
  | .nominal is => is.Pairwise (·.id < ·.id)

namespace Ontology

/-- What holds of every ontology that calls build: it speaks of known things only,
expressions are made of older things, and they are kept in normal form. -/
structure WellFormed (o : Ontology) : Prop where
  top_named : ∃ name, o.expression? top = some (.named name)
  closed : ∀ {n entry}, o.thing? n = some entry → ∀ x ∈ entry.mentions, o.Knows x
  older : ∀ {c e}, o.expression? c = some e → ∀ x ∈ e.parts, x.id < c.id
  normal : ∀ {c e}, o.expression? c = some e → e.Normal o

namespace WellFormed

variable {o : Ontology} (wf : o.WellFormed)
include wf

theorem parts_known {c : ConceptId} {e : Expression} (found : o.expression? c = some e) :
    ∀ x ∈ e.parts, o.Knows x := by
  obtain ⟨isA, equivalentTo, found⟩ := expression?_eq_some.mp found
  intro x part
  exact wf.closed found x (List.mem_append_left _ part)

theorem isA_known {c p : ConceptId} (told : p ∈ o.isA c) : o.Knows (.concept p) := by
  obtain ⟨e, isA, equivalentTo, found, member⟩ := mem_isA.mp told
  refine wf.closed found _ (List.mem_append_right _ (List.mem_map_of_mem ?_))
  exact List.mem_append_left _ member

theorem equivalentTo_known {c p : ConceptId} (told : p ∈ o.equivalentTo c) : o.Knows (.concept p) := by
  obtain ⟨e, isA, equivalentTo, found, member⟩ := mem_equivalentTo.mp told
  refine wf.closed found _ (List.mem_append_right _ (List.mem_map_of_mem ?_))
  exact List.mem_append_right _ member

theorem told_known {c p : ConceptId} (told : p ∈ o.told c) : o.Knows (.concept p) :=
  (List.mem_append.mp told).elim wf.isA_known wf.equivalentTo_known

theorem types_known {i : IndividualId} {t : ConceptId} (told : t ∈ o.types i) : o.Knows (.concept t) := by
  obtain ⟨name, types, found, member⟩ := mem_types.mp told
  exact wf.closed found _ (List.mem_map_of_mem member)

theorem supers_known {r s : RelationId} (told : s ∈ o.supers r) : o.Knows (.relation s) := by
  obtain ⟨name, supers, signature, found, member⟩ := mem_supers.mp told
  refine wf.closed found _ ?_
  cases signature with
  | none => exact List.mem_map_of_mem member
  | some pair => exact List.mem_append_left _ (List.mem_map_of_mem member)

theorem signature_known {r : RelationId} {domain range : ConceptId}
    (signed : o.signature? r = some (domain, range)) : o.Knows (.concept domain) ∧ o.Knows (.concept range) := by
  unfold signature? at signed
  split at signed
  · rename_i found
    subst signed
    exact ⟨wf.closed found _ (List.mem_append_right _ (List.mem_cons_self ..)),
      wf.closed found _ (List.mem_append_right _ (by simp))⟩
  · cases signed

theorem conjunct_known {c x : ConceptId} {cs : List ConceptId}
    (found : o.expression? c = some (.conjunction cs)) (member : x ∈ cs) : o.Knows (.concept x) :=
  wf.parts_known found _ (List.mem_map_of_mem member)

theorem disjunct_known {c x : ConceptId} {cs : List ConceptId}
    (found : o.expression? c = some (.disjunction cs)) (member : x ∈ cs) : o.Knows (.concept x) :=
  wf.parts_known found _ (List.mem_map_of_mem member)

theorem negated_known {c x : ConceptId} (found : o.expression? c = some (.negation x)) :
    o.Knows (.concept x) :=
  wf.parts_known found _ (List.mem_singleton.mpr rfl)

theorem nominated_known {c : ConceptId} {i : IndividualId} {is : List IndividualId}
    (found : o.expression? c = some (.nominal is)) (member : i ∈ is) : o.Knows (.individual i) :=
  wf.parts_known found _ (List.mem_map_of_mem member)

theorem filler_known {c x : ConceptId} {q : Quantifier} {r : RelationId}
    (found : o.expression? c = some (.restriction q r x)) : o.Knows (.concept x) :=
  wf.parts_known found _ (List.mem_cons_of_mem _ (List.mem_singleton.mpr rfl))

theorem relation_known {c x : ConceptId} {q : Quantifier} {r : RelationId}
    (found : o.expression? c = some (.restriction q r x)) : o.Knows (.relation r) :=
  wf.parts_known found _ (List.mem_cons_self ..)

theorem top_known : o.Knows (.concept top) := by
  obtain ⟨name, found⟩ := wf.top_named
  exact ⟨_, found⟩

/-- The concept of everything has a name. -/
theorem ne_top {c : ConceptId} {e : Expression} (made : o.expression? c = some e)
    (unnamed : ∀ name, e ≠ .named name) : c ≠ top := by
  rintro rfl
  obtain ⟨name, named⟩ := wf.top_named
  exact unnamed name (Option.some.inj (made.symm.trans named))

end WellFormed

end Ontology

end ConceptLogic
