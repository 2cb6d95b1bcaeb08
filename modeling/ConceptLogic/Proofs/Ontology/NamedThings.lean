import ConceptLogic.Environment
import ConceptLogic.Proofs.Ontology.AnonymousAnnexes
import Mathlib.Order.Defs.Unbundled

namespace ConceptLogic

/-- The name of an entry, and the value that it stands for under its number. -/
def Entry.named? (id : Nat) : Entry → Option (String × Value)
  | .concept (.named name) _ _ => some (name, .concept ⟨id⟩)
  | .concept .. => none
  | .individual name _ => some (name, .individual ⟨id⟩)
  | .relation name _ _ => some (name, .relation ⟨id⟩)

theorem Entry.Within.named? {entry entry' : Entry} (within : entry.Within entry') (id : Nat) :
    entry'.named? id = entry.named? id := by
  match entry, entry', within with
  | .concept e .., .concept _ .., ⟨rfl, _⟩ => cases e <;> rfl
  | .individual .., .individual .., ⟨rfl, _⟩ => rfl
  | .relation .., .relation .., ⟨rfl, _⟩ => rfl

theorem Entry.id_of_named? {entry : Entry} {id : Nat} {name : String} {c : ConceptId}
    (named : entry.named? id = some (name, .concept c)) : c.id = id := by
  cases entry with
  | concept e =>
    cases e <;> cases named
    rfl
  | _ => cases named

/-- Whether a value stands for known things only. -/
def Value.Known (o : Ontology) : Value → Prop
  | .concept c => o.Knows (.concept c)
  | .individual i => o.Knows (.individual i)
  | .relation r => o.Knows (.relation r)
  | _ => True

namespace Ontology

variable {o o' o'' : Ontology} {name : String} {v : Value}

/-- Whether an ontology keeps a value under a name. -/
def Names (o : Ontology) (name : String) (v : Value) : Prop :=
  ∃ id entry, o.thing? id = some entry ∧ entry.named? id = some (name, v)

theorem names_concept {c : ConceptId} : o.Names name (.concept c) ↔ o.expression? c = some (.named name) := by
  rw [expression?_eq_some]
  constructor
  · rintro ⟨id, entry, found, named⟩
    cases entry with
    | concept e isA equivalentTo =>
      cases e <;> cases named
      exact ⟨isA, equivalentTo, found⟩
    | _ => cases named
  · rintro ⟨isA, equivalentTo, found⟩
    exact ⟨c.id, _, found, rfl⟩

theorem names_individual {i : IndividualId} :
    o.Names name (.individual i) ↔ o.individualName? i = some name := by
  rw [individualName?_eq_some]
  constructor
  · rintro ⟨id, entry, found, named⟩
    cases entry with
    | concept e => cases e <;> cases named
    | individual _ types =>
      cases named
      exact ⟨types, found⟩
    | relation => cases named
  · rintro ⟨types, found⟩
    exact ⟨i.id, _, found, rfl⟩

theorem names_relation {r : RelationId} :
    o.Names name (.relation r) ↔ o.relationName? r = some name := by
  rw [relationName?_eq_some]
  constructor
  · rintro ⟨id, entry, found, named⟩
    cases entry with
    | concept e => cases e <;> cases named
    | individual => cases named
    | relation _ supers signature =>
      cases named
      exact ⟨supers, signature, found⟩
  · rintro ⟨supers, signature, found⟩
    exact ⟨r.id, _, found, rfl⟩

/-- Only concepts, individuals and relations have names. -/
theorem Names.cases (names : o.Names name v) :
    (∃ c, v = .concept c) ∨ (∃ i, v = .individual i) ∨ ∃ r, v = .relation r := by
  obtain ⟨id, entry, _, named⟩ := names
  cases entry with
  | concept e =>
    cases e <;> cases named
    exact .inl ⟨_, rfl⟩
  | individual =>
    cases named
    exact .inr (.inl ⟨_, rfl⟩)
  | relation =>
    cases named
    exact .inr (.inr ⟨_, rfl⟩)

theorem Names.known (names : o.Names name v) : v.Known o := by
  rcases names.cases with ⟨c, rfl⟩ | ⟨i, rfl⟩ | ⟨r, rfl⟩
  · exact ⟨_, names_concept.mp names⟩
  · exact ⟨_, names_individual.mp names⟩
  · exact ⟨_, names_relation.mp names⟩

/-- A fresh name is the name of nothing. -/
theorem Fresh.unnamed (fresh : o.Fresh name) : ¬o.Names name v := by
  rintro ⟨id, entry, found, named⟩
  obtain ⟨noConcept, noIndividual, noRelation⟩ := fresh
  have absent : ∀ {role : Role} {p : Entry → Bool}, ((o.find? p).map Handle.mk : Option (Handle role)) = none →
      p entry ≠ true := by
    intro role p none holds
    have here := find?_isSome found holds
    rw [Option.map_eq_none_iff.mp none] at here
    cases here
  cases entry with
  | concept e =>
    cases e <;> cases named
    exact absent noConcept (decide_eq_true rfl)
  | individual =>
    cases named
    exact absent noIndividual (decide_eq_true rfl)
  | relation =>
    cases named
    exact absent noRelation (decide_eq_true rfl)

/-- A test that only entries of one name and one kind meet finds one of them, if there is one. -/
theorem find?_of_names {role : Role} {p : Entry → Bool} {w : Handle role → Value} {n : Nat} {entry : Entry}
    (there : o.thing? n = some entry) (holds : p entry = true)
    (meets : ∀ id entry, p entry = true → entry.named? id = some (name, w ⟨id⟩)) :
    ∃ h, (o.find? p).map Handle.mk = some h ∧ o.Names name (w h) := by
  obtain ⟨id, found⟩ := Option.isSome_iff_exists.mp (find?_isSome there holds)
  obtain ⟨first, atId, matched⟩ := find?_sound found
  exact ⟨⟨id⟩, congrArg (Option.map Handle.mk) found, id, first, atId, meets _ _ matched⟩

theorem individualNamed?_of_names {i : IndividualId} (names : o.Names name (.individual i)) :
    ∃ j, o.individualNamed? name = some j ∧ o.Names name (.individual j) := by
  obtain ⟨types, there⟩ := individualName?_eq_some.mp (names_individual.mp names)
  refine find?_of_names there (decide_eq_true rfl) fun id entry meets => ?_
  cases entry with
  | individual => rw [Entry.named?, of_decide_eq_true meets]
  | _ => cases meets

theorem relationNamed?_of_names {r : RelationId} (names : o.Names name (.relation r)) :
    ∃ s, o.relationNamed? name = some s ∧ o.Names name (.relation s) := by
  obtain ⟨supers, signature, there⟩ := relationName?_eq_some.mp (names_relation.mp names)
  refine find?_of_names there (decide_eq_true rfl) fun id entry meets => ?_
  cases entry with
  | relation => rw [Entry.named?, of_decide_eq_true meets]
  | _ => cases meets

theorem names_adding {entry : Entry} :
    (o.adding entry).Names name v ↔ o.Names name v ∨ entry.named? (o.size + 1) = some (name, v) := by
  constructor
  · rintro ⟨id, here, found, named⟩
    rw [adding_thing?] at found
    split at found
    · rename_i last
      cases found
      exact .inr (last ▸ named)
    · exact .inl ⟨id, here, found, named⟩
  · rintro (⟨id, here, found, named⟩ | named)
    · refine ⟨id, here, ?_, named⟩
      have bounds := thing?_bounds found
      rw [adding_thing?, if_neg (by omega), found]
    · exact ⟨_, entry, adding_thing?.trans (if_pos rfl), named⟩

/-- An ontology that holds at least as much and keeps the same under each name. Nothing that is
needed of a session is lost. -/
structure Upholds (o o' : Ontology) : Prop where
  within : o.Within o'
  names : ∀ {name v}, o'.Names name v ↔ o.Names name v
  kept : o.Kept → o'.Kept

theorem Upholds.refl (o : Ontology) : o.Upholds o := ⟨.refl o, .rfl, id⟩

theorem Upholds.trans (first : o.Upholds o') (second : o'.Upholds o'') : o.Upholds o'' :=
  ⟨first.within.trans second.within, second.names.trans first.names, second.kept ∘ first.kept⟩

/-- What is told to something leaves all under its name. -/
theorem names_changing {id : Nat} {f : Entry → Entry} (positive : 1 ≤ id)
    (more : ∀ entry : Entry, entry.Within (f entry)) : (o.changing id f).Names name v ↔ o.Names name v := by
  constructor
  · rintro ⟨n, entry, found, named⟩
    rw [changing_thing? positive] at found
    split at found
    · obtain ⟨old, atOld, rfl⟩ := Option.map_eq_some_iff.mp found
      exact ⟨n, old, atOld, (more old).named? n ▸ named⟩
    · exact ⟨n, entry, found, named⟩
  · rintro ⟨n, entry, found, named⟩
    obtain ⟨entry', found', kept⟩ := within_changing positive more n entry found
    exact ⟨n, entry', found', (kept.named? n).trans named⟩

theorem upholds_changing {id : Nat} {f : Entry → Entry} (positive : 1 ≤ id)
    (more : ∀ entry : Entry, entry.Within (f entry))
    (wellFormed : o.WellFormed → (o.changing id f).WellFormed) : o.Upholds (o.changing id f) :=
  ⟨within_changing positive more, names_changing positive more,
    fun kept => kept.changing positive more (wellFormed kept.wellFormed)⟩

theorem Annexes.names (annexes : o.Annexes o') : o'.Names name v ↔ o.Names name v := by
  constructor
  · rintro ⟨n, entry, found, named⟩
    by_cases old : n ≤ o.size
    · exact ⟨n, entry, annexes.thing?_old old ▸ found, named⟩
    · obtain ⟨e, anonymous, rfl⟩ := annexes.thing?_new (Nat.lt_of_not_le old) found
      cases e with
      | named => exact absurd rfl (anonymous _)
      | _ => cases named
  · rintro ⟨n, entry, found, named⟩
    exact ⟨n, entry, (annexes.thing?_old (thing?_bounds found).2).trans found, named⟩

/-- What statements that declare nothing do to an ontology. -/
structure Extends (o o' : Ontology) : Prop where
  annexes : o.Annexes o'
  kept : o.Kept → o'.Kept

theorem Extends.upholds (adds : o.Extends o') : o.Upholds o' :=
  ⟨adds.annexes.within, adds.annexes.names, adds.kept⟩

instance : Std.Refl Extends := ⟨fun o => ⟨.refl o, id⟩⟩

instance : IsTrans Ontology Extends :=
  ⟨fun _ _ _ first second => ⟨first.annexes.trans second.annexes, second.kept ∘ first.kept⟩⟩

end Ontology

theorem Value.Known.within {o o' : Ontology} (within : o.Within o') {v : Value} (known : v.Known o) :
    v.Known o' := by
  cases v with
  | concept c => exact within.knows (x := .concept c) known
  | individual i => exact within.knows (x := .individual i) known
  | relation r => exact within.knows (x := .relation r) known
  | _ => trivial

end ConceptLogic
