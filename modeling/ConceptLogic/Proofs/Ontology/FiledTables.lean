import ConceptLogic.Ontology.Tables
import ConceptLogic.Proofs.Ontology.AnonymousAnnexes

namespace ConceptLogic

/-- How the numbers of known things lie: from one up to the last that was given out, with one thing
for each. -/
structure Numbered (bound : Nat) (known : Entity → Prop) : Prop where
  within : ∀ {x}, known x → 1 ≤ x.id ∧ x.id ≤ bound
  apart : ∀ {x y}, known x → known y → x.id = y.id → x = y
  spent : ∀ {n}, 1 ≤ n → n ≤ bound → ∃ x, known x ∧ x.id = n

/-- The next number may go to a thing of any kind. -/
theorem Numbered.succ {bound : Nat} {known known' : Entity → Prop} {z : Entity}
    (numbered : Numbered bound known) (next : z.id = bound + 1) (added : ∀ x, known' x ↔ x = z ∨ known x) :
    Numbered (bound + 1) known' where
  within known := by
    rcases (added _).mp known with rfl | old
    · omega
    · have bounds := numbered.within old
      omega
  apart {x y} known known' same := by
    rcases (added x).mp known with rfl | old
    · rcases (added y).mp known' with rfl | old'
      · rfl
      · have bounds := numbered.within old'
        omega
    · rcases (added y).mp known' with rfl | old'
      · have bounds := numbered.within old
        omega
      · exact numbered.apart old old' same
  spent {n} positive below := by
    by_cases last : n = bound + 1
    · exact ⟨z, (added z).mpr (.inl rfl), next.trans last.symm⟩
    · obtain ⟨x, old, number⟩ := numbered.spent positive (by omega)
      exact ⟨x, (added x).mpr (.inr old), number⟩

/-- The thing that an entry keeps under a number. -/
def Entry.entity (id : Nat) : Entry → Entity
  | .concept .. => .concept ⟨id⟩
  | .individual .. => .individual ⟨id⟩
  | .relation .. => .relation ⟨id⟩

theorem filterMap_range_length {α : Type} {f : Nat → Option α} {bound : Nat}
    (some : ∀ n < bound, (f n).isSome) : ((List.range bound).filterMap f).length = bound := by
  rw [List.length_filterMap_eq_countP, List.countP_eq_length.mpr fun n member => some n (List.mem_range.mp member),
    List.length_range]

theorem getElem?_filterMap_range {α : Type} {f : Nat → Option α} {bound : Nat}
    (some : ∀ n < bound, (f n).isSome) (n : Nat) :
    ((List.range bound).filterMap f)[n]? = if n < bound then f n else none := by
  induction bound with
  | zero => rfl
  | succ bound ih =>
    have earlier : ∀ n < bound, (f n).isSome := fun n below => some n (Nat.lt_succ_of_lt below)
    obtain ⟨a, last⟩ := Option.isSome_iff_exists.mp (some bound (Nat.lt_succ_self bound))
    rw [List.range_succ, List.filterMap_append, List.getElem?_append, filterMap_range_length earlier, ih earlier]
    rcases Nat.lt_trichotomy n bound with below | rfl | above
    · rw [if_pos below, if_pos below, if_pos (Nat.lt_succ_of_lt below)]
    · simp [last]
    · rw [if_neg (by omega), if_neg (by omega)]
      simp [last]
      omega

/-- An ontology is what it keeps under each number. -/
theorem Ontology.ext_thing? {o o' : Ontology} (same : ∀ n, o.thing? n = o'.thing? n) : o = o' := by
  cases o
  cases o'
  exact congrArg Ontology.mk (Array.ext_getElem? fun n => same (n + 1))

namespace Tables

variable {t : Tables}

def Knows (t : Tables) : Entity → Prop
  | .concept c => ∃ e, t.expression? c = some e
  | .individual i => ∃ name, t.individualName? i = some name
  | .relation r => ∃ name, t.relationName? r = some name

theorem expression?_eq_none {c : ConceptId} (unknown : ¬t.Knows (.concept c)) : t.expression? c = none :=
  Option.eq_none_iff_forall_ne_some.mpr fun e found => unknown ⟨e, found⟩

theorem individualName?_eq_none {i : IndividualId} (unknown : ¬t.Knows (.individual i)) :
    t.individualName? i = none :=
  Option.eq_none_iff_forall_ne_some.mpr fun name found => unknown ⟨name, found⟩

theorem relationName?_eq_none {r : RelationId} (unknown : ¬t.Knows (.relation r)) : t.relationName? r = none :=
  Option.eq_none_iff_forall_ne_some.mpr fun name found => unknown ⟨name, found⟩

/-- How the tables agree with each other and with the counter: those of expressions and names have
the same pairs either way, numbers are given out once, and no line speaks of an unknown thing. -/
structure Filed (t : Tables) : Prop where
  concepts : t.concepts.Paired
  individuals : t.individuals.Paired
  relations : t.relations.Paired
  numbered : Numbered t.bound t.Knows
  edges : ∀ {c}, c ∈ t.edges → t.Knows (.concept c)
  types : ∀ {i}, i ∈ t.typesOf → t.Knows (.individual i)
  supers : ∀ {r}, r ∈ t.supersOf → t.Knows (.relation r)
  signatures : ∀ {r}, r ∈ t.signatureOf → t.Knows (.relation r)
  top : t.top = Ontology.top

section Entries

/-! What a known thing has under its number. -/

theorem thing?_eq_none {n : Nat} (concept : ¬t.Knows (.concept ⟨n⟩)) (individual : ¬t.Knows (.individual ⟨n⟩))
    (relation : ¬t.Knows (.relation ⟨n⟩)) : t.thing? n = none := by
  rw [thing?, expression?_eq_none concept, individualName?_eq_none individual, relationName?_eq_none relation]

/-- Only a known thing has an entry, and one of its own kind. -/
theorem thing?_cases {n : Nat} {entry : Entry} (found : t.thing? n = some entry) :
    (∃ e, t.expression? ⟨n⟩ = some e ∧ entry = .concept e (t.told ⟨n⟩).isA (t.told ⟨n⟩).equivalentTo) ∨
    (∃ name, t.individualName? ⟨n⟩ = some name ∧ entry = .individual name (t.types ⟨n⟩)) ∨
    ∃ name, t.relationName? ⟨n⟩ = some name ∧ entry = .relation name (t.supers ⟨n⟩) (t.signature? ⟨n⟩) := by
  unfold thing? at found
  split at found
  · rename_i made
    exact .inl ⟨_, made, (Option.some.inj found).symm⟩
  · rename_i named
    exact .inr (.inl ⟨_, named, (Option.some.inj found).symm⟩)
  · rename_i named
    exact .inr (.inr ⟨_, named, (Option.some.inj found).symm⟩)
  · cases found

theorem knows_of_thing? {n : Nat} {entry : Entry} (found : t.thing? n = some entry) :
    t.Knows (entry.entity n) := by
  obtain ⟨_, made, rfl⟩ | ⟨_, named, rfl⟩ | ⟨_, named, rfl⟩ := thing?_cases found
  · exact ⟨_, made⟩
  · exact ⟨_, named⟩
  · exact ⟨_, named⟩

theorem thing?_concept {c : ConceptId} {e : Expression} (found : t.expression? c = some e) :
    t.thing? c.id = some (.concept e (t.told c).isA (t.told c).equivalentTo) := by
  rw [thing?, found]

variable (filed : t.Filed)
include filed

theorem Filed.not_knows {x y : Entity} (known : t.Knows x) (same : x.id = y.id) (other : x ≠ y) :
    ¬t.Knows y := fun known' => other (filed.numbered.apart known known' same)

theorem thing?_individual {i : IndividualId} {name : String} (found : t.individualName? i = some name) :
    t.thing? i.id = some (.individual name (t.types i)) := by
  have concept : ¬t.Knows (.concept ⟨i.id⟩) := filed.not_knows (x := .individual i) ⟨name, found⟩ rfl nofun
  rw [thing?, expression?_eq_none concept, found]

theorem thing?_relation {r : RelationId} {name : String} (found : t.relationName? r = some name) :
    t.thing? r.id = some (.relation name (t.supers r) (t.signature? r)) := by
  have concept : ¬t.Knows (.concept ⟨r.id⟩) := filed.not_knows (x := .relation r) ⟨name, found⟩ rfl nofun
  have individual : ¬t.Knows (.individual ⟨r.id⟩) := filed.not_knows (x := .relation r) ⟨name, found⟩ rfl nofun
  rw [thing?, expression?_eq_none concept, individualName?_eq_none individual, found]

theorem told_of_unknown {c : ConceptId} (unknown : ¬t.Knows (.concept c)) : t.told c = .none := by
  rw [told, AList.lookup_eq_none.mpr fun line => unknown (filed.edges line), Option.getD_none]

theorem types_of_unknown {i : IndividualId} (unknown : ¬t.Knows (.individual i)) : t.types i = [] := by
  rw [types, AList.lookup_eq_none.mpr fun line => unknown (filed.types line), Option.getD_none]

theorem supers_of_unknown {r : RelationId} (unknown : ¬t.Knows (.relation r)) : t.supers r = [] := by
  rw [supers, AList.lookup_eq_none.mpr fun line => unknown (filed.supers line), Option.getD_none]

theorem signature?_of_unknown {r : RelationId} (unknown : ¬t.Knows (.relation r)) : t.signature? r = none :=
  AList.lookup_eq_none.mpr fun line => unknown (filed.signatures line)

theorem Filed.thing?_isSome {n : Nat} : (t.thing? n).isSome ↔ 1 ≤ n ∧ n ≤ t.bound := by
  constructor
  · intro some
    by_contra outside
    have unknown : ∀ x : Entity, x.id = n → ¬t.Knows x := by
      rintro x rfl known
      exact outside (filed.numbered.within known)
    rw [thing?_eq_none (unknown _ rfl) (unknown _ rfl) (unknown _ rfl)] at some
    cases some
  · rintro ⟨positive, below⟩
    obtain ⟨x, known, rfl⟩ := filed.numbered.spent positive below
    cases x with
    | concept c =>
      obtain ⟨e, found⟩ := known
      exact Option.isSome_of_eq_some (thing?_concept found)
    | individual i =>
      obtain ⟨name, found⟩ := known
      exact Option.isSome_of_eq_some (thing?_individual filed found)
    | relation r =>
      obtain ⟨name, found⟩ := known
      exact Option.isSome_of_eq_some (thing?_relation filed found)

end Entries

section Shown

/-! What is found in the ontology that tables show is what is found in the tables. -/

variable (filed : t.Filed)
include filed

theorem size_shown : t.shown.size = t.bound := by
  rw [shown, Ontology.size, List.size_toArray, filterMap_range_length fun n below => ?_]
  exact filed.thing?_isSome.mpr ⟨Nat.succ_pos n, below⟩

theorem thing?_shown (n : Nat) : t.shown.thing? n = t.thing? n := by
  cases n with
  | zero =>
    cases outside : t.thing? 0 with
    | none => rfl
    | some entry => exact absurd (filed.thing?_isSome.mp (Option.isSome_of_eq_some outside)).1 (by omega)
  | succ n =>
    have some : ∀ n < t.bound, (t.thing? (n + 1)).isSome := fun n below =>
      filed.thing?_isSome.mpr ⟨Nat.succ_pos n, below⟩
    rw [Ontology.thing?, shown, List.getElem?_toArray, getElem?_filterMap_range some]
    split
    · rfl
    · rename_i outside
      cases beyond : t.thing? (n + 1) with
      | none => rfl
      | some entry => exact absurd (filed.thing?_isSome.mp (Option.isSome_of_eq_some beyond)).2 outside

theorem expression?_shown (c : ConceptId) : t.shown.expression? c = t.expression? c := by
  refine Option.ext fun e => ?_
  rw [Ontology.expression?_eq_some, thing?_shown filed]
  constructor
  · rintro ⟨isA, equivalentTo, found⟩
    obtain ⟨_, made, same⟩ | ⟨_, _, other⟩ | ⟨_, _, other⟩ := thing?_cases found
    · cases same
      exact made
    · cases other
    · cases other
  · exact fun found => ⟨_, _, thing?_concept found⟩

theorem individualName?_shown (i : IndividualId) : t.shown.individualName? i = t.individualName? i := by
  refine Option.ext fun name => ?_
  rw [Ontology.individualName?_eq_some, thing?_shown filed]
  constructor
  · rintro ⟨types, found⟩
    obtain ⟨_, _, other⟩ | ⟨_, named, same⟩ | ⟨_, _, other⟩ := thing?_cases found
    · cases other
    · cases same
      exact named
    · cases other
  · exact fun found => ⟨_, thing?_individual filed found⟩

theorem relationName?_shown (r : RelationId) : t.shown.relationName? r = t.relationName? r := by
  refine Option.ext fun name => ?_
  rw [Ontology.relationName?_eq_some, thing?_shown filed]
  constructor
  · rintro ⟨supers, signature, found⟩
    obtain ⟨_, _, other⟩ | ⟨_, _, other⟩ | ⟨_, named, same⟩ := thing?_cases found
    · cases other
    · cases other
    · cases same
      exact named
  · exact fun found => ⟨_, _, thing?_relation filed found⟩

theorem knows_shown (x : Entity) : t.shown.Knows x ↔ t.Knows x := by
  cases x with
  | concept c => rw [Ontology.Knows, expression?_shown filed, Knows]
  | individual i => rw [Ontology.Knows, individualName?_shown filed, Knows]
  | relation r => rw [Ontology.Knows, relationName?_shown filed, Knows]

theorem isA_shown (c : ConceptId) : t.shown.isA c = (t.told c).isA := by
  rw [Ontology.isA, thing?_shown filed]
  by_cases known : t.Knows (.concept c)
  · obtain ⟨_, found⟩ := known
    rw [thing?_concept found]
  · rw [told_of_unknown filed known]
    split
    · rename_i found
      exact absurd (knows_of_thing? found) known
    · rfl

theorem equivalentTo_shown (c : ConceptId) : t.shown.equivalentTo c = (t.told c).equivalentTo := by
  rw [Ontology.equivalentTo, thing?_shown filed]
  by_cases known : t.Knows (.concept c)
  · obtain ⟨_, found⟩ := known
    rw [thing?_concept found]
  · rw [told_of_unknown filed known]
    split
    · rename_i found
      exact absurd (knows_of_thing? found) known
    · rfl

theorem types_shown (i : IndividualId) : t.shown.types i = t.types i := by
  rw [Ontology.types, thing?_shown filed]
  by_cases known : t.Knows (.individual i)
  · obtain ⟨_, found⟩ := known
    rw [thing?_individual filed found]
  · rw [types_of_unknown filed known]
    split
    · rename_i found
      exact absurd (knows_of_thing? found) known
    · rfl

theorem supers_shown (r : RelationId) : t.shown.supers r = t.supers r := by
  rw [Ontology.supers, thing?_shown filed]
  by_cases known : t.Knows (.relation r)
  · obtain ⟨_, found⟩ := known
    rw [thing?_relation filed found]
  · rw [supers_of_unknown filed known]
    split
    · rename_i found
      exact absurd (knows_of_thing? found) known
    · rfl

theorem signature?_shown (r : RelationId) : t.shown.signature? r = t.signature? r := by
  rw [Ontology.signature?, thing?_shown filed]
  by_cases known : t.Knows (.relation r)
  · obtain ⟨_, found⟩ := known
    rw [thing?_relation filed found]
  · rw [signature?_of_unknown filed known]
    split
    · rename_i found
      exact absurd (knows_of_thing? found) known
    · rfl

/-- A search among the entries comes to what a table has, if the table has what the search is for. -/
theorem find?_shown {role : Role} {p : Entry → Bool} {line : Option (Handle role)}
    (meets : ∀ h, line = some h ↔ ∃ entry, t.thing? h.id = some entry ∧ p entry = true) :
    (t.shown.find? p).map Handle.mk = line := by
  have sound : ∀ {n}, t.shown.find? p = some n → line = some ⟨n⟩ := by
    intro n found
    obtain ⟨entry, there, holds⟩ := Ontology.find?_sound found
    exact (meets ⟨n⟩).mpr ⟨entry, (thing?_shown filed n).symm.trans there, holds⟩
  cases search : t.shown.find? p with
  | some n => exact (sound search).symm
  | none =>
    refine (Option.eq_none_iff_forall_ne_some.mpr fun h found => ?_).symm
    obtain ⟨entry, there, holds⟩ := (meets h).mp found
    have some := Ontology.find?_isSome ((thing?_shown filed h.id).trans there) holds
    rw [search] at some
    cases some

theorem conceptOf?_shown (e : Expression) : t.shown.conceptOf? e = t.conceptOf? e := by
  refine find?_shown filed fun c => (filed.concepts e c).trans ⟨fun found => ?_, ?_⟩
  · exact ⟨_, thing?_concept found, decide_eq_true rfl⟩
  · rintro ⟨entry, there, holds⟩
    obtain ⟨_, made, rfl⟩ | ⟨_, _, rfl⟩ | ⟨_, _, rfl⟩ := thing?_cases there
    · exact of_decide_eq_true holds ▸ made
    · cases holds
    · cases holds

theorem individualNamed?_shown (name : String) : t.shown.individualNamed? name = t.individualNamed? name := by
  refine find?_shown filed fun i => (filed.individuals name i).trans ⟨fun found => ?_, ?_⟩
  · exact ⟨_, thing?_individual filed found, decide_eq_true rfl⟩
  · rintro ⟨entry, there, holds⟩
    obtain ⟨_, _, rfl⟩ | ⟨_, named, rfl⟩ | ⟨_, _, rfl⟩ := thing?_cases there
    · cases holds
    · exact of_decide_eq_true holds ▸ named
    · cases holds

theorem relationNamed?_shown (name : String) : t.shown.relationNamed? name = t.relationNamed? name := by
  refine find?_shown filed fun r => (filed.relations name r).trans ⟨fun found => ?_, ?_⟩
  · exact ⟨_, thing?_relation filed found, decide_eq_true rfl⟩
  · rintro ⟨entry, there, holds⟩
    obtain ⟨_, _, rfl⟩ | ⟨_, _, rfl⟩ | ⟨_, named, rfl⟩ := thing?_cases there
    · cases holds
    · cases holds
    · exact of_decide_eq_true holds ▸ named

end Shown

end Tables

end ConceptLogic
