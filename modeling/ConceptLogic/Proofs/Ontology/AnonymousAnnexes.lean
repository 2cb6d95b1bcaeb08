import ConceptLogic.Proofs.Grammar.NameTokens
import ConceptLogic.Proofs.Ontology.ReachedOntologies

namespace ConceptLogic

/-- An expression that no name is given to. -/
def Expression.Anonymous (e : Expression) : Prop :=
  ∀ name, e ≠ .named name

/-- An expression that can be written as a phrase. -/
def Expression.Writable : Expression → Prop
  | .nominal is => is ≠ []
  | .restriction q _ _ => q.Fits
  | _ => True

namespace Ontology

/-- Whether a second ontology is a first one with no more than anonymous concepts added to it. -/
def Annexes (o o' : Ontology) : Prop :=
  ∃ new : List Expression, (∀ e ∈ new, e.Anonymous) ∧
    o'.entries.toList = o.entries.toList ++ new.map fun e => .concept e [] []

/-- What holds of every ontology that programs build: no two concepts have one expression, and each
concept can be written. -/
structure Kept (o : Ontology) : Prop where
  wellFormed : o.WellFormed
  distinct : ∀ {c d e}, o.expression? c = some e → o.expression? d = some e → c = d
  writable : ∀ {c e}, o.expression? c = some e → e.Writable

variable {o o' o'' : Ontology}

theorem Annexes.refl (o : Ontology) : o.Annexes o := ⟨[], nofun, by simp⟩

theorem Annexes.trans (first : o.Annexes o') (second : o'.Annexes o'') : o.Annexes o'' := by
  obtain ⟨new, anonymous, entries⟩ := first
  obtain ⟨new', anonymous', entries'⟩ := second
  refine ⟨new ++ new', fun e member => ?_, ?_⟩
  · exact (List.mem_append.mp member).elim (anonymous e) (anonymous' e)
  · rw [entries', entries, List.map_append, List.append_assoc]

theorem thing?_succ (o : Ontology) (n : Nat) : o.thing? (n + 1) = o.entries.toList[n]? :=
  (Array.getElem?_toList ..).symm

/-- All that is known stays as it is. -/
theorem Annexes.thing?_old (annexes : o.Annexes o') {n : Nat} (old : n ≤ o.size) :
    o'.thing? n = o.thing? n := by
  obtain ⟨new, _, entries⟩ := annexes
  cases n with
  | zero => rfl
  | succ n => rw [thing?_succ, thing?_succ, entries, List.getElem?_append_left old]

/-- All that is new is an anonymous concept. -/
theorem Annexes.thing?_new (annexes : o.Annexes o') {n : Nat} (new : o.size < n) {entry : Entry}
    (found : o'.thing? n = some entry) : ∃ e, e.Anonymous ∧ entry = .concept e [] [] := by
  obtain ⟨added, anonymous, entries⟩ := annexes
  cases n with
  | zero => cases new
  | succ n =>
    rw [thing?_succ, entries, List.getElem?_append_right (Nat.le_of_lt_succ new)] at found
    obtain ⟨e, member, rfl⟩ := List.mem_map.mp (List.mem_of_getElem? found)
    exact ⟨e, anonymous e member, rfl⟩

theorem Annexes.within (annexes : o.Annexes o') : o.Within o' := fun _ entry found =>
  ⟨entry, (annexes.thing?_old (thing?_bounds found).2).trans found, .refl entry⟩

theorem annexes_adding (o : Ontology) {e : Expression} (anonymous : e.Anonymous) :
    o.Annexes (o.adding (.concept e [] [])) :=
  ⟨[e], List.forall_mem_singleton.mpr anonymous, by simp [adding]⟩

theorem annexes_keeping (o : Ontology) {e : Expression} (anonymous : e.Anonymous) :
    o.Annexes (o.keeping e) := by
  unfold keeping
  split
  · exact .refl o
  · exact annexes_adding o anonymous

/-- What is there is found. -/
theorem find?_isSome {p : Entry → Bool} {n : Nat} {entry : Entry} (found : o.thing? n = some entry)
    (holds : p entry = true) : (o.find? p).isSome = true := by
  cases n with
  | zero => cases found
  | succ n =>
    obtain ⟨below, here⟩ := Array.getElem?_eq_some_iff.mp found
    rw [find?, Option.isSome_map, Array.findIdx?_isSome]
    exact Array.any_eq_true.mpr ⟨n, below, here ▸ holds⟩

/-- An expression that is kept is found. -/
theorem conceptOf?_isSome {c : ConceptId} {e : Expression} (found : o.expression? c = some e) :
    ∃ d, o.conceptOf? e = some d := by
  obtain ⟨isA, equivalentTo, found⟩ := expression?_eq_some.mp found
  refine Option.isSome_iff_exists.mp ?_
  rw [conceptOf?, Option.isSome_map]
  exact find?_isSome found (decide_eq_true rfl)

/-- What is an expression after an entry is added was one before, or is that of the entry. -/
theorem expression?_of_adding {entry : Entry} {c : ConceptId} {e : Expression}
    (found : (o.adding entry).expression? c = some e) : o.expression? c = some e ∨
      c.id = o.size + 1 ∧ ∃ isA equivalentTo, entry = .concept e isA equivalentTo := by
  obtain ⟨isA, equivalentTo, found⟩ := expression?_eq_some.mp found
  rw [adding_thing?] at found
  split at found
  · rename_i last
    exact .inr ⟨last, isA, equivalentTo, Option.some.inj found⟩
  · exact .inl (expression?_eq_some.mpr ⟨isA, equivalentTo, found⟩)

/-- An expression that is not kept yet belongs to one concept once it is. -/
theorem distinct_adding {entry : Entry}
    (distinct : ∀ {c d e}, o.expression? c = some e → o.expression? d = some e → c = d)
    (missing : ∀ e isA equivalentTo, entry = .concept e isA equivalentTo → o.conceptOf? e = none)
    {c d : ConceptId} {e : Expression} (found : (o.adding entry).expression? c = some e)
    (found' : (o.adding entry).expression? d = some e) : c = d := by
  have absent : ∀ c e isA equivalentTo, entry = .concept e isA equivalentTo → o.expression? c ≠ some e := by
    intro c e isA equivalentTo same found
    obtain ⟨d, kept_as⟩ := conceptOf?_isSome found
    rw [missing e isA equivalentTo same] at kept_as
    cases kept_as
  rcases expression?_of_adding found with old | ⟨last, isA, equivalentTo, same⟩
  · rcases expression?_of_adding found' with old' | ⟨last', isA, equivalentTo, same⟩
    · exact distinct old old'
    · exact absurd old (absent c e isA equivalentTo same)
  · rcases expression?_of_adding found' with old' | ⟨last', _⟩
    · exact absurd old' (absent d e isA equivalentTo same)
    · cases c
      cases d
      rw [Handle.mk.injEq]
      exact last.trans last'.symm

/-- Where no expression belongs to two concepts, what is kept is found. -/
theorem conceptOf?_eq (distinct : ∀ {c d e}, o.expression? c = some e → o.expression? d = some e → c = d)
    {c : ConceptId} {e : Expression} (found : o.expression? c = some e) : o.conceptOf? e = some c := by
  obtain ⟨d, kept_as⟩ := conceptOf?_isSome found
  rw [kept_as, distinct (conceptOf?_sound kept_as) found]

namespace Kept

variable (kept : o.Kept)
include kept

/-- An entry that is new in a kept ontology. -/
theorem adding {entry : Entry} (known : ∀ x ∈ entry.mentions, o.Knows x)
    (fresh : ∀ e isA equivalentTo, entry = .concept e isA equivalentTo →
      e.Normal o ∧ e.Writable ∧ o.conceptOf? e = none) : (o.adding entry).Kept := by
  refine ⟨kept.wellFormed.adding known fun e isA equivalentTo same => (fresh e isA equivalentTo same).1,
    distinct_adding kept.distinct fun e isA equivalentTo same => (fresh e isA equivalentTo same).2.2,
    fun {c e} found => ?_⟩
  rcases expression?_of_adding found with old | ⟨_, isA, equivalentTo, same⟩
  · exact kept.writable old
  · exact (fresh e isA equivalentTo same).2.1

theorem keeping {e : Expression} (known : ∀ x ∈ e.parts, o.Knows x) (normal : e.Normal o)
    (writable : e.Writable) : (o.keeping e).Kept := by
  unfold Ontology.keeping
  split
  · exact kept
  · rename_i missing
    refine kept.adding (fun x member => known x (by simpa [Entry.mentions] using member)) ?_
    rintro _ _ _ ⟨⟩
    exact ⟨normal, writable, missing⟩

/-- What is told to something known changes no expression. -/
theorem changing {id : Nat} {f : Entry → Entry} (positive : 1 ≤ id)
    (more : ∀ entry : Entry, entry.Within (f entry)) (wf : (o.changing id f).WellFormed) :
    (o.changing id f).Kept := by
  have old : ∀ {c e}, (o.changing id f).expression? c = some e → o.expression? c = some e :=
    changing_expression? positive more
  exact ⟨wf, fun found found' => kept.distinct (old found) (old found'),
    fun found => kept.writable (old found)⟩

end Kept

theorem initial_kept (name : String) : (initial name).Kept := by
  have only : ∀ {c e}, (initial name).expression? c = some e → c = top ∧ e = .named name := by
    rintro ⟨n⟩ e found
    obtain ⟨isA, equivalentTo, found⟩ := expression?_eq_some.mp found
    obtain ⟨one, same⟩ := initial_thing? found
    cases one
    cases same
    exact ⟨rfl, rfl⟩
  refine ⟨initial_wellFormed name, fun found found' => ?_, fun found => ?_⟩
  · rw [(only found).1, (only found').1]
  · rw [(only found).2]
    trivial

end Ontology

end ConceptLogic
