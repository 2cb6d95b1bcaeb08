import ConceptLogic.Proofs.Reasoning.SearchCompleteness
import Mathlib.Data.List.Sort

namespace ConceptLogic

/-- Strictly increasing lists are told apart by their members. -/
theorem Handle.eq_of_mem_iff {role : Role} {hs gs : List (Handle role)} (increasing : hs.Pairwise (·.id < ·.id))
    (increasing' : gs.Pairwise (·.id < ·.id)) (same : ∀ h, h ∈ hs ↔ h ∈ gs) : hs = gs := by
  have : Std.Irrefl fun h g : Handle role => h.id < g.id := ⟨fun h => Nat.lt_irrefl h.id⟩
  have : Std.Antisymm fun h g : Handle role => h.id < g.id := ⟨fun h g less less' => absurd less less'.asymm⟩
  exact increasing.eq_of_mem_iff increasing' same

variable {R R' : ConceptId → ConceptId → Prop} {cs ds : List ConceptId} {e e' : Expression}

/-- Lists of concepts each of which is related to one of the other list. -/
def Matched (R : ConceptId → ConceptId → Prop) (cs ds : List ConceptId) : Prop :=
  (∀ x ∈ cs, ∃ y ∈ ds, R x y) ∧ ∀ y ∈ ds, ∃ x ∈ cs, R x y

namespace Matched

theorem mono (matched : Matched R cs ds) (more : ∀ x ∈ cs, ∀ y, R x y → R' x y) : Matched R' cs ds := by
  refine ⟨fun x member => ?_, fun y member => ?_⟩
  · obtain ⟨y, member', related⟩ := matched.1 x member
    exact ⟨y, member', more x member y related⟩
  · obtain ⟨x, member', related⟩ := matched.2 y member
    exact ⟨x, member', more x member' y related⟩

theorem symm (matched : Matched R cs ds) : Matched (fun y x => R x y) ds cs :=
  ⟨matched.2, matched.1⟩

/-- What is matched with a list is increasing in one way only. -/
theorem unique {ds' : List ConceptId} (functional : ∀ x ∈ cs, ∀ y z, R x y → R x z → y = z)
    (first : Matched R cs ds) (second : Matched R cs ds') (increasing : ds.Pairwise (·.id < ·.id))
    (increasing' : ds'.Pairwise (·.id < ·.id)) : ds = ds' := by
  have inside : ∀ {l l' : List ConceptId}, Matched R cs l → Matched R cs l' → ∀ y ∈ l, y ∈ l' := by
    intro l l' matched matched' y member
    obtain ⟨x, member', related⟩ := matched.2 y member
    obtain ⟨z, member'', related'⟩ := matched'.1 x member'
    exact functional x member' y z related related' ▸ member''
  exact Handle.eq_of_mem_iff increasing increasing' fun y => ⟨inside first second y, inside second first y⟩

theorem of_forall₂ (each : List.Forall₂ R cs ds) :
    Matched R cs ds := by
  refine ⟨fun x member => ?_, fun y member => exists_of_forall₂ each member⟩
  obtain ⟨y, member', related⟩ := exists_of_forall₂ each.flip member
  exact ⟨y, member', related⟩

/-- What is matched with a list of one member has no more, if it is increasing. -/
theorem single {c : ConceptId} (matched : Matched R [c] ds)
    (functional : ∀ y z, R c y → R c z → y = z) (increasing : ds.Pairwise (·.id < ·.id)) :
    ∃ d, ds = [d] ∧ R c d := by
  obtain ⟨d, member, related⟩ := matched.1 c (List.mem_singleton.mpr rfl)
  refine ⟨d, Handle.eq_of_mem_iff increasing (List.pairwise_singleton ..) fun y => ?_, related⟩
  refine ⟨fun member' => List.mem_singleton.mpr ?_, fun same => List.mem_singleton.mp same ▸ member⟩
  obtain ⟨x, here, related'⟩ := matched.2 y member'
  cases List.mem_singleton.mp here
  exact functional y d related' related

end Matched

namespace Expression

/-- Expressions that are made in one way of related concepts. What has a name is made of nothing. -/
def Twin (R : ConceptId → ConceptId → Prop) : Expression → Expression → Prop
  | .conjunction cs, .conjunction ds => Matched R cs ds
  | .disjunction cs, .disjunction ds => Matched R cs ds
  | .negation x, .negation y => R x y
  | .nominal is, .nominal js => is = js
  | .restriction q r x, .restriction p s y => q = p ∧ r = s ∧ R x y
  | _, _ => False

namespace Twin

theorem of_conjunction (twin : (conjunction cs).Twin R e) : ∃ ds, e = .conjunction ds ∧ Matched R cs ds := by
  cases e with
  | conjunction ds => exact ⟨ds, rfl, twin⟩
  | _ => exact twin.elim

theorem of_disjunction (twin : (disjunction cs).Twin R e) : ∃ ds, e = .disjunction ds ∧ Matched R cs ds := by
  cases e with
  | disjunction ds => exact ⟨ds, rfl, twin⟩
  | _ => exact twin.elim

theorem of_negation {x : ConceptId} (twin : (negation x).Twin R e) : ∃ y, e = .negation y ∧ R x y := by
  cases e with
  | negation y => exact ⟨y, rfl, twin⟩
  | _ => exact twin.elim

theorem of_nominal {is : List IndividualId} (twin : (nominal is).Twin R e) : e = .nominal is := by
  cases e with
  | nominal js => exact congrArg nominal (Eq.symm twin)
  | _ => exact twin.elim

theorem of_restriction {q : Quantifier} {r : RelationId} {x : ConceptId} (twin : (restriction q r x).Twin R e) :
    ∃ y, e = .restriction q r y ∧ R x y := by
  cases e with
  | restriction p s y =>
    obtain ⟨rfl, rfl, related⟩ := twin
    exact ⟨y, rfl, related⟩
  | _ => exact twin.elim

theorem mono (twin : e.Twin R e') (more : ∀ x, .concept x ∈ e.parts → ∀ y, R x y → R' x y) :
    e.Twin R' e' := by
  cases e with
  | named => exact twin
  | conjunction cs =>
    obtain ⟨ds, rfl, matched⟩ := twin.of_conjunction
    exact matched.mono fun x member => more x (List.mem_map_of_mem member)
  | disjunction cs =>
    obtain ⟨ds, rfl, matched⟩ := twin.of_disjunction
    exact matched.mono fun x member => more x (List.mem_map_of_mem member)
  | negation x =>
    obtain ⟨y, rfl, related⟩ := twin.of_negation
    exact more x (List.mem_singleton.mpr rfl) y related
  | nominal is =>
    cases twin.of_nominal
    exact twin
  | restriction q r x =>
    obtain ⟨y, rfl, related⟩ := twin.of_restriction
    exact ⟨rfl, rfl, more x (List.mem_cons_of_mem _ (List.mem_singleton.mpr rfl)) y related⟩

theorem symm (twin : e.Twin R e') : e'.Twin (fun y x => R x y) e := by
  cases e with
  | named => exact twin.elim
  | conjunction cs =>
    obtain ⟨ds, rfl, matched⟩ := twin.of_conjunction
    exact matched.symm
  | disjunction cs =>
    obtain ⟨ds, rfl, matched⟩ := twin.of_disjunction
    exact matched.symm
  | negation x =>
    obtain ⟨y, rfl, related⟩ := twin.of_negation
    exact related
  | nominal is =>
    cases twin.of_nominal
    exact rfl
  | restriction q r x =>
    obtain ⟨y, rfl, related⟩ := twin.of_restriction
    exact ⟨rfl, rfl, related⟩

theorem anonymous (twin : e.Twin R e') : e.Anonymous := by
  rintro name rfl
  exact twin.elim

/-- What has no name is its own twin if its operands are. -/
theorem refl (anonymous : e.Anonymous) (own : ∀ x, .concept x ∈ e.parts → R x x) : e.Twin R e := by
  have matched : ∀ cs : List ConceptId, (∀ x ∈ cs, R x x) → Matched R cs cs := fun cs own =>
    ⟨fun x member => ⟨x, member, own x member⟩, fun x member => ⟨x, member, own x member⟩⟩
  cases e with
  | named name => exact absurd rfl (anonymous name)
  | conjunction cs => exact matched cs fun x member => own x (List.mem_map_of_mem member)
  | disjunction cs => exact matched cs fun x member => own x (List.mem_map_of_mem member)
  | negation x => exact own x (List.mem_singleton.mpr rfl)
  | nominal => exact rfl
  | restriction q r x => exact ⟨rfl, rfl, own x (List.mem_cons_of_mem _ (List.mem_singleton.mpr rfl))⟩

/-- In normal form an expression has one twin at most, if its operands do. -/
theorem unique {e₁ e₂ : Expression} {o o' : Ontology}
    (functional : ∀ x, .concept x ∈ e.parts → ∀ y z, R x y → R x z → y = z) (first : e.Twin R e₁)
    (second : e.Twin R e₂) (normal : e₁.Normal o) (normal' : e₂.Normal o') : e₁ = e₂ := by
  cases e with
  | named => exact first.elim
  | conjunction cs =>
    obtain ⟨ds, rfl, matched⟩ := first.of_conjunction
    obtain ⟨ds', rfl, matched'⟩ := second.of_conjunction
    exact congrArg conjunction (matched.unique (fun x member => functional x (List.mem_map_of_mem member))
      matched' normal.2.1 normal'.2.1)
  | disjunction cs =>
    obtain ⟨ds, rfl, matched⟩ := first.of_disjunction
    obtain ⟨ds', rfl, matched'⟩ := second.of_disjunction
    exact congrArg disjunction (matched.unique (fun x member => functional x (List.mem_map_of_mem member))
      matched' normal.2.1 normal'.2.1)
  | negation x =>
    obtain ⟨y, rfl, related⟩ := first.of_negation
    obtain ⟨z, rfl, related'⟩ := second.of_negation
    exact congrArg negation (functional x (List.mem_singleton.mpr rfl) y z related related')
  | nominal is => exact first.of_nominal.trans second.of_nominal.symm
  | restriction q r x =>
    obtain ⟨y, rfl, related⟩ := first.of_restriction
    obtain ⟨z, rfl, related'⟩ := second.of_restriction
    have part : Entity.concept x ∈ (restriction q r x).parts :=
      List.mem_cons_of_mem _ (List.mem_singleton.mpr rfl)
    exact congrArg (restriction q r) (functional x part y z related related')

end Twin

end Expression

namespace Ontology

variable {base o o' : Ontology} {c d : ConceptId}

/-- Whether concepts of two ontologies are related only if they are one concept of a third one or are made
in one way of related concepts. -/
def Mirrors (base o o' : Ontology) (R : ConceptId → ConceptId → Prop) : Prop :=
  ∀ c d, R c d → base.Knows (.concept c) ∧ c = d ∨
    ∃ e e', o.expression? c = some e ∧ o'.expression? d = some e' ∧ e.Twin R e'

/-- Concepts of two ontologies that have grown out of a third one, if they are made in one way of what
was known there. Their numbers may differ. -/
def Twins (base o o' : Ontology) (c d : ConceptId) : Prop :=
  ∃ R, base.Mirrors o o' R ∧ R c d

theorem twins_iff : base.Twins o o' c d ↔ base.Knows (.concept c) ∧ c = d ∨
    ∃ e e', o.expression? c = some e ∧ o'.expression? d = some e' ∧ e.Twin (base.Twins o o') e' := by
  have unfolded : ∀ {c d}, base.Twins o o' c d → base.Knows (.concept c) ∧ c = d ∨
      ∃ e e', o.expression? c = some e ∧ o'.expression? d = some e' ∧ e.Twin (base.Twins o o') e' := by
    rintro c d ⟨R, mirrors, related⟩
    refine (mirrors c d related).imp_right ?_
    rintro ⟨e, e', made, made', twin⟩
    exact ⟨e, e', made, made', twin.mono fun x _ y related => ⟨R, mirrors, related⟩⟩
  refine ⟨unfolded, fun form => ?_⟩
  refine ⟨fun a b => base.Twins o o' a b ∨ a = c ∧ b = d, fun a b related => ?_, .inr ⟨rfl, rfl⟩⟩
  have form' : base.Knows (.concept a) ∧ a = b ∨
      ∃ e e', o.expression? a = some e ∧ o'.expression? b = some e' ∧ e.Twin (base.Twins o o') e' := by
    rcases related with twins | ⟨rfl, rfl⟩
    · exact unfolded twins
    · exact form
  refine form'.imp_right ?_
  rintro ⟨e, e', made, made', twin⟩
  exact ⟨e, e', made, made', twin.mono fun _ _ _ => .inl⟩

theorem Twins.of_old (known : base.Knows (.concept c)) : base.Twins o o' c c :=
  twins_iff.mpr (.inl ⟨known, rfl⟩)

theorem Twins.of_made (made : o.expression? c = some e) (made' : o'.expression? d = some e')
    (twin : e.Twin (base.Twins o o') e') : base.Twins o o' c d :=
  twins_iff.mpr (.inr ⟨e, e', made, made', twin⟩)

theorem Twins.symm (twins : base.Twins o o' c d) : base.Twins o' o d c := by
  obtain ⟨R, mirrors, related⟩ := twins
  refine ⟨fun b a => R a b, fun b a related => ?_, related⟩
  rcases mirrors a b related with ⟨known, rfl⟩ | ⟨e, e', made, made', twin⟩
  · exact .inl ⟨known, rfl⟩
  · exact .inr ⟨e', e, made', made, twin.symm⟩

/-- A twin of what has a name is the same. -/
theorem Twins.eq_of_named {name : String} (twins : base.Twins o o' c d)
    (named : o.expression? c = some (.named name)) : c = d := by
  rcases twins_iff.mp twins with ⟨_, rfl⟩ | ⟨e, e', made, _, twin⟩
  · rfl
  · cases made.symm.trans named
    exact twin.elim

/-- Twins stay twins when more is known. -/
theorem Twins.mono {u u' : Ontology} (twins : base.Twins o o' c d) (within : o.Within u)
    (within' : o'.Within u') : base.Twins u u' c d := by
  obtain ⟨R, mirrors, related⟩ := twins
  refine ⟨R, fun a b related => (mirrors a b related).imp_right ?_, related⟩
  rintro ⟨e, e', made, made', twin⟩
  exact ⟨e, e', within.expression? made, within'.expression? made', twin⟩

/-- What an ontology keeps is its own twin wherever it is kept. -/
theorem Twins.refl {x : ConceptId} (wf : o.WellFormed) (within : o.Within o') (old : ∀ {c name},
    o.expression? c = some (.named name) → base.Knows (.concept c)) (known : o.Knows (.concept x)) :
    base.Twins o o' x x := by
  obtain ⟨e, made⟩ := known
  by_cases anonymous : e.Anonymous
  · refine .of_made made (within.expression? made) (.refl anonymous fun y part => ?_)
    have _older : y.id < x.id := wf.older made _ part
    exact Twins.refl wf within old (wf.parts_known made _ part)
  · obtain ⟨name, named⟩ := not_forall.mp anonymous
    cases not_not.mp named
    exact .of_old (old made)
termination_by x.id

namespace Annexes

variable (annexes : o.Annexes o')
include annexes

theorem old_of_named {name : String} (named : o'.expression? c = some (.named name)) :
    o.Knows (.concept c) := by
  obtain ⟨isA, equivalentTo, found⟩ := expression?_eq_some.mp named
  by_cases old : c.id ≤ o.size
  · exact ⟨_, expression?_eq_some.mpr ⟨isA, equivalentTo, annexes.thing?_old old ▸ found⟩⟩
  · obtain ⟨e, anonymous, ⟨⟩⟩ := annexes.thing?_new (Nat.lt_of_not_le old) found
    exact absurd rfl (anonymous name)

/-- Only what is old was told anything. -/
theorem old_of_told {p : ConceptId} (told : p ∈ o'.told c) : o.Knows (.concept c) := by
  obtain ⟨e, isA, equivalentTo, found, member⟩ : ∃ e isA equivalentTo,
      o'.thing? c.id = some (.concept e isA equivalentTo) ∧ p ∈ isA ++ equivalentTo := by
    rcases List.mem_append.mp told with told | told
    · obtain ⟨e, isA, equivalentTo, found, member⟩ := mem_isA.mp told
      exact ⟨e, isA, equivalentTo, found, List.mem_append_left _ member⟩
    · obtain ⟨e, isA, equivalentTo, found, member⟩ := mem_equivalentTo.mp told
      exact ⟨e, isA, equivalentTo, found, List.mem_append_right _ member⟩
  by_cases old : c.id ≤ o.size
  · exact ⟨e, expression?_eq_some.mpr ⟨isA, equivalentTo, annexes.thing?_old old ▸ found⟩⟩
  · obtain ⟨e', _, ⟨⟩⟩ := annexes.thing?_new (Nat.lt_of_not_le old) found
    cases member

/-- What is new is no individual. -/
theorem old_individual {i : IndividualId} (known : o'.Knows (.individual i)) : o.Knows (.individual i) := by
  obtain ⟨name, named⟩ := known
  obtain ⟨types, found⟩ := individualName?_eq_some.mp named
  by_cases old : i.id ≤ o.size
  · exact ⟨name, individualName?_eq_some.mpr ⟨types, annexes.thing?_old old ▸ found⟩⟩
  · obtain ⟨e, _, ⟨⟩⟩ := annexes.thing?_new (Nat.lt_of_not_le old) found

theorem old_relation {r : RelationId} (known : o'.Knows (.relation r)) : o.Knows (.relation r) := by
  obtain ⟨name, named⟩ := known
  obtain ⟨supers, signature, found⟩ := relationName?_eq_some.mp named
  by_cases old : r.id ≤ o.size
  · exact ⟨name, relationName?_eq_some.mpr ⟨supers, signature, annexes.thing?_old old ▸ found⟩⟩
  · obtain ⟨e, _, ⟨⟩⟩ := annexes.thing?_new (Nat.lt_of_not_le old) found

theorem alike : o.Alike o' where
  within := annexes.within
  concept known := annexes.thing?_old known.bounds.2
  individual known := annexes.thing?_old known.bounds.2

end Annexes

/-- Two ontologies that have grown out of one that programs have left, by anonymous concepts alone. -/
structure Fork (base o o' : Ontology) : Prop where
  kept : base.Kept
  arranged : ∃ level, base.Arranged level
  left : base.Extends o
  right : base.Extends o'

namespace Fork

variable (fork : base.Fork o o')
include fork

theorem symm : base.Fork o' o := ⟨fork.kept, fork.arranged, fork.right, fork.left⟩

theorem leftKept : o.Kept := fork.left.kept fork.kept

theorem rightKept : o'.Kept := fork.right.kept fork.kept

theorem further {u u' : Ontology} (adds : o.Extends u) (adds' : o'.Extends u') : base.Fork u u' :=
  ⟨fork.kept, fork.arranged, IsTrans.trans base o u fork.left adds, IsTrans.trans base o' u' fork.right adds'⟩

theorem known (twins : base.Twins o o' c d) : o.Knows (.concept c) := by
  rcases twins_iff.mp twins with ⟨known, rfl⟩ | ⟨e, _, made, _⟩
  · exact fork.left.annexes.within.knows known
  · exact ⟨e, made⟩

/-- A twin of what has no name is made in the same way. -/
theorem made (twins : base.Twins o o' c d) (made : o.expression? c = some e) (anonymous : e.Anonymous) :
    ∃ e', o'.expression? d = some e' ∧ e.Twin (base.Twins o o') e' := by
  rcases twins_iff.mp twins with ⟨⟨f, old⟩, rfl⟩ | ⟨f, e', made', there, twin⟩
  · cases (fork.left.annexes.within.expression? old).symm.trans made
    refine ⟨e, fork.right.annexes.within.expression? old, .refl anonymous fun x part => .of_old ?_⟩
    exact fork.kept.wellFormed.parts_known old _ part
  · cases made'.symm.trans made
    exact ⟨e', there, twin⟩

theorem unique {x y z : ConceptId} (first : base.Twins o o' x y) (second : base.Twins o o' x z) : y = z := by
  obtain ⟨e, made⟩ := fork.known first
  by_cases anonymous : e.Anonymous
  · obtain ⟨e₁, made₁, twin₁⟩ := fork.made first made anonymous
    obtain ⟨e₂, made₂, twin₂⟩ := fork.made second made anonymous
    have normal : ∀ {z e}, o'.expression? z = some e → e.Normal o' := fork.rightKept.wellFormed.normal
    have same : e₁ = e₂ := by
      refine twin₁.unique (fun a part b b' first second => ?_) twin₂ (normal made₁) (normal made₂)
      have _older : a.id < x.id := fork.leftKept.wellFormed.older made _ part
      exact unique first second
    exact fork.rightKept.distinct made₁ (same ▸ made₂)
  · obtain ⟨name, named⟩ := not_forall.mp anonymous
    cases not_not.mp named
    exact (first.eq_of_named made).symm.trans (second.eq_of_named made)
termination_by x.id

theorem eq_of_old (twins : base.Twins o o' c d) (known : base.Knows (.concept c)) : d = c :=
  fork.unique twins (.of_old known)

theorem conjunction (twins : base.Twins o o' c d) (made : o.expression? c = some (.conjunction cs)) :
    ∃ ds, o'.expression? d = some (.conjunction ds) ∧ Matched (base.Twins o o') cs ds := by
  obtain ⟨e', made', twin⟩ := fork.made twins made nofun
  obtain ⟨ds, rfl, matched⟩ := twin.of_conjunction
  exact ⟨ds, made', matched⟩

theorem disjunction (twins : base.Twins o o' c d) (made : o.expression? c = some (.disjunction cs)) :
    ∃ ds, o'.expression? d = some (.disjunction ds) ∧ Matched (base.Twins o o') cs ds := by
  obtain ⟨e', made', twin⟩ := fork.made twins made nofun
  obtain ⟨ds, rfl, matched⟩ := twin.of_disjunction
  exact ⟨ds, made', matched⟩

theorem negation {x : ConceptId} (twins : base.Twins o o' c d) (made : o.expression? c = some (.negation x)) :
    ∃ y, o'.expression? d = some (.negation y) ∧ base.Twins o o' x y := by
  obtain ⟨e', made', twin⟩ := fork.made twins made nofun
  obtain ⟨y, rfl, related⟩ := twin.of_negation
  exact ⟨y, made', related⟩

theorem nominal {is : List IndividualId} (twins : base.Twins o o' c d)
    (made : o.expression? c = some (.nominal is)) : o'.expression? d = some (.nominal is) := by
  obtain ⟨e', made', twin⟩ := fork.made twins made nofun
  exact twin.of_nominal ▸ made'

theorem restriction {q : Quantifier} {r : RelationId} {x : ConceptId} (twins : base.Twins o o' c d)
    (made : o.expression? c = some (.restriction q r x)) :
    ∃ y, o'.expression? d = some (.restriction q r y) ∧ base.Twins o o' x y := by
  obtain ⟨e', made', twin⟩ := fork.made twins made nofun
  obtain ⟨y, rfl, related⟩ := twin.of_restriction
  exact ⟨y, made', related⟩

theorem unjoined (twins : base.Twins o o' c d) (apart : ∀ cs, o.expression? c ≠ some (.conjunction cs)) :
    ∀ ds, o'.expression? d ≠ some (.conjunction ds) := by
  intro ds made
  obtain ⟨cs, made', _⟩ := fork.symm.conjunction twins.symm made
  exact apart cs made'

theorem undivided (twins : base.Twins o o' c d) (undivided : o.Undivided c) : o'.Undivided d :=
  ⟨fork.unjoined twins undivided.1, fun is made => undivided.2 is (fork.symm.nominal twins.symm made)⟩

theorem unsplit {c' d' : ConceptId} (left : base.Twins o o' c c') (right : base.Twins o o' d d')
    (unsplit : o.Unsplit c d) : o'.Unsplit c' d' := by
  refine ⟨fork.unjoined right unsplit.1, fun cs made => ?_, fun is made => ?_⟩
  · obtain ⟨ds, made', _⟩ := fork.symm.disjunction left.symm made
    exact unsplit.2.1 ds made'
  · exact unsplit.2.2 is (fork.symm.nominal left.symm made)

theorem isSubRelation {r s : RelationId} (known : o.Knows (.relation r)) :
    o'.isSubRelation r s = o.isSubRelation r s := by
  have old := fork.left.annexes.old_relation known
  have wf := fork.kept.wellFormed
  rw [fork.left.annexes.alike.isSubRelation wf fork.leftKept.wellFormed old,
    fork.right.annexes.alike.isSubRelation wf fork.rightKept.wellFormed old]

end Fork

end Ontology

end ConceptLogic
