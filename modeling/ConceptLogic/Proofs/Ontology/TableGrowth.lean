import ConceptLogic.Proofs.Ontology.FiledTables

namespace ConceptLogic

/-- Adds several parents to those of a concept. -/
def Entry.tellParents (parents : List ConceptId) : Entry → Entry
  | .concept e isA equivalentTo => .concept e (isA ++ parents) equivalentTo
  | entry => entry

namespace Tables

variable {t t' : Tables}

/-- What shows after the next number is given out and nothing else is changed. -/
theorem adding_shown (filed : t.Filed) (filed' : t'.Filed) {entry : Entry}
    (last : t'.thing? (t.bound + 1) = some entry)
    (earlier : ∀ n, n ≠ t.bound + 1 → t'.thing? n = t.thing? n) : t'.shown = t.shown.adding entry := by
  refine Ontology.ext_thing? fun n => ?_
  rw [thing?_shown filed', Ontology.adding_thing?, thing?_shown filed, size_shown filed]
  split
  · rename_i here
    rw [here, last]
  · rename_i other
    exact earlier n other

/-- What shows after something is told of one known thing. -/
theorem changing_shown (filed : t.Filed) (filed' : t'.Filed) {x : Entity} (known : t.Knows x)
    {f : Entry → Entry} (told : t'.thing? x.id = (t.thing? x.id).map f)
    (elsewhere : ∀ n, n ≠ x.id → t'.thing? n = t.thing? n) : t'.shown = t.shown.changing x.id f := by
  have positive : 1 ≤ x.id := (filed.numbered.within known).1
  refine Ontology.ext_thing? fun n => ?_
  rw [thing?_shown filed', Ontology.changing_thing? positive, thing?_shown filed]
  split
  · rename_i here
    rw [here, told]
  · rename_i other
    exact elsewhere n other

/-- The tables with one more concept, which is told nothing. -/
def addingConcept (t : Tables) (e : Expression) : Tables :=
  { t with bound := t.bound + 1, concepts := t.concepts.insert e ⟨t.bound + 1⟩ }

def addingIndividual (t : Tables) (name : String) (types : List ConceptId) : Tables :=
  { t with
    bound := t.bound + 1
    individuals := t.individuals.insert name ⟨t.bound + 1⟩
    typesOf := t.typesOf.insert ⟨t.bound + 1⟩ types }

def addingRelation (t : Tables) (name : String) (supers : List RelationId) : Tables :=
  { t with
    bound := t.bound + 1
    relations := t.relations.insert name ⟨t.bound + 1⟩
    supersOf := t.supersOf.insert ⟨t.bound + 1⟩ supers }

theorem addingIndividual_types (name : String) (types : List ConceptId) (i : IndividualId) :
    (t.addingIndividual name types).types i = if i = ⟨t.bound + 1⟩ then types else t.types i := by
  unfold Tables.types addingIndividual
  rw [lookup_insert_ite]
  split <;> rfl

theorem addingRelation_supers (name : String) (supers : List RelationId) (r : RelationId) :
    (t.addingRelation name supers).supers r = if r = ⟨t.bound + 1⟩ then supers else t.supers r := by
  unfold Tables.supers addingRelation
  rw [lookup_insert_ite]
  split <;> rfl

section Adding

variable (filed : t.Filed)
include filed

theorem Filed.next_unknown {x : Entity} (next : x.id = t.bound + 1) : ¬t.Knows x := by
  intro known
  have bounds := filed.numbered.within known
  omega

section Concept

variable {e : Expression} (missing : t.conceptOf? e = none)
include missing

theorem addingConcept_expression? (c : ConceptId) :
    (t.addingConcept e).expression? c = if c = ⟨t.bound + 1⟩ then some e else t.expression? c :=
  Bimap.insert_fresh_toLeft? missing (expression?_eq_none (filed.next_unknown rfl)) c

theorem addingConcept_knows (x : Entity) :
    (t.addingConcept e).Knows x ↔ x = .concept ⟨t.bound + 1⟩ ∨ t.Knows x := by
  cases x with
  | concept c =>
    rw [Knows, addingConcept_expression? filed missing, Entity.concept.injEq]
    split
    · rename_i last
      exact iff_of_true ⟨e, rfl⟩ (.inl last)
    · rename_i old
      exact (or_iff_right old).symm
  | individual i => exact (or_iff_right fun same => by cases same).symm
  | relation r => exact (or_iff_right fun same => by cases same).symm

theorem Filed.addingConcept : (t.addingConcept e).Filed := by
  have old : ∀ {x}, t.Knows x → (t.addingConcept e).Knows x := fun known =>
    (addingConcept_knows filed missing _).mpr (.inr known)
  exact ⟨filed.concepts.insert _ _, filed.individuals, filed.relations,
    filed.numbered.succ rfl (addingConcept_knows filed missing), fun line => old (filed.edges line),
    fun line => old (filed.types line), fun line => old (filed.supers line),
    fun line => old (filed.signatures line), filed.top⟩

theorem addingConcept_shown : (t.addingConcept e).shown = t.shown.adding (.concept e [] []) := by
  refine adding_shown filed (filed.addingConcept missing) ?_ fun n other => ?_
  · have made := (addingConcept_expression? filed missing ⟨t.bound + 1⟩).trans (if_pos rfl)
    have untold : (t.addingConcept e).told ⟨t.bound + 1⟩ = .none :=
      told_of_unknown filed (filed.next_unknown rfl)
    refine (thing?_concept made).trans ?_
    rw [untold]
    rfl
  · have differ : (⟨n⟩ : ConceptId) ≠ ⟨t.bound + 1⟩ := fun same => other (congrArg Handle.id same)
    unfold thing?
    rw [addingConcept_expression? filed missing, if_neg differ]
    rfl

end Concept

section Individual

variable {name : String} (missing : t.individualNamed? name = none)
include missing

theorem addingIndividual_individualName? (types : List ConceptId) (i : IndividualId) :
    (t.addingIndividual name types).individualName? i =
      if i = ⟨t.bound + 1⟩ then some name else t.individualName? i :=
  Bimap.insert_fresh_toLeft? missing (individualName?_eq_none (filed.next_unknown rfl)) i

theorem addingIndividual_knows (types : List ConceptId) (x : Entity) :
    (t.addingIndividual name types).Knows x ↔ x = .individual ⟨t.bound + 1⟩ ∨ t.Knows x := by
  cases x with
  | concept c => exact (or_iff_right fun same => by cases same).symm
  | individual i =>
    rw [Knows, addingIndividual_individualName? filed missing, Entity.individual.injEq]
    split
    · rename_i last
      exact iff_of_true ⟨name, rfl⟩ (.inl last)
    · rename_i old
      exact (or_iff_right old).symm
  | relation r => exact (or_iff_right fun same => by cases same).symm

theorem Filed.addingIndividual (types : List ConceptId) : (t.addingIndividual name types).Filed := by
  have knows := addingIndividual_knows filed missing types
  have old : ∀ {x}, t.Knows x → (t.addingIndividual name types).Knows x := fun known =>
    (knows _).mpr (.inr known)
  refine ⟨filed.concepts, filed.individuals.insert _ _, filed.relations, filed.numbered.succ rfl knows,
    fun line => old (filed.edges line), fun {i} line => ?_, fun line => old (filed.supers line),
    fun line => old (filed.signatures line), filed.top⟩
  rcases (AList.mem_insert _).mp line with rfl | earlier
  · exact (knows _).mpr (.inl rfl)
  · exact old (filed.types earlier)

theorem addingIndividual_shown (types : List ConceptId) :
    (t.addingIndividual name types).shown = t.shown.adding (.individual name types) := by
  have filed' := filed.addingIndividual missing types
  refine adding_shown filed filed' ?_ fun n other => ?_
  · have named := (addingIndividual_individualName? filed missing types ⟨t.bound + 1⟩).trans (if_pos rfl)
    refine (thing?_individual filed' named).trans ?_
    rw [addingIndividual_types, if_pos rfl]
  · have differ : (⟨n⟩ : IndividualId) ≠ ⟨t.bound + 1⟩ := fun same => other (congrArg Handle.id same)
    unfold thing?
    rw [addingIndividual_individualName? filed missing, if_neg differ, addingIndividual_types, if_neg differ]
    rfl

end Individual

section Relation

variable {name : String} (missing : t.relationNamed? name = none)
include missing

theorem addingRelation_relationName? (supers : List RelationId) (r : RelationId) :
    (t.addingRelation name supers).relationName? r =
      if r = ⟨t.bound + 1⟩ then some name else t.relationName? r :=
  Bimap.insert_fresh_toLeft? missing (relationName?_eq_none (filed.next_unknown rfl)) r

theorem addingRelation_knows (supers : List RelationId) (x : Entity) :
    (t.addingRelation name supers).Knows x ↔ x = .relation ⟨t.bound + 1⟩ ∨ t.Knows x := by
  cases x with
  | concept c => exact (or_iff_right fun same => by cases same).symm
  | individual i => exact (or_iff_right fun same => by cases same).symm
  | relation r =>
    rw [Knows, addingRelation_relationName? filed missing, Entity.relation.injEq]
    split
    · rename_i last
      exact iff_of_true ⟨name, rfl⟩ (.inl last)
    · rename_i old
      exact (or_iff_right old).symm

theorem Filed.addingRelation (supers : List RelationId) : (t.addingRelation name supers).Filed := by
  have knows := addingRelation_knows filed missing supers
  have old : ∀ {x}, t.Knows x → (t.addingRelation name supers).Knows x := fun known =>
    (knows _).mpr (.inr known)
  refine ⟨filed.concepts, filed.individuals, filed.relations.insert _ _, filed.numbered.succ rfl knows,
    fun line => old (filed.edges line), fun line => old (filed.types line), fun {r} line => ?_,
    fun line => old (filed.signatures line), filed.top⟩
  rcases (AList.mem_insert _).mp line with rfl | earlier
  · exact (knows _).mpr (.inl rfl)
  · exact old (filed.supers earlier)

theorem addingRelation_shown (supers : List RelationId) :
    (t.addingRelation name supers).shown = t.shown.adding (.relation name supers none) := by
  have filed' := filed.addingRelation missing supers
  refine adding_shown filed filed' ?_ fun n other => ?_
  · have named := (addingRelation_relationName? filed missing supers ⟨t.bound + 1⟩).trans (if_pos rfl)
    have unsigned : (t.addingRelation name supers).signature? ⟨t.bound + 1⟩ = none :=
      signature?_of_unknown filed (filed.next_unknown rfl)
    refine (thing?_relation filed' named).trans ?_
    rw [addingRelation_supers, if_pos rfl, unsigned]
  · have differ : (⟨n⟩ : RelationId) ≠ ⟨t.bound + 1⟩ := fun same => other (congrArg Handle.id same)
    unfold thing?
    rw [addingRelation_relationName? filed missing, if_neg differ, addingRelation_supers, if_neg differ]
    rfl

end Relation

end Adding

section Initial

theorem blank_unknown (x : Entity) : ¬blank.Knows x := by
  cases x with
  | _ => rintro ⟨_, ⟨⟩⟩

theorem blank_filed : blank.Filed where
  concepts := Bimap.paired_empty
  individuals := Bimap.paired_empty
  relations := Bimap.paired_empty
  numbered := ⟨fun known => absurd known (blank_unknown _), fun known => absurd known (blank_unknown _),
    fun positive below => absurd (Nat.lt_of_lt_of_le positive below) (Nat.lt_irrefl 0)⟩
  edges := nofun
  types := nofun
  supers := nofun
  signatures := nofun
  top := rfl

theorem initial_filed (name : String) : (initial name).Filed :=
  blank_filed.addingConcept (e := .named name) rfl

theorem initial_shown (name : String) : (initial name).shown = .initial name :=
  addingConcept_shown blank_filed (e := .named name) rfl

end Initial

/-- The tables with something else told of a concept. -/
def telling (t : Tables) (c : ConceptId) (f : Edges → Edges) : Tables :=
  { t with edges := t.edges.insert c (f (t.told c)) }

def typing (t : Tables) (i : IndividualId) (types : List ConceptId) : Tables :=
  { t with typesOf := t.typesOf.insert i types }

def signing (t : Tables) (r : RelationId) (signature : ConceptId × ConceptId) : Tables :=
  { t with signatureOf := t.signatureOf.insert r signature }

theorem telling_told (c : ConceptId) (f : Edges → Edges) (d : ConceptId) :
    (t.telling c f).told d = if d = c then f (t.told c) else t.told d := by
  unfold told telling
  rw [lookup_insert_ite]
  split <;> rfl

theorem typing_types (i : IndividualId) (types : List ConceptId) (j : IndividualId) :
    (t.typing i types).types j = if j = i then types else t.types j := by
  unfold Tables.types typing
  rw [lookup_insert_ite]
  split <;> rfl

theorem signing_signature? (r : RelationId) (signature : ConceptId × ConceptId) (s : RelationId) :
    (t.signing r signature).signature? s = if s = r then some signature else t.signature? s :=
  lookup_insert_ite ..

theorem telling_knows (c : ConceptId) (f : Edges → Edges) : (t.telling c f).Knows = t.Knows := by
  funext x
  cases x <;> rfl

theorem typing_knows (i : IndividualId) (types : List ConceptId) : (t.typing i types).Knows = t.Knows := by
  funext x
  cases x <;> rfl

theorem signing_knows (r : RelationId) (signature : ConceptId × ConceptId) :
    (t.signing r signature).Knows = t.Knows := by
  funext x
  cases x <;> rfl

section Telling

/-! What is told of a known thing changes the line it has in one table. -/

variable (filed : t.Filed)
include filed

theorem Filed.telling {c : ConceptId} (known : t.Knows (.concept c)) (f : Edges → Edges) :
    (t.telling c f).Filed := by
  have same := telling_knows (t := t) c f
  refine ⟨filed.concepts, filed.individuals, filed.relations, same ▸ filed.numbered, fun line => ?_,
    same ▸ filed.types, same ▸ filed.supers, same ▸ filed.signatures, filed.top⟩
  rw [same]
  rcases (AList.mem_insert _).mp line with rfl | earlier
  · exact known
  · exact filed.edges earlier

theorem telling_shown {c : ConceptId} (known : t.Knows (.concept c)) {f : Edges → Edges} {g : Entry → Entry}
    (told : ∀ e edges, g (.concept e edges.isA edges.equivalentTo) =
      .concept e (f edges).isA (f edges).equivalentTo) :
    (t.telling c f).shown = t.shown.changing c.id g := by
  refine changing_shown filed (filed.telling known f) known ?_ fun n elsewhere => ?_
  · obtain ⟨e, made⟩ := known
    refine (thing?_concept (t := t.telling c f) made).trans ?_
    rw [Entity.id, thing?_concept made, Option.map_some, told, telling_told, if_pos rfl]
  · have differ : (⟨n⟩ : ConceptId) ≠ c := fun same => elsewhere (congrArg Handle.id same)
    unfold thing?
    rw [telling_told, if_neg differ]
    rfl

theorem Filed.typing {i : IndividualId} (known : t.Knows (.individual i)) (types : List ConceptId) :
    (t.typing i types).Filed := by
  have same := typing_knows (t := t) i types
  refine ⟨filed.concepts, filed.individuals, filed.relations, same ▸ filed.numbered, same ▸ filed.edges,
    fun line => ?_, same ▸ filed.supers, same ▸ filed.signatures, filed.top⟩
  rw [same]
  rcases (AList.mem_insert _).mp line with rfl | earlier
  · exact known
  · exact filed.types earlier

theorem typing_shown {i : IndividualId} (known : t.Knows (.individual i)) (c : ConceptId) :
    (t.typing i (t.types i ++ [c])).shown = t.shown.changing i.id (.tellIsA c) := by
  have filed' := filed.typing known (t.types i ++ [c])
  refine changing_shown filed filed' known ?_ fun n elsewhere => ?_
  · obtain ⟨name, named⟩ := known
    refine (thing?_individual filed' named).trans ?_
    rw [Entity.id, thing?_individual filed named, typing_types, if_pos rfl]
    rfl
  · have differ : (⟨n⟩ : IndividualId) ≠ i := fun same => elsewhere (congrArg Handle.id same)
    unfold thing?
    rw [typing_types, if_neg differ]
    rfl

theorem Filed.signing {r : RelationId} (known : t.Knows (.relation r)) (signature : ConceptId × ConceptId) :
    (t.signing r signature).Filed := by
  have same := signing_knows (t := t) r signature
  refine ⟨filed.concepts, filed.individuals, filed.relations, same ▸ filed.numbered, same ▸ filed.edges,
    same ▸ filed.types, same ▸ filed.supers, fun line => ?_, filed.top⟩
  rw [same]
  rcases (AList.mem_insert _).mp line with rfl | earlier
  · exact known
  · exact filed.signatures earlier

theorem signing_shown {r : RelationId} (known : t.Knows (.relation r)) (signature : ConceptId × ConceptId) :
    (t.signing r signature).shown = t.shown.changing r.id (.sign signature) := by
  have filed' := filed.signing known signature
  refine changing_shown filed filed' known ?_ fun n elsewhere => ?_
  · obtain ⟨name, named⟩ := known
    refine (thing?_relation filed' named).trans ?_
    rw [Entity.id, thing?_relation filed named, signing_signature?, if_pos rfl]
    rfl
  · have differ : (⟨n⟩ : RelationId) ≠ r := fun same => elsewhere (congrArg Handle.id same)
    unfold thing?
    rw [signing_signature?, if_neg differ]
    rfl

end Telling

/-- The tables with one more named concept, which is told its parents once it is filed. -/
def addingNamed (t : Tables) (name : String) (parents : List ConceptId) : Tables :=
  (t.addingConcept (.named name)).telling ⟨t.bound + 1⟩ fun edges => { edges with isA := edges.isA ++ parents }

section Named

variable (filed : t.Filed) {name : String} (missing : t.conceptOf? (.named name) = none)
include filed missing

theorem addingConcept_knows_new : (t.addingConcept (.named name)).Knows (.concept ⟨t.bound + 1⟩) :=
  (addingConcept_knows filed missing _).mpr (.inl rfl)

theorem Filed.addingNamed (parents : List ConceptId) : (t.addingNamed name parents).Filed :=
  (filed.addingConcept missing).telling (addingConcept_knows_new filed missing) _

/-- It shows as if it had been told from the start. -/
theorem addingNamed_shown (parents : List ConceptId) :
    (t.addingNamed name parents).shown = t.shown.adding (.concept (.named name) parents []) := by
  rw [addingNamed, telling_shown (g := Entry.tellParents parents) (filed.addingConcept missing)
    (addingConcept_knows_new filed missing) fun _ _ => rfl, addingConcept_shown filed missing,
    ← size_shown filed, Ontology.adding_changing]
  rfl

end Named

end Tables

end ConceptLogic
