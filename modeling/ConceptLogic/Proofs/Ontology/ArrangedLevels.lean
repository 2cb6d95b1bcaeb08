import ConceptLogic.Proofs.Ontology.ToldStrata
import ConceptLogic.Proofs.Reasoning.PersistentAnswers
import ConceptLogic.Proofs.Session.DeclaredNames

namespace ConceptLogic

/-- Whether an entry is one that programs make: the oldest of all that it was told to be the same as, or
a name told to be the same as an older concept before any other. -/
def Entry.Arranged (level : ConceptId → Nat) (id : Nat) : Entry → Prop
  | .concept e isA equivalentTo => (∀ p ∈ isA, p.id < id) ∧
    ((level ⟨id⟩ = id ∨ id = Ontology.top.id) ∧ (∀ p ∈ equivalentTo, id < p.id) ∨
      (∃ name, e = .named name) ∧ isA = [Ontology.top] ∧ ∃ p rest, equivalentTo = p :: rest ∧ p.id < id)
  | .individual .. | .relation .. => True

namespace Ontology

/-- How programs leave an ontology: in levels, on each of which there is one concept that the others
have been defined as, at once or by way of each other. -/
structure Arranged (o : Ontology) (level : ConceptId → Nat) : Prop where
  stratified : o.Stratified level
  symmetric : ∀ {c d}, d ∈ o.equivalentTo c → c ∈ o.equivalentTo d
  arranged : ∀ {n entry}, o.thing? n = some entry → entry.Arranged level n

theorem initial_arranged (name : String) : (initial name).Arranged fun _ => 0 := by
  refine ⟨initial_stratified name, fun told => ?_, fun found => ?_⟩
  · obtain ⟨e, isA, equivalentTo, found, member⟩ := mem_equivalentTo.mp told
    cases (initial_thing? found).2
    cases member
  · obtain ⟨rfl, rfl⟩ := initial_thing? found
    exact ⟨nofun, .inl ⟨.inr rfl, nofun⟩⟩

namespace Arranged

variable {o o' : Ontology} {level : ConceptId → Nat}

theorem congr {level' : ConceptId → Nat} {id : Nat} {entry : Entry} (arranged : entry.Arranged level id)
    (same : level' ⟨id⟩ = level ⟨id⟩) : entry.Arranged level' id := by
  cases entry with
  | concept =>
    unfold Entry.Arranged
    rwa [same]
  | individual => trivial
  | relation => trivial

variable (arranged : o.Arranged level) (wf : o.WellFormed)
include arranged wf

theorem annexing (annexes : o.Annexes o') : o'.Arranged (o.raised level) := by
  have equivalent : ∀ {c d}, d ∈ o'.equivalentTo c → d ∈ o.equivalentTo c := by
    intro c d told
    obtain ⟨e, isA, equivalentTo, found, member⟩ := mem_equivalentTo.mp told
    by_cases old : c.id ≤ o.size
    · exact mem_equivalentTo.mpr ⟨e, isA, equivalentTo, annexes.thing?_old old ▸ found, member⟩
    · obtain ⟨_, _, ⟨⟩⟩ := annexes.thing?_new (Nat.lt_of_not_le old) found
      cases member
  refine ⟨arranged.stratified.annexing wf annexes, fun told => ?_, fun {n entry} found => ?_⟩
  · exact annexes.within.equivalentTo _ (arranged.symmetric (equivalent told))
  · by_cases old : n ≤ o.size
    · exact congr (arranged.arranged (annexes.thing?_old old ▸ found)) (if_pos old)
    · obtain ⟨e, _, rfl⟩ := annexes.thing?_new (Nat.lt_of_not_le old) found
      exact ⟨nofun, .inl ⟨.inl (if_neg old), nofun⟩⟩

theorem adding {name : String} {x : Value} {entry : Entry} (founded : entry.Founded o name x) :
    (o.adding entry).Arranged (o.raised level) := by
  have alone : ∀ e isA equivalentTo, entry = .concept e isA equivalentTo → equivalentTo = [] := by
    rintro e isA equivalentTo rfl
    exact founded.novel.2.1
  refine ⟨arranged.stratified.adding wf founded, fun told => ?_, fun {n new} found => ?_⟩
  · rw [mem_equivalentTo_adding alone] at told ⊢
    exact arranged.symmetric told
  · rw [adding_thing?] at found
    split at found
    · rename_i last
      cases found
      subst last
      cases entry with
      | concept e isA equivalentTo =>
        have newest : o.raised level ⟨o.size + 1⟩ = o.size + 1 := if_neg (Nat.not_succ_le_self _)
        refine ⟨fun p member => ?_, .inl ⟨.inl newest, alone _ _ _ rfl ▸ nofun⟩⟩
        have known := founded.known (.concept p)
          (List.mem_append_right _ (List.mem_map_of_mem (List.mem_append_left _ member)))
        exact Nat.lt_succ_of_le known.bounds.2
      | individual => trivial
      | relation => trivial
    · exact congr (arranged.arranged found) (if_pos (thing?_bounds found).2)

/-- What is defined comes after what it is defined as, which keeps its own place. -/
theorem defining {name : String} {d body : ConceptId}
    (founded : (Entry.concept (.named name) [Ontology.top] []).Founded o name (.concept d))
    (known : o.Knows (.concept body)) :
    (((o.adding (.concept (.named name) [Ontology.top] [])).changing d.id (.tellEquivalent body)).changing
      body.id (.tellEquivalent d)).Arranged fun c => if c = d then level body else level c := by
  have newest : d.id = o.size + 1 := Entry.id_of_named? founded.named
  have bounds : 1 ≤ body.id ∧ body.id ≤ o.size := known.bounds
  have within := within_adding o (.concept (.named name) [Ontology.top] [])
  have alone : ∀ e isA equivalentTo,
      Entry.concept (.named name) [Ontology.top] [] = .concept e isA equivalentTo →
      equivalentTo = [] := by
    rintro _ _ _ ⟨⟩
    rfl
  refine ⟨arranged.stratified.defining wf founded known, fun {x y} told => ?_, fun {n entry} found => ?_⟩
  · rw [mem_equivalentTo_equating founded.names.known (within.knows known), mem_equivalentTo_adding alone]
      at told ⊢
    rcases told with old | ⟨rfl, rfl⟩ | ⟨rfl, rfl⟩
    · exact .inl (arranged.symmetric old)
    · exact .inr (.inr ⟨rfl, rfl⟩)
    · exact .inr (.inl ⟨rfl, rfl⟩)
  · have apart : n ≤ o.size → (if (⟨n⟩ : ConceptId) = d then level body else level ⟨n⟩) = level ⟨n⟩ := by
      intro old
      refine if_neg ?_
      rintro rfl
      exact absurd newest (Nat.ne_of_lt (Nat.lt_succ_of_le old))
    rw [newest, adding_changing, changing_thing? bounds.1, adding_thing?] at found
    split at found
    · rename_i here
      subst here
      rw [if_neg (by omega)] at found
      obtain ⟨old, atOld, rfl⟩ := Option.map_eq_some_iff.mp found
      have placed : old.Arranged (fun c => if c = d then level body else level c) body.id :=
        congr (arranged.arranged atOld) (apart bounds.2)
      cases old with
      | concept e isA equivalentTo =>
        obtain ⟨older, ⟨level, younger⟩ | ⟨named, base, p, rest, rfl, less⟩⟩ := placed
        · refine ⟨older, .inl ⟨level, List.forall_mem_append.mpr ⟨younger, ?_⟩⟩⟩
          exact List.forall_mem_singleton.mpr (by omega)
        · exact ⟨older, .inr ⟨named, base, p, _, rfl, less⟩⟩
      | individual => trivial
      | relation => trivial
    · split at found
      · cases found
        have top : Ontology.top.id ≤ o.size := wf.top_known.bounds.2
        refine ⟨List.forall_mem_singleton.mpr (by omega), .inr ⟨⟨name, rfl⟩, rfl, body, [], rfl, by omega⟩⟩
      · exact congr (arranged.arranged found) (apart (thing?_bounds found).2)

theorem founding {name : String} {x : Value} (founds : o.Founds name x o') : ∃ level', o'.Arranged level' := by
  cases founds with
  | made founded => exact ⟨_, arranged.adding wf founded⟩
  | defined founded known => exact ⟨_, arranged.defining wf founded known⟩

end Arranged

end Ontology

namespace State

variable {spoken : Language → Prop} {top : String} {s : State}

theorem arranged_lasting : Lasting spoken top fun _ s => ∃ level, s.ontology.Arranged level := by
  rintro l names name? s s' _ sound advances ⟨level, arranged⟩
  cases advances with
  | quiet adds => exact ⟨_, arranged.annexing sound.kept.wellFormed adds.ontology.annexes⟩
  | declared _ declares =>
    cases declares with
    | bound adds _ founds =>
      have annexed := arranged.annexing sound.kept.wellFormed adds.ontology.annexes
      exact annexed.founding (adds.ontology.kept sound.kept).wellFormed founds

/-- However programs are run, they leave an ontology arranged. -/
theorem Reached.arranged (reached : Reached spoken top s) : ∃ level, s.ontology.Arranged level := by
  obtain ⟨names, recorded⟩ := reached.recorded
  exact recorded.keeps (P := fun _ s => ∃ level, s.ontology.Arranged level) arranged_lasting
    ⟨_, Ontology.initial_arranged top⟩

end State

end ConceptLogic
