import ConceptLogic.Proofs.Evaluation.DeclarationOutcomes
import ConceptLogic.Proofs.Reasoning.MissedQueries

namespace ConceptLogic

/-- Whether what an entry holds lies where levels of concepts put it. An anonymous concept lies as high
as its number, a concept below nothing that it was told to be a part of and on one level with all that
it was told to be the same as, and the types of an individual are older than it. -/
def Entry.Placed (level : ConceptId → Nat) (id : Nat) : Entry → Prop
  | .concept e isA equivalentTo => (e.Anonymous → level ⟨id⟩ = id) ∧
    (∀ p ∈ isA, level p ≤ level ⟨id⟩) ∧ ∀ p ∈ equivalentTo, level p = level ⟨id⟩
  | .individual _ types => ∀ t ∈ types, t.id < id
  | .relation .. => True

theorem Entry.Placed.congr {level level' : ConceptId → Nat} {id : Nat} {entry : Entry}
    (placed : entry.Placed level id) (here : level' ⟨id⟩ = level ⟨id⟩)
    (same : ∀ c, .concept c ∈ entry.mentions → level' c = level c) : entry.Placed level' id := by
  cases entry with
  | concept e isA equivalentTo =>
    obtain ⟨anonymous, below, equal⟩ := placed
    have told : ∀ p, p ∈ isA ∨ p ∈ equivalentTo → level' p = level p := fun p member =>
      same p (List.mem_append_right _ (List.mem_map_of_mem (List.mem_append.mpr member)))
    refine ⟨fun unnamed => here.trans (anonymous unnamed), fun p member => ?_, fun p member => ?_⟩
    · rw [told p (.inl member), here]
      exact below p member
    · rw [told p (.inr member), here]
      exact equal p member
  | individual => exact placed
  | relation => exact placed

namespace Ontology

/-- Whether levels fit an ontology, so that no told edge leads up. -/
structure Stratified (o : Ontology) (level : ConceptId → Nat) : Prop where
  top : level Ontology.top = 0
  bounded : ∀ c, level c ≤ c.id
  placed : ∀ {n entry}, o.thing? n = some entry → entry.Placed level n

theorem initial_stratified (name : String) : (initial name).Stratified fun _ => 0 where
  top := rfl
  bounded c := Nat.zero_le c.id
  placed {n entry} found := by
    obtain ⟨rfl, rfl⟩ := initial_thing? found
    exact ⟨fun anonymous => absurd rfl (anonymous name), nofun, nofun⟩

namespace Stratified

variable {o o' : Ontology} {level level' : ConceptId → Nat}

/-- An ontology that has grown stays stratified if what is new in it is placed. -/
theorem growing (stratified : o.Stratified level) (wf : o.WellFormed)
    (same : ∀ c, c.id ≤ o.size → level' c = level c) (bounded : ∀ c, level' c ≤ c.id)
    (placed : ∀ n entry, o'.thing? n = some entry → o.thing? n = some entry ∨ entry.Placed level' n) :
    o'.Stratified level' where
  top := (same _ wf.top_known.bounds.2).trans stratified.top
  bounded := bounded
  placed {n entry} found := by
    rcases placed n entry found with old | new
    · have bounds := thing?_bounds old
      refine (stratified.placed old).congr (same ⟨n⟩ bounds.2) fun c mentioned => ?_
      exact same c (wf.closed old _ mentioned).bounds.2
    · exact new

/-- What is told of something leaves an ontology stratified if it is placed. -/
theorem changing (stratified : o.Stratified level) {id : Nat} {f : Entry → Entry} (positive : 1 ≤ id)
    (placed : ∀ entry : Entry, entry.Placed level id → (f entry).Placed level id) :
    (o.changing id f).Stratified level where
  top := stratified.top
  bounded := stratified.bounded
  placed {n entry} found := by
    rw [changing_thing? positive] at found
    split at found
    · rename_i here
      subst here
      obtain ⟨old, atOld, rfl⟩ := Option.map_eq_some_iff.mp found
      exact placed old (stratified.placed atOld)
    · exact stratified.placed found

theorem tellEquivalent (stratified : o.Stratified level) {c d : ConceptId} (positive : 1 ≤ d.id)
    (same : level c = level d) : (o.changing d.id (.tellEquivalent c)).Stratified level := by
  refine stratified.changing positive fun entry placed => ?_
  cases entry with
  | concept e isA equivalentTo =>
    refine ⟨placed.1, placed.2.1, fun p member => ?_⟩
    rcases List.mem_append.mp member with old | new
    · exact placed.2.2 p old
    · exact List.mem_singleton.mp new ▸ same
  | individual => exact placed
  | relation => exact placed

end Stratified

/-- The levels of what is known, and for all that is new its number. -/
def raised (o : Ontology) (level : ConceptId → Nat) (c : ConceptId) : Nat :=
  if c.id ≤ o.size then level c else c.id

namespace Stratified

variable {o o' : Ontology} {level : ConceptId → Nat} (stratified : o.Stratified level) (wf : o.WellFormed)
include stratified

theorem raised_le (c : ConceptId) : o.raised level c ≤ c.id := by
  unfold raised
  split
  · exact stratified.bounded c
  · exact Nat.le_refl c.id

include wf

theorem annexing (annexes : o.Annexes o') : o'.Stratified (o.raised level) := by
  refine stratified.growing wf (fun c old => if_pos old) stratified.raised_le fun n entry found => ?_
  by_cases old : n ≤ o.size
  · exact .inl (annexes.thing?_old old ▸ found)
  · obtain ⟨e, _, rfl⟩ := annexes.thing?_new (Nat.lt_of_not_le old) found
    exact .inr ⟨fun _ => if_neg old, nofun, nofun⟩

theorem adding {name : String} {x : Value} {entry : Entry} (founded : entry.Founded o name x) :
    (o.adding entry).Stratified (o.raised level) := by
  refine stratified.growing wf (fun c old => if_pos old) stratified.raised_le fun n new found => ?_
  rw [adding_thing?] at found
  split at found
  · rename_i last
    cases found
    subst last
    refine .inr ?_
    have newest : o.raised level ⟨o.size + 1⟩ = o.size + 1 := if_neg (Nat.not_succ_le_self _)
    have older : ∀ {c}, .concept c ∈ entry.mentions → c.id ≤ o.size :=
      fun mentioned => (founded.known _ mentioned).bounds.2
    cases entry with
    | concept e isA equivalentTo =>
      have alone : equivalentTo = [] := founded.novel.2.1
      subst alone
      refine ⟨fun _ => newest, fun p member => ?_, nofun⟩
      have below := older (List.mem_append_right _ (List.mem_map_of_mem (List.mem_append_left _ member)))
      have bounded := stratified.raised_le p
      omega
    | individual name types =>
      exact fun t member => Nat.lt_succ_of_le (older (List.mem_map_of_mem member))
    | relation => trivial
  · exact .inl found

/-- What is defined lies on the level of what it is defined as. -/
theorem defining {name : String} {d body : ConceptId}
    (founded : (Entry.concept (.named name) [Ontology.top] []).Founded o name (.concept d))
    (known : o.Knows (.concept body)) :
    (((o.adding (.concept (.named name) [Ontology.top] [])).changing d.id (.tellEquivalent body)).changing
      body.id (.tellEquivalent d)).Stratified fun c => if c = d then level body else level c := by
  have newest : d.id = o.size + 1 := Entry.id_of_named? founded.named
  have bounds : 1 ≤ body.id ∧ body.id ≤ o.size := known.bounds
  have positive : Ontology.top.id ≤ o.size := wf.top_known.bounds.2
  have apart : ∀ {c : ConceptId}, c.id ≤ o.size → c ≠ d := by
    rintro c old rfl
    omega
  have made : (o.adding (.concept (.named name) [Ontology.top] [])).Stratified
      fun c => if c = d then level body else level c := by
    refine stratified.growing wf (fun c old => if_neg (apart old)) (fun c => ?_) fun n entry found => ?_
    · have bounded := stratified.bounded body
      split
      · rename_i same
        subst same
        omega
      · exact stratified.bounded c
    · rw [adding_thing?] at found
      split at found
      · cases found
        refine .inr ⟨fun anonymous => absurd rfl (anonymous name), fun p member => ?_, nofun⟩
        rw [List.mem_singleton.mp member]
        dsimp only
        rw [if_neg (apart positive), stratified.top]
        exact Nat.zero_le _
      · exact .inl found
  have same : (if body = d then level body else level body) = if d = d then level body else level d := by
    rw [if_neg (apart bounds.2), if_pos rfl]
  exact (made.tellEquivalent (by omega) same).tellEquivalent bounds.1 same.symm

theorem founding {name : String} {x : Value} (founds : o.Founds name x o') :
    ∃ level', o'.Stratified level' := by
  cases founds with
  | made founded => exact ⟨_, stratified.adding wf founded⟩
  | defined founded known => exact ⟨_, stratified.defining wf founded known⟩

end Stratified

end Ontology

/-- Every statement leaves an ontology stratified. -/
theorem State.Advances.stratified {v : Vocabulary} {s s' : State} {name? : Option String}
    (advances : s.Advances v name? s') (kept : s.ontology.Kept)
    (stratified : ∃ level, s.ontology.Stratified level) : ∃ level, s'.ontology.Stratified level := by
  obtain ⟨level, stratified⟩ := stratified
  cases advances with
  | quiet adds => exact ⟨_, stratified.annexing kept.wellFormed adds.ontology.annexes⟩
  | declared _ declares =>
    cases declares with
    | bound adds _ founds =>
      have annexed := stratified.annexing kept.wellFormed adds.ontology.annexes
      exact annexed.founding (adds.ontology.kept kept).wellFormed founds

end ConceptLogic
