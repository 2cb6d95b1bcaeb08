import ConceptLogic.Proofs.Reasoning.PersistentAnswers
import Mathlib.Algebra.BigOperators.Group.Finset.Basic
import Mathlib.Order.Defs.Unbundled

namespace ConceptLogic

/-- The relations that an entry was told to be a part of. -/
def Entry.supers : Entry → List RelationId
  | .relation _ supers _ => supers
  | _ => []

theorem Entry.Within.supers {entry entry' : Entry} (within : entry.Within entry') :
    entry'.supers = entry.supers := by
  cases entry <;> cases entry' <;> simp_all [Entry.Within, Entry.supers]

theorem Entry.super_mentioned {entry : Entry} {s : RelationId} (told : s ∈ entry.supers) :
    .relation s ∈ entry.mentions := by
  cases entry with
  | concept | individual => simp [Entry.supers] at told
  | relation name supers signature =>
    cases signature <;> simpa [Entry.supers, Entry.mentions] using told

namespace Ontology

variable {o o' : Ontology} {r s : RelationId}

theorem supers_eq (o : Ontology) (r : RelationId) : o.supers r = ((o.thing? r.id).map Entry.supers).getD [] := by
  unfold supers
  split
  · rename_i found
    simp [found, Entry.supers]
  · rename_i other
    cases found : o.thing? r.id with
    | none => rfl
    | some entry =>
      cases entry with
      | concept | individual => rfl
      | relation => exact absurd found (other _ _ _)

theorem supers_adding (o : Ontology) (entry : Entry) (r : RelationId) :
    (o.adding entry).supers r = if r.id = o.size + 1 then entry.supers else o.supers r := by
  simp only [supers_eq, adding_thing?]
  split <;> simp

/-- What is told later changes nothing about which relations a relation is a part of. -/
theorem supers_changing {id : Nat} {f : Entry → Entry} (positive : 1 ≤ id)
    (more : ∀ entry : Entry, entry.Within (f entry)) (r : RelationId) : (o.changing id f).supers r = o.supers r := by
  have same : Entry.supers ∘ f = Entry.supers := funext fun entry => (more entry).supers
  simp only [supers_eq, changing_thing? positive]
  split <;> simp [same]

theorem supers_unknown (unknown : ¬r.id < o.size + 1) : o.supers r = [] := by
  refine List.eq_nil_iff_forall_not_mem.mpr fun s told => ?_
  obtain ⟨_, _, _, found, _⟩ := mem_supers.mp told
  have bounds := thing?_bounds found
  omega

/-- Whether relations were told to be a part of older ones only. -/
def Descending (o : Ontology) : Prop :=
  ∀ r, ∀ s ∈ o.supers r, s.id < r.id

theorem Descending.evolve (descending : o.Descending) (evolves : o.Evolves o') : o'.Descending := by
  intro r s told
  cases evolves with
  | grown grows =>
    cases grows with
    | same => exact descending r s told
    | added known =>
      rw [supers_adding] at told
      split at told
      · have bounds := (known _ (Entry.super_mentioned told)).bounds
        simp only [Entity.id] at bounds
        omega
      · exact descending r s told
    | @signed q _ _ known =>
      have positive : 1 ≤ q.id := known.bounds.1
      rw [supers_changing positive (within_sign _)] at told
      exact descending r s told
  | told known =>
    rw [supers_changing known.bounds.1 (within_tellIsA _)] at told
    exact descending r s told
  | @equated c d known concept =>
    have positive : 1 ≤ d.id := known.bounds.1
    have positive' : 1 ≤ c.id := concept.bounds.1
    rw [supers_changing positive' (within_tellEquivalent _),
      supers_changing positive (within_tellEquivalent _)] at told
    exact descending r s told

theorem Reached.descending {name : String} (reached : Reached name o) : o.Descending := by
  induction reached with
  | initial =>
    intro r s told
    obtain ⟨_, _, _, found, _⟩ := mem_supers.mp told
    cases (initial_thing? found).2
  | call call reached ih => exact ih.evolve (call.after_evolves reached.wellFormed)

/-- Whether a relation is another one or lies under it, over any number of told edges. -/
def LiesUnder (o : Ontology) : RelationId → RelationId → Prop :=
  Relation.ReflTransGen fun r s => s ∈ o.supers r

theorem WellFormed.liesUnder_iff (wf : o.WellFormed) : o.isSubRelation r s = true ↔ o.LiesUnder r s := by
  rw [wf.isSubRelation_iff, LiesUnder, Relation.reflTransGen_iff_eq_or_transGen, eq_comm (a := s)]
  exact or_congr_right numberPath_iff

/-- A relation that lies under another one is younger. -/
theorem Descending.eq_or_lt (descending : o.Descending) (under : o.LiesUnder r s) : r = s ∨ s.id < r.id := by
  induction under with
  | refl => exact .inl rfl
  | @tail x y _ told ih =>
    have younger := descending x y told
    rcases ih with rfl | older
    · exact .inr younger
    · exact .inr (by omega)

end Ontology

/-- A search among relations. It goes on with those that wait, the next one first, and those that were
looked at, or it has ended. A relation can wait several times. -/
inductive Hunt
  | looking (waiting visited : List RelationId)
  | ended (found : Bool)
  deriving DecidableEq, Repr

namespace Ontology

variable {o : Ontology} {r s : RelationId}

/-- One turn of the search for a relation. The one that waits first is left. If it is not the one
sought and was not looked at before, all that it was told to be a part of waits from now on, the last
of it first. -/
def hunt (o : Ontology) (sought : RelationId) : Hunt → Hunt
  | .looking [] _ => .ended false
  | .looking (r :: waiting) visited =>
    if r = sought then .ended true
    else if r ∈ visited then .looking waiting visited
    else .looking ((o.supers r).reverse ++ waiting) (r :: visited)
  | .ended found => .ended found

/-- How many edges were told between relations, counting one that was told twice as two. -/
def superCount (o : Ontology) : Nat :=
  ∑ n ∈ Finset.range (o.size + 1), (o.supers ⟨n⟩).length

/-- The edges that lead on from relations that were not looked at. -/
def unfollowed (o : Ontology) (visited : List RelationId) : Nat :=
  ∑ n ∈ (Finset.range (o.size + 1)).filter (⟨·⟩ ∉ visited), (o.supers ⟨n⟩).length

theorem unfollowed_nil (o : Ontology) : o.unfollowed [] = o.superCount := by
  simp [unfollowed, superCount]

theorem unfollowed_cons {visited : List RelationId} (fresh : r ∉ visited) :
    (o.supers r).length + o.unfollowed (r :: visited) = o.unfollowed visited := by
  have number : ∀ n, (⟨n⟩ : RelationId) = r ↔ n = r.id := fun n => by
    cases r
    simp
  by_cases known : r.id < o.size + 1
  · have left : (Finset.range (o.size + 1)).filter (⟨·⟩ ∉ r :: visited) =
        ((Finset.range (o.size + 1)).filter (⟨·⟩ ∉ visited)).erase r.id := by
      ext n
      simp only [Finset.mem_filter, Finset.mem_erase, List.mem_cons, number, not_or]
      tauto
    rw [unfollowed, left]
    exact Finset.add_sum_erase _ (fun n => (o.supers ⟨n⟩).length) (by simp [known, fresh])
  · have left : (Finset.range (o.size + 1)).filter (⟨·⟩ ∉ r :: visited) =
        (Finset.range (o.size + 1)).filter (⟨·⟩ ∉ visited) := by
      refine Finset.filter_congr fun n inside => ?_
      have other : n ≠ r.id := by
        rintro rfl
        exact known (Finset.mem_range.mp inside)
      simp [number, other]
    rw [unfollowed, left, supers_unknown known, List.length_nil, Nat.zero_add, unfollowed]

/-- How many turns a search can still take: one for each that waits or can come to wait, and one to see
that nothing does. -/
def ahead (o : Ontology) : Hunt → Nat
  | .looking waiting visited => waiting.length + o.unfollowed visited + 1
  | .ended _ => 0

theorem hunt_ahead (o : Ontology) (s : RelationId) (h : Hunt) : o.ahead (o.hunt s h) ≤ o.ahead h - 1 := by
  match h with
  | .ended _ => simp [hunt, ahead]
  | .looking [] _ => simp [hunt, ahead]
  | .looking (r :: waiting) visited =>
    by_cases same : r = s
    · simp [hunt, same, ahead]
    · by_cases seen : r ∈ visited
      · simp only [hunt, same, seen, if_true, if_false, ahead, List.length_cons]
        omega
      · have followed := unfollowed_cons (o := o) seen
        simp only [hunt, same, seen, if_false, ahead, List.length_append, List.length_reverse, List.length_cons]
        omega

theorem hunts_ahead (o : Ontology) (s : RelationId) (turns : Nat) (h : Hunt) :
    o.ahead ((o.hunt s)^[turns] h) ≤ o.ahead h - turns := by
  induction turns generalizing h with
  | zero => simp
  | succ turns ih =>
    have first := hunt_ahead o s h
    have later := ih (o.hunt s h)
    rw [Function.iterate_succ_apply]
    omega

/-- Every search comes to an end. -/
theorem hunts_end (o : Ontology) (r s : RelationId) :
    ∃ found, (o.hunt s)^[o.superCount + 2] (.looking [r] []) = .ended found := by
  have few := hunts_ahead o s (o.superCount + 2) (.looking [r] [])
  cases last : (o.hunt s)^[o.superCount + 2] (.looking [r] []) with
  | ended found => exact ⟨found, rfl⟩
  | looking waiting visited =>
    simp only [last, ahead, unfollowed_nil, List.length_singleton] at few
    omega

/-- What every turn of a search for `s` keeps: it has come only to what `r` lies under, it has lost
nothing that it has come to, and `s` was not among it. -/
structure Hunting (o : Ontology) (r s : RelationId) (waiting visited : List RelationId) : Prop where
  under : ∀ x, x ∈ waiting ∨ x ∈ visited → o.LiesUnder r x
  started : r ∈ waiting ∨ r ∈ visited
  followed : ∀ x ∈ visited, ∀ y ∈ o.supers x, y ∈ waiting ∨ y ∈ visited
  missed : s ∉ visited

/-- Whether a search for `s` has gone right so far. -/
def Right (o : Ontology) (r s : RelationId) : Hunt → Prop
  | .looking waiting visited => o.Hunting r s waiting visited
  | .ended found => found = true ↔ o.LiesUnder r s

/-- Where nothing waits, all that `r` lies under was looked at. -/
theorem Hunting.exhausted {visited : List RelationId} (hunting : o.Hunting r s [] visited) :
    ¬o.LiesUnder r s := by
  have all : ∀ x, o.LiesUnder r x → x ∈ visited := by
    intro x under
    induction under with
    | refl => simpa using hunting.started
    | @tail x y _ told ih => simpa using hunting.followed x ih y told
  exact fun under => hunting.missed (all s under)

/-- A relation that was looked at before can be skipped, as what it leads to was lost sight of neither
then nor since. -/
theorem Hunting.skip {x : RelationId} {waiting visited : List RelationId}
    (hunting : o.Hunting r s (x :: waiting) visited) (seen : x ∈ visited) : o.Hunting r s waiting visited := by
  have stays : ∀ y, y ∈ x :: waiting ∨ y ∈ visited → y ∈ waiting ∨ y ∈ visited := by
    rintro y (here | before)
    · rcases List.mem_cons.mp here with rfl | later
      · exact .inr seen
      · exact .inl later
    · exact .inr before
  refine ⟨fun y member => hunting.under y ?_, stays r hunting.started,
    fun y before z told => stays z (hunting.followed y before z told), hunting.missed⟩
  exact member.imp_left (List.mem_cons_of_mem x)

theorem Hunting.follow {x : RelationId} {waiting visited : List RelationId}
    (hunting : o.Hunting r s (x :: waiting) visited) (other : x ≠ s) :
    o.Hunting r s ((o.supers x).reverse ++ waiting) (x :: visited) := by
  have stays : ∀ y, y ∈ x :: waiting ∨ y ∈ visited → y ∈ (o.supers x).reverse ++ waiting ∨ y ∈ x :: visited := by
    intro y member
    simp only [List.mem_cons, List.mem_append] at member ⊢
    tauto
  have here : o.LiesUnder r x := hunting.under x (.inl (List.mem_cons_self ..))
  refine ⟨fun y member => ?_, stays r hunting.started, fun y before z told => ?_, ?_⟩
  · simp only [List.mem_append, List.mem_reverse, List.mem_cons] at member
    rcases member with (told | later) | rfl | before
    · exact here.tail told
    · exact hunting.under y (.inl (List.mem_cons_of_mem x later))
    · exact here
    · exact hunting.under y (.inr before)
  · rcases List.mem_cons.mp before with rfl | before
    · exact .inl (List.mem_append_left _ (List.mem_reverse.mpr told))
    · exact stays z (hunting.followed y before z told)
  · simpa [other.symm] using hunting.missed

theorem hunt_right {h : Hunt} (right : o.Right r s h) : o.Right r s (o.hunt s h) := by
  match h with
  | .ended _ => exact right
  | .looking [] visited => simpa [hunt, Right] using Hunting.exhausted right
  | .looking (x :: waiting) visited =>
    by_cases same : x = s
    · have under : o.LiesUnder r x := right.under x (.inl (List.mem_cons_self ..))
      simpa [hunt, Right, same] using under
    · by_cases seen : x ∈ visited
      · simpa only [hunt, same, seen, if_true, if_false, Right] using Hunting.skip right seen
      · simpa only [hunt, same, seen, if_false, Right] using Hunting.follow right same

theorem hunts_right (o : Ontology) (r s : RelationId) (turns : Nat) :
    o.Right r s ((o.hunt s)^[turns] (.looking [r] [])) := by
  induction turns with
  | zero =>
    refine ⟨fun x member => ?_, .inl (List.mem_singleton.mpr rfl), nofun, List.not_mem_nil⟩
    have same : x = r := by simpa using member
    subst same
    exact .refl
  | succ turns ih =>
    rw [Function.iterate_succ_apply']
    exact hunt_right ih

/-- The search for a relation among those above another one comes to an end, at the latest once every
told edge was followed, and says whether any number of told edges lead there. As they lead from younger
relations to older ones, this is an order of the relations. -/
theorem isSubRelation_exact {name : String} (reached : Reached name o) :
    (∀ r s, (o.hunt s)^[o.superCount + 2] (.looking [r] []) = .ended (o.isSubRelation r s)) ∧
    (∀ r s, o.isSubRelation r s = true ↔ Relation.ReflTransGen (fun r s => s ∈ o.supers r) r s) ∧
    (∀ r, ∀ s ∈ o.supers r, s.id < r.id) ∧
    IsPartialOrder RelationId fun r s => o.isSubRelation r s = true := by
  have decides : ∀ r s, o.isSubRelation r s = true ↔ o.LiesUnder r s :=
    fun r s => reached.wellFormed.liesUnder_iff
  have descending := reached.descending
  refine ⟨fun r s => ?_, decides, descending, ?_⟩
  · obtain ⟨found, last⟩ := hunts_end o r s
    have right := hunts_right o r s (o.superCount + 2)
    rw [last] at right ⊢
    exact congrArg Hunt.ended (Bool.eq_iff_iff.mpr (right.trans (decides r s).symm))
  · simp only [decides]
    refine { refl := fun r => .refl, trans := fun _ _ _ first second => first.trans second, antisymm := ?_ }
    intro r s under back
    have younger := descending.eq_or_lt under
    have older := descending.eq_or_lt back
    by_cases same : r = s
    · exact same
    · have before := younger.resolve_left same
      have after := older.resolve_left (Ne.symm same)
      omega

/-- Relations with several others above them, one of them told twice, and one that stands apart. -/
def family : Ontology :=
  (initial "Thing").afterAll
    [.createRelation "R" [], .createRelation "S" [⟨2⟩, ⟨2⟩], .createRelation "T" [⟨2⟩],
      .createRelation "U" [⟨3⟩, ⟨4⟩, ⟨3⟩], .createRelation "V" [⟨6⟩], .createRelation "V" []]

theorem family_exact : Reached "Thing" family ∧ family.isSubRelation ⟨5⟩ ⟨2⟩ = true ∧
    (family.hunt ⟨2⟩)^[8] (.looking [⟨5⟩] []) = .ended true ∧
    (family.hunt ⟨6⟩)^[8] (.looking [⟨5⟩] []) = .ended false := by
  have reached : Reached "Thing" family := .afterAll .initial _
  obtain ⟨ends, decides, _, _⟩ := isSubRelation_exact reached
  have above : family.isSubRelation ⟨5⟩ ⟨2⟩ = true :=
    (decides ⟨5⟩ ⟨2⟩).mpr (.head (b := ⟨3⟩) (by decide +kernel) (.single (by decide +kernel)))
  have apart : family.isSubRelation ⟨5⟩ ⟨6⟩ = false := by decide +kernel
  have eight : family.superCount + 2 = 8 := by decide +kernel
  refine ⟨reached, above, ?_, ?_⟩
  · rw [← eight, ends, above]
  · rw [← eight, ends, apart]

end Ontology

end ConceptLogic
