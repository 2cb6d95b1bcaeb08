import ConceptLogic.Proofs.Reasoning.SearchDepth
import ConceptLogic.Proofs.Reasoning.SearchOrder
import Mathlib.Logic.Relation

namespace ConceptLogic

/-- What a search leaves behind: its notes, and for each query that it noted the path to
it, which are the queries that were in progress then, itself first. -/
structure Trail where
  notes : Notes
  paths : List (List Query)

namespace Trail

def start : Trail := ⟨.empty, []⟩

def note (t : Trail) (q : Query) (b : Bool) : Trail := ⟨t.notes.note q b, t.paths⟩

def enter (t : Trail) (q : Query) (path : List Query) : Trail :=
  ⟨t.notes.note q false, (q :: path) :: t.paths⟩

/-- Whether no query has two paths. -/
def Unforked (paths : List (List Query)) : Prop :=
  ∀ ⦃q path path'⦄, q :: path ∈ paths → q :: path' ∈ paths → path = path'

/-- Whether each query that has a path is noted and has no other path. -/
structure Orderly (t : Trail) : Prop where
  noted : ∀ {q path}, q :: path ∈ t.paths → t.notes.find? q ≠ none
  unforked : Unforked t.paths

theorem Orderly.start : start.Orderly :=
  ⟨nofun, nofun⟩

theorem Orderly.note {t : Trail} (q : Query) (b : Bool) (orderly : t.Orderly) : (t.note q b).Orderly := by
  refine ⟨fun taken => ?_, orderly.unforked⟩
  change (t.notes.note q b).find? _ ≠ none
  rw [Notes.find?_note]
  split
  · exact Option.some_ne_none b
  · exact orderly.noted taken

theorem Orderly.enter {t : Trail} {q : Query} {path : List Query} (missing : t.notes.find? q = none)
    (orderly : t.Orderly) : (t.enter q path).Orderly := by
  constructor
  · rintro p path' (_ | ⟨_, older⟩)
    · exact ne_of_eq_of_ne Notes.find?_note_self (Option.some_ne_none false)
    · exact (orderly.note q false).noted older
  · rintro p path' path'' (_ | ⟨_, older⟩) (_ | ⟨_, older'⟩)
    · rfl
    · exact absurd missing (orderly.noted older')
    · exact absurd missing (orderly.noted older)
    · exact orderly.unforked older older'

end Trail

/-- A search that is given the queries in progress, the last one first. -/
abbrev Walk := ReaderT (List Query) (StateM Trail)

namespace Walk

/-- Finds an answer once, as a plain search does, and keeps the path to it. -/
def noting (q : Query) (search : Walk Bool) : Walk Bool := do
  match (← get).notes.find? q with
  | some b => return b
  | none =>
    let path ← read
    modify (·.enter q path)
    let b ← withReader (q :: ·) search
    modify (·.note q b)
    return b

def go {α : Type} (x : Walk α) (path : List Query) (t : Trail) : α × Trail := (x.run path).run t

variable {x y : Walk Bool} {q : Query} {path : List Query} {t : Trail}

theorem go_get (path : List Query) (t : Trail) : (get : Walk Trail).go path t = (t, t) := rfl

theorem go_bind {α : Type} (f : α → Walk Bool) (x : Walk α) :
    (x >>= f).go path t = (f (x.go path t).1).go path (x.go path t).2 := rfl

theorem go_orM : (x <||> y).go path t =
    if (x.go path t).1 = true then x.go path t else y.go path (x.go path t).2 := by
  rw [orM, go_bind]
  cases found : (x.go path t).1 with
  | true =>
    rw [if_pos rfl]
    exact Prod.ext found.symm rfl
  | false => rfl

theorem go_andM : (x <&&> y).go path t =
    if (x.go path t).1 = true then y.go path (x.go path t).2 else x.go path t := by
  rw [andM, go_bind]
  cases found : (x.go path t).1 with
  | true => rfl
  | false => exact Prod.ext found.symm rfl

theorem go_noting_found {b : Bool} (found : t.notes.find? q = some b) : (noting q x).go path t = (b, t) := by
  rw [noting, go_bind, go_get]
  dsimp only
  rw [found]
  rfl

theorem go_noting_missing (missing : t.notes.find? q = none) : (noting q x).go path t =
    ((x.go (q :: path) (t.enter q path)).1,
      (x.go (q :: path) (t.enter q path)).2.note q (x.go (q :: path) (t.enter q path)).1) := by
  rw [noting, go_bind, go_get]
  dsimp only
  rw [missing]
  rfl

end Walk

namespace Ontology

variable {o : Ontology} {q : Query} {path : List Query}

/-- The search for an answer, with the paths that it takes. -/
def walk (o : Ontology) : Nat → Query → Walk Bool
  | 0, _ => return false
  | fuel + 1, q => o.step (walk o fuel) Walk.noting q

section Forgetting

/-- A walk that does what a plain search does. -/
def Retraces (x : Walk Bool) (y : StateM Notes Bool) : Prop :=
  ∀ path t, y.run t.notes = ((x.go path t).1, (x.go path t).2.notes)

theorem respects_retraces : Respects Retraces where
  pure _ _ _ := rfl
  or := by
    intro x y x' y' first second path t
    rw [run_orM, Walk.go_orM, first path t]
    dsimp only
    split
    · rfl
    · exact second path _
  and := by
    intro x y x' y' first second path t
    rw [run_andM, Walk.go_andM, first path t]
    dsimp only
    split
    · exact second path _
    · rfl

theorem Retraces.noting {x : Walk Bool} {y : StateM Notes Bool} (retraces : Retraces x y) (q : Query) :
    Retraces (Walk.noting q x) (Notes.noting q y) := by
  intro path t
  cases noted : t.notes.find? q with
  | some b => rw [Walk.go_noting_found noted, Notes.run_noting_found noted]
  | none =>
    have same : y.run (t.notes.note q false) = _ := retraces (q :: path) (t.enter q path)
    rw [Walk.go_noting_missing noted, Notes.run_noting_missing noted, same]
    rfl

/-- Forgetting the paths leaves the plain search. -/
theorem walk_retraces (o : Ontology) (fuel : Nat) (q : Query) :
    Retraces (o.walk fuel q) (o.search fuel q) := by
  induction fuel generalizing q with
  | zero => exact fun _ _ => rfl
  | succ fuel ih =>
    refine step_related respects_retraces (fun p _ => ih p) fun x y first second => ?_
    exact (first.related respects_retraces (fun p _ => ih p) second).noting q

end Forgetting

section Keeping

/-- Whether something stays true of the trail over a walk, whatever it is compared with. -/
def Keeps {β : Type} (I : Trail → Prop) (path : List Query) (x : Walk Bool) (_ : β) : Prop :=
  ∀ t, I t → I (x.go path t).2

theorem respects_keeps (I : Trail → Prop) (path : List Query) :
    Respects (m := Walk) (n := Walk) (Keeps I path) where
  pure _ _ kept := kept
  or := by
    intro x y x' y' first second t kept
    rw [Walk.go_orM]
    split
    · exact first t kept
    · exact second _ (first t kept)
  and := by
    intro x y x' y' first second t kept
    rw [Walk.go_andM]
    split
    · exact second _ (first t kept)
    · exact first t kept

/-- What stays true when a query is entered by a path on which it is pursued, and when its answer is
noted, stays true over a whole walk. -/
theorem walk_keeps {I : Trail → Prop}
    (enter : ∀ {t q path}, (∀ p ∈ path, Relation.TransGen o.Pursues p q) → t.notes.find? q = none → I t →
      I (t.enter q path))
    (note : ∀ {t} q b, I t → I (t.note q b)) (fuel : Nat)
    (way : ∀ p ∈ path, Relation.TransGen o.Pursues p q) :
    Keeps I path (o.walk fuel q) (o.walk fuel q) := by
  induction fuel generalizing q path with
  | zero => exact fun _ => id
  | succ fuel ih =>
    refine step_related (respects_keeps I path)
      (fun p descends => ih fun r member => (way r member).tail descends.pursues)
      fun x y first second => ?_
    have respects := respects_keeps I (q :: path)
    have asked : ∀ p, o.Pursues q p → Keeps I (q :: path) (o.walk fuel p) (o.walk fuel p) := by
      refine fun p pursues => ih ?_
      rintro r (_ | ⟨_, member⟩)
      · exact .single pursues
      · exact (way r member).tail pursues
    have inner : Keeps I (q :: path) x y := by
      by_cases evident : o.Evident q
      · cases fuel with
        -- Without fuel, what is asked is not even evident to itself, but then nothing is walked.
        | zero => exact first.related respects (fun p _ _ => id) second
        | succ fuel =>
          have sure : ∀ c, o.walk (fuel + 1) (.subsumed c c) = pure true := fun c => by simp [walk, step]
          exact first.evident_related respects evident sure sure
            (fun p asks parts => asked p ⟨.inl asks, fun _ => parts⟩) second
      · exact first.related respects
          (fun p asks => asked p ⟨.inl asks, fun shown => absurd shown evident⟩) second
    intro t kept
    cases noted : t.notes.find? q with
    | some b =>
      rw [Walk.go_noting_found noted]
      exact kept
    | none =>
      rw [Walk.go_noting_missing noted]
      exact note q _ (inner _ (enter way noted kept))

end Keeping

/-- The paths that the search for an answer takes. -/
def pathsOn (o : Ontology) (q : Query) : List (List Query) :=
  ((o.walk o.searchDepth q).go [] .start).2.paths

theorem pathsOn_unforked (o : Ontology) (q : Query) : Trail.Unforked (o.pathsOn q) := by
  have orderly : ((o.walk o.searchDepth q).go [] .start).2.Orderly :=
    walk_keeps (fun _ => Trail.Orderly.enter) Trail.Orderly.note _ (by simp) _ .start
  exact orderly.unforked

/-- Whether on every path the queries pursue the one that it was taken for. -/
def Pursuing (o : Ontology) (paths : List (List Query)) : Prop :=
  ∀ ⦃q path⦄, q :: path ∈ paths → ∀ p ∈ path, Relation.TransGen o.Pursues p q

theorem pathsOn_pursuing (o : Ontology) (q : Query) : o.Pursuing (o.pathsOn q) := by
  refine walk_keeps (I := fun t => o.Pursuing t.paths) (fun way _ kept => ?_) (fun _ _ => id) _ (by simp) _ nofun
  rintro p path (_ | ⟨_, older⟩)
  · exact way
  · exact kept older

/-- On every path the queries lead to the one that it was taken for. -/
theorem pathsOn_leading (o : Ontology) {q p r : Query} {path : List Query} (taken : p :: path ∈ o.pathsOn q)
    (member : r ∈ path) : Relation.TransGen o.Leads r p :=
  Relation.TransGen.mono (fun _ _ => And.left) _ _ (o.pathsOn_pursuing q taken r member)

end Ontology

end ConceptLogic
