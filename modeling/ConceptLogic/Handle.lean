import ConceptLogic.Name

namespace ConceptLogic

/-- A number that names something an ontology keeps. Handles of different roles
are different types, but their numbers come from one counter. -/
structure Handle (role : Role) where
  id : Nat
  deriving DecidableEq, Repr, Inhabited

abbrev ConceptId := Handle .concept
abbrev IndividualId := Handle .individual
abbrev RelationId := Handle .relation

namespace Handle

variable {role : Role}

/-- Puts a handle into a list that increases strictly, and leaves the list as
it is if the handle is there already. -/
def insert (h : Handle role) : List (Handle role) → List (Handle role)
  | [] => [h]
  | g :: rest =>
    if h.id < g.id then h :: g :: rest
    else if h = g then g :: rest
    else g :: insert h rest

/-- The members of a list, each once, in the order of their numbers. -/
def sorted : List (Handle role) → List (Handle role)
  | [] => []
  | h :: rest => insert h (sorted rest)

theorem mem_insert {h g : Handle role} {l : List (Handle role)} :
    g ∈ insert h l ↔ g = h ∨ g ∈ l := by
  induction l with
  | nil => simp [insert]
  | cons x rest ih =>
    unfold insert
    split
    · simp
    · split
      · rename_i same
        subst same
        simp
      · simp only [List.mem_cons, ih]
        exact or_left_comm

theorem mem_sorted {g : Handle role} {l : List (Handle role)} : g ∈ sorted l ↔ g ∈ l := by
  induction l with
  | nil => rfl
  | cons h rest ih => simp only [sorted, mem_insert, ih, List.mem_cons]

theorem insert_increasing {h : Handle role} {l : List (Handle role)}
    (increasing : l.Pairwise (·.id < ·.id)) : (insert h l).Pairwise (·.id < ·.id) := by
  induction l with
  | nil => exact List.pairwise_singleton ..
  | cons x rest ih =>
    obtain ⟨above, rest_increasing⟩ := List.pairwise_cons.mp increasing
    unfold insert
    split
    · rename_i below
      refine List.pairwise_cons.mpr ⟨fun g member => ?_, increasing⟩
      rcases List.mem_cons.mp member with rfl | member
      · exact below
      · exact Nat.lt_trans below (above g member)
    · split
      · exact increasing
      · rename_i above_h distinct
        refine List.pairwise_cons.mpr ⟨fun g member => ?_, ih rest_increasing⟩
        rcases mem_insert.mp member with rfl | member
        · have differ : x.id ≠ g.id := fun same => distinct (by
            cases g
            cases x
            cases same
            rfl)
          omega
        · exact above g member

theorem sorted_increasing (l : List (Handle role)) : (sorted l).Pairwise (·.id < ·.id) := by
  induction l with
  | nil => exact .nil
  | cons h rest ih => exact insert_increasing ih

end Handle

end ConceptLogic
