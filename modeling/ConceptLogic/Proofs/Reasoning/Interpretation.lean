import ConceptLogic.Ontology.Reasoning
import ConceptLogic.Proofs.Ontology.WellFormed
import ConceptLogic.Proofs.Reasoning.ReachablePlaces
import Mathlib.Data.Set.Card

namespace ConceptLogic

/-- What the numbers of an ontology may stand for. Its domain is not empty, since there
is an individual to every number. -/
structure Interpretation (α : Type*) where
  named : ConceptId → Set α
  individual : IndividualId → α
  relation : RelationId → α → α → Prop

/-- When a quantifier holds of one thing, by what it is related to and which of that is
in the filler. Fillers are counted each once. -/
def Quantifier.Holds {α : Type*} (related filler : Set α) : Quantifier → Prop
  | .some => (related ∩ filler).Nonempty
  | .only => related ⊆ filler
  | .count .atLeast n => n ≤ (related ∩ filler).encard
  | .count .atMost n => (related ∩ filler).encard ≤ n
  | .count .exactly n => (related ∩ filler).encard = n

namespace Interpretation

variable {α : Type*} (I : Interpretation α)

/-- What an expression means, given what the concepts in it mean. -/
def meaning (c : ConceptId) (part : ConceptId → Set α) : Expression → Set α
  | .named _ => I.named c
  | .conjunction cs => {a | ∀ x ∈ cs, a ∈ part x}
  | .disjunction cs => {a | ∃ x ∈ cs, a ∈ part x}
  | .negation x => (part x)ᶜ
  | .nominal is => {a | ∃ i ∈ is, I.individual i = a}
  | .restriction q r x => {a | q.Holds {b | I.relation r a b} (part x)}

/-- What a concept of an ontology means. Its operands are older, which bounds the
recursion. -/
def extent (o : Ontology) (c : ConceptId) : Set α :=
  match o.expression? c with
  | none => ∅
  | some e => I.meaning c (fun x => if _older : x.id < c.id then extent o x else ∅) e
termination_by c.id

/-- Whether all that an ontology was told is so. -/
structure Satisfies (o : Ontology) : Prop where
  everything : I.extent o Ontology.top = Set.univ
  isA : ∀ {c p}, p ∈ o.isA c → I.extent o c ⊆ I.extent o p
  equivalentTo : ∀ {c p}, p ∈ o.equivalentTo c → I.extent o c = I.extent o p
  types : ∀ {i t}, t ∈ o.types i → I.individual i ∈ I.extent o t
  supers : ∀ {r s}, s ∈ o.supers r → ∀ {a b}, I.relation r a b → I.relation s a b

/-- Whether an answer of yes would be right. -/
def Confirms (o : Ontology) : Query → Prop
  | .subsumed c d => I.extent o c ⊆ I.extent o d
  | .member i d => I.individual i ∈ I.extent o d

variable {I}

theorem meaning_congr {c : ConceptId} {part part' : ConceptId → Set α} {e : Expression}
    (same : ∀ x, .concept x ∈ e.parts → part x = part' x) : I.meaning c part e = I.meaning c part' e := by
  cases e with
  | named => rfl
  | conjunction cs =>
    refine Set.ext fun a => forall₂_congr fun x member => ?_
    rw [same x (List.mem_map_of_mem member)]
  | disjunction cs =>
    refine Set.ext fun a => exists_congr fun x => and_congr_right fun member => ?_
    rw [same x (List.mem_map_of_mem member)]
  | negation x => exact congrArg compl (same x (List.mem_singleton.mpr rfl))
  | nominal => rfl
  | restriction q r x =>
    have filler := same x (List.mem_cons_of_mem _ (List.mem_singleton.mpr rfl))
    simp only [meaning, filler]

/-- In a well-formed ontology, a concept means what its expression means. -/
theorem extent_eq {o : Ontology} (wf : o.WellFormed) {c : ConceptId} {e : Expression}
    (made : o.expression? c = some e) : I.extent o c = I.meaning c (I.extent o) e := by
  rw [extent, made]
  refine meaning_congr fun x part => ?_
  exact dif_pos (wf.older made _ part)

namespace Satisfies

variable {o : Ontology} (satisfies : I.Satisfies o)
include satisfies

theorem told {c p : ConceptId} (told : p ∈ o.told c) : I.extent o c ⊆ I.extent o p := by
  rcases List.mem_append.mp told with isA | equivalent
  · exact satisfies.isA isA
  · exact (satisfies.equivalentTo equivalent).subset

theorem path {c : ConceptId} {n : Nat}
    (path : Relation.TransGen (Edge fun n => (o.told ⟨n⟩).map Handle.id) c.id n) :
    I.extent o c ⊆ I.extent o ⟨n⟩ := by
  induction path with
  | single edge =>
    obtain ⟨p, told, rfl⟩ := List.mem_map.mp edge
    exact satisfies.told told
  | tail _ edge ih =>
    obtain ⟨p, told, rfl⟩ := List.mem_map.mp edge
    exact ih.trans (satisfies.told told)

theorem relationPath {r : RelationId} {n : Nat}
    (path : Relation.TransGen (Edge fun n => (o.supers ⟨n⟩).map Handle.id) r.id n) {a b : α}
    (related : I.relation r a b) : I.relation ⟨n⟩ a b := by
  induction path with
  | single edge =>
    obtain ⟨s, super, rfl⟩ := List.mem_map.mp edge
    exact satisfies.supers super related
  | tail _ edge ih =>
    obtain ⟨s, super, rfl⟩ := List.mem_map.mp edge
    exact satisfies.supers super ih

theorem isSubRelation {r s : RelationId} (sub : o.isSubRelation r s = true) {a b : α}
    (related : I.relation r a b) : I.relation s a b := by
  rcases Bool.or_eq_true_iff.mp sub with same | reached
  · cases of_decide_eq_true same
    exact related
  · exact satisfies.relationPath (reachable_sound reached) related

end Satisfies

end Interpretation

end ConceptLogic
