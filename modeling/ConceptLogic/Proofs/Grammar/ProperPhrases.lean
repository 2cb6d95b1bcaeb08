import ConceptLogic.Proofs.Grammar.LegiblePhrases

namespace ConceptLogic

namespace Phrase

/-- The phrases for concepts that texts yield: their names are admitted, nominals have members, and
connectives have two operands or more, none of which they join themselves. -/
inductive Proper (v : Vocabulary) : Phrase → Prop
  | concept {name : String} (vetted : v.vet .concept name = .ok name) : Proper v (.concept name)
  | nominal {members : List String} (inhabited : members ≠ [])
      (vetted : ∀ m ∈ members, v.vet .individual m = .ok m) : Proper v (.nominal members)
  | var {x : Variable} (vetted : Variable.vet v x.base x.type = .ok x) : Proper v (.var x)
  | anaphora : Proper v .anaphora
  | negation {p : Phrase} (operand : Proper v p) : Proper v (.negation p)
  | restriction {q : Quantifier} {r : String} {p : Phrase} (fits : q.Fits)
      (vetted : v.vet .relation r = .ok r) (operand : Proper v p) :
      Proper v (.restriction q (.relation r) p)
  | junction {kind : Connective} {ps : List Phrase} (several : 2 ≤ ps.length)
      (apart : ∀ p ∈ ps, spliced kind p = [p]) (operands : ∀ p ∈ ps, Proper v p) :
      Proper v (.junction kind ps)

theorem join_of_apart {kind : Connective} {ps : List Phrase} (several : 2 ≤ ps.length)
    (apart : ∀ p ∈ ps, spliced kind p = [p]) : join kind ps = .junction kind ps := by
  have flat : ps.flatMap (spliced kind) = ps := by
    rw [List.flatMap_congr apart, List.flatMap_singleton']
  unfold join
  rw [flat]
  match ps, several with
  | _ :: _ :: _, _ => rfl

theorem texts_eq_map (admits : Nat) (ps : List Phrase) :
    texts admits ps = ps.map fun p => wrapped admits p p.text := by
  induction ps with
  | nil => rfl
  | cons p ps ih => rw [texts, ih, List.map_cons]

theorem Proper.looseness_le {v : Vocabulary} {p : Phrase} (proper : Proper v p) :
    p.looseness ≤ 5 := by
  cases proper with
  | @junction kind => cases kind <;> simp [looseness]
  | _ => simp [looseness]

/-- What a proper phrase contributes to a connective. -/
theorem Proper.spliced {v : Vocabulary} {p : Phrase} (proper : Proper v p) (kind : Connective) :
    p.spliced kind ≠ [] ∧ ∀ q ∈ p.spliced kind, q.spliced kind = [q] ∧ Proper v q := by
  by_cases own : ∃ ps, p = .junction kind ps
  · obtain ⟨ps, rfl⟩ := own
    have operands : (Phrase.junction kind ps).spliced kind = ps := if_pos rfl
    cases proper with
    | junction several apart proper =>
      rw [operands]
      refine ⟨?_, fun q member => ⟨apart q member, proper q member⟩⟩
      rintro rfl
      cases several
  · have itself : p.spliced kind = [p] := by
      cases proper with
      | @junction kind' ps => exact if_neg fun same => own ⟨ps, by rw [same]⟩
      | _ => rfl
    rw [itself]
    refine ⟨by simp, fun q member => ?_⟩
    cases List.mem_singleton.mp member
    exact ⟨itself, proper⟩

/-- Joining proper phrases gives a proper phrase. -/
theorem Proper.join {v : Vocabulary} {kind : Connective} {ps : List Phrase} (inhabited : ps ≠ [])
    (proper : ∀ p ∈ ps, Proper v p) : Proper v (join kind ps) := by
  have parts : ∀ q ∈ ps.flatMap (Phrase.spliced kind), q.spliced kind = [q] ∧ Proper v q := by
    intro q member
    obtain ⟨p, here, member⟩ := List.mem_flatMap.mp member
    exact ((proper p here).spliced kind).2 q member
  have some : ps.flatMap (Phrase.spliced kind) ≠ [] := by
    obtain ⟨p, ps, rfl⟩ := List.exists_cons_of_ne_nil inhabited
    rw [List.flatMap_cons]
    exact List.append_ne_nil_of_left_ne_nil ((proper p (List.mem_cons_self ..)).spliced kind).1 _
  unfold Phrase.join
  generalize ps.flatMap (Phrase.spliced kind) = qs at parts some
  match qs with
  | [q] => exact (parts q (List.mem_cons_self ..)).2
  | q :: q' :: qs =>
    exact .junction (Nat.le_add_left 2 _) (fun p member => (parts p member).1)
      fun p member => (parts p member).2

end Phrase

namespace Grammar

open Phrase

theorem Legible.wrapped {v : Vocabulary} {p : Phrase} (bounded : p.looseness ≤ 5)
    (legible : Legible v (max 2 p.looseness) p p.text.toList) {n : Nat} (enough : 2 ≤ n) :
    Legible v n p (wrapped n p p.text).toList := by
  unfold Phrase.wrapped
  split
  · have text : ("(" ++ p.text ++ ")").toList = '(' :: (p.text.toList ++ [')']) := by simp
    rw [text]
    exact (legible.looser (by omega)).enclosed.looser enough
  · exact legible.looser (by omega)

/-- A proper phrase is read back where its text may stand. -/
theorem Legible.of_proper {v : Vocabulary} {p : Phrase} (proper : Proper v p) :
    Legible v (max 2 p.looseness) p p.text.toList := by
  induction proper with
  | concept vetted => exact Legible.concept vetted
  | nominal inhabited vetted =>
    obtain ⟨m, members, rfl⟩ := List.exists_cons_of_ne_nil inhabited
    exact Legible.nominal vetted
  | var vetted => exact Legible.var vetted
  | anaphora => exact Legible.anaphora
  | @negation p operand ih =>
    have text : (Phrase.negation p).text.toList = '~' :: (Phrase.wrapped 2 p p.text).toList := by
      simp [Phrase.text]
    rw [text]
    exact (Legible.wrapped operand.looseness_le ih (Nat.le_refl 2)).negation
  | @restriction q r p fits vetted operand ih =>
    have text : (Phrase.restriction q (.relation r) p).text.toList =
        q.text.toList ++ (' ' :: r.toList ++ ([' ', '.'] ++ ' ' :: (Phrase.wrapped 2 p p.text).toList)) := by
      simp [Phrase.text]
    rw [text]
    exact (Legible.wrapped operand.looseness_le ih (Nat.le_refl 2)).restriction fits vetted
  | @junction kind ps several apart proper ih =>
    have loose : max 2 (Phrase.junction kind ps).looseness = kind.admits + 1 := by cases kind <;> rfl
    have tight : 2 ≤ kind.admits := by cases kind <;> decide
    have separator : kind.separator.toList = [' ', kind.sign, ' '] := by cases kind <;> rfl
    have operands : List.Forall₂ (fun s p => Legible v kind.admits p s)
        (ps.map fun p => (Phrase.wrapped kind.admits p p.text).toList) ps := by
      rw [List.forall₂_map_left_iff, List.forall₂_same]
      exact fun p member => Legible.wrapped (proper p member).looseness_le (ih p member) tight
    rw [loose, ← join_of_apart several apart]
    match ps, several, operands with
    | p :: q :: ps, several, .cons first (.cons second others) =>
      rw [join_of_apart several apart, Phrase.text, texts_eq_map, List.map_cons, separated_toList,
        ← join_of_apart several apart, separator]
      simpa [Function.comp_def] using first.junction second others

end Grammar

end ConceptLogic
