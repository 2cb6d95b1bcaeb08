import ConceptLogic.Proofs.Reasoning.SearchSteps

namespace ConceptLogic

section Absorbing

variable {m : Type → Type} [Monad m] [LawfulMonad m]

theorem orM_assoc (x y z : m Bool) : ((x <||> y) <||> z) = (x <||> (y <||> z)) := by
  unfold orM
  rw [bind_assoc]
  refine congrArg (x >>= ·) (funext fun b => ?_)
  cases b with
  | true => exact pure_bind true _
  | false => rfl

theorem orM_true (y : m Bool) : (pure true <||> y) = (pure true : m Bool) :=
  pure_bind true _

theorem orM_false (y : m Bool) : (pure false <||> y) = y :=
  pure_bind false _

theorem anyM_append {α : Type} (f : α → m Bool) (as bs : List α) :
    (as ++ bs).anyM f = (as.anyM f <||> bs.anyM f) := by
  induction as with
  | nil => exact (orM_false _).symm
  | cons a as ih => rw [List.cons_append, anyM_cons, anyM_cons, ih, orM_assoc]

omit [LawfulMonad m] in
theorem anyM_map {α β : Type} (g : α → β) (f : β → m Bool) (as : List α) :
    (as.map g).anyM f = as.anyM fun a => f (g a) := by
  induction as with
  | nil => rfl
  | cons a as ih => rw [List.map_cons, anyM_cons, anyM_cons, ih]

/-- Nothing is asked any more after a query that is sure to be answered yes. -/
theorem anyM_absorbs {α : Type} {f : α → m Bool} {a : α} {as : List α} (member : a ∈ as)
    (yes : f a = pure true) (y : m Bool) : (as.anyM f <||> y) = as.anyM f := by
  induction as with
  | nil => cases member
  | cons b as ih =>
    rw [anyM_cons, orM_assoc]
    rcases List.mem_cons.mp member with rfl | member
    · rw [yes, orM_true, orM_true]
    · rw [ih member]

end Absorbing

namespace Ontology

/-- Whether an operand shows at once that one concept is a part of another. -/
inductive Evident (o : Ontology) : Query → Prop
  | conjunct {c d cs} : o.Unsplit c d → o.expression? c = some (.conjunction cs) → d ∈ cs →
      Evident o (.subsumed c d)
  | disjunct {c d ds} : o.Unsplit c d → o.expression? d = some (.disjunction ds) → c ∈ ds →
      Evident o (.subsumed c d)

/-- What is asked about an operand of one of the sides. -/
inductive Parts (o : Ontology) : Query → Query → Prop
  | conjunct {c d cs x} : o.expression? c = some (.conjunction cs) → x ∈ cs →
      Parts o (.subsumed c d) (.subsumed x d)
  | disjunct {c d ds x} : o.expression? d = some (.disjunction ds) → x ∈ ds →
      Parts o (.subsumed c d) (.subsumed c x)

/-- Whether one query is asked in a search for another. What is evident is found among the operands,
so nothing is asked about it but them. -/
def Pursues (o : Ontology) (q p : Query) : Prop := o.Leads q p ∧ (o.Evident q → o.Parts q p)

theorem Descends.pursues {o : Ontology} {q p : Query} (descends : o.Descends q p) : o.Pursues q p := by
  refine ⟨.inr descends, fun evident => ?_⟩
  cases evident <;> cases descends

variable {m n : Type → Type} [Monad m] [Monad n] {R : m Bool → n Bool → Prop} {o : Ontology}
  {ask : Query → m Bool} {ask' : Query → n Bool} {q : Query}

/-- A search for what is evident ends with the operands. -/
theorem decideSubsumed_evident [LawfulMonad m] {c d : ConceptId} (evident : o.Evident (.subsumed c d))
    (sure : ∀ x, ask (.subsumed x x) = pure true) : o.Unsplit c d ∧ o.decideSubsumed ask c d =
      (byConjunct ask d (o.expression? c) <||> byDisjunct ask c (o.expression? d)) := by
  cases evident with
  | @conjunct _ _ cs unsplit made member =>
    refine ⟨unsplit, ?_⟩
    have absorbs : ∀ y, (byConjunct ask d (o.expression? c) <||> y) = byConjunct ask d (o.expression? c) := by
      rw [made]
      exact anyM_absorbs member (sure d)
    rw [decideSubsumed_unsplit unsplit, absorbs, absorbs]
  | @disjunct _ _ ds unsplit made member =>
    refine ⟨unsplit, ?_⟩
    have absorbs : ∀ y, (byDisjunct ask c (o.expression? d) <||> y) = byDisjunct ask c (o.expression? d) := by
      rw [made]
      exact anyM_absorbs member (sure c)
    rw [decideSubsumed_unsplit unsplit, absorbs]

theorem Decides.evident_related [LawfulMonad m] [LawfulMonad n] {x : m Bool} {y : n Bool}
    (respects : Respects R) (evident : o.Evident q) (sure : ∀ c, ask (.subsumed c c) = pure true)
    (sure' : ∀ c, ask' (.subsumed c c) = pure true) (asks : ∀ p, o.Asks q p → o.Parts q p → R (ask p) (ask' p))
    (first : o.Decides ask q x) (second : o.Decides ask' q y) : R x y := by
  cases first with
  | member => cases evident
  | subsumed =>
    cases second with
    | subsumed =>
      obtain ⟨unsplit, same⟩ := decideSubsumed_evident evident sure
      rw [same, (decideSubsumed_evident evident sure').2]
      refine respects.or ?_ ?_
      · exact byConjunct_related respects fun cs left x member =>
          asks _ (.conjunct unsplit left member) (.conjunct left member)
      · exact byDisjunct_related respects fun ds right x member =>
          asks _ (.disjunct unsplit right member) (.disjunct right member)

end Ontology

end ConceptLogic
