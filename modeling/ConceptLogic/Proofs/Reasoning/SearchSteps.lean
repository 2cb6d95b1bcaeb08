import ConceptLogic.Proofs.Reasoning.ReasoningRules

namespace ConceptLogic

/-- A relation between computations of two monads that the connectives of a search
respect. What a search does to its queries it then does to any step built from them. -/
structure Respects {m n : Type → Type} [Monad m] [Monad n] (R : m Bool → n Bool → Prop) : Prop where
  pure : ∀ b, R (pure b) (pure b)
  or : ∀ {x y x' y'}, R x x' → R y y' → R (x <||> y) (x' <||> y')
  and : ∀ {x y x' y'}, R x x' → R y y' → R (x <&&> y) (x' <&&> y')

namespace Respects

variable {m n : Type → Type} [Monad m] [Monad n] {R : m Bool → n Bool → Prop} (respects : Respects R)
  {α : Type} {f : α → m Bool} {g : α → n Bool}
include respects

theorem any {as : List α} (each : ∀ a ∈ as, R (f a) (g a)) : R (as.anyM f) (as.anyM g) := by
  induction as with
  | nil => exact respects.pure false
  | cons a as ih =>
    rw [anyM_cons, anyM_cons]
    exact respects.or (each a (List.mem_cons_self ..))
      (ih fun b member => each b (List.mem_cons_of_mem _ member))

theorem all {as : List α} (each : ∀ a ∈ as, R (f a) (g a)) : R (as.allM f) (as.allM g) := by
  induction as with
  | nil => exact respects.pure true
  | cons a as ih =>
    rw [allM_cons, allM_cons]
    exact respects.and (each a (List.mem_cons_self ..))
      (ih fun b member => each b (List.mem_cons_of_mem _ member))

end Respects

theorem respects_eq {m : Type → Type} [Monad m] : Respects (Eq : m Bool → m Bool → Prop) where
  pure _ := rfl
  or first second := first ▸ second ▸ rfl
  and first second := first ▸ second ▸ rfl

namespace Ontology

variable {m n : Type → Type} [Monad m] [Monad n] {R : m Bool → n Bool → Prop} {o : Ontology}
  {ask : Query → m Bool} {ask' : Query → n Bool}

theorem byConjunct_related (respects : Respects R) {d : ConceptId} {left : Option Expression}
    (asks : ∀ cs, left = some (.conjunction cs) → ∀ x ∈ cs, R (ask (.subsumed x d)) (ask' (.subsumed x d))) :
    R (byConjunct ask d left) (byConjunct ask' d left) := by
  unfold byConjunct
  split
  · exact respects.any (asks _ rfl)
  · exact respects.pure false

theorem byDisjunct_related (respects : Respects R) {c : ConceptId} {right : Option Expression}
    (asks : ∀ ds, right = some (.disjunction ds) → ∀ x ∈ ds, R (ask (.subsumed c x)) (ask' (.subsumed c x))) :
    R (byDisjunct ask c right) (byDisjunct ask' c right) := by
  unfold byDisjunct
  split
  · exact respects.any (asks _ rfl)
  · exact respects.pure false

/-- What is asked to compare two forms. -/
inductive Confronts : Expression → Expression → Query → Prop
  | negation {x y : ConceptId} : Confronts (.negation x) (.negation y) (.subsumed y x)
  | filler {q r x p s y} : q.entails p = .wider ∨ q.entails p = .universal →
      Confronts (.restriction q r x) (.restriction p s y) (.subsumed x y)
  | reversed {q r x p s y} : q.entails p = .narrower →
      Confronts (.restriction q r x) (.restriction p s y) (.subsumed y x)

theorem Confronts.asks {c d : ConceptId} {l r : Expression} {p : Query} (confronts : Confronts l r p)
    (left : o.expression? c = some l) (right : o.expression? d = some r) : o.Asks (.subsumed c d) p := by
  cases confronts with
  | negation => exact .negation left right
  | filler how => exact .filler left right how
  | reversed how => exact .reversed left right how

theorem byForm_related (respects : Respects R) {l r : Expression}
    (asks : ∀ p, Confronts l r p → R (ask p) (ask' p)) : R (o.byForm ask l r) (o.byForm ask' l r) := by
  have never : R (Pure.pure false) (Pure.pure false) := respects.pure false
  unfold byForm
  split
  · exact asks _ .negation
  · split
    · exact never
    · exact respects.pure _
    · rename_i how
      split
      · exact asks _ (.filler (Or.inl how))
      · exact never
    · rename_i how
      split
      · exact asks _ (.filler (Or.inr how))
      · exact never
    · rename_i how
      split
      · exact asks _ (.reversed how)
      · exact never
  · exact never

theorem byTelling_related (respects : Respects R) {c d : ConceptId} (unsplit : o.Unsplit c d)
    (asks : ∀ p, o.Asks (.subsumed c d) p → R (ask p) (ask' p)) :
    R (o.byTelling ask c d) (o.byTelling ask' c d) := by
  refine respects.or (respects.pure _) (respects.or ?_ ?_)
  · exact respects.any fun p told => asks _ (.told unsplit told)
  · exact respects.any fun e told => asks _ (.definition unsplit told)

theorem decideSubsumed_related (respects : Respects R) {c d : ConceptId}
    (asks : ∀ p, o.Asks (.subsumed c d) p → R (ask p) (ask' p)) :
    R (o.decideSubsumed ask c d) (o.decideSubsumed ask' c d) := by
  rcases o.split_cases c d with ⟨ds, right⟩ | ⟨apart, ⟨cs, left⟩ | ⟨is, left⟩⟩ | unsplit
  · rw [decideSubsumed_toConjunction right, decideSubsumed_toConjunction right]
    exact respects.all fun x member => asks _ (.toConjunction right member)
  · rw [decideSubsumed_ofDisjunction apart left, decideSubsumed_ofDisjunction apart left]
    exact respects.all fun x member => asks _ (.ofDisjunction apart left member)
  · rw [decideSubsumed_ofNominal apart left, decideSubsumed_ofNominal apart left]
    exact respects.all fun i member => asks _ (.ofNominal apart left member)
  rw [decideSubsumed_unsplit unsplit, decideSubsumed_unsplit unsplit]
  refine respects.or ?_ (respects.or ?_ (respects.or ?_ (byTelling_related respects unsplit asks)))
  · exact byConjunct_related respects fun cs left x member => asks _ (.conjunct unsplit left member)
  · exact byDisjunct_related respects fun ds right x member => asks _ (.disjunct unsplit right member)
  · split
    · rename_i left right
      exact byForm_related respects fun p confronts => asks p (confronts.asks left right)
    · exact respects.pure false

theorem decideMember_related (respects : Respects R) {i : IndividualId} {d : ConceptId}
    (undivided : o.Undivided d) (asks : ∀ p, o.Asks (.member i d) p → R (ask p) (ask' p)) :
    R (o.decideMember ask i d) (o.decideMember ask' i d) := by
  refine respects.or ?_ ?_
  · exact respects.any fun t told => asks _ (.type undivided told)
  · exact respects.any fun e told => asks _ (.equivalent undivided told)

/-- What goes on in a search for a query that is noted. -/
inductive Decides {m : Type → Type} [Monad m] (o : Ontology) (ask : Query → m Bool) :
    Query → m Bool → Prop
  | subsumed {c d} : c ≠ d → d ≠ top → Decides o ask (.subsumed c d) (o.decideSubsumed ask c d)
  | member {i d} : d ≠ top → o.Undivided d → Decides o ask (.member i d) (o.decideMember ask i d)

namespace Decides

variable {q : Query} {x : m Bool} {y : n Bool}

/-- What is decided by asking in one way could be decided by asking in another one. -/
theorem elsewhere (decides : o.Decides ask q x) (ask' : Query → n Bool) : ∃ y, o.Decides ask' q y := by
  cases decides with
  | subsumed differ notTop => exact ⟨_, .subsumed differ notTop⟩
  | member notTop undivided => exact ⟨_, .member notTop undivided⟩

theorem related (respects : Respects R) (asks : ∀ p, o.Asks q p → R (ask p) (ask' p))
    (first : o.Decides ask q x) (second : o.Decides ask' q y) : R x y := by
  cases first with
  | subsumed =>
    cases second with
    | subsumed => exact decideSubsumed_related respects asks
  | member _ undivided =>
    cases second with
    | member => exact decideMember_related respects undivided asks

open Classical in
/-- A query is decided to be so exactly if a rule warrants it by what its search asks. -/
theorem iff {given : Query → Bool} {b : Id Bool} (decides : Decides (m := Id) o given q b) :
    b = true ↔ o.Warrants (fun p => o.Asks q p ∧ given p = true) q := by
  constructor
  · intro holds
    obtain ⟨b', decides'⟩ := decides.elsewhere (n := Id) fun p => decide (o.Asks q p) && given p
    have same : b = b' := by
      refine related respects_eq (fun p asks => ?_) decides decides'
      rw [decide_eq_true asks, Bool.true_and]
    have warrants : o.Warrants (fun p => (decide (o.Asks q p) && given p) = true) q := by
      cases decides' with
      | subsumed => exact decideSubsumed_warrants (same ▸ holds)
      | member _ undivided => exact decideMember_warrants undivided (same ▸ holds)
    refine warrants.mono fun p _ asked => ?_
    rwa [Bool.and_eq_true, decide_eq_true_eq] at asked
  · intro warrants
    cases decides with
    | subsumed differ notTop =>
      exact decideSubsumed_of_warrants differ notTop (warrants.mono fun _ _ asked => asked.2)
    | member notTop undivided => exact decideMember_of_warrants notTop undivided warrants

end Decides

/-- Steps are related if what they ask about operands is, and if their searches for the
query that is noted are. -/
theorem step_related (respects : Respects R) {noting : Query → m Bool → m Bool}
    {noting' : Query → n Bool → n Bool} {q : Query}
    (descends : ∀ p, o.Descends q p → R (ask p) (ask' p))
    (notes : ∀ x y, o.Decides ask q x → o.Decides ask' q y → R (noting q x) (noting' q y)) :
    R (o.step ask noting q) (o.step ask' noting' q) := by
  cases q with
  | subsumed c d =>
    dsimp only [step]
    split
    · exact respects.pure true
    · rename_i glance
      simp only [Bool.or_eq_true, decide_eq_true_eq, not_or] at glance
      exact notes _ _ (.subsumed glance.1 glance.2) (.subsumed glance.1 glance.2)
  | member i d =>
    dsimp only [step]
    split
    · exact respects.pure true
    rename_i notTop
    have noted : o.Undivided d → R (noting (.member i d) (o.decideMember ask i d))
        (noting' (.member i d) (o.decideMember ask' i d)) := fun undivided =>
      notes _ _ (.member notTop undivided) (.member notTop undivided)
    split
    · exact respects.pure _
    · rename_i ds made
      exact respects.all fun x member => descends _ (.conjunct made member)
    · rename_i ds made
      refine respects.or (respects.any fun x member => ?_) (noted ⟨by simp [made], by simp [made]⟩)
      exact descends _ (.disjunct made member)
    · rename_i noNominal noConjunction _
      exact noted ⟨noConjunction, noNominal⟩

end Ontology

end ConceptLogic
