import ConceptLogic.Ontology.Reasoning
import ConceptLogic.Proofs.Ontology.WellFormed

namespace ConceptLogic

namespace Ontology

/-- A concept that an individual falls under only by its types or by equivalence, once
the operands of a disjunction have been tried. -/
def Undivided (o : Ontology) (d : ConceptId) : Prop :=
  (∀ ds, o.expression? d ≠ some (.conjunction ds)) ∧ ∀ is, o.expression? d ≠ some (.nominal is)

/-- Two concepts of which neither has to be taken apart before any other rule. -/
def Unsplit (o : Ontology) (c d : ConceptId) : Prop :=
  (∀ ds, o.expression? d ≠ some (.conjunction ds)) ∧
    (∀ cs, o.expression? c ≠ some (.disjunction cs)) ∧ ∀ is, o.expression? c ≠ some (.nominal is)

/-- What an entailment between two quantifiers asks of their relations and fillers. -/
def Supports (o : Ontology) (given : Query → Prop) (r : RelationId) (x : ConceptId) (s : RelationId)
    (y : ConceptId) : Entailment → Prop
  | .never => False
  | .same => r = s ∧ x = y
  | .wider => o.isSubRelation r s = true ∧ given (.subsumed x y)
  | .universal => o.isSubRelation s r = true ∧ given (.subsumed x y)
  | .narrower => o.isSubRelation s r = true ∧ given (.subsumed y x)

/-- The rules of reasoning, read as one step from queries that are given. -/
inductive Warrants (o : Ontology) (given : Query → Prop) : Query → Prop
  | same {c} : Warrants o given (.subsumed c c)
  | everything {c} : Warrants o given (.subsumed c top)
  | toConjunction {c d ds} : o.expression? d = some (.conjunction ds) →
      (∀ x ∈ ds, given (.subsumed c x)) → Warrants o given (.subsumed c d)
  | ofDisjunction {c d cs} : (∀ ds, o.expression? d ≠ some (.conjunction ds)) →
      o.expression? c = some (.disjunction cs) →
      (∀ x ∈ cs, given (.subsumed x d)) → Warrants o given (.subsumed c d)
  | ofNominal {c d is} : (∀ ds, o.expression? d ≠ some (.conjunction ds)) →
      o.expression? c = some (.nominal is) →
      (∀ i ∈ is, given (.member i d)) → Warrants o given (.subsumed c d)
  | conjunct {c d cs x} : o.Unsplit c d → o.expression? c = some (.conjunction cs) → x ∈ cs →
      given (.subsumed x d) → Warrants o given (.subsumed c d)
  | disjunct {c d ds x} : o.Unsplit c d → o.expression? d = some (.disjunction ds) → x ∈ ds →
      given (.subsumed c x) → Warrants o given (.subsumed c d)
  | negation {c d x y} : o.expression? c = some (.negation x) → o.expression? d = some (.negation y) →
      given (.subsumed y x) → Warrants o given (.subsumed c d)
  | restriction {c d q r x p s y} : o.expression? c = some (.restriction q r x) →
      o.expression? d = some (.restriction p s y) → o.Supports given r x s y (q.entails p) →
      Warrants o given (.subsumed c d)
  | ancestor {c d} : o.Unsplit c d → (o.above c).contains d.id = true → Warrants o given (.subsumed c d)
  | told {c d p} : o.Unsplit c d → p ∈ o.told c → given (.subsumed p d) → Warrants o given (.subsumed c d)
  | definition {c d e} : o.Unsplit c d → e ∈ o.equivalentTo d → given (.subsumed c e) →
      Warrants o given (.subsumed c d)
  | everyone {i} : Warrants o given (.member i top)
  | nominated {i d is} : d ≠ top → o.expression? d = some (.nominal is) → i ∈ is →
      Warrants o given (.member i d)
  | ofConjuncts {i d ds} : d ≠ top → o.expression? d = some (.conjunction ds) →
      (∀ x ∈ ds, given (.member i x)) → Warrants o given (.member i d)
  | ofDisjunct {i d ds x} : d ≠ top → o.expression? d = some (.disjunction ds) → x ∈ ds →
      given (.member i x) → Warrants o given (.member i d)
  | type {i d t} : o.Undivided d → t ∈ o.types i → given (.subsumed t d) → Warrants o given (.member i d)
  | equivalent {i d e} : o.Undivided d → e ∈ o.equivalentTo d → given (.member i e) →
      Warrants o given (.member i d)

/-- What follows by the rules: the least answers that one step closes. -/
inductive Follows (o : Ontology) : Query → Prop
  | step {q} (given : Query → Prop) : (∀ p, given p → Follows o p) → o.Warrants given q → Follows o q

/-- A query about things that an ontology knows. -/
def Knowable (o : Ontology) : Query → Prop
  | .subsumed c d => o.Knows (.concept c) ∧ o.Knows (.concept d)
  | .member i d => o.Knows (.individual i) ∧ o.Knows (.concept d)

instance (o : Ontology) : DecidablePred o.Knowable
  | .subsumed _ _ => inferInstanceAs (Decidable (_ ∧ _))
  | .member _ _ => inferInstanceAs (Decidable (_ ∧ _))

/-- What is asked, in the search for a query that is noted, about the query. -/
inductive Asks (o : Ontology) : Query → Query → Prop
  | toConjunction {c d ds x} : o.expression? d = some (.conjunction ds) → x ∈ ds →
      Asks o (.subsumed c d) (.subsumed c x)
  | ofDisjunction {c d cs x} : (∀ ds, o.expression? d ≠ some (.conjunction ds)) →
      o.expression? c = some (.disjunction cs) → x ∈ cs → Asks o (.subsumed c d) (.subsumed x d)
  | ofNominal {c d is i} : (∀ ds, o.expression? d ≠ some (.conjunction ds)) →
      o.expression? c = some (.nominal is) → i ∈ is → Asks o (.subsumed c d) (.member i d)
  | conjunct {c d cs x} : o.Unsplit c d → o.expression? c = some (.conjunction cs) → x ∈ cs →
      Asks o (.subsumed c d) (.subsumed x d)
  | disjunct {c d ds x} : o.Unsplit c d → o.expression? d = some (.disjunction ds) → x ∈ ds →
      Asks o (.subsumed c d) (.subsumed c x)
  | negation {c d x y} : o.expression? c = some (.negation x) → o.expression? d = some (.negation y) →
      Asks o (.subsumed c d) (.subsumed y x)
  | filler {c d q r x p s y} : o.expression? c = some (.restriction q r x) →
      o.expression? d = some (.restriction p s y) → q.entails p = .wider ∨ q.entails p = .universal →
      Asks o (.subsumed c d) (.subsumed x y)
  | reversed {c d q r x p s y} : o.expression? c = some (.restriction q r x) →
      o.expression? d = some (.restriction p s y) → q.entails p = .narrower →
      Asks o (.subsumed c d) (.subsumed y x)
  | told {c d p} : o.Unsplit c d → p ∈ o.told c → Asks o (.subsumed c d) (.subsumed p d)
  | definition {c d e} : o.Unsplit c d → e ∈ o.equivalentTo d → Asks o (.subsumed c d) (.subsumed c e)
  | type {i d t} : o.Undivided d → t ∈ o.types i → Asks o (.member i d) (.subsumed t d)
  | equivalent {i d e} : o.Undivided d → e ∈ o.equivalentTo d → Asks o (.member i d) (.member i e)

/-- What is asked about the operands of a connective before a query is noted. -/
inductive Descends (o : Ontology) : Query → Query → Prop
  | conjunct {i d ds x} : o.expression? d = some (.conjunction ds) → x ∈ ds →
      Descends o (.member i d) (.member i x)
  | disjunct {i d ds x} : o.expression? d = some (.disjunction ds) → x ∈ ds →
      Descends o (.member i d) (.member i x)

/-- Whether one query is asked for the sake of another. -/
def Leads (o : Ontology) (q p : Query) : Prop := o.Asks q p ∨ o.Descends q p

theorem Asks.knowable {o : Ontology} (wf : o.WellFormed) {q p : Query} (known : o.Knowable q)
    (asks : o.Asks q p) : o.Knowable p := by
  cases asks with
  | toConjunction made member => exact ⟨known.1, wf.conjunct_known made member⟩
  | ofDisjunction _ made member => exact ⟨wf.disjunct_known made member, known.2⟩
  | ofNominal _ made listed => exact ⟨wf.nominated_known made listed, known.2⟩
  | conjunct _ made member => exact ⟨wf.conjunct_known made member, known.2⟩
  | disjunct _ made member => exact ⟨known.1, wf.disjunct_known made member⟩
  | negation made made' => exact ⟨wf.negated_known made', wf.negated_known made⟩
  | filler made made' => exact ⟨wf.filler_known made, wf.filler_known made'⟩
  | reversed made made' => exact ⟨wf.filler_known made', wf.filler_known made⟩
  | told _ told => exact ⟨wf.told_known told, known.2⟩
  | definition _ told => exact ⟨known.1, wf.equivalentTo_known told⟩
  | type _ told => exact ⟨wf.types_known told, known.2⟩
  | equivalent _ told => exact ⟨known.1, wf.equivalentTo_known told⟩

theorem Descends.knowable {o : Ontology} (wf : o.WellFormed) {q p : Query} (known : o.Knowable q)
    (descends : o.Descends q p) : o.Knowable p := by
  cases descends with
  | conjunct made member => exact ⟨known.1, wf.conjunct_known made member⟩
  | disjunct made member => exact ⟨known.1, wf.disjunct_known made member⟩

theorem Leads.knowable {o : Ontology} (wf : o.WellFormed) {q p : Query} (known : o.Knowable q)
    (leads : o.Leads q p) : o.Knowable p :=
  leads.elim (Asks.knowable wf known) (Descends.knowable wf known)

theorem Supports.mono {o : Ontology} {given given' : Query → Prop} {r s : RelationId} {x y : ConceptId}
    {how : Entailment} (supports : o.Supports given r x s y how)
    (forth : how = .wider ∨ how = .universal → given (.subsumed x y) → given' (.subsumed x y))
    (back : how = .narrower → given (.subsumed y x) → given' (.subsumed y x)) :
    o.Supports given' r x s y how := by
  cases how with
  | never => exact supports
  | same => exact supports
  | wider => exact ⟨supports.1, forth (Or.inl rfl) supports.2⟩
  | universal => exact ⟨supports.1, forth (Or.inr rfl) supports.2⟩
  | narrower => exact ⟨supports.1, back rfl supports.2⟩

/-- The more is given of what a query leads to, the more is warranted. -/
theorem Warrants.mono {o : Ontology} {given given' : Query → Prop} {q : Query}
    (more : ∀ p, o.Leads q p → given p → given' p) (warrants : o.Warrants given q) :
    o.Warrants given' q := by
  cases warrants with
  | same => exact .same
  | everything => exact .everything
  | toConjunction made each =>
    exact .toConjunction made fun x member =>
      more _ (Or.inl (.toConjunction made member)) (each x member)
  | ofDisjunction apart made each =>
    exact .ofDisjunction apart made fun x member =>
      more _ (Or.inl (.ofDisjunction apart made member)) (each x member)
  | ofNominal apart made each =>
    exact .ofNominal apart made fun i listed =>
      more _ (Or.inl (.ofNominal apart made listed)) (each i listed)
  | conjunct unsplit made member granted =>
    exact .conjunct unsplit made member (more _ (Or.inl (.conjunct unsplit made member)) granted)
  | disjunct unsplit made member granted =>
    exact .disjunct unsplit made member (more _ (Or.inl (.disjunct unsplit made member)) granted)
  | negation made made' granted =>
    exact .negation made made' (more _ (Or.inl (.negation made made')) granted)
  | restriction made made' supports =>
    exact .restriction made made' (supports.mono
      (fun how => more _ (Or.inl (.filler made made' how)))
      (fun how => more _ (Or.inl (.reversed made made' how))))
  | ancestor unsplit above => exact .ancestor unsplit above
  | told unsplit member granted =>
    exact .told unsplit member (more _ (Or.inl (.told unsplit member)) granted)
  | definition unsplit member granted =>
    exact .definition unsplit member (more _ (Or.inl (.definition unsplit member)) granted)
  | everyone => exact .everyone
  | nominated notTop made member => exact .nominated notTop made member
  | ofConjuncts notTop made each =>
    exact .ofConjuncts notTop made fun x member =>
      more _ (Or.inr (.conjunct made member)) (each x member)
  | ofDisjunct notTop made member granted =>
    exact .ofDisjunct notTop made member (more _ (Or.inr (.disjunct made member)) granted)
  | type undivided member granted =>
    exact .type undivided member (more _ (Or.inl (.type undivided member)) granted)
  | equivalent undivided member granted =>
    exact .equivalent undivided member (more _ (Or.inl (.equivalent undivided member)) granted)

theorem Follows.of_warrants {o : Ontology} {q : Query} (warrants : o.Warrants o.Follows q) : o.Follows q :=
  .step o.Follows (fun _ => id) warrants

/-- What follows is warranted by what follows. -/
theorem Follows.warrants {o : Ontology} {q : Query} (follows : o.Follows q) : o.Warrants o.Follows q := by
  obtain ⟨given, earlier, warrants⟩ := follows
  exact warrants.mono fun p _ => earlier p

/-- Induction along the rules, over known things alone. -/
theorem Follows.induct {o : Ontology} (wf : o.WellFormed) {motive : Query → Prop}
    (step : ∀ q, o.Knowable q → o.Warrants motive q → motive q) {q : Query}
    (follows : o.Follows q) (known : o.Knowable q) : motive q := by
  induction follows with
  | step given earlier warrants ih =>
    exact step _ known (warrants.mono fun p leads granted => ih p granted (leads.knowable wf known))

end Ontology

theorem anyM_cons {m : Type → Type} [Monad m] {α : Type} (f : α → m Bool) (a : α) (as : List α) :
    (a :: as).anyM f = (f a <||> as.anyM f) := by
  refine congrArg (f a >>= ·) (funext fun b => ?_)
  cases b <;> rfl

theorem allM_cons {m : Type → Type} [Monad m] {α : Type} (f : α → m Bool) (a : α) (as : List α) :
    (a :: as).allM f = (f a <&&> as.allM f) := by
  refine congrArg (f a >>= ·) (funext fun b => ?_)
  cases b <;> rfl

theorem orM_id (x y : Bool) : (orM (m := Id) x y) = (x || y) := by
  cases x <;> rfl

theorem andM_id (x y : Bool) : (andM (m := Id) x y) = (x && y) := by
  cases x <;> rfl

theorem anyM_id {α : Type} (f : α → Bool) (as : List α) : as.anyM (m := Id) f = as.any f := by
  induction as with
  | nil => rfl
  | cons a as ih =>
    rw [anyM_cons, ih]
    exact orM_id ..

theorem allM_id {α : Type} (f : α → Bool) (as : List α) : as.allM (m := Id) f = as.all f := by
  induction as with
  | nil => rfl
  | cons a as ih =>
    rw [allM_cons, ih]
    exact andM_id ..

namespace Ontology

/-- What a subsumption is judged by first: the operands on its right side, those on its
left side, or neither. -/
theorem split_cases (o : Ontology) (c d : ConceptId) :
    (∃ ds, o.expression? d = some (.conjunction ds)) ∨
      (∀ ds, o.expression? d ≠ some (.conjunction ds)) ∧
        ((∃ cs, o.expression? c = some (.disjunction cs)) ∨ ∃ is, o.expression? c = some (.nominal is)) ∨
      o.Unsplit c d := by
  by_cases right : ∃ ds, o.expression? d = some (.conjunction ds)
  · exact Or.inl right
  have apart : ∀ ds, o.expression? d ≠ some (.conjunction ds) := fun ds made => right ⟨ds, made⟩
  by_cases disjunction : ∃ cs, o.expression? c = some (.disjunction cs)
  · exact Or.inr (Or.inl ⟨apart, Or.inl disjunction⟩)
  by_cases nominal : ∃ is, o.expression? c = some (.nominal is)
  · exact Or.inr (Or.inl ⟨apart, Or.inr nominal⟩)
  · exact Or.inr (Or.inr
      ⟨apart, fun cs made => disjunction ⟨cs, made⟩, fun is made => nominal ⟨is, made⟩⟩)

/-- What a membership is judged by first: the individuals of a nominal, the operands of a
connective, or neither. -/
theorem divided_cases (o : Ontology) (d : ConceptId) :
    (∃ is, o.expression? d = some (.nominal is)) ∨ (∃ ds, o.expression? d = some (.conjunction ds)) ∨
      o.Undivided d ∧ ((∃ ds, o.expression? d = some (.disjunction ds)) ∨
        ∀ ds, o.expression? d ≠ some (.disjunction ds)) := by
  by_cases nominal : ∃ is, o.expression? d = some (.nominal is)
  · exact Or.inl nominal
  by_cases conjunction : ∃ ds, o.expression? d = some (.conjunction ds)
  · exact Or.inr (Or.inl conjunction)
  have undivided : o.Undivided d := ⟨fun ds made => conjunction ⟨ds, made⟩, fun is made => nominal ⟨is, made⟩⟩
  by_cases disjunction : ∃ ds, o.expression? d = some (.disjunction ds)
  · exact Or.inr (Or.inr ⟨undivided, Or.inl disjunction⟩)
  · exact Or.inr (Or.inr ⟨undivided, Or.inr fun ds made => disjunction ⟨ds, made⟩⟩)

section Cases

variable {m : Type → Type} [Monad m] {o : Ontology} {ask : Query → m Bool} {c d : ConceptId}

theorem decideSubsumed_toConjunction {ds : List ConceptId} (right : o.expression? d = some (.conjunction ds)) :
    o.decideSubsumed ask c d = ds.allM fun x => ask (.subsumed c x) := by
  unfold decideSubsumed
  rw [right]

theorem decideSubsumed_ofDisjunction {cs : List ConceptId}
    (apart : ∀ ds, o.expression? d ≠ some (.conjunction ds)) (left : o.expression? c = some (.disjunction cs)) :
    o.decideSubsumed ask c d = cs.allM fun x => ask (.subsumed x d) := by
  unfold decideSubsumed
  rw [left]
  split
  · rename_i ds right
    exact absurd right (apart ds)
  · rename_i same _
    cases same
    rfl
  · rename_i same _
    cases same
  · rename_i other _ _
    exact absurd rfl (other cs)

theorem decideSubsumed_ofNominal {is : List IndividualId}
    (apart : ∀ ds, o.expression? d ≠ some (.conjunction ds)) (left : o.expression? c = some (.nominal is)) :
    o.decideSubsumed ask c d = is.allM fun i => ask (.member i d) := by
  unfold decideSubsumed
  rw [left]
  split
  · rename_i ds right
    exact absurd right (apart ds)
  · rename_i same _
    cases same
  · rename_i same _
    cases same
    rfl
  · rename_i _ other _
    exact absurd rfl (other is)

theorem decideSubsumed_unsplit (unsplit : o.Unsplit c d) :
    o.decideSubsumed ask c d =
      (byConjunct ask d (o.expression? c) <||> byDisjunct ask c (o.expression? d) <||>
        (match o.expression? c, o.expression? d with
          | some l, some r => o.byForm ask l r
          | _, _ => pure false) <||>
        o.byTelling ask c d) := by
  obtain ⟨apart, noDisjunction, noNominal⟩ := unsplit
  unfold decideSubsumed
  split
  · rename_i ds right
    exact absurd right (apart ds)
  · rename_i cs left _
    exact absurd left (noDisjunction cs)
  · rename_i is left _
    exact absurd left (noNominal is)
  · rfl

theorem step_subsumed {noting : Query → m Bool → m Bool} (differ : c ≠ d) (notTop : d ≠ top) :
    o.step ask noting (.subsumed c d) = noting (.subsumed c d) (o.decideSubsumed ask c d) := by
  dsimp only [step]
  rw [if_neg]
  simp [differ, notTop]

theorem step_undivided {noting : Query → m Bool → m Bool} {i : IndividualId} (notTop : d ≠ top)
    (undivided : o.Undivided d) (noDisjunction : ∀ ds, o.expression? d ≠ some (.disjunction ds)) :
    o.step ask noting (.member i d) = noting (.member i d) (o.decideMember ask i d) := by
  dsimp only [step]
  rw [if_neg notTop]
  split
  · rename_i is found
    exact absurd found (undivided.2 is)
  · rename_i ds found
    exact absurd found (undivided.1 ds)
  · rename_i ds found
    exact absurd found (noDisjunction ds)
  · rfl

theorem step_disjunction {noting : Query → m Bool → m Bool} {i : IndividualId} {ds : List ConceptId}
    (notTop : d ≠ top) (found : o.expression? d = some (.disjunction ds)) :
    o.step ask noting (.member i d) =
      ((ds.anyM fun x => ask (.member i x)) <||> noting (.member i d) (o.decideMember ask i d)) := by
  dsimp only [step]
  rw [if_neg notTop, found]

theorem step_conjunction {noting : Query → m Bool → m Bool} {i : IndividualId} {ds : List ConceptId}
    (notTop : d ≠ top) (found : o.expression? d = some (.conjunction ds)) :
    o.step ask noting (.member i d) = ds.allM fun x => ask (.member i x) := by
  dsimp only [step]
  rw [if_neg notTop, found]

theorem step_nominal {noting : Query → m Bool → m Bool} {i : IndividualId} {is : List IndividualId}
    (notTop : d ≠ top) (found : o.expression? d = some (.nominal is)) :
    o.step ask noting (.member i d) = pure (is.contains i) := by
  dsimp only [step]
  rw [if_neg notTop, found]

end Cases

section Reading

variable {o : Ontology} {given : Query → Bool}

theorem byForm_restriction {q p : Quantifier} {r s : RelationId} {x y : ConceptId} :
    o.byForm (m := Id) given (.restriction q r x) (.restriction p s y) = true ↔
      o.Supports (given · = true) r x s y (q.entails p) := by
  have guarded : ∀ a b : Bool, (if a = true then b else false) = true ↔ a = true ∧ b = true := by
    decide
  dsimp only [byForm]
  cases q.entails p with
  | never => exact iff_of_false Bool.false_ne_true id
  | same => exact Bool.and_eq_true_iff.trans (and_congr decide_eq_true_iff decide_eq_true_iff)
  | wider => exact guarded _ _
  | universal => exact guarded _ _
  | narrower => exact guarded _ _

theorem byForm_warrants {c d : ConceptId} {l r : Expression} (left : o.expression? c = some l)
    (right : o.expression? d = some r) (holds : o.byForm (m := Id) given l r = true) :
    o.Warrants (given · = true) (.subsumed c d) := by
  cases l with
  | negation x =>
    cases r with
    | negation y => exact .negation left right holds
    | _ => exact absurd holds Bool.false_ne_true
  | restriction q s x =>
    cases r with
    | restriction p t y => exact .restriction left right (byForm_restriction.mp holds)
    | _ => exact absurd holds Bool.false_ne_true
  | _ => exact absurd holds Bool.false_ne_true

theorem byConjunct_iff {d : ConceptId} {left : Option Expression} :
    byConjunct (m := Id) given d left = true ↔
      ∃ cs, left = some (.conjunction cs) ∧ ∃ x ∈ cs, given (.subsumed x d) = true := by
  unfold byConjunct
  split
  · rename_i cs
    rw [anyM_id]
    exact List.any_eq_true.trans ⟨fun one => ⟨cs, rfl, one⟩, fun ⟨_, same, one⟩ => by cases same; exact one⟩
  · rename_i other
    exact iff_of_false Bool.false_ne_true fun ⟨cs, same, _⟩ => other cs same

theorem byDisjunct_iff {c : ConceptId} {right : Option Expression} :
    byDisjunct (m := Id) given c right = true ↔
      ∃ ds, right = some (.disjunction ds) ∧ ∃ x ∈ ds, given (.subsumed c x) = true := by
  unfold byDisjunct
  split
  · rename_i ds
    rw [anyM_id]
    exact List.any_eq_true.trans ⟨fun one => ⟨ds, rfl, one⟩, fun ⟨_, same, one⟩ => by cases same; exact one⟩
  · rename_i other
    exact iff_of_false Bool.false_ne_true fun ⟨ds, same, _⟩ => other ds same

theorem byTelling_iff {c d : ConceptId} : o.byTelling (m := Id) given c d = true ↔
    (o.above c).contains d.id = true ∨ (∃ p ∈ o.told c, given (.subsumed p d) = true) ∨
      ∃ e ∈ o.equivalentTo d, given (.subsumed c e) = true := by
  unfold byTelling
  rw [orM_id, orM_id, anyM_id, anyM_id]
  exact Bool.or_eq_true_iff.trans (or_congr Iff.rfl
    (Bool.or_eq_true_iff.trans (or_congr List.any_eq_true List.any_eq_true)))

theorem decideSubsumed_iff {c d : ConceptId} (unsplit : o.Unsplit c d) :
    o.decideSubsumed (m := Id) given c d = true ↔
      byConjunct (m := Id) given d (o.expression? c) = true ∨
        byDisjunct (m := Id) given c (o.expression? d) = true ∨
        (∃ l r, o.expression? c = some l ∧ o.expression? d = some r ∧
          o.byForm (m := Id) given l r = true) ∨
        o.byTelling (m := Id) given c d = true := by
  rw [decideSubsumed_unsplit unsplit, orM_id, orM_id, orM_id]
  refine Bool.or_eq_true_iff.trans (or_congr Iff.rfl (Bool.or_eq_true_iff.trans (or_congr Iff.rfl
    (Bool.or_eq_true_iff.trans (or_congr ?_ Iff.rfl)))))
  split
  · rename_i l r left right
    rw [left, right]
    exact ⟨fun form => ⟨l, r, rfl, rfl, form⟩, fun ⟨_, _, same, same', form⟩ => by
      cases same
      cases same'
      exact form⟩
  · rename_i unknown
    exact iff_of_false Bool.false_ne_true fun ⟨l, r, left, right, _⟩ => unknown l r left right

theorem decideMember_iff {i : IndividualId} {d : ConceptId} :
    o.decideMember (m := Id) given i d = true ↔
      (∃ t ∈ o.types i, given (.subsumed t d) = true) ∨
        ∃ e ∈ o.equivalentTo d, given (.member i e) = true := by
  unfold decideMember
  rw [anyM_id, anyM_id, orM_id]
  exact Bool.or_eq_true_iff.trans (or_congr List.any_eq_true List.any_eq_true)

theorem decideSubsumed_warrants {c d : ConceptId}
    (holds : o.decideSubsumed (m := Id) given c d = true) : o.Warrants (given · = true) (.subsumed c d) := by
  rcases o.split_cases c d with ⟨ds, right⟩ | ⟨apart, ⟨cs, left⟩ | ⟨is, left⟩⟩ | unsplit
  · rw [decideSubsumed_toConjunction right, allM_id] at holds
    exact .toConjunction right (List.all_eq_true.mp holds)
  · rw [decideSubsumed_ofDisjunction apart left, allM_id] at holds
    exact .ofDisjunction apart left (List.all_eq_true.mp holds)
  · rw [decideSubsumed_ofNominal apart left, allM_id] at holds
    exact .ofNominal apart left (List.all_eq_true.mp holds)
  rcases (decideSubsumed_iff unsplit).mp holds with conjunct | disjunct | ⟨l, r, made, made', form⟩ | telling
  · obtain ⟨cs, made, x, member, granted⟩ := byConjunct_iff.mp conjunct
    exact .conjunct unsplit made member granted
  · obtain ⟨ds, made, x, member, granted⟩ := byDisjunct_iff.mp disjunct
    exact .disjunct unsplit made member granted
  · exact byForm_warrants made made' form
  · rcases byTelling_iff.mp telling with above | ⟨p, member, granted⟩ | ⟨e, member, granted⟩
    · exact .ancestor unsplit above
    · exact .told unsplit member granted
    · exact .definition unsplit member granted

theorem decideMember_warrants {i : IndividualId} {d : ConceptId} (undivided : o.Undivided d)
    (holds : o.decideMember (m := Id) given i d = true) : o.Warrants (given · = true) (.member i d) := by
  rcases decideMember_iff.mp holds with ⟨t, member, granted⟩ | ⟨e, member, granted⟩
  · exact .type undivided member granted
  · exact .equivalent undivided member granted

theorem decideSubsumed_of_form {c d : ConceptId} {l r : Expression} (left : o.expression? c = some l)
    (right : o.expression? d = some r) (holds : o.byForm (m := Id) given l r = true) :
    o.decideSubsumed (m := Id) given c d = true := by
  have unsplit : o.Unsplit c d := by
    refine ⟨fun ds made => ?_, fun cs made => ?_, fun is made => ?_⟩
    · rw [right] at made
      cases made
      cases l <;> exact absurd holds Bool.false_ne_true
    · rw [left] at made
      cases made
      exact absurd holds Bool.false_ne_true
    · rw [left] at made
      cases made
      exact absurd holds Bool.false_ne_true
  exact (decideSubsumed_iff unsplit).mpr (Or.inr (Or.inr (Or.inl ⟨l, r, left, right, holds⟩)))

theorem decideSubsumed_of_warrants {c d : ConceptId} (differ : c ≠ d) (notTop : d ≠ top)
    (warrants : o.Warrants (given · = true) (.subsumed c d)) : o.decideSubsumed (m := Id) given c d = true := by
  cases warrants with
  | same => exact absurd rfl differ
  | everything => exact absurd rfl notTop
  | toConjunction right each =>
    rw [decideSubsumed_toConjunction right, allM_id]
    exact List.all_eq_true.mpr each
  | ofDisjunction apart left each =>
    rw [decideSubsumed_ofDisjunction apart left, allM_id]
    exact List.all_eq_true.mpr each
  | ofNominal apart left each =>
    rw [decideSubsumed_ofNominal apart left, allM_id]
    exact List.all_eq_true.mpr each
  | conjunct unsplit left member granted =>
    refine (decideSubsumed_iff unsplit).mpr (Or.inl ?_)
    exact byConjunct_iff.mpr ⟨_, left, _, member, granted⟩
  | disjunct unsplit right member granted =>
    refine (decideSubsumed_iff unsplit).mpr (Or.inr (Or.inl ?_))
    exact byDisjunct_iff.mpr ⟨_, right, _, member, granted⟩
  | negation left right granted => exact decideSubsumed_of_form left right granted
  | restriction left right supports =>
    exact decideSubsumed_of_form left right (byForm_restriction.mpr supports)
  | ancestor unsplit above =>
    refine (decideSubsumed_iff unsplit).mpr (Or.inr (Or.inr (Or.inr ?_)))
    exact byTelling_iff.mpr (Or.inl above)
  | told unsplit member granted =>
    refine (decideSubsumed_iff unsplit).mpr (Or.inr (Or.inr (Or.inr ?_)))
    exact byTelling_iff.mpr (Or.inr (Or.inl ⟨_, member, granted⟩))
  | definition unsplit member granted =>
    refine (decideSubsumed_iff unsplit).mpr (Or.inr (Or.inr (Or.inr ?_)))
    exact byTelling_iff.mpr (Or.inr (Or.inr ⟨_, member, granted⟩))

/-- The operands of a disjunction have been tried before, so an operand counts here only
if it is equivalent to the disjunction as well. -/
theorem decideMember_of_warrants {i : IndividualId} {d : ConceptId} (notTop : d ≠ top)
    (undivided : o.Undivided d)
    (warrants : o.Warrants (fun p => o.Asks (.member i d) p ∧ given p = true) (.member i d)) :
    o.decideMember (m := Id) given i d = true := by
  cases warrants with
  | everyone => exact absurd rfl notTop
  | nominated _ made => exact absurd made (undivided.2 _)
  | ofConjuncts _ made => exact absurd made (undivided.1 _)
  | ofDisjunct _ _ _ asked =>
    obtain ⟨asks, granted⟩ := asked
    cases asks with
    | equivalent _ told => exact decideMember_iff.mpr (Or.inr ⟨_, told, granted⟩)
  | type _ told asked => exact decideMember_iff.mpr (Or.inl ⟨_, told, asked.2⟩)
  | equivalent _ told asked => exact decideMember_iff.mpr (Or.inr ⟨_, told, asked.2⟩)

end Reading

end Ontology

end ConceptLogic
