import ConceptLogic.Proofs.Grammar.PrintedStatements

namespace ConceptLogic

/-- The characters that stand between statements and between their parts. -/
def outer : List Char := [' ', '\t', '\r', '\n', '#', ';']

/-- How the cursors of two texts can stand that are read alike. Either the same character is next in both,
or in each one, if any, at which no part of a statement goes on. -/
structure Alignment where
  aligned : Cursor → Cursor → Prop
  bars : Char → Prop
  barred : ∀ {x}, bars x → x ∈ outer
  next : ∀ {c c'}, aligned c c' →
    (∃ x s s' n m, c = ⟨x :: s, n⟩ ∧ c' = ⟨x :: s', m⟩ ∧ aligned ⟨s, n + 1⟩ ⟨s', m + 1⟩) ∨
      (∀ x, c.rest.head? = some x → bars x) ∧ ∀ x, c'.rest.head? = some x → bars x
  layout : ∀ {c c'}, aligned c c' → aligned c.afterLayout c'.afterLayout

/-- A word without barred characters is read in both texts or in neither. -/
theorem Alignment.read? (A : Alignment) {c c' : Cursor} (aligned : A.aligned c c') {word : List Char}
    (apart : ∀ x ∈ word, ¬A.bars x) : Option.Rel A.aligned (c.read? word) (c'.read? word) := by
  induction word generalizing c c' with
  | nil => exact .some aligned
  | cons x word ih =>
    obtain ⟨first, others⟩ := List.forall_mem_cons.mp apart
    rcases A.next aligned with ⟨y, s, s', n, m, rfl, rfl, further⟩ | ⟨left, right⟩
    · unfold Cursor.read?
      split
      · exact ih further others
      · exact .none
    · rw [Grammar.read?_differs fun here => first (left x here),
        Grammar.read?_differs fun here => first (right x here)]
      exact .none

namespace Draft

/-- A flaw wherever it stands. -/
def Flaw.unplaced : Flaw → Flaw
  | .name error => .name error
  | .cardinality n => .cardinality ⟨n.digits, 0⟩

/-- What is said of a draft wherever it stands. -/
def unplaced {α : Type} (judged : Except Flaw α) : Except Flaw α := judged.mapError Flaw.unplaced

/-- Whether two drafts are admitted as the same, or have the same flaw, if perhaps at another place. -/
def Concept.Repeated (v : Vocabulary) (d e : Concept) : Prop :=
  unplaced (d.judge v) = unplaced (e.judge v)

def Statement.Repeated (v : Vocabulary) (d e : Statement) : Prop :=
  unplaced (d.judge v) = unplaced (e.judge v)

def Quantifier.Repeated (q p : Quantifier) : Prop :=
  unplaced q.judge = unplaced p.judge

section Repeated

variable {v : Vocabulary} {d e d' e' : Concept} {ds es : List Concept}

theorem unplaced_bind {α β : Type} (x : Except Flaw α) (f : α → Except Flaw β) :
    unplaced (x >>= f) = unplaced x >>= fun a => unplaced (f a) := by
  cases x <;> rfl

/-- What is done with two judgements that agree. -/
theorem unplaced_congr {α β : Type} {x y : Except Flaw α} {f g : α → Except Flaw β}
    (same : unplaced x = unplaced y) (next : ∀ a, unplaced (f a) = unplaced (g a)) :
    unplaced (x >>= f) = unplaced (y >>= g) := by
  rw [unplaced_bind, unplaced_bind, same]
  exact congrArg _ (funext next)

theorem unplaced_ok {α : Type} {x y : Except Flaw α} (same : unplaced x = unplaced y) {a : α}
    (judged : x = .ok a) : y = .ok a := by
  subst judged
  cases y with
  | ok b =>
    cases same
    rfl
  | error flaw => cases same

theorem judgeAll_repeated (each : List.Forall₂ (Concept.Repeated v) ds es) :
    unplaced (judgeAll v ds) = unplaced (judgeAll v es) := by
  induction each with
  | nil => rfl
  | cons first _ ih => exact unplaced_congr first fun _ => unplaced_congr ih fun _ => rfl

namespace Concept.Repeated

theorem negation (operand : Repeated v d e) : Repeated v (.negation d) (.negation e) :=
  unplaced_congr operand fun _ => rfl

theorem restriction {q q' : Quantifier} (quantifier : q.Repeated q') (r : String)
    (operand : Repeated v d e) : Repeated v (.restriction q r d) (.restriction q' r e) :=
  unplaced_congr quantifier fun _ => unplaced_congr rfl fun _ => unplaced_congr operand fun _ => rfl

theorem junction (kind : Connective) (operands : List.Forall₂ (Repeated v) ds es) :
    Repeated v (.junction kind ds) (.junction kind es) :=
  unplaced_congr (judgeAll_repeated operands) fun _ => rfl

theorem chain (kind : Connective) (first : Repeated v d e) (others : List.Forall₂ (Repeated v) ds es) :
    Repeated v (.chain kind d ds) (.chain kind e es) := by
  cases others with
  | nil => exact first
  | cons second others => exact junction kind (.cons first (.cons second others))

end Concept.Repeated

/-- The number of a cardinality counts, and not its place. -/
theorem Quantifier.Repeated.count (bound : Bound) {n m : Numeral} (same : n.digits = m.digits) :
    Quantifier.Repeated (.count bound n) (.count bound m) := by
  have value : n.value = m.value := congrArg (numberOf 10) same
  have fits : n.fits = m.fits := congrArg (fun k => decide (k < 4294967296)) value
  unfold Quantifier.Repeated
  simp only [judge]
  rw [fits, value]
  split
  · rfl
  · exact congrArg (fun digits => Except.error (Flaw.cardinality ⟨digits, 0⟩)) same

namespace Statement.Repeated

theorem concept (body : d.Repeated v e) : Repeated v (.concept d) (.concept e) := body

theorem define (n : String) (body : d.Repeated v e) : Repeated v (.define n d) (.define n e) :=
  unplaced_congr rfl fun _ => unplaced_congr body fun _ => rfl

theorem declareRelation (n : String) (domain : d.Repeated v e) (range : d'.Repeated v e') :
    Repeated v (.declareRelation n d d') (.declareRelation n e e') :=
  unplaced_congr rfl fun _ => unplaced_congr domain fun _ => unplaced_congr range fun _ => rfl

theorem declareConcept (n : String) (parts : List.Forall₂ (Concept.Repeated v) ds es) :
    Repeated v (.declareConcept n ds) (.declareConcept n es) :=
  unplaced_congr rfl fun _ => unplaced_congr (judgeAll_repeated parts) fun _ => rfl

theorem declareIndividual (n : String) (parts : List.Forall₂ (Concept.Repeated v) ds es) :
    Repeated v (.declareIndividual n ds) (.declareIndividual n es) :=
  unplaced_congr rfl fun _ => unplaced_congr (judgeAll_repeated parts) fun _ => rfl

theorem membership (s : Subject) (concept : d.Repeated v e) :
    Repeated v (.membership s d) (.membership s e) :=
  unplaced_congr rfl fun _ => unplaced_congr concept fun _ => rfl

theorem comparison {links links' : List (String × Concept)} (first : d.Repeated v e)
    (others : List.Forall₂ (fun l l' => l.1 = l'.1 ∧ l.2.Repeated v l'.2) links links') :
    Repeated v (.comparison d links) (.comparison e links') := by
  have operands : List.Forall₂ (Concept.Repeated v) (links.map Prod.snd) (links'.map Prod.snd) := by
    rw [List.forall₂_map_left_iff, List.forall₂_map_right_iff]
    exact others.imp fun _ _ => And.right
  have signs : links.map Prod.fst = links'.map Prod.fst := by
    rw [← List.forall₂_eq_eq_eq, List.forall₂_map_left_iff, List.forall₂_map_right_iff]
    exact others.imp fun _ _ => And.left
  refine unplaced_congr first fun _ => unplaced_congr (judgeAll_repeated operands) fun _ => ?_
  rw [signs]

end Statement.Repeated

end Repeated

end Draft

/-- Whether a rule stands inside statements. -/
def Rule.Inner (r : Rule) : Prop := r ≠ .program ∧ r ≠ .endOfInput

/-- How a rule repeats a value: numbers may stand at another place. -/
def Rule.Repeated (v : Vocabulary) : (r : Rule) → r.Value → r.Value → Prop
  | .integer, n, m | .atLeast, n, m | .atMost, n, m | .exactly, n, m => n.digits = m.digits
  | .definition, d, e | .relationDeclaration, d, e | .conceptDeclaration, d, e
  | .individualDeclaration, d, e | .containingFormula, d, e | .comparisonFormula, d, e =>
    Draft.Statement.Repeated v d e
  | .conceptTuple, ds, es => List.Forall₂ (Draft.Concept.Repeated v) ds es
  | .mappingFormula, m, n => Draft.Concept.Repeated v m.1 n.1 ∧ Draft.Concept.Repeated v m.2 n.2
  | .xor, d, e | .or, d, e | .and, d, e | .negation, d, e | .restriction, d, e =>
    Draft.Concept.Repeated v d e
  | .quantifier, q, p => Draft.Quantifier.Repeated q p
  | _, a, b => a = b

namespace Grammar

open Pattern

/-- What is read at one place of two texts: the same in both, or nothing in both. -/
def Paired (A : Alignment) {α : Type} (R : α → α → Prop) :
    Option (α × Cursor) → Option (α × Cursor) → Prop :=
  Option.Rel fun x y => R x.1 y.1 ∧ A.aligned x.2 y.2

/-- Whether rules read on in a text, and inside statements the same with more text after it. -/
structure Steady (v : Vocabulary) (A : Alignment)
    (call : (r : Rule) → Cursor → Option (r.Value × Cursor)) : Prop where
  forward : Forward call
  eats : ∀ {r c a c'}, (body r).eats = true → call r c = some (a, c') → c'.rest.length < c.rest.length
  paired : ∀ {r c c'}, r.Inner → A.aligned c c' → Paired A (r.Repeated v) (call r c) (call r c')

/-- Whether a form reads the same, up to a relation, in a text and with more text after it, if the rules do. -/
def Parallel (v : Vocabulary) (A : Alignment) {α : Type} (p : Form α) (R : α → α → Prop) : Prop :=
  ∀ ⦃call⦄, Steady v A call → ∀ ⦃c c'⦄, A.aligned c c' → Paired A R (p.scan call c) (p.scan call c')

/-- Whether a form takes a character whenever it matches, if the rules do that are known to. -/
def Hungry (v : Vocabulary) (A : Alignment) {α : Type} (p : Form α) : Prop :=
  ∀ ⦃call⦄, Steady v A call → ∀ {c a c'}, p.scan call c = some (a, c') → c'.rest.length < c.rest.length

section Paired

variable {α β : Type} {A : Alignment} {R : α → α → Prop} {S : β → β → Prop}
  {x y x' y' : Option (α × Cursor)}

theorem Paired.mono {R' : α → α → Prop} (paired : Paired A R x y) (weaker : ∀ a b, R a b → R' a b) :
    Paired A R' x y := by
  cases paired with
  | none => exact .none
  | some both => exact .some ⟨weaker _ _ both.1, both.2⟩

theorem Paired.bind {f g : α × Cursor → Option (β × Cursor)} (paired : Paired A R x y)
    (next : ∀ a b c d, R a b → A.aligned c d → Paired A S (f (a, c)) (g (b, d))) :
    Paired A S (x.bind f) (y.bind g) := by
  cases paired with
  | none => exact .none
  | some both => exact next _ _ _ _ both.1 both.2

theorem Paired.map {f g : α → β} (paired : Paired A R x y) (same : ∀ a b, R a b → S (f a) (g b)) :
    Paired A S (x.map fun (a, c) => (f a, c)) (y.map fun (a, c) => (g a, c)) := by
  cases paired with
  | none => exact .none
  | some both => exact .some ⟨same _ _ both.1, both.2⟩

theorem Paired.or (first : Paired A R x y) (second : Paired A R x' y') :
    Paired A R (x.or x') (y.or y') := by
  cases first with
  | none => exact second
  | some both => exact .some both

end Paired

section Forms

variable {v : Vocabulary} {A : Alignment} {α β γ : Type} {p : Form α} {q : Form β} {R : α → α → Prop}
  {S : β → β → Prop} {T : γ → γ → Prop}

namespace Hungry

theorem of_eats (eats : p.eats = true) : Hungry v A p :=
  fun _ steady _ _ _ found => (scan_forward steady.forward found).2 eats

theorem rule {r : Rule} (eats : (body r).eats = true) : Hungry v A (nested r) :=
  fun _ steady _ _ _ found => steady.eats eats found

theorem first {combine : α → β → γ} (hungry : Hungry v A p) : Hungry v A (seq combine p q) := by
  intro call steady c a c' found
  obtain ⟨next, atFirst, found⟩ := Option.bind_eq_some_iff.mp found
  obtain ⟨last, atSecond, same⟩ := Option.map_eq_some_iff.mp found
  cases same
  exact Nat.lt_of_le_of_lt (scan_forward steady.forward atSecond).1 (hungry steady atFirst)

theorem behindGap (hungry : Hungry v A p) : Hungry v A (seq (fun _ a => a) gap p) := by
  intro call steady c a c' found
  obtain ⟨last, atItem, same⟩ := Option.map_eq_some_iff.mp found
  cases same
  exact Nat.lt_of_lt_of_le (hungry steady atItem) (skipLayout_length ..)

end Hungry

namespace Parallel

theorem mono {R' : α → α → Prop} (parallel : Parallel v A p R) (weaker : ∀ a b, R a b → R' a b) :
    Parallel v A p R' :=
  fun _ steady _ _ aligned => (parallel steady aligned).mono weaker

theorem pure {a : α} (same : R a a) : Parallel v A (.pure a) R :=
  fun _ _ _ _ aligned => .some ⟨same, aligned⟩

theorem char {accepts : Char → Bool} (apart : ∀ x, A.bars x → accepts x = false) :
    Parallel v A (.char accepts) Eq := by
  have refused : ∀ {call} {c : Cursor}, (∀ x, c.rest.head? = some x → A.bars x) →
      (Pattern.char (V := Rule.Value) accepts).scan call c = none := by
    intro call c bars
    obtain ⟨_ | ⟨x, rest⟩, n⟩ := c
    · rfl
    · simp [scan, apart x (bars x rfl)]
  intro call _ c c' aligned
  rcases A.next aligned with ⟨x, rest, rest', n, m, rfl, rfl, further⟩ | ⟨left, right⟩
  · simp only [scan]
    split
    · exact .some ⟨rfl, further⟩
    · exact .none
  · rw [refused left, refused right]
    exact .none

theorem literal {word : List Char} (apart : ∀ x ∈ word, ¬A.bars x) :
    Parallel v A (.literal word) Eq := by
  intro call _ c c' aligned
  have read := A.read? aligned apart
  simp only [scan]
  revert read
  generalize c.read? word = x
  generalize c'.read? word = y
  intro read
  cases read with
  | none => exact .none
  | some aligned' => exact .some ⟨rfl, aligned'⟩

theorem notNext {refuses : Char → Bool} (apart : ∀ x, A.bars x → refuses x = false) :
    Parallel v A (.notNext refuses) Eq := by
  have passed : ∀ {call} {c : Cursor}, (∀ x, c.rest.head? = some x → A.bars x) →
      (Pattern.notNext (V := Rule.Value) refuses).scan call c = some ((), c) := by
    intro call c bars
    obtain ⟨_ | ⟨x, rest⟩, n⟩ := c
    · rfl
    · simp [scan, apart x (bars x rfl)]
  intro call _ c c' aligned
  rcases A.next aligned with ⟨x, rest, rest', n, m, rfl, rfl, _⟩ | ⟨left, right⟩
  · simp only [scan]
    split
    · exact .none
    · exact .some ⟨rfl, aligned⟩
  · rw [passed left, passed right]
    exact .some ⟨rfl, aligned⟩

theorem gap : Parallel v A .gap Eq :=
  fun _ _ _ _ aligned => .some ⟨rfl, A.layout aligned⟩

theorem here : Parallel v A .here fun _ _ => True :=
  fun _ _ _ _ aligned => .some ⟨trivial, aligned⟩

theorem rule (r : Rule) (inner : r.Inner) : Parallel v A (nested r) (r.Repeated v) :=
  fun _ steady _ _ aligned => steady.paired inner aligned

theorem seq {combine : α → β → γ} (first : Parallel v A p R) (second : Parallel v A q S)
    (both : ∀ a a' b b', R a a' → S b b' → T (combine a b) (combine a' b')) :
    Parallel v A (seq combine p q) T := fun _ steady _ _ aligned =>
  (first steady aligned).bind fun _ _ _ _ related aligned' =>
    (second steady aligned').map fun _ _ => both _ _ _ _ related

theorem choice {p q : Form α} (left : Parallel v A p R) (right : Parallel v A q R) :
    Parallel v A (choice p q) R :=
  fun _ steady _ _ aligned => (left steady aligned).or (right steady aligned)

theorem star (each : Parallel v A p R) (hungry : Hungry v A p) :
    Parallel v A (star p) (List.Forall₂ R) := by
  intro call steady c c' aligned
  -- Every item takes a character, so the induction is on how much of the text is left.
  induction left : c.rest.length using Nat.strong_induction_on generalizing c c' with
  | _ k ih =>
    have item := each steady aligned
    rw [scan_star (hungry steady), scan_star (hungry steady)]
    have shorter : ∀ a d, p.scan call c = some (a, d) → d.rest.length < c.rest.length :=
      fun _ _ => hungry steady
    revert item shorter
    generalize p.scan call c = x
    generalize p.scan call c' = y
    intro item shorter
    cases item with
    | none => exact .some ⟨.nil, aligned⟩
    | @some x y both =>
      exact (ih _ (left ▸ shorter x.1 x.2 rfl) both.2 rfl).map fun _ _ => .cons both.1

theorem map {f : α → β} (each : Parallel v A p R) (same : ∀ a a', R a a' → S (f a) (f a')) :
    Parallel v A (map f p) S :=
  each.seq (pure (R := Eq) rfl) fun _ _ _ _ related _ => same _ _ related

theorem spaced {combine : α → β → γ} (first : Parallel v A p R) (second : Parallel v A q S)
    (both : ∀ a a' b b', R a a' → S b b' → T (combine a b) (combine a' b')) :
    Parallel v A (spaced combine p q) T :=
  first.seq (gap.seq second fun _ _ _ _ _ related => related) both

theorem before (first : Parallel v A p R) (second : Parallel v A q S) :
    Parallel v A (before p q) S :=
  first.spaced second fun _ _ _ _ _ related => related

theorem many (each : Parallel v A p R) (hungry : Hungry v A p) :
    Parallel v A (many p) (List.Forall₂ R) := by
  refine .choice (each.seq (.star ?_ hungry.behindGap) fun _ _ _ _ => .cons) (.pure .nil)
  exact gap.seq each fun _ _ _ _ _ related => related

theorem word {word : List Char} (plain : word.any outer.contains = false) : Parallel v A (.literal word) Eq :=
  literal fun x member bars => List.any_eq_false.mp plain x member (List.contains_iff_mem.mpr (A.barred bars))

/-- A look-ahead for characters of a kind of which none is layout. -/
theorem endsBefore {refuses : Char → Bool} (passed : outer.any refuses = false) :
    Parallel v A (.notNext refuses) Eq :=
  notNext fun x bars => Bool.eq_false_iff.mpr (List.any_eq_false.mp passed x (A.barred bars))

theorem keyword {word : List Char} (plain : word.any outer.contains = false) :
    Parallel v A (keyword word isNameChar) Eq :=
  (Parallel.word plain).seq (endsBefore rfl) fun _ _ _ _ _ _ => rfl

theorem sign {word : List Char} (plain : word.any outer.contains = false) : Parallel v A (sign word) Eq :=
  (Parallel.word plain).map fun _ _ _ => rfl

/-- A character of a kind of which none is layout. -/
theorem letter {accepts : Char → Bool} (refused : outer.any accepts = false) :
    Parallel v A (.char accepts) Eq :=
  char fun x bars => Bool.eq_false_iff.mpr (List.any_eq_false.mp refused x (A.barred bars))

/-- A run of characters. -/
theorem run {accepts : Char → Bool} (refused : outer.any accepts = false) :
    Parallel v A (.star (.char accepts)) Eq := by
  refine ((letter refused).star (.of_eats rfl)).mono fun _ _ each => ?_
  rwa [List.forall₂_eq_eq_eq] at each

/-- A character and a run of others. -/
theorem started {accepts follows : Char → Bool} (first : Parallel v A (.char accepts) Eq)
    (others : Parallel v A (.star (.char follows)) Eq) :
    Parallel v A (.seq List.cons (.char accepts) (.star (.char follows))) Eq := by
  refine first.seq others ?_
  rintro _ _ _ _ rfl rfl
  rfl

theorem identifier : Parallel v A Grammar.identifier Eq := by
  refine (run rfl).seq (started (letter rfl) (run rfl)) ?_
  rintro _ _ _ _ rfl rfl
  rfl

theorem counted {word : Form Unit} (parallel : Parallel v A word Eq) :
    Parallel v A (Pattern.before word (nested .integer)) fun n m => n.digits = m.digits :=
  parallel.before (.rule .integer ⟨by decide, by decide⟩)

theorem chain {kind : Connective} {sign : List Char} {operand : Form Draft.Concept}
    (parallel : Parallel v A operand (Draft.Concept.Repeated v))
    (eats : (Pattern.literal (V := Rule.Value) sign).eats = true)
    (plain : sign.any outer.contains = false) :
    Parallel v A (Grammar.chain kind sign operand) (Draft.Concept.Repeated v) := by
  refine parallel.spaced (((Parallel.word plain).before parallel).many
    (.first (.of_eats eats))) fun _ _ _ _ => .chain kind

theorem primary : Parallel v A Grammar.primary (Draft.Concept.Repeated v) := by
  have inner : Parallel v A (nested .xor) (Draft.Concept.Repeated v) := .rule .xor ⟨by decide, by decide⟩
  refine .choice ((word rfl).before
      (inner.spaced (word rfl) fun _ _ _ _ same _ => same)) <|
    .choice (.map (.rule .individualSet ⟨by decide, by decide⟩) ?_) <|
    .choice (.map (.rule .variable ⟨by decide, by decide⟩) ?_) <|
    .choice (.map (.rule .anaphora ⟨by decide, by decide⟩) ?_)
      (.map (.rule .conceptAtom ⟨by decide, by decide⟩) ?_)
  all_goals
    rintro _ _ rfl
    rfl

theorem unary : Parallel v A Grammar.unary (Draft.Concept.Repeated v) :=
  .choice (.rule .negation ⟨by decide, by decide⟩)
    (.choice (.rule .restriction ⟨by decide, by decide⟩) primary)

theorem declaration : Parallel v A Grammar.declaration (Draft.Statement.Repeated v) :=
  (word rfl).before <| .choice (.rule .definition ⟨by decide, by decide⟩) <|
    .choice (.rule .relationDeclaration ⟨by decide, by decide⟩) <|
    .choice (.rule .conceptDeclaration ⟨by decide, by decide⟩)
      (.rule .individualDeclaration ⟨by decide, by decide⟩)

theorem subject : Parallel v A Grammar.subject Eq := by
  refine .choice (.map (.rule .anaphora ⟨by decide, by decide⟩) ?_) <|
    .choice (.map (.rule .variable ⟨by decide, by decide⟩) ?_)
      (.map (.rule .individual ⟨by decide, by decide⟩) ?_)
  all_goals
    rintro _ _ rfl
    rfl

theorem statement : Parallel v A Grammar.statement (Draft.Statement.Repeated v) :=
  .choice declaration <| .choice (.rule .containingFormula ⟨by decide, by decide⟩) <|
    .choice (.rule .comparisonFormula ⟨by decide, by decide⟩)
      (.map (.rule .xor ⟨by decide, by decide⟩) fun _ _ => Draft.Statement.Repeated.concept)

/-- A variable, with a type or without one. -/
theorem typed : Parallel v A (Grammar.body .variable) Eq := by
  have base : Parallel v A (nested .variableName) Eq := .rule .variableName ⟨by decide, by decide⟩
  have type : Parallel v A (nested .variableType) Eq := .rule .variableType ⟨by decide, by decide⟩
  have colon : Parallel v A (.seq (fun _ type => type) (.literal [':']) (nested .variableType)) Eq :=
    (word rfl).seq type fun _ _ _ _ _ same => same
  refine (word rfl).seq
    (base.seq (.choice (colon.map (S := Eq) fun _ _ => congrArg some) (.pure rfl)) ?_)
    fun _ _ _ _ _ same => same
  rintro _ _ _ _ rfl rfl
  rfl

/-- What a rule reads inside a statement is the same in both texts. -/
theorem body (r : Rule) (inside : r.Inner) : Parallel v A (Grammar.body r) (r.Repeated v) := by
  have inner : Parallel v A (nested .xor) (Draft.Concept.Repeated v) := .rule .xor ⟨by decide, by decide⟩
  have name : Parallel v A (nested .declaredName) Eq := .rule .declaredName ⟨by decide, by decide⟩
  have tuple : Parallel v A (nested .conceptTuple) (List.Forall₂ (Draft.Concept.Repeated v)) :=
    .rule .conceptTuple ⟨by decide, by decide⟩
  cases r with
  | endOfInput => exact absurd rfl inside.2
  | program => exact absurd rfl inside.1
  | integer =>
    exact here.seq (started (letter rfl) (run rfl)) fun _ _ _ _ _ same => same
  | definition =>
    refine name.spaced ((word rfl).before inner) ?_
    rintro n _ _ _ rfl body
    exact .define n body
  | relationDeclaration =>
    have mapping : Parallel v A (nested .mappingFormula) fun m n =>
        Draft.Concept.Repeated v m.1 n.1 ∧ Draft.Concept.Repeated v m.2 n.2 :=
      .rule .mappingFormula ⟨by decide, by decide⟩
    refine name.spaced ((word rfl).before mapping) ?_
    rintro n _ _ _ rfl both
    exact .declareRelation n both.1 both.2
  | conceptDeclaration =>
    refine name.spaced ((word rfl).before tuple) ?_
    rintro n _ _ _ rfl parts
    exact .declareConcept n parts
  | individualDeclaration =>
    refine name.spaced ((word rfl).before tuple) ?_
    rintro n _ _ _ rfl parts
    exact .declareIndividual n parts
  | conceptTuple =>
    exact inner.spaced
      (((word rfl).before inner).many (.first (.of_eats rfl)))
      fun _ _ _ _ => .cons
  | mappingFormula =>
    exact inner.spaced ((word rfl).before inner) fun _ _ _ _ => And.intro
  | containingFormula =>
    have apart : Parallel v A (.notNext fun c => c == ':' || c == '=') Eq :=
      endsBefore rfl
    refine subject.spaced ((word rfl).before (apart.before inner)) ?_
    rintro s _ _ _ rfl concept
    exact .membership s concept
  | comparisonFormula =>
    let Same := fun l l' : String × Draft.Concept => l.1 = l'.1 ∧ Draft.Concept.Repeated v l.2 l'.2
    have link : Parallel v A (Pattern.spaced Prod.mk (nested .comparator) (nested .xor)) Same :=
      Parallel.spaced (.rule .comparator ⟨by decide, by decide⟩) inner fun _ _ _ _ => And.intro
    have links : Parallel v A (Pattern.spaced Prod.mk _ (Pattern.many _)) fun ls ls' =>
        List.Forall₂ Same (ls.1 :: ls.2) (ls'.1 :: ls'.2) :=
      link.spaced (link.many (.first (.rule rfl))) fun _ _ _ _ => .cons
    exact inner.spaced links fun _ _ _ _ => .comparison
  | comparator =>
    exact .choice (sign rfl) <| .choice (sign rfl) <|
      .choice (sign rfl) <| .choice (sign rfl) <|
      .choice (sign rfl) (sign rfl)
  | xor => exact chain (.rule .or ⟨by decide, by decide⟩) rfl rfl
  | or => exact chain (.rule .and ⟨by decide, by decide⟩) rfl rfl
  | and => exact chain unary rfl rfl
  | negation =>
    exact (word rfl).before
      (unary.map fun _ _ => Draft.Concept.Repeated.negation)
  | restriction =>
    have quantifier : Parallel v A (nested .quantifier) Draft.Quantifier.Repeated :=
      .rule .quantifier ⟨by decide, by decide⟩
    have relation : Parallel v A (nested .relation) Eq := .rule .relation ⟨by decide, by decide⟩
    refine quantifier.spaced (relation.spaced
      ((word rfl).before unary)
      (T := fun a b => a.1 = b.1 ∧ Draft.Concept.Repeated v a.2 b.2) fun _ _ _ _ => And.intro) ?_
    rintro q p ⟨r, d⟩ ⟨_, e⟩ same ⟨rfl, operand⟩
    exact .restriction same r operand
  | quantifier =>
    exact .choice (.map (.rule .wordSome ⟨by decide, by decide⟩) fun _ _ _ => rfl) <|
      .choice (.map (.rule .wordOnly ⟨by decide, by decide⟩) fun _ _ _ => rfl) <|
      .choice (.map (.rule .atLeast ⟨by decide, by decide⟩) fun _ _ => .count _) <|
      .choice (.map (.rule .atMost ⟨by decide, by decide⟩) fun _ _ => .count _)
        (.map (.rule .exactly ⟨by decide, by decide⟩) fun _ _ => .count _)
  | atLeast => exact counted (.rule .wordMore ⟨by decide, by decide⟩)
  | atMost => exact counted (.rule .wordLess ⟨by decide, by decide⟩)
  | exactly =>
    exact counted (.choice (.rule .wordExact ⟨by decide, by decide⟩)
      (.rule .wordEqual ⟨by decide, by decide⟩))
  | individualSet =>
    have individual : Parallel v A (nested .individual) Eq := .rule .individual ⟨by decide, by decide⟩
    have comma : Parallel v A (.literal [',']) Eq := word rfl
    have others := (comma.before individual).many (.first (.of_eats rfl))
    refine (word rfl).before (individual.spaced
      (others.spaced (word rfl) fun _ _ _ _ same _ => same) ?_)
    rintro _ _ _ _ rfl same
    rw [List.forall₂_eq_eq_eq] at same
    rw [same]
    rfl
  | declaredName | individual | relation | conceptAtom | variableName | variableType => exact identifier
  | wordSome | wordOnly | wordMore | wordLess | wordExact | wordEqual => exact keyword rfl
  | anaphora => exact word rfl
  | _ => exact typed

end Parallel

end Forms

section Rules

variable {v : Vocabulary} {A : Alignment}

theorem scanRule_steady (fuel : Nat) : Steady v A (scanRule body fuel) := by
  induction fuel with
  | zero => exact ⟨scanRule_forward 0, nofun, fun _ _ => .none⟩
  | succ fuel ih =>
    exact ⟨scanRule_forward _, fun eats found => (scan_forward ih.forward found).2 eats,
      fun {r _ _} inner aligned => Parallel.body r inner ih aligned⟩

theorem scanWhole_steady : Steady v A (scanWhole body Rule.rank 10) where
  forward := scanWhole_forward _ _
  eats eats found := (scanRule_steady (v := v) (A := A) _).eats eats found
  paired {r c c'} inner aligned := by
    have below := rank_below r
    have enough : scanRule body (10 * c.rest.length + 10 * c'.rest.length + 10) r c =
        scanWhole body Rule.rank 10 r c := scanRule_enough rank_below body_ranked (by omega)
    have enough' : scanRule body (10 * c.rest.length + 10 * c'.rest.length + 10) r c' =
        scanWhole body Rule.rank 10 r c' := scanRule_enough rank_below body_ranked (by omega)
    rw [← enough, ← enough']
    exact (scanRule_steady _).paired inner aligned

/-- What a form reads of a text it also reads of the other one. -/
theorem Parallel.scanned {α : Type} {p : Form α} {R : α → α → Prop} (parallel : Parallel v A p R)
    {c c' : Cursor} (aligned : A.aligned c c') : Paired A R (scanned p c) (scanned p c') :=
  parallel (scanWhole_steady) aligned

end Rules

end Grammar

end ConceptLogic
