import ConceptLogic.Proofs.Grammar.ConcurringResults

namespace ConceptLogic

open Draft (judgeAll)

namespace Tree

/-- Whether a tree is that of a concept with a given draft. -/
def Depicts (t : Tree Rule) (d : Draft.Concept) : Prop :=
  d.Full ∧ ∀ v around, Concur v (t.marks around) Eq (t.concept v) (d.judge v)

/-- Whether a tree is that of a statement with a given draft. -/
def States (t : Tree Rule) (d : Draft.Statement) : Prop :=
  t.rule ≠ .endOfInput ∧ ∀ v around, Concur v (t.marks around) Eq (t.statement v) (d.judge v)

/-- Whether trees make the tree of a rule around them that of a statement with a given draft. -/
def StateIn (r : Rule) (d : Draft.Statement) (ts : List (Tree Rule)) : Prop :=
  ∀ text offset v, Concur v (marksAll r ts) Eq (statement v (.node r text offset ts)) (d.judge v)

/-- The same for a concept. -/
def DepictIn (r : Rule) (d : Draft.Concept) (ts : List (Tree Rule)) : Prop :=
  ∀ text offset v, Concur v (marksAll r ts) Eq (concept v (.node r text offset ts)) (d.judge v)

end Tree

/-- What the tree of a rule has to do with what the rule reads. -/
def Rule.Tells : (r : Rule) → r.Value → Tree Rule → Prop
  | .endOfInput, _, t | .anaphora, _, t => t.parts = []
  | .integer, n, t => t.text = n.digits ∧ t.offset = n.offset
  | .program, ds, t =>
    ∀ v around, Concur v (t.marks around) Eq (Tree.statements v t.parts) (ds.mapM (Draft.Statement.judge v))
  | .definition, d, t | .relationDeclaration, d, t | .conceptDeclaration, d, t
  | .individualDeclaration, d, t | .containingFormula, d, t | .comparisonFormula, d, t =>
    ∀ v around, Concur v (t.marks around) Eq (t.statement v) (Draft.Statement.judge v d)
  | .declaredName, name, t | .individual, name, t | .relation, name, t | .conceptAtom, name, t
  | .variableName, name, t | .variableType, name, t => t.text = name.toList
  | .comparator, word, t => t.text = word.toList ∧ t.parts = []
  | .conceptTuple, ds, t => ∀ v around, Concur v (t.marks around) Eq (Tree.concepts v t.parts) (judgeAll v ds)
  | .mappingFormula, m, t => ∀ v around, Concur v (t.marks around) Eq (t.mapping v) do
      let domain ← Draft.Concept.judge v m.1
      return (domain, ← Draft.Concept.judge v m.2)
  | .xor, d, t | .or, d, t | .and, d, t | .negation, d, t | .restriction, d, t =>
    ∀ v around, Concur v (t.marks around) Eq (t.concept v) (Draft.Concept.judge v d)
  | .quantifier, q, t => ∀ v around, Concur v (t.marks around) Eq t.quantifier (Draft.Quantifier.judge q)
  | .atLeast, n, t | .atMost, n, t | .exactly, n, t => ∀ v around, Concur v (t.marks around) Eq t.count
      (if Numeral.fits n then .ok n.value else .error (.cardinality n))
  | .individualSet, names, t => ∀ v around, Concur v (t.marks around) Eq
      (t.parts.mapM (Tree.atom v .individual)) (names.mapM (Draft.name v .individual))
  | .variable, x, t =>
    ∀ v around, Concur v (t.marks around) Eq (t.typedVariable v) (Draft.typedVariable v x.1 x.2)
  | _, _, _ => True

namespace Grammar

open Pattern

/-- Whether rules are scanned so that their trees are as they should be. -/
def Faithful (call : (r : Rule) → Cursor → Option ((r.Value × Tree Rule) × Cursor)) : Prop :=
  ∀ ⦃r c a t c'⦄, call r c = some ((a, t), c') → t.rule = r ∧ r.Holds a ∧ r.Tells a t

/-- Whether what a form reads and the trees of the rules in it are related, if the rules are faithful. -/
def Grows {α : Type} (p : Form α) (R : α → List (Tree Rule) → Prop) : Prop :=
  ∀ ⦃call⦄, Faithful call → ∀ ⦃c a ts c'⦄, p.grow call c = some ((a, ts), c') → R a ts

/-- What is related to a single tree. -/
def Lone {α : Type} (R : α → Tree Rule → Prop) (a : α) (ts : List (Tree Rule)) : Prop :=
  ∃ t, ts = [t] ∧ R a t

namespace Grows

variable {α β γ : Type} {p : Form α} {q : Form β} {R R' : α → List (Tree Rule) → Prop}
  {S : β → List (Tree Rule) → Prop} {T : γ → List (Tree Rule) → Prop}

theorem mono (grows : Grows p R) (weaker : ∀ a ts, R a ts → R' a ts) : Grows p R' :=
  fun _ faithful _ a ts _ grown => weaker a ts (grows faithful grown)

theorem rule (r : Rule) : Grows (nested r) (Lone fun a t => t.rule = r ∧ r.Holds a ∧ r.Tells a t) := by
  intro call faithful c a ts c' grown
  obtain ⟨⟨⟨b, t⟩, d⟩, found, same⟩ := Option.map_eq_some_iff.mp grown
  cases same
  exact ⟨t, rfl, faithful found⟩

theorem pure {a : α} (related : R a []) : Grows (.pure a) R := by
  intro call _ c b ts c' grown
  cases grown
  exact related

theorem literal (word : List Char) : Grows (.literal word) fun _ ts => ts = [] := by
  intro call _ c a ts c' grown
  obtain ⟨found, _, same⟩ := Option.map_eq_some_iff.mp grown
  cases same
  rfl

theorem gap : Grows .gap fun _ ts => ts = [] := by
  intro call _ c a ts c' grown
  cases grown
  rfl

theorem notNext (refuses : Char → Bool) : Grows (.notNext refuses) fun _ ts => ts = [] := by
  intro call _ c a ts c' grown
  obtain ⟨found, _, same⟩ := Option.map_eq_some_iff.mp grown
  cases same
  rfl

theorem atEnd : Grows .atEnd fun _ ts => ts = [] := by
  intro call _ c a ts c' grown
  obtain ⟨found, _, same⟩ := Option.map_eq_some_iff.mp grown
  cases same
  rfl

theorem seq {combine : α → β → γ} (first : Grows p R) (second : Grows q S)
    (both : ∀ a ts b us, R a ts → S b us → T (combine a b) (ts ++ us)) : Grows (seq combine p q) T := by
  intro call faithful c x ts c' grown
  obtain ⟨⟨x, d⟩, atFirst, grown⟩ := Option.bind_eq_some_iff.mp grown
  obtain ⟨⟨y, e⟩, atSecond, same⟩ := Option.map_eq_some_iff.mp grown
  cases same
  exact both _ _ _ _ (first faithful atFirst) (second faithful atSecond)

theorem choice {p q : Form α} (left : Grows p R) (right : Grows q R) : Grows (choice p q) R := by
  intro call faithful c a ts c' grown
  rcases Option.or_eq_some_iff.mp grown with here | ⟨_, here⟩
  · exact left faithful here
  · exact right faithful here

theorem star (each : Grows p R) :
    Grows (star p) fun as ts => ∃ tss, ts = tss.flatten ∧ List.Forall₂ R as tss := by
  intro call faithful c as ts c' grown
  have rounds : ∀ left c, List.Forall₂ R ((repeated (p.grow call) left c).1.map Prod.fst)
      ((repeated (p.grow call) left c).1.map Prod.snd) := by
    intro left
    induction left with
    | nil => exact fun _ => .nil
    | cons x left ih =>
      intro c
      unfold repeated
      cases found : p.grow call c with
      | none => exact .nil
      | some next => exact .cons (each faithful found) (ih next.2)
  cases grown
  exact ⟨_, List.flatMap_def, rounds c.rest c⟩

theorem map {f : α → β} (each : Grows p fun a ts => S (f a) ts) : Grows (map f p) S :=
  each.seq (pure (R := fun _ ts => ts = []) rfl) fun a ts _ _ related none => by
    rwa [none, List.append_nil]

/-- A form behind one that has no rules in it. -/
theorem behind {p : Form α} (first : Grows p fun _ ts => ts = []) (second : Grows q S) :
    Grows (Pattern.seq (fun _ b => b) p q) S :=
  first.seq second fun _ _ _ _ none related => by rwa [none]

theorem spaced {combine : α → β → γ} (first : Grows p R) (second : Grows q S)
    (both : ∀ a ts b us, R a ts → S b us → T (combine a b) (ts ++ us)) : Grows (spaced combine p q) T :=
  first.seq (gap.behind second) both

theorem before {p : Form α} (first : Grows p fun _ ts => ts = []) (second : Grows q S) :
    Grows (before p q) S :=
  first.behind (gap.behind second)

theorem ahead {q : Form β} (first : Grows p R) (second : Grows q fun _ ts => ts = []) :
    Grows (Pattern.spaced (fun a _ => a) p q) R :=
  first.spaced second fun _ _ _ _ related none => by rwa [none, List.append_nil]

theorem many (each : Grows p R) :
    Grows (many p) fun as ts => ∃ tss, ts = tss.flatten ∧ List.Forall₂ R as tss := by
  refine .choice (each.seq (gap.behind each).star ?_) (pure ⟨[], rfl, .nil⟩)
  rintro a ts as _ related ⟨tss, rfl, others⟩
  exact ⟨ts :: tss, rfl, .cons related others⟩

end Grows

theorem forall₂_flatten {α : Type} {R : α → Tree Rule → Prop} {as : List α} {tss : List (List (Tree Rule))}
    (each : List.Forall₂ (Lone R) as tss) : List.Forall₂ R as tss.flatten := by
  induction each with
  | nil => exact .nil
  | cons first _ ih =>
    obtain ⟨t, rfl, related⟩ := first
    exact .cons related ih

/-- Any number of single trees. -/
theorem Grows.manyLone {α : Type} {p : Form α} {R : α → Tree Rule → Prop} (each : Grows p (Lone R)) :
    Grows (Pattern.many p) (List.Forall₂ R) :=
  each.many.mono fun _ _ ⟨_, flat, related⟩ => flat ▸ forall₂_flatten related

theorem concepts_concur {ds : List Draft.Concept} {ts : List (Tree Rule)}
    (each : List.Forall₂ (fun d t => Tree.Depicts t d) ds ts) (v : Vocabulary) (around : Rule) :
    Concur v (Tree.marksAll around ts) Eq (Tree.concepts v ts) (judgeAll v ds) := by
  induction each with
  | nil => exact .ok rfl
  | cons first _ ih =>
    refine (first.2 v around).bind ?_
    rintro p _ rfl
    exact ih.map fun _ _ same => congrArg _ same

theorem join_single {v : Vocabulary} {p : Phrase} (proper : p.Proper v) (kind : Connective) :
    Phrase.join kind [p] = p := by
  have alone : [p].flatMap (Phrase.spliced kind) = p.spliced kind := List.flatMap_singleton ..
  unfold Phrase.join
  rw [alone]
  cases proper with
  | @junction kind' ps several =>
    by_cases same : kind' = kind
    · subst same
      match ps, several with
      | _ :: _ :: _, _ => simp [Phrase.spliced]
    · simp [Phrase.spliced, same]
  | _ => rfl

/-- Operands with a sign between them, or a single one. -/
theorem chain_concur {kind : Connective} {d : Draft.Concept} {ds : List Draft.Concept} {t : Tree Rule}
    {ts : List (Tree Rule)} (first : t.Depicts d) (others : List.Forall₂ (fun d t => Tree.Depicts t d) ds ts)
    (v : Vocabulary) (around : Rule) :
    Concur v (Tree.marksAll around (t :: ts)) Eq (do return Phrase.join kind (← Tree.concepts v (t :: ts)))
      ((Draft.Concept.chain kind d ds).judge v) := by
  cases others with
  | nil =>
    have only : Concur v (t.marks around ++ []) Eq (t.concept v >>= fun p => .ok (Phrase.join kind [p]))
        (d.judge v >>= .ok) := by
      refine ((first.2 v around).and fun _ judged => first.1.proper judged).bind ?_
      rintro p _ ⟨rfl, proper⟩
      exact .ok (join_single proper kind)
    have tree : (do return Phrase.join kind (← Tree.concepts v [t])) =
        (t.concept v >>= fun p => .ok (Phrase.join kind [p])) := by
      rw [Tree.concepts]
      cases t.concept v <;> rfl
    have draft : (d.judge v >>= .ok) = d.judge v := bind_pure _
    rw [draft, ← tree] at only
    exact only
  | cons second others =>
    exact (concepts_concur (.cons first (.cons second others)) v around).map fun _ _ same => congrArg _ same

/-- A rule for names among the operands. -/
theorem names_concur {names : List String} {ts : List (Tree Rule)}
    (each : List.Forall₂ (fun name t => t.rule = .individual ∧ t.text = name.toList) names ts)
    (v : Vocabulary) (around : Rule) :
    Concur v (Tree.marksAll around ts) Eq (ts.mapM (Tree.atom v .individual))
      (names.mapM (Draft.name v .individual)) := by
  induction each with
  | nil => exact .ok rfl
  | @cons name t names ts first _ ih =>
    obtain ⟨r, text, offset, parts⟩ := t
    obtain ⟨rfl, spelled⟩ : r = .individual ∧ text = name.toList := first
    rw [List.mapM_cons, List.mapM_cons]
    refine (Concur.atom (t := .node .individual text offset parts) spelled).bind ?_
    rintro n _ rfl
    exact ih.map fun _ _ same => congrArg _ same

theorem primary_depicts : Grows primary (Lone fun d t => t.Depicts d) := by
  refine .choice (.before (.literal _) ?_) <| .choice (.map ?_) <| .choice (.map ?_) <|
    .choice (.map ?_) (.map ?_)
  · refine Grows.ahead ((Grows.rule .xor).mono ?_) (.literal _)
    rintro d _ ⟨t, rfl, _, full, tells⟩
    exact ⟨t, rfl, full, tells⟩
  · refine (Grows.rule .individualSet).mono ?_
    rintro names _ ⟨⟨r, text, offset, parts⟩, rfl, same, inhabited, tells⟩
    obtain rfl : r = .individualSet := same
    exact ⟨_, rfl, .nominal inhabited, fun v around => (tells v around).map fun _ _ same => congrArg _ same⟩
  · refine (Grows.rule .variable).mono ?_
    rintro x _ ⟨⟨r, text, offset, parts⟩, rfl, same, _, tells⟩
    obtain rfl : r = .variable := same
    exact ⟨_, rfl, .var, fun v around => (tells v around).map fun _ _ same => congrArg _ same⟩
  · refine (Grows.rule .anaphora).mono ?_
    rintro _ _ ⟨⟨r, text, offset, parts⟩, rfl, same, _, none⟩
    obtain rfl : r = .anaphora := same
    obtain rfl : parts = [] := none
    exact ⟨_, rfl, .anaphora, fun v around => .ok rfl⟩
  · refine (Grows.rule .conceptAtom).mono ?_
    rintro name _ ⟨⟨r, text, offset, parts⟩, rfl, same, _, spelled⟩
    obtain rfl : r = .conceptAtom := same
    exact ⟨_, rfl, .atom, fun v around => (Concur.atom spelled).map fun _ _ same => congrArg _ same⟩

theorem unary_depicts : Grows unary (Lone fun d t => t.Depicts d) := by
  refine .choice ?_ (.choice ?_ primary_depicts)
  · exact (Grows.rule .negation).mono fun _ _ ⟨t, one, _, full, tells⟩ => ⟨t, one, full, tells⟩
  · exact (Grows.rule .restriction).mono fun _ _ ⟨t, one, _, full, tells⟩ => ⟨t, one, full, tells⟩

theorem or_depicts : Grows (nested .or) (Lone fun d t => t.Depicts d) :=
  (Grows.rule .or).mono fun _ _ ⟨t, one, _, full, tells⟩ => ⟨t, one, full, tells⟩

theorem and_depicts : Grows (nested .and) (Lone fun d t => t.Depicts d) :=
  (Grows.rule .and).mono fun _ _ ⟨t, one, _, full, tells⟩ => ⟨t, one, full, tells⟩

theorem xor_depicts : Grows (nested .xor) (Lone fun d t => t.rule = .xor ∧ t.Depicts d) :=
  (Grows.rule .xor).mono fun _ _ ⟨t, one, same, full, tells⟩ => ⟨t, one, same, full, tells⟩

theorem chain_grows {kind : Connective} {sign : List Char} {operand : Form Draft.Concept}
    (each : Grows operand (Lone fun d t => t.Depicts d)) :
    Grows (chain kind sign operand) fun d ts => ∀ v around, Concur v (Tree.marksAll around ts) Eq
      (do return Phrase.join kind (← Tree.concepts v ts)) (d.judge v) := by
  refine each.spaced (Grows.before (.literal sign) each).manyLone ?_
  rintro d _ ds us ⟨t, rfl, first⟩ others
  exact chain_concur first others

/-- A word for a kind of restriction, and a number. -/
theorem counted_grows {word : Form Unit} {r : Rule}
    (key : Grows word (Lone fun _ t => ∀ text, t.rule.sense? r text = some .keyword)) :
    Grows (Pattern.before word (nested .integer)) fun n ts => ∀ text offset v,
      Concur v (Tree.marksAll r ts) Eq (Tree.node r text offset ts).count
        (if n.fits then .ok n.value else .error (.cardinality n)) := by
  refine key.spaced (Grows.rule .integer) ?_
  rintro _ _ ⟨_, _⟩ _ ⟨⟨s, letters, start, inner⟩, rfl, mark⟩
    ⟨⟨_, digits, place, parts⟩, rfl, rfl, _, rfl, rfl⟩ text offset v
  have mark : s.sense? r letters = some .keyword := mark letters
  have other : (s == .integer) = false := beq_eq_false_iff_ne.mpr fun same => by
    rw [same] at mark
    cases mark
  have marks : Tree.marksAll r [.node s letters start inner, .node .integer digits place parts] =
      ⟨⟨letters, start⟩, .keyword⟩ :: [⟨⟨digits, place⟩, .cardinality⟩] := by
    simp only [Tree.marksAll, Tree.marks, mark]
    rfl
  have count : Tree.count
      (.node r text offset [.node s letters start inner, .node .integer digits place parts]) =
      if (⟨digits, place⟩ : Numeral).fits then .ok (⟨digits, place⟩ : Numeral).value
        else .error (.flaw (.cardinality ⟨digits, place⟩)) := by
    simp only [Tree.count, Tree.parts, List.find?, Tree.rule, other]
    rfl
  refine marks ▸ Concur.keyword ?_
  exact count ▸ .number ⟨digits, place⟩

theorem bounded_concur {n : Numeral} {t : Tree Rule} {v : Vocabulary} {ms : List Mark} (bound : Bound)
    (counts : Concur v ms Eq t.count (if n.fits then .ok n.value else .error (.cardinality n))) :
    Concur v ms Eq (do return .count bound (← t.count)) (Draft.Quantifier.count bound n).judge := by
  have judged : (Draft.Quantifier.count bound n).judge =
      (if n.fits then .ok n.value else .error (.cardinality n)) >>= fun m => .ok (.count bound m) := by
    rw [Draft.Quantifier.judge]
    cases n.fits <;> rfl
  rw [judged]
  exact counts.map fun _ _ same => congrArg _ same

theorem quantifier_grows : Grows (body .quantifier) fun q ts => ∀ text offset v, Concur v
    (Tree.marksAll .quantifier ts) Eq (Tree.node .quantifier text offset ts).quantifier q.judge := by
  refine .choice (.map ?_) <| .choice (.map ?_) <| .choice (.map ?_) <| .choice (.map ?_) (.map ?_)
  · refine (Grows.rule .wordSome).mono ?_
    rintro _ _ ⟨⟨_, _, _, _⟩, rfl, rfl, _⟩ text offset v
    exact .keyword (.ok rfl)
  · refine (Grows.rule .wordOnly).mono ?_
    rintro _ _ ⟨⟨_, _, _, _⟩, rfl, rfl, _⟩ text offset v
    exact .keyword (.ok rfl)
  · refine (Grows.rule .atLeast).mono ?_
    rintro n _ ⟨⟨_, _, _, _⟩, rfl, rfl, _, counts⟩ text offset v
    rw [Tree.marksAll_single]
    exact bounded_concur .atLeast (counts v .quantifier)
  · refine (Grows.rule .atMost).mono ?_
    rintro n _ ⟨⟨_, _, _, _⟩, rfl, rfl, _, counts⟩ text offset v
    rw [Tree.marksAll_single]
    exact bounded_concur .atMost (counts v .quantifier)
  · refine (Grows.rule .exactly).mono ?_
    rintro n _ ⟨⟨_, _, _, _⟩, rfl, rfl, _, counts⟩ text offset v
    rw [Tree.marksAll_single]
    exact bounded_concur .exactly (counts v .quantifier)

theorem variable_grows : Grows (body .variable) fun x ts => ∀ text offset v, Concur v
    (Tree.marksAll .variable ts) Eq (Tree.typedVariable v (.node .variable text offset ts))
      (Draft.typedVariable v x.1 x.2) := by
  have typed : Grows (opt (Pattern.seq (fun _ type => type) (.literal [':']) (nested .variableType)))
      fun type ts => (type = none ∧ ts = []) ∨ ∃ name t, type = some name ∧ ts = [t] ∧
        t.rule = .variableType ∧ t.text = name.toList := by
    refine .choice (.map ((Grows.literal _).behind ((Grows.rule .variableType).mono ?_)))
      (.pure (.inl ⟨rfl, rfl⟩))
    rintro name _ ⟨t, rfl, same, _, spelled⟩
    exact .inr ⟨name, t, rfl, rfl, same, spelled⟩
  refine (Grows.literal _).behind ((Grows.rule .variableName).seq typed ?_)
  rintro base _ type _ ⟨⟨_, letters, start, _⟩, rfl, rfl, _, spelled⟩ kind text offset v
  have named : base = String.ofList letters := by
    rw [show letters = base.toList from spelled, String.ofList_toList]
  subst named
  rcases kind with ⟨rfl, rfl⟩ | ⟨name, ⟨_, letters', start', _⟩, rfl, rfl, rfl, spelled'⟩
  · exact Concur.typed ⟨letters, start⟩ none
  · have named : name = String.ofList letters' := by
      rw [show letters' = name.toList from spelled', String.ofList_toList]
    subst named
    exact Concur.typed ⟨letters, start⟩ (some ⟨letters', start'⟩)

/-- Two parts, one after the other. -/
theorem pair_concur {α β γ : Type} {v : Vocabulary} {r : Rule} {t u : Tree Rule} {x : Except Halt α}
    {y : Except Draft.Flaw α} {x' : Except Halt β} {y' : Except Draft.Flaw β}
    (first : Concur v (t.marks r) Eq x y) (second : Concur v (u.marks r) Eq x' y') (f : α → β → γ) :
    Concur v (Tree.marksAll r [t, u]) Eq (x >>= fun a => x' >>= fun b => .ok (f a b))
      (y >>= fun a => y' >>= fun b => .ok (f a b)) := by
  rw [Tree.marksAll, Tree.marksAll_single]
  refine first.bind ?_
  rintro a _ rfl
  exact second.map fun _ _ same => congrArg _ same

/-- What is declared is named in the role that the declaration gives it. -/
theorem declared_concur {role : Role} {r : Rule} {n : Tree Rule} {name : String} {v : Vocabulary}
    (given : ∀ text, Rule.sense? .declaredName r text = some (.name role)) (declares : n.rule = .declaredName)
    (spelled : n.text = name.toList) : Concur v (n.marks r) Eq (n.atom v role) (Draft.name v role name) := by
  obtain ⟨_, letters, start, inner⟩ := n
  obtain rfl := declares
  have mark : (Tree.node .declaredName letters start inner).marks r = [⟨⟨letters, start⟩, .name role⟩] := by
    rw [Tree.marks, given]
  rw [mark]
  exact Concur.atom (t := .node .declaredName letters start inner) spelled

theorem definition_grows : Grows (body .definition) (Tree.StateIn .definition) := by
  refine (Grows.rule .declaredName).spaced (Grows.before (.literal _) xor_depicts) ?_
  rintro name _ d _ ⟨n, rfl, declares, _, spelled⟩ ⟨t, rfl, _, _, body⟩ text offset v
  exact pair_concur (declared_concur (fun _ => rfl) declares spelled) (body v .definition) Phrase.define

theorem relationDeclaration_grows :
    Grows (body .relationDeclaration) (Tree.StateIn .relationDeclaration) := by
  refine (Grows.rule .declaredName).spaced (Grows.before (.literal _) (Grows.rule .mappingFormula)) ?_
  rintro name _ m _ ⟨n, rfl, declares, _, spelled⟩ ⟨t, rfl, _, _, mapping⟩ text offset v
  have concur := pair_concur (declared_concur (fun _ => rfl) declares spelled)
    (mapping v .relationDeclaration) fun name m => Phrase.declareRelation name m.1 m.2
  have judged : (Draft.Statement.declareRelation name m.1 m.2).judge v =
      Draft.name v .relation name >>= fun name => (do
        let domain ← m.1.judge v
        return (domain, ← m.2.judge v)) >>= fun m => .ok (.declareRelation name m.1 m.2) := by
    simp only [Draft.Statement.judge, bind_assoc]
    rfl
  exact judged ▸ concur

theorem conceptDeclaration_grows :
    Grows (body .conceptDeclaration) (Tree.StateIn .conceptDeclaration) := by
  refine (Grows.rule .declaredName).spaced (Grows.before (.literal _) (Grows.rule .conceptTuple)) ?_
  rintro name _ ds _ ⟨n, rfl, declares, _, spelled⟩ ⟨t, rfl, _, _, tuple⟩ text offset v
  exact pair_concur (declared_concur (fun _ => rfl) declares spelled) (tuple v .conceptDeclaration)
    Phrase.declareConcept

theorem individualDeclaration_grows :
    Grows (body .individualDeclaration) (Tree.StateIn .individualDeclaration) := by
  refine (Grows.rule .declaredName).spaced (Grows.before (.literal _) (Grows.rule .conceptTuple)) ?_
  rintro name _ ds _ ⟨n, rfl, declares, _, spelled⟩ ⟨t, rfl, _, _, tuple⟩ text offset v
  exact pair_concur (declared_concur (fun _ => rfl) declares spelled) (tuple v .individualDeclaration)
    Phrase.declareIndividual

/-- What may stand before the colon of a membership. -/
theorem subject_grows : Grows subject (Lone fun s t =>
    ∀ v around, Concur v (t.marks around) Eq (t.individualTerm v) (s.judge v)) := by
  refine .choice (.map ?_) <| .choice (.map ?_) (.map ?_)
  · refine (Grows.rule .anaphora).mono ?_
    rintro _ _ ⟨⟨r, text, offset, parts⟩, rfl, same, _, none⟩
    obtain rfl : r = .anaphora := same
    obtain rfl : parts = [] := none
    exact ⟨_, rfl, fun v around => .ok rfl⟩
  · refine (Grows.rule .variable).mono ?_
    rintro x _ ⟨⟨r, text, offset, parts⟩, rfl, same, _, tells⟩
    obtain rfl : r = .variable := same
    exact ⟨_, rfl, fun v around => (tells v around).map fun _ _ same => congrArg _ same⟩
  · refine (Grows.rule .individual).mono ?_
    rintro name _ ⟨⟨r, text, offset, parts⟩, rfl, same, _, spelled⟩
    obtain rfl : r = .individual := same
    exact ⟨_, rfl, fun v around => (Concur.atom spelled).map fun _ _ same => congrArg _ same⟩

theorem containingFormula_grows : Grows (body .containingFormula) (Tree.StateIn .containingFormula) := by
  refine subject_grows.spaced (Grows.before (.literal _) (Grows.before (.notNext _) xor_depicts)) ?_
  rintro s _ d _ ⟨t, rfl, subject⟩ ⟨u, rfl, _, _, body⟩ text offset v
  exact pair_concur (subject v .containingFormula) (body v .containingFormula) Phrase.membership

theorem mappingFormula_grows : Grows (body .mappingFormula) fun m ts => ∀ text offset v, Concur v
    (Tree.marksAll .mappingFormula ts) Eq (Tree.mapping v (.node .mappingFormula text offset ts)) (do
      let domain ← Draft.Concept.judge v m.1
      return (domain, ← Draft.Concept.judge v m.2)) := by
  refine xor_depicts.spaced (Grows.before (.literal _) xor_depicts) ?_
  rintro d _ e _ ⟨t, rfl, _, _, domain⟩ ⟨u, rfl, _, _, range⟩ text offset v
  exact pair_concur (domain v .mappingFormula) (range v .mappingFormula) Prod.mk

theorem restriction_grows : Grows (body .restriction) (Tree.DepictIn .restriction) := by
  have target : Grows (Pattern.spaced Prod.mk (nested .relation) (Pattern.before (literal ['.']) unary))
      fun x ts => ∃ t u, ts = [t, u] ∧ t.rule = .relation ∧ t.text = x.1.toList ∧ u.Depicts x.2 := by
    refine (Grows.rule .relation).spaced (Grows.before (.literal _) unary_depicts) ?_
    rintro name _ d _ ⟨t, rfl, same, _, spelled⟩ ⟨u, rfl, depicts⟩
    exact ⟨t, u, rfl, same, spelled, depicts⟩
  refine (Grows.rule .quantifier).spaced target ?_
  rintro q _ ⟨name, d⟩ _ ⟨k, rfl, _, _, quantified⟩
    ⟨⟨_, letters, start, inner⟩, u, rfl, rfl, spelled, _, operand⟩ text offset v
  have relation : Concur v ((Tree.node .relation letters start inner).marks .restriction) Eq
      (Tree.atom v .relation (.node .relation letters start inner)) (Draft.name v .relation name) :=
    Concur.atom (t := .node .relation letters start inner) spelled
  have concur : Concur v
      (k.marks .restriction ++ Tree.marksAll .restriction [.node .relation letters start inner, u]) Eq
      (k.quantifier >>= fun q => Tree.atom v .relation (.node .relation letters start inner) >>= fun r =>
        u.concept v >>= fun p => .ok (Phrase.restriction q (.relation r) p))
      (q.judge >>= fun q => Draft.name v .relation name >>= fun r =>
        d.judge v >>= fun p => .ok (Phrase.restriction q (.relation r) p)) := by
    refine (quantified v .restriction).bind ?_
    rintro q _ rfl
    exact pair_concur relation (operand v .restriction) fun r p => Phrase.restriction q (.relation r) p
  exact concur

theorem conceptTuple_grows : Grows (body .conceptTuple) fun ds ts => ∀ v around,
    Concur v (Tree.marksAll around ts) Eq (Tree.concepts v ts) (judgeAll v ds) := by
  have each : Grows (nested .xor) (Lone fun d t => t.Depicts d) := xor_depicts.mono
    fun _ _ ⟨t, one, _, depicts⟩ => ⟨t, one, depicts⟩
  refine each.spaced (Grows.before (.literal _) each).manyLone ?_
  rintro d _ ds us ⟨t, rfl, first⟩ others
  exact concepts_concur (.cons first others)

theorem negation_grows : Grows (body .negation) (Tree.DepictIn .negation) := by
  refine Grows.before (.literal _) (.map (unary_depicts.mono ?_))
  rintro d _ ⟨t, rfl, _, operand⟩ text offset v
  rw [Tree.marksAll_single]
  exact (operand v .negation).map fun _ _ same => congrArg _ same

theorem individualSet_grows : Grows (body .individualSet) fun names ts => ∀ v around,
    Concur v (Tree.marksAll around ts) Eq (ts.mapM (Tree.atom v .individual))
      (names.mapM (Draft.name v .individual)) := by
  have each : Grows (nested .individual)
      (Lone fun (name : String) t => t.rule = .individual ∧ t.text = name.toList) := by
    refine (Grows.rule .individual).mono ?_
    rintro name _ ⟨t, rfl, same, _, spelled⟩
    exact ⟨t, rfl, same, spelled⟩
  refine Grows.before (.literal _)
    (each.spaced ((Grows.before (.literal _) each).manyLone.ahead (.literal _)) ?_)
  rintro name _ names ts ⟨t, rfl, first⟩ others
  exact names_concur (.cons first others)

/-- A comparator and what stands behind it. -/
def Follows (link : String × Draft.Concept) (ts : List (Tree Rule)) : Prop :=
  ∃ c t, ts = [c, t] ∧ c.rule = .comparator ∧ c.text = link.1.toList ∧ c.parts = [] ∧ t.Depicts link.2

theorem links_concur {links : List (String × Draft.Concept)} {tss : List (List (Tree Rule))}
    (each : List.Forall₂ Follows links tss) (s : Tree Rule) (v : Vocabulary) (around : Rule) :
    Concur v (Tree.marksAll around tss.flatten)
      (fun ls ps => ls.map Prod.fst = links.map Prod.fst ∧ ls.map Prod.snd = ps)
      (s.links v tss.flatten) (judgeAll v (links.map Prod.snd)) := by
  induction each with
  | nil => exact .ok ⟨rfl, rfl⟩
  | @cons link _ links tss first _ ih =>
    obtain ⟨⟨_, letters, start, _⟩, t, rfl, rfl, spelled, rfl, _, operand⟩ := first
    have word : Tree.name (.node .comparator letters start []) = link.1 := by
      rw [Tree.name, spelled, String.ofList_toList]
    refine (operand v around).bind ?_
    rintro p _ rfl
    refine ih.map fun ls ps related => ?_
    rw [List.map_cons, List.map_cons, List.map_cons, related.1, related.2, word]
    exact ⟨rfl, rfl⟩

theorem comparisonFormula_grows : Grows (body .comparisonFormula) (Tree.StateIn .comparisonFormula) := by
  have link : Grows (Pattern.spaced Prod.mk (nested .comparator) (nested .xor)) Follows := by
    refine (Grows.rule .comparator).spaced xor_depicts ?_
    rintro word _ d _ ⟨c, rfl, same, _, spelled, none⟩ ⟨t, rfl, _, depicts⟩
    exact ⟨c, t, rfl, same, spelled, none, depicts⟩
  have links : Grows (Pattern.spaced Prod.mk (Pattern.spaced Prod.mk (nested .comparator) (nested .xor))
      (Pattern.many (Pattern.spaced Prod.mk (nested .comparator) (nested .xor))))
      fun links ts => ∃ tss, ts = tss.flatten ∧ List.Forall₂ Follows (links.1 :: links.2) tss := by
    refine link.spaced link.many ?_
    rintro first ts others _ follows ⟨tss, rfl, each⟩
    exact ⟨ts :: tss, rfl, .cons follows each⟩
  refine xor_depicts.spaced links ?_
  rintro d _ links _ ⟨t, rfl, _, _, first⟩ ⟨tss, rfl, each⟩ text offset v
  have concur : Concur v (t.marks .comparisonFormula ++ Tree.marksAll .comparisonFormula tss.flatten) Eq
      (t.concept v >>= fun p =>
        Tree.links v (.node .comparisonFormula text offset (t :: tss.flatten)) tss.flatten >>= fun ls =>
          .ok (Phrase.compare p ls))
      (d.judge v >>= fun p => judgeAll v ((links.1 :: links.2).map Prod.snd) >>= fun ps =>
        .ok (Phrase.comparison (p :: ps) ((links.1 :: links.2).map Prod.fst))) := by
    refine (first v .comparisonFormula).bind ?_
    rintro p _ rfl
    refine (links_concur each _ v .comparisonFormula).map fun ls ps related => ?_
    rw [Phrase.compare, related.1, related.2]
  exact concur

/-- A rule that states something is not the end of the input. -/
theorem Grows.states {r : Rule} {p : Form Draft.Statement} {P : Draft.Statement → Prop}
    (other : r ≠ .endOfInput) (grows : Grows p (Lone fun d t => t.rule = r ∧ P d ∧
      ∀ v around, Concur v (t.marks around) Eq (t.statement v) (d.judge v))) :
    Grows p (Lone fun d t => t.States d) :=
  grows.mono fun _ _ ⟨t, one, same, _, tells⟩ => ⟨t, one, same ▸ other, tells⟩

theorem declaration_grows : Grows declaration (Lone fun d t => t.States d) :=
  Grows.before (.literal _) <| .choice (.states (by decide) (.rule .definition)) <|
    .choice (.states (by decide) (.rule .relationDeclaration)) <|
    .choice (.states (by decide) (.rule .conceptDeclaration))
      (.states (by decide) (.rule .individualDeclaration))

theorem statement_grows : Grows statement (Lone fun d t => t.States d) := by
  refine .choice declaration_grows <| .choice (.states (by decide) (.rule .containingFormula)) <|
    .choice (.states (by decide) (.rule .comparisonFormula)) (.map (xor_depicts.mono ?_))
  rintro d _ ⟨⟨_, _, _, _⟩, rfl, rfl, _, concept⟩
  exact ⟨_, rfl, (by decide : Rule.xor ≠ .endOfInput), concept⟩

theorem statements_concur {ds : List Draft.Statement} {ts : List (Tree Rule)} {last : Tree Rule}
    (each : List.Forall₂ (fun d t => Tree.States t d) ds ts) (ends : last.rule = .endOfInput)
    (none : last.parts = []) (v : Vocabulary) (around : Rule) :
    Concur v (Tree.marksAll around (ts ++ [last])) Eq (Tree.statements v (ts ++ [last]))
      (ds.mapM (Draft.Statement.judge v)) := by
  induction each with
  | nil =>
    obtain ⟨_, _, _, _⟩ := last
    obtain rfl := ends
    obtain rfl := none
    exact .ok rfl
  | @cons d t ds ts first _ ih =>
    rw [List.mapM_cons, List.cons_append, Tree.statements, if_neg first.1]
    refine (first.2 v around).bind ?_
    rintro p _ rfl
    exact ih.map fun _ _ same => congrArg _ same

/-- The statements that are there, and their trees. -/
theorem forall₂_reduceOption {α β : Type} {R : α → β → Prop} {os : List (Option α)} {tss : List (List β)}
    (each : List.Forall₂ (fun o ts => List.Forall₂ R o.toList ts) os tss) :
    List.Forall₂ R os.reduceOption tss.flatten := by
  induction each with
  | nil => exact .nil
  | @cons o ts os tss first _ ih =>
    cases o with
    | none =>
      cases first
      exact ih
    | some a =>
      cases first with
      | cons here none =>
        cases none
        exact .cons here ih

theorem program_grows : Grows (body .program) fun ds ts => ∀ v around,
    Concur v (Tree.marksAll around ts) Eq (Tree.statements v ts) (ds.mapM (Draft.Statement.judge v)) := by
  have optional : Grows (opt statement)
      fun o ts => List.Forall₂ (fun d t => Tree.States t d) o.toList ts := by
    refine .choice (.map (statement_grows.mono ?_)) (.pure .nil)
    rintro d _ ⟨t, rfl, states⟩
    exact .cons states .nil
  have closing : Grows (Pattern.spaced (fun rest _ => rest) (many (before (literal [';']) (opt statement)))
      (nested .endOfInput)) fun os ts => ∃ tss last, ts = tss.flatten ++ [last] ∧
        List.Forall₂ (fun o ts => List.Forall₂ (fun d t => Tree.States t d) o.toList ts) os tss ∧
          last.rule = .endOfInput ∧ last.parts = [] := by
    refine (Grows.before (.literal _) optional).many.spaced (Grows.rule .endOfInput) ?_
    rintro os _ _ _ ⟨tss, rfl, each⟩ ⟨last, rfl, ends, _, none⟩
    exact ⟨tss, last, rfl, each, ends, none⟩
  refine Grows.before .gap (optional.spaced closing ?_)
  rintro o ts os _ first ⟨tss, last, rfl, others, ends, none⟩
  have each := forall₂_reduceOption (List.Forall₂.cons first others)
  rw [← List.append_assoc]
  exact statements_concur each ends none

/-- What a comparator reads is its text. -/
theorem comparator_found {call : (r : Rule) → Cursor → Option (r.Value × Cursor)} {c c' : Cursor}
    {word : String} (found : (body .comparator).scan call c = some (word, c')) : c.Takes word.toList c' := by
  have signed : ∀ {letters : List Char}, (sign letters).scan call c = some (word, c') →
      c.Takes word.toList c' := by
    intro letters found
    obtain ⟨_, _, d, read, last, rfl⟩ := seq_found found
    cases last
    rw [String.toList_ofList]
    exact literal_found read
  have either : ∀ {p q : Form String}, (p.scan call c = some (word, c') → c.Takes word.toList c') →
      (q.scan call c = some (word, c') → c.Takes word.toList c') →
        (choice p q).scan call c = some (word, c') → c.Takes word.toList c' := by
    intro p q left right found
    rcases Option.or_eq_some_iff.mp found with here | ⟨_, here⟩
    · exact left here
    · exact right here
  exact either signed (either signed (either signed (either signed (either signed signed)))) found

theorem comparator_grows : Grows (body .comparator) fun _ ts => ts = [] :=
  .choice (.map (.literal _)) <| .choice (.map (.literal _)) <| .choice (.map (.literal _)) <|
    .choice (.map (.literal _)) <| .choice (.map (.literal _)) (.map (.literal _))

/-- The tree of a rule tells what the rule reads if the trees of the rules in it do. -/
theorem body_tells {call : (r : Rule) → Cursor → Option ((r.Value × Tree Rule) × Cursor)}
    (faithful : Faithful call) {r : Rule} {c c' : Cursor} {a : r.Value} {ts : List (Tree Rule)}
    (grown : (body r).grow call c = some ((a, ts), c')) : r.Tells a (.node r (c.until c') c.offset ts) := by
  have found := scan_of_grow grown
  have word : ∀ {s r : Rule}, (∀ text, s.sense? r text = some .keyword) →
      Grows (nested s) (Lone fun _ t => ∀ text, t.rule.sense? r text = some .keyword) := fun key =>
    (Grows.rule _).mono fun _ _ ⟨t, one, same, _⟩ => ⟨t, one, fun text => same ▸ key text⟩
  cases r with
  | endOfInput => exact Grows.atEnd faithful grown
  | integer => exact ⟨(integer_found found).1.until_eq, (integer_found found).2.1.symm⟩
  | program => exact fun v _ => program_grows faithful grown v .program
  | definition => exact fun v _ => definition_grows faithful grown _ _ v
  | relationDeclaration => exact fun v _ => relationDeclaration_grows faithful grown _ _ v
  | conceptDeclaration => exact fun v _ => conceptDeclaration_grows faithful grown _ _ v
  | individualDeclaration => exact fun v _ => individualDeclaration_grows faithful grown _ _ v
  | containingFormula => exact fun v _ => containingFormula_grows faithful grown _ _ v
  | comparisonFormula => exact fun v _ => comparisonFormula_grows faithful grown _ _ v
  | conceptTuple => exact fun v _ => conceptTuple_grows faithful grown v .conceptTuple
  | mappingFormula => exact fun v _ => mappingFormula_grows faithful grown _ _ v
  | declaredName | individual | relation | conceptAtom | variableName | variableType =>
    exact (identifier_found found).1.until_eq
  | comparator => exact ⟨(comparator_found found).until_eq, comparator_grows faithful grown⟩
  | xor => exact fun v _ => chain_grows or_depicts faithful grown v .xor
  | or => exact fun v _ => chain_grows and_depicts faithful grown v .or
  | and => exact fun v _ => chain_grows unary_depicts faithful grown v .and
  | negation => exact fun v _ => negation_grows faithful grown _ _ v
  | restriction => exact fun v _ => restriction_grows faithful grown _ _ v
  | quantifier => exact fun v _ => quantifier_grows faithful grown _ _ v
  | atLeast => exact fun v _ => counted_grows (word (s := .wordMore) fun _ => rfl) faithful grown _ _ v
  | atMost => exact fun v _ => counted_grows (word (s := .wordLess) fun _ => rfl) faithful grown _ _ v
  | exactly =>
    exact fun v _ => counted_grows (.choice (word (s := .wordExact) fun _ => rfl)
      (word (s := .wordEqual) fun _ => rfl)) faithful grown _ _ v
  | individualSet => exact fun v _ => individualSet_grows faithful grown v .individualSet
  | «variable» => exact fun v _ => variable_grows faithful grown _ _ v
  | anaphora => exact Grows.literal _ faithful grown
  | wordSome | wordOnly | wordMore | wordLess | wordExact | wordEqual => trivial

/-- All that is read of a text is faithful to it. -/
theorem growRule_faithful (fuel : Nat) : Faithful (growRule body fuel) := by
  intro r c a t c' grown
  refine growRule_holds (P := fun r _ a t _ => t.rule = r ∧ r.Holds a ∧ r.Tells a t) ?_ grown
  intro call faithful r c a ts c' grown
  have holds : ∀ r c a c', bare call r c = some (a, c') → r.Holds a := fun r c a c' found => by
    obtain ⟨⟨⟨b, t⟩, d⟩, here, same⟩ := Option.map_eq_some_iff.mp found
    cases same
    exact (faithful here).2.1
  exact ⟨rfl, body_ensures r (bare call) holds c a c' (scan_of_grow grown), body_tells faithful grown⟩

end Grammar

end ConceptLogic
