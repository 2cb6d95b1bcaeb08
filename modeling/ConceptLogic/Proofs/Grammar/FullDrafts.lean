import ConceptLogic.Proofs.Grammar.ProperPhrases

namespace ConceptLogic

namespace Grammar

/-- The comparators, as they are written. -/
def comparators : List String := ["<=", ">=", "=>", "==", "<", ">"]

end Grammar

namespace Draft

/-- The drafts of concepts that the grammar reads: no nominal and no connective is empty. -/
inductive Concept.Full : Concept → Prop
  | atom {name : String} : Full (.atom name)
  | nominal {members : List String} (inhabited : members ≠ []) : Full (.nominal members)
  | var {base : String} {type : Option String} : Full (.var base type)
  | anaphora : Full .anaphora
  | negation {d : Concept} (operand : Full d) : Full (.negation d)
  | restriction {q : Quantifier} {r : String} {d : Concept} (operand : Full d) :
      Full (.restriction q r d)
  | junction {kind : Connective} {ds : List Concept} (inhabited : ds ≠ [])
      (operands : ∀ d ∈ ds, Full d) : Full (.junction kind ds)

theorem Quantifier.fits_of_judged {d : Quantifier} {q : ConceptLogic.Quantifier}
    (judged : d.judge = .ok q) : q.Fits := by
  cases d with
  | some | only =>
    cases judged
    trivial
  | count bound n =>
    simp only [judge] at judged
    split at judged
    · rename_i fits
      cases judged
      exact of_decide_eq_true (p := n.value < 4294967296) fits
    · cases judged

/-- A full draft that is admitted gives a proper phrase. -/
theorem Concept.Full.proper {v : Vocabulary} {d : Concept} (full : d.Full) {p : Phrase}
    (judged : d.judge v = .ok p) : p.Proper v := by
  induction full generalizing p with
  | atom =>
    obtain ⟨n, named, same⟩ := bind_eq_ok_iff.mp judged
    obtain ⟨rfl, vetted⟩ := name_eq_ok_iff.mp named
    cases same
    exact .concept vetted
  | nominal inhabited =>
    obtain ⟨names, named, same⟩ := bind_eq_ok_iff.mp judged
    cases same
    have each := mapM_eq_ok_iff.mp named
    refine .nominal (fun empty => inhabited ?_) fun m member => ?_
    · exact List.eq_nil_of_length_eq_zero (by rw [each.length_eq, empty, List.length_nil])
    · obtain ⟨n, _, named⟩ := exists_of_forall₂ each member
      obtain ⟨rfl, vetted⟩ := name_eq_ok_iff.mp named
      exact vetted
  | var =>
    obtain ⟨x, typed, same⟩ := bind_eq_ok_iff.mp judged
    have vetted := typedVariable_eq_ok_iff.mp typed
    obtain ⟨rfl, _⟩ := Variable.of_vetted vetted
    cases same
    exact .var vetted
  | anaphora =>
    cases judged
    exact .anaphora
  | negation operand ih =>
    obtain ⟨q, inner, same⟩ := bind_eq_ok_iff.mp judged
    cases same
    exact .negation (ih inner)
  | restriction operand ih =>
    obtain ⟨q, quantified, judged⟩ := bind_eq_ok_iff.mp judged
    obtain ⟨r, named, judged⟩ := bind_eq_ok_iff.mp judged
    obtain ⟨p, inner, same⟩ := bind_eq_ok_iff.mp judged
    obtain ⟨rfl, vetted⟩ := name_eq_ok_iff.mp named
    cases same
    exact .restriction (Quantifier.fits_of_judged quantified) vetted (ih inner)
  | junction inhabited operands ih =>
    obtain ⟨ps, inner, same⟩ := bind_eq_ok_iff.mp judged
    cases same
    have each := judgeAll_eq_ok_iff.mp inner
    refine .join (fun empty => inhabited ?_) fun p member => ?_
    · exact List.eq_nil_of_length_eq_zero (by rw [each.length_eq, empty, List.length_nil])
    · obtain ⟨d, here, judged⟩ := exists_of_forall₂ each member
      exact ih d here judged

/-- The drafts of statements that the grammar reads. -/
inductive Statement.Full : Statement → Prop
  | concept {d : Concept} (body : d.Full) : Full (.concept d)
  | define {name : String} {d : Concept} (body : d.Full) : Full (.define name d)
  | declareRelation {name : String} {d e : Concept} (domain : d.Full) (range : e.Full) :
      Full (.declareRelation name d e)
  | declareConcept {name : String} {ds : List Concept} (inhabited : ds ≠ [])
      (parts : ∀ d ∈ ds, d.Full) : Full (.declareConcept name ds)
  | declareIndividual {name : String} {ds : List Concept} (inhabited : ds ≠ [])
      (parts : ∀ d ∈ ds, d.Full) : Full (.declareIndividual name ds)
  | membership {s : Subject} {d : Concept} (concept : d.Full) : Full (.membership s d)
  | comparison {d : Concept} {links : List (String × Concept)} (first : d.Full)
      (inhabited : links ≠ []) (known : ∀ link ∈ links, link.1 ∈ Grammar.comparators)
      (operands : ∀ link ∈ links, link.2.Full) : Full (.comparison d links)

end Draft

/-- What holds of all that a rule reads. -/
def Rule.Holds : (r : Rule) → r.Value → Prop
  | .program, ds => ∀ d ∈ ds, d.Full
  | .definition, d | .relationDeclaration, d | .conceptDeclaration, d | .individualDeclaration, d
  | .containingFormula, d | .comparisonFormula, d => Draft.Statement.Full d
  | .conceptTuple, ds => ds ≠ [] ∧ ∀ d ∈ ds, Draft.Concept.Full d
  | .mappingFormula, m => Draft.Concept.Full m.1 ∧ Draft.Concept.Full m.2
  | .comparator, word => word ∈ Grammar.comparators
  | .xor, d | .or, d | .and, d | .negation, d | .restriction, d => Draft.Concept.Full d
  | .individualSet, members => members ≠ []
  | _, _ => True

namespace Grammar

open Pattern

/-- Whether what a form reads meets a condition if what the rules read does. -/
def Ensures {α : Type} (p : Form α) (P : α → Prop) : Prop :=
  ∀ call : (r : Rule) → Cursor → Option (r.Value × Cursor),
    (∀ r c a c', call r c = some (a, c') → r.Holds a) →
      ∀ c a c', p.scan call c = some (a, c') → P a

namespace Ensures

variable {α β γ : Type} {p : Form α} {q : Form β} {P : α → Prop} {Q : β → Prop} {R : γ → Prop}

theorem any (p : Form α) : Ensures p fun _ => True :=
  fun _ _ _ _ _ _ => trivial

theorem pure {a : α} (holds : P a) : Ensures (.pure a) P := by
  intro call sound c b c' found
  cases found
  exact holds

theorem rule (r : Rule) : Ensures (nested r) r.Holds :=
  fun _ sound c a c' found => sound r c a c' found

theorem seq {combine : α → β → γ} (first : Ensures p P) (second : Ensures q Q)
    (both : ∀ a b, P a → Q b → R (combine a b)) : Ensures (seq combine p q) R := by
  intro call sound c x c' found
  obtain ⟨next, atFirst, found⟩ := Option.bind_eq_some_iff.mp found
  obtain ⟨last, atSecond, same⟩ := Option.map_eq_some_iff.mp found
  cases same
  exact both _ _ (first call sound _ _ _ atFirst) (second call sound _ _ _ atSecond)

theorem choice {p q : Form α} (left : Ensures p P) (right : Ensures q P) : Ensures (choice p q) P := by
  intro call sound c a c' found
  rcases Option.or_eq_some_iff.mp found with found | ⟨_, found⟩
  · exact left call sound c a c' found
  · exact right call sound c a c' found

theorem star (each : Ensures p P) : Ensures (star p) fun as => ∀ a ∈ as, P a := by
  have items : ∀ call : (r : Rule) → Cursor → Option (r.Value × Cursor),
      (∀ r c a c', call r c = some (a, c') → r.Holds a) →
        ∀ left c, ∀ a ∈ (repeated (p.scan call) left c).1, P a := by
    intro call sound left
    induction left with
    | nil => exact fun c => nofun
    | cons x left ih =>
      intro c a member
      unfold repeated at member
      cases found : p.scan call c with
      | none =>
        rw [found] at member
        cases member
      | some next =>
        rw [found] at member
        rcases List.mem_cons.mp member with rfl | member
        · exact each call sound c _ _ found
        · exact ih _ a member
  intro call sound c as c' found
  have members := items call sound c.rest c
  rw [Option.some.inj found] at members
  exact members

theorem map {f : α → β} (each : Ensures p fun a => Q (f a)) : Ensures (map f p) Q :=
  each.seq (any _) fun _ _ holds _ => holds

theorem spaced {combine : α → β → γ} (first : Ensures p P) (second : Ensures q Q)
    (both : ∀ a b, P a → Q b → R (combine a b)) : Ensures (spaced combine p q) R :=
  first.seq ((any _).seq second fun _ _ _ holds => holds) both

theorem before {p : Form α} (second : Ensures q Q) : Ensures (before p q) Q :=
  (any p).spaced second fun _ _ _ holds => holds

theorem many (each : Ensures p P) : Ensures (many p) fun as => ∀ a ∈ as, P a :=
  (each.seq ((any _).seq each fun _ _ _ holds => holds).star fun a as holds all b member => by
    rcases List.mem_cons.mp member with rfl | member
    · exact holds
    · exact all b member).choice (pure nofun)

end Ensures

theorem full_of_chain {kind : Connective} {d : Draft.Concept} {ds : List Draft.Concept}
    (first : d.Full) (others : ∀ e ∈ ds, e.Full) : (Draft.Concept.chain kind d ds).Full := by
  cases ds with
  | nil => exact first
  | cons e ds => exact .junction (List.cons_ne_nil _ _) (List.forall_mem_cons.mpr ⟨first, others⟩)

theorem chain_ensures {kind : Connective} {sign : List Char} {operand : Form Draft.Concept}
    (full : Ensures operand Draft.Concept.Full) : Ensures (chain kind sign operand) Draft.Concept.Full :=
  full.spaced full.before.many fun _ _ => full_of_chain

theorem primary_ensures : Ensures primary Draft.Concept.Full := by
  have inner : Ensures (nested .xor) Draft.Concept.Full := Ensures.rule .xor
  have set : Ensures (nested .individualSet) (· ≠ []) := Ensures.rule .individualSet
  refine .choice (Ensures.before (inner.spaced (.any _) fun _ _ full _ => full)) <|
    .choice (.map ?_) <| .choice (.map ?_) <| .choice (.map ?_) (.map ?_)
  · exact fun call sound c ns c' found => .nominal (set call sound c ns c' found)
  · exact fun _ _ _ _ _ _ => .var
  · exact fun _ _ _ _ _ _ => .anaphora
  · exact fun _ _ _ _ _ _ => .atom

theorem unary_ensures : Ensures unary Draft.Concept.Full :=
  .choice (.rule .negation) (.choice (.rule .restriction) primary_ensures)

theorem declaration_ensures : Ensures declaration Draft.Statement.Full :=
  .before <| .choice (.rule .definition) <| .choice (.rule .relationDeclaration) <|
    .choice (.rule .conceptDeclaration) (.rule .individualDeclaration)

theorem statement_ensures : Ensures statement Draft.Statement.Full := by
  refine .choice declaration_ensures <| .choice (.rule .containingFormula) <|
    .choice (.rule .comparisonFormula) (.map ?_)
  have inner : Ensures (nested .xor) Draft.Concept.Full := Ensures.rule .xor
  exact fun call sound c d c' found => .concept (inner call sound c d c' found)

theorem sign_ensures {word : List Char} (known : String.ofList word ∈ comparators) :
    Ensures (sign word) (· ∈ comparators) :=
  .map fun _ _ _ _ _ _ => known

/-- What a rule reads is sound if what the rules in its pattern read is. -/
theorem body_ensures (r : Rule) : Ensures (body r) r.Holds := by
  have inner : Ensures (nested .xor) Draft.Concept.Full := Ensures.rule .xor
  have tuple : Ensures (nested .conceptTuple) fun ds => ds ≠ [] ∧ ∀ d ∈ ds, d.Full :=
    Ensures.rule .conceptTuple
  have mapping : Ensures (nested .mappingFormula) fun m => m.1.Full ∧ m.2.Full :=
    Ensures.rule .mappingFormula
  have comparator : Ensures (nested .comparator) (· ∈ comparators) := Ensures.rule .comparator
  cases r with
  | program =>
    have optional : Ensures (opt statement) fun d => ∀ e ∈ d, e.Full := by
      refine .choice (.map fun call sound c d c' found => ?_) (.pure nofun)
      rintro _ ⟨⟩
      exact statement_ensures call sound c d c' found
    refine .before (optional.spaced ((Ensures.before optional).many.spaced (.any _)
      fun ds _ all _ => all) fun d ds first others e member => ?_)
    obtain ⟨o, here, same⟩ := List.mem_filterMap.mp member
    exact List.forall_mem_cons.mpr ⟨first, others⟩ o here e same
  | definition => exact (Ensures.any _).spaced (Ensures.before inner) fun _ _ _ => .define
  | relationDeclaration =>
    exact (Ensures.any _).spaced (Ensures.before mapping) fun _ _ _ full => .declareRelation full.1 full.2
  | conceptDeclaration =>
    exact (Ensures.any _).spaced (Ensures.before tuple) fun _ _ _ full => .declareConcept full.1 full.2
  | individualDeclaration =>
    exact (Ensures.any _).spaced (Ensures.before tuple) fun _ _ _ full => .declareIndividual full.1 full.2
  | conceptTuple =>
    exact inner.spaced (Ensures.before inner).many fun d ds first others =>
      ⟨List.cons_ne_nil _ _, List.forall_mem_cons.mpr ⟨first, others⟩⟩
  | mappingFormula => exact inner.spaced (Ensures.before inner) fun _ _ => And.intro
  | containingFormula =>
    exact (Ensures.any _).spaced (Ensures.before (Ensures.before inner)) fun _ _ _ => .membership
  | comparisonFormula =>
    have link : Ensures (spaced Prod.mk (nested .comparator) (nested .xor))
        fun link => link.1 ∈ comparators ∧ link.2.Full := comparator.spaced inner fun _ _ => And.intro
    have links : Ensures (spaced Prod.mk (spaced Prod.mk (nested .comparator) (nested .xor))
        (many (spaced Prod.mk (nested .comparator) (nested .xor))))
        fun links => ∀ link ∈ links.1 :: links.2, link.1 ∈ comparators ∧ link.2.Full :=
      link.spaced link.many fun _ _ first others => List.forall_mem_cons.mpr ⟨first, others⟩
    refine inner.spaced links fun d links first all => ?_
    exact .comparison first (List.cons_ne_nil _ _) (fun link member => (all link member).1)
      fun link member => (all link member).2
  | comparator =>
    exact .choice (sign_ensures (by decide)) <| .choice (sign_ensures (by decide)) <|
      .choice (sign_ensures (by decide)) <| .choice (sign_ensures (by decide)) <|
      .choice (sign_ensures (by decide)) (sign_ensures (by decide))
  | xor => exact chain_ensures (.rule .or)
  | or => exact chain_ensures (.rule .and)
  | and => exact chain_ensures unary_ensures
  | negation =>
    exact .before (.map fun call sound c d c' found => .negation (unary_ensures call sound c d c' found))
  | restriction =>
    exact (Ensures.any _).spaced ((Ensures.any _).spaced (Ensures.before unary_ensures)
      fun _ _ _ full => full) fun _ _ _ => .restriction
  | individualSet =>
    exact .before ((Ensures.any _).spaced (.any _) fun _ _ _ _ => List.cons_ne_nil _ _)
  | _ => exact .any _

theorem scanWhole_holds {r : Rule} {c c' : Cursor} {a : r.Value}
    (found : scanWhole body Rule.rank 10 r c = some (a, c')) : r.Holds a := by
  have within : ∀ fuel r c a c', scanRule body fuel r c = some (a, c') → r.Holds a := by
    intro fuel
    induction fuel with
    | zero => nofun
    | succ fuel ih => exact fun r => body_ensures r (scanRule body fuel) ih
  exact within _ r c a c' found

end Grammar

end ConceptLogic
