import ConceptLogic.Proofs.Evaluation.AccordingStates
import ConceptLogic.Proofs.Evaluation.RenamedEvaluation

namespace ConceptLogic

section Extending

variable {α : Type} {P : α → Bool} {f : α → α}

/-- Does something to some things and leaves the others alone. -/
def applyWhere (P : α → Bool) (f : α → α) (a : α) : α := if P a then f a else a

theorem applyWhere_eq {a : α} (applies : P a = true) : applyWhere P f a = f a := if_pos applies

theorem applyWhere_other {a : α} (other : P a = false) : applyWhere P f a = a := by
  rw [applyWhere, other]
  rfl

theorem applyWhere_injective (into : ∀ a, P a = true → P (f a) = true)
    (apart : ∀ a b, P a = true → P b = true → f a = f b → a = b) : Function.Injective (applyWhere P f) := by
  intro a b same
  cases left : P a with
  | true =>
    rw [applyWhere_eq left] at same
    cases right : P b with
    | true =>
      rw [applyWhere_eq right] at same
      exact apart a b left right same
    | false =>
      rw [applyWhere_other right] at same
      rw [← same, into a left] at right
      cases right
  | false =>
    rw [applyWhere_other left] at same
    cases right : P b with
    | true =>
      rw [applyWhere_eq right] at same
      rw [same, into b right] at left
      cases left
    | false => rwa [applyWhere_other right] at same

end Extending

namespace Vocabulary

variable (v : Vocabulary)

/-- Whether a name is admitted in some role. -/
def admits (name : String) : Bool :=
  [Role.concept, .individual, .relation].any fun role =>
    !v.isReserved (unsigiled name) && conforms name role

/-- Whether variables may have a base. -/
def admitsBase (base : String) : Bool :=
  !v.isReserved (unsigiled base) && conforms base (variableRole base)

variable {v}

theorem admits_iff {name : String} : v.admits name = true ↔ ∃ role, v.vet role name = .ok name := by
  simp only [admits, List.any_eq_true, Bool.and_eq_true, Bool.not_eq_true', vet_eq_ok_iff, true_and]
  refine ⟨fun ⟨role, _, holds⟩ => ⟨role, holds⟩, fun ⟨role, holds⟩ => ⟨role, ?_, holds⟩⟩
  cases role <;> decide

theorem admitsBase_iff {base : String} :
    v.admitsBase base = true ↔ v.vet (variableRole base) base = .ok base := by
  simp only [admitsBase, Bool.and_eq_true, Bool.not_eq_true', vet_eq_ok_iff, true_and]

end Vocabulary

theorem variableRole_cases (base : String) :
    variableRole base = .concept ∨ variableRole base = .individual := by
  unfold variableRole
  split
  · exact .inr rfl
  · split
    · exact .inl rfl
    · exact .inr rfl

/-- What can be the base of a variable in a role makes a variable in that role. -/
theorem variableRole_of_conforms {name base : String} (holds : conforms name (variableRole base) = true) :
    variableRole name = variableRole base := by
  rcases variableRole_cases base with role | role
  · rw [role] at holds ⊢
    exact variableRole_of_concept holds
  · rw [role] at holds ⊢
    exact variableRole_of_individual holds

/-- Other names for what a language admits. Different names get different ones, each admitted in the roles of
the name, and so do the variables. The concept of everything keeps its name, be it a name or a variable. -/
structure Pseudonyms (v : Vocabulary) (top : String) where
  name : String → String
  base : String → String
  vetted : ∀ {role n}, v.vet role n = .ok n → v.vet role (name n) = .ok (name n)
  apart : ∀ {role role' n m}, v.vet role n = .ok n → v.vet role' m = .ok m → name n = name m → n = m
  baseVetted : ∀ {b}, v.vet (variableRole b) b = .ok b → v.vet (variableRole b) (base b) = .ok (base b)
  baseApart : ∀ {b c}, v.vet (variableRole b) b = .ok b → v.vet (variableRole c) c = .ok c → base b = base c →
    b = c
  keepsTop : name top = top
  keepsTopVariable : ∀ b, top = "$" ++ b → base b = b

namespace Pseudonyms

variable {v : Vocabulary} {top : String} (names : Pseudonyms v top)

def totalBase : String → String := applyWhere v.admitsBase names.base

/-- The other name of any name, also of one with the mark of a variable. What is not admitted stays. -/
def totalName (n : String) : String :=
  match n.toList with
  | '$' :: b => "$" ++ names.totalBase (String.ofList b)
  | _ => applyWhere v.admits names.name n

theorem marked_or (n : String) : (∃ b, n = "$" ++ b) ∨ ∀ b, n ≠ "$" ++ b := by
  by_cases marked : ∃ b, n = "$" ++ b
  · exact .inl marked
  · exact .inr fun b same => marked ⟨b, same⟩

theorem unmarked_of_vetted {role : Role} {n : String} (vetted : v.vet role n = .ok n) (b : String) :
    n ≠ "$" ++ b :=
  (Ordinary.of_vetted vetted).2 ⟨b, none⟩

theorem totalName_marked (b : String) : names.totalName ("$" ++ b) = "$" ++ names.totalBase b := by
  have chars : ("$" ++ b).toList = '$' :: b.toList := by simp
  unfold totalName
  rw [chars]
  exact congrArg (fun b => "$" ++ names.totalBase b) String.ofList_toList

theorem totalName_other {n : String} (other : ∀ b, n ≠ "$" ++ b) :
    names.totalName n = applyWhere v.admits names.name n := by
  unfold totalName
  split
  · rename_i b chars
    refine absurd (String.toList_injective ?_) (other (String.ofList b))
    simp [chars]
  · rfl

theorem totalName_vetted {role : Role} {n : String} (vetted : v.vet role n = .ok n) :
    names.totalName n = names.name n := by
  rw [names.totalName_other (unmarked_of_vetted vetted), applyWhere_eq (Vocabulary.admits_iff.mpr ⟨role, vetted⟩)]

theorem totalBase_vetted {b : String} (vetted : v.vet (variableRole b) b = .ok b) :
    names.totalBase b = names.base b :=
  applyWhere_eq (Vocabulary.admitsBase_iff.mpr vetted)

theorem variableRole_base {b : String} (vetted : v.vet (variableRole b) b = .ok b) :
    variableRole (names.base b) = variableRole b :=
  variableRole_of_conforms (Vocabulary.vet_eq_ok_iff.mp (names.baseVetted vetted)).2.2

theorem totalBase_injective : Function.Injective names.totalBase := by
  refine applyWhere_injective (fun b admitted => ?_) fun b c admitted admitted' => ?_
  · have vetted := Vocabulary.admitsBase_iff.mp admitted
    rw [Vocabulary.admitsBase_iff, names.variableRole_base vetted]
    exact names.baseVetted vetted
  · exact names.baseApart (Vocabulary.admitsBase_iff.mp admitted) (Vocabulary.admitsBase_iff.mp admitted')

/-- No name becomes that of a variable. -/
theorem totalName_unmarked {n : String} (other : ∀ b, n ≠ "$" ++ b) (b : String) :
    names.totalName n ≠ "$" ++ b := by
  rw [names.totalName_other other]
  cases admitted : v.admits n with
  | true =>
    obtain ⟨role, vetted⟩ := Vocabulary.admits_iff.mp admitted
    rw [applyWhere_eq admitted]
    exact unmarked_of_vetted (names.vetted vetted) b
  | false =>
    rw [applyWhere_other admitted]
    exact other b

theorem totalName_injective : Function.Injective names.totalName := by
  intro n m same
  rcases marked_or n with ⟨b, rfl⟩ | left
  · rcases marked_or m with ⟨c, rfl⟩ | right
    · rw [totalName_marked, totalName_marked, String.append_right_inj] at same
      rw [names.totalBase_injective same]
    · rw [totalName_marked] at same
      exact absurd same.symm (names.totalName_unmarked right _)
  · rcases marked_or m with ⟨c, rfl⟩ | right
    · rw [totalName_marked names c] at same
      exact absurd same (names.totalName_unmarked left _)
    · rw [names.totalName_other left, names.totalName_other right] at same
      refine applyWhere_injective (fun n admitted => ?_) (fun n m admitted admitted' => ?_) same
      · obtain ⟨role, vetted⟩ := Vocabulary.admits_iff.mp admitted
        exact Vocabulary.admits_iff.mpr ⟨role, names.vetted vetted⟩
      · obtain ⟨role, vetted⟩ := Vocabulary.admits_iff.mp admitted
        obtain ⟨role', vetted'⟩ := Vocabulary.admits_iff.mp admitted'
        exact names.apart vetted vetted'

/-- A name that is not admitted stays. -/
theorem totalName_strange {n : String} (head : n.toList.head? ≠ some '$')
    (strange : ∀ role, conforms n role = false) : names.totalName n = n := by
  have other : ∀ b, n ≠ "$" ++ b := by
    rintro b rfl
    exact head (by simp)
  rw [names.totalName_other other, applyWhere_other]
  refine Bool.eq_false_iff.mpr fun admitted => ?_
  obtain ⟨role, vetted⟩ := Vocabulary.admits_iff.mp admitted
  have holds := (Vocabulary.vet_eq_ok_iff.mp vetted).2.2
  rw [strange role] at holds
  cases holds

/-- The renaming of all names. -/
def total : Renaming where
  name := names.totalName
  base := names.totalBase
  injective := names.totalName_injective
  marked := names.totalName_marked
  role b := by
    cases admitted : v.admitsBase b with
    | true =>
      have vetted := Vocabulary.admitsBase_iff.mp admitted
      rw [names.totalBase_vetted vetted, names.variableRole_base vetted]
    | false => rw [totalBase, applyWhere_other admitted]
  anaphora := names.totalName_strange (by decide) fun role => by cases role <;> decide
  operators := by
    have all : ∀ entry ∈ Environment.operators, entry.1.toList.head? ≠ some '$' ∧
        ∀ role, conforms entry.1 role = false := by
      simp [Environment.operators, Operator.token, conforms, unmarked]
      rintro (_ | _ | _) <;> rfl
    exact fun entry member => names.totalName_strange (all entry member).1 (all entry member).2

theorem total_vetted {role : Role} {n : String} (vetted : v.vet role n = .ok n) :
    v.vet role (names.total.name n) = .ok (names.total.name n) := by
  change v.vet role (names.totalName n) = .ok (names.totalName n)
  rw [names.totalName_vetted vetted]
  exact names.vetted vetted

theorem total_token {token : String} (known : token ∈ Grammar.comparators) :
    names.total.name token = token := by
  have all : ∀ token ∈ Grammar.comparators, ∃ entry ∈ Environment.operators, entry.1 = token := by
    simp [Grammar.comparators, Environment.operators, Operator.token]
  obtain ⟨entry, member, rfl⟩ := all token known
  exact names.total.operators entry member

/-- The concept of everything keeps its name. -/
theorem total_top : names.total.name top = top := by
  change names.totalName top = top
  rcases marked_or top with ⟨b, same⟩ | other
  · have kept : names.totalBase b = b := by
      cases admitted : v.admitsBase b with
      | true => exact (applyWhere_eq admitted).trans (names.keepsTopVariable b same)
      | false => exact applyWhere_other admitted
    calc names.totalName top
      _ = names.totalName ("$" ++ b) := congrArg names.totalName same
      _ = "$" ++ b := by rw [totalName_marked, kept]
      _ = top := same.symm
  · rw [names.totalName_other other]
    cases admitted : v.admits top with
    | true => exact (applyWhere_eq admitted).trans names.keepsTop
    | false => exact applyWhere_other admitted

/-- To begin with, nothing has another name. -/
theorem initial_total : (State.initial top).renamed names.total = .initial top := by
  have operators :
      (Environment.operators.map fun entry => (names.total.name entry.1, entry.2.renamed names.total)) =
        Environment.operators := by
    refine (List.map_congr_left fun entry member => ?_).trans (List.map_id _)
    obtain ⟨op, same⟩ : ∃ op, entry.2 = .operator op := by
      revert entry
      simp [Environment.operators]
    rw [names.total.operators entry member, same]
    exact Prod.ext rfl same.symm
  have memory : ((Environment.initial top).renamed names.total).memory = [] :=
    Environment.memory_renamed names.total _
  have dictionary : ((Environment.initial top).renamed names.total).dictionary =
      (Environment.initial top).dictionary := by
    have assigned := Environment.assign_table_renamed names.total top (.concept Ontology.top) Environment.operators
    rw [names.total_top, operators] at assigned
    rw [Environment.dictionary_renamed]
    exact assigned.symm
  have env : (Environment.initial top).renamed names.total = Environment.initial top := by
    change (⟨((Environment.initial top).renamed names.total).memory,
      ((Environment.initial top).renamed names.total).dictionary⟩ : Environment) = _
    rw [memory, dictionary]
    rfl
  have ontology : (Ontology.initial top).renamed names.total = Ontology.initial top := by
    simp only [Ontology.renamed, Ontology.initial, List.map_toArray, List.map_cons, List.map_nil, Entry.renamed,
      Expression.renamed, names.total_top]
  change (⟨(Environment.initial top).renamed names.total, (Ontology.initial top).renamed names.total⟩ : State) = _
  rw [env, ontology]
  rfl

end Pseudonyms

section Stated

variable {v : Vocabulary} {top : String} (names : Pseudonyms v top) {p : Phrase}

theorem Pseudonyms.variable_vetted {x : Variable} (vetted : Variable.vet v x.base x.type = .ok x) :
    Variable.vet v (x.renamed names.total).base (x.renamed names.total).type = .ok (x.renamed names.total) := by
  obtain ⟨_, baseVetted, typeVetted⟩ := Variable.of_vetted vetted
  obtain ⟨base, type⟩ := x
  have same : names.totalBase base = names.base base := names.totalBase_vetted baseVetted
  have admitted : v.vet (variableRole (names.totalBase base)) (names.totalBase base) =
      .ok (names.totalBase base) := by
    rw [same, names.variableRole_base baseVetted]
    exact names.baseVetted baseVetted
  change Variable.vet v (names.totalBase base) (type.map names.total.name) =
    .ok ⟨names.totalBase base, type.map names.total.name⟩
  unfold Variable.vet
  rw [admitted]
  cases type with
  | none => rfl
  | some type =>
    have typed := names.total_vetted (typeVetted type rfl)
    simp only [Option.map, bind, Except.bind, typed]
    rfl

theorem Phrase.Proper.renamed (proper : p.Proper v) : (p.renamed names.total).Proper v := by
  induction proper with
  | concept vetted => exact .concept (names.total_vetted vetted)
  | nominal inhabited vetted =>
    refine .nominal (mt List.map_eq_nil_iff.mp inhabited) ?_
    exact List.forall_mem_map.mpr fun m member => names.total_vetted (vetted m member)
  | var vetted => exact .var (names.variable_vetted vetted)
  | anaphora => exact .anaphora
  | negation _ ih => exact .negation ih
  | restriction fits vetted _ ih => exact .restriction fits (names.total_vetted vetted) ih
  | @junction kind ps several apart _ ih =>
    rw [Phrase.renamed, Phrase.renamedAll_eq_map]
    refine .junction (by rwa [List.length_map]) ?_ (List.forall_mem_map.mpr ih)
    refine List.forall_mem_map.mpr fun q member => ?_
    rw [Phrase.spliced_renamed, apart q member]
    rfl

theorem Phrase.Subject.renamed (subject : p.Subject v) : (p.renamed names.total).Subject v := by
  cases subject with
  | individual vetted => exact .individual (names.total_vetted vetted)
  | var vetted => exact .var (names.variable_vetted vetted)
  | anaphora => exact .anaphora

/-- A statement under other names is one that a text can yield. -/
theorem Phrase.Stated.renamed (stated : p.Stated v) : (p.renamed names.total).Stated v := by
  cases stated with
  | concept proper => exact .concept (proper.renamed names)
  | define vetted body => exact .define (names.total_vetted vetted) (body.renamed names)
  | declareRelation vetted domain range =>
    exact .declareRelation (names.total_vetted vetted) (domain.renamed names) (range.renamed names)
  | declareConcept vetted inhabited parts =>
    rw [Phrase.renamed, Phrase.renamedAll_eq_map]
    exact .declareConcept (names.total_vetted vetted) (mt List.map_eq_nil_iff.mp inhabited)
      (List.forall_mem_map.mpr fun q member => (parts q member).renamed names)
  | declareIndividual vetted inhabited parts =>
    rw [Phrase.renamed, Phrase.renamedAll_eq_map]
    exact .declareIndividual (names.total_vetted vetted) (mt List.map_eq_nil_iff.mp inhabited)
      (List.forall_mem_map.mpr fun q member => (parts q member).renamed names)
  | membership subject concept => exact .membership (subject.renamed names) (concept.renamed names)
  | @comparison q links first inhabited known operands =>
    have compared : (Phrase.compare q links).renamed names.total =
        .compare (q.renamed names.total) (links.map fun link => (link.1, link.2.renamed names.total)) := by
      have signs : (links.map Prod.fst).map names.total.name = links.map Prod.fst := by
        rw [List.map_map]
        exact List.map_congr_left fun link member => names.total_token (known link member)
      simp only [Phrase.compare, Phrase.renamed, Phrase.renamedAll_eq_map, signs, List.map_cons, List.map_map]
      rfl
    rw [compared]
    refine .comparison (first.renamed names) (mt List.map_eq_nil_iff.mp inhabited) ?_ ?_
    · exact List.forall_mem_map.mpr known
    · exact List.forall_mem_map.mpr fun link member => (operands link member).renamed names

end Stated

end ConceptLogic
