import ConceptLogic.Evaluation.Operator
import ConceptLogic.Proofs.Evaluation.CheckedResults
import ConceptLogic.Proofs.Evaluation.EffectOutcomes
import ConceptLogic.Proofs.Ontology.NamedThings
import ConceptLogic.Proofs.Reasoning.Distribution
import ConceptLogic.Proofs.Reasoning.Interpretation
import Mathlib.Algebra.Group.Nat.Even

namespace ConceptLogic

universe u

variable {α : Type u}

/-- What a connective makes of the meanings of its operands. -/
noncomputable def Connective.meaning (kind : Connective) (parts : List (Set α)) : Set α :=
  open Classical in
  match kind with
  | .and => {a | ∀ S ∈ parts, a ∈ S}
  | .or => {a | ∃ S ∈ parts, a ∈ S}
  | .xor => {a | Odd (parts.countP fun S => decide (a ∈ S))}

/-- Two operands may be joined before the others are: one of them without the other. -/
theorem meaning_either (S T : Set α) (parts : List (Set α)) :
    Connective.xor.meaning (Connective.or.meaning
      [Connective.and.meaning [S, Tᶜ], Connective.and.meaning [Sᶜ, T]] :: parts) =
        Connective.xor.meaning (S :: T :: parts) := by
  ext a
  simp only [Connective.meaning, Set.mem_ofPred_eq, List.countP_cons, decide_eq_true_eq]
  by_cases inS : a ∈ S
  · by_cases inT : a ∈ T
    · simp [inS, inT, Nat.odd_add]
    · simp [inS, inT]
  · by_cases inT : a ∈ T
    · simp [inS, inT]
    · simp [inS, inT]

/-- A concept means the same when more is known. -/
theorem Interpretation.extent_persists (I : Interpretation α) {o o' : Ontology} (wf : o.WellFormed)
    (wf' : o'.WellFormed) (within : o.Within o') {c : ConceptId} (known : o.Knows (.concept c)) :
    I.extent o' c = I.extent o c := by
  obtain ⟨e, found⟩ := known
  rw [extent_eq wf' (within.expression? found), extent_eq wf found]
  exact meaning_congr fun x part =>
    have _older : x.id < c.id := wf.older found _ part
    I.extent_persists wf wf' within (wf.parts_known found _ part)
termination_by c.id

/-- Whether a known concept means the same as something else, in every interpretation. -/
def Ontology.Depicts (o : Ontology) (c : ConceptId) (S : Interpretation α → Set α) : Prop :=
  o.Knows (.concept c) ∧ ∀ I, I.extent o c = S I

theorem Ontology.Depicts.lasts {o o' : Ontology} (kept : o.Kept) (adds : o.Extends o')
    {c : ConceptId} {S : Interpretation α → Set α} (depicts : o.Depicts c S) : o'.Depicts c S := by
  refine ⟨adds.annexes.within.knows depicts.1, fun I => ?_⟩
  rw [← depicts.2 I]
  exact I.extent_persists kept.wellFormed (adds.kept kept).wellFormed adds.annexes.within depicts.1

theorem Building.Yields.keeps {β : Type} {x : Building β} {o o' : Ontology} {p : Prop} {b : β}
    {R : Ontology → Ontology → Prop} [Std.Refl R] {Q : β → Ontology → Prop} (yields : x.Yields o p b o')
    (done : p → R o o' ∧ Q b o') : Moves R x o Q := by
  unfold Moves Settles
  split
  · rename_i run
    obtain ⟨holds, rfl, rfl⟩ := yields.of_ok run
    exact done holds
  · rename_i run
    rw [(yields.of_error run).2]
    exact Std.Refl.refl o

namespace Ontology.Kept

variable {o : Ontology} (kept : o.Kept)
include kept

omit kept in
/-- Keeping an expression that can be written adds no more than one anonymous concept. -/
theorem extends_keeping {e : Expression} (anonymous : e.Anonymous) (known : ∀ x ∈ e.parts, o.Knows x)
    (normal : e.Normal o) (writable : e.Writable) : o.Extends (o.keeping e) :=
  ⟨annexes_keeping o anonymous, fun kept => kept.keeping known normal writable⟩

theorem negation_keeps {c : ConceptId} {S : Interpretation α → Set α} (depicts : o.Depicts c S) :
    Moves Extends (Building.negation c) o fun d o' => o'.Depicts d fun I => (S I)ᶜ := by
  refine (Building.negation_yields c).keeps fun known => ?_
  split
  · rename_i x negated
    refine ⟨Std.Refl.refl o, kept.wellFormed.negated_known negated, fun I => ?_⟩
    have meaning := depicts.2 I
    rw [Interpretation.extent_eq kept.wellFormed negated] at meaning
    exact (compl_compl _).symm.trans (congrArg compl meaning)
  · rename_i other
    have part : ∀ x ∈ (Expression.negation c).parts, o.Knows x := List.forall_mem_singleton.mpr known
    have adds := extends_keeping (e := .negation c) nofun part (fun y => other y) trivial
    have made := o.keeping_expression? (.negation c)
    refine ⟨adds, ⟨_, made⟩, fun I => ?_⟩
    rw [Interpretation.extent_eq (adds.kept kept).wellFormed made]
    exact congrArg compl ((depicts.lasts kept adds).2 I)

theorem nominal_keeps {is : List IndividualId} (inhabited : is ≠ [])
    (known : ∀ i ∈ is, o.Knows (.individual i)) :
    Moves Extends (Building.nominal is) o fun d o' =>
      o'.Depicts d fun I : Interpretation α => {a | ∃ i ∈ is, I.individual i = a} := by
  refine (Building.nominal_yields is).keeps fun _ => ?_
  obtain ⟨i, member⟩ := List.exists_mem_of_ne_nil is inhabited
  have writable : (Expression.nominal (Handle.sorted is)).Writable :=
    List.ne_nil_of_mem (Handle.mem_sorted.mpr member)
  have part : ∀ x ∈ (Expression.nominal (Handle.sorted is)).parts, o.Knows x :=
    List.forall_mem_map.mpr fun i member => known i (Handle.mem_sorted.mp member)
  have adds := extends_keeping (e := .nominal (Handle.sorted is)) nofun part
    (Handle.sorted_increasing is) writable
  have made := o.keeping_expression? (.nominal (Handle.sorted is))
  refine ⟨adds, ⟨_, made⟩, fun I => ?_⟩
  rw [Interpretation.extent_eq (adds.kept kept).wellFormed made]
  simp only [Interpretation.meaning, Handle.mem_sorted]

theorem restriction_keeps {q : Quantifier} {r : RelationId} {c : ConceptId}
    {S : Interpretation α → Set α} (fits : q.Fits) (relation : o.Knows (.relation r))
    (depicts : o.Depicts c S) :
    Moves Extends (Building.restriction q r c) o fun d o' =>
      o'.Depicts d fun I => {a | q.Holds {b | I.relation r a b} (S I)} := by
  refine (Building.restriction_yields q r c).keeps fun _ => ?_
  have part : ∀ x ∈ (Expression.restriction q r c).parts, o.Knows x :=
    List.forall_mem_cons.mpr ⟨relation, List.forall_mem_singleton.mpr depicts.1⟩
  have adds := extends_keeping (e := .restriction q r c) nofun part trivial fits
  have made := o.keeping_expression? (.restriction q r c)
  refine ⟨adds, ⟨_, made⟩, fun I => ?_⟩
  rw [Interpretation.extent_eq (adds.kept kept).wellFormed made, Interpretation.meaning,
    (depicts.lasts kept adds).2 I]

end Ontology.Kept

namespace Connects

variable {operands? : Expression → Option (List ConceptId)} {make : List ConceptId → Expression}
  {o : Ontology} {cs : List ConceptId}

/-- What is made of concepts has no name and can be written. -/
theorem made (connects : Connects operands? make) (filled : cs ≠ []) :
    (make cs).Anonymous ∧ (make cs).Writable := by
  obtain ⟨c, cs, rfl⟩ := List.exists_cons_of_ne_nil filled
  have parts := connects.parts (c :: cs)
  cases whole : make (c :: cs) with
  | conjunction => exact ⟨nofun, trivial⟩
  | disjunction => exact ⟨nofun, trivial⟩
  | negation => exact ⟨nofun, trivial⟩
  | named =>
    rw [whole] at parts
    cases parts
  | nominal is =>
    rw [whole] at parts
    cases is <;> cases parts
  | restriction =>
    rw [whole] at parts
    cases parts

/-- Joining known concepts makes a concept whose parts are all of theirs. -/
theorem keeps (connects : Connects operands? make) (kept : o.Kept)
    (known : ∀ c ∈ cs, o.Knows (.concept c)) :
    Moves Ontology.Extends (Building.connect operands? make cs) o fun w o' =>
      o'.Knows (.concept w) ∧ o'.partsUnder operands? w = o.joined operands? cs := by
  refine (Building.connect_yields operands? make cs).keeps fun ⟨_, filled⟩ => ?_
  have apart := fun x => connects.joined_known kept.wellFormed known (x := x)
  have increasing : (o.joined operands? cs).Pairwise (·.id < ·.id) := Handle.sorted_increasing _
  revert filled apart increasing
  match o.joined operands? cs with
  | [] => exact fun filled => absurd rfl filled
  | [c] =>
    intro _ apart _
    obtain ⟨knownC, other⟩ := apart c (List.mem_singleton.mpr rfl)
    exact ⟨Std.Refl.refl o, knownC, connects.partsUnder_other knownC other⟩
  | c :: d :: rest =>
    intro filled apart increasing
    obtain ⟨anonymous, writable⟩ := connects.made filled
    have part : ∀ x ∈ (make (c :: d :: rest)).parts, o.Knows x := by
      rw [connects.parts]
      exact List.forall_mem_map.mpr fun x member => (apart x member).1
    have normal : (make (c :: d :: rest)).Normal o :=
      (connects.normal o _).mpr ⟨Nat.le_add_left 2 _, increasing, fun x member => (apart x member).2⟩
    have found := o.keeping_expression? (make (c :: d :: rest))
    exact ⟨Ontology.Kept.extends_keeping anonymous part normal writable, ⟨_, found⟩,
      connects.partsUnder_made found⟩

/-- What holds of concepts joined exactly if it holds of each of them holds of what the work makes
of concepts exactly if it holds of them. -/
theorem keeps_forall {β : Type u} (connects : Connects operands? make) (kept : o.Kept)
    (known : ∀ c ∈ cs, o.Knows (.concept c)) {P : β → Ontology → ConceptId → Prop}
    (law : ∀ b o', o.Extends o' → ∀ c, o'.Knows (.concept c) → ∀ xs,
      o'.expression? c = some (make xs) → (P b o' c ↔ ∀ x ∈ xs, P b o' x)) :
    Moves Ontology.Extends (Building.connect operands? make cs) o fun w o' =>
      o'.Knows (.concept w) ∧ ∀ b, P b o' w ↔ ∀ c ∈ cs, P b o' c := by
  refine (connects.keeps kept known).mono fun w o' adds ⟨knownW, parts⟩ => ⟨knownW, fun b => ?_⟩
  exact forall_parts_iff adds.annexes.within known knownW parts fun c knownC =>
    connects.forall_partsUnder_iff knownC (law b o' adds c knownC)

end Connects

namespace Ontology

variable {o : Ontology} {cs : List ConceptId} {Ss : List (Interpretation α → Set α)}

theorem known_of_depicts (depict : List.Forall₂ o.Depicts cs Ss) : ∀ c ∈ cs, o.Knows (.concept c) := by
  intro c member
  obtain ⟨S, _, depicts⟩ := exists_of_forall₂ depict.flip member
  exact depicts.1

theorem extents_of_depicts (depict : List.Forall₂ o.Depicts cs Ss) (I : Interpretation α) :
    cs.map (I.extent o) = Ss.map (· I) := by
  induction depict with
  | nil => rfl
  | cons first _ ih => rw [List.map_cons, List.map_cons, first.2 I, ih]

namespace Kept

variable (kept : o.Kept)
include kept

theorem conjunction_keeps (depict : List.Forall₂ o.Depicts cs Ss) :
    Moves Extends (Building.conjunction cs) o fun w o' =>
      o'.Depicts w fun I => Connective.and.meaning (Ss.map (· I)) := by
  have law : ∀ (b : Interpretation α × α) (o' : Ontology), o.Extends o' → ∀ c, o'.Knows (.concept c) →
      ∀ xs, o'.expression? c = some (.conjunction xs) →
        (b.2 ∈ b.1.extent o' c ↔ ∀ x ∈ xs, b.2 ∈ b.1.extent o' x) := by
    intro b o' adds c _ xs found
    rw [Interpretation.extent_eq (adds.kept kept).wellFormed found]
    rfl
  refine (connects_conjunction.keeps_forall kept (known_of_depicts depict) law).mono fun w o' adds both => ?_
  obtain ⟨known, all⟩ := both
  refine ⟨known, fun I => ?_⟩
  have lasting := depict.imp fun _ _ depicts => depicts.lasts kept adds
  dsimp only
  rw [← extents_of_depicts lasting I]
  refine Set.ext fun a => (all (I, a)).trans ?_
  simp [Connective.meaning]

theorem disjunction_keeps (depict : List.Forall₂ o.Depicts cs Ss) :
    Moves Extends (Building.disjunction cs) o fun w o' =>
      o'.Depicts w fun I => Connective.or.meaning (Ss.map (· I)) := by
  -- What lies outside of a disjunction lies outside of all its parts, however they are spliced.
  have law : ∀ (b : Interpretation α × α) (o' : Ontology), o.Extends o' → ∀ c, o'.Knows (.concept c) →
      ∀ xs, o'.expression? c = some (.disjunction xs) →
        (b.2 ∉ b.1.extent o' c ↔ ∀ x ∈ xs, b.2 ∉ b.1.extent o' x) := by
    intro b o' adds c _ xs found
    rw [Interpretation.extent_eq (adds.kept kept).wellFormed found]
    simp [Interpretation.meaning]
  refine (connects_disjunction.keeps_forall kept (known_of_depicts depict) law).mono fun w o' adds both => ?_
  obtain ⟨known, outside⟩ := both
  refine ⟨known, fun I => ?_⟩
  have lasting := depict.imp fun _ _ depicts => depicts.lasts kept adds
  dsimp only
  rw [← extents_of_depicts lasting I]
  refine Set.ext fun a => not_iff_not.mp ((outside (I, a)).trans ?_)
  simp [Connective.meaning]

/-- Exclusive disjunction of two concepts. -/
theorem either_keeps {c d : ConceptId} {S T : Interpretation α → Set α} (left : o.Depicts c S)
    (right : o.Depicts d T) :
    Moves Extends (Operator.either c d) o fun w o' => o'.Depicts w fun I =>
      Connective.or.meaning [Connective.and.meaning [S I, (T I)ᶜ], Connective.and.meaning [(S I)ᶜ, T I]] := by
  refine (kept.negation_keeps right).bind fun notD o₁ toFirst atNotD => ?_
  have kept₁ := toFirst.kept kept
  refine (kept₁.negation_keeps (left.lasts kept toFirst)).bind fun notC o₂ toSecond atNotC => ?_
  have kept₂ := toSecond.kept kept₁
  have left₂ := (left.lasts kept toFirst).lasts kept₁ toSecond
  have right₂ := (right.lasts kept toFirst).lasts kept₁ toSecond
  have notD₂ := atNotD.lasts kept₁ toSecond
  refine (kept₂.conjunction_keeps (.cons left₂ (.cons notD₂ .nil))).bind fun l o₃ toThird atL => ?_
  have kept₃ := toThird.kept kept₂
  have notC₃ := atNotC.lasts kept₂ toThird
  have right₃ := right₂.lasts kept₂ toThird
  refine (kept₃.conjunction_keeps (.cons notC₃ (.cons right₃ .nil))).bind fun r o₄ toFourth atR => ?_
  exact (toFourth.kept kept₃).disjunction_keeps (.cons (atL.lasts kept₃ toFourth) (.cons atR .nil))

/-- A chain of exclusive disjunctions, folded from the left. -/
theorem foldlM_either_keeps {c : ConceptId} {S : Interpretation α → Set α} (first : o.Depicts c S)
    (others : List.Forall₂ o.Depicts cs Ss) :
    Moves Extends (cs.foldlM Operator.either c) o fun w o' =>
      o'.Depicts w fun I => Connective.xor.meaning (S I :: Ss.map (· I)) := by
  induction cs generalizing o c S Ss with
  | nil =>
    cases others
    refine Moves.pure ⟨first.1, fun I => ?_⟩
    rw [first.2 I]
    ext a
    by_cases member : a ∈ S I <;> simp [Connective.meaning, member]
  | cons d cs ih =>
    cases others with
    | @cons _ T _ Ts second others =>
      rw [List.foldlM_cons]
      refine (kept.either_keeps first second).bind fun e o' adds joined => ?_
      have others' := others.imp fun _ _ depicts => depicts.lasts kept adds
      refine (ih (adds.kept kept) joined others').mono fun w o'' _ depicts => ?_
      refine ⟨depicts.1, fun I => (depicts.2 I).trans ?_⟩
      exact meaning_either (S I) (T I) _

end Kept

end Ontology

end ConceptLogic
