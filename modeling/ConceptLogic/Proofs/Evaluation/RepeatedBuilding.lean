import ConceptLogic.Proofs.Ontology.RebuiltConcepts
import ConceptLogic.Proofs.Reasoning.TwinQueries

namespace ConceptLogic

open Evaluation

/-- Whether work does again what other work did. If that succeeds, so does this, with a related result,
and this changes nothing if all that the other work left was there before. -/
def Repeats {ε σ α β : Type} (R : σ → σ → Prop) (x : EStateM ε σ α) (s : σ) (y : EStateM ε σ β) (t : σ)
    (Q : α → σ → β → σ → Prop) : Prop :=
  ∀ a s', x.run s = .ok a s' → R s s' ∧
    ∃ b t', y.run t = .ok b t' ∧ R t t' ∧ (R s' t → t' = t) ∧ Q a s' b t'

namespace Repeats

variable {ε σ α β γ δ : Type} {R : σ → σ → Prop} {x : EStateM ε σ α} {y : EStateM ε σ β} {s t : σ}
  {Q : α → σ → β → σ → Prop}

theorem mono {Q' : α → σ → β → σ → Prop} (repeats : Repeats R x s y t Q)
    (weaker : ∀ a s' b t', R s s' → R t t' → Q a s' b t' → Q' a s' b t') : Repeats R x s y t Q' := by
  intro a s' run
  obtain ⟨related, b, t', run', related', same, holds⟩ := repeats a s' run
  exact ⟨related, b, t', run', related', same, weaker a s' b t' related related' holds⟩

theorem congr {x' : EStateM ε σ α} {y' : EStateM ε σ β} (repeats : Repeats R x s y t Q)
    (same : x'.run s = x.run s) (same' : y'.run t = y.run t) : Repeats R x' s y' t Q := by
  unfold Repeats
  rw [same, same']
  exact repeats

theorem pure [Std.Refl R] {a : α} {b : β} (holds : Q a s b t) :
    Repeats R (Pure.pure a : EStateM ε σ α) s (Pure.pure b : EStateM ε σ β) t Q := by
  rintro _ _ ⟨⟩
  exact ⟨Std.Refl.refl s, b, t, rfl, Std.Refl.refl t, fun _ => rfl, holds⟩

theorem bind [IsTrans σ R] {f : α → EStateM ε σ γ} {g : β → EStateM ε σ δ} {Q' : γ → σ → δ → σ → Prop}
    (first : Repeats R x s y t Q)
    (next : ∀ a s' b t', R s s' → R t t' → Q a s' b t' → Repeats R (f a) s' (g b) t' Q') :
    Repeats R (x >>= f) s (y >>= g) t Q' := by
  intro c s'' run
  obtain ⟨a, s', outcome, rest⟩ := run_eq_ok_of_bind.mp run
  obtain ⟨related, b, t', run', related', same, holds⟩ := first a s' outcome
  obtain ⟨further, d, t'', run'', further', same', holds'⟩ := next a s' b t' related related' holds c s'' rest
  refine ⟨IsTrans.trans s s' s'' related further, d, t'', run_eq_ok_of_bind.mpr ⟨b, t', run', run''⟩,
    IsTrans.trans t t' t'' related' further', fun back => ?_, holds'⟩
  cases same (IsTrans.trans s' s'' t further back)
  exact same' back

end Repeats

theorem Building.Yields.repeats {α β : Type} {x : Building α} {y : Building β} {o o' u u' : Ontology}
    {p q : Prop} {a : α} {b : β} {P : α → Ontology → Prop} {P' : β → Ontology → Prop}
    {Q : α → Ontology → β → Ontology → Prop} (first : x.Yields o p a o') (second : y.Yields u q b u')
    (moves : p → Moves Ontology.Extends x o P) (moves' : q → Moves Ontology.Extends y u P')
    (again : p → q ∧ (o.Extends o' → u.Extends u' → (o'.Extends u → u' = u) ∧ Q a o' b u')) :
    Repeats Ontology.Extends x o y u Q := by
  intro a o' run
  obtain ⟨holds, rfl, rfl⟩ := first.of_ok run
  obtain ⟨holds', rest⟩ := again holds
  have run' := second.1 holds'
  have adds := (Settles.ok (moves holds) run).1
  have adds' := (Settles.ok (moves' holds') run').1
  exact ⟨adds, b, u', run', adds', rest adds adds'⟩

theorem Building.plain_negation_yields {o : Ontology} {c : ConceptId}
    (plain : ∀ x, o.expression? c ≠ some (.negation x)) : (negation c).Yields o (o.Knows (.concept c))
      (o.keptAs (.negation c)) (o.keeping (.negation c)) := by
  have yields := negation_yields (o := o) c
  split at yields
  · exact absurd ‹_› (plain _)
  · exact yields

namespace Ontology

variable {base o u : Ontology} {c d : ConceptId} {cs ds : List ConceptId} {e f : Expression}

/-- How a connective makes twins. -/
def Pairs (make : List ConceptId → Expression) : Prop :=
  ∀ {R : ConceptId → ConceptId → Prop} {cs e}, (make cs).Twin R e ↔ ∃ ds, e = make ds ∧ Matched R cs ds

theorem pairs_conjunction : Pairs .conjunction :=
  ⟨Expression.Twin.of_conjunction, by rintro ⟨ds, rfl, matched⟩; exact matched⟩

theorem pairs_disjunction : Pairs .disjunction :=
  ⟨Expression.Twin.of_disjunction, by rintro ⟨ds, rfl, matched⟩; exact matched⟩

namespace Fork

variable (fork : base.Fork o u)
include fork

/-- What is kept of twins is twins, and it is there already if all is there. -/
theorem keeping (twin : e.Twin (base.Twins o u) f) (known : ∀ x ∈ e.parts, o.Knows x) (normal : e.Normal o)
    (normal' : f.Normal u) (adds : o.Extends (o.keeping e)) (adds' : u.Extends (u.keeping f)) :
    ((o.keeping e).Extends u → u.keeping f = u) ∧
      base.Twins (o.keeping e) (u.keeping f) (o.keptAs e) (u.keptAs f) := by
  have made := o.keeping_expression? e
  have made' := u.keeping_expression? f
  have twin' : e.Twin (base.Twins (o.keeping e) (u.keeping f)) f :=
    twin.mono fun _ _ _ twins => twins.mono adds.annexes.within adds'.annexes.within
  refine ⟨fun back => ?_, .of_made made made' twin'⟩
  have within := adds.annexes.within.trans back.annexes.within
  have own : e.Twin (base.Twins o u) e := .refl twin.anonymous fun x part =>
    .refl fork.leftKept.wellFormed within fork.left.annexes.old_of_named (known _ part)
  have functional : ∀ x, .concept x ∈ e.parts → ∀ y z, base.Twins o u x y → base.Twins o u x z → y = z :=
    fun _ _ _ _ => fork.unique
  cases twin.unique functional own normal' normal
  exact (Ontology.found_again fork.rightKept.distinct (back.annexes.within.expression? made)).2

theorem negation_repeats (twins : base.Twins o u c d) :
    Repeats Extends (Building.negation c) o (Building.negation d) u fun a o' b u' => base.Twins o' u' a b := by
  have known := fork.known twins
  have known' := fork.symm.known twins.symm
  have moves := fork.leftKept.negation_keeps (α := Unit) ⟨known, fun _ => rfl⟩
  have moves' := fork.rightKept.negation_keeps (α := Unit) ⟨known', fun _ => rfl⟩
  by_cases negated : ∃ x, o.expression? c = some (.negation x)
  · obtain ⟨x, made⟩ := negated
    obtain ⟨y, made', twins'⟩ := fork.negation twins made
    have yields := Building.negation_yields (o := o) c
    have yields' := Building.negation_yields (o := u) d
    rw [made] at yields
    rw [made'] at yields'
    exact yields.repeats yields' (fun _ => moves) (fun _ => moves') fun _ =>
      ⟨known', fun _ _ => ⟨fun _ => rfl, twins'⟩⟩
  · have plain : ∀ x, o.expression? c ≠ some (.negation x) := fun x made => negated ⟨x, made⟩
    have plain' : ∀ y, u.expression? d ≠ some (.negation y) := by
      intro y made
      obtain ⟨x, made', _⟩ := fork.symm.negation twins.symm made
      exact plain x made'
    refine (Building.plain_negation_yields plain).repeats (Building.plain_negation_yields plain')
      (fun _ => moves) (fun _ => moves') fun _ => ⟨known', fun adds adds' => ?_⟩
    exact fork.keeping (e := .negation c) (f := .negation d) twins
      (List.forall_mem_singleton.mpr known) plain plain' adds adds'

theorem nominal_repeats {is : List IndividualId} (inhabited : is ≠ [])
    (known : ∀ i ∈ is, base.Knows (.individual i)) :
    Repeats Extends (Building.nominal is) o (Building.nominal is) u fun a o' b u' => base.Twins o' u' a b := by
  have left : ∀ i ∈ is, o.Knows (.individual i) := fun i member =>
    fork.left.annexes.within.knows (known i member)
  have right : ∀ i ∈ is, u.Knows (.individual i) := fun i member =>
    fork.right.annexes.within.knows (known i member)
  refine (Building.nominal_yields is).repeats (Building.nominal_yields is)
    (fun _ => fork.leftKept.nominal_keeps (α := Unit) inhabited left)
    (fun _ => fork.rightKept.nominal_keeps (α := Unit) inhabited right) fun _ => ⟨right, fun adds adds' => ?_⟩
  refine fork.keeping (e := .nominal (Handle.sorted is)) rfl (fun x part => ?_) (Handle.sorted_increasing is)
    (Handle.sorted_increasing is) adds adds'
  obtain ⟨i, member, rfl⟩ := List.mem_map.mp part
  exact left i (Handle.mem_sorted.mp member)

theorem restriction_repeats {q : Quantifier} {r : RelationId} (fits : q.Fits) (known : base.Knows (.relation r))
    (twins : base.Twins o u c d) :
    Repeats Extends (Building.restriction q r c) o (Building.restriction q r d) u fun a o' b u' =>
      base.Twins o' u' a b := by
  have left : o.Knows (.relation r) := fork.left.annexes.within.knows known
  have right : u.Knows (.relation r) := fork.right.annexes.within.knows known
  have concept := fork.known twins
  have concept' := fork.symm.known twins.symm
  refine (Building.restriction_yields q r c).repeats (Building.restriction_yields q r d)
    (fun _ => fork.leftKept.restriction_keeps (α := Unit) fits left ⟨concept, fun _ => rfl⟩)
    (fun _ => fork.rightKept.restriction_keeps (α := Unit) fits right ⟨concept', fun _ => rfl⟩)
    fun _ => ⟨⟨right, concept'⟩, fun adds adds' => ?_⟩
  exact fork.keeping (e := .restriction q r c) (f := .restriction q r d) ⟨rfl, rfl, twins⟩
    (List.forall_mem_cons.mpr ⟨left, List.forall_mem_singleton.mpr concept⟩) trivial trivial adds adds'

section Connecting

variable {operands? : Expression → Option (List ConceptId)} {make : List ConceptId → Expression}
  (connects : Connects operands? make) (pairs : Pairs make)
include connects pairs

/-- Twins have matching parts. -/
theorem parts_matched (anonymous : ∀ cs, (make cs).Anonymous) (twins : base.Twins o u c d) :
    Matched (base.Twins o u) (o.partsUnder operands? c) (u.partsUnder operands? d) := by
  by_cases joined : ∃ cs, o.expression? c = some (make cs)
  · obtain ⟨cs, made⟩ := joined
    obtain ⟨e', made', twin⟩ := fork.made twins made (anonymous cs)
    obtain ⟨ds, rfl, matched⟩ := pairs.mp twin
    rwa [connects.partsUnder_made made, connects.partsUnder_made made']
  · have other : ∀ cs, o.expression? c ≠ some (make cs) := fun cs made => joined ⟨cs, made⟩
    have other' : ∀ ds, u.expression? d ≠ some (make ds) := by
      intro ds made
      obtain ⟨e', made', twin⟩ := fork.symm.made twins.symm made (anonymous ds)
      obtain ⟨cs, rfl, _⟩ := pairs.mp twin
      exact other cs made'
    rw [connects.partsUnder_other (fork.known twins) other,
      connects.partsUnder_other (fork.symm.known twins.symm) other']
    exact .of_forall₂ (.cons twins .nil)

theorem joined_matched (anonymous : ∀ cs, (make cs).Anonymous) (matched : Matched (base.Twins o u) cs ds) :
    Matched (base.Twins o u) (o.joined operands? cs) (u.joined operands? ds) := by
  refine ⟨fun x member => ?_, fun y member => ?_⟩
  · obtain ⟨c, given, part⟩ := mem_joined.mp member
    obtain ⟨d, given', twins⟩ := matched.1 c given
    obtain ⟨y, part', twins'⟩ := (fork.parts_matched connects pairs anonymous twins).1 x part
    exact ⟨y, mem_joined.mpr ⟨d, given', part'⟩, twins'⟩
  · obtain ⟨d, given', part⟩ := mem_joined.mp member
    obtain ⟨c, given, twins⟩ := matched.2 d given'
    obtain ⟨x, part', twins'⟩ := (fork.parts_matched connects pairs anonymous twins).2 y part
    exact ⟨x, mem_joined.mpr ⟨c, given, part'⟩, twins'⟩

theorem connect_repeats (anonymous : ∀ cs, (make cs).Anonymous) (matched : Matched (base.Twins o u) cs ds) :
    Repeats Extends (Building.connect operands? make cs) o (Building.connect operands? make ds) u
      fun a o' b u' => base.Twins o' u' a b := by
  have known : ∀ c ∈ cs, o.Knows (.concept c) := fun c member => by
    obtain ⟨d, _, twins⟩ := matched.1 c member
    exact fork.known twins
  have known' : ∀ d ∈ ds, u.Knows (.concept d) := fun d member => by
    obtain ⟨c, _, twins⟩ := matched.2 d member
    exact fork.symm.known twins.symm
  have all := fork.joined_matched connects pairs anonymous matched
  have increasing : (o.joined operands? cs).Pairwise (·.id < ·.id) := Handle.sorted_increasing _
  have increasing' : (u.joined operands? ds).Pairwise (·.id < ·.id) := Handle.sorted_increasing _
  have apart := fun x => connects.joined_known fork.leftKept.wellFormed known (x := x)
  have apart' := fun x => connects.joined_known fork.rightKept.wellFormed known' (x := x)
  have yields := Building.connect_yields (o := o) operands? make cs
  have yields' := Building.connect_yields (o := u) operands? make ds
  have moves := fun _ : (∀ c ∈ cs, o.Knows (.concept c)) ∧ o.joined operands? cs ≠ [] =>
    connects.keeps fork.leftKept known
  have moves' := fun _ : (∀ d ∈ ds, u.Knows (.concept d)) ∧ u.joined operands? ds ≠ [] =>
    connects.keeps fork.rightKept known'
  generalize o.joined operands? cs = l at all increasing apart yields moves
  generalize u.joined operands? ds = l' at all increasing' apart' yields' moves'
  refine yields.repeats yields' moves moves' fun ⟨_, filled⟩ => ?_
  match l, l', all, increasing, increasing', apart, apart', filled with
  | [], _, _, _, _, _, _, filled => exact absurd rfl filled
  | a :: _, [], all, _, _, _, _, _ =>
    obtain ⟨b, member, _⟩ := all.1 a (List.mem_cons_self ..)
    cases member
  | [a], [b], all, _, _, _, _, _ =>
    refine ⟨⟨known', List.cons_ne_nil _ _⟩, fun _ _ => ⟨fun _ => rfl, ?_⟩⟩
    obtain ⟨x, member, twins⟩ := all.1 a (List.mem_singleton.mpr rfl)
    exact List.mem_singleton.mp member ▸ twins
  | [a], b :: b' :: rest, all, _, increasing', _, _, _ =>
    obtain ⟨_, same, _⟩ := all.single (fun _ _ => fork.unique) increasing'
    cases same
  | a :: a' :: rest, [b], all, increasing, _, _, _, _ =>
    obtain ⟨_, same, _⟩ := all.symm.single
      (fun _ _ first second => fork.symm.unique (Twins.symm first) (Twins.symm second)) increasing
    cases same
  | a :: a' :: rest, b :: b' :: rest', all, increasing, increasing', apart, apart', _ =>
    have normal : (make (a :: a' :: rest)).Normal o :=
      (connects.normal o _).mpr ⟨Nat.le_add_left 2 _, increasing, fun x member => (apart x member).2⟩
    have normal' : (make (b :: b' :: rest')).Normal u :=
      (connects.normal u _).mpr ⟨Nat.le_add_left 2 _, increasing', fun x member => (apart' x member).2⟩
    refine ⟨⟨known', List.cons_ne_nil _ _⟩, fun adds adds' => ?_⟩
    refine fork.keeping (pairs.mpr ⟨_, rfl, all⟩) (fun x part => ?_) normal normal' adds adds'
    rw [connects.parts] at part
    obtain ⟨y, member, rfl⟩ := List.mem_map.mp part
    exact (apart y member).1

end Connecting

theorem conjunction_repeats (matched : Matched (base.Twins o u) cs ds) :
    Repeats Extends (Building.conjunction cs) o (Building.conjunction ds) u fun a o' b u' =>
      base.Twins o' u' a b :=
  fork.connect_repeats connects_conjunction pairs_conjunction (fun _ => nofun) matched

theorem disjunction_repeats (matched : Matched (base.Twins o u) cs ds) :
    Repeats Extends (Building.disjunction cs) o (Building.disjunction ds) u fun a o' b u' =>
      base.Twins o' u' a b :=
  fork.connect_repeats connects_disjunction pairs_disjunction (fun _ => nofun) matched

theorem either_repeats {x y : ConceptId} (left : base.Twins o u c d) (right : base.Twins o u x y) :
    Repeats Extends (Operator.either c x) o (Operator.either d y) u fun a o' b u' => base.Twins o' u' a b := by
  refine (fork.negation_repeats right).bind fun notX o₁ notY u₁ adds adds' atRight => ?_
  have fork₁ := fork.further adds adds'
  have left₁ := left.mono adds.annexes.within adds'.annexes.within
  have right₁ := right.mono adds.annexes.within adds'.annexes.within
  refine (fork₁.negation_repeats left₁).bind fun notC o₂ notD u₂ adds adds' atLeft => ?_
  have fork₂ := fork₁.further adds adds'
  have lasts : ∀ {a b}, base.Twins o₁ u₁ a b → base.Twins o₂ u₂ a b := fun twins =>
    twins.mono adds.annexes.within adds'.annexes.within
  refine (fork₂.conjunction_repeats (.of_forall₂ (.cons (lasts left₁) (.cons (lasts atRight) .nil)))).bind
    fun l o₃ l' u₃ adds adds' atFirst => ?_
  have fork₃ := fork₂.further adds adds'
  have lasts' : ∀ {a b}, base.Twins o₂ u₂ a b → base.Twins o₃ u₃ a b := fun twins =>
    twins.mono adds.annexes.within adds'.annexes.within
  refine (fork₃.conjunction_repeats
    (.of_forall₂ (.cons (lasts' atLeft) (.cons (lasts' (lasts right₁)) .nil)))).bind
    fun r o₄ r' u₄ adds adds' atSecond => ?_
  have first := atFirst.mono adds.annexes.within adds'.annexes.within
  exact (fork₃.further adds adds').disjunction_repeats (.of_forall₂ (.cons first (.cons atSecond .nil)))

omit fork in
theorem foldlM_either_repeats (fork : base.Fork o u) (first : base.Twins o u c d)
    (others : List.Forall₂ (base.Twins o u) cs ds) :
    Repeats Extends (cs.foldlM Operator.either c) o (ds.foldlM Operator.either d) u fun a o' b u' =>
      base.Twins o' u' a b := by
  induction cs generalizing o u c d ds with
  | nil =>
    cases others
    exact .pure first
  | cons x cs ih =>
    cases others with
    | cons second others =>
      rw [List.foldlM_cons, List.foldlM_cons]
      refine (fork.either_repeats first second).bind fun a o' b u' adds adds' joined => ?_
      exact ih (fork.further adds adds') joined
        (others.imp fun _ _ twins => twins.mono adds.annexes.within adds'.annexes.within)

theorem isSubsumedBy_repeats {x y : ConceptId} (left : base.Twins o u c d) (right : base.Twins o u x y) :
    Repeats Extends (Building.isSubsumedBy c x) o (Building.isSubsumedBy d y) u fun a _ b _ => a = b := by
  have known : o.Knowable (.subsumed c x) := ⟨fork.known left, fork.known right⟩
  have known' := fork.knowable (.subsumed left right) known
  have unchanged : ∀ {o : Ontology} (c d : ConceptId),
      Moves Extends (Building.isSubsumedBy c d) o fun _ _ => True := fun c d =>
    (Building.isSubsumedBy_yields c d).keeps fun _ => ⟨Std.Refl.refl _, trivial⟩
  exact (Building.isSubsumedBy_yields c x).repeats (Building.isSubsumedBy_yields d y)
    (fun _ => unchanged c x) (fun _ => unchanged d y)
    fun _ => ⟨known', fun _ _ => ⟨fun _ => rfl, (fork.answer known (.subsumed left right)).symm⟩⟩

theorem isInstanceOf_repeats {i : IndividualId} (known : base.Knows (.individual i))
    (twins : base.Twins o u c d) :
    Repeats Extends (Building.isInstanceOf i c) o (Building.isInstanceOf i d) u fun a _ b _ => a = b := by
  have knowable : o.Knowable (.member i c) := ⟨fork.left.annexes.within.knows known, fork.known twins⟩
  have knowable' := fork.knowable (.member twins) knowable
  have unchanged : ∀ {o : Ontology} (d : ConceptId),
      Moves Extends (Building.isInstanceOf i d) o fun _ _ => True := fun d =>
    (Building.isInstanceOf_yields i d).keeps fun _ => ⟨Std.Refl.refl _, trivial⟩
  exact (Building.isInstanceOf_yields i c).repeats (Building.isInstanceOf_yields i d)
    (fun _ => unchanged c) (fun _ => unchanged d)
    fun _ => ⟨knowable', fun _ _ => ⟨fun _ => rfl, (fork.answer knowable (.member twins)).symm⟩⟩

theorem isEquivalentTo_repeats {x y : ConceptId} (left : base.Twins o u c d) (right : base.Twins o u x y) :
    Repeats Extends (Building.isEquivalentTo c x) o (Building.isEquivalentTo d y) u fun a _ b _ => a = b := by
  refine (fork.isSubsumedBy_repeats left right).bind fun a o' b u' adds adds' same => ?_
  subst same
  cases a with
  | false => exact .pure rfl
  | true =>
    exact (fork.further adds adds').isSubsumedBy_repeats
      (right.mono adds.annexes.within adds'.annexes.within) (left.mono adds.annexes.within adds'.annexes.within)

theorem compares_repeats (op : Operator) {x y : ConceptId} (left : base.Twins o u c d)
    (right : base.Twins o u x y) :
    Repeats Extends (op.compares c x) o (op.compares d y) u fun a _ b _ => a = b := by
  have strictly : ∀ {c' x' d' y'}, base.Twins o u c' d' → base.Twins o u x' y' → Repeats Extends (do
      if ← Building.isSubsumedBy c' x' then return !(← Building.isEquivalentTo c x)
      else return false) o (do
      if ← Building.isSubsumedBy d' y' then return !(← Building.isEquivalentTo d y)
      else return false) u fun a _ b _ => a = b := by
    intro c' x' d' y' left' right'
    refine (fork.isSubsumedBy_repeats left' right').bind fun a o' b u' adds adds' same => ?_
    subst same
    cases a with
    | false => exact .pure rfl
    | true =>
      refine ((fork.further adds adds').isEquivalentTo_repeats
        (left.mono adds.annexes.within adds'.annexes.within)
        (right.mono adds.annexes.within adds'.annexes.within)).bind fun a _ b _ _ _ same => ?_
      exact .pure (congrArg _ same)
  cases op with
  | subsumedBy => exact fork.isSubsumedBy_repeats left right
  | subsumes => exact fork.isSubsumedBy_repeats right left
  | strictlySubsumedBy => exact strictly left right
  | strictlySubsumes => exact strictly right left
  | equivalentTo => exact fork.isEquivalentTo_repeats left right
  | _ => exact .pure rfl

end Fork

end Ontology

end ConceptLogic
