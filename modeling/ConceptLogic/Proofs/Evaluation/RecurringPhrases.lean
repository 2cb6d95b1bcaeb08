import ConceptLogic.Proofs.Evaluation.AccordingStates

namespace ConceptLogic

open Evaluation

namespace Phrase

variable {v : Vocabulary} {base : Ontology} {s t : State} {p : Phrase} {ps : List Phrase}
  {as bs : List Value} {f g : Evaluation Value}

/-- What evaluation comes to if nothing is waited for. -/
abbrev Settled (base : Ontology) (a : Value) (s : State) (b : Value) (t : State) : Prop :=
  a.Twin base s.ontology t.ontology b

theorem Recurs.of_twin {a b : Value} (accords : s.Accords base t) (settled : p.awaited? t.env = none)
    (twin : a.Twin base s.ontology t.ontology b) : p.Recurs base a s b t where
  first := .of_settled (accords.widens.awaited? settled) (twin.own accords.fork)
  second := .of_settled settled (twin.symm.own accords.fork.symm)
  twin _ := twin

/-- Waits for the first variable that is not bound, or else goes on. -/
def unlessAwaited (p : Phrase) (env : Environment) (rest : Evaluation Value) : Evaluation Value :=
  match p.awaited? env with
  | some x => return .deferred x p env
  | none => rest

/-- A phrase waits in both states or in the second one only, or else in neither, and then it goes on alike. -/
theorem unlessAwaited_repeats (accords : s.Accords base t)
    (both : p.awaited? t.env = none → Repeats State.Extends f s g t (Settled base))
    (alone : p.awaited? s.env = none → Repeats State.Extends f s f s (Settled base)) :
    Repeats State.Extends (p.unlessAwaited s.env f) s (p.unlessAwaited t.env g) t (p.Recurs base) := by
  unfold unlessAwaited
  cases atT : p.awaited? t.env with
  | none =>
    rw [accords.widens.awaited? atT]
    refine (both atT).mono fun a s' b t' adds adds' twin => ?_
    exact .of_twin (accords.lasts adds adds') (adds'.env ▸ atT) twin
  | some y =>
    have never : p.awaited? t.env ≠ none := by simp [atT]
    cases atS : p.awaited? s.env with
    | some x => exact .pure ⟨.of_waiting atS, .of_waiting atT, fun settled => absurd settled never⟩
    | none =>
      intro a s' run
      obtain ⟨adds, b, u, _, adds', _, twin⟩ := alone atS a s' run
      have own := twin.own (accords.left.lasts adds adds').fork
      exact ⟨adds, _, t, rfl, Std.Refl.refl t, fun _ => rfl, .of_settled (adds.env ▸ atS) own,
        .of_waiting atT, fun settled => absurd settled never⟩

/-- Waits for what the parts of a phrase wait for, or else goes on. -/
def deferring (p : Phrase) (vs : List Value) (rest : Evaluation Value) : Evaluation Value :=
  match Value.pending? vs with
  | some (x, env) => return .deferred x p env
  | none => rest

theorem deferring_eq (parts : p.vars = ps.flatMap vars) (become : List.Forall₂ (Becomes base s) ps as) :
    p.deferring as f = p.unlessAwaited s.env f := by
  rw [deferring, unlessAwaited, pending?_eq become, awaited?_of_vars parts]
  cases awaitedAmong? s.env ps <;> rfl

theorem deferring_repeats (accords : s.Accords base t) (parts : p.vars = ps.flatMap vars)
    (recur : RecurAll base ps as s bs t)
    (both : List.Forall₂ (Value.Twin base s.ontology t.ontology) as bs →
      Repeats State.Extends f s g t (Settled base))
    (alone : List.Forall₂ (Value.Twin base s.ontology s.ontology) as as →
      Repeats State.Extends f s f s (Settled base)) :
    Repeats State.Extends (p.deferring as f) s (p.deferring bs g) t (p.Recurs base) := by
  rw [deferring_eq parts recur.first, deferring_eq parts recur.second]
  have among : ∀ env, p.awaited? env = awaitedAmong? env ps := fun _ => awaited?_of_vars parts
  refine unlessAwaited_repeats accords (fun settled => both (recur.twin ?_)) fun settled => alone ?_
  · rw [← among, settled]
  · exact twins_of_become recur.first (by rw [← among, settled])

theorem evalAll_repeats (each : ∀ p ∈ ps, ∀ {s t : State}, s.Accords base t →
    Repeats State.Extends p.eval s p.eval t (p.Recurs base)) (accords : s.Accords base t) :
    Repeats State.Extends (evalAll ps) s (evalAll ps) t (RecurAll base ps) := by
  induction ps generalizing s t with
  | nil => exact .pure .nil
  | cons p ps ih =>
    obtain ⟨first, others⟩ := List.forall_mem_cons.mp each
    rw [evalAll]
    refine (first accords).bind fun a s' b t' adds adds' recurs => ?_
    refine (ih others (accords.lasts adds adds')).bind fun as s'' bs t'' adds adds' recur => ?_
    exact .pure (.cons (recurs.lasts adds adds') recur)

theorem lookup_recurs {name : String} (accords : s.Accords base t) (ordinary : Ordinary name)
    (settled : p.awaited? t.env = none) :
    Repeats State.Extends (lookup name) s (lookup name) t (p.Recurs base) := by
  rw [← bind_pure (lookup name)]
  refine .lookup_bind (accords.widens.alike ordinary) fun v found => .pure ?_
  exact .of_twin accords settled (accords.old ordinary.1 found).twin

theorem individuals_repeat {members : List String} (accords : s.Accords base t)
    (vetted : ∀ m ∈ members, v.vet .individual m = .ok m) :
    Repeats State.Extends (members.mapM individualNamed) s (members.mapM individualNamed) t
      fun is _ js _ => is = js ∧ List.Forall₂ (fun _ i => base.Knows (.individual i)) members is := by
  induction members generalizing s t with
  | nil => exact .pure ⟨rfl, .nil⟩
  | cons m members ih =>
    obtain ⟨first, others⟩ := List.forall_mem_cons.mp vetted
    rw [List.mapM_cons]
    have ordinary := Ordinary.of_vetted first
    have named : Repeats State.Extends (individualNamed m) s (individualNamed m) t
        fun i _ j _ => i = j ∧ base.Knows (.individual i) := by
      refine .lookup_bind (accords.widens.alike ordinary) fun x found => ?_
      rw [← bind_pure (require x.asIndividual)]
      refine .require_bind fun i taken => ⟨i, taken, .pure ⟨rfl, ?_⟩⟩
      cases Value.asIndividual_eq_ok taken
      exact accords.old ordinary.1 found
    refine named.bind fun i s' _ t' adds adds' ⟨same, known⟩ => ?_
    subst same
    refine (ih (accords.lasts adds adds') others).bind fun is s'' _ t'' _ _ ⟨same, all⟩ => ?_
    subst same
    exact .pure ⟨rfl, .cons known all⟩

theorem nominal_recurs {members : List String} (accords : s.Accords base t) (inhabited : members ≠ [])
    (vetted : ∀ m ∈ members, v.vet .individual m = .ok m) :
    Repeats State.Extends (nominal members).eval s (nominal members).eval t
      ((nominal members).Recurs base) := by
  refine (individuals_repeat accords vetted).bind fun is s' _ t' adds adds' ⟨same, each⟩ => ?_
  subst same
  have accords' := accords.lasts adds adds'
  have some : is ≠ [] := by
    rintro rfl
    cases each
    exact inhabited rfl
  have known : ∀ i ∈ is, base.Knows (.individual i) := by
    intro i member
    obtain ⟨_, _, known⟩ := exists_of_forall₂ each member
    exact known
  refine (accords'.fork.nominal_repeats some known).building.bind fun c s'' d t'' adds adds' twins => .pure ?_
  exact .of_twin (accords'.lasts adds adds') rfl (.concept twins)

theorem checkType_repeats {x : Variable} {a : Value} (vetted : Variable.vet v x.base x.type = .ok x)
    (accords : s.Accords base t) (old : a.Old base) :
    Repeats State.Extends (checkType x a) s (checkType x a) t fun _ _ _ _ => True := by
  obtain ⟨_, _, admitted⟩ := Variable.of_vetted vetted
  unfold checkType
  split
  · exact .pure trivial
  · rename_i type typed
    have ordinary : Ordinary type := .of_vetted (admitted type typed)
    refine .lookup_bind (accords.widens.alike ordinary) fun z found => .require_bind fun c taken => ?_
    cases Value.asConcept_eq_ok taken
    have twins : base.Twins s.ontology t.ontology c c := .of_old (accords.old ordinary.1 found)
    have judged : ∀ (fits : Bool) (s' t' : State), Repeats State.Extends (do
        unless fits do throw (.typeMismatch (.ofType x.role type (a.text (← get).ontology)))
        : Evaluation Unit) s' (do
        unless fits do throw (.typeMismatch (.ofType x.role type (a.text (← get).ontology)))
        : Evaluation Unit) t' fun _ _ _ _ => True := by
      intro fits s' t'
      cases fits with
      | true => exact .pure trivial
      | false => exact nofun
    refine ⟨c, rfl, ?_⟩
    dsimp only
    split
    · refine .require_bind fun i taken => ⟨i, taken, ?_⟩
      cases Value.asIndividual_eq_ok taken
      refine (accords.fork.isInstanceOf_repeats old twins).building.bind fun fits s' _ t' _ _ same => ?_
      exact same ▸ judged fits s' t'
    · refine .require_bind fun d taken => ⟨d, taken, ?_⟩
      cases Value.asConcept_eq_ok taken
      refine (accords.fork.isSubsumedBy_repeats (.of_old old) twins).building.bind
        fun fits s' _ t' _ _ same => ?_
      exact same ▸ judged fits s' t'

/-- A variable waits unless it is bound, and has to fit what it is bound to. -/
theorem run_variableValue (x : Variable) (s : State) : (variableValue x).run s =
    ((var x).unlessAwaited s.env do
      let a ← lookup x.name
      checkType x a
      return a).run s := by
  have awaits : (var x).awaited? s.env = if s.env.knows x.name then none else some x := by
    unfold awaited? vars
    cases known : s.env.knows x.name <;> simp [leaves, asVariable?, known]
  have looked : (variableValue x).run s = (if s.env.knows x.name then (do
      let a ← lookup x.name
      checkType x a
      return a) else return .deferred x (.var x) s.env : Evaluation Value).run s := rfl
  rw [looked, unlessAwaited, awaits]
  cases s.env.knows x.name <;> rfl

theorem var_recurs {x : Variable} (vetted : Variable.vet v x.base x.type = .ok x) (accords : s.Accords base t) :
    Repeats State.Extends (var x).eval s (var x).eval t ((var x).Recurs base) := by
  -- What a variable is bound to is known where both states come from.
  have value : ∀ {t : State}, s.Accords base t → t.env.find? x.name = s.env.find? x.name →
      Repeats State.Extends (do
        let a ← lookup x.name
        checkType x a
        return a) s (do
        let a ← lookup x.name
        checkType x a
        return a) t (Settled base) := by
    intro t accords same
    refine .lookup_bind same fun a found => ?_
    have old := accords.old (Variable.name_ne x) found
    exact (checkType_repeats vetted accords old).bind fun _ s' _ t' adds adds' _ => .pure old.twin
  refine (unlessAwaited_repeats accords (fun settled => value accords ?_) fun _ => value accords.left rfl).congr
    (run_variableValue x s) (run_variableValue x t)
  have bound : t.env.knows x.name = true := by
    simpa using List.find?_eq_none.mp settled x (by simp [vars, leaves, asVariable?])
  obtain ⟨a, found⟩ := Option.isSome_iff_exists.mp bound
  exact found.trans (accords.widens.further found).symm

theorem negation_recurs (operand : ∀ {s t : State}, s.Accords base t →
      Repeats State.Extends p.eval s p.eval t (p.Recurs base)) (accords : s.Accords base t) :
    Repeats State.Extends (negation p).eval s (negation p).eval t ((negation p).Recurs base) := by
  refine .resolve_bind (accords.widens.alike .negation) fun op => ?_
  refine (operand accords).bind fun a s' b t' adds adds' recurs => ?_
  have accords' := accords.lasts adds adds'
  refine (deferring_repeats accords' (vars_negation p) (.cons recurs .nil)
    (Operator.apply_repeats accords'.fork op) (Operator.apply_repeats accords'.left.fork op)).congr ?_ ?_
  · cases a <;> rfl
  · cases b <;> rfl

theorem restriction_recurs {q : Quantifier} {r : String} (fits : q.Fits) (vetted : v.vet .relation r = .ok r)
    (operand : ∀ {s t : State}, s.Accords base t →
      Repeats State.Extends p.eval s p.eval t (p.Recurs base)) (accords : s.Accords base t) :
    Repeats State.Extends (restriction q (.relation r) p).eval s (restriction q (.relation r) p).eval t
      ((restriction q (.relation r) p).Recurs base) := by
  have ordinary := Ordinary.of_vetted vetted
  refine .lookup_bind (accords.widens.alike ordinary) fun y found => .require_bind fun relation taken =>
    ⟨relation, taken, ?_⟩
  cases Value.asRelation_eq_ok taken
  have known : base.Knows (.relation relation) := accords.old ordinary.1 found
  refine (operand accords).bind fun a s' b t' adds adds' recurs => ?_
  have accords' := accords.lasts adds adds'
  have restricted : ∀ {s t : State} {a b : Value}, s.Accords base t →
      a.Twin base s.ontology t.ontology b → Repeats State.Extends (do
        let c ← require a.asConcept
        return .concept (← building (Building.restriction q relation c)) : Evaluation Value) s (do
        let c ← require b.asConcept
        return .concept (← building (Building.restriction q relation c)) : Evaluation Value) t
          (Settled base) := by
    intro s t a b accords twin
    refine .require_bind fun c taken => ?_
    obtain ⟨d, taken', twins⟩ := twin.asConcept taken
    refine ⟨d, taken', (accords.fork.restriction_repeats fits known twins).building.bind ?_⟩
    exact fun _ _ _ _ _ _ twins => .pure (.concept twins)
  have deferred := deferring_repeats accords' (vars_restriction q r p) (.cons recurs .nil)
    (fun twins => restricted accords' (List.forall₂_cons.mp twins).1)
    (fun twins => restricted accords'.left (List.forall₂_cons.mp twins).1)
  refine deferred.congr ?_ ?_
  · cases a <;> rfl
  · cases b <;> rfl

theorem junction_recurs {kind : Connective} (several : 2 ≤ ps.length)
    (apart : ∀ p ∈ ps, spliced kind p = [p])
    (operands : ∀ p ∈ ps, ∀ {s t : State}, s.Accords base t →
      Repeats State.Extends p.eval s p.eval t (p.Recurs base)) (accords : s.Accords base t) :
    Repeats State.Extends (junction kind ps).eval s (junction kind ps).eval t
      ((junction kind ps).Recurs base) := by
  refine .resolve_bind (accords.widens.alike (.connective kind)) fun op => ?_
  refine (evalAll_repeats operands accords).bind fun as s' bs t' adds adds' recur => ?_
  have accords' := accords.lasts adds adds'
  rw [join_of_apart several apart]
  exact deferring_repeats accords' (vars_of_leaves rfl) recur (Operator.apply_repeats accords'.fork op)
    (Operator.apply_repeats accords'.left.fork op)

/-- A phrase for a concept that does not refer back comes to the same again where some of its variables are
not bound yet, or else waits for the first of them. -/
theorem Proper.recurs (proper : p.Proper v) (plain : p.refersBack = false) (accords : s.Accords base t) :
    Repeats State.Extends p.eval s p.eval t (p.Recurs base) := by
  induction proper generalizing s t with
  | concept vetted => exact lookup_recurs accords (.of_vetted vetted) rfl
  | nominal inhabited vetted => exact nominal_recurs accords inhabited vetted
  | var vetted => exact var_recurs vetted accords
  | anaphora => cases plain
  | @negation p _ ih =>
    have plain' : p.refersBack = false := by rwa [refersBack, leaves] at plain
    exact negation_recurs (ih plain') accords
  | @restriction q r p fits vetted _ ih =>
    have plain' : p.refersBack = false := by
      rw [refersBack, leaves, List.any_append, Bool.or_eq_false_iff] at plain
      exact plain.2
    exact restriction_recurs fits vetted (ih plain') accords
  | @junction kind ps several apart _ ih =>
    have plain' : ∀ p ∈ ps, p.refersBack = false := refersBack_of_leaves rfl plain
    exact junction_recurs several apart (fun p member => ih p member (plain' p member)) accords

theorem Subject.recurs (subject : p.Subject v) (plain : p.refersBack = false) (accords : s.Accords base t) :
    Repeats State.Extends p.eval s p.eval t (p.Recurs base) := by
  cases subject with
  | individual vetted => exact lookup_recurs accords (.of_vetted vetted) rfl
  | var vetted => exact var_recurs vetted accords
  | anaphora => cases plain

theorem compareNeighbours_repeats {tokens : List String}
    (known : ∀ token ∈ tokens, token ∈ Grammar.comparators)
    (accords : s.Accords base t) (twins : List.Forall₂ (Value.Twin base s.ontology t.ontology) as bs) :
    Repeats State.Extends (compareNeighbours tokens as) s (compareNeighbours tokens bs) t
      fun a _ b _ => a = b := by
  induction tokens generalizing s t as bs with
  | nil => exact .pure rfl
  | cons token tokens ih =>
    obtain ⟨here, there⟩ := List.forall_mem_cons.mp known
    match as, bs, twins with
    | [], [], _ => exact .pure rfl
    | [_], [_], _ => exact .pure rfl
    | a :: a' :: as, b :: b' :: bs, .cons first (.cons second others) =>
      refine .resolve_bind (accords.widens.alike (.of_comparator here)) fun op => ?_
      refine (Operator.apply_repeats accords.fork op (.cons first (.cons second .nil))).bind
        fun z s' z' t' adds adds' twin => .require_bind fun holds taken => ⟨holds, twin.asBoolean taken, ?_⟩
      cases holds with
      | true =>
        have lasts : ∀ {x y : Value}, x.Twin base s.ontology t.ontology y →
            x.Twin base s'.ontology t'.ontology y := fun twin =>
          twin.mono adds.ontology.annexes.within adds'.ontology.annexes.within
        exact ih there (accords.lasts adds adds') (.cons (lasts second) (others.imp fun _ _ => lasts))
      | false => exact .pure rfl

theorem membership_recurs {q : Phrase} (subject : p.Subject v) (concept : q.Proper v)
    (plain : (membership p q).refersBack = false) (accords : s.Accords base t) :
    Repeats State.Extends (membership p q).eval s (membership p q).eval t
      ((membership p q).Recurs base) := by
  rw [refersBack, leaves, List.any_append, Bool.or_eq_false_iff] at plain
  refine (subject.recurs plain.1 accords).bind fun a s' b t' adds adds' atSubject => ?_
  have accords' := accords.lasts adds adds'
  refine (concept.recurs plain.2 accords').bind fun c s'' d t'' adds adds' atConcept => ?_
  have accords'' := accords'.lasts adds adds'
  have judged : ∀ {s t : State} {a b c d : Value}, s.Accords base t →
      List.Forall₂ (Value.Twin base s.ontology t.ontology) [a, c] [b, d] → Repeats State.Extends (do
        let i ← require a.asIndividual
        let c ← require c.asConcept
        return .boolean (← building (Building.isInstanceOf i c)) : Evaluation Value) s (do
        let i ← require b.asIndividual
        let c ← require d.asConcept
        return .boolean (← building (Building.isInstanceOf i c)) : Evaluation Value) t (Settled base) := by
    rintro s t a b c d accords (_ | ⟨first, _ | ⟨second, _⟩⟩)
    refine .require_bind fun i taken => ?_
    obtain ⟨taken', known⟩ := first.asIndividual taken
    refine ⟨i, taken', .require_bind fun x taken => ?_⟩
    obtain ⟨y, taken', twins⟩ := second.asConcept taken
    refine ⟨y, taken', (accords.fork.isInstanceOf_repeats known twins).building.bind ?_⟩
    rintro holds _ _ _ _ _ rfl
    exact .pure (.boolean holds)
  exact deferring_repeats accords'' (vars_membership p q)
    (.cons (atSubject.lasts adds adds') (.cons atConcept .nil)) (judged accords'') (judged accords''.left)

theorem comparison_recurs {comparators : List String}
    (known : ∀ token ∈ comparators, token ∈ Grammar.comparators)
    (operands : ∀ p ∈ ps, p.Proper v) (plain : (comparison ps comparators).refersBack = false)
    (accords : s.Accords base t) :
    Repeats State.Extends (comparison ps comparators).eval s (comparison ps comparators).eval t
      ((comparison ps comparators).Recurs base) := by
  have plain' : ∀ p ∈ ps, p.refersBack = false := refersBack_of_leaves rfl plain
  refine (evalAll_repeats (fun p member => (operands p member).recurs (plain' p member)) accords).bind
    fun as s' bs t' adds adds' recur => ?_
  have accords' := accords.lasts adds adds'
  have compared : ∀ {s t : State} {as bs : List Value}, s.Accords base t →
      List.Forall₂ (Value.Twin base s.ontology t.ontology) as bs →
      Repeats State.Extends (do return .boolean (← compareNeighbours comparators as) : Evaluation Value) s
        (do return .boolean (← compareNeighbours comparators bs) : Evaluation Value) t (Settled base) := by
    intro s t as bs accords twins
    refine (compareNeighbours_repeats known accords twins).bind ?_
    rintro holds _ _ _ _ _ rfl
    exact .pure (.boolean holds)
  exact deferring_repeats accords' (vars_of_leaves rfl) recur (compared accords') (compared accords'.left)

/-- The same for every statement that declares nothing. -/
theorem Stated.recurs (stated : p.Stated v) (quiet : p.isDeclaration = false) (plain : p.refersBack = false)
    (accords : s.Accords base t) : Repeats State.Extends p.eval s p.eval t (p.Recurs base) := by
  cases stated with
  | concept proper => exact proper.recurs plain accords
  | membership subject concept => exact membership_recurs subject concept plain accords
  | comparison first inhabited known operands =>
    exact comparison_recurs (List.forall_mem_map.mpr known)
      (List.forall_mem_cons.mpr ⟨first, List.forall_mem_map.mpr operands⟩) plain accords
  | _ => cases quiet

end Phrase

end ConceptLogic
