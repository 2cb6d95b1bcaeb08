import ConceptLogic.Proofs.Evaluation.DeclarationOutcomes

namespace ConceptLogic

open Evaluation

theorem Moves.of_map {ε σ α β : Type} {R : σ → σ → Prop} {x : EStateM ε σ α} {s : σ} {f : α → β}
    {Q : β → σ → Prop} (moves : Moves R (f <$> x) s Q) : Moves R x s fun a s' => Q (f a) s' := by
  unfold Moves Settles at moves ⊢
  rw [map_eq_pure_bind, EStateM.run_bind] at moves
  cases run : x.run s with
  | ok a s' =>
    rw [run] at moves
    exact moves
  | error e s' =>
    rw [run] at moves
    exact moves

section Building

variable {α β : Type}

theorem building_bind {b : Building α} {f : α → Building β} :
    building (b >>= f) = building b >>= fun a => building (f a) := by
  funext s
  change (building (b >>= f)).run s = (building b >>= fun a => building (f a)).run s
  rw [run_building, EStateM.run_bind, EStateM.run_bind, run_building]
  cases b.run s.ontology <;> rfl

theorem building_map {b : Building α} {f : α → β} : building (f <$> b) = f <$> building b := by
  rw [map_eq_pure_bind, map_eq_pure_bind, building_bind]
  rfl

end Building

/-- What comes back from a call, as a value. -/
def Answer.value : Answer → Value
  | .done => .nothing
  | .concept c => .concept c
  | .individual i => .individual i
  | .relation r => .relation r
  | .boolean b => .boolean b

/-- A phrase that declares nothing, nor does any part of it. -/
inductive Phrase.Still : Phrase → Prop
  | concept (name : String) : Still (.concept name)
  | individual (name : String) : Still (.individual name)
  | relation (name : String) : Still (.relation name)
  | nominal (members : List String) : Still (.nominal members)
  | var (x : Variable) : Still (.var x)
  | anaphora : Still .anaphora
  | negation {p : Phrase} : Still p → Still (.negation p)
  | restriction {q : Quantifier} {r p : Phrase} : Still r → Still p → Still (.restriction q r p)
  | junction {kind : Connective} {ps : List Phrase} : (∀ p ∈ ps, Still p) → Still (.junction kind ps)
  | tuple {ps : List Phrase} : (∀ p ∈ ps, Still p) → Still (.tuple ps)
  | membership {p q : Phrase} : Still p → Still q → Still (.membership p q)
  | comparison {ps : List Phrase} {comparators : List String} : (∀ p ∈ ps, Still p) →
      Still (.comparison ps comparators)
  | mapping {p q : Phrase} : Still p → Still q → Still (.mapping p q)
  | program {ps : List Phrase} : (∀ p ∈ ps, Still p) → Still (.program ps)

/-- What lets a whole evaluation keep what its pieces keep. A call leads from a sound state to a related
one, and so does a binding where anything may be declared. States related to a sound one are sound, and
what is found in a sound state, waits there or comes back from a call is fine from then on. -/
structure Upkeep (declaring : Prop) (R : State → State → Prop) (Sound : State → Prop)
    (Fine : State → Value → Prop) : Prop where
  sound : ∀ {s s' : State}, R s s' → Sound s → Sound s'
  lasting : ∀ {s s' : State} {v : Value}, R s s' → Fine s v → Fine s' v
  call : ∀ {s : State}, Sound s → ∀ call : Call,
    Moves R (building call.perform) s fun answer s' => Fine s' answer.value
  binding : declaring → ∀ {s : State} {name : String} {v : Value} {env : Environment}, Sound s → Fine s v →
    s.env.bind name v = .ok env → R s { s with env := env }
  found : ∀ {s : State} {name : String} {v : Value}, Sound s → s.env.find? name = some v → Fine s v
  waiting : ∀ {s : State} (x : Variable) (body : Phrase), Sound s → Fine s (.deferred x body s.env)
  wrapped : ∀ {s : State} {x : Variable} {body : Phrase} {env : Environment}, Fine s (.deferred x body env) →
    ∀ (y : Variable) (body' : Phrase), Fine s (.deferred y body' env)
  boolean : ∀ {s : State} (b : Bool), Fine s (.boolean b)
  nothing : ∀ {s : State}, Fine s .nothing
  mapping : ∀ {s : State} (domain range : ConceptId), Fine s (.mapping domain range)
  tuple : ∀ {s : State} {bases others : List Value}, (∀ v ∈ bases, Fine s v) → (∀ v ∈ others, Fine s v) →
    Fine s (.tuple bases others)

namespace Upkeep

variable {declaring : Prop} {R : State → State → Prop} {Sound : State → Prop} {Fine : State → Value → Prop}
variable [Std.Refl R] [IsTrans State R] {s : State}

omit [IsTrans State R] in
theorem require {α : Type} (x : Except Error α) : Moves R (Evaluation.require x) s fun _ _ => True := by
  rw [← bind_pure (Evaluation.require x)]
  exact Moves.require_bind fun a _ => .pure trivial

variable (upkeep : Upkeep declaring R Sound Fine)
include upkeep

section Work

variable (sound : Sound s)
include sound

omit [Std.Refl R] [IsTrans State R] in
/-- The work that a call consists of. -/
theorem performed {β : Type} (call : Call) {b : Building β} {f : β → Answer} (same : call.perform = f <$> b) :
    Moves R (building b) s fun a s' => Fine s' (f a).value := by
  have moves := upkeep.call sound call
  rw [same, building_map] at moves
  exact moves.of_map

/-- A call that makes a concept. -/
theorem making (call : Call) {b : Building ConceptId} (same : call.perform = .concept <$> b) :
    Moves R (do return .concept (← building b) : Evaluation Value) s fun v s' => Fine s' v :=
  (upkeep.performed sound call same).bind fun _ _ _ fine => .pure fine

omit [Std.Refl R] in
theorem either (c d : ConceptId) :
    Moves R (building (Operator.either c d)) s fun w s' => Fine s' (.concept w) := by
  simp only [Operator.either, building_bind]
  refine (upkeep.performed sound (.negation d) rfl).bind fun notD s₁ moved _ => ?_
  have sound₁ := upkeep.sound moved sound
  refine (upkeep.performed sound₁ (.negation c) rfl).bind fun notC s₂ moved _ => ?_
  have sound₂ := upkeep.sound moved sound₁
  refine (upkeep.performed sound₂ (.conjunction [c, notD]) rfl).bind fun left s₃ moved _ => ?_
  have sound₃ := upkeep.sound moved sound₂
  refine (upkeep.performed sound₃ (.conjunction [notC, d]) rfl).bind fun right s₄ moved _ => ?_
  exact upkeep.performed (upkeep.sound moved sound₃) (.disjunction [left, right]) rfl

theorem eithers {c : ConceptId} (fine : Fine s (.concept c)) (cs : List ConceptId) :
    Moves R (building (cs.foldlM Operator.either c)) s fun w s' => Fine s' (.concept w) := by
  induction cs generalizing s c with
  | nil => exact .pure fine
  | cons d cs ih =>
    rw [List.foldlM_cons, building_bind]
    exact (upkeep.either sound c d).bind fun w s' moved fine => ih (upkeep.sound moved sound) fine

theorem compares (op : Operator) (c d : ConceptId) :
    Moves R (building (op.compares c d)) s fun _ _ => True := by
  have asked : ∀ {s : State} (call : Call) {b : Building Bool}, call.perform = .boolean <$> b → Sound s →
      Moves R (building b) s fun _ _ => True := fun call _ same sound =>
    (upkeep.performed sound call same).mono fun _ _ _ _ => trivial
  have strictly : ∀ x y, Moves R (building do
      if ← Building.isSubsumedBy x y then return !(← Building.isEquivalentTo c d)
      else return false) s fun _ _ => True := by
    intro x y
    rw [building_bind]
    refine (asked (.isSubsumedBy x y) rfl sound).bind fun b s' moved _ => ?_
    cases b with
    | true =>
      rw [if_pos rfl, building_bind]
      exact (asked (.isEquivalentTo c d) rfl (upkeep.sound moved sound)).bind fun _ _ _ _ => .pure trivial
    | false => exact .pure trivial
  cases op with
  | subsumedBy => exact asked (.isSubsumedBy c d) rfl sound
  | subsumes => exact asked (.isSubsumedBy d c) rfl sound
  | strictlySubsumedBy => exact strictly c d
  | strictlySubsumes => exact strictly d c
  | equivalentTo => exact asked (.isEquivalentTo c d) rfl sound
  | _ => exact .pure trivial

theorem tells (x : Entity) (cs : List ConceptId) :
    Moves R (building (cs.forM (Building.addIsA x))) s fun _ _ => True := by
  induction cs generalizing s with
  | nil => exact .pure trivial
  | cons c cs ih =>
    have parts : building ((c :: cs).forM (Building.addIsA x)) =
      building (Building.addIsA x c) >>= fun _ => building (cs.forM (Building.addIsA x)) := building_bind
    rw [parts]
    exact (upkeep.performed sound (.addIsA x c) rfl).bind fun _ _ moved _ => ih (upkeep.sound moved sound)

theorem apply (op : Operator) {vs : List Value} (fine : ∀ v ∈ vs, Fine s v) :
    Moves R (op.apply vs) s fun v s' => Fine s' v := by
  have compared : ∀ op v w, Moves R (do
      let c ← Evaluation.require (Value.asConcept v)
      let d ← Evaluation.require (Value.asConcept w)
      return .boolean (← building (Operator.compares op c d)) : Evaluation Value) s fun v s' => Fine s' v :=
    fun op v w => .require_bind fun c _ => .require_bind fun d _ =>
      (upkeep.compares sound op c d).bind fun b _ _ _ => .pure (upkeep.boolean b)
  cases op with
  | conjunction => exact .require_bind fun cs _ => upkeep.making sound (.conjunction cs) rfl
  | disjunction => exact .require_bind fun cs _ => upkeep.making sound (.disjunction cs) rfl
  | exclusiveDisjunction =>
    refine .require_bind fun cs taken => ?_
    have same := Value.mapM_asConcept_eq_ok taken
    cases cs with
    | nil => exact .throw
    | cons c cs =>
      have first : Fine s (.concept c) := fine _ (same ▸ List.mem_cons_self ..)
      exact (upkeep.eithers sound first cs).bind fun _ _ _ fine => .pure fine
  | negation =>
    match vs with
    | [v] => exact .require_bind fun c _ => upkeep.making sound (.negation c) rfl
    | [] | _ :: _ :: _ => exact .throw
  | _ =>
    match vs with
    | [v, w] => exact compared _ v w
    | [] | [_] | _ :: _ :: _ :: _ => exact .throw

theorem checkType (x : Variable) (v : Value) : Moves R (Evaluation.checkType x v) s fun _ _ => True := by
  unfold Evaluation.checkType
  split
  · exact .pure trivial
  · rename_i type _
    refine .lookup_bind fun z _ => .require_bind fun c _ => ?_
    have judged : ∀ (fits : Bool) (s' : State), Moves R (do
        unless fits do throw (.typeMismatch (.ofType x.role type (v.text (← get).ontology)))
        : Evaluation Unit) s' fun _ _ => True := by
      intro fits s'
      cases fits with
      | true => exact .pure trivial
      | false => exact .get_bind .throw
    dsimp only
    split
    · exact .require_bind fun i _ => (upkeep.performed sound (.isInstanceOf i c) rfl).bind
        fun fits s' _ _ => judged fits s'
    · exact .require_bind fun d _ => (upkeep.performed sound (.isSubsumedBy d c) rfl).bind
        fun fits s' _ _ => judged fits s'

theorem variableValue (x : Variable) : Moves R (Evaluation.variableValue x) s fun v s' => Fine s' v := by
  refine .get_bind ?_
  dsimp only
  split
  · exact .lookup_bind fun v found => (upkeep.checkType sound x v).bind fun _ _ moved _ =>
      .pure (upkeep.lasting moved (upkeep.found sound found))
  · exact .pure (upkeep.waiting x _ sound)

omit [IsTrans State R] in
theorem lookup (name : String) : Moves R (Evaluation.lookup name) s fun v s' => Fine s' v :=
  .lookup fun _ => upkeep.found sound

theorem compareNeighbours (tokens : List String) {vs : List Value} (fine : ∀ v ∈ vs, Fine s v) :
    Moves R (Evaluation.compareNeighbours tokens vs) s fun _ _ => True := by
  induction tokens generalizing s vs with
  | nil => exact .pure trivial
  | cons token tokens ih =>
    match vs, fine with
    | [], _ | [_], _ => exact .pure trivial
    | v :: w :: rest, fine =>
      obtain ⟨first, others⟩ := List.forall_mem_cons.mp fine
      have pair : ∀ x ∈ [v, w], Fine s x :=
        List.forall_mem_cons.mpr ⟨first, List.forall_mem_singleton.mpr (others w (List.mem_cons_self ..))⟩
      refine .resolve_bind fun op _ => (upkeep.apply sound op pair).bind fun z s' moved _ => ?_
      refine .require_bind fun holds _ => ?_
      cases holds with
      | true => exact ih (upkeep.sound moved sound) fun x member => upkeep.lasting moved (others x member)
      | false => exact .pure trivial

section Declarations

variable {name : String} (allowed : declaring)
include allowed

omit [IsTrans State R] in
theorem bind {v : Value} (fine : Fine s v) : Moves R (Evaluation.bind name v) s fun _ _ => True :=
  .get_bind (.require_bind fun _ bound => ⟨upkeep.binding allowed sound fine bound, trivial⟩)

omit upkeep [IsTrans State R] sound allowed in
theorem assignable {f : Unit → Evaluation Unit} (next : Moves R (f ()) s fun _ _ => True) :
    Moves R (Evaluation.assignable name >>= f) s fun _ _ => True := by
  have run : Moves R (Evaluation.require (s.env.assignable name) >>= f) s fun _ _ => True :=
    .require_bind fun _ _ => next
  exact run

theorem declareIndividual {rhs : Evaluation (List Value × List Value)} (default : ConceptId)
    (right : Moves R rhs s fun _ _ => True) :
    Moves R (Evaluation.declareIndividual name rhs default) s fun _ _ => True := by
  refine assignable (right.bind fun (bases, others) s₁ moved _ => ?_)
  have sound₁ := upkeep.sound moved sound
  refine .require_bind fun cs _ => .require_bind fun ds _ => ?_
  refine (upkeep.performed sound₁ (.createIndividual name (cs.headD default)) rfl).bind
    fun i s₂ moved fine => ?_
  have sound₂ := upkeep.sound moved sound₁
  refine (upkeep.tells sound₂ _ _).bind fun _ s₃ moved _ => ?_
  exact upkeep.bind (upkeep.sound moved sound₂) allowed (upkeep.lasting moved fine)

theorem declareConcept {rhs : Evaluation (List Value × List Value)} (default : ConceptId)
    (right : Moves R rhs s fun _ _ => True) :
    Moves R (Evaluation.declareConcept name rhs default) s fun _ _ => True := by
  refine assignable (right.bind fun (bases, others) s₁ moved _ => ?_)
  have sound₁ := upkeep.sound moved sound
  dsimp only
  split
  · refine .require_bind fun rs _ => ?_
    refine (upkeep.performed sound₁ (.createRelation name rs) rfl).bind fun r s₂ moved fine => ?_
    exact upkeep.bind (upkeep.sound moved sound₁) allowed fine
  · refine .require_bind fun cs _ => .require_bind fun ds _ => ?_
    refine (upkeep.performed sound₁ (.createConcept name _) rfl).bind fun c s₂ moved fine => ?_
    have sound₂ := upkeep.sound moved sound₁
    refine (upkeep.tells sound₂ _ _).bind fun _ s₃ moved _ => ?_
    exact upkeep.bind (upkeep.sound moved sound₂) allowed (upkeep.lasting moved fine)

theorem declareRelation {rhs : Evaluation (ConceptId × ConceptId)} (right : Moves R rhs s fun _ _ => True) :
    Moves R (Evaluation.declareRelation name rhs) s fun _ _ => True := by
  refine assignable (right.bind fun (domain, range) s₁ moved _ => ?_)
  have sound₁ := upkeep.sound moved sound
  refine (upkeep.performed sound₁ (.createRelation name []) rfl).bind fun r s₂ moved fine => ?_
  have sound₂ := upkeep.sound moved sound₁
  refine (upkeep.performed sound₂ (.setSignature r domain range) rfl).bind fun _ s₃ moved _ => ?_
  exact upkeep.bind (upkeep.sound moved sound₂) allowed (upkeep.lasting moved fine)

theorem define {rhs : Evaluation ConceptId} (default : ConceptId) (right : Moves R rhs s fun _ _ => True) :
    Moves R (Evaluation.define name rhs default) s fun _ _ => True := by
  refine assignable (right.bind fun body s₁ moved _ => ?_)
  have sound₁ := upkeep.sound moved sound
  refine (upkeep.performed sound₁ (.createConcept name [default]) rfl).bind fun c s₂ moved fine => ?_
  have sound₂ := upkeep.sound moved sound₁
  refine (upkeep.performed sound₂ (.addEquivalence (.concept c) body) rfl).bind fun _ s₃ moved _ => ?_
  exact upkeep.bind (upkeep.sound moved sound₂) allowed (upkeep.lasting moved fine)

end Declarations

end Work

omit [Std.Refl R] [IsTrans State R] in
theorem pending {vs : List Value} (fine : ∀ v ∈ vs, Fine s v) {x : Variable} {env : Environment}
    (waits : Value.pending? vs = some (x, env)) (body : Phrase) : Fine s (.deferred x body env) := by
  induction vs with
  | nil => cases waits
  | cons v vs ih =>
    obtain ⟨first, others⟩ := List.forall_mem_cons.mp fine
    cases v with
    | deferred y body' env' =>
      cases waits
      exact upkeep.wrapped first x body
    | _ => exact ih others waits

end Upkeep

section Parts

variable {R : State → State → Prop} {Sound : State → Prop} {Fine : State → Value → Prop} {s : State}

/-- Whether the evaluation of a phrase leads from any sound state to a related one and to what is fine. -/
def Phrase.Kept (R : State → State → Prop) (Sound : State → Prop) (Fine : State → Value → Prop)
    (p : Phrase) : Prop :=
  ∀ ⦃s : State⦄, Sound s → Moves R p.eval s fun v s' => Fine s' v

variable [Std.Refl R] [IsTrans State R]

theorem Phrase.Kept.concept {p : Phrase} (kept : p.Kept R Sound Fine) (sound : Sound s) :
    Moves R (do require (← p.eval).asConcept) s fun _ _ => True :=
  (kept sound).bind fun v _ _ _ => Upkeep.require v.asConcept

variable {declaring : Prop} (upkeep : Upkeep declaring R Sound Fine) (sound : Sound s)
include upkeep sound

theorem Upkeep.evalAll {ps : List Phrase} (each : ∀ p ∈ ps, p.Kept R Sound Fine) :
    Moves R (Phrase.evalAll ps) s fun vs s' => ∀ v ∈ vs, Fine s' v := by
  induction ps generalizing s with
  | nil => exact .pure nofun
  | cons p ps ih =>
    obtain ⟨first, others⟩ := List.forall_mem_cons.mp each
    refine (first sound).bind fun v s' moved fine => ?_
    refine (ih (upkeep.sound moved sound) others).bind fun vs s'' moved' fine' => .pure ?_
    exact List.forall_mem_cons.mpr ⟨upkeep.lasting moved' fine, fine'⟩

theorem Upkeep.parts {ps : List Phrase} (each : ∀ p ∈ ps, p.Kept R Sound Fine) :
    Moves R (Phrase.split ps <$> Phrase.evalAll ps) s fun _ _ => True :=
  (upkeep.evalAll sound each).map fun _ _ _ _ => trivial

theorem Upkeep.domainAndRange {p q : Phrase} (domain : p.Kept R Sound Fine) (range : q.Kept R Sound Fine) :
    Moves R (do
      let domain ← Evaluation.require (← p.eval).asConcept
      return (domain, ← Evaluation.require (← q.eval).asConcept)) s fun _ _ => True := by
  refine (domain sound).bind fun v s' moved _ => .require_bind fun c _ => ?_
  exact (range (upkeep.sound moved sound)).bind fun w _ _ _ => .require_bind fun d _ => .pure trivial

end Parts

section Phrases

variable {declaring : Prop} {R : State → State → Prop} {Sound : State → Prop} {Fine : State → Value → Prop}
variable [Std.Refl R] [IsTrans State R]

/-- Whatever is evaluated keeps what its work keeps. Where nothing may be declared, this is said of
phrases that declare nothing. -/
theorem Upkeep.kept (upkeep : Upkeep declaring R Sound Fine) (p : Phrase) (still : ¬declaring → p.Still) :
    p.Kept R Sound Fine := by
  intro s sound
  match p with
  | .concept name | .individual name | .relation name => exact upkeep.lookup sound name
  | .nominal names =>
    have named : ∀ name ∈ names, ∀ s, True → Moves R (individualNamed name) s fun _ _ => True :=
      fun name _ _ _ => .lookup_bind fun v _ => require v.asIndividual
    refine (Moves.mapM (fun _ _ => trivial) (fun _ _ _ => trivial) named trivial).bind fun is s' moved _ => ?_
    exact upkeep.making (upkeep.sound moved sound) (.nominal is) rfl
  | .var x => exact upkeep.variableValue sound x
  | .anaphora => exact upkeep.lookup sound anaphoraName
  | .negation p =>
    have part := upkeep.kept p fun quiet => by cases still quiet with | negation part => exact part
    refine .resolve_bind fun op _ => (part sound).bind fun v s' moved fine => ?_
    cases v with
    | deferred => exact .pure (upkeep.wrapped fine _ _)
    | _ => exact upkeep.apply (upkeep.sound moved sound) op (List.forall_mem_singleton.mpr fine)
  | .restriction q r p =>
    have relation := upkeep.kept r fun quiet => by cases still quiet with | restriction first _ => exact first
    have part := upkeep.kept p fun quiet => by cases still quiet with | restriction _ second => exact second
    refine (relation sound).bind fun y s₁ moved _ => .require_bind fun relation _ => ?_
    have sound₁ := upkeep.sound moved sound
    refine (part sound₁).bind fun v s₂ moved fine => ?_
    have restricted : ∀ v, Moves R (do
        let c ← Evaluation.require (Value.asConcept v)
        return .concept (← building (Building.restriction q relation c)) : Evaluation Value) s₂
          fun v s' => Fine s' v := fun v => .require_bind fun c _ =>
      upkeep.making (upkeep.sound moved sound₁) (.restriction q relation c) rfl
    cases v with
    | deferred => exact .pure (upkeep.wrapped fine _ _)
    | _ => exact restricted _
  | .junction kind ps =>
    have parts : ∀ p ∈ ps, p.Kept R Sound Fine := fun p member =>
      upkeep.kept p fun quiet => by cases still quiet with | junction parts => exact parts p member
    refine .resolve_bind fun op _ => (upkeep.evalAll sound parts).bind fun vs s' moved fine => ?_
    -- if a part waits for a variable, all waits, in the environment that this part keeps
    split
    · exact .pure (upkeep.pending fine ‹_› _)
    · exact upkeep.apply (upkeep.sound moved sound) op fine
  | .tuple ps =>
    have parts : ∀ p ∈ ps, p.Kept R Sound Fine := fun p member =>
      upkeep.kept p fun quiet => by cases still quiet with | tuple parts => exact parts p member
    refine (upkeep.evalAll sound parts).bind fun vs s' _ fine => .pure ?_
    obtain ⟨bases, others⟩ := split_subset ps vs
    exact upkeep.tuple (fun v member => fine v (bases member)) fun v member => fine v (others member)
  | .declareIndividual name ps =>
    -- no declaration is still, so where one stands something may be declared
    have allowed : declaring := by_contra fun quiet => nomatch still quiet
    have parts : ∀ p ∈ ps, p.Kept R Sound Fine := fun p _ => upkeep.kept p fun quiet => absurd allowed quiet
    exact (upkeep.declareIndividual sound allowed _ (upkeep.parts sound parts)).bind fun _ _ _ _ =>
      .pure upkeep.nothing
  | .declareConcept name ps =>
    have allowed : declaring := by_contra fun quiet => nomatch still quiet
    have parts : ∀ p ∈ ps, p.Kept R Sound Fine := fun p _ => upkeep.kept p fun quiet => absurd allowed quiet
    exact (upkeep.declareConcept sound allowed _ (upkeep.parts sound parts)).bind fun _ _ _ _ =>
      .pure upkeep.nothing
  | .declareRelation name p q =>
    have allowed : declaring := by_contra fun quiet => nomatch still quiet
    have domain := upkeep.kept p fun quiet => absurd allowed quiet
    have range := upkeep.kept q fun quiet => absurd allowed quiet
    exact (upkeep.declareRelation sound allowed (upkeep.domainAndRange sound domain range)).bind
      fun _ _ _ _ => .pure upkeep.nothing
  | .define name p =>
    have allowed : declaring := by_contra fun quiet => nomatch still quiet
    have body := upkeep.kept p fun quiet => absurd allowed quiet
    exact (upkeep.define sound allowed _ (body.concept sound)).bind fun _ _ _ _ => .pure upkeep.nothing
  | .membership p q =>
    have subject := upkeep.kept p fun quiet => by cases still quiet with | membership first _ => exact first
    have concept := upkeep.kept q fun quiet => by cases still quiet with | membership _ second => exact second
    refine (subject sound).bind fun v s₁ moved fine => ?_
    have sound₁ := upkeep.sound moved sound
    refine (concept sound₁).bind fun w s₂ moved fine' => ?_
    split
    · have both : ∀ x ∈ [v, w], Fine s₂ x :=
        List.forall_mem_cons.mpr ⟨upkeep.lasting moved fine, List.forall_mem_singleton.mpr fine'⟩
      exact .pure (upkeep.pending both ‹_› _)
    · exact .require_bind fun i _ => .require_bind fun c _ =>
        (upkeep.performed (upkeep.sound moved sound₁) (.isInstanceOf i c) rfl).bind fun b _ _ _ =>
          .pure (upkeep.boolean b)
  | .comparison ps comparators =>
    have parts : ∀ p ∈ ps, p.Kept R Sound Fine := fun p member =>
      upkeep.kept p fun quiet => by cases still quiet with | comparison parts => exact parts p member
    refine (upkeep.evalAll sound parts).bind fun vs s' moved fine => ?_
    split
    · exact .pure (upkeep.pending fine ‹_› _)
    · exact (upkeep.compareNeighbours (upkeep.sound moved sound) comparators fine).bind fun b _ _ _ =>
        .pure (upkeep.boolean b)
  | .mapping p q =>
    have domain := upkeep.kept p fun quiet => by cases still quiet with | mapping first _ => exact first
    have range := upkeep.kept q fun quiet => by cases still quiet with | mapping _ second => exact second
    refine (domain sound).bind fun v s₁ moved _ => .require_bind fun c _ => ?_
    refine (range (upkeep.sound moved sound)).bind fun w _ _ _ => .require_bind fun d _ => ?_
    exact .pure (upkeep.mapping c d)
  | .program ps =>
    have parts : ∀ p ∈ ps, p.Kept R Sound Fine := fun p member =>
      upkeep.kept p fun quiet => by cases still quiet with | program parts => exact parts p member
    refine (upkeep.evalAll sound parts).bind fun vs s' _ fine => .pure ?_
    rw [List.getLastD_eq_getLast?]
    cases last : vs.getLast? with
    | none => exact upkeep.nothing
    | some v => exact fine v (List.mem_of_getLast? last)
termination_by p

theorem Phrase.evalMapping_eq (p q : Phrase) : evalMapping p q = (do
    let domain ← require (← p.eval).asConcept
    return (domain, ← require (← q.eval).asConcept)) := by
  simp only [evalMapping, evalConcept, bind_assoc]

/-- So do declarations, whatever concept stands in where they name none. -/
theorem Upkeep.create (upkeep : Upkeep declaring R Sound Fine) (allowed : declaring) {p : Phrase}
    {default : ConceptId} {work : Evaluation Unit} (creates : p.create? default = some work) {s : State}
    (sound : Sound s) : Moves R work s fun _ _ => True := by
  have kept : ∀ p : Phrase, p.Kept R Sound Fine := fun p => upkeep.kept p fun quiet => absurd allowed quiet
  cases p with
  | declareIndividual name ps =>
    cases creates
    exact upkeep.declareIndividual sound allowed _ (upkeep.parts sound fun p _ => kept p)
  | declareConcept name ps =>
    cases creates
    exact upkeep.declareConcept sound allowed _ (upkeep.parts sound fun p _ => kept p)
  | declareRelation name p q =>
    cases creates
    rw [Phrase.evalMapping_eq]
    exact upkeep.declareRelation sound allowed (upkeep.domainAndRange sound (kept p) (kept q))
  | define name p =>
    cases creates
    exact upkeep.define sound allowed _ ((kept p).concept sound)
  | _ => cases creates

end Phrases

end ConceptLogic
