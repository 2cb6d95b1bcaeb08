import ConceptLogic.Ontology.Filing
import ConceptLogic.Proofs.Ontology.TableGrowth

namespace ConceptLogic

/-- Whether work on tables ends as other work does on the ontology that they show, with the same
answer or for the same fault, and leaves tables that agree. `done` is what holds if it ends well. -/
def Filing.Mirrors {α : Type} (t : Tables) (x : Filing α) (y : Building α) (done : α → Tables → Prop) : Prop :=
  match x.run t with
  | .ok a t' => y.run t.shown = .ok a t'.shown ∧ t'.Filed ∧ done a t'
  | .error fault t' => y.run t.shown = .error fault t'.shown ∧ t'.Filed

namespace Filing

variable {α β : Type} {t : Tables}

namespace Mirrors

variable {x : Filing α} {y : Building α} {done : α → Tables → Prop}

theorem ran (a : α) (t' : Tables) (run : x.run t = .ok a t') (run' : y.run t.shown = .ok a t'.shown)
    (filed : t'.Filed) (holds : done a t') : Mirrors t x y done := by
  rw [Mirrors, run]
  exact ⟨run', filed, holds⟩

theorem pure (filed : t.Filed) {a : α} (holds : done a t) : Mirrors t (Pure.pure a) (Pure.pure a) done :=
  ran a t rfl rfl filed holds

theorem throw (filed : t.Filed) (fault : Fault) : Mirrors t (throw fault) (throw fault) done :=
  ⟨rfl, filed⟩

theorem mono {done' : α → Tables → Prop} (mirrors : Mirrors t x y done)
    (weaker : ∀ a t', done a t' → done' a t') : Mirrors t x y done' := by
  unfold Mirrors at mirrors ⊢
  split
  · rename_i run
    rw [run] at mirrors
    exact ⟨mirrors.1, mirrors.2.1, weaker _ _ mirrors.2.2⟩
  · rename_i run
    rw [run] at mirrors
    exact mirrors

theorem bind {f : α → Filing β} {g : α → Building β} {done' : β → Tables → Prop} (first : Mirrors t x y done)
    (next : ∀ a t', t'.Filed → done a t' → Mirrors t' (f a) (g a) done') :
    Mirrors t (x >>= f) (y >>= g) done' := by
  unfold Mirrors at first ⊢
  rw [EStateM.run_bind, EStateM.run_bind]
  cases run : x.run t with
  | ok a t' =>
    rw [run] at first
    rw [first.1]
    exact next a t' first.2.1 first.2.2
  | error fault t' =>
    rw [run] at first
    rw [first.1]
    exact ⟨rfl, first.2⟩

theorem map {f : α → β} (mirrors : Mirrors t x y done) :
    Mirrors t (f <$> x) (f <$> y) fun _ _ => True := by
  rw [map_eq_pure_bind, map_eq_pure_bind]
  exact mirrors.bind fun _ _ filed _ => pure filed trivial

theorem get_bind {f : Tables → Filing α} {g : Ontology → Building α}
    (next : Mirrors t (f t) (g t.shown) done) : Mirrors t (get >>= f) (get >>= g) done := next

/-- Work that waits for a check. -/
theorem after {check : Filing Unit} {check' : Building Unit} {p : Prop}
    (first : Mirrors t check check' fun _ t' => t' = t ∧ p) (next : p → Mirrors t x y done) :
    Mirrors t (do check; x) (do check'; y) done := by
  refine first.bind fun _ t' _ ⟨same, holds⟩ => ?_
  rw [same]
  exact next holds

theorem forM (filed : t.Filed) {f : β → Filing Unit} {g : β → Building Unit} {known : β → Prop}
    (each : ∀ b, Mirrors t (f b) (g b) fun _ t' => t' = t ∧ known b) (bs : List β) :
    Mirrors t (bs.forM f) (bs.forM g) fun _ t' => t' = t ∧ ∀ b ∈ bs, known b := by
  induction bs with
  | nil => exact pure filed ⟨rfl, nofun⟩
  | cons b bs ih =>
    refine (each b).after fun holds => ih.mono fun _ _ ⟨same, rest⟩ => ⟨same, ?_⟩
    exact List.forall_mem_cons.mpr ⟨holds, rest⟩

theorem mapM (filed : t.Filed) {f : β → Filing α} {g : β → Building α}
    (each : ∀ b, Mirrors t (f b) (g b) fun _ t' => t' = t) (bs : List β) :
    Mirrors t (bs.mapM f) (bs.mapM g) fun _ t' => t' = t := by
  induction bs with
  | nil => exact pure filed rfl
  | cons b bs ih =>
    rw [List.mapM_cons, List.mapM_cons]
    refine (each b).bind fun _ t' _ same => ?_
    rw [same]
    exact ih.bind fun _ _ filed same => pure filed same

/-- What one lookup misses the other misses. -/
theorem require (filed : t.Filed) {f : Tables → Option α} {g : Ontology → Option α} (same : g t.shown = f t)
    (fault : Fault) :
    Mirrors t (do if (f (← get)).isNone then MonadExcept.throw fault)
      (do if (g (← get)).isNone then MonadExcept.throw fault) fun _ t' => t' = t ∧ ∃ a, f t = some a := by
  refine get_bind ?_
  rw [same]
  cases f t with
  | none => exact throw filed fault
  | some a => exact pure filed ⟨rfl, a, rfl⟩

end Mirrors

open Tables

section Operations

variable (filed : t.Filed)
include filed

theorem requireConcept_mirrors (c : ConceptId) :
    Mirrors t (requireConcept c) (Building.requireConcept c) fun _ t' => t' = t ∧ t.Knows (.concept c) :=
  .require filed (expression?_shown filed c) _

theorem requireIndividual_mirrors (i : IndividualId) :
    Mirrors t (requireIndividual i) (Building.requireIndividual i) fun _ t' => t' = t ∧ t.Knows (.individual i) :=
  .require filed (individualName?_shown filed i) _

theorem requireRelation_mirrors (r : RelationId) :
    Mirrors t (requireRelation r) (Building.requireRelation r) fun _ t' => t' = t ∧ t.Knows (.relation r) :=
  .require filed (relationName?_shown filed r) _

theorem requireFresh_mirrors (name : String) :
    Mirrors t (requireFresh name) (Building.requireFresh name) fun _ t' => t' = t ∧
      t.conceptOf? (.named name) = none ∧ t.individualNamed? name = none ∧ t.relationNamed? name = none := by
  refine .get_bind ?_
  rw [Ontology.conceptNamed?, conceptOf?_shown filed, individualNamed?_shown filed, relationNamed?_shown filed]
  cases t.conceptOf? (.named name) with
  | some c => exact .throw filed _
  | none =>
    cases t.individualNamed? name with
    | some i => exact .throw filed _
    | none =>
      cases t.relationNamed? name with
      | some r => exact .throw filed _
      | none => exact .pure filed ⟨rfl, rfl, rfl, rfl⟩

theorem keep_mirrors (e : Expression) : Mirrors t (keep e) (Building.keep e) fun _ _ => True := by
  refine .get_bind ?_
  rw [conceptOf?_shown filed]
  cases missing : t.conceptOf? e with
  | some c => exact .pure filed trivial
  | none =>
    refine .ran ⟨t.bound + 1⟩ (t.addingConcept e) rfl ?_ (filed.addingConcept missing) trivial
    rw [addingConcept_shown filed missing, ← size_shown filed]
    rfl

/-- A concept is filed before it is told its bases. Both together show as one new entry. -/
theorem createConcept_mirrors (name : String) (bases : List ConceptId) :
    Mirrors t (createConcept name bases) (Building.createConcept name bases) fun _ _ => True := by
  refine (requireFresh_mirrors filed name).after fun ⟨missing, _⟩ => ?_
  refine (Mirrors.forM filed (requireConcept_mirrors filed) bases).after fun _ => ?_
  have kept : (keep (.named name)).run t = .ok ⟨t.bound + 1⟩ (t.addingConcept (.named name)) := by
    unfold keep
    rw [EStateM.run_bind, EStateM.run_get]
    dsimp only
    rw [missing]
    rfl
  refine .ran ⟨t.bound + 1⟩ (t.addingNamed name (if bases.isEmpty then [t.top] else bases)) ?_ ?_
    (filed.addingNamed missing _) trivial
  · rw [EStateM.run_bind, kept]
    rfl
  · rw [addingNamed_shown filed missing, ← size_shown filed, ← filed.top]
    rfl

theorem createIndividual_mirrors (name : String) (type : ConceptId) :
    Mirrors t (createIndividual name type) (Building.createIndividual name type) fun _ _ => True := by
  refine (requireFresh_mirrors filed name).after fun ⟨_, missing, _⟩ => ?_
  refine (requireConcept_mirrors filed type).after fun _ => ?_
  refine .ran ⟨t.bound + 1⟩ (t.addingIndividual name [type]) rfl ?_ (filed.addingIndividual missing [type]) trivial
  rw [addingIndividual_shown filed missing, ← size_shown filed]
  rfl

theorem createRelation_mirrors (name : String) (supers : List RelationId) :
    Mirrors t (createRelation name supers) (Building.createRelation name supers) fun _ _ => True := by
  refine (requireFresh_mirrors filed name).after fun ⟨_, _, missing⟩ => ?_
  refine (Mirrors.forM filed (requireRelation_mirrors filed) supers).after fun _ => ?_
  refine .ran ⟨t.bound + 1⟩ (t.addingRelation name supers) rfl ?_ (filed.addingRelation missing supers) trivial
  rw [addingRelation_shown filed missing, ← size_shown filed]
  rfl

theorem tell_mirrors {d : ConceptId} (known : t.Knows (.concept d)) {f : Edges → Edges} {g : Entry → Entry}
    (told : ∀ e edges, g (.concept e edges.isA edges.equivalentTo) =
      .concept e (f edges).isA (f edges).equivalentTo) :
    Mirrors t (tell d f) (Building.change d.id g) fun _ t' => t'.Knows = t.Knows := by
  refine .ran () (t.telling d f) rfl ?_ (filed.telling known f) (telling_knows d f)
  rw [telling_shown filed known told]
  rfl

theorem addIsA_mirrors (e : Entity) (c : ConceptId) :
    Mirrors t (addIsA e c) (Building.addIsA e c) fun _ _ => True := by
  refine (requireConcept_mirrors filed c).after fun _ => ?_
  cases e with
  | concept d =>
    refine (requireConcept_mirrors filed d).after fun known => ?_
    exact (tell_mirrors filed known fun _ _ => rfl).mono fun _ _ _ => trivial
  | individual i =>
    refine (requireIndividual_mirrors filed i).after fun known => ?_
    refine .ran () (t.typing i (t.types i ++ [c])) rfl ?_ (filed.typing known _) trivial
    rw [typing_shown filed known]
    rfl
  | relation r => exact .throw filed _

theorem addEquivalence_mirrors (e : Entity) (c : ConceptId) :
    Mirrors t (addEquivalence e c) (Building.addEquivalence e c) fun _ _ => True := by
  refine (requireConcept_mirrors filed c).after fun concept => ?_
  cases e with
  | concept d =>
    refine (requireConcept_mirrors filed d).after fun known => ?_
    refine (tell_mirrors filed known fun _ _ => rfl).bind fun _ t' filed' same => ?_
    exact (tell_mirrors filed' (same ▸ concept) fun _ _ => rfl).mono fun _ _ _ => trivial
  | _ => exact .get_bind (.throw filed _)

theorem setSignature_mirrors (r : RelationId) (domain range : ConceptId) :
    Mirrors t (setSignature r domain range) (Building.setSignature r domain range) fun _ _ => True := by
  refine (requireRelation_mirrors filed r).after fun known => ?_
  refine (requireConcept_mirrors filed domain).after fun _ => ?_
  refine (requireConcept_mirrors filed range).after fun _ => ?_
  refine .ran () (t.signing r (domain, range)) rfl ?_ (filed.signing known _) trivial
  rw [signing_shown filed known]
  rfl

theorem parts_mirrors (operands? : Expression → Option (List ConceptId)) (c : ConceptId) :
    Mirrors t (parts operands? c) (Building.parts operands? c) fun _ t' => t' = t := by
  refine .get_bind ?_
  rw [expression?_shown filed]
  cases t.expression? c with
  | none => exact .throw filed _
  | some e => exact .pure filed rfl

theorem connect_mirrors (operands? : Expression → Option (List ConceptId))
    (make : List ConceptId → Expression) (cs : List ConceptId) :
    Mirrors t (connect operands? make cs) (Building.connect operands? make cs) fun _ _ => True := by
  refine (Mirrors.mapM filed (parts_mirrors filed operands?) cs).bind fun all t' filed' _ => ?_
  match Handle.sorted all.flatten with
  | [] => exact .throw filed' _
  | [c] => exact .pure filed' trivial
  | c :: d :: rest => exact keep_mirrors filed' _

theorem negation_mirrors (c : ConceptId) :
    Mirrors t (negation c) (Building.negation c) fun _ _ => True := by
  refine .get_bind ?_
  rw [expression?_shown filed]
  cases t.expression? c with
  | none => exact .throw filed _
  | some e =>
    cases e with
    | negation x => exact .pure filed trivial
    | _ => exact keep_mirrors filed _

theorem nominal_mirrors (is : List IndividualId) :
    Mirrors t (nominal is) (Building.nominal is) fun _ _ => True :=
  (Mirrors.forM filed (requireIndividual_mirrors filed) is).after fun _ => keep_mirrors filed _

theorem restriction_mirrors (q : Quantifier) (r : RelationId) (c : ConceptId) :
    Mirrors t (restriction q r c) (Building.restriction q r c) fun _ _ => True :=
  (requireRelation_mirrors filed r).after fun _ =>
    (requireConcept_mirrors filed c).after fun _ => keep_mirrors filed _

theorem isSubsumedBy_mirrors (c d : ConceptId) :
    Mirrors t (isSubsumedBy c d) (Building.isSubsumedBy c d) fun _ _ => True :=
  (requireConcept_mirrors filed c).after fun _ =>
    (requireConcept_mirrors filed d).after fun _ => .get_bind (.pure filed trivial)

theorem isEquivalentTo_mirrors (c d : ConceptId) :
    Mirrors t (isEquivalentTo c d) (Building.isEquivalentTo c d) fun _ _ => True := by
  refine (isSubsumedBy_mirrors filed c d).bind fun below t' filed' _ => ?_
  cases below with
  | true => exact isSubsumedBy_mirrors filed' d c
  | false => exact .pure filed' trivial

theorem isInstanceOf_mirrors (i : IndividualId) (c : ConceptId) :
    Mirrors t (isInstanceOf i c) (Building.isInstanceOf i c) fun _ _ => True :=
  (requireIndividual_mirrors filed i).after fun _ =>
    (requireConcept_mirrors filed c).after fun _ => .get_bind (.pure filed trivial)

end Operations

end Filing

namespace Call

variable {t : Tables}

/-- Every call does to the tables what it does to the ontology that they show. -/
theorem file_mirrors (filed : t.Filed) (call : Call) :
    Filing.Mirrors t call.file call.perform fun _ _ => True := by
  cases call with
  | createConcept name bases => exact (Filing.createConcept_mirrors filed name bases).map
  | createIndividual name type => exact (Filing.createIndividual_mirrors filed name type).map
  | createRelation name supers => exact (Filing.createRelation_mirrors filed name supers).map
  | addIsA e c => exact (Filing.addIsA_mirrors filed e c).map
  | addEquivalence e c => exact (Filing.addEquivalence_mirrors filed e c).map
  | setSignature r domain range => exact (Filing.setSignature_mirrors filed r domain range).map
  | conjunction cs => exact (Filing.connect_mirrors filed _ _ cs).map
  | disjunction cs => exact (Filing.connect_mirrors filed _ _ cs).map
  | negation c => exact (Filing.negation_mirrors filed c).map
  | nominal is => exact (Filing.nominal_mirrors filed is).map
  | restriction q r c => exact (Filing.restriction_mirrors filed q r c).map
  | isSubsumedBy c d => exact (Filing.isSubsumedBy_mirrors filed c d).map
  | isEquivalentTo c d => exact (Filing.isEquivalentTo_mirrors filed c d).map
  | isInstanceOf i c => exact (Filing.isInstanceOf_mirrors filed i c).map

end Call

namespace Tables

variable {t : Tables}

theorem Filed.after (filed : t.Filed) (call : Call) :
    (t.after call).Filed ∧ (t.after call).shown = call.after t.shown := by
  have mirrors := call.file_mirrors filed
  unfold Filing.Mirrors at mirrors
  unfold Tables.after Call.after
  split
  · rename_i run
    rw [run] at mirrors
    rw [mirrors.1]
    exact ⟨mirrors.2.1, rfl⟩
  · rename_i run
    rw [run] at mirrors
    rw [mirrors.1]
    exact ⟨mirrors.2, rfl⟩

theorem Filed.afterAll (filed : t.Filed) (calls : List Call) :
    (t.afterAll calls).Filed ∧ (t.afterAll calls).shown = t.shown.afterAll calls := by
  induction calls generalizing t with
  | nil => exact ⟨filed, rfl⟩
  | cons call calls ih =>
    obtain ⟨filed', shown⟩ := filed.after call
    obtain ⟨filed'', shown'⟩ := ih filed'
    exact ⟨filed'', shown'.trans (congrArg (·.afterAll calls) shown)⟩

end Tables

end ConceptLogic
