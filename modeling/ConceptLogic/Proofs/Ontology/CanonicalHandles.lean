import ConceptLogic.Proofs.Evaluation.StableEvaluation
import ConceptLogic.Proofs.Ontology.Consistency
import ConceptLogic.Proofs.Ontology.TwinConcepts

namespace ConceptLogic

/-- Whether a call builds a concept from what is known. -/
def Call.builds : Call → Bool
  | .conjunction _ | .disjunction _ | .negation _ | .nominal _ | .restriction .. => true
  | _ => false

/-- Operands of a connective, put together in groups, groups of groups and so on. -/
inductive Grouping
  | one (c : ConceptId)
  | group (first : Grouping) (rest : List Grouping)

namespace Grouping

mutual

def members : Grouping → List ConceptId
  | one c => [c]
  | group g gs => g.members ++ membersAll gs

def membersAll : List Grouping → List ConceptId
  | [] => []
  | g :: gs => g.members ++ membersAll gs

end

variable (join : List ConceptId → Building ConceptId)

mutual

/-- Joins each group, the inner ones first. -/
def build : Grouping → Building ConceptId
  | one c => return c
  | group g gs => do
    let c ← g.build
    let cs ← buildAll gs
    join (c :: cs)

def buildAll : List Grouping → Building (List ConceptId)
  | [] => return []
  | g :: gs => do
    let c ← g.build
    let cs ← buildAll gs
    return c :: cs

end

end Grouping

namespace Ontology

/-- What a concept comes to among the operands of a connective: itself, unless it is made by the
same connective, and then whatever its own operands come to. -/
inductive Splices (o : Ontology) (make : List ConceptId → Expression) : ConceptId → ConceptId → Prop
  | itself {c} : o.Knows (.concept c) → (∀ xs, o.expression? c ≠ some (make xs)) → Splices o make c c
  | inner {c d x xs} : o.expression? c = some (make xs) → d ∈ xs → Splices o make d x → Splices o make c x

/-- The normalised expression of concepts that are joined. A single operand stands for itself. -/
inductive Joins (o : Ontology) (make : List ConceptId → Expression) (cs : List ConceptId) : Expression → Prop
  | several {xs} : 2 ≤ xs.length → xs.Pairwise (·.id < ·.id) →
      (∀ x, x ∈ xs ↔ ∃ c ∈ cs, o.Splices make c x) → Joins o make cs (make xs)
  | single {x e} : (∀ y, (∃ c ∈ cs, o.Splices make c y) ↔ y = x) → o.expression? x = some e → Joins o make cs e

/-- The normalised expression of what a call builds. -/
inductive Normalises (o : Ontology) : Call → Expression → Prop
  | conjunction {cs e} : o.Joins .conjunction cs e → Normalises o (.conjunction cs) e
  | disjunction {cs e} : o.Joins .disjunction cs e → Normalises o (.disjunction cs) e
  | negation {c} : (∀ x, o.expression? c ≠ some (.negation x)) → Normalises o (.negation c) (.negation c)
  | cancelled {c x e} : o.expression? c = some (.negation x) → o.expression? x = some e →
      Normalises o (.negation c) e
  | nominal {is js} : js.Pairwise (·.id < ·.id) → (∀ i, i ∈ js ↔ i ∈ is) →
      Normalises o (.nominal is) (.nominal js)
  | restriction {q r c} : Normalises o (.restriction q r c) (.restriction q r c)

/-- An ontology in the order that calls keep it in. -/
structure Standing (o : Ontology) : Prop where
  wellFormed : o.WellFormed
  consistent : o.Consistent

variable {o o' : Ontology} {c d x : ConceptId} {cs : List ConceptId} {e : Expression}

theorem Reached.standing {name : String} (reached : Reached name o) : o.Standing :=
  ⟨reached.wellFormed, reached.consistent⟩

namespace Standing

theorem grown (standing : o.Standing) (grows : o.Grows o') : o'.Standing :=
  ⟨standing.wellFormed.grown grows, standing.consistent.grown grows⟩

theorem afterAll (standing : o.Standing) (calls : List Call) :
    o.Within (o.afterAll calls) ∧ (o.afterAll calls).Standing := by
  induction calls generalizing o with
  | nil => exact ⟨.refl o, standing⟩
  | cons call calls ih =>
    have evolves := call.after_evolves standing.wellFormed
    obtain ⟨within, standing'⟩ := ih ⟨standing.wellFormed.evolve evolves, standing.consistent.evolve evolves⟩
    exact ⟨evolves.within.trans within, standing'⟩

end Standing

/-- Whether concepts are known, after some work, that have all together the parts of those from before. -/
structure Gathers (operands? : Expression → Option (List ConceptId)) (o : Ontology) (ms cs : List ConceptId)
    (o' : Ontology) : Prop where
  within : o.Within o'
  standing : o'.Standing
  known : ∀ c ∈ cs, o'.Knows (.concept c)
  parts : ∀ x, (∃ c ∈ cs, x ∈ o'.partsUnder operands? c) ↔ ∃ m ∈ ms, x ∈ o.partsUnder operands? m

theorem partsUnder_within {operands? : Expression → Option (List ConceptId)} (within : o.Within o')
    (known : o.Knows (.concept c)) : o'.partsUnder operands? c = o.partsUnder operands? c := by
  rw [partsUnder, partsUnder, within.expression?_eq known]

namespace Gathers

variable {operands? : Expression → Option (List ConceptId)} {ms ns ds : List ConceptId} {o'' : Ontology}

theorem refl (standing : o.Standing) (known : ∀ c ∈ cs, o.Knows (.concept c)) : o.Gathers operands? cs cs o :=
  ⟨.refl o, standing, known, fun _ => .rfl⟩

theorem trans (first : o.Gathers operands? ms cs o') (second : o'.Gathers operands? cs ds o'') :
    o.Gathers operands? ms ds o'' :=
  ⟨first.within.trans second.within, second.standing, second.known,
    fun x => (second.parts x).trans (first.parts x)⟩

theorem lone (within : o.Within o') (standing : o'.Standing) (known : o'.Knows (.concept c) ∧
    ∀ x, x ∈ o'.partsUnder operands? c ↔ ∃ m ∈ ms, x ∈ o.partsUnder operands? m) :
    o.Gathers operands? ms [c] o' :=
  ⟨within, standing, List.forall_mem_singleton.mpr known.1, fun x => by simpa using known.2 x⟩

theorem lone_known (gathers : o.Gathers operands? ms [c] o') : o'.Knows (.concept c) :=
  gathers.known c (List.mem_singleton.mpr rfl)

theorem lone_parts (gathers : o.Gathers operands? ms [c] o') (x : ConceptId) :
    x ∈ o'.partsUnder operands? c ↔ ∃ m ∈ ms, x ∈ o.partsUnder operands? m := by
  rw [← gathers.parts]
  simp

/-- What was gathered first is not lost when more is gathered. -/
theorem cons (first : o.Gathers operands? ms [c] o') (known : ∀ n ∈ ns, o.Knows (.concept n))
    (second : o'.Gathers operands? ns cs o'') : o.Gathers operands? (ms ++ ns) (c :: cs) o'' := by
  refine ⟨first.within.trans second.within, second.standing,
    List.forall_mem_cons.mpr ⟨second.within.knows first.lone_known, second.known⟩, fun x => ?_⟩
  rw [List.exists_mem_cons_iff, partsUnder_within second.within first.lone_known, first.lone_parts,
    second.parts]
  simp only [List.mem_append, or_and_right, exists_or]
  refine or_congr_right (exists_congr fun n => and_congr_right fun member => ?_)
  rw [partsUnder_within first.within (known n member)]

end Gathers

end Ontology

namespace Connects

variable {operands? : Expression → Option (List ConceptId)} {make : List ConceptId → Expression}
  {o o' : Ontology} {c d x : ConceptId} {cs : List ConceptId} (connects : Connects operands? make)
include connects

theorem parts_cases (wf : o.WellFormed) (known : o.Knows (.concept c)) :
    (∃ xs, o.expression? c = some (make xs) ∧ o.partsUnder operands? c = xs ∧ 2 ≤ xs.length ∧
      xs.Pairwise (·.id < ·.id)) ∨
    (∀ xs, o.expression? c ≠ some (make xs)) ∧ o.partsUnder operands? c = [c] := by
  by_cases made : ∃ xs, o.expression? c = some (make xs)
  · obtain ⟨xs, made⟩ := made
    obtain ⟨several, increasing, _⟩ := (connects.normal o xs).mp (wf.normal made)
    exact .inl ⟨xs, made, connects.partsUnder_made made, several, increasing⟩
  · have other : ∀ xs, o.expression? c ≠ some (make xs) := fun xs here => made ⟨xs, here⟩
    exact .inr ⟨other, connects.partsUnder_other known other⟩

theorem parts_increasing (wf : o.WellFormed) (known : o.Knows (.concept c)) :
    (o.partsUnder operands? c).Pairwise (·.id < ·.id) := by
  rcases connects.parts_cases wf known with ⟨xs, _, parts, _, increasing⟩ | ⟨_, parts⟩
  · exact parts ▸ increasing
  · exact parts ▸ List.pairwise_singleton ..

theorem parts_ne_nil (wf : o.WellFormed) (known : o.Knows (.concept c)) : o.partsUnder operands? c ≠ [] := by
  rcases connects.parts_cases wf known with ⟨xs, _, parts, several, _⟩ | ⟨_, parts⟩
  · exact parts ▸ List.ne_nil_of_length_pos (by omega)
  · rw [parts]
    exact List.cons_ne_nil _ _

/-- Concepts are told apart by their parts under a connective. -/
theorem eq_of_parts (standing : o.Standing) (known : o.Knows (.concept c)) (known' : o.Knows (.concept d))
    (same : ∀ x, x ∈ o.partsUnder operands? c ↔ x ∈ o.partsUnder operands? d) : c = d := by
  have wf := standing.wellFormed
  have parts := Handle.eq_of_mem_iff (connects.parts_increasing wf known)
    (connects.parts_increasing wf known') same
  rcases connects.parts_cases wf known with ⟨xs, made, left, several, _⟩ | ⟨_, left⟩ <;>
    rcases connects.parts_cases wf known' with ⟨ys, made', right, several', _⟩ | ⟨_, right⟩ <;>
    rw [left, right] at parts
  · exact standing.consistent.distinct made (parts ▸ made')
  · simp [parts] at several
  · simp [← parts] at several'
  · exact List.singleton_injective parts

/-- As operands are in normal form, splicing comes to an end after one level. -/
theorem splices_iff (wf : o.WellFormed) (known : o.Knows (.concept c)) :
    o.Splices make c x ↔ x ∈ o.partsUnder operands? c := by
  constructor
  · intro splices
    induction splices with
    | itself known other => simp [connects.partsUnder_other known other]
    | @inner c d x xs made member _ ih =>
      have part : d ∈ o.partsUnder operands? c := connects.partsUnder_made made ▸ member
      obtain ⟨known', other⟩ := connects.part_known wf known part
      have lone := ih known'
      rw [connects.partsUnder_other known' other, List.mem_singleton] at lone
      exact lone ▸ part
  · intro part
    obtain ⟨known', other⟩ := connects.part_known wf known part
    rcases connects.parts_cases wf known with ⟨xs, made, parts, _⟩ | ⟨_, parts⟩
    · exact .inner made (parts ▸ part) (.itself known' other)
    · rw [parts, List.mem_singleton] at part
      exact part ▸ .itself known' other

/-- Known concepts can be joined, and what they make has the parts of all of them. -/
theorem connect_gathers (standing : o.Standing) (known : ∀ c ∈ cs, o.Knows (.concept c)) (filled : cs ≠ []) :
    ∃ d o', (Building.connect operands? make cs).run o = .ok d o' ∧ o.Gathers operands? cs [d] o' := by
  have wf := standing.wellFormed
  have joined : o.joined operands? cs ≠ [] := by
    obtain ⟨c, member⟩ := List.exists_mem_of_ne_nil cs filled
    obtain ⟨x, part⟩ := List.exists_mem_of_ne_nil _ (connects.parts_ne_nil wf (known c member))
    exact List.ne_nil_of_mem (Ontology.mem_joined.mpr ⟨c, member, part⟩)
  have grows := connects.grows wf known joined
  have run := (Building.connect_yields operands? make cs).1 ⟨known, joined⟩
  have each : ∀ {x}, x ∈ o.joined operands? cs → _ := connects.joined_known wf known
  refine ⟨_, _, run, .lone grows.within (standing.grown grows) ?_⟩
  simp only [← Ontology.mem_joined]
  revert joined each
  match o.joined operands? cs with
  | [] => exact fun nonempty => absurd rfl nonempty
  | [c] =>
    intro _ each
    obtain ⟨known', other⟩ := each (List.mem_singleton.mpr rfl)
    exact ⟨known', fun x => by rw [connects.partsUnder_other known' other]⟩
  | a :: b :: rest =>
    intro _ _
    have made := o.keeping_expression? (make (a :: b :: rest))
    exact ⟨⟨_, made⟩, fun x => by rw [connects.partsUnder_made made]⟩

/-- The normalised expression of joined concepts is the expression of the concept that has their parts. -/
theorem joins_iff (wf : o.WellFormed) (given : ∀ c ∈ cs, o.Knows (.concept c))
    (gathers : o.Gathers operands? cs [d] o') {e : Expression} :
    o.Joins make cs e ↔ o'.expression? d = some e := by
  have wf' := gathers.standing.wellFormed
  have known := gathers.lone_known
  have spliced : ∀ x, (∃ c ∈ cs, o.Splices make c x) ↔ x ∈ o'.partsUnder operands? d := by
    intro x
    rw [gathers.lone_parts]
    exact exists_congr fun c => and_congr_right fun member => connects.splices_iff wf (given c member)
  have unique : ∀ {xs : List ConceptId}, xs.Pairwise (·.id < ·.id) →
      (∀ x, x ∈ xs ↔ ∃ c ∈ cs, o.Splices make c x) → xs = o'.partsUnder operands? d :=
    fun increasing members => Handle.eq_of_mem_iff increasing (connects.parts_increasing wf' known)
      fun x => (members x).trans (spliced x)
  constructor
  · rintro (⟨several, increasing, members⟩ | ⟨only, made⟩)
    · obtain rfl := unique increasing members
      rcases connects.parts_cases wf' known with ⟨xs, made, parts, _⟩ | ⟨_, parts⟩
      · exact parts ▸ made
      · simp [parts] at several
    · have lone := unique (List.pairwise_singleton ..) fun y => List.mem_singleton.trans (only y).symm
      rcases connects.parts_cases wf' known with ⟨xs, _, parts, several, _⟩ | ⟨_, parts⟩
      · simp [← parts, ← lone] at several
      · obtain rfl := List.singleton_injective (lone.trans parts)
        exact gathers.within.expression? made
  · intro made
    rcases connects.parts_cases wf' known with ⟨xs, made', parts, several, increasing⟩ | ⟨_, parts⟩
    · cases made.symm.trans made'
      exact .several several increasing fun x => by rw [spliced, parts]
    · have here : d ∈ o'.partsUnder operands? d := parts ▸ List.mem_singleton.mpr rfl
      obtain ⟨c, member, part⟩ := (gathers.lone_parts d).mp here
      have old := (connects.part_known wf (given c member) part).1
      refine .single (x := d) (fun y => ?_) (gathers.within.expression?_eq old ▸ made)
      rw [spliced, parts, List.mem_singleton]

end Connects

namespace Building

variable {o o' : Ontology} {c : ConceptId}

/-- What a successful connective gave, told by its parts. -/
theorem connect_normalised {operands? : Expression → Option (List ConceptId)}
    {make : List ConceptId → Expression} (connects : Connects operands? make) (standing : o.Standing)
    {cs : List ConceptId} (run : (connect operands? make cs).run o = .ok c o') :
    ∃ e, o'.expression? c = some e ∧ ∀ e', o.Joins make cs e' ↔ e' = e := by
  obtain ⟨⟨known, joined⟩, _⟩ := (connect_yields operands? make cs).of_ok run
  have filled : cs ≠ [] := by
    rintro rfl
    exact joined rfl
  obtain ⟨d, o'', run', gathers⟩ := connects.connect_gathers standing known filled
  cases run.symm.trans run'
  obtain ⟨e, atC⟩ := gathers.lone_known
  refine ⟨e, atC, fun e' => (connects.joins_iff standing.wellFormed known gathers).trans ?_⟩
  rw [atC, Option.some.injEq, eq_comm]

/-- A negation takes back another one, or else is made itself. -/
theorem negation_cases {x : ConceptId} (run : (negation x).run o = .ok c o') :
    o.expression? x = some (.negation c) ∧ o' = o ∨
      (∀ y, o.expression? x ≠ some (.negation y)) ∧ o'.expression? c = some (.negation x) := by
  obtain ⟨⟨e, atX⟩, same, same'⟩ := (negation_yields x).of_ok run
  rw [atX] at same same'
  cases e with
  | negation y =>
    subst same
    exact .inl ⟨atX, same'⟩
  | _ =>
    subst same same'
    exact .inr ⟨fun y made => absurd (atX.symm.trans made) (by simp), o.keeping_expression? _⟩

theorem negation_normalised (standing : o.Standing) {x : ConceptId} (run : (negation x).run o = .ok c o') :
    ∃ e, o'.expression? c = some e ∧ ∀ e', o.Normalises (.negation x) e' ↔ e' = e := by
  rcases negation_cases run with ⟨made, rfl⟩ | ⟨plain, made⟩
  · obtain ⟨e, atC⟩ := standing.wellFormed.negated_known made
    refine ⟨e, atC, fun e' => ⟨?_, ?_⟩⟩
    · rintro (_ | _ | plain | ⟨made', found⟩)
      · exact absurd made (plain c)
      · cases made.symm.trans made'
        exact Option.some.inj (found.symm.trans atC)
    · rintro rfl
      exact .cancelled made atC
  · refine ⟨_, made, fun e' => ⟨?_, ?_⟩⟩
    · rintro (_ | _ | _ | ⟨made', _⟩)
      · rfl
      · exact absurd made' (plain _)
    · rintro rfl
      exact .negation plain

theorem nominal_normalised {is : List IndividualId} (run : (nominal is).run o = .ok c o') :
    ∃ e, o'.expression? c = some e ∧ ∀ e', o.Normalises (.nominal is) e' ↔ e' = e := by
  obtain ⟨_, rfl, rfl⟩ := (nominal_yields is).of_ok run
  refine ⟨_, o.keeping_expression? _, fun e' => ⟨?_, ?_⟩⟩
  · rintro (_ | _ | _ | _ | ⟨increasing, members⟩)
    have sorted := Handle.sorted_increasing is
    exact congrArg _ (Handle.eq_of_mem_iff increasing sorted fun i => (members i).trans Handle.mem_sorted.symm)
  · rintro rfl
    exact .nominal (Handle.sorted_increasing is) fun i => Handle.mem_sorted

end Building

namespace Call

open Building

variable {o o' : Ontology} {c : ConceptId} {call : Call}

/-- Whatever a call builds has its normalised expression, of which there is one. -/
theorem normalised (standing : o.Standing) (builds : call.builds = true)
    (run : call.perform.run o = .ok (.concept c) o') :
    ∃ e, o'.expression? c = some e ∧ ∀ e', o.Normalises call e' ↔ e' = e := by
  have built : ∀ {x : Building ConceptId}, (Answer.concept <$> x).run o = .ok (.concept c) o' →
      x.run o = .ok c o' := by
    intro x run
    obtain ⟨_, built, ⟨⟩⟩ := run_map_eq_ok.mp run
    exact built
  cases call with
  | conjunction cs =>
    obtain ⟨e, made, joins⟩ := connect_normalised connects_conjunction standing (built run)
    refine ⟨e, made, fun e' => Iff.trans ⟨?_, .conjunction⟩ (joins e')⟩
    rintro ⟨joins⟩
    exact joins
  | disjunction cs =>
    obtain ⟨e, made, joins⟩ := connect_normalised connects_disjunction standing (built run)
    refine ⟨e, made, fun e' => Iff.trans ⟨?_, .disjunction⟩ (joins e')⟩
    rintro (_ | joins)
    exact joins
  | negation x => exact negation_normalised standing (built run)
  | nominal is => exact nominal_normalised (built run)
  | restriction q r x =>
    obtain ⟨_, rfl, rfl⟩ := (restriction_yields q r x).of_ok (built run)
    refine ⟨_, o.keeping_expression? _, fun e' => ⟨?_, ?_⟩⟩
    · rintro ⟨⟩
      rfl
    · rintro rfl
      exact .restriction
  | _ => cases builds

/-- Where an ontology stands after a call that is not refused. -/
theorem after_eq {a : Answer} (run : call.perform.run o = .ok a o') : call.after o = o' := by
  rw [after, run]

end Call

namespace Grouping

variable {operands? : Expression → Option (List ConceptId)} {make : List ConceptId → Expression}

mutual

/-- However known concepts are grouped, they can be joined, and what they make has the parts of all. -/
theorem build_gathers (connects : Connects operands? make) {o : Ontology} (standing : o.Standing) :
    ∀ g : Grouping, (∀ m ∈ g.members, o.Knows (.concept m)) →
      ∃ c o', (g.build (Building.connect operands? make)).run o = .ok c o' ∧
        o.Gathers operands? g.members [c] o'
  | .one c, known => ⟨c, o, by rw [build]; rfl, .refl standing known⟩
  | .group g gs, known => by
    rw [members, List.forall_mem_append] at known
    obtain ⟨c, o₁, run, gathers⟩ := build_gathers connects standing g known.1
    obtain ⟨cs, o₂, run', gathers'⟩ := buildAll_gathers connects gathers.standing gs
      fun m member => gathers.within.knows (known.2 m member)
    have both := gathers.cons known.2 gathers'
    obtain ⟨d, o₃, joined, last⟩ := connects.connect_gathers both.standing both.known (List.cons_ne_nil _ _)
    refine ⟨d, o₃, ?_, both.trans last⟩
    rw [build, EStateM.run_bind, run]
    dsimp only
    rw [EStateM.run_bind, run']
    exact joined

theorem buildAll_gathers (connects : Connects operands? make) {o : Ontology} (standing : o.Standing) :
    ∀ gs : List Grouping, (∀ m ∈ membersAll gs, o.Knows (.concept m)) →
      ∃ cs o', (buildAll (Building.connect operands? make) gs).run o = .ok cs o' ∧
        o.Gathers operands? (membersAll gs) cs o'
  | [], _ => ⟨[], o, by rw [buildAll]; rfl, .refl standing nofun⟩
  | g :: gs, known => by
    rw [membersAll, List.forall_mem_append] at known
    obtain ⟨c, o₁, run, gathers⟩ := build_gathers connects standing g known.1
    obtain ⟨cs, o₂, run', gathers'⟩ := buildAll_gathers connects gathers.standing gs
      fun m member => gathers.within.knows (known.2 m member)
    refine ⟨c :: cs, o₂, ?_, gathers.cons known.2 gathers'⟩
    rw [buildAll, EStateM.run_bind, run]
    dsimp only
    rw [EStateM.run_bind, run']
    rfl

end

/-- The same members make the same concept, in whatever groups and however much later. -/
theorem build_same (connects : Connects operands? make) {o : Ontology} (standing : o.Standing) {g g' : Grouping}
    (same : ∀ m, m ∈ g.members ↔ m ∈ g'.members) (known : ∀ m ∈ g.members, o.Knows (.concept m)) :
    ∃ c o₁, (g.build (Building.connect operands? make)).run o = .ok c o₁ ∧ ∀ between : List Call,
      ∃ o₂, (g'.build (Building.connect operands? make)).run (o₁.afterAll between) = .ok c o₂ := by
  obtain ⟨c, o₁, run, gathers⟩ := build_gathers connects standing g known
  refine ⟨c, o₁, run, fun between => ?_⟩
  obtain ⟨later, standing'⟩ := gathers.standing.afterAll between
  have within := gathers.within.trans later
  obtain ⟨d, o₂, run', gathers'⟩ := build_gathers connects standing' g'
    fun m member => within.knows (known m ((same m).mpr member))
  have kept := later.knows gathers.lone_known
  suffices c = d from ⟨o₂, this ▸ run'⟩
  refine connects.eq_of_parts gathers'.standing (gathers'.within.knows kept) gathers'.lone_known fun x => ?_
  rw [Ontology.partsUnder_within (later.trans gathers'.within) gathers.lone_known, gathers.lone_parts,
    gathers'.lone_parts]
  refine exists_congr fun m => ?_
  rw [← same]
  refine and_congr_right fun member => ?_
  rw [Ontology.partsUnder_within within (known m member)]

end Grouping

namespace Ontology

variable {o o' : Ontology} {c d : ConceptId}

theorem Standing.performed (standing : o.Standing) {call : Call} {a : Answer}
    (run : call.perform.run o = .ok a o') : o.Within o' ∧ o'.Standing :=
  Call.after_eq run ▸ standing.afterAll [call]

theorem Standing.negated (standing : o.Standing) (run : (Building.negation c).run o = .ok d o') :
    o.Within o' ∧ o'.Standing := by
  have performed : (Call.negation c).perform.run o = .ok (.concept d) o' := run_map_eq_ok.mpr ⟨d, run, rfl⟩
  exact standing.performed performed

/-- To negate again, however much later, gives back what was negated. -/
theorem Standing.negation_back (standing : o.Standing) (run : (Building.negation c).run o = .ok d o')
    {u : Ontology} (within : o'.Within u) (later : u.Standing) :
    (Building.negation d).run u = .ok c u := by
  rcases Building.negation_cases run with ⟨made, rfl⟩ | ⟨_, made⟩
  · exact negation_again later.consistent.distinct later.wellFormed (within.expression? made)
  · have made' := within.expression? made
    rw [(Building.negation_yields (o := u) d).1 ⟨_, made'⟩, made']

/-- What builders hand out, now and after any further calls, is the same exactly if it has the same
normalised expression. Neither order nor repetition nor grouping of what is joined counts, a negation
is taken back by negating again, and no two concepts have the same negation. -/
theorem handles_canonical {name : String} (reached : Reached name o) :
    (∀ call call' (between : List Call) c d o₁ o₂, call.builds = true → call'.builds = true →
      call.perform.run o = .ok (.concept c) o₁ →
      call'.perform.run (o₁.afterAll between) = .ok (.concept d) o₂ →
      ∃ e e', (∀ x, o.Normalises call x ↔ x = e) ∧ (∀ x, (o₁.afterAll between).Normalises call' x ↔ x = e') ∧
        (c = d ↔ e = e') ∧ ∀ later : List Call, (o₁.afterAll later).expression? c = some e) ∧
    (∀ join, join = Building.conjunction ∨ join = Building.disjunction → ∀ g g' : Grouping,
      (∀ m, m ∈ g.members ↔ m ∈ g'.members) → (∀ m ∈ g.members, o.Knows (.concept m)) →
      ∃ c o₁, (g.build join).run o = .ok c o₁ ∧
        ∀ between : List Call, ∃ o₂, (g'.build join).run (o₁.afterAll between) = .ok c o₂) ∧
    (∀ c, o.Knows (.concept c) → ∃ d o₁, (Building.negation c).run o = .ok d o₁ ∧
      ∀ between : List Call, (Building.negation d).run (o₁.afterAll between) = .ok c (o₁.afterAll between)) ∧
    ∀ (between : List Call) c d x o₁ o₂, (Building.negation c).run o = .ok x o₁ →
      (Building.negation d).run (o₁.afterAll between) = .ok x o₂ → c = d := by
  have standing := reached.standing
  refine ⟨fun call call' between c d o₁ o₂ builds builds' run run' => ?_, fun join which g g' same known => ?_,
    fun c known => ?_, fun between c d x o₁ o₂ run run' => ?_⟩
  · obtain ⟨_, standing₁⟩ := standing.performed run
    obtain ⟨within, later⟩ := standing₁.afterAll between
    obtain ⟨within', last⟩ := later.performed run'
    obtain ⟨e, made, normalised⟩ := call.normalised standing builds run
    obtain ⟨e', made', normalised'⟩ := call'.normalised later builds' run'
    have kept := (within.trans within').expression? made
    refine ⟨e, e', normalised, normalised', ⟨?_, ?_⟩,
      fun later => (standing₁.afterAll later).1.expression? made⟩
    · rintro rfl
      exact Option.some.inj (kept.symm.trans made')
    · rintro rfl
      exact last.consistent.distinct kept made'
  · rcases which with rfl | rfl
    · exact Grouping.build_same connects_conjunction standing same known
    · exact Grouping.build_same connects_disjunction standing same known
  · have run := (Building.negation_yields c).1 known
    refine ⟨_, _, run, fun between => ?_⟩
    obtain ⟨within, later⟩ := (standing.negated run).2.afterAll between
    exact standing.negation_back run within later
  · -- What both were negated to gives each of them back.
    obtain ⟨within, later⟩ := (standing.negated run).2.afterAll between
    obtain ⟨within', last⟩ := later.negated run'
    have back := standing.negation_back run (within.trans within') last
    have back' := later.negation_back run' (.refl o₂) last
    cases back.symm.trans back'
    rfl

/-- Three names, two of them joined already. -/
def halfJoined : Ontology :=
  (initial "Thing").afterAll
    [.createConcept "A" [], .createConcept "B" [], .createConcept "C" [], .conjunction [⟨3⟩, ⟨2⟩]]

theorem halfJoined_handles : Reached "Thing" halfJoined ∧
    (∃ o₁ o₂ e, (Call.conjunction [⟨5⟩, ⟨4⟩, ⟨5⟩]).perform.run halfJoined = .ok (.concept ⟨6⟩) o₁ ∧
      (Call.conjunction [⟨4⟩, ⟨3⟩, ⟨2⟩, ⟨3⟩]).perform.run (o₁.afterAll [.negation ⟨6⟩]) =
        .ok (.concept ⟨6⟩) o₂ ∧
      (∀ x, halfJoined.Normalises (.conjunction [⟨5⟩, ⟨4⟩, ⟨5⟩]) x ↔ x = e) ∧
      ∀ x, (o₁.afterAll [.negation ⟨6⟩]).Normalises (.conjunction [⟨4⟩, ⟨3⟩, ⟨2⟩, ⟨3⟩]) x ↔ x = e) ∧
    ∃ c o₁ o₂, ((Grouping.group (.one ⟨4⟩) [.group (.one ⟨2⟩) [.one ⟨3⟩]]).build Building.disjunction).run
        halfJoined = .ok c o₁ ∧
      ((Grouping.group (.group (.one ⟨3⟩) [.one ⟨4⟩]) [.one ⟨2⟩, .one ⟨3⟩]).build Building.disjunction).run
        (o₁.afterAll [.createConcept "D" []]) = .ok c o₂ := by
  have reached : Reached "Thing" halfJoined := .afterAll .initial _
  obtain ⟨same, grouped, _⟩ := handles_canonical reached
  have run : (Call.conjunction [⟨5⟩, ⟨4⟩, ⟨5⟩]).perform.run halfJoined =
      .ok (.concept ⟨6⟩) ((Call.conjunction [⟨5⟩, ⟨4⟩, ⟨5⟩]).after halfJoined) := by with_unfolding_all rfl
  have run' : (Call.conjunction [⟨4⟩, ⟨3⟩, ⟨2⟩, ⟨3⟩]).perform.run
        (((Call.conjunction [⟨5⟩, ⟨4⟩, ⟨5⟩]).after halfJoined).afterAll [.negation ⟨6⟩]) =
      .ok (.concept ⟨6⟩) (((Call.conjunction [⟨5⟩, ⟨4⟩, ⟨5⟩]).after halfJoined).afterAll [.negation ⟨6⟩]) := by
    with_unfolding_all rfl
  refine ⟨reached, ?_, ?_⟩
  · obtain ⟨e, e', first, second, equal, _⟩ := same _ _ _ _ _ _ _ rfl rfl run run'
    obtain rfl := equal.mp rfl
    exact ⟨_, _, e, run, run', first, second⟩
  · obtain ⟨c, o₁, built, later⟩ := grouped Building.disjunction (.inr rfl)
      (.group (.one ⟨4⟩) [.group (.one ⟨2⟩) [.one ⟨3⟩]])
      (.group (.group (.one ⟨3⟩) [.one ⟨4⟩]) [.one ⟨2⟩, .one ⟨3⟩])
      (fun m => by simp [Grouping.members, Grouping.membersAll]; tauto) (by decide +kernel)
    obtain ⟨o₂, again⟩ := later [.createConcept "D" []]
    exact ⟨c, o₁, o₂, built, again⟩

end Ontology

end ConceptLogic
