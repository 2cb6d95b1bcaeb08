import ConceptLogic.Proofs.Ontology.OntologyGrowth

namespace ConceptLogic

/-- Where an ontology stands after a call, be it refused or not. -/
def Call.after (call : Call) (o : Ontology) : Ontology :=
  match call.perform.run o with
  | .ok _ o' => o'
  | .error _ o' => o'

/-- The ontologies that calls lead to, from one that knows only its top. Calls that
are refused and calls that only ask are among them. -/
inductive Ontology.Reached (name : String) : Ontology → Prop
  | initial : Reached name (.initial name)
  | call {o} (call : Call) : Reached name o → Reached name (call.after o)

/-- Where an ontology stands after some calls. -/
def Ontology.afterAll (o : Ontology) (calls : List Call) : Ontology :=
  calls.foldl (fun o call => call.after o) o

/-- Whether a call tells that something falls under a concept or is the same as one. -/
def Call.tells : Call → Bool
  | .addIsA .. | .addEquivalence .. => true
  | _ => false

/-- How a thing is made: nothing has its expression or its name, it is the same as nothing yet, and
what has a name falls under something. -/
def Entry.Novel (o : Ontology) : Entry → Prop
  | .concept e isA equivalentTo => o.conceptOf? e = none ∧ equivalentTo = [] ∧
    ∀ name, e = .named name → o.Fresh name ∧ isA ≠ []
  | .individual name types => o.Fresh name ∧ types ≠ []
  | .relation name _ _ => o.Fresh name

/-- What calls that tell nothing of what is known can do to an ontology. -/
inductive Ontology.Grows (o : Ontology) : Ontology → Prop
  | same : Grows o o
  | added {entry : Entry} : (∀ x ∈ entry.mentions, o.Knows x) →
      (∀ e isA equivalentTo, entry = .concept e isA equivalentTo → e.Normal o) →
      entry.Novel o → Grows o (o.adding entry)
  | signed {r : RelationId} {domain range : ConceptId} : o.Knows (.relation r) →
      o.Knows (.concept domain) → o.Knows (.concept range) →
      Grows o (o.changing r.id (.sign (domain, range)))

/-- Everything that one call can do to an ontology. -/
inductive Ontology.Evolves (o : Ontology) : Ontology → Prop
  | grown {o'} : o.Grows o' → Evolves o o'
  | told {x : Entity} {c : ConceptId} : o.Knows x → o.Knows (.concept c) →
      Evolves o (o.changing x.id (.tellIsA c))
  | equated {c d : ConceptId} : o.Knows (.concept d) → o.Knows (.concept c) →
      Evolves o ((o.changing d.id (.tellEquivalent c)).changing c.id (.tellEquivalent d))

/-- What is told of a thing makes it speak of no more than that. -/
theorem Entry.mentions_tellIsA {entry : Entry} {c : ConceptId} {y : Entity}
    (member : y ∈ (entry.tellIsA c).mentions) : y ∈ entry.mentions ∨ y = .concept c := by
  cases entry with
  | concept e isA equivalentTo =>
    simp only [tellIsA, mentions, List.map_append, List.mem_append, List.map_cons, List.map_nil,
      List.mem_singleton] at member ⊢
    rcases member with part | (old | new) | equivalent
    · exact .inl (.inl part)
    · exact .inl (.inr (.inl old))
    · exact .inr new
    · exact .inl (.inr (.inr equivalent))
  | individual name types =>
    simpa only [tellIsA, mentions, List.map_append, List.mem_append, List.map_cons, List.map_nil,
      List.mem_singleton] using member
  | relation => exact .inl member

namespace Ontology

variable {o o' : Ontology}

theorem within_equating {d : ConceptId} (c : ConceptId) (known : o.Knows (.concept d)) :
    o.Within (o.changing d.id (.tellEquivalent c)) :=
  within_changing known.bounds.1 (within_tellEquivalent c)

theorem Grows.within (grows : o.Grows o') : o.Within o' := by
  cases grows with
  | same => exact .refl o
  | added => exact within_adding o _
  | signed known => exact within_changing known.bounds.1 (within_sign _)

theorem Evolves.within (evolves : o.Evolves o') : o.Within o' := by
  cases evolves with
  | grown grows => exact grows.within
  | told known => exact within_changing known.bounds.1 (within_tellIsA _)
  | @equated c d known concept =>
    have first := within_equating c known
    exact first.trans (within_equating d (first.knows concept))

theorem WellFormed.tellIsA (wf : o.WellFormed) {x : Entity} {c : ConceptId} (known : o.Knows x)
    (concept : o.Knows (.concept c)) : (o.changing x.id (.tellIsA c)).WellFormed := by
  refine wf.changing known.bounds.1 (within_tellIsA c) fun entry found y member => ?_
  rcases Entry.mentions_tellIsA member with old | rfl
  · exact wf.closed found y old
  · exact concept

theorem WellFormed.tellEquivalent (wf : o.WellFormed) {c d : ConceptId} (known : o.Knows (.concept d))
    (concept : o.Knows (.concept c)) : (o.changing d.id (.tellEquivalent c)).WellFormed := by
  have positive : 1 ≤ d.id := known.bounds.1
  refine wf.changing positive (within_tellEquivalent c) fun entry found y member => ?_
  cases entry with
  | concept e isA equivalentTo =>
    simp only [Entry.tellEquivalent, Entry.mentions, List.map_append, List.mem_append, List.map_cons,
      List.map_nil, List.mem_singleton] at member
    rcases member with part | told | equivalent | rfl
    · exact wf.closed found y (List.mem_append_left _ part)
    · exact wf.closed found y (List.mem_append_right _ (by simp [told]))
    · exact wf.closed found y (List.mem_append_right _ (by simp [equivalent]))
    · exact concept
  | individual => exact wf.closed found y member
  | relation => exact wf.closed found y member

theorem WellFormed.sign (wf : o.WellFormed) {r : RelationId} {domain range : ConceptId}
    (known : o.Knows (.relation r)) (first : o.Knows (.concept domain))
    (second : o.Knows (.concept range)) : (o.changing r.id (.sign (domain, range))).WellFormed := by
  have positive : 1 ≤ r.id := known.bounds.1
  refine wf.changing positive (within_sign _) fun entry found y member => ?_
  cases entry with
  | concept => exact wf.closed found y member
  | individual => exact wf.closed found y member
  | relation name supers signature =>
    simp only [Entry.sign, Entry.mentions, List.mem_append, List.mem_cons, List.not_mem_nil,
      or_false] at member
    rcases member with super | rfl | rfl
    · refine wf.closed found y ?_
      cases signature with
      | none => exact super
      | some pair => exact List.mem_append_left _ super
    · exact first
    · exact second

theorem WellFormed.grown (wf : o.WellFormed) (grows : o.Grows o') : o'.WellFormed := by
  cases grows with
  | same => exact wf
  | added known normal _ => exact wf.adding known normal
  | signed known first second => exact wf.sign known first second

theorem WellFormed.evolve (wf : o.WellFormed) (evolves : o.Evolves o') : o'.WellFormed := by
  cases evolves with
  | grown grows => exact wf.grown grows
  | told known concept => exact wf.tellIsA known concept
  | @equated c d known concept =>
    have first := within_equating c known
    exact (wf.tellEquivalent known concept).tellEquivalent (first.knows concept) (first.knows known)

theorem keeping_grows {e : Expression} (known : ∀ x ∈ e.parts, o.Knows x) (normal : e.Normal o)
    (unnamed : ∀ name, e ≠ .named name) : o.Grows (o.keeping e) := by
  unfold keeping
  split
  · exact .same
  · rename_i missing
    refine .added (fun x member => known x ?_) (fun e' isA equivalentTo same => ?_)
      ⟨missing, rfl, fun name same => absurd same (unnamed name)⟩
    · simpa [Entry.mentions] using member
    · cases same
      exact normal

theorem nominal_grows {is : List IndividualId} (known : ∀ i ∈ is, o.Knows (.individual i)) :
    o.Grows (o.keeping (.nominal (Handle.sorted is))) := by
  refine keeping_grows (fun x part => ?_) (Handle.sorted_increasing is) nofun
  obtain ⟨i, member, rfl⟩ := List.mem_map.mp part
  exact known i (Handle.mem_sorted.mp member)

end Ontology

/-- How a connective takes expressions apart and puts them together. -/
structure Connects (operands? : Expression → Option (List ConceptId))
    (make : List ConceptId → Expression) : Prop where
  operands : ∀ e cs, operands? e = some cs ↔ e = make cs
  parts : ∀ cs, (make cs).parts = cs.map .concept
  normal : ∀ o cs, (make cs).Normal o ↔ 2 ≤ cs.length ∧ cs.Pairwise (·.id < ·.id) ∧
    ∀ c ∈ cs, ∀ xs, Ontology.expression? o c ≠ some (make xs)

def Expression.conjuncts? : Expression → Option (List ConceptId)
  | .conjunction cs => some cs
  | _ => none

def Expression.disjuncts? : Expression → Option (List ConceptId)
  | .disjunction cs => some cs
  | _ => none

theorem connects_conjunction : Connects Expression.conjuncts? .conjunction where
  operands e cs := by cases e <;> simp [Expression.conjuncts?]
  parts _ := rfl
  normal _ _ := Iff.rfl

theorem connects_disjunction : Connects Expression.disjuncts? .disjunction where
  operands e cs := by cases e <;> simp [Expression.disjuncts?]
  parts _ := rfl
  normal _ _ := Iff.rfl

namespace Connects

variable {operands? : Expression → Option (List ConceptId)} {make : List ConceptId → Expression}
  {o : Ontology} {c x : ConceptId} {cs : List ConceptId}

theorem partsUnder_made (connects : Connects operands? make) (made : o.expression? c = some (make cs)) :
    o.partsUnder operands? c = cs := by
  simp only [Ontology.partsUnder, made, (connects.operands _ _).mpr rfl, Option.getD_some]

theorem partsUnder_other (connects : Connects operands? make) (known : o.Knows (.concept c))
    (other : ∀ cs, o.expression? c ≠ some (make cs)) : o.partsUnder operands? c = [c] := by
  obtain ⟨e, found⟩ := known
  have none : operands? e = none := by
    refine Option.eq_none_iff_forall_ne_some.mpr fun cs taken => other cs ?_
    rw [found, (connects.operands e cs).mp taken]
  simp only [Ontology.partsUnder, found, none, Option.getD_none]

/-- What holds of concepts joined exactly if it holds of each of them holds of any concept
exactly if it holds of its parts. -/
theorem forall_partsUnder_iff (connects : Connects operands? make) (known : o.Knows (.concept c))
    {P : ConceptId → Prop} (law : ∀ cs, o.expression? c = some (make cs) → (P c ↔ ∀ x ∈ cs, P x)) :
    P c ↔ ∀ x ∈ o.partsUnder operands? c, P x := by
  by_cases made : ∃ cs, o.expression? c = some (make cs)
  · obtain ⟨cs, found⟩ := made
    rw [connects.partsUnder_made found]
    exact law cs found
  · rw [connects.partsUnder_other known fun cs found => made ⟨cs, found⟩]
    exact List.forall_mem_singleton.symm

/-- Splicing goes one level deep, which is enough where operands are in normal form. -/
theorem part_known (connects : Connects operands? make) (wf : o.WellFormed)
    (known : o.Knows (.concept c)) (part : x ∈ o.partsUnder operands? c) :
    o.Knows (.concept x) ∧ ∀ xs, o.expression? x ≠ some (make xs) := by
  by_cases made : ∃ cs, o.expression? c = some (make cs)
  · obtain ⟨cs, found⟩ := made
    rw [connects.partsUnder_made found] at part
    refine ⟨wf.parts_known found _ ?_, ((connects.normal o cs).mp (wf.normal found)).2.2 x part⟩
    rw [connects.parts]
    exact List.mem_map_of_mem part
  · have other : ∀ cs, o.expression? c ≠ some (make cs) := fun cs found => made ⟨cs, found⟩
    rw [connects.partsUnder_other known other] at part
    cases List.mem_singleton.mp part
    exact ⟨known, other⟩

theorem joined_known (connects : Connects operands? make) (wf : o.WellFormed)
    (known : ∀ c ∈ cs, o.Knows (.concept c)) (member : x ∈ o.joined operands? cs) :
    o.Knows (.concept x) ∧ ∀ xs, o.expression? x ≠ some (make xs) := by
  obtain ⟨c, given, part⟩ := Ontology.mem_joined.mp member
  exact connects.part_known wf (known c given) part

theorem keeping_grows (connects : Connects operands? make) (wf : o.WellFormed)
    (known : ∀ c ∈ cs, o.Knows (.concept c)) (several : 2 ≤ (o.joined operands? cs).length) :
    o.Grows (o.keeping (make (o.joined operands? cs))) := by
  refine Ontology.keeping_grows ?_ ((connects.normal o _).mpr ⟨several, Handle.sorted_increasing _, ?_⟩) ?_
  · intro x part
    rw [connects.parts] at part
    obtain ⟨c, member, rfl⟩ := List.mem_map.mp part
    exact (connects.joined_known wf known member).1
  · intro c member
    exact (connects.joined_known wf known member).2
  · intro name same
    have parts := connects.parts (o.joined operands? cs)
    rw [same, Expression.parts, eq_comm, List.map_eq_nil_iff] at parts
    rw [parts] at several
    cases several

theorem grows (connects : Connects operands? make) (wf : o.WellFormed)
    (known : ∀ c ∈ cs, o.Knows (.concept c)) (filled : o.joined operands? cs ≠ []) :
    o.Grows (match o.joined operands? cs with
      | [_] => o
      | parts => o.keeping (make parts)) := by
  have keeping := connects.keeping_grows wf known
  revert filled keeping
  match o.joined operands? cs with
  | [] => exact fun nonempty => absurd rfl nonempty
  | [c] => exact fun _ _ => .same
  | c :: d :: rest => exact fun _ keeping => keeping (by simp)

end Connects

namespace Call

open Building

variable {o : Ontology}

theorem after_of {P : Ontology → Prop} {call : Call} {o' : Ontology} {p : Prop} {a : Answer}
    (yields : call.perform.Yields o p a o') (refused : P o) (done : p → P o') : P (call.after o) := by
  unfold Call.after
  split
  · rename_i run
    obtain ⟨holds, _, same⟩ := yields.of_ok run
    rw [same]
    exact done holds
  · rename_i run
    rw [(yields.of_error run).2]
    exact refused

/-- A call that tells nothing of what is known adds to it at most. -/
theorem after_grows (wf : o.WellFormed) {call : Call} (quiet : call.tells = false) :
    o.Grows (call.after o) := by
  cases call with
  | createConcept name bases =>
    refine after_of (createConcept_yields name bases).map .same fun ⟨fresh, known⟩ => ?_
    refine .added (fun x member => ?_) (fun e isA equivalentTo same => ?_)
      ⟨fresh.1, rfl, fun _ same => ?_⟩
    · simp only [Entry.mentions, Expression.parts, List.nil_append, List.append_nil] at member
      obtain ⟨b, base, rfl⟩ := List.mem_map.mp member
      split at base
      · rw [List.mem_singleton.mp base]
        exact wf.top_known
      · exact known b base
    · cases same
      exact trivial
    · cases same
      refine ⟨fresh, ?_⟩
      split
      · exact List.cons_ne_nil _ _
      · rename_i filled
        exact fun empty => filled (List.isEmpty_iff.mpr empty)
  | createIndividual name type =>
    refine after_of (createIndividual_yields name type).map .same fun ⟨fresh, known⟩ => ?_
    refine .added (fun x member => ?_) (fun e isA equivalentTo same => ?_) ⟨fresh, List.cons_ne_nil _ _⟩
    · rw [List.mem_singleton.mp member]
      exact known
    · cases same
  | createRelation name supers =>
    refine after_of (createRelation_yields name supers).map .same fun ⟨fresh, known⟩ => ?_
    refine .added (fun x member => ?_) (fun e isA equivalentTo same => ?_) fresh
    · obtain ⟨s, super, rfl⟩ := List.mem_map.mp member
      exact known s super
    · cases same
  | addIsA e c => cases quiet
  | addEquivalence e c => cases quiet
  | setSignature r domain range =>
    exact after_of (setSignature_yields r domain range).map .same
      fun ⟨known, first, second⟩ => .signed known first second
  | conjunction cs =>
    exact after_of (connect_yields Expression.conjuncts? .conjunction cs).map .same
      fun ⟨known, nonempty⟩ => connects_conjunction.grows wf known nonempty
  | disjunction cs =>
    exact after_of (connect_yields Expression.disjuncts? .disjunction cs).map .same
      fun ⟨known, nonempty⟩ => connects_disjunction.grows wf known nonempty
  | negation c =>
    refine after_of (negation_yields c).map .same fun known => ?_
    split
    · exact .same
    · rename_i other
      refine Ontology.keeping_grows (fun x part => ?_) (fun y => other y) nofun
      rw [List.mem_singleton.mp part]
      exact known
  | nominal is => exact after_of (nominal_yields is).map .same Ontology.nominal_grows
  | restriction q r c =>
    refine after_of (restriction_yields q r c).map .same fun ⟨relation, known⟩ => ?_
    refine Ontology.keeping_grows (fun x part => ?_) trivial nofun
    rcases List.mem_cons.mp part with rfl | rest
    · exact relation
    · rw [List.mem_singleton.mp rest]
      exact known
  | isSubsumedBy c d => exact after_of (isSubsumedBy_yields c d).map .same fun _ => .same
  | isEquivalentTo c d => exact after_of (isEquivalentTo_yields c d).map .same fun _ => .same
  | isInstanceOf i c => exact after_of (isInstanceOf_yields i c).map .same fun _ => .same

theorem after_evolves (wf : o.WellFormed) (call : Call) : o.Evolves (call.after o) := by
  have same : o.Evolves o := .grown .same
  cases call with
  | addIsA e c =>
    cases e with
    | concept d => exact after_of (addIsA_concept_yields d c).map same fun ⟨known, other⟩ => .told other known
    | individual i =>
      exact after_of (addIsA_individual_yields i c).map same fun ⟨known, other⟩ => .told other known
    | relation r => exact after_of (addIsA_relation_yields r c).map same fun _ => same
  | addEquivalence e c =>
    cases e with
    | concept d =>
      exact after_of (addEquivalence_concept_yields d c).map same fun ⟨known, other⟩ => .equated other known
    | individual i => exact after_of (addEquivalence_other_yields c fun _ => by simp).map same fun _ => same
    | relation r => exact after_of (addEquivalence_other_yields c fun _ => by simp).map same fun _ => same
  | _ => exact .grown (after_grows wf rfl)

end Call

namespace Ontology

theorem initial_wellFormed (name : String) : (initial name).WellFormed := by
  have named : ∀ c e, (initial name).expression? c = some e → e = .named name := by
    intro c e found
    obtain ⟨isA, equivalentTo, found⟩ := expression?_eq_some.mp found
    cases (initial_thing? found).2
    rfl
  constructor
  · exact ⟨name, rfl⟩
  · intro n entry found x member
    rw [(initial_thing? found).2] at member
    cases member
  · intro c e found x part
    rw [named c e found] at part
    cases part
  · intro c e found
    rw [named c e found]
    exact trivial

/-- No sequence of calls breaks an ontology. -/
theorem Reached.wellFormed {name : String} {o : Ontology} (reached : Reached name o) : o.WellFormed := by
  induction reached with
  | initial => exact initial_wellFormed name
  | call call _ ih => exact ih.evolve (call.after_evolves ih)

theorem Reached.afterAll {name : String} {o : Ontology} (reached : Reached name o) (calls : List Call) :
    Reached name (o.afterAll calls) := by
  induction calls generalizing o with
  | nil => exact reached
  | cons call calls ih => exact ih (.call call reached)

end Ontology

end ConceptLogic
