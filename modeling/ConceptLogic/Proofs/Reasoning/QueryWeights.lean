import ConceptLogic.Proofs.Ontology.ToldStrata
import ConceptLogic.Proofs.Reasoning.PersistentAnswers

namespace ConceptLogic

/-- How much is asked, by the levels of what is asked about. -/
def Query.weight (level : ConceptId → Nat) : Query → Nat
  | .subsumed c d => level c + level d
  | .member i d => i.id + level d

/-- Restrictions and negations are compared by parts of theirs, which may swap sides. -/
theorem Ontology.Confronts.weight_lt {level : ConceptId → Nat} {c d : ConceptId} {l r : Expression} {p : Query}
    (confronts : Confronts l r p) (left : ∀ {x}, .concept x ∈ l.parts → level x < level c)
    (right : ∀ {x}, .concept x ∈ r.parts → level x < level d) :
    p.weight level < (Query.subsumed c d).weight level := by
  cases confronts with
  | @negation x y =>
    calc level y + level x = level x + level y := Nat.add_comm _ _
      _ < level c + level d :=
        Nat.add_lt_add (left (List.mem_singleton.mpr rfl)) (right (List.mem_singleton.mpr rfl))
  | filler =>
    exact Nat.add_lt_add (left (List.mem_cons_of_mem _ (List.mem_singleton.mpr rfl)))
      (right (List.mem_cons_of_mem _ (List.mem_singleton.mpr rfl)))
  | @reversed _ _ x _ _ y =>
    calc level y + level x = level x + level y := Nat.add_comm _ _
      _ < level c + level d :=
        Nat.add_lt_add (left (List.mem_cons_of_mem _ (List.mem_singleton.mpr rfl)))
          (right (List.mem_cons_of_mem _ (List.mem_singleton.mpr rfl)))

namespace Ontology

section Weights

variable {o : Ontology} {level : ConceptId → Nat} {c d x : ConceptId} {q p r : Query}
  (stratified : o.Stratified level)
include stratified

theorem Stratified.made {e : Expression} (made : o.expression? c = some e) (anonymous : e.Anonymous) :
    level c = c.id := by
  obtain ⟨isA, equivalentTo, found⟩ := expression?_eq_some.mp made
  exact (stratified.placed found).1 anonymous

theorem Stratified.equal (told : x ∈ o.equivalentTo c) : level x = level c := by
  obtain ⟨e, isA, equivalentTo, found, member⟩ := mem_equivalentTo.mp told
  exact (stratified.placed found).2.2 x member

theorem Stratified.told_le (told : x ∈ o.told c) : level x ≤ level c := by
  rcases List.mem_append.mp told with told | told
  · obtain ⟨e, isA, equivalentTo, found, member⟩ := mem_isA.mp told
    exact (stratified.placed found).2.1 x member
  · exact (stratified.equal told).le

theorem Stratified.type_lt {i : IndividualId} (told : x ∈ o.types i) : level x < i.id := by
  obtain ⟨name, types, found, member⟩ := mem_types.mp told
  exact (stratified.bounded x).trans_lt ((stratified.placed found) x member)

variable (wf : o.WellFormed)
include wf

theorem Stratified.operand_lt {e : Expression} (made : o.expression? c = some e)
    (part : .concept x ∈ e.parts) : level x < level c := by
  have anonymous : e.Anonymous := by
    rintro name rfl
    cases part
  rw [stratified.made made anonymous]
  exact (stratified.bounded x).trans_lt (wf.older made _ part)

theorem Stratified.nominated_lt {i : IndividualId} {is : List IndividualId}
    (made : o.expression? c = some (.nominal is)) (listed : i ∈ is) : i.id < level c := by
  rw [stratified.made made nofun]
  exact wf.older made _ (List.mem_map_of_mem listed)

theorem Parts.weight_lt (parts : o.Parts q p) : p.weight level < q.weight level := by
  cases parts with
  | conjunct made member =>
    exact Nat.add_lt_add_right (stratified.operand_lt wf made (List.mem_map_of_mem member)) _
  | disjunct made member =>
    exact Nat.add_lt_add_left (stratified.operand_lt wf made (List.mem_map_of_mem member)) _

/-- No search goes up. -/
theorem Leads.weight_le (leads : o.Leads q p) : p.weight level ≤ q.weight level := by
  have operand : ∀ {c e x}, o.expression? c = some e → .concept x ∈ e.parts → level x < level c :=
    fun made part => stratified.operand_lt wf made part
  rcases leads with asks | descends
  · cases asks with
    | toConjunction made member => exact Nat.add_le_add_left (operand made (List.mem_map_of_mem member)).le _
    | ofDisjunction _ made member => exact Nat.add_le_add_right (operand made (List.mem_map_of_mem member)).le _
    | ofNominal _ made listed => exact Nat.add_le_add_right (stratified.nominated_lt wf made listed).le _
    | conjunct _ made member => exact (Parts.conjunct made member).weight_lt stratified wf |>.le
    | disjunct _ made member => exact (Parts.disjunct made member).weight_lt stratified wf |>.le
    | negation made made' => exact (Confronts.negation.weight_lt (operand made) (operand made')).le
    | filler made made' how => exact ((Confronts.filler how).weight_lt (operand made) (operand made')).le
    | reversed made made' how => exact ((Confronts.reversed how).weight_lt (operand made) (operand made')).le
    | told _ told => exact Nat.add_le_add_right (stratified.told_le told) _
    | definition _ told => exact Nat.add_le_add_left (stratified.equal told).le _
    | type _ told => exact Nat.add_le_add_right (stratified.type_lt told).le _
    | equivalent _ told => exact Nat.add_le_add_left (stratified.equal told).le _
  · cases descends with
    | conjunct made member => exact Nat.add_le_add_left (operand made (List.mem_map_of_mem member)).le _
    | disjunct made member => exact Nat.add_le_add_left (operand made (List.mem_map_of_mem member)).le _

theorem weight_le_of_leads (path : Relation.ReflTransGen o.Leads p r) : r.weight level ≤ p.weight level := by
  induction path with
  | refl => exact Nat.le_refl _
  | tail _ leads ih => exact (leads.weight_le stratified wf).trans ih

/-- What weighs less is not in progress. -/
theorem not_busy_of_lighter (lighter : r.weight level < p.weight level) : ¬Busy (o.pathsOn q) p r := by
  rintro ⟨path, taken, _ | ⟨_, member⟩⟩
  · exact Nat.lt_irrefl _ lighter
  · have le := weight_le_of_leads stratified wf (o.pathsOn_leading taken member).to_reflTransGen
    omega

/-- What is evident is not in progress either when something else that weighs as much is decided, since
its own search has gone down to operands at once. -/
theorem not_busy_of_evident (evident : o.Evident r) (differ : r ≠ p)
    (same : r.weight level = p.weight level) : ¬Busy (o.pathsOn q) p r := by
  rintro ⟨path, taken, _ | ⟨_, member⟩⟩
  · exact differ rfl
  · obtain ⟨s, pursues, rest⟩ := Relation.TransGen.head'_iff.mp (o.pathsOn_pursuing q taken r member)
    have less := (pursues.2 evident).weight_lt stratified wf
    have le := weight_le_of_leads stratified wf (Relation.ReflTransGen.mono (fun _ _ => And.left) _ _ rest)
    omega

end Weights

section Equivalents

variable {o : Ontology} {c d k x : ConceptId} {q p : Query}

theorem grounded_of_evident {busy : Query → Query → Prop} (evident : o.Evident p) : o.Grounded busy p := by
  cases evident with
  | conjunct unsplit made member =>
    exact grounded_of_nothing (.conjunct unsplit made member ⟨.conjunct unsplit made member, .same⟩)
  | disjunct unsplit made member =>
    exact grounded_of_nothing (.disjunct unsplit made member ⟨.disjunct unsplit made member, .same⟩)

/-- A told edge is found by looking at it, where neither side is taken apart. -/
theorem grounded_of_told {busy : Query → Query → Prop} (wf : o.WellFormed) (unsplit : o.Unsplit c d)
    (told : d ∈ o.told c) :
    o.Grounded busy (.subsumed c d) :=
  grounded_of_nothing (.ancestor unsplit (wf.above_iff.mpr (.single (List.mem_map_of_mem told))))

variable {level : ConceptId → Nat} (stratified : o.Stratified level) (wf : o.WellFormed)
include stratified wf

/-- What rests on something evident that weighs as much. -/
theorem grounded_over {r : Query} (evident : o.Evident r) (differ : r ≠ p)
    (same : r.weight level = p.weight level)
    (warrants : o.Warrants (fun s => o.Asks p s ∧ o.Granted (· = r) s) p) :
    o.Grounded (Busy (o.pathsOn q)) p := by
  refine .step (· = r) ?_ ?_ warrants
  · rintro _ rfl
    exact grounded_of_evident evident
  · rintro _ rfl
    exact not_busy_of_evident stratified wf evident differ same

/-- What rests on lighter things. -/
theorem grounded_under (warrants : o.Warrants (fun s => o.Asks p s ∧ o.Granted
      (fun r => o.Grounded (Busy (o.pathsOn q)) r ∧ r.weight level < p.weight level) s) p) :
    o.Grounded (Busy (o.pathsOn q)) p :=
  .step _ (fun _ => And.left) (fun _ both => not_busy_of_lighter stratified wf both.2) warrants

variable {name : String} (named : o.expression? d = some (.named name))
include named

/-- What is the same as a conjunction is a part of each operand. -/
theorem grounded_conjunct (told : k ∈ o.equivalentTo d) {ds : List ConceptId}
    (made : o.expression? k = some (.conjunction ds)) (member : x ∈ ds) :
    o.Grounded (Busy (o.pathsOn q)) (.subsumed d x) := by
  have apart := (wf.normal made).2.2 x member
  have unsplit : o.Unsplit d x := ⟨apart, by simp [named], by simp [named]⟩
  have above : k ∈ o.told d := List.mem_append_right _ told
  refine grounded_over stratified wf (r := .subsumed k x) (.conjunct ⟨apart, by simp [made], by simp [made]⟩
    made member) ?_ (congrArg (· + level x) (stratified.equal told))
    (.told unsplit above ⟨.told unsplit above, .subsumed rfl⟩)
  rintro ⟨⟩
  cases made.symm.trans named

omit stratified wf in
/-- What falls under something that a name was told to be the same as falls under the name. -/
theorem grounded_member {i : IndividualId} (told : k ∈ o.equivalentTo d)
    (granted : o.Granted (fun _ => False) (.member i k)) : o.Grounded (Busy (o.pathsOn q)) (.member i d) := by
  have undivided : o.Undivided d := ⟨by simp [named], by simp [named]⟩
  exact grounded_of_nothing (.equivalent undivided told ⟨.equivalent undivided told, granted⟩)

/-- A nominal is a part of a name if its members fall under what the name was told to be the same as. -/
theorem grounded_nominal (told : k ∈ o.equivalentTo d) {is : List IndividualId}
    (made : o.expression? c = some (.nominal is))
    (granted : ∀ i ∈ is, o.Granted (fun _ => False) (.member i k)) :
    o.Grounded (Busy (o.pathsOn q)) (.subsumed c d) := by
  have apart : ∀ ds, o.expression? d ≠ some (.conjunction ds) := by simp [named]
  have undivided : o.Undivided d := ⟨apart, by simp [named]⟩
  refine grounded_under stratified wf (.ofNominal apart made fun i listed =>
    ⟨.ofNominal apart made listed, .member undivided ⟨?_, ?_⟩⟩)
  · exact grounded_member named told (granted i listed)
  · exact Nat.add_lt_add_right (stratified.nominated_lt wf made listed) _

/-- Each operand is a part of what is the same as a disjunction. -/
theorem grounded_disjunct (told : k ∈ o.equivalentTo d) {cs : List ConceptId}
    (made : o.expression? k = some (.disjunction cs)) (member : x ∈ cs) :
    o.Grounded (Busy (o.pathsOn q)) (.subsumed x d) := by
  by_cases nominal : ∃ is, o.expression? x = some (.nominal is)
  · obtain ⟨is, listed⟩ := nominal
    exact grounded_nominal stratified wf named told listed fun i here =>
      .ofDisjunct (wf.ne_top made nofun) made member (.nominated (wf.ne_top listed nofun) listed here)
  · have apart := (wf.normal made).2.2 x member
    have whole : ∀ is, o.expression? x ≠ some (.nominal is) := fun is found => nominal ⟨is, found⟩
    have unsplit : o.Unsplit x d := ⟨by simp [named], apart, whole⟩
    refine grounded_over stratified wf (r := .subsumed x k) (.disjunct ⟨by simp [made], apart, whole⟩
      made member) ?_ (congrArg (level x + ·) (stratified.equal told))
      (.definition unsplit told ⟨.definition unsplit told, .subsumed rfl⟩)
    rintro ⟨⟩
    cases made.symm.trans named

/-- A name is found to be a part of all that it was told to be the same as. -/
theorem grounded_definition (told : k ∈ o.equivalentTo d) : o.Grounded (Busy (o.pathsOn q)) (.subsumed d k) := by
  by_cases conjunction : ∃ ds, o.expression? k = some (.conjunction ds)
  · obtain ⟨ds, made⟩ := conjunction
    refine grounded_under stratified wf (.toConjunction made fun x member =>
      ⟨.toConjunction made member, .subsumed ⟨?_, ?_⟩⟩)
    · exact grounded_conjunct stratified wf named told made member
    · exact Nat.add_lt_add_left (stratified.operand_lt wf made (List.mem_map_of_mem member)) _
  · exact grounded_of_told wf ⟨fun ds made => conjunction ⟨ds, made⟩, by simp [named], by simp [named]⟩
      (List.mem_append_right _ told)

/-- What was told to be the same as a name is found to be a part of it. -/
theorem grounded_defined (told : k ∈ o.equivalentTo d) (back : d ∈ o.equivalentTo k) :
    o.Grounded (Busy (o.pathsOn q)) (.subsumed k d) := by
  have apart : ∀ ds, o.expression? d ≠ some (.conjunction ds) := by simp [named]
  rcases o.split_cases k d with ⟨ds, made⟩ | ⟨_, ⟨cs, made⟩ | ⟨is, made⟩⟩ | unsplit
  · exact absurd made (apart ds)
  · refine grounded_under stratified wf (.ofDisjunction apart made fun x member =>
      ⟨.ofDisjunction apart made member, .subsumed ⟨?_, ?_⟩⟩)
    · exact grounded_disjunct stratified wf named told made member
    · exact Nat.add_lt_add_right (stratified.operand_lt wf made (List.mem_map_of_mem member)) _
  · exact grounded_nominal stratified wf named told made fun i listed =>
      .nominated (wf.ne_top made nofun) made listed
  · exact grounded_of_told wf unsplit (List.mem_append_right _ back)

/-- A name and what it was told to be the same as, each of the other, are answered to be equivalent. -/
theorem equivalent_of_told (told : k ∈ o.equivalentTo d) (back : d ∈ o.equivalentTo k) :
    (Building.isEquivalentTo d k).run o = .ok true o := by
  have known : o.Knowable (.subsumed d k) := ⟨⟨_, named⟩, wf.equivalentTo_known told⟩
  have forth : o.answer (.subsumed d k) = true :=
    (answer_iff wf known).mpr (.subsumed (grounded_definition stratified wf named told))
  have known' : o.Knowable (.subsumed k d) := ⟨known.2, known.1⟩
  have other : o.answer (.subsumed k d) = true :=
    (answer_iff wf known').mpr (.subsumed (grounded_defined stratified wf named told back))
  rw [(Building.isEquivalentTo_yields d k).1 known, forth, other]
  rfl

end Equivalents

end Ontology

end ConceptLogic
