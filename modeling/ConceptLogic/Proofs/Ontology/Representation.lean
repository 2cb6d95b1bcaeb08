import ConceptLogic.Proofs.Ontology.Consistency
import ConceptLogic.Proofs.Ontology.TableMirroring

namespace ConceptLogic

/-- A thing as a result of evaluation. -/
def Entity.value : Entity → Value
  | .concept c => .concept c
  | .individual i => .individual i
  | .relation r => .relation r

theorem Entity.value_injective {x y : Entity} (same : x.value = y.value) : x = y := by
  cases x <;> cases y <;> cases same <;> rfl

namespace Tables

variable {t : Tables}

/-- The form in which expressions are filed, as `Expression.Normal` has it. -/
def Normal (t : Tables) : Expression → Prop
  | .named _ | .restriction .. => True
  | .conjunction cs => 2 ≤ cs.length ∧ cs.Pairwise (·.id < ·.id) ∧
    ∀ c ∈ cs, ∀ xs, t.expression? c ≠ some (.conjunction xs)
  | .disjunction cs => 2 ≤ cs.length ∧ cs.Pairwise (·.id < ·.id) ∧
    ∀ c ∈ cs, ∀ xs, t.expression? c ≠ some (.disjunction xs)
  | .negation x => ∀ y, t.expression? x ≠ some (.negation y)
  | .nominal is => is.Pairwise (·.id < ·.id)

/-- Whether a thing is filed under a name. -/
def Names (t : Tables) (name : String) : Entity → Prop
  | .concept c => t.expression? c = some (.named name)
  | .individual i => t.individualName? i = some name
  | .relation r => t.relationName? r = some name

/-- Tables as calls keep them. Expressions and concepts determine each other, and names and what
has them. The counter numbers everything once, and a name is given once, across the three kinds.
Expressions are made of older things, in normal form, every line of every table speaks of known
things only, and equivalences are told to both sides. -/
structure Represented (t : Tables) : Prop where
  bijective : ∀ e c, t.conceptOf? e = some c ↔ t.expression? c = some e
  individuals : ∀ name i, t.individualNamed? name = some i ↔ t.individualName? i = some name
  relations : ∀ name r, t.relationNamed? name = some r ↔ t.relationName? r = some name
  numbered : ∀ x, t.Knows x → 1 ≤ x.id ∧ x.id ≤ t.bound
  apart : ∀ x y, t.Knows x → t.Knows y → x.id = y.id → x = y
  named : ∀ name x y, t.Names name x → t.Names name y → x = y
  older : ∀ c e, t.expression? c = some e → ∀ x ∈ e.parts, t.Knows x ∧ x.id < c.id
  edges : ∀ c edges, t.edges.lookup c = some edges → t.Knows (.concept c) ∧
    ∀ d ∈ edges.isA ++ edges.equivalentTo, t.Knows (.concept d)
  types : ∀ i types, t.typesOf.lookup i = some types → t.Knows (.individual i) ∧
    ∀ c ∈ types, t.Knows (.concept c)
  supers : ∀ r supers, t.supersOf.lookup r = some supers → t.Knows (.relation r) ∧
    ∀ s ∈ supers, t.Knows (.relation s)
  signatures : ∀ r domain range, t.signatureOf.lookup r = some (domain, range) → t.Knows (.relation r) ∧
    t.Knows (.concept domain) ∧ t.Knows (.concept range)
  normal : ∀ c e, t.expression? c = some e → t.Normal e
  symmetric : ∀ c d, d ∈ (t.told c).equivalentTo → c ∈ (t.told d).equivalentTo

section Filed

variable (filed : t.Filed)
include filed

theorem normal_shown {e : Expression} (normal : e.Normal t.shown) : t.Normal e := by
  have same : t.shown.expression? = t.expression? := funext (expression?_shown filed)
  cases e with
  | named | restriction => exact trivial
  | nominal => exact normal
  | conjunction | disjunction | negation =>
    unfold Expression.Normal at normal
    rwa [same] at normal

theorem names_shown {name : String} {x : Entity} (names : t.Names name x) : t.shown.Names name x.value := by
  cases x with
  | concept c => exact Ontology.names_concept.mpr ((expression?_shown filed c).trans names)
  | individual i => exact Ontology.names_individual.mpr ((individualName?_shown filed i).trans names)
  | relation r => exact Ontology.names_relation.mpr ((relationName?_shown filed r).trans names)

/-- What the ontology that tables show keeps to, the tables keep to. -/
theorem Filed.represented (wf : t.shown.WellFormed) (consistent : t.shown.Consistent) : t.Represented := by
  have concept : ∀ c, t.shown.Knows (.concept c) → t.Knows (.concept c) := fun c => (knows_shown filed _).mp
  refine ⟨filed.concepts, filed.individuals, filed.relations, fun x => filed.numbered.within,
    fun x y => filed.numbered.apart, fun name x y named named' => ?_, fun c e made x part => ?_,
    fun c edges line => ⟨?_, fun d told => ?_⟩, fun i types line => ⟨?_, fun c told => ?_⟩,
    fun r supers line => ⟨?_, fun s told => ?_⟩, fun r domain range line => ⟨?_, ?_⟩, fun c e made => ?_,
    fun c d told => ?_⟩
  · exact Entity.value_injective (consistent.unique (names_shown filed named) (names_shown filed named'))
  · have made' := (expression?_shown filed c).trans made
    exact ⟨(knows_shown filed x).mp (wf.parts_known made' x part), wf.older made' x part⟩
  · exact filed.edges (mem_of_lookup line)
  · have same : t.told c = edges := by rw [Tables.told, line, Option.getD_some]
    rw [← same, ← isA_shown filed, ← equivalentTo_shown filed] at told
    exact concept d (wf.told_known told)
  · exact filed.types (mem_of_lookup line)
  · have same : t.types i = types := by rw [Tables.types, line, Option.getD_some]
    rw [← same, ← types_shown filed] at told
    exact concept c (wf.types_known told)
  · exact filed.supers (mem_of_lookup line)
  · have same : t.supers r = supers := by rw [Tables.supers, line, Option.getD_some]
    rw [← same, ← supers_shown filed] at told
    exact (knows_shown filed _).mp (wf.supers_known told)
  · exact filed.signatures (mem_of_lookup line)
  · obtain ⟨first, second⟩ := wf.signature_known ((signature?_shown filed r).trans line)
    exact ⟨concept domain first, concept range second⟩
  · exact normal_shown filed (wf.normal ((expression?_shown filed c).trans made))
  · rw [← equivalentTo_shown filed] at told ⊢
    exact consistent.symmetric told

end Filed

/-- Whatever is called, and whether it is refused or not, the tables stay represented, and they show
the ontology that the same calls lead to. -/
theorem reached_represented (name : String) (calls : List Call) :
    ((initial name).afterAll calls).Represented ∧
      ((initial name).afterAll calls).shown = (Ontology.initial name).afterAll calls := by
  obtain ⟨filed, shown⟩ := (initial_filed name).afterAll calls
  rw [initial_shown] at shown
  have reached : Ontology.Reached name ((initial name).afterAll calls).shown := shown ▸ .afterAll .initial calls
  exact ⟨filed.represented reached.wellFormed reached.consistent, shown⟩

/-- Things of every kind, built one from the other, with a name that was given twice and a relation
that was put under a concept, both in vain. -/
example :
    let t := (initial "Thing").afterAll
      [.createConcept "A" [], .createIndividual "A" ⟨2⟩, .createIndividual "i" ⟨2⟩, .createRelation "R" [],
        .nominal [⟨3⟩], .restriction .some ⟨4⟩ ⟨5⟩, .negation ⟨6⟩, .conjunction [⟨7⟩, ⟨2⟩],
        .addEquivalence (.concept ⟨2⟩) ⟨8⟩, .addIsA (.relation ⟨4⟩) ⟨1⟩, .disjunction [⟨8⟩, ⟨5⟩]]
    t.bound = 9 ∧ t.individualNamed? "i" = some ⟨3⟩ ∧ t.expression? ⟨8⟩ = some (.conjunction [⟨2⟩, ⟨7⟩]) ∧
      (t.told ⟨8⟩).equivalentTo = [⟨2⟩] := by decide +kernel

end Tables

end ConceptLogic
