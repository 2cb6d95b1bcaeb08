import ConceptLogic.Proofs.Evaluation.ConnectiveMeaning

namespace ConceptLogic

universe u

/-- What names may stand for. -/
structure World (α : Type u) where
  concept : String → Set α
  individual : String → α
  relation : String → α → α → Prop

/-- Phrases for concepts in which nothing refers back and nothing is left open. -/
inductive Phrase.Plain : Phrase → Prop
  | concept (name : String) : Plain (.concept name)
  | nominal (members : List String) : Plain (.nominal members)
  | negation {p : Phrase} (operand : Plain p) : Plain (.negation p)
  | restriction {q : Quantifier} {r : String} {p : Phrase} (operand : Plain p) :
      Plain (.restriction q (.relation r) p)
  | junction {kind : Connective} {ps : List Phrase} (operands : ∀ p ∈ ps, Plain p) :
      Plain (.junction kind ps)

namespace World

variable {α : Type u} (w : World α)

mutual

/-- What a phrase for a concept means in a world, as textbooks have it. -/
noncomputable def denotes : Phrase → Set α
  | .concept name => w.concept name
  | .nominal members => {a | ∃ m ∈ members, w.individual m = a}
  | .negation p => (denotes p)ᶜ
  | .restriction q (.relation r) p => {a | q.Holds {b | w.relation r a b} (denotes p)}
  | .junction kind ps => kind.meaning (denoteAll ps)
  | _ => ∅

noncomputable def denoteAll : List Phrase → List (Set α)
  | [] => []
  | p :: ps => denotes p :: denoteAll ps

end

theorem denoteAll_eq_map (ps : List Phrase) : w.denoteAll ps = ps.map w.denotes := by
  induction ps with
  | nil => rfl
  | cons p ps ih => rw [denoteAll, ih, List.map_cons]

end World

namespace Interpretation

variable {α : Type u}

/-- What an interpretation makes of names, by way of what an ontology keeps under them. -/
def world (I : Interpretation α) (o : Ontology) : World α where
  concept name := (o.conceptNamed? name).elim ∅ I.named
  individual name := I.individual ((o.individualNamed? name).getD default)
  relation name a b := ∃ r, o.relationNamed? name = some r ∧ I.relation r a b

/-- Whether what an ontology keeps under names is taken for what the names stand for. -/
structure Follows (I : Interpretation α) (w : World α) (o : Ontology) : Prop where
  concept : ∀ {name c}, o.Names name (.concept c) → I.named c = w.concept name
  individual : ∀ {name i}, o.Names name (.individual i) → I.individual i = w.individual name
  relation : ∀ {name r}, o.Names name (.relation r) → I.relation r = w.relation name

theorem Follows.lasts {I : Interpretation α} {w : World α} {o o' : Ontology} (follows : I.Follows w o)
    (upholds : o.Upholds o') : I.Follows w o' where
  concept names := follows.concept (upholds.names.mp names)
  individual names := follows.individual (upholds.names.mp names)
  relation names := follows.relation (upholds.names.mp names)

theorem Follows.before {I : Interpretation α} {w : World α} {o o' : Ontology} (follows : I.Follows w o')
    (upholds : o.Upholds o') : I.Follows w o where
  concept names := follows.concept (upholds.names.mpr names)
  individual names := follows.individual (upholds.names.mpr names)
  relation names := follows.relation (upholds.names.mpr names)

/-- Names that are given once can be followed. -/
theorem follows_world (I : Interpretation α) {o : Ontology}
    (unique : ∀ {name v w}, o.Names name v → o.Names name w → v = w) : I.Follows (I.world o) o where
  concept {name c} names := by
    obtain ⟨d, found⟩ := Ontology.conceptOf?_isSome (Ontology.names_concept.mp names)
    have kept := Ontology.names_concept.mpr (Ontology.conceptOf?_sound found)
    cases unique names kept
    simp [world, Ontology.conceptNamed?, found]
  individual {name i} names := by
    obtain ⟨j, found, kept⟩ := Ontology.individualNamed?_of_names names
    cases unique names kept
    simp [world, found]
  relation {name r} names := by
    obtain ⟨s, found, kept⟩ := Ontology.relationNamed?_of_names names
    cases unique names kept
    simp [world, found]

end Interpretation

end ConceptLogic
