import ConceptLogic.Proofs.Evaluation.DeferredValues
import ConceptLogic.Proofs.Evaluation.GuardedEnvironments
import ConceptLogic.Proofs.Ontology.RefusedCalls

namespace ConceptLogic

open Evaluation

namespace Ontology

variable {o : Ontology}

/-- A new thing that has a name is known. -/
theorem added_known {entry : Entry} {name : String} {x : Value}
    (named : entry.named? (o.size + 1) = some (name, x)) : x.Known (o.adding entry) :=
  (names_adding.mpr (.inr named)).known

end Ontology

namespace Call

open Building

variable {o o' : Ontology}

theorem joined_known {operands? : Expression → Option (List ConceptId)} {make : List ConceptId → Expression}
    (connects : Connects operands? make) (wf : o.WellFormed) {cs : List ConceptId} {c : ConceptId}
    (run : (connect operands? make cs).run o = .ok c o') : o'.Knows (.concept c) := by
  obtain ⟨⟨known, filled⟩, _⟩ := (connect_yields operands? make cs).of_ok run
  have some : cs ≠ [] := by
    rintro rfl
    exact filled rfl
  obtain ⟨w, o'', run', _, knownW, _⟩ := connects.connect_parts wf known some
  cases run.symm.trans run'
  exact knownW

theorem answer_known (wf : o.WellFormed) {call : Call} {answer : Answer}
    (run : call.perform.run o = .ok answer o') : answer.value.Known o' := by
  cases call with
  | createConcept name bases =>
    obtain ⟨_, rfl, rfl⟩ := (createConcept_yields name bases).map.of_ok run
    exact Ontology.added_known (x := .concept _) rfl
  | createIndividual name type =>
    obtain ⟨_, rfl, rfl⟩ := (createIndividual_yields name type).map.of_ok run
    exact Ontology.added_known (x := .individual _) rfl
  | createRelation name supers =>
    obtain ⟨_, rfl, rfl⟩ := (createRelation_yields name supers).map.of_ok run
    exact Ontology.added_known (x := .relation _) rfl
  | conjunction cs =>
    obtain ⟨c, joined, rfl⟩ := run_map_eq_ok.mp run
    exact joined_known connects_conjunction wf joined
  | disjunction cs =>
    obtain ⟨c, joined, rfl⟩ := run_map_eq_ok.mp run
    exact joined_known connects_disjunction wf joined
  | negation c =>
    obtain ⟨_, rfl, rfl⟩ := (negation_yields c).map.of_ok run
    split
    · exact wf.negated_known ‹_›
    · exact ⟨_, o.keeping_expression? _⟩
  | nominal is =>
    obtain ⟨_, rfl, rfl⟩ := (nominal_yields is).map.of_ok run
    exact ⟨_, o.keeping_expression? _⟩
  | restriction q r c =>
    obtain ⟨_, rfl, rfl⟩ := (restriction_yields q r c).map.of_ok run
    exact ⟨_, o.keeping_expression? _⟩
  | _ =>
    obtain ⟨_, _, rfl⟩ := run_map_eq_ok.mp run
    trivial

/-- What comes back from a call is known. -/
theorem perform_known (wf : o.WellFormed) (call : Call) :
    Moves Ontology.Evolves call.perform o fun answer o' => answer.value.Known o' := by
  have evolves := call.after_evolves wf
  unfold Call.after at evolves
  unfold Moves Settles
  cases run : call.perform.run o with
  | ok answer o' =>
    rw [run] at evolves
    exact ⟨evolves, answer_known wf run⟩
  | error fault o' =>
    rw [run] at evolves
    exact evolves

end Call

/-- What never breaks: the ontology is well-formed, and all that names lead to is known. -/
structure State.Knowing (s : State) : Prop where
  wellFormed : s.ontology.WellFormed
  known : ∀ {name v}, s.env.find? name = some v → v.Known s.ontology

/-- What evaluation does to a state, be it a success or a failure. Unless something may be declared,
names lead to what they led to. -/
structure State.Learns (declaring : Prop) (s s' : State) : Prop where
  within : s.ontology.Within s'.ontology
  knowing : s.Knowing → s'.Knowing
  env : ¬declaring → s'.env = s.env

section Learning

variable {declaring : Prop} {s : State}

instance : Std.Refl (State.Learns declaring) := ⟨fun s => ⟨.refl s.ontology, id, fun _ => rfl⟩⟩

instance : IsTrans State (State.Learns declaring) := ⟨fun _ _ _ first second =>
  ⟨first.within.trans second.within, fun knowing => second.knowing (first.knowing knowing),
    fun quiet => (second.env quiet).trans (first.env quiet)⟩⟩

theorem learns_building {β : Type} {b : Building β} {Q : β → Ontology → Prop}
    (moves : Moves Ontology.Evolves b s.ontology Q) :
    Moves (State.Learns declaring) (building b) s fun a s' => Q a s'.ontology := by
  have learns : ∀ {o : Ontology}, s.ontology.Evolves o → s.Learns declaring ⟨s.env, o⟩ := fun evolves =>
    ⟨evolves.within, fun knowing => ⟨knowing.wellFormed.evolve evolves,
      fun found => (knowing.known found).within evolves.within⟩, fun _ => rfl⟩
  unfold Moves Settles at moves ⊢
  rw [run_building]
  cases outcome : b.run s.ontology with
  | ok a o =>
    rw [outcome] at moves
    exact ⟨learns moves.1, moves.2⟩
  | error fault o =>
    rw [outcome] at moves
    exact learns moves

theorem State.Learns.upkeep :
    Upkeep declaring (State.Learns declaring) State.Knowing fun s v => v.Known s.ontology where
  sound learns := learns.knowing
  lasting learns known := known.within learns.within
  call knowing call := learns_building (call.perform_known knowing.wellFormed)
  binding allowed s name v _ knowing known bound := by
    obtain ⟨_, rfl⟩ := Environment.bind_eq_ok bound
    refine ⟨.refl s.ontology, fun _ => ⟨knowing.wellFormed, fun {n w} found => ?_⟩,
      fun quiet => absurd allowed quiet⟩
    rw [Scope.find?_assign] at found
    split at found
    · cases found
      exact known
    · exact knowing.known found
  found knowing := knowing.known
  waiting _ _ _ := trivial
  wrapped _ _ _ := trivial
  boolean _ := trivial
  nothing := trivial
  mapping _ _ := trivial
  tuple _ _ := trivial

end Learning

/-- Whatever is evaluated, with success or not, ontologies stay well-formed, nothing is lost, and all
values are known. Names lead to what they led to unless there is a declaration in it. -/
theorem Phrase.learns {declaring : Prop} (p : Phrase) (still : ¬declaring → p.Still) :
    p.Kept (State.Learns declaring) State.Knowing fun s v => v.Known s.ontology :=
  State.Learns.upkeep.kept p still

theorem State.Sound.knowing {spoken : Language → Prop} {top : String} {s : State}
    (sound : s.Sound spoken top) : s.Knowing :=
  ⟨sound.kept.wellFormed, sound.ready.known⟩

end ConceptLogic
