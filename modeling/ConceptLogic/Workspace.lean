import ConceptLogic.Ontology.Call
import ConceptLogic.Program

namespace ConceptLogic

/-- Why a step of interactive work fails. -/
inductive Mishap
  | emptyRegister
  | error (e : Error)
  deriving DecidableEq, Repr

/-- What interactive work keeps from one step to the next: one ontology, several
environments, and values that were put aside. -/
structure Workspace where
  ontology : Ontology
  environments : List (String × Environment)
  registers : List (String × Value)

/-- A value as it is referred to from outside: given as such, put together from
others, by a name that is bound, or as one that was put aside. -/
inductive Reference
  | value (v : Value)
  | tuple (bases others : List Reference)
  | bound (name : String)
  | register (name : String)
  deriving Inhabited

/-- A step of interactive work. What it did before failing stays done. -/
abbrev Step := EStateM Mishap Workspace

namespace Workspace

/-- The environment in which work begins. -/
def mainName : String := "main"

def initial (top : String) (env : Environment) : Workspace :=
  ⟨Ontology.initial top, [(mainName, env)], []⟩

def environment (w : Workspace) (name : String) : Environment :=
  (w.environments.lookup name).getD (Scope.of [])

end Workspace

namespace Step

/-- Evaluates in one of the environments. -/
def evaluate {α : Type} (place : String) (x : Evaluation α) : Step α := fun w =>
  match x ⟨w.environment place, w.ontology⟩ with
  | .ok a s => .ok a { w with
      ontology := s.ontology, environments := Table.assign place s.env w.environments }
  | .error e s => .error (.error e) { w with
      ontology := s.ontology, environments := Table.assign place s.env w.environments }

/-- Makes a call on the ontology itself. -/
def call (place : String) (c : Call) : Step Answer :=
  evaluate place (Evaluation.building c.perform)

mutual

/-- The value that a reference stands for. -/
def value (place : String) : Reference → Step Value
  | .value v => return v
  | .tuple bases others => do
    let bases ← values place bases
    return .tuple bases (← values place others)
  | .bound name => evaluate place (Evaluation.lookup name)
  | .register name => do
    match (← get).registers.lookup name with
    | some v => return v
    | none => throw .emptyRegister

def values (place : String) : List Reference → Step (List Value)
  | [] => return []
  | r :: rs => do
    let v ← value place r
    return v :: (← values place rs)

end

/-- Puts a value aside. -/
def save (register : String) (v : Value) : Step Unit :=
  modify fun w => { w with registers := Table.assign register v w.registers }

/-- Copies an environment, binds one more name in the copy, and keeps that. -/
def fork (place name into : String) (r : Reference) : Step Unit := do
  let v ← value place r
  let env ← evaluate place do
    Evaluation.require ((← get).env.bind name v)
  modify fun w => { w with environments := Table.assign into env w.environments }

/-- Gives a deferred value what it waits for. Anything else is returned as it
is, and then the second reference is not looked at. -/
def resume (place : String) (deferred awaited : Reference) : Step (Except Value Value) := do
  match ← value place deferred with
  | .deferred x body env =>
    let v ← value place awaited
    .ok <$> evaluate place (Value.resume x body env v)
  | v => return .error v

end Step

end ConceptLogic
