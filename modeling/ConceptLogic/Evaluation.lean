import ConceptLogic.Environment
import ConceptLogic.Ontology.Building

namespace ConceptLogic

/-- What evaluation works on. -/
structure State where
  env : Environment
  ontology : Ontology

/-- Evaluation can fail, and what it did before failing stays done. -/
abbrev Evaluation := EStateM Error State

namespace Evaluation

/-- Goes on with a result, if there is one. -/
def require {α : Type} : Except Error α → Evaluation α
  | .ok a => return a
  | .error e => throw e

/-- Work on the ontology, as a part of an evaluation. -/
def building {α : Type} (b : Building α) : Evaluation α := fun s =>
  match b s.ontology with
  | .ok a o => .ok a { s with ontology := o }
  | .error fault o => .error (.refused fault) { s with ontology := o }

def lookup (name : String) : Evaluation Value := do
  require ((← get).env.lookup name)

def resolve (token : String) : Evaluation Operator := do
  require ((← get).env.resolve token)

def assignable (name : String) : Evaluation Unit := do
  require ((← get).env.assignable name)

def bind (name : String) (v : Value) : Evaluation Unit := do
  let env ← require ((← get).env.bind name v)
  modify fun s => { s with env := env }

/-- Evaluates, and reports a failure instead of failing. -/
def attempt {α : Type} (x : Evaluation α) : Evaluation (Except Error α) := fun s =>
  match x s with
  | .ok a t => .ok (.ok a) t
  | .error e t => .ok (.error e) t

/-- Runs an evaluation in another environment and comes back from it. Only the
ontology remembers. -/
def within {α : Type} (env : Environment) (x : Evaluation α) : Evaluation α := fun s =>
  match x { s with env := env } with
  | .ok a t => .ok a { t with env := s.env }
  | .error e t => .error e { t with env := s.env }

end Evaluation

end ConceptLogic
