import ConceptLogic.Evaluation.Phrase
import ConceptLogic.Language

namespace ConceptLogic

/-- The state in which programs begin: nothing is known but the concept of
everything, and nothing is bound. -/
def State.initial (top : String) : State :=
  ⟨Environment.initial top, Ontology.initial top⟩

namespace Language

open Evaluation

/-- Reads a program and evaluates it. Its value is that of its last statement. -/
def run (l : Language) (text : String) : Evaluation Value := do
  let p ← require (l.parse text)
  p.eval

/-- Evaluates the statements of a program one by one and goes on after those
that fail. -/
def runEach (l : Language) (text : String) : Evaluation (List (Except Error Value)) := do
  let p ← require (l.parse text)
  p.statements.mapM fun s => attempt s.eval

/-- Runs programs that are to come out true or false. -/
def holdEach (l : Language) (texts : List String) : Evaluation (List (Except Error Bool)) :=
  texts.mapM fun text => attempt do
    let v ← l.run text
    require v.asBoolean

/-- Carries out the declarations of a program, given the concept that stands in
where one names none, and goes on after those that fail. -/
def createEach (l : Language) (default : ConceptId) (text : String) :
    Evaluation (List (Option (Except Error Unit))) := do
  let p ← require (l.parse text)
  p.statements.mapM fun s =>
    match s.create? default with
    | none => return none
    | some work => some <$> attempt work

/-- Evaluates the right-hand sides of a program's declarations. Its value is
that of the last. -/
def rightSides (l : Language) (text : String) : Evaluation Value := do
  let p ← require (l.parse text)
  let vs ← p.statements.mapM fun s => (s.rightSide?).getD (return .nothing)
  return vs.getLastD .nothing

end Language

end ConceptLogic
