import ConceptLogic.Program
import ConceptLogic.Settings

namespace ConceptLogic.CommandLine

/-- The text of the value of a program that begins with nothing known. -/
def evaluate (s : Settings) (source : Option ByteArray) : Except Error String := do
  let p ← (Language.mk s.vocabulary).parseFile source
  match p.eval (State.initial s.topConcept) with
  | .ok v t => return v.text t.ontology
  | .error e _ => throw e

/-- Evaluates programs in turn, each for itself, and ends at the first failure.
Returns what is printed, a line for each value, and whether all went well. -/
def evaluateAll (s : Settings) : List (Option ByteArray) → String × Bool
  | [] => ("", true)
  | source :: rest =>
    match evaluate s source with
    | .error _ => ("", false)
    | .ok text =>
      let (printed, well) := evaluateAll s rest
      (text ++ "\n" ++ printed, well)

/-- The work of the command. Without settings it does nothing but fail. -/
def run (settings : Except Error Settings) (sources : List (Option ByteArray)) : String × Bool :=
  match settings with
  | .error _ => ("", false)
  | .ok s => evaluateAll s sources

end ConceptLogic.CommandLine
