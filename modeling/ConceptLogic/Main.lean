import ConceptLogic.CommandLine

namespace ConceptLogic.CommandLine

/-- The bytes of a file, if there is one that can be read. -/
def readSource (path : String) : IO (Option ByteArray) := do
  try
    return some (← IO.FS.readBinFile path)
  catch _ =>
    return none

/-- What the variables around the program say about its settings. -/
def readSurroundings : IO (List (String × String)) :=
  (Settings.keys.map Settings.variableOf).filterMapM fun name => do
    return (← IO.getEnv name).map fun value => (name, value)

/-- The settings of the working directory, where a file for them may be missing. -/
def readSettings : IO (Except Error Settings) := do
  let file ← readSource (Settings.command ++ ".toml")
  match String.fromUTF8? (file.getD .empty) with
  | none => return .error .settings
  | some text => return Settings.load text (← readSurroundings)

end ConceptLogic.CommandLine

open ConceptLogic

/-- Evaluates the programs in the files that are named, or else the one on
standard input. -/
def main (args : List String) : IO UInt32 := do
  let settings ← CommandLine.readSettings
  let sources ←
    if args.isEmpty then
      pure [some (← (← IO.getStdin).readBinToEnd)]
    else
      args.mapM CommandLine.readSource
  let (printed, well) := CommandLine.run settings sources
  IO.print printed
  return if well then 0 else 1
