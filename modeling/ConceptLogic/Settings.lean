import ConceptLogic.Settings.File
import ConceptLogic.Vocabulary

namespace ConceptLogic

structure Settings where
  /-- The words that may not be used as names, as they were given. -/
  reservedWords : List String
  /-- The name of the concept of everything. -/
  topConcept : String
  logFilter : String
  deriving Repr

namespace Settings

def usual : Settings := ⟨Vocabulary.usual.words, "Thing", "info"⟩

def keys : List String := ["reserved_words", "top_concept", "log_filter"]

/-- Reads one setting, which may be left out but not be of another kind. -/
def pick {α : Type} (entries : List (String × Setting)) (read : Setting → Option α)
    (key : String) (usual : α) : Except Error α :=
  match entries.lookup key with
  | none => .ok usual
  | some v => (read v).elim (.error .settings) .ok

def ofEntries (entries : List (String × Setting)) : Except Error Settings := do
  let words ← pick entries Setting.asTexts "reserved_words" usual.reservedWords
  let top ← pick entries Setting.asText "top_concept" usual.topConcept
  return ⟨words, top, ← pick entries Setting.asText "log_filter" usual.logFilter⟩

/-- The command's name, after which its settings file and variables are called. -/
def command : String := "already"

/-- The variable that goes before a key of the settings file. -/
def variableOf (key : String) : String :=
  command.toUpper ++ "_" ++ key.toUpper

/-- What the variables around the program say comes before what its file says. -/
def override (surroundings : List (String × String)) (entries : List (String × Setting)) :
    List (String × Setting) :=
  let given := keys.filterMap fun key =>
    (surroundings.lookup (variableOf key)).map fun text =>
      (key, Setting.ofVariable (key == "reserved_words") text)
  given ++ entries

/-- The settings that a file and variables amount to. -/
def load (file : String) (surroundings : List (String × String)) : Except Error Settings :=
  match File.entries? file with
  | none => .error .settings
  | some entries => ofEntries (override surroundings entries)

def vocabulary (s : Settings) : Vocabulary := ⟨s.reservedWords⟩

end Settings

end ConceptLogic
