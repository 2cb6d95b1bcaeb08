import ConceptLogic.Draft.Judgement
import ConceptLogic.Grammar

namespace ConceptLogic

/-- A language is the grammar together with the words it reserves. -/
structure Language where
  vocabulary : Vocabulary
  deriving Repr

namespace Language

/-- The draft of a text, or the error that says how far it can be read. -/
def draft (text : List Char) : Except Error (List Draft.Statement) :=
  match Grammar.read text with
  | .matched statements _ _ => .ok statements
  | .failed t => .error (.unreadable (.expected t.expected) (Position.of text t.furthest))

/-- Whether the grammar has a text. Names are not judged. -/
def accepts (text : String) : Bool :=
  match draft text.toList with
  | .ok _ => true
  | .error _ => false

/-- Reads a program. -/
def parse (l : Language) (text : String) : Except Error Phrase := do
  let statements ← draft text.toList
  match statements.mapM (Draft.Statement.judge l.vocabulary) with
  | .ok ps => .ok (.program ps)
  | .error flaw => .error (flaw.error text.toList)

/-- Reads a program from the bytes of a file, if there is one. -/
def parseFile (l : Language) : Option ByteArray → Except Error Phrase
  | none => .error (.source .missing)
  | some bytes =>
    match String.fromUTF8? bytes with
    | none => .error (.source .notText)
    | some text => l.parse text

end Language

end ConceptLogic
