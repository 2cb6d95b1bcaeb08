import ConceptLogic.Settings.Number

namespace ConceptLogic

namespace Setting

/-- A single thing that a setting can be. -/
inductive Scalar
  | text (s : String)
  | number (n : Number)
  | truth (b : Bool)
  deriving DecidableEq, Repr

/-- Whatever a setting is, its text can be meant. -/
def Scalar.asText : Scalar → String
  | .text s => s
  | .number n => n.text
  | .truth b => if b then "true" else "false"

end Setting

/-- What can be given to a key. -/
inductive Setting
  | scalar (s : Setting.Scalar)
  | list (items : List Setting.Scalar)
  deriving DecidableEq, Repr

namespace Setting

def asText : Setting → Option String
  | .scalar s => some s.asText
  | .list _ => none

def asTexts : Setting → Option (List String)
  | .scalar _ => none
  | .list items => some (items.map Scalar.asText)

/-- The pieces of a text between commas. There is one more than commas. -/
def pieces (text : String) : List String :=
  (text.toList.splitOn ',').map String.ofList

/-- A truth value may be written in capital or small letters. -/
def truth? (text : String) : Option Bool :=
  (Format.read? (Format.anyCase ['t', 'r', 'u', 'e']) text.toList).map (fun _ => true) <|>
    (Format.read? (Format.anyCase ['f', 'a', 'l', 's', 'e']) text.toList).map fun _ => false

/-- What a variable with a text gives to a key. If the text is neither a truth value
nor a number, a key for many texts gets the pieces. -/
def ofVariable (many : Bool) (text : String) : Setting :=
  match truth? text, Format.read? Number.any text.toList with
  | some b, _ => .scalar (.truth b)
  | none, some n => .scalar (.number n)
  | none, none =>
    if many then .list ((pieces text).map .text) else .scalar (.text text)

end Setting

end ConceptLogic
