namespace ConceptLogic

/-- What a name can stand for. -/
inductive Role
  | concept
  | individual
  | relation
  deriving DecidableEq, Repr, Inhabited

def Role.label : Role → String
  | .concept => "concept"
  | .individual => "individual"
  | .relation => "relation"

/-- The characters an identifier may hold after its first letter. Letters are
those of the ASCII alphabet, here and wherever a name is judged. -/
def isNameChar (c : Char) : Bool :=
  c.isAlphanum || c == '_'

/-- What is left of a name once the underscores in front are taken away. -/
def unmarked (name : String) : List Char :=
  name.toList.dropWhile (· == '_')

/-- The case rule. Concepts and relations begin with a capital letter and
individuals with a small one, which underscores may precede. -/
def conforms (name : String) : Role → Bool
  | .individual =>
    match unmarked name with
    | [] => false
    | c :: rest => c.isLower && rest.all isNameChar
  | .concept | .relation =>
    match name.toList with
    | [] => false
    | c :: rest => c.isUpper && rest.all isNameChar

/-- What a variable ranges over, read off the first character of its base that
is no underscore: concepts if that is a capital letter, else individuals. -/
def variableRole (base : String) : Role :=
  match unmarked base with
  | [] => .individual
  | c :: _ => if c.isUpper then .concept else .individual

end ConceptLogic
