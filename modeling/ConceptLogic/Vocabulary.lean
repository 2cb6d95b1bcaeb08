import ConceptLogic.Error

namespace ConceptLogic

/-- The words that may not be used as names. -/
structure Vocabulary where
  words : List String
  deriving Repr

namespace Vocabulary

def usual : Vocabulary :=
  ⟨["some", "only", "more", "less", "exact", "equal"]⟩

def isReserved (v : Vocabulary) (name : String) : Bool :=
  v.words.contains name

/-- How many words are reserved; a word given twice counts once. -/
def size (v : Vocabulary) : Nat :=
  v.words.eraseDups.length

def isEmpty (v : Vocabulary) : Bool :=
  v.words.isEmpty

/-- A name without the mark of a variable in front. -/
def unsigiled (name : String) : String :=
  match name.toList with
  | '$' :: base => String.ofList base
  | _ => name

/-- Admits a name in a role. That it is reserved is found before that it breaks
the case rule. -/
def vet (v : Vocabulary) (role : Role) (name : String) : Except Error String :=
  if v.isReserved (unsigiled name) then .error (.reservedWord name)
  else if conforms name role then .ok name
  else .error (.namingConvention name role)

end Vocabulary

end ConceptLogic
