import ConceptLogic.Cursor
import ConceptLogic.Fault
import ConceptLogic.Mismatch
import ConceptLogic.Rule

namespace ConceptLogic

/-- Why a text is no program. -/
inductive SyntaxFault
  | expected (rules : List Rule)
  | cardinality (digits : String)
  deriving DecidableEq, Repr

def SyntaxFault.message : SyntaxFault → String
  | .expected rules => "expected " ++ Rule.enumerate (Rule.inOrder rules)
  | .cardinality digits =>
    "invalid cardinality " ++ digits ++ ": number too large to fit in target type"

/-- Why a program could not be found. -/
inductive SourceFault
  | missing
  | notText
  deriving DecidableEq, Repr

def SourceFault.message : SourceFault → String
  | .missing => "No such file or directory (os error 2)"
  | .notText => "stream did not contain valid UTF-8"

/-- Every way in which reading or running a program can fail. -/
inductive Error
  | unreadable (fault : SyntaxFault) (position : Position)
  | namingConvention (name : String) (role : Role)
  | reservedWord (name : String)
  | unboundName (name : String)
  | immutableRebind (name : String)
  | unboundOperator (token : String)
  | typeMismatch (m : Mismatch)
  | refused (fault : Fault)
  | source (fault : SourceFault)
  | settings
  deriving DecidableEq, Repr

def Error.message : Error → String
  | .unreadable fault position =>
    "Syntax error at " ++ toString position.line ++ ":" ++ toString position.column ++ ": " ++
      fault.message
  | .namingConvention name role =>
    "Naming convention violated: `" ++ name ++ "` is not a valid " ++ role.label ++ " name"
  | .reservedWord name => "Reserved word `" ++ name ++ "` cannot be used as a name"
  | .unboundName name => "Unbound name: " ++ name ++ " is not defined"
  | .immutableRebind name => "Immutable name: " ++ name ++ " could not be redefined"
  | .unboundOperator token => "Unbound operator: " ++ token
  | .typeMismatch m => "Type mismatch: expected " ++ m.expected ++ ", found " ++ m.found
  | .refused fault => "Backend error: " ++ fault.message
  | .source fault => "I/O error: " ++ fault.message
  | .settings => "Config error"

end ConceptLogic
