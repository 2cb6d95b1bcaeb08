import ConceptLogic.Character
import ConceptLogic.Digits

namespace ConceptLogic

/-- A character inside quotes. Quotes, backslashes and what can not be seen by
itself are written as escapes, all else as it is. -/
def quotedChar (c : Char) : String :=
  if c = '"' then "\\\""
  else if c = '\\' then "\\\\"
  else if c = '\n' then "\\n"
  else if c = '\r' then "\\r"
  else if c = '\t' then "\\t"
  else if c = '\x00' then "\\0"
  else if isHidden c || isJoining c then "\\u\x7b" ++ hexadecimal c.toNat ++ "\x7d"
  else c.toString

def quoted (s : String) : String :=
  "\"" ++ s.toList.foldr (fun c rest => quotedChar c ++ rest) "" ++ "\""

end ConceptLogic
