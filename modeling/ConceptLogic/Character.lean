import ConceptLogic.Character.Hidden
import ConceptLogic.Character.Joining

namespace ConceptLogic

def inRuns (runs : List (Nat × Nat)) (c : Char) : Bool :=
  runs.any fun run => run.1 ≤ c.toNat && c.toNat ≤ run.2

/-- Nothing is to be seen of a hidden character. -/
def isHidden (c : Char) : Bool := inRuns hiddenRuns c

/-- A joining mark is seen only as a part of the character before it. -/
def isJoining (c : Char) : Bool := inRuns joiningRuns c

end ConceptLogic
