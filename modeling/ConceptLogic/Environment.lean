import ConceptLogic.Quoted
import ConceptLogic.Value

namespace ConceptLogic

/-- Names with what they stand for, none of them twice. -/
abbrev Table (α : Type) := List (String × α)

/-- Gives a name a new meaning in its old place, or puts it at the end. -/
def Table.assign {α : Type} (name : String) (a : α) : Table α → Table α
  | [] => [(name, a)]
  | (n, b) :: rest => if n = name then (n, a) :: rest else (n, b) :: assign name a rest

theorem Table.lookup_assign {α : Type} (t : Table α) (name other : String) (a : α) :
    (Table.assign name a t).lookup other = if other = name then some a else t.lookup other := by
  induction t with
  | nil =>
    by_cases same : other = name
    · simp [Table.assign, same]
    · simp [Table.assign, List.lookup_cons, beq_eq_false_iff_ne.mpr same, same]
  | cons entry rest ih =>
    obtain ⟨n, b⟩ := entry
    by_cases here : n = name
    · subst here
      by_cases same : other = n
      · simp [Table.assign, same]
      · simp [Table.assign, List.lookup_cons, beq_eq_false_iff_ne.mpr same, same]
    · by_cases same : other = n
      · simp [Table.assign, same, here]
      · simp [Table.assign, List.lookup_cons, beq_eq_false_iff_ne.mpr same, here, ih]

/-- The name under which the value bound last is known. -/
def anaphoraName : String := "@"

namespace Scope

variable {α : Type}

def of (dictionary : Table α) : Scope α := ⟨[], dictionary⟩

/-- The memory is asked first, then the dictionary. -/
def find? (s : Scope α) (name : String) : Option α :=
  (s.memory.lookup name).or (s.dictionary.lookup name)

def isBuiltIn (s : Scope α) (name : String) : Bool :=
  (s.dictionary.lookup name).isSome

def knows (s : Scope α) (name : String) : Bool :=
  (s.find? name).isSome

/-- Binds a name, and the anaphora to the same. -/
def assign (s : Scope α) (name : String) (a : α) : Scope α :=
  { s with memory := Table.assign anaphoraName a (Table.assign name a s.memory) }

end Scope

namespace Environment

/-- The operators under their tokens. Two tokens stand for one of them. -/
def operators : Table Value :=
  [.disjunction, .conjunction, .exclusiveDisjunction, .negation, .subsumedBy, .subsumes,
    .strictlySubsumedBy, .strictlySubsumes, .equivalentTo].map
      (fun op : Operator => (op.token, Value.operator op)) ++
    [("=>", .operator .subsumes)]

/-- The operators and one constant, which may take an operator's token. -/
def withOperators (constant : String) (v : Value) : Environment :=
  Scope.of (Table.assign constant v operators)

/-- The environment of a program: the operators, and the concept of everything
under a name. -/
def initial (top : String) : Environment :=
  withOperators top (.concept Ontology.top)

def lookup (env : Environment) (name : String) : Except Error Value :=
  match env.find? name with
  | some v => .ok v
  | none => .error (.unboundName name)

/-- What is built in can not be bound again. -/
def assignable (env : Environment) (name : String) : Except Error Unit :=
  if env.isBuiltIn name then .error (.immutableRebind name) else .ok ()

def bind (env : Environment) (name : String) (v : Value) : Except Error Environment := do
  env.assignable name
  return env.assign name v

def anaphora? (env : Environment) : Option Value :=
  env.memory.lookup anaphoraName

def resolve (env : Environment) (token : String) : Except Error Operator :=
  match env.find? token with
  | none => .error (.unboundOperator token)
  | some v =>
    match v.asOperator? with
    | some op => .ok op
    | none => .error (.typeMismatch (.operator token v.kind))

/-- A summary: the names that are bound, in order, and how many are built in. -/
def summary (env : Environment) : String :=
  let names := (env.memory.map Prod.fst).mergeSort
  "Calculator \x7b memory: [" ++ separated ", " (names.map quoted) ++ "], dictionary: " ++
    toString env.dictionary.length ++ " \x7d"

end Environment

end ConceptLogic
