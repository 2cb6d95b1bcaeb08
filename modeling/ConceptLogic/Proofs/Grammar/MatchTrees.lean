import ConceptLogic.Proofs.Grammar.PatternMatching

namespace ConceptLogic

/-- What a rule matched: its text, where that begins, and what the rules inside it matched. -/
inductive Tree (ρ : Type)
  | node (rule : ρ) (text : List Char) (offset : Nat) (parts : List (Tree ρ))

namespace Tree

variable {ρ : Type}

def rule : Tree ρ → ρ
  | .node rule .. => rule

def text : Tree ρ → List Char
  | .node _ text .. => text

def offset : Tree ρ → Nat
  | .node _ _ offset _ => offset

def parts : Tree ρ → List (Tree ρ)
  | .node _ _ _ parts => parts

end Tree

/-- The characters of a text from one cursor to another. -/
def Cursor.until (c c' : Cursor) : List Char :=
  c.rest.take (c.rest.length - c'.rest.length)

namespace Pattern

variable {ρ : Type} {V : ρ → Type}

/-- How rules are scanned when their trees are left aside. -/
def bare (call : (r : ρ) → Cursor → Option ((V r × Tree ρ) × Cursor)) (r : ρ) (c : Cursor) :
    Option (V r × Cursor) :=
  (call r c).map (Prod.map Prod.fst id)

/-- Scanning that keeps the trees of the rules, from left to right. -/
def grow (call : (r : ρ) → Cursor → Option ((V r × Tree ρ) × Cursor)) :
    {α : Type} → Pattern V α → Cursor → Option ((α × List (Tree ρ)) × Cursor)
  | _, .seq combine first second, c =>
    (first.grow call c).bind fun (x, c) =>
      (second.grow call c).map fun (y, c) => ((combine x.1 y.1, x.2 ++ y.2), c)
  | _, .choice first second, c => (first.grow call c).or (second.grow call c)
  | _, .star item, c =>
    let (found, c) := repeated (item.grow call) c.rest c
    some ((found.map Prod.fst, found.flatMap Prod.snd), c)
  | _, .rule r, c => (call r c).map fun (x, c) => ((x.1, [x.2]), c)
  | _, p, c => (p.scan (bare call) c).map fun (a, c) => ((a, []), c)

section Grow

variable {call : (r : ρ) → Cursor → Option ((V r × Tree ρ) × Cursor)}

theorem repeated_grown {α : Type} {item : Cursor → Option ((α × List (Tree ρ)) × Cursor)}
    {scanned : Cursor → Option (α × Cursor)} (same : ∀ c, (item c).map (Prod.map Prod.fst id) = scanned c)
    (left : List Char) (c : Cursor) :
    ((repeated item left c).1.map Prod.fst, (repeated item left c).2) = repeated scanned left c := by
  induction left generalizing c with
  | nil => rfl
  | cons x left ih =>
    unfold repeated
    rw [← same]
    cases item c with
    | none => rfl
    | some found => simp only [Option.map_some, Prod.map, id, ← ih, List.map_cons]

/-- The trees have no say in what is matched. -/
theorem grow_scan {α : Type} (p : Pattern V α) (c : Cursor) :
    (p.grow call c).map (Prod.map Prod.fst id) = p.scan (bare call) c := by
  induction p generalizing c with
  | seq combine first second ihFirst ihSecond =>
    simp only [grow, scan, ← ihFirst, ← ihSecond]
    cases first.grow call c with
    | none => rfl
    | some found =>
      change ((second.grow call found.2).map _).map _ = ((second.grow call found.2).map _).map _
      rw [Option.map_map, Option.map_map]
      rfl
  | choice first second ihFirst ihSecond =>
    simp only [grow, scan, ← ihFirst, ← ihSecond]
    cases first.grow call c <;> rfl
  | star item ih => exact congrArg some (repeated_grown ih c.rest c)
  | rule r =>
    change ((call r c).map _).map _ = (call r c).map _
    rw [Option.map_map]
    rfl
  | _ =>
    simp only [grow, Option.map_map]
    exact Option.map_id' ..

theorem scan_of_grow {α : Type} {p : Pattern V α} {c c' : Cursor} {a : α} {ts : List (Tree ρ)}
    (grown : p.grow call c = some ((a, ts), c')) : p.scan (bare call) c = some (a, c') := by
  rw [← grow_scan, grown]
  rfl

end Grow

end Pattern

open Pattern

section Rules

variable {ρ : Type} {V : ρ → Type} {body : (r : ρ) → Pattern V (V r)}

/-- Scans a rule by its pattern as `scanRule` does, and grows its tree. -/
def growRule (body : (r : ρ) → Pattern V (V r)) : Nat → (r : ρ) → Cursor → Option ((V r × Tree ρ) × Cursor)
  | 0, _, _ => none
  | fuel + 1, r, c =>
    ((body r).grow (growRule body fuel) c).map fun (x, c') => ((x.1, .node r (c.until c') c.offset x.2), c')

theorem growRule_bare (fuel : Nat) (r : ρ) (c : Cursor) :
    bare (growRule body fuel) r c = scanRule body fuel r c := by
  induction fuel generalizing r c with
  | zero => rfl
  | succ fuel ih =>
    have same : bare (growRule body fuel) = scanRule body fuel := funext fun r => funext (ih r)
    rw [scanRule, ← same, ← grow_scan, bare, growRule, Option.map_map]
    rfl

/-- What holds of the value and the tree of each rule if it holds of those that its pattern asks for. -/
theorem growRule_holds {P : (r : ρ) → Cursor → V r → Tree ρ → Cursor → Prop}
    (step : ∀ call : (r : ρ) → Cursor → Option ((V r × Tree ρ) × Cursor),
      (∀ ⦃r c a t c'⦄, call r c = some ((a, t), c') → P r c a t c') → ∀ {r c a ts c'},
        (body r).grow call c = some ((a, ts), c') → P r c a (.node r (c.until c') c.offset ts) c')
    {fuel : Nat} {r : ρ} {c c' : Cursor} {a : V r} {t : Tree ρ}
    (grown : growRule body fuel r c = some ((a, t), c')) : P r c a t c' := by
  induction fuel generalizing r c c' a t with
  | zero => cases grown
  | succ fuel ih =>
    obtain ⟨⟨⟨b, ts⟩, d⟩, found, same⟩ := Option.map_eq_some_iff.mp grown
    cases same
    exact step _ (fun _ _ _ _ _ found => ih found) found

end Rules

end ConceptLogic
