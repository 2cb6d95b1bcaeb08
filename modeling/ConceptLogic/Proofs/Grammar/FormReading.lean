import ConceptLogic.Grammar
import ConceptLogic.Proofs.Grammar.PatternMatching
import Mathlib.Data.List.Forall2

namespace ConceptLogic

/-- How many rules can stand inside a rule, one in the other, at the place where it begins. -/
def Rule.rank : Rule → Nat
  | .program => 9
  | .definition | .relationDeclaration | .conceptDeclaration | .individualDeclaration => 8
  | .conceptTuple | .mappingFormula | .containingFormula | .comparisonFormula => 7
  | .xor => 6
  | .or => 5
  | .and => 4
  | .restriction => 3
  | .quantifier => 2
  | .atLeast | .atMost | .exactly | .variable => 1
  | _ => 0

/-- The first character of a text that is not layout. -/
def nextChar (s : List Char) : Option Char := (skipLayout false s 0).rest.head?

theorem skipLayout_rest (commented : Bool) (s : List Char) (n m : Nat) :
    (skipLayout commented s n).rest = (skipLayout commented s m).rest := by
  induction s generalizing commented n m with
  | nil => cases commented <;> rfl
  | cons x rest ih =>
    cases commented with
    | true => exact ih _ _ _
    | false =>
      unfold skipLayout
      split
      · exact ih _ _ _
      · split
        · exact ih _ _ _
        · rfl

theorem skipLayout_again (commented : Bool) (s : List Char) (n : Nat) :
    (skipLayout commented s n).afterLayout = skipLayout commented s n := by
  induction s generalizing commented n with
  | nil => cases commented <;> rfl
  | cons x rest ih =>
    cases commented with
    | true => exact ih _ _
    | false =>
      by_cases blank : isBlank x = true
      · simp only [skipLayout, blank, if_true]
        exact ih _ _
      · by_cases comment : (x == '#') = true
        · simp only [skipLayout, blank, comment, if_true]
          exact ih _ _
        · simp [skipLayout, blank, comment, Cursor.afterLayout]

namespace Cursor

@[simp] theorem afterLayout_again (c : Cursor) : c.afterLayout.afterLayout = c.afterLayout :=
  skipLayout_again ..

theorem afterLayout_head? (s : List Char) (n : Nat) : (afterLayout ⟨s, n⟩).rest.head? = nextChar s := by
  unfold nextChar afterLayout
  rw [skipLayout_rest false s n 0]

end Cursor

/-- Whether a character is a part of the text and not of its layout. -/
def isBare (x : Char) : Bool := !isBlank x && x != '#'

theorem afterLayout_bare {x : Char} (bare : isBare x = true) (s : List Char) (n : Nat) :
    Cursor.afterLayout ⟨x :: s, n⟩ = ⟨x :: s, n⟩ := by
  simp only [isBare, Bool.and_eq_true, Bool.not_eq_true', bne_iff_ne, ne_eq] at bare
  simp [Cursor.afterLayout, skipLayout, bare.1, bare.2]

theorem afterLayout_space (s : List Char) (n : Nat) :
    Cursor.afterLayout ⟨' ' :: s, n⟩ = Cursor.afterLayout ⟨s, n + 1⟩ := rfl

theorem nextChar_bare {x : Char} (bare : isBare x = true) (s : List Char) :
    nextChar (x :: s) = some x := by
  rw [← Cursor.afterLayout_head? _ 0, afterLayout_bare bare]
  rfl

@[simp] theorem nextChar_space (s : List Char) : nextChar (' ' :: s) = nextChar s := by
  rw [← Cursor.afterLayout_head? _ 0, afterLayout_space, Cursor.afterLayout_head?]

namespace Grammar

open Pattern

theorem rank_below (r : Rule) : r.rank < 10 := by
  cases r <;> decide

theorem body_ranked (r : Rule) : (body r).leads (fun s => s.rank < r.rank) = true := by
  cases r <;> rfl

/-- What a form reads at a cursor. -/
def scanned {α : Type} (p : Form α) (c : Cursor) : Option (α × Cursor) :=
  p.scan (scanWhole body Rule.rank 10) c

theorem read_outcome (text : List Char) :
    (read text).outcome = scanned (nested .program) (Cursor.ofText text) := by
  rw [read, matchRule_enough rank_below body_ranked, matchWhole_outcome]
  · rfl
  · change 10 * text.length + 9 < 36 * (text.length + 1)
    omega

/-- Whether a form never reads nothing. -/
def Eats {α : Type} (p : Form α) : Prop :=
  ∀ ⦃c a c'⦄, scanned p c = some (a, c') → c'.rest.length < c.rest.length

section Scanned

variable {α β γ : Type} (c : Cursor)

theorem scanned_rule (r : Rule) : scanned (nested r) c = scanned (body r) c :=
  scanWhole_eq rank_below body_ranked r c

theorem scanned_seq (combine : α → β → γ) (p : Form α) (q : Form β) :
    scanned (seq combine p q) c =
      (scanned p c).bind fun (a, c) => (scanned q c).map fun (b, c) => (combine a b, c) := rfl

theorem scanned_choice (p q : Form α) : scanned (choice p q) c = (scanned p c).or (scanned q c) := rfl

theorem scanned_gap : scanned gap c = some ((), c.afterLayout) := rfl

theorem scanned_literal (word : List Char) :
    scanned (literal word) c = (c.read? word).map fun c => ((), c) := rfl

theorem scanned_spaced {combine : α → β → γ} {p : Form α} {q : Form β} {c c' : Cursor} {a : α}
    (found : scanned p c = some (a, c')) :
    scanned (spaced combine p q) c =
      (scanned q c'.afterLayout).map fun (b, c) => (combine a b, c) := by
  rw [scanned_seq, found]
  change ((scanned q c'.afterLayout).map _).map _ = _
  rw [Option.map_map]
  rfl

theorem Eats.of_eats {p : Form α} (eats : p.eats = true) : Eats p :=
  fun _ _ _ found => (scan_forward (scanWhole_forward _ _) found).2 eats

theorem Eats.rule {r : Rule} (eats : (body r).eats = true) : Eats (nested r) := fun c _ _ found =>
  Eats.of_eats eats ((scanned_rule c r).symm.trans found)

theorem Eats.first {combine : α → β → γ} {p : Form α} {q : Form β} (eats : Eats p) :
    Eats (seq combine p q) := by
  intro c a c' found
  obtain ⟨next, atFirst, found⟩ := Option.bind_eq_some_iff.mp found
  obtain ⟨last, atSecond, same⟩ := Option.map_eq_some_iff.mp found
  cases same
  exact Nat.lt_of_le_of_lt (scan_forward (scanWhole_forward _ _) atSecond).1 (eats atFirst)

theorem Eats.behindGap {item : Form α} (eats : Eats item) :
    Eats (seq (fun _ a => a) gap item) := by
  intro c a c' found
  obtain ⟨last, atItem, same⟩ := Option.map_eq_some_iff.mp found
  cases same
  exact Nat.lt_of_lt_of_le (eats atItem) (skipLayout_length ..)

theorem scanned_star {item : Form α} (eats : Eats item) :
    scanned (star item) c =
      match scanned item c with
      | none => some ([], c)
      | some (a, c') => (scanned (star item) c').map fun (as, c'') => (a :: as, c'') :=
  scan_star @eats c

end Scanned

/-- Items are read in the same way whether layout before them is passed over each time or before
the first is read. -/
theorem scanned_many {α : Type} {item : Form α} (eats : Eats item) {c : Cursor}
    (here : c.afterLayout = c) :
    scanned (many item) c = scanned (star (seq (fun _ a => a) gap item)) c := by
  have behindGap : scanned (seq (fun _ a => a) gap item) c = scanned item c := by
    rw [scanned_seq, scanned_gap, here]
    change (scanned item c).map id = _
    rw [Option.map_id_fun, id]
  rw [scanned_star _ eats.behindGap, behindGap, scanned_choice, scanned_seq]
  cases scanned item c with
  | none => rfl
  | some next => cases scanned (star (seq (fun _ a => a) gap item)) next.2 <;> rfl

theorem read?_append (word rest : List Char) (n : Nat) :
    Cursor.read? word ⟨word ++ rest, n⟩ = some ⟨rest, n + word.length⟩ := by
  induction word generalizing n with
  | nil => rfl
  | cons x word ih =>
    simp only [List.cons_append, Cursor.read?, if_true, ih, List.length_cons, Nat.add_assoc,
      Nat.add_comm 1]

theorem read?_differs {x : Char} {word : List Char} {c : Cursor} (differs : c.rest.head? ≠ some x) :
    c.read? (x :: word) = none := by
  obtain ⟨_ | ⟨y, rest⟩, n⟩ := c
  · rfl
  · exact if_neg fun same => differs (congrArg some same.symm)

/-- A run of characters is read to its end. -/
theorem scanned_run {accepts : Char → Bool} {word rest : List Char}
    (all : ∀ x ∈ word, accepts x = true) (stop : ∀ x ∈ rest.head?, accepts x = false) (n : Nat) :
    scanned (star (char accepts)) ⟨word ++ rest, n⟩ = some (word, ⟨rest, n + word.length⟩) := by
  induction word generalizing n with
  | nil =>
    rw [scanned_star _ (.of_eats rfl)]
    cases rest with
    | nil => rfl
    | cons y rest =>
      have refused : accepts y = false := stop y rfl
      simp [scanned, scan, refused]
  | cons x word ih =>
    have accepted : accepts x = true := all x (List.mem_cons_self ..)
    have first : scanned (char accepts) ⟨x :: (word ++ rest), n⟩ = some (x, ⟨word ++ rest, n + 1⟩) := by
      simp [scanned, scan, accepted]
    rw [scanned_star _ (.of_eats rfl), List.cons_append, first]
    simp only [ih (fun y member => all y (List.mem_cons_of_mem _ member)), Option.map_some,
      List.length_cons, Nat.add_assoc, Nat.add_comm 1]

/-- Whether a form that is begun behind layout reads a text before what comes next, and at most
layout of that: the value that it reads meets a condition. -/
def Reads {α : Type} (p : Form α) (s rest : List Char) (Q : α → Prop) : Prop :=
  ∀ n, ∃ a c, scanned p (Cursor.afterLayout ⟨s ++ rest, n⟩) = some (a, c) ∧ Q a ∧
    c.afterLayout = Cursor.afterLayout ⟨rest, n + s.length⟩

/-- Whether a form that is begun behind layout reads nothing of a text. -/
def Refuses {α : Type} (p : Form α) (s : List Char) : Prop :=
  ∀ n, scanned p (Cursor.afterLayout ⟨s, n⟩) = none

section Refuses

variable {α β γ : Type} {p : Form α} {q : Form β} {s rest : List Char}

theorem Refuses.rule {r : Rule} (refuses : Refuses (body r) s) : Refuses (nested r) s :=
  fun n => (scanned_rule _ r).trans (refuses n)

theorem Refuses.first {combine : α → β → γ} (refuses : Refuses p s) : Refuses (seq combine p q) s :=
  fun n => by rw [scanned_seq, refuses n]; rfl

theorem Refuses.choice {p q : Form α} (left : Refuses p s) (right : Refuses q s) :
    Refuses (choice p q) s :=
  fun n => by rw [scanned_choice, left n, right n]; rfl

theorem Refuses.literal {x : Char} {word : List Char} (differs : nextChar s ≠ some x) :
    Refuses (literal (x :: word)) s :=
  fun n => by
    rw [scanned_literal, read?_differs]
    · rfl
    · rwa [Cursor.afterLayout_head?]

theorem Refuses.space (refuses : Refuses p s) : Refuses p (' ' :: s) := fun n => refuses (n + 1)

theorem Refuses.second {combine : α → β → γ} {Q : α → Prop} (reads : Reads p s rest Q)
    (refuses : Refuses q rest) : Refuses (spaced combine p q) (s ++ rest) := by
  intro n
  obtain ⟨a, c, found, _, behind⟩ := reads n
  rw [scanned_spaced found, behind, refuses]
  rfl

end Refuses

namespace Reads

variable {α β γ : Type} {p : Form α} {q : Form β} {s t rest : List Char} {P : α → Prop} {Q : β → Prop}
  {R : γ → Prop}

theorem mono {P' : α → Prop} (reads : Reads p s rest P) (weaker : ∀ a, P a → P' a) :
    Reads p s rest P' := by
  intro n
  obtain ⟨a, c, found, holds, behind⟩ := reads n
  exact ⟨a, c, found, weaker a holds, behind⟩

theorem rule {r : Rule} {P : r.Value → Prop} (reads : Reads (body r) s rest P) :
    Reads (nested r) s rest P := by
  intro n
  rw [scanned_rule]
  exact reads n

theorem left {p q : Form α} (reads : Reads p s rest P) : Reads (choice p q) s rest P := by
  intro n
  obtain ⟨a, c, found, rest⟩ := reads n
  exact ⟨a, c, by rw [scanned_choice, found]; rfl, rest⟩

theorem right {p q : Form α} (refuses : Refuses p (s ++ rest)) (reads : Reads q s rest P) :
    Reads (choice p q) s rest P := by
  intro n
  obtain ⟨a, c, found, rest⟩ := reads n
  exact ⟨a, c, by rw [scanned_choice, refuses n]; exact found, rest⟩

theorem map {f : α → β} (reads : Reads p s rest fun a => Q (f a)) : Reads (map f p) s rest Q := by
  intro n
  obtain ⟨a, c, found, rest⟩ := reads n
  exact ⟨f a, c, by rw [scanned_seq, found]; rfl, rest⟩

theorem space (reads : Reads p s rest P) : Reads p (' ' :: s) rest P := by
  intro n
  obtain ⟨a, c, found, holds, behind⟩ := reads (n + 1)
  refine ⟨a, c, found, holds, ?_⟩
  rw [behind, List.length_cons, Nat.add_right_comm, Nat.add_assoc]

theorem spaced {combine : α → β → γ} (first : Reads p s (t ++ rest) P) (second : Reads q t rest Q)
    (both : ∀ a b, P a → Q b → R (combine a b)) : Reads (spaced combine p q) (s ++ t) rest R := by
  intro n
  obtain ⟨a, c, found, holds, behind⟩ := first n
  obtain ⟨b, c', found', holds', behind'⟩ := second (n + s.length)
  refine ⟨combine a b, c', ?_, both a b holds holds', ?_⟩
  · rw [List.append_assoc, scanned_spaced found, behind, found']
    rfl
  · rw [behind', List.length_append, Nat.add_assoc]

/-- What a form reads if nothing else is looked at. -/
theorem exact {x : Char} {a : α} (bare : isBare x = true)
    (reads : ∀ n, scanned p ⟨x :: s ++ rest, n⟩ = some (a, ⟨rest, n + (x :: s).length⟩)) :
    Reads p (x :: s) rest (· = a) := by
  intro n
  refine ⟨a, _, ?_, rfl, rfl⟩
  rw [List.cons_append, afterLayout_bare bare]
  exact reads n

theorem literal {x : Char} (word : List Char) (bare : isBare x = true) :
    Reads (literal (x :: word)) (x :: word) rest fun _ => True :=
  (exact bare fun n => by rw [scanned_literal, read?_append]; rfl).mono fun _ _ => trivial

section Many

variable {π : Type} {item : Form α} {Follows : List Char → Prop} {Holds : α → π → Prop}
  {texts : List (List Char)} {ps : List π}

/-- A text of items one after the other, if items do not stop short of what follows. -/
theorem many (eats : Eats item)
    (reads : List.Forall₂ (fun s p => ∀ tail, Follows tail → Reads item s tail (Holds · p)) texts ps)
    (between : ∀ s ∈ texts, ∀ tail, Follows (s ++ tail)) (follows : Follows rest)
    (stop : Refuses item rest) :
    Reads (many item) texts.flatten rest fun as => List.Forall₂ Holds as ps := by
  have items : ∀ (n : Nat) (c : Cursor), c.afterLayout = Cursor.afterLayout ⟨texts.flatten ++ rest, n⟩ →
      ∃ as c', scanned (star (seq (fun _ a => a) gap item)) c = some (as, c') ∧
        List.Forall₂ Holds as ps ∧
        c'.afterLayout = Cursor.afterLayout ⟨rest, n + texts.flatten.length⟩ := by
    induction reads with
    | nil =>
      intro n c here
      refine ⟨[], c, ?_, .nil, here⟩
      rw [scanned_star _ eats.behindGap, scanned_seq, scanned_gap, Option.bind_some, here]
      simp only [List.flatten_nil, List.nil_append, stop n, Option.map_none]
    | @cons s p texts ps first _ ih =>
      intro n c here
      have tail : Follows (texts.flatten ++ rest) := by
        cases texts with
        | nil => exact follows
        | cons t texts =>
          rw [List.flatten_cons, List.append_assoc]
          exact between t (by simp) _
      rw [List.flatten_cons, List.append_assoc] at here
      obtain ⟨a, c', found, holds, behind⟩ := first _ tail n
      obtain ⟨as, c'', found', holds', behind'⟩ :=
        ih (fun s member => between s (List.mem_cons_of_mem _ member)) (n + s.length) c' behind
      refine ⟨a :: as, c'', ?_, .cons holds holds', ?_⟩
      · rw [scanned_star _ eats.behindGap, scanned_seq, scanned_gap, Option.bind_some, here]
        simp only [found, found', Option.map_some]
      · rw [behind', List.flatten_cons, List.length_append, Nat.add_assoc]
  intro n
  rw [scanned_many eats (Cursor.afterLayout_again _)]
  exact items n _ (Cursor.afterLayout_again _)

/-- A text of items with a sign before each. -/
theorem signed {x : Char} {mark : List Char}
    (marks : ∀ tail, Reads (Pattern.literal [x]) mark tail fun _ => True)
    (reads : List.Forall₂ (fun s p => ∀ tail, Follows tail → Reads item s tail (Holds · p)) texts ps)
    (between : ∀ tail, Follows (mark ++ tail)) (follows : Follows rest)
    (stop : nextChar rest ≠ some x) :
    Reads (Pattern.many (before (Pattern.literal [x]) item))
      (texts.map fun s => mark ++ ' ' :: s).flatten rest fun as => List.Forall₂ Holds as ps := by
  have items : List.Forall₂ (fun s p => ∀ tail, Follows tail →
      Reads (before (Pattern.literal [x]) item) s tail (Holds · p))
      (texts.map fun s => mark ++ ' ' :: s) ps := by
    rw [List.forall₂_map_left_iff]
    exact reads.imp fun s p reads tail follows =>
      (marks _).spaced (reads tail follows).space fun _ _ _ holds => holds
  refine many (.of_eats rfl) items ?_ follows (Refuses.first (Refuses.literal stop))
  intro s member tail
  obtain ⟨t, _, rfl⟩ := List.mem_map.mp member
  rw [List.append_assoc]
  exact between _

end Many

end Reads

end Grammar

end ConceptLogic
