import ConceptLogic.Proofs.Evaluation.CheckedResults
import ConceptLogic.Proofs.Grammar.NameTokens

namespace ConceptLogic

theorem Vocabulary.vet_eq_ok_iff {v : Vocabulary} {role : Role} {name admitted : String} :
    v.vet role name = .ok admitted ↔
      admitted = name ∧ v.isReserved (unsigiled name) = false ∧ conforms name role = true := by
  unfold vet
  cases v.isReserved (unsigiled name) <;> cases conforms name role <;> simp [eq_comm]

theorem Draft.name_eq_ok_iff {v : Vocabulary} {role : Role} {n admitted : String} :
    name v role n = .ok admitted ↔ admitted = n ∧ v.vet role n = .ok n := by
  have same : name v role n = .ok admitted ↔ v.vet role n = .ok admitted := by
    unfold name
    cases v.vet role n <;> simp [Except.mapError]
  rw [same, Vocabulary.vet_eq_ok_iff, Vocabulary.vet_eq_ok_iff]
  simp

theorem Draft.name_of_vetted {v : Vocabulary} {role : Role} {n : String}
    (vetted : v.vet role n = .ok n) : name v role n = .ok n :=
  name_eq_ok_iff.mpr ⟨rfl, vetted⟩

theorem Draft.typedVariable_eq_ok_iff {v : Vocabulary} {base : String} {type : Option String}
    {x : Variable} : typedVariable v base type = .ok x ↔ Variable.vet v base type = .ok x := by
  unfold typedVariable
  cases Variable.vet v base type <;> simp [Except.mapError]

theorem Draft.judgeAll_eq_mapM (v : Vocabulary) (ds : List Draft.Concept) :
    judgeAll v ds = ds.mapM (Concept.judge v) := by
  induction ds with
  | nil => rfl
  | cons d ds ih => rw [judgeAll, ih, List.mapM_cons]

theorem Draft.judgeAll_eq_ok_iff {v : Vocabulary} {ds : List Draft.Concept} {ps : List Phrase} :
    judgeAll v ds = .ok ps ↔ List.Forall₂ (fun d p => d.judge v = .ok p) ds ps := by
  rw [judgeAll_eq_mapM, mapM_eq_ok_iff]

theorem Variable.of_vetted {v : Vocabulary} {base : String} {type : Option String} {x : Variable}
    (vetted : Variable.vet v base type = .ok x) :
    x = ⟨base, type⟩ ∧ v.vet (variableRole base) base = .ok base ∧ ∀ t ∈ type, v.vet .concept t = .ok t := by
  obtain ⟨base', admitted, rest⟩ := bind_eq_ok_iff.mp vetted
  obtain ⟨rfl, _⟩ := Vocabulary.vet_eq_ok_iff.mp admitted
  cases type with
  | none =>
    cases rest
    exact ⟨rfl, admitted, nofun⟩
  | some t =>
    obtain ⟨t', admitted', same⟩ := bind_eq_ok_iff.mp rest
    obtain ⟨rfl, _⟩ := Vocabulary.vet_eq_ok_iff.mp admitted'
    cases same
    refine ⟨rfl, admitted, ?_⟩
    rintro _ ⟨⟩
    exact admitted'

theorem Variable.identifiers_of_vetted {v : Vocabulary} {base : String} {type : Option String}
    {x : Variable} (vetted : Variable.vet v base type = .ok x) :
    IsIdentifier base ∧ ∀ t ∈ type, IsIdentifier t := by
  obtain ⟨_, baseVetted, typeVetted⟩ := Variable.of_vetted vetted
  exact ⟨IsIdentifier.of_conforms (Vocabulary.vet_eq_ok_iff.mp baseVetted).2.2, fun t here =>
    IsIdentifier.of_conforms (Vocabulary.vet_eq_ok_iff.mp (typeVetted t here)).2.2⟩

/-- The character that joins operands. -/
def Connective.sign : Connective → Char
  | .and => '&'
  | .or => '|'
  | .xor => '^'

namespace Grammar

open Pattern

/-- What is read where phrases up to some looseness are admitted. -/
def place : Nat → Form Draft.Concept
  | 0 | 1 | 2 => unary
  | 3 => nested .and
  | 4 => nested .or
  | _ => nested .xor

/-- The signs with which a phrase in such a place goes on. -/
def goesOn : Nat → List Char
  | 0 | 1 | 2 => []
  | 3 => ['&']
  | 4 => ['|', '&']
  | _ => ['^', '|', '&']

/-- Whether a phrase in such a place ends before a text. -/
structure Ends (admits : Nat) (rest : List Char) : Prop where
  stops : Stops rest
  apart : rest.head? ≠ some ':'
  signs : ∀ x ∈ nextChar rest, x ∉ goesOn admits

theorem goesOn_subset {n m : Nat} (le : n ≤ m) : goesOn n ⊆ goesOn m := by
  induction le with
  | refl => exact fun _ member => member
  | @step m _ ih =>
    refine List.Subset.trans ih ?_
    match m with
    | 0 | 1 => exact List.Subset.refl _
    | 2 => exact List.nil_subset _
    | 3 | 4 => exact List.subset_cons_self _ _
    | _ + 5 => exact List.Subset.refl _

theorem Ends.tighter {n m : Nat} (le : n ≤ m) {rest : List Char} (ends : Ends m rest) :
    Ends n rest :=
  ⟨ends.stops, ends.apart, fun x here member => ends.signs x here (goesOn_subset le member)⟩

theorem undeclared_of_isNameChar {x : Char} (part : isNameChar x = true) : x ∉ ['!', ':', '='] := by
  have mark := differs_of_isNameChar part (show isNameChar '!' = false by decide)
  have colon := differs_of_isNameChar part (show isNameChar ':' = false by decide)
  have equals := differs_of_isNameChar part (show isNameChar '=' = false by decide)
  simp [mark, colon, equals]

/-- Whether a text is that of a phrase wherever phrases up to some looseness are admitted. It begins
like no declaration and does not go on with the sign of one, and it is no membership by itself. -/
structure Legible (v : Vocabulary) (admits : Nat) (p : Phrase) (s : List Char) : Prop where
  reads : ∀ {rest}, Ends admits rest → Reads (place admits) s rest fun d => d.judge v = .ok p
  opens : ∀ rest, ∃ x, nextChar (s ++ rest) = some x ∧ x ∉ ['!', ':', '=']
  alone : ∀ {rest}, Ends 2 rest → nextChar rest ≠ some ':' →
    Refuses (nested .containingFormula) (s ++ rest)

section Refuses

variable {s rest : List Char}

theorem Refuses.identifier (begins : ∀ x ∈ nextChar s, isNameChar x = false) :
    Refuses Grammar.identifier s := by
  intro n
  have head : ∀ x ∈ (Cursor.afterLayout ⟨s, n⟩).rest.head?, isNameChar x = false := by
    rwa [Cursor.afterLayout_head?]
  generalize Cursor.afterLayout ⟨s, n⟩ = c at head
  obtain ⟨_ | ⟨x, tail⟩, m⟩ := c
  · rfl
  · have refused := head x rfl
    simp only [isNameChar, Char.isAlphanum, Bool.or_eq_false_iff] at refused
    rw [Grammar.identifier, scanned_seq, scanned_star _ (.of_eats rfl)]
    simp [scanned, scan, refused.1.1, refused.2]

theorem Refuses.negation (begins : nextChar s ≠ some '~') : Refuses (nested .negation) s :=
  Refuses.rule (r := .negation) (Refuses.first (Refuses.literal begins))

theorem Refuses.restriction (begins : ∀ x ∈ nextChar s, x.isLower = false) :
    Refuses (nested .restriction) s :=
  Refuses.rule (r := .restriction) (Refuses.first (Refuses.quantifier begins))

theorem Refuses.individualSet (begins : nextChar s ≠ some '\x7b') :
    Refuses (nested .individualSet) s :=
  Refuses.rule (r := .individualSet) (Refuses.first (Refuses.literal begins))

theorem Refuses.variable (begins : nextChar s ≠ some '$') : Refuses (nested .variable) s :=
  Refuses.rule (r := .variable) (Refuses.first (Refuses.literal begins))

theorem Refuses.anaphora (begins : nextChar s ≠ some '@') : Refuses (nested .anaphora) s :=
  Refuses.rule (r := .anaphora) (Refuses.literal begins)

theorem Refuses.containingFormula (begins : ∀ x ∈ nextChar s, isNameChar x = false)
    (sigil : nextChar s ≠ some '$') (anaphora : nextChar s ≠ some '@') :
    Refuses (nested .containingFormula) s :=
  Refuses.rule (r := .containingFormula) <| Refuses.first <|
    Refuses.choice (Refuses.first (Refuses.anaphora anaphora)) <|
    Refuses.choice (Refuses.first (Refuses.variable sigil)) <|
    Refuses.first (Refuses.rule (r := .individual) (Refuses.identifier begins))

/-- A subject makes no membership if no colon follows. -/
theorem Refuses.membership {Q : Draft.Subject → Prop} (reads : Reads subject s rest Q)
    (apart : nextChar rest ≠ some ':') : Refuses (nested .containingFormula) (s ++ rest) :=
  Refuses.rule (r := .containingFormula)
    (Refuses.second reads (Refuses.first (Refuses.literal apart)))

end Refuses

theorem Reads.individualSubject {name : String} (identifier : IsIdentifier name) {rest : List Char}
    (stops : Stops rest) : Reads subject name.toList rest (· = .individual name) := by
  obtain ⟨x, tail, name_eq, part⟩ := identifier.opens
  have opening : nextChar (name.toList ++ rest) = some x := by
    rw [name_eq]
    exact nextChar_bare (bare_of_isNameChar part) _
  refine Reads.right (Refuses.first (Refuses.anaphora fun here => ?_))
    (Reads.right (Refuses.first (Refuses.variable fun here => ?_))
      (Reads.map (Reads.rule (r := .individual) ((Reads.identifier identifier stops).mono ?_))))
  · rw [Option.some.inj (opening.symm.trans here)] at part
    cases part
  · rw [Option.some.inj (opening.symm.trans here)] at part
    cases part
  · rintro _ rfl
    rfl

theorem Reads.variableSubject {base : String} {type : Option String} (baseHolds : IsIdentifier base)
    (typeHolds : ∀ t ∈ type, IsIdentifier t) {rest : List Char} (stops : Stops rest)
    (apart : rest.head? ≠ some ':') :
    Reads subject (Variable.text ⟨base, type⟩).toList rest (· = .var base type) := by
  obtain ⟨tail, text⟩ := variable_opens base type
  refine Reads.right (Refuses.first (Refuses.anaphora ?_)) (Reads.left
    (Reads.map ((Reads.variable baseHolds typeHolds stops apart).mono ?_)))
  · rw [text, List.cons_append, nextChar_bare (by decide)]
    decide
  · rintro _ rfl
    rfl

theorem Reads.anaphoraSubject (rest : List Char) : Reads subject ['@'] rest (· = .anaphora) :=
  Reads.left (Reads.map ((Reads.rule (r := .anaphora) (Reads.literal [] (by decide))).mono
    fun _ _ => rfl))

/-- A phrase that needs no parentheses is read as one if it does not begin like another. -/
theorem Reads.primary {s rest : List Char} {Q : Draft.Concept → Prop}
    (reads : Reads primary s rest Q) {x : Char} (opening : nextChar (s ++ rest) = some x)
    (unsigned : x ≠ '~') (begins : x.isLower = false) : Reads unary s rest Q := by
  refine Reads.right (Refuses.negation ?_) (Reads.right (Refuses.restriction ?_) reads)
  all_goals rw [opening]
  · exact fun here => unsigned (Option.some.inj here)
  · rintro _ ⟨⟩
    exact begins

/-- Operands of a connective are read where a phrase made by it is admitted. -/
theorem Reads.chain {kind : Connective} {s rest : List Char} {Q : Draft.Concept → Prop}
    (reads : Reads (chain kind [kind.sign] (place kind.admits)) s rest Q) :
    Reads (place (kind.admits + 1)) s rest Q := by
  cases kind with
  | and => exact Reads.rule (r := .and) reads
  | or => exact Reads.rule (r := .or) reads
  | xor => exact Reads.rule (r := .xor) reads

theorem sign_goesOn (kind : Connective) : kind.sign ∈ goesOn (kind.admits + 1) := by
  cases kind <;> decide

theorem sign_bare (kind : Connective) : isBare kind.sign = true := by
  cases kind <;> decide

theorem ends_sign (kind : Connective) (tail : List Char) :
    Ends kind.admits ([' ', kind.sign] ++ tail) := by
  refine ⟨stops_cons.mpr (by decide), by simp, ?_⟩
  rw [List.cons_append, nextChar_space, List.cons_append, nextChar_bare (sign_bare kind)]
  rintro _ ⟨⟩
  cases kind <;> decide

theorem Reads.operands {kind : Connective} {rest : List Char} {texts : List (List Char)}
    {v : Vocabulary} {ps : List Phrase}
    (legible : List.Forall₂ (fun s p => Legible v kind.admits p s) texts ps)
    (ends : Ends (kind.admits + 1) rest) :
    Reads (Pattern.many (before (Pattern.literal [kind.sign]) (place kind.admits)))
      (texts.map fun s => [' ', kind.sign] ++ ' ' :: s).flatten rest
      fun ds => List.Forall₂ (fun d p => d.judge v = .ok p) ds ps := by
  have reads : ∀ s p, Legible v kind.admits p s → ∀ tail, Ends kind.admits tail →
      Reads (place kind.admits) s tail fun d => d.judge v = .ok p :=
    fun _ _ legible _ ends => legible.reads ends
  exact Reads.signed (fun _ => (Reads.literal [] (sign_bare kind)).space) (legible.imp reads)
    (ends_sign kind) (ends.tighter (Nat.le_succ _)) fun here => ends.signs _ here (sign_goesOn kind)

namespace Legible

variable {v : Vocabulary}

/-- An operand by itself is read where more of them would be. -/
theorem single (kind : Connective) {p : Phrase} {s : List Char} (legible : Legible v kind.admits p s) :
    Legible v (kind.admits + 1) p s := by
  refine ⟨fun ends => Reads.chain ?_, legible.opens, legible.alone⟩
  have nothing := Reads.operands (v := v) .nil ends
  have one : Reads (chain kind [kind.sign] (place kind.admits)) (s ++ []) _
      fun d => d.judge v = .ok p :=
    (legible.reads (ends.tighter (Nat.le_succ _))).spaced nothing fun d ds judged none => by
      cases none
      exact judged
  rwa [List.append_nil] at one

theorem looser {n m : Nat} (le : n ≤ m) {p : Phrase} {s : List Char} (legible : Legible v n p s) :
    Legible v m p s := by
  induction le with
  | refl => exact legible
  | @step m _ ih =>
    match m with
    | 0 | 1 =>
      exact ⟨fun ends => ih.reads (ends.tighter (Nat.le_succ _)), ih.opens, ih.alone⟩
    | 2 => exact single .and ih
    | 3 => exact single .or ih
    | 4 => exact single .xor ih
    | _ + 5 =>
      exact ⟨fun ends => ih.reads (ends.tighter (Nat.le_succ _)), ih.opens, ih.alone⟩

/-- Two or more operands with signs between them. -/
theorem junction {kind : Connective} {p q : Phrase} {ps : List Phrase} {s t : List Char}
    {texts : List (List Char)} (first : Legible v kind.admits p s) (second : Legible v kind.admits q t)
    (others : List.Forall₂ (fun s p => Legible v kind.admits p s) texts ps) :
    Legible v (kind.admits + 1) (Phrase.join kind (p :: q :: ps))
      (s ++ ((t :: texts).map fun s => [' ', kind.sign] ++ ' ' :: s).flatten) := by
  have operands : ∃ tail, ((t :: texts).map fun s => [' ', kind.sign] ++ ' ' :: s).flatten =
      [' ', kind.sign] ++ tail := ⟨_, List.append_assoc ..⟩
  refine ⟨fun {rest} ends => Reads.chain ?_, fun rest => ?_, fun {rest} ends apart => ?_⟩
  · refine (first.reads ?_).spaced (Reads.operands (.cons second others) ends) fun d ds judged all => ?_
    · obtain ⟨tail, operands⟩ := operands
      rw [operands, List.append_assoc]
      exact ends_sign kind _
    · cases all with
      | cons judged' all =>
        have parts := Draft.judgeAll_eq_ok_iff.mpr (.cons judged (.cons judged' all))
        simp [Draft.Concept.chain, Draft.Concept.judge, parts, bind, Except.bind, Pure.pure, Except.pure]
  · rw [List.append_assoc]
    exact first.opens _
  · obtain ⟨tail, operands⟩ := operands
    rw [operands, List.append_assoc, List.append_assoc]
    refine first.alone ((ends_sign kind _).tighter (by cases kind <;> decide)) ?_
    rw [List.cons_append, nextChar_space, List.cons_append, nextChar_bare (sign_bare kind)]
    cases kind <;> decide

/-- What begins with one of the signs for concepts is neither a declaration nor a membership. -/
theorem of_sign {n : Nat} {p : Phrase} {x : Char} {s : List Char} (among : x ∈ ['~', '(', '\x7b'])
    (reads : ∀ {rest}, Ends n rest → Reads (place n) (x :: s) rest fun d => d.judge v = .ok p) :
    Legible v n p (x :: s) := by
  have facts : ∀ y ∈ ['~', '(', '\x7b'],
      isBare y = true ∧ isNameChar y = false ∧ y ∉ ['!', ':', '='] ∧ y ≠ '$' ∧ y ≠ '@' := by
    refine List.forall_mem_cons.mpr ⟨?_, List.forall_mem_cons.mpr ⟨?_, List.forall_mem_singleton.mpr ?_⟩⟩ <;>
      decide
  obtain ⟨bare, strange, undeclared, sigil, anaphora⟩ := facts x among
  have opening : ∀ rest, nextChar (x :: s ++ rest) = some x := fun rest => nextChar_bare bare _
  refine ⟨reads, fun rest => ⟨x, opening rest, undeclared⟩, fun _ _ => ?_⟩
  refine Refuses.containingFormula ?_ ?_ ?_
  all_goals rw [opening]
  · rintro _ ⟨⟩
    exact strange
  · exact fun same => sigil (Option.some.inj same)
  · exact fun same => anaphora (Option.some.inj same)

/-- A phrase in parentheses is read anywhere. -/
theorem enclosed {p : Phrase} {s : List Char} (legible : Legible v 5 p s) :
    Legible v 2 p ('(' :: (s ++ [')'])) := by
  refine of_sign (by decide) fun {rest} ends => ?_
  have closing : Ends 5 ([')'] ++ rest) := by
    refine ⟨stops_cons.mpr (by decide), by simp, ?_⟩
    rw [List.cons_append, nextChar_bare (by decide)]
    rintro _ ⟨⟩
    decide
  refine Reads.primary (Reads.left ?_) (nextChar_bare (by decide) _) (by decide) (by decide)
  exact (Reads.literal [] (by decide)).spaced ((legible.reads closing).spaced
    (Reads.literal [] (by decide)) fun _ _ judged _ => judged) fun _ _ _ judged => judged

theorem negation {p : Phrase} {s : List Char} (legible : Legible v 2 p s) :
    Legible v 2 (.negation p) ('~' :: s) := by
  refine of_sign (by decide) fun {rest} ends => Reads.left (Reads.rule (r := .negation) ?_)
  have sign : Reads (literal ['~']) ['~'] (s ++ rest) fun _ => True :=
    Reads.literal [] (by decide)
  refine sign.spaced
    (Reads.map ((legible.reads ends).mono fun d judged => ?_)) fun _ _ _ judged => judged
  simp [Draft.Concept.judge, judged, bind, Except.bind, Pure.pure, Except.pure]

theorem nominal {member : String} {members : List String}
    (vetted : ∀ m ∈ member :: members, v.vet .individual m = .ok m) :
    Legible v 2 (.nominal (member :: members))
      ("\x7b" ++ separated ", " (member :: members) ++ "\x7d").toList := by
  have text : ("\x7b" ++ separated ", " (member :: members) ++ "\x7d").toList =
      '\x7b' :: (separated ", " (member :: members) ++ "\x7d").toList := by
    simp [String.append_assoc]
  have judged : (Draft.Concept.nominal (member :: members)).judge v =
      .ok (.nominal (member :: members)) := by
    have names : (member :: members).mapM (Draft.name v .individual) = .ok (member :: members) :=
      mapM_eq_ok_iff.mpr (List.forall₂_same.mpr fun m here => Draft.name_of_vetted (vetted m here))
    rw [Draft.Concept.judge, names]
    rfl
  have identifiers : ∀ m ∈ member :: members, IsIdentifier m := fun m here =>
    IsIdentifier.of_conforms (Vocabulary.vet_eq_ok_iff.mp (vetted m here)).2.2
  have reads := fun rest => Reads.individualSet identifiers rest
  rw [text] at reads ⊢
  refine of_sign (by decide) fun {rest} ends => ?_
  have opening : ∀ tail, nextChar ('\x7b' :: tail) = some '\x7b' := nextChar_bare (by decide)
  refine Reads.primary (Reads.right (Refuses.first (Refuses.literal ?_)) (Reads.left
    (Reads.map ((reads rest).mono ?_)))) (opening _) (by decide) (by decide)
  · rw [List.cons_append, opening]
    decide
  · rintro _ rfl
    exact judged

theorem concept {name : String} (vetted : v.vet .concept name = .ok name) :
    Legible v 2 (.concept name) name.toList := by
  obtain ⟨_, _, holds⟩ := Vocabulary.vet_eq_ok_iff.mp vetted
  have identifier := IsIdentifier.of_conforms holds
  obtain ⟨x, tail, name_eq, upper⟩ := capital_of_conforms (.inl rfl) holds
  have part : isNameChar x = true := by
    simp [isNameChar, Char.isAlphanum, isAlpha_iff.mpr (.inl upper)]
  have opening : ∀ rest, nextChar (name.toList ++ rest) = some x := fun rest => by
    rw [name_eq]
    exact nextChar_bare (bare_of_isNameChar part) _
  have differs : ∀ {rest : List Char} {y : Char}, y.isUpper = false →
      nextChar (name.toList ++ rest) ≠ some y := fun small here => by
    rw [Option.some.inj ((opening _).symm.trans here), small] at upper
    cases upper
  have judged : (Draft.Concept.atom name).judge v = .ok (.concept name) := by
    rw [Draft.Concept.judge, Draft.name_of_vetted vetted]
    rfl
  refine ⟨fun {rest} ends => Reads.primary ?_ (opening rest) ?_ ?_,
    fun rest => ⟨x, opening rest, undeclared_of_isNameChar part⟩, fun ends apart =>
      Refuses.membership (Reads.individualSubject identifier ends.stops) apart⟩
  · refine Reads.right (Refuses.first (Refuses.literal (differs (by decide)))) <|
      Reads.right (Refuses.first (Refuses.individualSet (differs (by decide)))) <|
      Reads.right (Refuses.first (Refuses.variable (differs (by decide)))) <|
      Reads.right (Refuses.first (Refuses.anaphora (differs (by decide)))) <|
      Reads.map (Reads.rule (r := .conceptAtom) ((Reads.identifier identifier ends.stops).mono ?_))
    rintro _ rfl
    exact judged
  · rintro rfl
    cases upper
  · exact isLower_of_isUpper upper

theorem anaphora : Legible v 2 .anaphora ['@'] := by
  have opening : ∀ rest, nextChar (['@'] ++ rest) = some '@' := nextChar_bare (by decide)
  refine ⟨fun {rest} ends => Reads.primary ?_ (opening rest) (by decide) (by decide),
    fun rest => ⟨'@', opening rest, by decide⟩,
    fun ends apart => Refuses.membership (Reads.anaphoraSubject _) apart⟩
  refine Reads.right (Refuses.first (Refuses.literal ?_)) <|
    Reads.right (Refuses.first (Refuses.individualSet ?_)) <|
    Reads.right (Refuses.first (Refuses.variable ?_)) <|
    Reads.left (Reads.map ((Reads.rule (r := .anaphora)
      (Reads.literal [] (by decide))).mono fun _ _ => rfl))
  all_goals rw [opening]; decide

theorem var {base : String} {type : Option String}
    (vetted : Variable.vet v base type = .ok ⟨base, type⟩) :
    Legible v 2 (.var ⟨base, type⟩) (Variable.text ⟨base, type⟩).toList := by
  obtain ⟨tail, text⟩ := variable_opens base type
  obtain ⟨baseHolds, typeHolds⟩ := Variable.identifiers_of_vetted vetted
  have opening : ∀ rest, nextChar ((Variable.text ⟨base, type⟩).toList ++ rest) = some '$' :=
    fun rest => by
      rw [text]
      exact nextChar_bare (by decide) _
  have judged : (Draft.Concept.var base type).judge v = .ok (.var ⟨base, type⟩) := by
    rw [Draft.Concept.judge, Draft.typedVariable, vetted]
    rfl
  refine ⟨fun {rest} ends => Reads.primary ?_ (opening rest) (by decide) (by decide),
    fun rest => ⟨'$', opening rest, by decide⟩, fun ends apart => Refuses.membership
      (Reads.variableSubject baseHolds typeHolds ends.stops ends.apart) apart⟩
  refine Reads.right (Refuses.first (Refuses.literal ?_)) <|
    Reads.right (Refuses.first (Refuses.individualSet ?_)) <|
    Reads.left (Reads.map ((Reads.variable baseHolds typeHolds ends.stops ends.apart).mono ?_))
  · rw [opening]
    decide
  · rw [opening]
    decide
  · rintro _ rfl
    exact judged

theorem restriction {q : Quantifier} {r : String} {p : Phrase} {s : List Char} (fits : q.Fits)
    (vetted : v.vet .relation r = .ok r) (legible : Legible v 2 p s) :
    Legible v 2 (.restriction q (.relation r) p)
      (q.text.toList ++ (' ' :: r.toList ++ ([' ', '.'] ++ ' ' :: s))) := by
  obtain ⟨_, _, holds⟩ := Vocabulary.vet_eq_ok_iff.mp vetted
  have identifier := IsIdentifier.of_conforms holds
  obtain ⟨x, tail, name_eq, part⟩ := identifier.opens
  obtain ⟨word, number, text, wordHolds, numberHolds⟩ := quantifier_word q
  obtain ⟨y, letters, word_eq, letter⟩ := wordHolds.opens
  have opening : ∀ rest, nextChar (q.text.toList ++ rest) = some y := fun rest => by
    rw [text, word_eq]
    exact nextChar_bare (bare_of_isNameChar letter) _
  refine ⟨fun {rest} ends => Reads.right (Refuses.negation ?_)
    (Reads.left (Reads.rule (r := .restriction) ?_)), fun rest => ⟨y, ?_, undeclared_of_isNameChar letter⟩,
    fun {rest} ends apart => ?_⟩
  · rw [List.append_assoc, opening]
    rintro ⟨⟩
    cases letter
  · have stops : Stops ([' ', '.'] ++ ' ' :: s ++ rest) := stops_cons.mpr (by decide)
    have relation := Reads.rule (r := .relation) (Reads.identifier identifier stops)
    have dot : Reads (literal ['.']) [' ', '.'] (' ' :: s ++ rest) fun _ => True :=
      (Reads.literal [] (by decide)).space
    have target : Reads (spaced Prod.mk (nested .relation) (before (literal ['.']) unary))
        (' ' :: r.toList ++ ([' ', '.'] ++ ' ' :: s)) rest
        fun target => target.1 = r ∧ target.2.judge v = .ok p := relation.space.spaced
      (dot.spaced (legible.reads ends).space fun _ _ _ judged => judged)
      fun _ _ named judged => ⟨named, judged⟩
    refine (Reads.quantifier fits (stops_cons.mpr (by decide))).spaced target ?_
    rintro d ⟨name, c⟩ judgedQuantifier ⟨rfl, judged⟩
    simp [Draft.Concept.judge, judgedQuantifier, Draft.name_of_vetted vetted, judged, bind, Except.bind,
      Pure.pure, Except.pure]
  · rw [List.append_assoc]
    exact opening _
  · rw [text, List.append_assoc, List.append_assoc]
    refine Refuses.membership (Reads.individualSubject wordHolds ?_) ?_
    · rcases numberHolds with rfl | ⟨z, digits, rfl, digit⟩ <;> exact stops_cons.mpr (by decide)
    · have further : ∀ {z : Char} {tail : List Char}, isNameChar z = true →
          nextChar (' ' :: z :: tail) ≠ some ':' := fun part here => by
        rw [nextChar_space, nextChar_bare (bare_of_isNameChar part)] at here
        cases here
        cases part
      rcases numberHolds with rfl | ⟨z, digits, rfl, digit⟩
      · rw [name_eq]
        exact further part
      · exact further (by simp [isNameChar, Char.isAlphanum, digit])

end Legible

end Grammar

end ConceptLogic
