import ConceptLogic.Language
import ConceptLogic.Proofs.Grammar.FullDrafts

namespace ConceptLogic

namespace Phrase

/-- What stands before the colon of a membership. -/
inductive Subject (v : Vocabulary) : Phrase → Prop
  | individual {name : String} (vetted : v.vet .individual name = .ok name) :
      Subject v (.individual name)
  | var {x : Variable} (vetted : Variable.vet v x.base x.type = .ok x) : Subject v (.var x)
  | anaphora : Subject v .anaphora

/-- The statements that texts yield. -/
inductive Stated (v : Vocabulary) : Phrase → Prop
  | concept {p : Phrase} (proper : Proper v p) : Stated v p
  | define {name : String} {p : Phrase} (vetted : v.vet .concept name = .ok name)
      (body : Proper v p) : Stated v (.define name p)
  | declareRelation {name : String} {p q : Phrase} (vetted : v.vet .relation name = .ok name)
      (domain : Proper v p) (range : Proper v q) : Stated v (.declareRelation name p q)
  | declareConcept {name : String} {ps : List Phrase} (vetted : v.vet .concept name = .ok name)
      (inhabited : ps ≠ []) (parts : ∀ p ∈ ps, Proper v p) : Stated v (.declareConcept name ps)
  | declareIndividual {name : String} {ps : List Phrase} (vetted : v.vet .individual name = .ok name)
      (inhabited : ps ≠ []) (parts : ∀ p ∈ ps, Proper v p) : Stated v (.declareIndividual name ps)
  | membership {s p : Phrase} (subject : Subject v s) (concept : Proper v p) :
      Stated v (.membership s p)
  | comparison {p : Phrase} {links : List (String × Phrase)} (first : Proper v p)
      (inhabited : links ≠ []) (known : ∀ link ∈ links, link.1 ∈ Grammar.comparators)
      (operands : ∀ link ∈ links, Proper v link.2) : Stated v (compare p links)

end Phrase

namespace Draft

open Phrase (Proper)

theorem Subject.admitted {v : Vocabulary} {s : Subject} {p : Phrase} (judged : s.judge v = .ok p) :
    p.Subject v := by
  cases s with
  | individual n =>
    obtain ⟨m, named, same⟩ := bind_eq_ok_iff.mp judged
    obtain ⟨rfl, vetted⟩ := name_eq_ok_iff.mp named
    cases same
    exact .individual vetted
  | var base type =>
    obtain ⟨x, typed, same⟩ := bind_eq_ok_iff.mp judged
    have vetted := typedVariable_eq_ok_iff.mp typed
    obtain ⟨rfl, _⟩ := Variable.of_vetted vetted
    cases same
    exact .var vetted
  | anaphora =>
    cases judged
    exact .anaphora

theorem proper_of_judgeAll {v : Vocabulary} {ds : List Concept} (full : ∀ d ∈ ds, d.Full)
    {ps : List Phrase} (judged : judgeAll v ds = .ok ps) :
    ps.length = ds.length ∧ ∀ p ∈ ps, Proper v p := by
  have each := judgeAll_eq_ok_iff.mp judged
  refine ⟨each.length_eq.symm, fun p member => ?_⟩
  obtain ⟨d, here, judged⟩ := exists_of_forall₂ each member
  exact (full d here).proper judged

/-- A tuple that is not empty is admitted as one that is not. -/
theorem tuple_of_judgeAll {v : Vocabulary} {ds : List Concept} (full : ∀ d ∈ ds, d.Full) (inhabited : ds ≠ [])
    {ps : List Phrase} (judged : judgeAll v ds = .ok ps) : ps ≠ [] ∧ ∀ p ∈ ps, Proper v p := by
  obtain ⟨length, proper⟩ := proper_of_judgeAll full judged
  refine ⟨?_, proper⟩
  rintro rfl
  exact inhabited (List.eq_nil_of_length_eq_zero length.symm)

/-- A full draft that is admitted gives a statement that texts yield. -/
theorem Statement.Full.stated {v : Vocabulary} {d : Statement} (full : d.Full) {p : Phrase}
    (judged : d.judge v = .ok p) : p.Stated v := by
  cases full with
  | concept body => exact .concept (body.proper judged)
  | define body =>
    obtain ⟨n, named, judged⟩ := bind_eq_ok_iff.mp judged
    obtain ⟨p, inner, same⟩ := bind_eq_ok_iff.mp judged
    obtain ⟨rfl, vetted⟩ := name_eq_ok_iff.mp named
    cases same
    exact .define vetted (body.proper inner)
  | declareRelation domain range =>
    obtain ⟨n, named, judged⟩ := bind_eq_ok_iff.mp judged
    obtain ⟨p, atDomain, judged⟩ := bind_eq_ok_iff.mp judged
    obtain ⟨q, atRange, same⟩ := bind_eq_ok_iff.mp judged
    obtain ⟨rfl, vetted⟩ := name_eq_ok_iff.mp named
    cases same
    exact .declareRelation vetted (domain.proper atDomain) (range.proper atRange)
  | declareConcept inhabited parts =>
    obtain ⟨n, named, judged⟩ := bind_eq_ok_iff.mp judged
    obtain ⟨ps, inner, same⟩ := bind_eq_ok_iff.mp judged
    obtain ⟨rfl, vetted⟩ := name_eq_ok_iff.mp named
    obtain ⟨inhabited', proper⟩ := tuple_of_judgeAll parts inhabited inner
    cases same
    exact .declareConcept vetted inhabited' proper
  | declareIndividual inhabited parts =>
    obtain ⟨n, named, judged⟩ := bind_eq_ok_iff.mp judged
    obtain ⟨ps, inner, same⟩ := bind_eq_ok_iff.mp judged
    obtain ⟨rfl, vetted⟩ := name_eq_ok_iff.mp named
    obtain ⟨inhabited', proper⟩ := tuple_of_judgeAll parts inhabited inner
    cases same
    exact .declareIndividual vetted inhabited' proper
  | membership concept =>
    obtain ⟨s, atSubject, judged⟩ := bind_eq_ok_iff.mp judged
    obtain ⟨p, inner, same⟩ := bind_eq_ok_iff.mp judged
    cases same
    exact .membership (Subject.admitted atSubject) (concept.proper inner)
  | @comparison d links first inhabited known operands =>
    obtain ⟨p, atFirst, judged⟩ := bind_eq_ok_iff.mp judged
    obtain ⟨ps, inner, same⟩ := bind_eq_ok_iff.mp judged
    obtain ⟨length, proper⟩ := proper_of_judgeAll (List.forall_mem_map.mpr operands) inner
    rw [List.length_map] at length
    have split : Phrase.comparison (p :: ps) (links.map Prod.fst) =
        Phrase.compare p ((links.map Prod.fst).zip ps) := by
      rw [Phrase.compare, List.map_fst_zip (by simp [length]), List.map_snd_zip (by simp [length])]
    cases same
    rw [split]
    refine .comparison (first.proper atFirst) (fun empty => inhabited ?_) (fun link member => ?_)
      fun link member => proper _ (List.of_mem_zip member).2
    · have none := congrArg List.length empty
      simp only [List.length_zip, List.length_map, length, Nat.min_self, List.length_nil] at none
      exact List.eq_nil_of_length_eq_zero none
    · obtain ⟨link', here, same⟩ := List.mem_map.mp (List.of_mem_zip member).1
      rw [← same]
      exact known link' here

end Draft

namespace Grammar

open Pattern Phrase

/-- Whether a statement is over where a text begins. -/
def Over (rest : List Char) : Prop := rest = [] ∨ ∃ tail, rest = ';' :: tail

theorem Over.nextChar {rest : List Char} (ended : Over rest) :
    nextChar rest = none ∨ nextChar rest = some ';' := by
  rcases ended with rfl | ⟨tail, rfl⟩
  · exact .inl rfl
  · exact .inr (nextChar_bare (by decide) _)

theorem Over.differs {rest : List Char} (ended : Over rest) {x : Char} (other : x ≠ ';') :
    ConceptLogic.nextChar rest ≠ some x := by
  rcases ended.nextChar with here | here <;> rw [here]
  · nofun
  · exact fun same => other (Option.some.inj same).symm

theorem goesOn_five (n : Nat) : goesOn n ⊆ ['^', '|', '&'] :=
  match n with
  | 0 | 1 | 2 => List.nil_subset _
  | 3 | 4 => by decide
  | _ + 5 => List.Subset.refl _

theorem Over.ends {rest : List Char} (ended : Over rest) (n : Nat) : Ends n rest := by
  have apart : rest.head? ≠ some ':' := by rcases ended with rfl | ⟨tail, rfl⟩ <;> simp
  have stops : Stops rest := by
    rcases ended with rfl | ⟨tail, rfl⟩
    · exact stops_nil
    · exact stops_cons.mpr (by decide)
  refine ⟨stops, apart, fun x here member => ?_⟩
  have sign := goesOn_five n member
  exact ended.differs (by rintro rfl; revert sign; decide) here

/-- A phrase ends before a space and a sign of something else. -/
theorem ends_space {n : Nat} {x : Char} {tail : List Char} (bare : isBare x = true)
    (other : x ∉ ['^', '|', '&']) : Ends n (' ' :: x :: tail) := by
  refine ⟨stops_cons.mpr (by decide), by simp, ?_⟩
  rw [nextChar_space, nextChar_bare bare]
  rintro _ ⟨⟩ member
  exact other (goesOn_five n member)

variable {v : Vocabulary}

theorem Legible.of_place {p : Phrase} (proper : Proper v p) : Legible v 5 p p.text.toList :=
  (Legible.of_proper proper).looser (by have := proper.looseness_le; omega)

theorem Legible.whole {p : Phrase} {s rest : List Char} (legible : Legible v 5 p s)
    (ends : Ends 5 rest) : Reads (nested .xor) s rest fun d => d.judge v = .ok p :=
  legible.reads ends

theorem text_wrapped {p : Phrase} (proper : Proper v p) : wrapped 6 p p.text = p.text := by
  have bounded := proper.looseness_le
  exact if_neg (by omega)

theorem Refuses.declaration {s : List Char} (opens : nextChar s ≠ some '!') : Refuses declaration s :=
  Refuses.first (Refuses.literal opens)

theorem Refuses.comparator {rest : List Char} (ended : Over rest) : Refuses (nested .comparator) rest := by
  have sign : ∀ {x : Char} {word : List Char}, x ≠ ';' → Refuses (sign (x :: word)) rest :=
    fun other => Refuses.first (Refuses.literal (ended.differs other))
  exact Refuses.rule (r := .comparator) <| .choice (sign (by decide)) <| .choice (sign (by decide)) <|
    .choice (sign (by decide)) <| .choice (sign (by decide)) <| .choice (sign (by decide))
    (sign (by decide))

/-- What a statement's text reads as, wherever it is over. -/
def States (v : Vocabulary) (p : Phrase) (s : List Char) : Prop :=
  ∀ {rest}, Over rest → Reads statement s rest fun d => d.judge v = .ok p

theorem Legible.states {p : Phrase} {s : List Char} (legible : Legible v 5 p s) : States v p s := by
  intro rest ended
  -- A lone concept is tried last, so each other statement has to refuse it.
  obtain ⟨x, opening, undeclared⟩ := legible.opens rest
  refine Reads.right (Refuses.declaration ?_) <| Reads.right ?_ <| Reads.right ?_ <|
    Reads.map (legible.whole (ended.ends 5))
  · rw [opening]
    rintro ⟨⟩
    exact undeclared (by decide)
  · exact legible.alone (ended.ends 2) (ended.differs (by decide))
  · exact Refuses.rule (r := .comparisonFormula) (Refuses.second (legible.whole (ended.ends 5))
      (Refuses.first (Refuses.first (Refuses.comparator ended))))

section Declarations

variable {name : String} {role : Role} {s rest : List Char}

/-- The forms behind the mark of a declaration. -/
abbrev declared : Form Draft.Statement :=
  choice (nested .definition) <| choice (nested .relationDeclaration) <|
    choice (nested .conceptDeclaration) (nested .individualDeclaration)

theorem Reads.declaration {Q : Draft.Statement → Prop} (reads : Reads declared s rest Q) :
    Reads statement (['!'] ++ s) rest Q :=
  Reads.left ((Reads.literal [] (by decide)).spaced reads fun _ _ _ holds => holds)

theorem Reads.declaredName (vetted : v.vet role name = .ok name) (tail : List Char) :
    Reads (nested .declaredName) (' ' :: name.toList) (' ' :: tail) (· = name) :=
  have identifier := IsIdentifier.of_conforms (Vocabulary.vet_eq_ok_iff.mp vetted).2.2
  (Reads.rule (r := .declaredName)
    (Reads.identifier identifier (stops_cons.mpr (by decide)))).space

theorem Reads.doubled {x y : Char} (bare : isBare x = true) (rest : List Char) :
    Reads (Pattern.literal [x, y]) [' ', x, y] rest fun _ => True :=
  (Reads.literal [y] bare).space

theorem Refuses.doubled {x y z : Char} {tail : List Char} (bare : isBare x = true) (other : y ≠ z) :
    Refuses (Pattern.literal [x, y]) (' ' :: x :: z :: tail) := by
  intro n
  rw [afterLayout_space, afterLayout_bare bare, scanned_literal]
  simp [Cursor.read?, other]

theorem Refuses.definition (vetted : v.vet role name = .ok name) {x : Char} {tail : List Char}
    (other : '=' ≠ x) :
    Refuses (nested .definition) (' ' :: name.toList ++ ' ' :: ':' :: x :: tail) :=
  Refuses.rule (r := .definition) (Refuses.second (Reads.declaredName vetted _)
    (Refuses.first (Refuses.doubled (by decide) other)))

theorem states_define {p : Phrase} (vetted : v.vet .concept name = .ok name) (body : Proper v p) :
    States v (.define name p) (Phrase.define name p).text.toList := by
  intro rest ended
  have text : (Phrase.define name p).text.toList =
      ['!'] ++ (' ' :: name.toList ++ ([' ', ':', '='] ++ ' ' :: p.text.toList)) := by
    simp [Phrase.text]
  rw [text]
  refine Reads.declaration (Reads.left (Reads.rule (r := .definition) ?_))
  refine (Reads.declaredName vetted _).spaced ((Reads.doubled (by decide) _).spaced
    ((Legible.of_place body).whole (ended.ends 5)).space fun _ _ _ judged => judged) ?_
  rintro _ d rfl judged
  simp [Draft.Statement.judge, Draft.name_of_vetted vetted, judged, bind, Except.bind, Pure.pure,
    Except.pure]

theorem states_declareRelation {p q : Phrase} (vetted : v.vet .relation name = .ok name)
    (domain : Proper v p) (range : Proper v q) :
    States v (.declareRelation name p q) (Phrase.declareRelation name p q).text.toList := by
  intro rest ended
  have text : (Phrase.declareRelation name p q).text.toList =
      ['!'] ++ (' ' :: name.toList ++ ([' ', ':', ':'] ++
        (' ' :: p.text.toList ++ ([' ', '-', '>'] ++ ' ' :: q.text.toList)))) := by
    simp [Phrase.text]
  have arrow : Ends 5 (' ' :: '-' :: ('>' :: ' ' :: q.text.toList ++ rest)) :=
    ends_space (by decide) (by decide)
  have mapping : Reads (nested .mappingFormula)
      (' ' :: p.text.toList ++ ([' ', '-', '>'] ++ ' ' :: q.text.toList)) rest
      fun m => m.1.judge v = .ok p ∧ m.2.judge v = .ok q :=
    Reads.rule (r := .mappingFormula) (((Legible.of_place domain).whole arrow).space.spaced
      ((Reads.doubled (by decide) _).spaced ((Legible.of_place range).whole (ended.ends 5)).space
        fun _ _ _ judged => judged) fun _ _ => And.intro)
  rw [text]
  refine Reads.declaration (Reads.right ?_ (Reads.left (Reads.rule (r := .relationDeclaration) ?_)))
  · rw [List.append_assoc]
    exact Refuses.definition vetted (by decide)
  · refine (Reads.declaredName vetted _).spaced ((Reads.doubled (by decide) _).spaced mapping
      fun _ _ _ judged => judged) ?_
    rintro _ ⟨d, e⟩ rfl ⟨atDomain, atRange⟩
    simp [Draft.Statement.judge, Draft.name_of_vetted vetted, atDomain, atRange, bind, Except.bind,
      Pure.pure, Except.pure]

/-- The parts of a tuple behind its first. -/
theorem tuple_text {p : Phrase} {ps : List Phrase} (parts : ∀ q ∈ p :: ps, Proper v q) :
    (separated ", " (texts 6 (p :: ps))).toList =
      p.text.toList ++ ((ps.map fun q => q.text.toList).map fun s => [','] ++ ' ' :: s).flatten := by
  have plain : (p :: ps).map (fun q => wrapped 6 q q.text) = (p :: ps).map Phrase.text :=
    List.map_congr_left fun q member => text_wrapped (parts q member)
  rw [texts_eq_map, plain, List.map_cons, separated_toList]
  simp [Function.comp_def]

theorem ends_comma {n : Nat} (tail : List Char) : Ends n ([','] ++ tail) := by
  refine ⟨stops_cons.mpr (by decide), by simp, ?_⟩
  rw [List.cons_append, nextChar_bare (by decide)]
  rintro _ ⟨⟩ member
  exact absurd (goesOn_five n member) (by decide)

theorem Reads.conceptTuple {p : Phrase} {ps : List Phrase} (parts : ∀ q ∈ p :: ps, Proper v q)
    (ended : Over rest) :
    Reads (nested .conceptTuple) (separated ", " (texts 6 (p :: ps))).toList rest
      fun ds => Draft.judgeAll v ds = .ok (p :: ps) := by
  have part : ∀ q ∈ p :: ps, ∀ tail, Ends 5 tail →
      Reads (nested .xor) q.text.toList tail fun d => d.judge v = .ok q :=
    fun q member tail ends => (Legible.of_place (parts q member)).whole ends
  have others : List.Forall₂ (fun s q => ∀ tail, Ends 5 tail →
      Reads (nested .xor) s tail fun d => d.judge v = .ok q) (ps.map fun q => q.text.toList) ps := by
    rw [List.forall₂_map_left_iff, List.forall₂_same]
    exact fun q member => part q (List.mem_cons_of_mem _ member)
  have comma : ∀ tail, Reads (Pattern.literal [',']) [','] tail fun _ => True :=
    fun _ => Reads.literal [] (by decide)
  have listed := Reads.signed comma others ends_comma (ended.ends 5) (ended.differs (by decide))
  have ends : Ends 5 (((ps.map fun q => q.text.toList).map fun s => [','] ++ ' ' :: s).flatten ++ rest) := by
    cases ps with
    | nil => exact ended.ends 5
    | cons q ps => exact ends_comma _
  rw [tuple_text parts]
  exact Reads.rule (r := .conceptTuple) ((part p (List.mem_cons_self ..) _ ends).spaced listed
    fun _ _ first all => Draft.judgeAll_eq_ok_iff.mpr (.cons first all))

/-- A tuple is no mapping. -/
theorem Refuses.mapping {p : Phrase} {ps : List Phrase} (parts : ∀ q ∈ p :: ps, Proper v q)
    (ended : Over rest) :
    Refuses (nested .mappingFormula) ((separated ", " (texts 6 (p :: ps))).toList ++ rest) := by
  have legible := Legible.of_place (parts p (List.mem_cons_self ..))
  rw [tuple_text parts, List.append_assoc]
  cases ps with
  | nil =>
    exact Refuses.rule (r := .mappingFormula) (Refuses.second (legible.whole (ended.ends 5))
      (Refuses.first (Refuses.literal (ended.differs (by decide)))))
  | cons q ps =>
    refine Refuses.rule (r := .mappingFormula) (Refuses.second (legible.whole (ends_comma _))
      (Refuses.first (Refuses.literal ?_)))
    rw [List.map_cons, List.map_cons, List.flatten_cons, List.append_assoc, List.append_assoc,
      List.cons_append, nextChar_bare (by decide)]
    decide

theorem states_declareConcept {ps : List Phrase} (vetted : v.vet .concept name = .ok name)
    (inhabited : ps ≠ []) (parts : ∀ p ∈ ps, Proper v p) :
    States v (.declareConcept name ps) (Phrase.declareConcept name ps).text.toList := by
  intro rest ended
  obtain ⟨p, ps, rfl⟩ := List.exists_cons_of_ne_nil inhabited
  have text : (Phrase.declareConcept name (p :: ps)).text.toList =
      ['!'] ++ (' ' :: name.toList ++ ([' ', ':', ':'] ++
        ' ' :: (separated ", " (texts 6 (p :: ps))).toList)) := by
    simp [Phrase.text]
  rw [text]
  -- The two forms that are tried before begin alike: one misses its sign, the other its arrow.
  refine Reads.declaration (Reads.right ?_ (Reads.right ?_
    (Reads.left (Reads.rule (r := .conceptDeclaration) ?_))))
  · rw [List.append_assoc]
    exact Refuses.definition vetted (by decide)
  · rw [List.append_assoc, List.append_assoc]
    exact Refuses.rule (r := .relationDeclaration) (Refuses.second (Reads.declaredName vetted _)
      (Refuses.second (Reads.doubled (by decide) _) (Refuses.mapping parts ended).space))
  · refine (Reads.declaredName vetted _).spaced ((Reads.doubled (by decide) _).spaced
      (Reads.conceptTuple parts ended).space fun _ _ _ judged => judged) ?_
    rintro _ ds rfl judged
    simp [Draft.Statement.judge, Draft.name_of_vetted vetted, judged, bind, Except.bind, Pure.pure,
      Except.pure]

theorem states_declareIndividual {ps : List Phrase} (vetted : v.vet .individual name = .ok name)
    (inhabited : ps ≠ []) (parts : ∀ p ∈ ps, Proper v p) :
    States v (.declareIndividual name ps) (Phrase.declareIndividual name ps).text.toList := by
  intro rest ended
  obtain ⟨p, ps, rfl⟩ := List.exists_cons_of_ne_nil inhabited
  have text : (Phrase.declareIndividual name (p :: ps)).text.toList =
      ['!'] ++ (' ' :: name.toList ++ ([' ', ':'] ++
        ' ' :: (separated ", " (texts 6 (p :: ps))).toList)) := by
    simp [Phrase.text]
  have colon : Reads (literal [':']) [' ', ':']
      (' ' :: (separated ", " (texts 6 (p :: ps))).toList ++ rest) fun _ => True :=
    (Reads.literal [] (by decide)).space
  rw [text]
  refine Reads.declaration (Reads.right ?_ (Reads.right ?_ (Reads.right ?_
    (Reads.rule (r := .individualDeclaration) ?_))))
  · rw [List.append_assoc]
    exact Refuses.definition vetted (by decide)
  · rw [List.append_assoc]
    exact Refuses.rule (r := .relationDeclaration) (Refuses.second (Reads.declaredName vetted _)
      (Refuses.first (Refuses.doubled (by decide) (by decide))))
  · rw [List.append_assoc]
    exact Refuses.rule (r := .conceptDeclaration) (Refuses.second (Reads.declaredName vetted _)
      (Refuses.first (Refuses.doubled (by decide) (by decide))))
  · refine (Reads.declaredName vetted _).spaced (colon.spaced
      (Reads.conceptTuple parts ended).space fun _ _ _ judged => judged) ?_
    rintro _ ds rfl judged
    simp [Draft.Statement.judge, Draft.name_of_vetted vetted, judged, bind, Except.bind, Pure.pure,
      Except.pure]

end Declarations

theorem Reads.subject {s : Phrase} (subject : Phrase.Subject v s) {rest : List Char} (stops : Stops rest)
    (apart : rest.head? ≠ some ':') :
    Reads Grammar.subject s.text.toList rest fun d => d.judge v = .ok s := by
  cases subject with
  | @individual name vetted =>
    have identifier := IsIdentifier.of_conforms (Vocabulary.vet_eq_ok_iff.mp vetted).2.2
    refine (Reads.individualSubject identifier stops).mono ?_
    rintro _ rfl
    rw [Draft.Subject.judge, Draft.name_of_vetted vetted]
    rfl
  | @var x vetted =>
    obtain ⟨baseHolds, typeHolds⟩ := Variable.identifiers_of_vetted vetted
    refine (Reads.variableSubject baseHolds typeHolds stops apart).mono ?_
    rintro _ rfl
    rw [Draft.Subject.judge, Draft.typedVariable, vetted]
    rfl
  | anaphora =>
    refine (Reads.anaphoraSubject rest).mono ?_
    rintro _ rfl
    rfl

theorem Reads.notNext {refuses : Char → Bool} {rest : List Char}
    (admits : ∀ x ∈ nextChar rest, refuses x = false) :
    Reads (Pattern.notNext refuses) [] rest fun _ => True := by
  intro n
  refine ⟨(), Cursor.afterLayout ⟨[] ++ rest, n⟩, ?_, trivial, Cursor.afterLayout_again _⟩
  have head : ∀ x ∈ (Cursor.afterLayout ⟨[] ++ rest, n⟩).rest.head?, refuses x = false := by
    rwa [Cursor.afterLayout_head?]
  generalize Cursor.afterLayout ⟨[] ++ rest, n⟩ = c at head
  obtain ⟨_ | ⟨x, tail⟩, m⟩ := c
  · rfl
  · simp [scanned, scan, head x rfl]

theorem subject_opens {s : Phrase} (subject : Phrase.Subject v s) (rest : List Char) :
    nextChar (s.text.toList ++ rest) ≠ some '!' := by
  cases subject with
  | @individual name vetted =>
    have identifier := IsIdentifier.of_conforms (Vocabulary.vet_eq_ok_iff.mp vetted).2.2
    obtain ⟨x, tail, name_eq, part⟩ := identifier.opens
    rw [Phrase.text, name_eq, List.cons_append, nextChar_bare (bare_of_isNameChar part)]
    rintro ⟨⟩
    cases part
  | @var x vetted =>
    obtain ⟨tail, text⟩ := variable_opens x.base x.type
    rw [Phrase.text, text, List.cons_append, nextChar_bare (by decide)]
    decide
  | anaphora => exact fun here => by cases (nextChar_bare (by decide) rest).symm.trans here

theorem states_membership {s p : Phrase} (subject : Phrase.Subject v s) (concept : Proper v p) :
    States v (.membership s p) (Phrase.membership s p).text.toList := by
  intro rest ended
  have text : (Phrase.membership s p).text.toList =
      s.text.toList ++ ([' ', ':'] ++ ([] ++ ' ' :: p.text.toList)) := by
    simp [Phrase.text]
  have colon : Reads (literal [':']) [' ', ':'] ([] ++ ' ' :: p.text.toList ++ rest) fun _ => True :=
    (Reads.literal [] (by decide)).space
  have legible := Legible.of_place concept
  obtain ⟨x, opening, undeclared⟩ := legible.opens rest
  have admits : ∀ y ∈ nextChar (' ' :: p.text.toList ++ rest), (y == ':' || y == '=') = false := by
    rw [List.cons_append, nextChar_space, opening]
    rintro _ ⟨⟩
    refine Bool.or_eq_false_iff.mpr ⟨beq_eq_false_iff_ne.mpr ?_, beq_eq_false_iff_ne.mpr ?_⟩
    all_goals
      rintro rfl
      exact undeclared (by decide)
  rw [text]
  refine Reads.right (Refuses.declaration ?_) (Reads.left (Reads.rule (r := .containingFormula)
    ((Reads.subject subject (stops_cons.mpr (by decide)) (by simp)).spaced (colon.spaced
      ((Reads.notNext admits).spaced (legible.whole (ended.ends 5)).space fun _ _ _ judged => judged)
      fun _ _ _ judged => judged) fun d e atSubject atConcept => ?_)))
  · rw [List.append_assoc]
    exact subject_opens subject _
  · simp [Draft.Statement.judge, atSubject, atConcept, bind, Except.bind, Pure.pure, Except.pure]

/-- A comparator is read to its end: no sign is taken for one that it begins with. -/
theorem Reads.comparator {c : String} (known : c ∈ comparators) (tail : List Char) :
    Reads (nested .comparator) (' ' :: c.toList) (' ' :: tail) (· = c) := by
  have all : ∀ word ∈ [['<', '='], ['>', '='], ['=', '>'], ['=', '='], ['<'], ['>']], ∀ n,
      ∃ c, scanned (body .comparator) (Cursor.afterLayout ⟨' ' :: word ++ ' ' :: tail, n⟩) =
        some (String.ofList word, c) ∧
          c.afterLayout = Cursor.afterLayout ⟨' ' :: tail, n + (' ' :: word).length⟩ := by
    intro word member n
    simp only [List.mem_cons, List.not_mem_nil, or_false] at member
    rcases member with rfl | rfl | rfl | rfl | rfl | rfl <;> exact ⟨_, rfl, rfl⟩
  have spelled : c.toList ∈ [['<', '='], ['>', '='], ['=', '>'], ['=', '='], ['<'], ['>']] := by
    simp only [comparators, List.mem_cons, List.not_mem_nil, or_false] at known
    rcases known with rfl | rfl | rfl | rfl | rfl | rfl <;> decide
  refine Reads.rule fun n => ?_
  obtain ⟨c', found, behind⟩ := all _ spelled n
  exact ⟨_, c', found, String.ofList_toList, behind⟩

/-- A link of a comparison as it is written. -/
def linkText (link : String × Phrase) : List Char :=
  ' ' :: link.1.toList ++ ' ' :: link.2.text.toList

theorem compare_text {p : Phrase} {links : List (String × Phrase)} (first : Proper v p)
    (operands : ∀ link ∈ links, Proper v link.2) :
    (compare p links).text.toList = p.text.toList ++ (links.map linkText).flatten := by
  have plain : texts 6 (links.map Prod.snd) = links.map fun link => link.2.text := by
    rw [texts_eq_map, List.map_map]
    exact List.map_congr_left fun link member => text_wrapped (operands link member)
  have chain : (chained (links.map Prod.fst) (links.map fun link => link.2.text)).toList =
      (links.map linkText).flatten := by
    clear operands plain
    induction links with
    | nil => rfl
    | cons link links ih => simp [chained, linkText, ih]
  rw [Phrase.compare, Phrase.text, texts, plain, text_wrapped first, String.toList_append, chain]

theorem link_opens {link : String × Phrase} (known : link.1 ∈ comparators) :
    ∃ x tail, linkText link = ' ' :: x :: tail ∧ x ∈ ['<', '=', '>'] := by
  obtain ⟨c, p⟩ := link
  have spelled : ∃ x word, c.toList = x :: word ∧ x ∈ ['<', '=', '>'] := by
    simp only [comparators, List.mem_cons, List.not_mem_nil, or_false] at known
    rcases known with rfl | rfl | rfl | rfl | rfl | rfl <;> exact ⟨_, _, rfl, by decide⟩
  obtain ⟨x, word, same, sign⟩ := spelled
  exact ⟨x, word ++ ' ' :: p.text.toList, by rw [linkText, same]; rfl, sign⟩

theorem ends_link {link : String × Phrase} (known : link.1 ∈ comparators) (n : Nat) (rest : List Char) :
    Ends n (linkText link ++ rest) ∧ nextChar (linkText link ++ rest) ≠ some ':' := by
  obtain ⟨x, tail, text, sign⟩ := link_opens known
  have facts : ∀ y ∈ ['<', '=', '>'], isBare y = true ∧ y ∉ ['^', '|', '&'] ∧ y ≠ ':' := by
    refine List.forall_mem_cons.mpr ⟨?_, List.forall_mem_cons.mpr ⟨?_, List.forall_mem_singleton.mpr ?_⟩⟩ <;>
      decide
  obtain ⟨bare, other, apart⟩ := facts x sign
  rw [text, List.cons_append, List.cons_append]
  refine ⟨ends_space bare other, ?_⟩
  rw [nextChar_space, nextChar_bare bare]
  exact fun same => apart (Option.some.inj same)

theorem judge_links {ls : List (String × Draft.Concept)} {links : List (String × Phrase)}
    (each : List.Forall₂ (fun l link => l.1 = link.1 ∧ l.2.judge v = .ok link.2) ls links) :
    ls.map Prod.fst = links.map Prod.fst ∧
      Draft.judgeAll v (ls.map Prod.snd) = .ok (links.map Prod.snd) := by
  rw [Draft.judgeAll_eq_ok_iff, List.forall₂_map_left_iff, List.forall₂_map_right_iff]
  refine ⟨?_, each.imp fun _ _ => And.right⟩
  induction each with
  | nil => rfl
  | cons first _ ih => rw [List.map_cons, List.map_cons, first.1, ih]

theorem states_comparison {p : Phrase} {links : List (String × Phrase)} (first : Proper v p)
    (inhabited : links ≠ []) (known : ∀ link ∈ links, link.1 ∈ comparators)
    (operands : ∀ link ∈ links, Proper v link.2) :
    States v (compare p links) (compare p links).text.toList := by
  intro rest ended
  have legible := Legible.of_place first
  have link : ∀ link ∈ links, ∀ tail, Ends 5 tail →
      Reads (spaced Prod.mk (nested .comparator) (nested .xor)) (linkText link) tail
        fun l => l.1 = link.1 ∧ l.2.judge v = .ok link.2 := fun link member tail ends =>
    (Reads.comparator (known link member) _).spaced
      ((Legible.of_place (operands link member)).whole ends).space fun _ _ => And.intro
  rw [compare_text first operands]
  obtain ⟨l, links, rfl⟩ := List.exists_cons_of_ne_nil inhabited
  have others : List.Forall₂ (fun s link => ∀ tail, Ends 5 tail →
      Reads (spaced Prod.mk (nested .comparator) (nested .xor)) s tail
        fun l => l.1 = link.1 ∧ l.2.judge v = .ok link.2) (links.map linkText) links := by
    rw [List.forall₂_map_left_iff, List.forall₂_same]
    exact fun l' member => link l' (List.mem_cons_of_mem _ member)
  have between : ∀ s ∈ links.map linkText, ∀ tail, Ends 5 (s ++ tail) := by
    intro s member tail
    obtain ⟨l', here, rfl⟩ := List.mem_map.mp member
    exact (ends_link (known l' (List.mem_cons_of_mem _ here)) 5 tail).1
  have listed := Reads.many (Eats.first (Eats.rule rfl)) others between (ended.ends 5)
    (Refuses.first (Refuses.comparator ended))
  have follows : Ends 5 ((links.map linkText).flatten ++ rest) := by
    cases links with
    | nil => exact ended.ends 5
    | cons l' links =>
      rw [List.map_cons, List.flatten_cons, List.append_assoc]
      exact between _ (List.mem_cons_self ..) _
  obtain ⟨ends, apart⟩ := ends_link (known l (List.mem_cons_self ..)) 5
    ((links.map linkText).flatten ++ rest)
  obtain ⟨x, opening, undeclared⟩ := legible.opens
    (linkText l ++ ((links.map linkText).flatten ++ rest))
  have linked : Reads (spaced Prod.mk (spaced Prod.mk (nested .comparator) (nested .xor))
      (many (spaced Prod.mk (nested .comparator) (nested .xor))))
      (linkText l ++ (links.map linkText).flatten) rest fun ls => List.Forall₂
        (fun l link => l.1 = link.1 ∧ l.2.judge v = .ok link.2) (ls.1 :: ls.2) (l :: links) :=
    (link l (List.mem_cons_self ..) _ follows).spaced listed fun _ _ same all => .cons same all
  rw [List.map_cons, List.flatten_cons]
  refine Reads.right (Refuses.declaration ?_) (Reads.right ?_
    (Reads.left (Reads.rule (r := .comparisonFormula) ((legible.whole ?_).spaced linked ?_))))
  · rw [List.append_assoc, List.append_assoc, opening]
    rintro ⟨⟩
    exact undeclared (by decide)
  · rw [List.append_assoc, List.append_assoc]
    exact legible.alone (ends.tighter (by decide)) apart
  · rw [List.append_assoc]
    exact ends
  · intro d ls judged all
    obtain ⟨signs, parts⟩ := judge_links all
    refine bind_eq_ok_iff.mpr ⟨p, judged, bind_eq_ok_iff.mpr ⟨_, parts, ?_⟩⟩
    rw [signs]
    rfl

/-- The text of a statement is read back. -/
theorem states {p : Phrase} (stated : Stated v p) : States v p p.text.toList := by
  cases stated with
  | concept proper => exact (Legible.of_place proper).states
  | define vetted body => exact states_define vetted body
  | declareRelation vetted domain range => exact states_declareRelation vetted domain range
  | declareConcept vetted inhabited parts => exact states_declareConcept vetted inhabited parts
  | declareIndividual vetted inhabited parts => exact states_declareIndividual vetted inhabited parts
  | membership subject concept => exact states_membership subject concept
  | comparison first inhabited known operands =>
    exact states_comparison first inhabited known operands

theorem Stated.text_wrapped {p : Phrase} (stated : Stated v p) : wrapped 6 p p.text = p.text := by
  cases stated with
  | concept proper => exact Grammar.text_wrapped proper
  | _ => rfl

theorem reduce_judged {os : List (Option Draft.Statement)} {ps : List Phrase}
    (each : List.Forall₂ (fun o q => ∃ d, o = some d ∧ d.judge v = .ok q) os ps) :
    List.Forall₂ (fun d q => d.judge v = .ok q) os.reduceOption ps := by
  induction each with
  | nil => exact .nil
  | cons first _ ih =>
    obtain ⟨d, rfl, judged⟩ := first
    exact .cons judged ih

/-- A program may begin with layout. -/
theorem scanned_afterLayout (c : Cursor) :
    scanned (nested .program) c.afterLayout = scanned (nested .program) c := by
  rw [scanned_rule, scanned_rule]
  simp only [body, scanned_seq, scanned_gap, Cursor.afterLayout_again]

/-- Texts of statements with semicolons between them. -/
theorem Reads.program {p : Phrase} {ps : List Phrase} {s : List Char} {texts : List (List Char)}
    (first : States v p s) (others : List.Forall₂ (fun s q => States v q s) texts ps) :
    Reads (nested .program) (s ++ (texts.map fun s => [';'] ++ ' ' :: s).flatten) []
      fun ds => List.Forall₂ (fun d q => d.judge v = .ok q) ds (p :: ps) := by
  have optional : ∀ s q, States v q s → ∀ tail, Over tail →
      Reads (opt statement) s tail fun o => ∃ d, o = some d ∧ d.judge v = .ok q :=
    fun s q states tail ended => Reads.left (Reads.map ((states ended).mono
      fun d judged => ⟨d, rfl, judged⟩))
  have semicolon : ∀ tail, Reads (Pattern.literal [';']) [';'] tail fun _ => True :=
    fun _ => Reads.literal [] (by decide)
  have listed := Reads.signed semicolon (others.imp optional) (fun tail => .inr ⟨tail, rfl⟩) (.inl rfl)
    (fun here => by cases here)
  have closing : Reads (nested .endOfInput) [] [] fun _ => True :=
    Reads.rule (r := .endOfInput) fun n => ⟨(), ⟨[], n⟩, rfl, trivial, rfl⟩
  have gap : ∀ s, Reads Pattern.gap [] s fun _ => True :=
    fun s n => ⟨(), _, rfl, trivial, by rw [Cursor.afterLayout_again, Cursor.afterLayout_again]; rfl⟩
  have ended : Over ((texts.map fun s => [';'] ++ ' ' :: s).flatten ++ []) := by
    cases texts with
    | nil => exact .inl rfl
    | cons t texts => exact .inr ⟨_, rfl⟩
  have all : Reads (Pattern.spaced (fun rest _ => rest)
      (Pattern.many (before (Pattern.literal [';']) (opt statement))) (nested .endOfInput))
      (texts.map fun s => [';'] ++ ' ' :: s).flatten [] fun os =>
        List.Forall₂ (fun o q => ∃ d, o = some d ∧ d.judge v = .ok q) os ps := by
    have both := listed.spaced closing fun _ _ all _ => all
    rwa [List.append_nil] at both
  exact Reads.rule (r := .program) ((gap _).spaced ((optional s p first _ ended).spaced all
    fun _ _ first all => reduce_judged (.cons first all)) fun _ _ _ all => all)

end Grammar

namespace Language

open Phrase Grammar

variable {l : Language}

theorem parse_eq_ok_iff {text : String} {p : Phrase} :
    l.parse text = .ok p ↔ ∃ ds c ps, (Grammar.read text.toList).outcome = some (ds, c) ∧
      List.Forall₂ (fun d q => d.judge l.vocabulary = .ok q) ds ps ∧ p = .program ps := by
  unfold parse draft
  cases read text.toList with
  | failed t => simp [Reply.outcome, bind, Except.bind]
  | matched ds c t =>
    cases judged : ds.mapM (Draft.Statement.judge l.vocabulary) with
    | error flaw =>
      have none : ∀ ps, ¬List.Forall₂ (fun d q => d.judge l.vocabulary = .ok q) ds ps := fun ps each => by
        rw [mapM_eq_ok_iff.mpr each] at judged
        cases judged
      simp [Reply.outcome, judged, bind, Except.bind, none]
    | ok ps =>
      have each : ∀ ps', List.Forall₂ (fun d q => d.judge l.vocabulary = .ok q) ds ps' ↔ ps = ps' :=
        fun ps' => by rw [← mapM_eq_ok_iff, judged, Except.ok.injEq]
      simp [Reply.outcome, judged, bind, Except.bind, each, eq_comm (a := p)]

/-- What a text yields is a program of statements as texts yield them. -/
theorem stated_of_parse {text : String} {p : Phrase} (parsed : l.parse text = .ok p) :
    ∃ ps, p = .program ps ∧ ∀ q ∈ ps, Stated l.vocabulary q := by
  obtain ⟨ds, c, ps, read, each, rfl⟩ := parse_eq_ok_iff.mp parsed
  refine ⟨ps, rfl, fun q member => ?_⟩
  obtain ⟨d, here, judged⟩ := exists_of_forall₂ each member
  have full := scanWhole_holds (r := .program) ((read_outcome text.toList).symm.trans read)
  exact (full d here).stated judged

theorem parse_texts {p : Phrase} {ps : List Phrase} {s : List Char} {texts : List (List Char)}
    (first : States l.vocabulary p s)
    (others : List.Forall₂ (fun s q => States l.vocabulary q s) texts ps) :
    l.parse (String.ofList (s ++ (texts.map fun s => [';'] ++ ' ' :: s).flatten)) =
      .ok (.program (p :: ps)) := by
  obtain ⟨ds, c, found, each, _⟩ := Reads.program first others 0
  refine parse_eq_ok_iff.mpr ⟨ds, c, p :: ps, ?_, each, rfl⟩
  rw [read_outcome, String.toList_ofList, ← found, scanned_afterLayout, List.append_nil]
  rfl

/-- The text of a program yields the program. -/
theorem parse_text {ps : List Phrase} (stated : ∀ q ∈ ps, Stated l.vocabulary q) :
    l.parse (Phrase.program ps).text = .ok (.program ps) := by
  cases ps with
  | nil => exact parse_eq_ok_iff.mpr ⟨[], ⟨[], 0⟩, [], rfl, .nil, rfl⟩
  | cons p ps =>
    have others : List.Forall₂ (fun s q => States l.vocabulary q s)
        (ps.map fun q => q.text.toList) ps := by
      rw [List.forall₂_map_left_iff, List.forall₂_same]
      exact fun q member => states (stated q (List.mem_cons_of_mem _ member))
    have plain : texts 6 (p :: ps) = (p :: ps).map Phrase.text := by
      rw [texts_eq_map]
      exact List.map_congr_left fun q member => Stated.text_wrapped (stated q member)
    have text : (Phrase.program (p :: ps)).text = String.ofList (p.text.toList ++
        ((ps.map fun q => q.text.toList).map fun s => [';'] ++ ' ' :: s).flatten) := by
      rw [Phrase.text, plain, List.map_cons]
      apply String.toList_injective
      simp [separated_toList, Function.comp_def]
    rw [text]
    exact parse_texts (states (stated p (List.mem_cons_self ..))) others

/-- Printing what was parsed and parsing it again gives the same. -/
theorem parse_printed {text : String} {p : Phrase} (parsed : l.parse text = .ok p) :
    l.parse p.text = .ok p := by
  obtain ⟨ps, rfl, stated⟩ := stated_of_parse parsed
  exact parse_text stated

/-- The first colon of `$x:B:A|(B)` belongs to the variable. -/
def typedMember : Phrase :=
  .membership (.var ⟨"x", some "B"⟩) (.junction .or [.concept "A", .concept "B"])

theorem typedMember_printed :
    parse ⟨Vocabulary.usual⟩ "$x:B:A|(B)" = .ok (.program [typedMember]) ∧
      parse ⟨Vocabulary.usual⟩ (Phrase.program [typedMember]).text = .ok (.program [typedMember]) :=
  have parsed : parse ⟨Vocabulary.usual⟩ "$x:B:A|(B)" = .ok (.program [typedMember]) := rfl
  ⟨parsed, parse_printed parsed⟩

end Language

end ConceptLogic
