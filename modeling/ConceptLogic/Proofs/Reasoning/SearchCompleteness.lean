import ConceptLogic.Proofs.Reasoning.GroundedQueries
import ConceptLogic.Proofs.Reasoning.SearchApproach

namespace ConceptLogic

namespace Ontology

variable {o : Ontology} {level : ConceptId → Nat} {path l rest : List Query} {q p r : Query} {count : Nat}

section Shapes

variable {m n : Type → Type} [Monad m] [Monad n]

/-- What shows a query before anything is asked about what was told. -/
def byShape (o : Ontology) (ask : Query → m Bool) : Query → m Bool
  | .subsumed c d =>
    byConjunct ask d (o.expression? c) <||> byDisjunct ask c (o.expression? d) <||>
      (match o.expression? c, o.expression? d with
        | some l, some r => o.byForm ask l r
        | _, _ => pure false) <||>
      pure ((o.above c).contains d.id)
  | .member .. => pure false

/-- What is not taken apart is decided by its shape, and then by what was told. -/
theorem Decides.eq_tellings [LawfulMonad m] {ask : Query → m Bool} {x : m Bool} (decides : o.Decides ask q x)
    (loose : o.Loose q) : x = (o.byShape ask q <||> (o.tellings q).anyM ask) := by
  cases decides with
  | subsumed =>
    rw [decideSubsumed_unsplit loose]
    simp only [byTelling, byShape, tellings, firsts, seconds, anyM_append, anyM_map, orM_assoc]
    rfl
  | member =>
    simp only [byShape, tellings, firsts, seconds, anyM_append, anyM_map, orM_false]
    rfl

/-- Shapes are judged by lighter queries only. -/
theorem byShape_related {R : m Bool → n Bool → Prop} (respects : Respects R) (stratified : o.Stratified level)
    (wf : o.WellFormed) {ask : Query → m Bool} {ask' : Query → n Bool} (loose : o.Loose q)
    (asks : ∀ p, o.Asks q p → p.weight level < q.weight level → R (ask p) (ask' p)) :
    R (o.byShape ask q) (o.byShape ask' q) := by
  have operand : ∀ {c e x}, o.expression? c = some e → .concept x ∈ e.parts → level x < level c :=
    fun made part => stratified.operand_lt wf made part
  cases q with
  | member => exact respects.pure false
  | subsumed c d =>
    refine respects.or ?_ (respects.or ?_ (respects.or ?_ (respects.pure _)))
    · refine byConjunct_related respects fun cs left x member => asks _ (.conjunct loose left member) ?_
      exact Nat.add_lt_add_right (operand left (List.mem_map_of_mem member)) _
    · refine byDisjunct_related respects fun ds right x member => asks _ (.disjunct loose right member) ?_
      exact Nat.add_lt_add_left (operand right (List.mem_map_of_mem member)) _
    · split
      · rename_i left right
        exact byForm_related respects fun p confronts =>
          asks p (confronts.asks left right) (confronts.weight_lt (operand left) (operand right))
      · exact respects.pure false

end Shapes

section Granting

/-- What follows and is not in progress. -/
def Allowed (o : Ontology) (path : List Query) (q : Query) : Prop := o.Follows q ∧ q ∉ path

/-- An operand is lighter than what it is an operand of. -/
theorem Descends.lighter (descends : o.Descends q p) (stratified : o.Stratified level) (wf : o.WellFormed) :
    p.weight level < q.weight level := by
  cases descends with
  | conjunct made member | disjunct made member =>
    exact Nat.add_lt_add_left (stratified.operand_lt wf made (List.mem_map_of_mem member)) _

theorem Granted.of_allowed (granted : o.Granted (o.Allowed path) q) : o.Follows q :=
  granted.follows fun _ => And.left

/-- What follows is granted if it is not in progress and nothing lighter is. -/
theorem granted_of_follows (stratified : o.Stratified level) (wf : o.WellFormed) (known : o.Knowable q)
    (follows : o.Follows q) (light : ∀ p ∈ path, q.weight level ≤ p.weight level) (apart : q ∉ path) :
    o.Granted (o.Allowed path) q := by
  refine (follows.induct wf (motive := fun q => o.Follows q ∧
    ((∀ p ∈ path, q.weight level ≤ p.weight level) → q ∉ path → o.Granted (o.Allowed path) q))
    (fun q known warrants => ⟨.of_warrants (warrants.mono fun _ _ => And.left), ?_⟩) known).2 light apart
  intro light apart
  have follows : o.Follows q := .of_warrants (warrants.mono fun _ _ => And.left)
  refine warrants.granted (fun _ => ⟨follows, apart⟩) fun r descends granted => ?_
  have lighter : ∀ p ∈ path, r.weight level < p.weight level := fun p member =>
    (descends.lighter stratified wf).trans_le (light p member)
  exact granted.2 (fun p member => (lighter p member).le) fun member => Nat.lt_irrefl _ (lighter r member)

end Granting

section Answering

/-- A search that answers as a plain answer does wherever fewer than `count` queries are left to note, and
leaves notes that say what follows of all that is not in progress. -/
def Answering (o : Ontology) (path : List Query) (count : Nat) (x : StateM Notes Bool) (b : Id Bool) : Prop :=
  ∀ notes : Notes, (o.unnoted notes).card < count → (∀ p ∈ path, notes.find? p = some false) →
    o.Settled o.Follows path notes →
      notes.Within (x.run notes).2 ∧ o.Settled o.Follows path (x.run notes).2 ∧ (x.run notes).1 = b

namespace Answering

variable {x y : StateM Notes Bool} {b b' : Bool}

theorem next (first : o.Answering path count x b) (second : o.Answering path count y b') {notes : Notes}
    (few : (o.unnoted notes).card < count) (inProgress : ∀ p ∈ path, notes.find? p = some false)
    (settled : o.Settled o.Follows path notes) :
    notes.Within (y.run (x.run notes).2).2 ∧ o.Settled o.Follows path (y.run (x.run notes).2).2 ∧
      (y.run (x.run notes).2).1 = b' := by
  obtain ⟨within, settled', _⟩ := first notes few inProgress settled
  have fewer := Finset.card_le_card (unnoted_subset (o := o) within)
  obtain ⟨within', settled'', same⟩ := second _ (fewer.trans_lt few)
    (fun p member => within p false (inProgress p member)) settled'
  exact ⟨within.trans within', settled'', same⟩

/-- A second search is needed only if the first one finds nothing. -/
theorem or (first : o.Answering path count x b) (second : b = false → o.Answering path count y b') :
    o.Answering path count (x <||> y) (orM (m := Id) b b') := by
  intro notes few inProgress settled
  have found := (first notes few inProgress settled).2.2
  rw [run_orM, orM_id]
  cases b with
  | true =>
    rw [if_pos found]
    exact first notes few inProgress settled
  | false =>
    rw [if_neg (by rw [found]; exact Bool.false_ne_true)]
    exact first.next (second rfl) few inProgress settled

theorem and (first : o.Answering path count x b) (second : b = true → o.Answering path count y b') :
    o.Answering path count (x <&&> y) (andM (m := Id) b b') := by
  intro notes few inProgress settled
  have found := (first notes few inProgress settled).2.2
  rw [run_andM, andM_id]
  cases b with
  | true =>
    rw [if_pos found]
    exact first.next (second rfl) few inProgress settled
  | false =>
    rw [if_neg (by rw [found]; exact Bool.false_ne_true)]
    exact first notes few inProgress settled

theorem pure (b : Bool) : o.Answering path count (Pure.pure b) b :=
  fun notes _ _ settled => ⟨.refl notes, settled, rfl⟩

theorem respects (o : Ontology) (path : List Query) (count : Nat) : Respects (o.Answering path count) where
  pure := pure
  or first second := first.or fun _ => second
  and first second := first.and fun _ => second

/-- Queries asked one after the other, each of them after those before were denied. -/
theorem any {f : Query → StateM Notes Bool} {g : Query → Bool} {as : List Query}
    (each : ∀ l a rest, as = l ++ a :: rest → (∀ r ∈ l, g r = false) → o.Answering path count (f a) (g a)) :
    o.Answering path count (as.anyM f) (as.anyM (m := Id) g) := by
  induction as with
  | nil => exact pure false
  | cons a as ih =>
    rw [anyM_cons, anyM_cons]
    refine (each [] a as rfl nofun).or fun no => ih fun l a' rest split denied => ?_
    refine each (a :: l) a' rest (congrArg (a :: ·) split) ?_
    exact List.forall_mem_cons.mpr ⟨no, denied⟩

open Classical in
/-- A query is noted for what follows of it, if its search comes to that. While it is in progress it is
denied. -/
theorem noting (known : o.Knowable q) {y : Bool}
    (inner : q ∉ path → o.Answering (q :: path) count x y ∧ (y = true ↔ o.Follows q)) :
    o.Answering path (count + 1) (Notes.noting q x) (decide (o.Allowed path q)) := by
  intro notes few inProgress settled
  cases noted : notes.find? q with
  | some b =>
    rw [Notes.run_noting_found noted]
    refine ⟨.refl _, settled, Bool.eq_iff_iff.mpr (Iff.trans ?_ decide_eq_true_iff.symm)⟩
    by_cases busy : q ∈ path
    · cases noted.symm.trans (inProgress q busy)
      exact iff_of_false Bool.false_ne_true fun allowed => allowed.2 busy
    · exact (settled q known busy b noted).trans (and_iff_left busy).symm
  | none =>
    have apart : q ∉ path := by
      intro busy
      cases noted.symm.trans (inProgress q busy)
    obtain ⟨answering, right⟩ := inner apart
    have inProgress' : ∀ p ∈ q :: path, (notes.note q false).find? p = some false := by
      rintro p (_ | ⟨_, member⟩)
      · exact Notes.find?_note_self
      · exact Notes.within_note noted false p false (inProgress p member)
    have few' := (unnoted_note_card known noted false).trans_le (Nat.le_of_lt_succ few)
    obtain ⟨within, settled', same⟩ := answering _ few' inProgress' (settled.enter known false)
    rw [Notes.run_noting_missing noted, same]
    have allowed : o.Allowed path q ↔ o.Follows q := and_iff_left apart
    refine ⟨Notes.within_noting noted within _, settled'.leave known right, Bool.eq_iff_iff.mpr ?_⟩
    exact right.trans (allowed.symm.trans decide_eq_true_iff.symm)

end Answering

end Answering

section Deciding

variable (arranged : o.Arranged level) (wf : o.WellFormed)

/-- What a query that is taken apart asks is lighter. -/
theorem Asks.lighter (asks : o.Asks q p) (stratified : o.Stratified level) (wf : o.WellFormed)
    (tight : ¬o.Loose q) : p.weight level < q.weight level := by
  have operand : ∀ {c e x}, o.expression? c = some e → .concept x ∈ e.parts → level x < level c :=
    fun made part => stratified.operand_lt wf made part
  cases asks with
  | toConjunction made member => exact Nat.add_lt_add_left (operand made (List.mem_map_of_mem member)) _
  | ofDisjunction _ made member => exact Nat.add_lt_add_right (operand made (List.mem_map_of_mem member)) _
  | ofNominal _ made listed => exact Nat.add_lt_add_right (stratified.nominated_lt wf made listed) _
  | negation made made' => exact Confronts.negation.weight_lt (operand made) (operand made')
  | filler made made' how => exact (Confronts.filler how).weight_lt (operand made) (operand made')
  | reversed made made' how => exact (Confronts.reversed how).weight_lt (operand made) (operand made')
  | conjunct unsplit => exact absurd unsplit tight
  | disjunct unsplit => exact absurd unsplit tight
  | told unsplit => exact absurd unsplit tight
  | definition unsplit => exact absurd unsplit tight
  | type undivided => exact absurd undivided tight
  | equivalent undivided => exact absurd undivided tight

theorem decides_of_loose {m : Type → Type} [Monad m] (ask : Query → m Bool) (loose : o.Loose q)
    (notPlain : ¬q.Plain) : ∃ x, o.Decides ask q x := by
  cases q with
  | subsumed => exact ⟨_, .subsumed (fun same => notPlain (.inl same)) fun top => notPlain (.inr top)⟩
  | member => exact ⟨_, .member notPlain loose⟩

theorem Decides.notPlain {m : Type → Type} [Monad m] {ask : Query → m Bool} {x : m Bool}
    (decides : o.Decides ask q x) : ¬q.Plain := by
  cases decides with
  | subsumed differ notTop => exact fun plain => plain.elim differ notTop
  | member notTop => exact notTop

variable {given : Query → Bool}
  (lights : ∀ p, o.Asks q p → p.weight level < q.weight level → (given p = true ↔ o.Follows p))
include arranged wf lights

/-- If nothing lighter that a query asks is given, nothing lighter shows it. -/
theorem exhausted_of_denied (loose : o.Loose q) (notPlain : ¬q.Plain)
    (undescended : ∀ p, o.Descends q p → ¬o.Follows p) (shape : o.byShape (m := Id) given q = false)
    (denied : ∀ r ∈ o.tellings q, r.weight level < q.weight level → given r = false) :
    o.Exhausted level q := by
  classical
  intro warrants
  let light : Query → Bool := fun p => decide (o.Follows p ∧ p.weight level < q.weight level)
  obtain ⟨y, decides⟩ := decides_of_loose (m := Id) light loose notPlain
  have yes : y = true := decides.iff.mpr (warrants.mono fun p leads shown =>
    ⟨leads.resolve_right fun descends => undescended p descends shown.1, decide_eq_true shown⟩)
  have same : o.byShape (m := Id) light q = o.byShape (m := Id) given q :=
    byShape_related respects_eq arranged.stratified wf loose fun p asks lighter =>
      Bool.eq_iff_iff.mpr ((decide_eq_true_iff.trans (and_iff_left lighter)).trans (lights p asks lighter).symm)
  rw [decides.eq_tellings loose, same, shape, orM_id, anyM_id, Bool.false_or] at yes
  obtain ⟨r, telling, shown⟩ := List.any_eq_true.mp yes
  obtain ⟨follows, lighter⟩ := of_decide_eq_true shown
  have granted := (lights r (loose.asks_telling telling) lighter).mpr follows
  rw [denied r telling lighter] at granted
  cases granted

end Deciding

section Searching

/-- What is no heavier than a query is no heavier than all that is in progress with it. -/
theorem Approach.weight_le_each (approach : o.Approach level path q) (light : p.weight level ≤ q.weight level) :
    ∀ r ∈ q :: path, p.weight level ≤ r.weight level :=
  List.forall_mem_cons.mpr ⟨light, fun r member => light.trans (approach.weight_le r member)⟩

theorem Approach.weight_lt_each (approach : o.Approach level path q) (light : p.weight level < q.weight level) :
    ∀ r ∈ q :: path, p.weight level < r.weight level :=
  List.forall_mem_cons.mpr ⟨light, fun r member => light.trans_le (approach.weight_le r member)⟩

/-- An operand that follows is granted wherever its query may be come to. -/
theorem Approach.operand_granted (approach : o.Approach level path q) (arranged : o.Arranged level)
    (wf : o.WellFormed) (known : o.Knowable q) (descends : o.Descends q p) (follows : o.Follows p) :
    o.Granted (o.Allowed path) p := by
  have lighter := descends.lighter arranged.stratified wf
  have apart : p ∉ path := fun busy => Nat.lt_irrefl _ (lighter.trans_le (approach.weight_le p busy))
  exact granted_of_follows arranged.stratified wf (descends.knowable wf known) follows
    (fun r member => lighter.le.trans (approach.weight_le r member)) apart

section Given

/-! What a query asks is given while the query is in progress itself. -/

variable (arranged : o.Arranged level) (wf : o.WellFormed) (known : o.Knowable q)
  (approach : o.Approach level path q) {given : Query → Bool}
  (gives : ∀ p, given p = true ↔ o.Granted (o.Allowed (q :: path)) p)
include arranged wf known approach gives

/-- Of what is lighter, all that follows is given. -/
theorem given_iff_follows (asks : o.Asks q p) (lighter : p.weight level < q.weight level) :
    given p = true ↔ o.Follows p := by
  rw [gives p]
  refine ⟨Granted.of_allowed, fun follows => ?_⟩
  have apart : p ∉ q :: path := fun busy => Nat.lt_irrefl _ (approach.weight_lt_each lighter p busy)
  exact granted_of_follows arranged.stratified wf (asks.knowable wf known) follows
    (approach.weight_le_each lighter.le) apart

/-- Where nothing lighter that was told is given, what was told and not given was told in vain. -/
theorem vain_of_denied (loose : o.Loose q) (notPlain : ¬q.Plain)
    (undescended : ∀ p, o.Descends q p → ¬o.Follows p) (shape : o.byShape (m := Id) given q = false)
    (lighter : ∀ r ∈ o.tellings q, r.weight level < q.weight level → given r = false)
    (asked : l ⊆ o.tellings q) (denied : ∀ r ∈ l, given r = false) : o.Vain level path q l := by
  have lights := fun p => given_iff_follows (p := p) arranged wf known approach gives
  refine ⟨known, loose, notPlain, ?_, fun r member follows => ?_⟩
  · exact exhausted_of_denied arranged wf lights loose notPlain undescended shape lighter
  · by_contra apart
    have light : r.weight level ≤ q.weight level :=
      (telling_cases arranged known (asked member)).elim le_of_lt fun peer => peer.weight_eq.le
    have known' := (loose.asks_telling (asked member)).knowable wf known
    have granted := granted_of_follows arranged.stratified wf known' follows (approach.weight_le_each light) apart
    rw [← gives r, denied r member] at granted
    cases granted

variable {ask : Query → StateM Notes Bool} {x : StateM Notes Bool} {y : Id Bool}
  (undescended : ∀ p, o.Descends q p → ¬o.Follows p) (decides : o.Decides ask q x)
  (decides' : o.Decides (m := Id) given q y)
  (asked : ∀ p, o.Asks q p → o.Approach level (q :: path) p → o.Answering (q :: path) count (ask p) (given p))
include undescended decides decides' asked

/-- What is not taken apart is decided rightly, since what was told is asked in turn, and all that is
lighter before all that is about the same levels. -/
theorem answering_of_loose (loose : o.Loose q) :
    o.Answering (q :: path) count x y ∧ (o.Follows q → y = true) := by
  have vain := fun l => vain_of_denied (l := l) arranged wf known approach gives loose decides.notPlain undescended
  rw [decides.eq_tellings loose, decides'.eq_tellings loose]
  constructor
  · refine Answering.or ?_ fun shape => Answering.any fun l p rest split denied => ?_
    · exact byShape_related (Answering.respects ..) arranged.stratified wf loose fun p asks lighter =>
        asked p asks (.fresh (approach.weight_lt_each lighter))
    · have telling : p ∈ o.tellings q := split ▸ List.mem_append_right _ (List.mem_cons_self ..)
      refine asked p (loose.asks_telling telling) ?_
      rcases telling_cases arranged known telling with lighter | peer
      · exact .fresh (approach.weight_lt_each lighter)
      · refine .next approach (vain l shape (fun r telling lighter => ?_) ?_ denied) split peer
        · exact denied r (lighter_first arranged known split peer telling lighter)
        · exact split ▸ List.subset_append_left ..
  · intro follows
    by_contra no
    rw [orM_id, anyM_id, Bool.or_eq_true, not_or, List.any_eq_true] at no
    have denied : ∀ r ∈ o.tellings q, given r = false := fun r telling =>
      Bool.eq_false_of_not_eq_true fun yes => no.2 ⟨r, telling, yes⟩
    have shape := Bool.eq_false_of_not_eq_true no.1
    have passed := vain _ shape (fun r telling _ => denied r telling) (List.Subset.refl _) denied
    exact approach.not_follows arranged wf passed follows

/-- What is taken apart asks only what is lighter. -/
theorem answering_of_tight (tight : ¬o.Loose q) :
    o.Answering (q :: path) count x y ∧ (o.Follows q → y = true) := by
  have lighter : ∀ p, o.Asks q p → p.weight level < q.weight level := fun p asks =>
    asks.lighter arranged.stratified wf tight
  refine ⟨decides.related (Answering.respects ..) (fun p asks => ?_) decides', fun follows => ?_⟩
  · exact asked p asks (.fresh (approach.weight_lt_each (lighter p asks)))
  · refine decides'.iff.mpr (follows.warrants.mono fun p leads shown => ?_)
    have asks := leads.resolve_right fun descends => undescended p descends shown
    exact ⟨asks, (given_iff_follows arranged wf known approach gives asks (lighter p asks)).mpr shown⟩

end Given

open Classical in
/-- A query is decided rightly if what it asks is answered rightly and its operands do not show it. -/
theorem decides_answering (arranged : o.Arranged level) (wf : o.WellFormed) (known : o.Knowable q)
    (approach : o.Approach level path q) (undescended : ∀ p, o.Descends q p → ¬o.Follows p)
    {ask : Query → StateM Notes Bool} {x : StateM Notes Bool} (decides : o.Decides ask q x)
    (asked : ∀ p, o.Asks q p → o.Approach level (q :: path) p →
      o.Answering (q :: path) count (ask p) (decide (o.Granted (o.Allowed (q :: path)) p))) :
    ∃ y : Bool, o.Answering (q :: path) count x y ∧ (y = true ↔ o.Follows q) := by
  let given : Query → Bool := fun p => decide (o.Granted (o.Allowed (q :: path)) p)
  have gives : ∀ p, given p = true ↔ o.Granted (o.Allowed (q :: path)) p := fun _ => decide_eq_true_iff
  obtain ⟨y, decides'⟩ := decides.elsewhere (n := Id) given
  have sound : y = true → o.Follows q := fun yes =>
    .of_warrants ((decides'.iff.mp yes).mono fun p _ asked => ((gives p).mp asked.2).of_allowed)
  by_cases loose : o.Loose q
  · obtain ⟨answering, complete⟩ :=
      answering_of_loose arranged wf known approach gives undescended decides decides' asked loose
    exact ⟨y, answering, sound, complete⟩
  · obtain ⟨answering, complete⟩ :=
      answering_of_tight arranged wf known approach gives undescended decides decides' asked loose
    exact ⟨y, answering, sound, complete⟩

open Classical in
/-- At any point of a search the answer is what follows and is not in progress. -/
theorem search_answering (arranged : o.Arranged level) (wf : o.WellFormed) {fuel : Nat} (known : o.Knowable q)
    (approach : o.Approach level path q) (enough : count * (o.size + 2) + q.rank < fuel) :
    o.Answering path (count + 1) (o.search fuel q) (decide (o.Granted (o.Allowed path) q)) := by
  induction fuel generalizing q count path with
  | zero => exact absurd enough (Nat.not_lt_zero _)
  | succ fuel ih =>
    have descended : ∀ p, o.Descends q p →
        o.Answering path (count + 1) (o.search fuel p) (decide (o.Granted (o.Allowed path) p)) := by
      intro p descends
      have less := descends.rank_lt wf
      have fresh : o.Approach level path p := .fresh fun r member =>
        (descends.lighter arranged.stratified wf).trans_le (approach.weight_le r member)
      exact ih (descends.knowable wf known) fresh (by omega)
    have noted : (∀ p, o.Descends q p → ¬o.Follows p) → ∀ {x}, o.Decides (o.search fuel) q x →
        o.Answering path (count + 1) (Notes.noting q x) (decide (o.Allowed path q)) := by
      intro undescended x decides
      have asked : ∀ p, o.Asks q p → o.Approach level (q :: path) p → o.Answering (q :: path) count
          (o.search fuel p) (decide (o.Granted (o.Allowed (q :: path)) p)) := by
        intro p asks approach'
        have known' := asks.knowable wf known
        have low := known'.rank_le
        cases count with
        | zero => exact fun _ few => absurd few (Nat.not_lt_zero _)
        | succ count =>
          rw [Nat.succ_mul] at enough
          exact ih known' approach' (by omega)
      obtain ⟨y, right⟩ := decides_answering arranged wf known approach undescended decides asked
      exact Answering.noting known fun _ => right
    have respects := Answering.respects o path (count + 1)
    rw [← step_eq_granted, search]
    cases q with
    | subsumed c d =>
      by_cases glance : c = d ∨ d = top
      · have shown : (decide (c = d) || decide (d = top)) = true := by simpa using glance
        dsimp only [step]
        rw [if_pos shown, if_pos shown]
        exact respects.pure true
      · obtain ⟨differ, notTop⟩ := not_or.mp glance
        rw [step_subsumed differ notTop, step_subsumed differ notTop]
        exact noted nofun (.subsumed differ notTop)
    | member i d =>
      by_cases everything : d = top
      · dsimp only [step]
        rw [if_pos everything, if_pos everything]
        exact respects.pure true
      rcases o.divided_cases d with ⟨is, made⟩ | ⟨ds, made⟩ | ⟨undivided, ⟨ds, made⟩ | noDisjunction⟩
      · rw [step_nominal everything made, step_nominal everything made]
        exact respects.pure _
      · rw [step_conjunction everything made, step_conjunction everything made]
        exact respects.all fun x member => descended _ (.conjunct made member)
      · rw [step_disjunction everything made, step_disjunction everything made]
        refine Answering.or (respects.any fun x member => descended _ (.disjunct made member)) fun no => ?_
        refine noted (fun p descends follows => ?_) (.member everything undivided)
        -- An operand that followed would have been granted, and then the search would be over.
        have granted := approach.operand_granted arranged wf known descends follows
        rw [anyM_id, List.any_eq_false] at no
        cases descends with
        | conjunct made' => cases made.symm.trans made'
        | disjunct made' member =>
          cases made.symm.trans made'
          exact no _ member (decide_eq_true granted)
      · rw [step_undivided everything undivided noDisjunction,
          step_undivided everything undivided noDisjunction]
        refine noted (fun p descends => ?_) (.member everything undivided)
        cases descends with
        | conjunct made => exact absurd made (undivided.1 _)
        | disjunct made => exact absurd made (noDisjunction _)

/-- In an arranged ontology the answers are all that follows. -/
theorem Arranged.answer_iff_follows (arranged : o.Arranged level) (wf : o.WellFormed) (known : o.Knowable q) :
    o.answer q = true ↔ o.Follows q := by
  classical
  refine ⟨answer_sound wf known, fun follows => ?_⟩
  have few : (o.unnoted Notes.empty).card < o.size * o.size + 1 := Nat.lt_succ_of_le (unnoted_empty o)
  have nothing : o.Settled o.Follows [] Notes.empty := fun p _ _ b noted => by cases noted
  have searched := search_answering arranged wf known (.fresh (List.forall_mem_nil _)) known.depth
  obtain ⟨_, _, same⟩ := searched Notes.empty few (List.forall_mem_nil _) nothing
  have granted := granted_of_follows arranged.stratified wf known follows (List.forall_mem_nil _)
    List.not_mem_nil
  exact same.trans (decide_eq_true granted)

end Searching

end Ontology

/-- In a session the answers are all that follows. -/
theorem State.Reached.answer_iff_follows {spoken : Language → Prop} {top : String} {s : State}
    (reached : State.Reached spoken top s) {q : Query} (known : s.ontology.Knowable q) :
    s.ontology.answer q = true ↔ s.ontology.Follows q := by
  obtain ⟨level, arranged⟩ := reached.arranged
  exact arranged.answer_iff_follows reached.sound.kept.wellFormed known

end ConceptLogic
