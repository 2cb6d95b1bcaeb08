import ConceptLogic.Proofs.Reasoning.SearchTrails

namespace ConceptLogic.Ontology

variable {o : Ontology}

/-- What is answered yes if the notes say yes to certain queries. Whether an individual
falls under a nominal or a conjunction is never noted, and under a disjunction only once
the operands have been tried. -/
inductive Granted (o : Ontology) (noted : Query → Prop) : Query → Prop
  | same {c} : Granted o noted (.subsumed c c)
  | everything {c} : Granted o noted (.subsumed c top)
  | subsumed {c d} : noted (.subsumed c d) → Granted o noted (.subsumed c d)
  | everyone {i} : Granted o noted (.member i top)
  | nominated {i d is} : d ≠ top → o.expression? d = some (.nominal is) → i ∈ is →
      Granted o noted (.member i d)
  | ofConjuncts {i d ds} : d ≠ top → o.expression? d = some (.conjunction ds) →
      (∀ x ∈ ds, Granted o noted (.member i x)) → Granted o noted (.member i d)
  | ofDisjunct {i d ds x} : d ≠ top → o.expression? d = some (.disjunction ds) → x ∈ ds →
      Granted o noted (.member i x) → Granted o noted (.member i d)
  | member {i d} : o.Undivided d → noted (.member i d) → Granted o noted (.member i d)

/-- What follows without ever resting a query on one that is busy for it. -/
inductive Grounded (o : Ontology) (busy : Query → Query → Prop) : Query → Prop
  | step {q} (noted : Query → Prop) : (∀ p, noted p → Grounded o busy p) → (∀ p, noted p → ¬busy q p) →
      o.Warrants (fun p => o.Asks q p ∧ o.Granted noted p) q → Grounded o busy q

/-- What rests on nothing that has to be noted is found by any search. -/
theorem grounded_of_nothing {busy : Query → Query → Prop} {q : Query}
    (warrants : o.Warrants (fun p => o.Asks q p ∧ o.Granted (fun _ => False) p) q) : o.Grounded busy q :=
  .step _ nofun nofun warrants

/-- Whether one query is in progress when another one is decided, on the paths that a
search takes. -/
def Busy (paths : List (List Query)) (q p : Query) : Prop := ∃ path, q :: path ∈ paths ∧ p ∈ q :: path

section Granting

variable {noted noted' : Query → Prop} {q : Query}

theorem Granted.mono (more : ∀ p, Relation.ReflTransGen o.Descends q p → noted p → noted' p)
    (granted : o.Granted noted q) : o.Granted noted' q := by
  induction granted with
  | same => exact .same
  | everything => exact .everything
  | subsumed yes => exact .subsumed (more _ .refl yes)
  | everyone => exact .everyone
  | nominated notTop made listed => exact .nominated notTop made listed
  | ofConjuncts notTop made _ ih =>
    exact .ofConjuncts notTop made fun x member =>
      ih x member fun p path => more p (.head (.conjunct made member) path)
  | ofDisjunct notTop made member _ ih =>
    exact .ofDisjunct notTop made member (ih fun p path => more p (.head (.disjunct made member) path))
  | member undivided yes => exact .member undivided (more _ .refl yes)

theorem Granted.follows (sound : ∀ p, noted p → o.Follows p) (granted : o.Granted noted q) :
    o.Follows q := by
  induction granted with
  | same => exact .of_warrants .same
  | everything => exact .of_warrants .everything
  | subsumed yes => exact sound _ yes
  | everyone => exact .of_warrants .everyone
  | nominated notTop made listed => exact .of_warrants (.nominated notTop made listed)
  | ofConjuncts notTop made _ ih => exact .of_warrants (.ofConjuncts notTop made ih)
  | ofDisjunct notTop made member _ ih => exact .of_warrants (.ofDisjunct notTop made member ih)
  | member _ yes => exact sound _ yes

theorem Grounded.follows {busy : Query → Query → Prop} (grounded : o.Grounded busy q) : o.Follows q := by
  induction grounded with
  | step noted _ _ warrants ih => exact .of_warrants (warrants.mono fun p _ asked => asked.2.follows ih)

/-- A query that a rule warrants is granted, if the notes say yes to it once what its search asks
about warrants it. All that is asked outside of a search is what the query descends to. -/
theorem Warrants.granted {given : Query → Prop} (warrants : o.Warrants given q)
    (own : o.Warrants (fun p => o.Asks q p ∧ given p) q → noted q)
    (below : ∀ p, o.Descends q p → given p → o.Granted noted p) : o.Granted noted q := by
  cases q with
  | subsumed c d =>
    exact .subsumed (own (warrants.mono fun p leads yes => ⟨leads.resolve_right nofun, yes⟩))
  | member i d =>
    cases warrants with
    | everyone => exact .everyone
    | nominated notTop made listed => exact .nominated notTop made listed
    | ofConjuncts notTop made each =>
      exact .ofConjuncts notTop made fun x member => below _ (.conjunct made member) (each x member)
    | ofDisjunct notTop made member yes =>
      exact .ofDisjunct notTop made member (below _ (.disjunct made member) yes)
    | type undivided told yes =>
      exact .member undivided (own (.type undivided told ⟨.type undivided told, yes⟩))
    | equivalent undivided told yes =>
      exact .member undivided (own (.equivalent undivided told ⟨.equivalent undivided told, yes⟩))

open Classical in
theorem granted_of_step (holds : o.step (m := Id) (fun p => decide (o.Granted noted p))
    (fun p _ => decide (noted p)) q = true) : o.Granted noted q := by
  cases q with
  | subsumed c d =>
    by_cases same : c = d
    · exact same ▸ .same
    by_cases everything : d = top
    · exact everything ▸ .everything
    rw [step_subsumed same everything] at holds
    exact .subsumed (of_decide_eq_true holds)
  | member i d =>
    by_cases everything : d = top
    · exact everything ▸ .everyone
    rcases o.divided_cases d with ⟨is, made⟩ | ⟨ds, made⟩ | ⟨undivided, ⟨ds, made⟩ | noDisjunction⟩
    · rw [step_nominal everything made] at holds
      exact .nominated everything made (List.contains_iff_mem.mp holds)
    · rw [step_conjunction everything made, allM_id, List.all_eq_true] at holds
      exact .ofConjuncts everything made fun x member => of_decide_eq_true (holds x member)
    · rw [step_disjunction everything made, orM_id, anyM_id] at holds
      rcases Bool.or_eq_true_iff.mp holds with one | own
      · obtain ⟨x, member, granted⟩ := List.any_eq_true.mp one
        exact .ofDisjunct everything made member (of_decide_eq_true granted)
      · exact .member undivided (of_decide_eq_true own)
    · rw [step_undivided everything undivided noDisjunction] at holds
      exact .member undivided (of_decide_eq_true holds)

open Classical in
theorem step_of_granted (granted : o.Granted noted q) : o.step (m := Id)
    (fun p => decide (o.Granted noted p)) (fun p _ => decide (noted p)) q = true := by
  cases granted with
  | same => simp [step, pure]
  | everything => simp [step, pure]
  | @subsumed c d yes =>
    by_cases glance : c = d ∨ d = top
    · rcases glance with rfl | rfl <;> simp [step, pure]
    · rw [step_subsumed (fun same => glance (Or.inl same)) fun same => glance (Or.inr same)]
      exact decide_eq_true yes
  | everyone => simp [step, pure]
  | nominated notTop made listed =>
    rw [step_nominal notTop made]
    exact List.contains_iff_mem.mpr listed
  | ofConjuncts notTop made each =>
    rw [step_conjunction notTop made, allM_id]
    exact List.all_eq_true.mpr fun x member => decide_eq_true (each x member)
  | ofDisjunct notTop made member granted =>
    rw [step_disjunction notTop made, orM_id, anyM_id]
    exact Bool.or_eq_true_iff.mpr (Or.inl (List.any_eq_true.mpr ⟨_, member, decide_eq_true granted⟩))
  | @member i d undivided yes =>
    by_cases everything : d = top
    · simp [step, everything, pure]
    by_cases disjunction : ∃ ds, o.expression? d = some (.disjunction ds)
    · obtain ⟨ds, made⟩ := disjunction
      rw [step_disjunction everything made, orM_id]
      exact Bool.or_eq_true_iff.mpr (Or.inr (decide_eq_true yes))
    · rw [step_undivided everything undivided fun ds made => disjunction ⟨ds, made⟩]
      exact decide_eq_true yes

open Classical in
/-- One step that is given what is granted finds what is granted. -/
theorem step_eq_granted (o : Ontology) (noted : Query → Prop) (q : Query) :
    o.step (m := Id) (fun p => decide (o.Granted noted p)) (fun p _ => decide (noted p)) q =
      decide (o.Granted noted q) :=
  Bool.eq_iff_iff.mpr ⟨fun holds => decide_eq_true (granted_of_step holds),
    fun granted => step_of_granted (of_decide_eq_true granted)⟩

end Granting

section Searching

/-- Whether notes say of each query that is not in progress what is true of it. -/
def Settled (o : Ontology) (truth : Query → Prop) (path : List Query) (notes : Notes) : Prop :=
  ∀ p, o.Knowable p → p ∉ path → ∀ b, notes.find? p = some b → (b = true ↔ truth p)

/-- What the notes may say yes to at a point of a search. -/
def Free (o : Ontology) (paths : List (List Query)) (path : List Query) (p : Query) : Prop :=
  o.Grounded (Busy paths) p ∧ p ∉ path

variable {truth : Query → Prop} {paths : List (List Query)} {path : List Query} {notes : Notes}
  {q : Query} {count : Nat}

theorem Settled.enter (settled : o.Settled truth path notes) (known : o.Knowable q) (b : Bool) :
    o.Settled truth (q :: path) (notes.note q b) := by
  intro p known' apart b' found
  rw [List.mem_cons, not_or] at apart
  rw [Notes.find?_note_other fun same => apart.1 (known.key_inj known' same).symm] at found
  exact settled p known' apart.2 b' found

theorem Settled.leave (settled : o.Settled truth (q :: path) notes) (known : o.Knowable q) {b : Bool}
    (right : b = true ↔ truth q) : o.Settled truth path (notes.note q b) := by
  intro p known' apart b' found
  by_cases own : p = q
  · cases own
    rw [Notes.find?_note_self] at found
    cases found
    exact right
  · rw [Notes.find?_note_other fun same => own (known.key_inj known' same).symm] at found
    exact settled p known' (by simp [own, apart]) b' found

/-- A query that a search has entered is grounded exactly if a rule warrants it by what its
search may say yes to at that point. -/
theorem grounded_iff (unforked : Trail.Unforked paths) (taken : q :: path ∈ paths) :
    o.Grounded (Busy paths) q ↔
      o.Warrants (fun p => o.Asks q p ∧ o.Granted (o.Free paths (q :: path)) p) q := by
  constructor
  · rintro ⟨noted, grounded, idle, warrants⟩
    refine warrants.mono fun p _ asked => ⟨asked.1, asked.2.mono fun r _ yes => ?_⟩
    exact ⟨grounded r yes, fun member => idle r yes ⟨path, taken, member⟩⟩
  · intro warrants
    refine .step (o.Free paths (q :: path)) (fun _ => And.left) (fun r free busy => ?_) warrants
    obtain ⟨path', taken', member⟩ := busy
    cases unforked taken taken'
    exact free.2 member

/-- A walk that answers as a plain answer does wherever fewer than `count` queries are left
to note, if it keeps to the given paths. -/
def Exact (o : Ontology) (paths : List (List Query)) (count : Nat) (path : List Query) (x : Walk Bool)
    (b : Id Bool) : Prop :=
  ∀ t : Trail, (o.unnoted t.notes).card < count → (∀ p ∈ path, t.notes.find? p = some false) →
    t.notes.Within (x.go path t).2.notes ∧ t.paths ⊆ (x.go path t).2.paths ∧
      ((x.go path t).2.paths ⊆ paths → o.Settled (o.Grounded (Busy paths)) path t.notes →
        o.Settled (o.Grounded (Busy paths)) path (x.go path t).2.notes ∧ (x.go path t).1 = b)

theorem Exact.next {x y : Walk Bool} {b b' : Id Bool} (first : o.Exact paths count path x b)
    (second : o.Exact paths count path y b') {t : Trail} (few : (o.unnoted t.notes).card < count)
    (inProgress : ∀ p ∈ path, t.notes.find? p = some false) :
    t.notes.Within (y.go path (x.go path t).2).2.notes ∧ t.paths ⊆ (y.go path (x.go path t).2).2.paths ∧
      ((y.go path (x.go path t).2).2.paths ⊆ paths → o.Settled (o.Grounded (Busy paths)) path t.notes →
        o.Settled (o.Grounded (Busy paths)) path (y.go path (x.go path t).2).2.notes ∧ (x.go path t).1 = b ∧
          (y.go path (x.go path t).2).1 = b') := by
  obtain ⟨within, longer, exact⟩ := first t few inProgress
  have fewer := Finset.card_le_card (unnoted_subset (o := o) within)
  obtain ⟨within', longer', exact'⟩ := second _ (fewer.trans_lt few) fun p member =>
    within p false (inProgress p member)
  refine ⟨within.trans within', List.Subset.trans longer longer', fun taken settled => ?_⟩
  obtain ⟨settled', same⟩ := exact (List.Subset.trans longer' taken) settled
  obtain ⟨settled'', same'⟩ := exact' taken settled'
  exact ⟨settled'', same, same'⟩

theorem respects_exact (o : Ontology) (paths : List (List Query)) (count : Nat) (path : List Query) :
    Respects (o.Exact paths count path) where
  pure _ _ _ _ := ⟨.refl _, List.Subset.refl _, fun _ settled => ⟨settled, rfl⟩⟩
  or := by
    intro x y b b' first second t few inProgress
    rw [Walk.go_orM, orM_id]
    split
    · rename_i yes
      obtain ⟨within, longer, exact⟩ := first t few inProgress
      refine ⟨within, longer, fun taken settled => (exact taken settled).imp_right fun same => ?_⟩
      rw [← same, yes, Bool.true_or]
    · rename_i no
      obtain ⟨within, longer, exact⟩ := first.next second few inProgress
      refine ⟨within, longer, fun taken settled => (exact taken settled).imp_right fun same => ?_⟩
      rw [← same.1, ← same.2, Bool.eq_false_of_not_eq_true no, Bool.false_or]
  and := by
    intro x y b b' first second t few inProgress
    rw [Walk.go_andM, andM_id]
    split
    · rename_i yes
      obtain ⟨within, longer, exact⟩ := first.next second few inProgress
      refine ⟨within, longer, fun taken settled => (exact taken settled).imp_right fun same => ?_⟩
      rw [← same.1, ← same.2, yes, Bool.true_and]
    · rename_i no
      obtain ⟨within, longer, exact⟩ := first t few inProgress
      refine ⟨within, longer, fun taken settled => (exact taken settled).imp_right fun same => ?_⟩
      rw [← same, Bool.eq_false_of_not_eq_true no, Bool.false_and]

open Classical in
/-- What is noted in the end is whether the query is grounded. A query in progress is
denied until then. -/
theorem Exact.noting (unforked : Trail.Unforked paths)
    (known : o.Knowable q) {x : Walk Bool} {y : Id Bool}
    (decides : o.Decides (m := Id) (fun p => decide (o.Granted (o.Free paths (q :: path)) p)) q y)
    (exact : o.Exact paths count (q :: path) x y) :
    o.Exact paths (count + 1) path (Walk.noting q x) (decide (o.Free paths path q)) := by
  intro t few inProgress
  cases noted : t.notes.find? q with
  | some b =>
    rw [Walk.go_noting_found noted]
    refine ⟨.refl _, List.Subset.refl _, fun _ settled => ⟨settled, ?_⟩⟩
    refine Bool.eq_iff_iff.mpr (Iff.trans ?_ decide_eq_true_iff.symm)
    by_cases busy : q ∈ path
    · cases noted.symm.trans (inProgress q busy)
      exact iff_of_false Bool.false_ne_true fun free => free.2 busy
    · exact (settled q known busy b noted).trans (and_iff_left busy).symm
  | none =>
    have less := unnoted_note_card known noted false
    have apart : q ∉ path := by
      intro busy
      cases noted.symm.trans (inProgress q busy)
    have inProgress' : ∀ p ∈ q :: path, (t.enter q path).notes.find? p = some false := by
      rintro p (_ | ⟨_, member⟩)
      · exact Notes.find?_note_self
      · exact Notes.within_note noted false p false (inProgress p member)
    have few' : (o.unnoted (t.enter q path).notes).card < count :=
      Nat.lt_of_lt_of_le less (Nat.le_of_lt_succ few)
    obtain ⟨within, longer, found⟩ := exact (t.enter q path) few' inProgress'
    rw [Walk.go_noting_missing noted]
    refine ⟨Notes.within_noting noted within _, List.Subset.trans (List.subset_cons_self ..) longer,
      fun taken settled => ?_⟩
    obtain ⟨settled', same⟩ := found taken (settled.enter known false)
    have right : (x.go (q :: path) (t.enter q path)).1 = true ↔ o.Grounded (Busy paths) q := by
      rw [same, decides.iff, grounded_iff unforked (taken (longer (List.mem_cons_self ..)))]
      simp only [decide_eq_true_iff]
    have free : o.Free paths path q ↔ o.Grounded (Busy paths) q := and_iff_left apart
    refine ⟨settled'.leave known right, Bool.eq_iff_iff.mpr ?_⟩
    exact right.trans (free.symm.trans decide_eq_true_iff.symm)

open Classical in
/-- At any point of a search the answer is what can be had from grounded queries that are
not in progress. -/
theorem walk_exact (wf : o.WellFormed)
    (unforked : Trail.Unforked paths) {fuel : Nat}
    (known : o.Knowable q) (enough : count * (o.size + 2) + q.rank < fuel) :
    o.Exact paths (count + 1) path (o.walk fuel q) (decide (o.Granted (o.Free paths path) q)) := by
  induction fuel generalizing q count path with
  | zero => exact absurd enough (Nat.not_lt_zero _)
  | succ fuel ih =>
    rw [← step_eq_granted]
    refine step_related (respects_exact o paths (count + 1) path) (fun p descends => ?_)
      fun x y decides _ => ?_
    · have less := descends.rank_lt wf
      exact ih (descends.knowable wf known) (by omega)
    · obtain ⟨y', decides'⟩ :=
        decides.elsewhere (n := Id) fun p => decide (o.Granted (o.Free paths (q :: path)) p)
      refine Exact.noting unforked known decides'
        (decides.related (respects_exact o paths count (q :: path)) (fun p asks => ?_) decides')
      have known' := asks.knowable wf known
      have low := known'.rank_le
      cases count with
      | zero => exact fun _ few => absurd few (Nat.not_lt_zero _)
      | succ count =>
        rw [Nat.succ_mul] at enough
        exact ih known' (by omega)

open Classical in
/-- What is answered yes is what follows without resting any query on one that is in
progress when that query is decided. -/
theorem answer_iff (wf : o.WellFormed) (known : o.Knowable q) :
    o.answer q = true ↔ o.Granted (o.Grounded (Busy (o.pathsOn q))) q := by
  have few : (o.unnoted Notes.empty).card < o.size * o.size + 1 := Nat.lt_succ_of_le (unnoted_empty o)
  have exact : o.Exact (o.pathsOn q) (o.size * o.size + 1) [] (o.walk o.searchDepth q)
      (decide (o.Granted (o.Free (o.pathsOn q) []) q)) :=
    walk_exact wf (o.pathsOn_unforked q) known known.depth
  obtain ⟨_, _, found⟩ := exact .start few nofun
  obtain ⟨_, same⟩ := found (List.Subset.refl _) fun p _ _ b noted => by cases noted
  have answered : o.answer q = ((o.walk o.searchDepth q).go [] .start).1 :=
    congrArg Prod.fst (walk_retraces o o.searchDepth q [] .start)
  rw [answered, same, decide_eq_true_iff]
  exact ⟨Granted.mono fun _ _ free => free.1,
    Granted.mono fun _ _ grounded => ⟨grounded, List.not_mem_nil⟩⟩

theorem answer_sound (wf : o.WellFormed) (known : o.Knowable q) (yes : o.answer q = true) : o.Follows q :=
  ((answer_iff wf known).mp yes).follows fun _ => Grounded.follows

end Searching

end ConceptLogic.Ontology
