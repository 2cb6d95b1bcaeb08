import ConceptLogic.Proofs.Reasoning.StuckSearches

namespace ConceptLogic

namespace Ontology

variable {o : Ontology} {level : ConceptId → Nat} {path l rest : List Query} {q p r v : Query}
  {V : Query → Prop}

section Tellings

/-- What is told of is asked about the same levels, but for what was told of the left side, all of which
is on lower levels or none. -/
theorem tellings_split (arranged : o.Arranged level) (known : o.Knowable q) :
    ∃ before after, o.tellings q = before ++ after ∧ (∀ r ∈ after, q.Peer level r) ∧
      ((∀ r ∈ before, r.weight level < q.weight level) ∨ ∀ r ∈ before, q.Peer level r) := by
  have stratified := arranged.stratified
  cases q with
  | member i d =>
    refine ⟨_, _, rfl, fun r second => ?_, .inl fun r first => ?_⟩
    · obtain ⟨e, told, rfl⟩ := List.mem_map.mp second
      exact ⟨rfl, stratified.equal told⟩
    · obtain ⟨t, told, rfl⟩ := List.mem_map.mp first
      exact Nat.add_lt_add_right (stratified.type_lt told) _
  | subsumed c d =>
    refine ⟨(o.isA c).map (.subsumed · d), (o.equivalentTo c).map (.subsumed · d) ++ o.seconds (.subsumed c d),
      ?_, fun r member => ?_, ?_⟩
    · rw [tellings, firsts, told, List.map_append, List.append_assoc]
    · rcases List.mem_append.mp member with first | second
      · obtain ⟨e, told, rfl⟩ := List.mem_map.mp first
        exact ⟨stratified.equal told, rfl⟩
      · obtain ⟨e, told, rfl⟩ := List.mem_map.mp second
        exact ⟨rfl, stratified.equal told⟩
    · by_cases bottom : level c = 0
      · refine .inr fun r first => ?_
        obtain ⟨p, told, rfl⟩ := List.mem_map.mp first
        have below := stratified.told_le (List.mem_append_left (o.equivalentTo c) told)
        exact ⟨by omega, rfl⟩
      · refine .inl fun r first => ?_
        obtain ⟨p, told, rfl⟩ := List.mem_map.mp first
        refine Nat.add_lt_add_right ?_ _
        rcases arranged.original_or_defined known.1 with original | ⟨k, defined⟩
        · have top := stratified.top
          have own := original.level.resolve_right fun here => bottom (here ▸ top)
          exact own ▸ (stratified.bounded p).trans_lt (arranged.isA_lt told)
        · cases List.mem_singleton.mp (defined.base ▸ told)
          rw [stratified.top]
          exact Nat.pos_of_ne_zero bottom

/-- What is lighter is told before all that is about the same levels. -/
theorem lighter_first (arranged : o.Arranged level) (known : o.Knowable q)
    (split : o.tellings q = l ++ p :: rest) (peer : q.Peer level p) (telling : r ∈ o.tellings q)
    (lighter : r.weight level < q.weight level) : r ∈ l := by
  have heavy : ∀ {r}, q.Peer level r → ¬r.weight level < q.weight level := fun peer less =>
    absurd peer.weight_eq less.ne
  obtain ⟨before, after, split', peers, lighters | peers'⟩ := tellings_split arranged known
  · have first : r ∈ before := by
      rcases List.mem_append.mp (split' ▸ telling) with first | second
      · exact first
      · exact absurd lighter (heavy (peers r second))
    rcases List.append_eq_append_iff.mp (split.symm.trans split') with
      ⟨between, rfl, same⟩ | ⟨between, rfl, _⟩
    · cases between with
      | nil => rwa [List.append_nil] at first
      | cons b between =>
        obtain ⟨rfl, _⟩ := List.cons.inj same
        exact absurd (lighters p (List.mem_append_right _ (List.mem_cons_self ..))) (heavy peer)
    · exact List.mem_append_left _ first
  · have same : q.Peer level r := (List.mem_append.mp (split' ▸ telling)).elim (peers' r) (peers r)
    exact absurd lighter (heavy same)

/-- Whatever is told of is lighter or about the same levels. -/
theorem telling_cases (arranged : o.Arranged level) (known : o.Knowable q) (telling : r ∈ o.tellings q) :
    r.weight level < q.weight level ∨ q.Peer level r := by
  obtain ⟨before, after, split, peers, lighters | peers'⟩ := tellings_split arranged known
  · exact (List.mem_append.mp (split ▸ telling)).imp (lighters r) (peers r)
  · exact .inr ((List.mem_append.mp (split ▸ telling)).elim (peers' r) (peers r))

/-- Whatever is told of a query that is not taken apart is asked for its sake, and shows it. -/
theorem Loose.of_telling (loose : o.Loose q) (telling : r ∈ o.tellings q) :
    o.Asks q r ∧ ∀ given : Query → Prop, given r → o.Warrants given q := by
  rcases List.mem_append.mp telling with first | second
  · cases q with
    | subsumed c d =>
      obtain ⟨p, told, rfl⟩ := List.mem_map.mp first
      exact ⟨.told loose told, fun _ granted => .told loose told granted⟩
    | member i d =>
      obtain ⟨t, told, rfl⟩ := List.mem_map.mp first
      exact ⟨.type loose told, fun _ granted => .type loose told granted⟩
  · cases q with
    | subsumed c d =>
      obtain ⟨p, told, rfl⟩ := List.mem_map.mp second
      exact ⟨.definition loose told, fun _ granted => .definition loose told granted⟩
    | member i d =>
      obtain ⟨t, told, rfl⟩ := List.mem_map.mp second
      exact ⟨.equivalent loose told, fun _ granted => .equivalent loose told granted⟩

theorem Loose.asks_telling (loose : o.Loose q) (telling : r ∈ o.tellings q) : o.Asks q r :=
  (loose.of_telling telling).1

end Tellings

theorem Exhausted.telling_heavy (exhausted : o.Exhausted level q) (loose : o.Loose q)
    (telling : r ∈ o.tellings q) (follows : o.Follows r) : ¬r.weight level < q.weight level := fun lighter =>
  exhausted ((loose.of_telling telling).2 _ ⟨follows, lighter⟩)

/-- What has been found out in the search for a query, with the queries in progress, when some of what was
told has been asked about: nothing lighter shows it, and nothing told either, unless it is in progress. -/
structure Vain (o : Ontology) (level : ConceptId → Nat) (path : List Query) (q : Query) (l : List Query) :
    Prop where
  known : o.Knowable q
  loose : o.Loose q
  notPlain : ¬q.Plain
  exhausted : o.Exhausted level q
  tried : ∀ r ∈ l, o.Follows r → r ∈ q :: path

/-- What follows and was asked about in vain is in progress, on the same levels. -/
theorem Vain.tried_peer (vain : o.Vain level path q l) (arranged : o.Arranged level)
    (asked : l ⊆ o.tellings q) (member : r ∈ l) (follows : o.Follows r) :
    r ∈ q :: path ∧ q.Peer level r := by
  have busy := vain.tried r member follows
  refine ⟨busy, ?_⟩
  have heavy := vain.exhausted.telling_heavy vain.loose (asked member) follows
  exact (telling_cases arranged vain.known (asked member)).resolve_left heavy

/-- How a search comes to a query with others in progress: from heavier ones, or by what was told of one
that weighs as much, after all that was told before. -/
inductive Approach (o : Ontology) (level : ConceptId → Nat) : List Query → Query → Prop
  | fresh {path : List Query} {q : Query} : (∀ p ∈ path, q.weight level < p.weight level) →
      Approach o level path q
  | next {path l rest : List Query} {p q : Query} : Approach o level path p → o.Vain level path p l →
      o.tellings p = l ++ q :: rest → p.Peer level q → Approach o level (p :: path) q

namespace Approach

theorem weight_le (approach : o.Approach level path q) : ∀ p ∈ path, q.weight level ≤ p.weight level := by
  induction approach with
  | fresh lighter => exact fun p member => (lighter p member).le
  | next _ _ _ peer ih =>
    have same := peer.weight_eq
    rintro p (_ | ⟨_, member⟩)
    · exact same.le
    · exact same.le.trans (ih p member)

/-- All queries in progress on the same levels have been gone through in vain, and the search was led on from
each to the next. -/
theorem onward (approach : o.Approach level path q) (arranged : o.Arranged level)
    (holds : ∀ v ∈ q :: path, q.Peer level v → V v) (onward : o.Onward V q) :
    ∀ v ∈ path, q.Peer level v → o.Onward V v ∧ o.Knowable v ∧ o.Loose v ∧ ¬v.Plain ∧ o.Exhausted level v := by
  induction approach with
  | fresh lighter =>
    intro v member peer
    exact absurd peer.weight_eq (lighter v member).ne'
  | @next path l rest p q approach vain split peer ih =>
    have earlier : ∀ v ∈ p :: path, p.Peer level v → V v := fun v member same =>
      holds v (List.mem_cons_of_mem _ member) (peer.symm.trans same)
    have led : o.Onward V p := by
      refine .next (earlier p (List.mem_cons_self ..) (.refl p)) split (fun r member follows => ?_) onward
      have asked : l ⊆ o.tellings p := split ▸ List.subset_append_left ..
      obtain ⟨busy, same⟩ := vain.tried_peer arranged asked member follows
      exact earlier r busy same
    rintro v (_ | ⟨_, member⟩) same
    · exact ⟨led, vain.known, vain.loose, vain.notPlain, vain.exhausted⟩
    · exact ih earlier led v member (peer.trans same)

/-- If all that was told has been asked about in vain, the query does not follow. -/
theorem not_follows (approach : o.Approach level path q) (arranged : o.Arranged level) (wf : o.WellFormed)
    (vain : o.Vain level path q (o.tellings q)) : ¬o.Follows q := by
  let V : Query → Prop := fun v => v ∈ q :: path ∧ q.Peer level v
  have here : V q := ⟨List.mem_cons_self .., .refl q⟩
  have stop : o.Onward V q := .stop here fun r telling follows =>
    vain.tried_peer arranged (List.Subset.refl _) telling follows
  have all : ∀ v, V v → o.Onward V v ∧ o.Knowable v ∧ o.Loose v ∧ ¬v.Plain ∧ o.Exhausted level v := by
    rintro v ⟨_ | ⟨_, member⟩, peer⟩
    · exact ⟨stop, vain.known, vain.loose, vain.notPlain, vain.exhausted⟩
    · exact approach.onward arranged (fun v member peer => ⟨member, peer⟩) stop v member peer
  have stuck : o.Stuck level q V := {
    start := here
    known := fun holds => (all _ holds).2.1
    peer := And.right
    loose := fun holds => (all _ holds).2.2.1
    notPlain := fun holds => (all _ holds).2.2.2.1
    exhausted := fun holds => (all _ holds).2.2.2.2
    onward := fun holds => (all _ holds).1 }
  exact stuck.not_follows arranged wf

end Approach

end Ontology

end ConceptLogic
