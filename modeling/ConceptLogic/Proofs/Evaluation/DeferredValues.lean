import ConceptLogic.Proofs.Evaluation.RecurringPhrases

namespace ConceptLogic

open Evaluation

/-! Variables are bound one after the other, in the order in which they first occur. -/

namespace Scope

variable {α : Type} {scope : Scope α} {name other : String} {a : α}

theorem find?_assign : (scope.assign name a).find? other =
    if other = anaphoraName ∨ other = name then some a else scope.find? other := by
  rw [find?, assign, Table.lookup_assign, Table.lookup_assign]
  by_cases back : other = anaphoraName
  · simp [back]
  · by_cases same : other = name
    · simp [same]
    · simp [back, same, find?]

theorem knows_assign : (scope.assign name a).knows other =
    (decide (other = anaphoraName ∨ other = name) || scope.knows other) := by
  rw [knows, find?_assign]
  split <;> simp [*, knows]

end Scope

namespace Environment

/-- Binds variables, each to its value. -/
def bindAll : Environment → List (Variable × Value) → Except Error Environment
  | env, [] => .ok env
  | env, (x, v) :: rest => do
    let env ← env.bind x.name v
    env.bindAll rest

variable {env env' env'' : Environment} {x : Variable} {v : Value}

theorem bind_unknown (unknown : env.knows x.name = false) : env.bind x.name v = .ok (env.assign x.name v) := by
  have free : env.isBuiltIn x.name = false := by
    simp only [Scope.knows, Scope.find?, Option.isSome_or, Bool.or_eq_false_iff] at unknown
    exact unknown.2
  rw [bind, assignable, free]
  rfl

theorem Widens.trans (first : env.Widens env') (second : env'.Widens env'') : env.Widens env'' :=
  ⟨fun ordinary => (first.alike ordinary).trans (second.alike ordinary), second.further ∘ first.further⟩

theorem widens_assign (unknown : env.knows x.name = false) : env.Widens (env.assign x.name v) where
  alike ordinary := by
    rw [Scope.find?_assign, if_neg]
    rintro (same | same)
    · exact ordinary.1 same
    · exact ordinary.2 x same
  further {y w} found := by
    rw [Scope.find?_assign, if_neg]
    · exact found
    · rintro (same | same)
      · exact y.name_ne same
      · rw [Scope.knows, ← same, found] at unknown
        cases unknown

theorem Old.assign {o : Ontology} {name : String} (old : env.Old o) (given : v.Old o) :
    Environment.Old o (env.assign name v) := by
  intro other w differs found
  rw [Scope.find?_assign] at found
  split at found
  · cases found
    exact given
  · exact old differs found

theorem Old.bindAll {o : Ontology} {pairs : List (Variable × Value)} (old : env.Old o)
    (given : ∀ pair ∈ pairs, pair.2.Old o) (bound : env.bindAll pairs = .ok env') : env'.Old o := by
  induction pairs generalizing env with
  | nil =>
    cases bound
    exact old
  | cons pair pairs ih =>
    obtain ⟨here, there⟩ := List.forall_mem_cons.mp given
    obtain ⟨env₁, first, others⟩ := bind_eq_ok_iff.mp bound
    obtain ⟨_, _, same⟩ := bind_eq_ok_iff.mp first
    cases same
    exact ih (old.assign here) there others

end Environment

namespace Phrase

variable {env env' : Environment} {p : Phrase} {x : Variable} {rest : List Variable} {v : Value}
  {vs : List Value}

/-- Variables of one name are one variable; of several types, the first counts. -/
def firsts (xs : List Variable) : List Variable :=
  xs.eraseDupsBy fun x y => x.name == y.name

/-- The variables of a phrase in the order in which they first occur. -/
def asks (p : Phrase) : List Variable :=
  firsts p.vars

/-- Those of them that are not bound. -/
def unbound (env : Environment) (p : Phrase) : List Variable :=
  firsts (p.vars.filter fun x => !env.knows x.name)

theorem firsts_cons (x : Variable) (xs : List Variable) :
    firsts (x :: xs) = x :: firsts (xs.filter fun y => y.name ≠ x.name) := by
  rw [firsts, List.eraseDupsBy_cons, firsts]
  simp

theorem head?_firsts (xs : List Variable) : (firsts xs).head? = xs.head? := by
  cases xs with
  | nil => rfl
  | cons x xs => rw [firsts_cons, List.head?_cons, List.head?_cons]

/-- A phrase waits for the first of its variables that is not bound. -/
theorem awaited?_eq (env : Environment) (p : Phrase) : p.awaited? env = (p.unbound env).head? := by
  rw [unbound, head?_firsts, List.head?_filter, awaited?]

theorem unknown_of_unbound (unbound : p.unbound env = x :: rest) : env.knows x.name = false := by
  have awaits : p.awaited? env = some x := by rw [awaited?_eq, unbound, List.head?_cons]
  simpa using List.find?_some awaits

/-- Binding the first variable leaves the others. -/
theorem unbound_assign (unbound : p.unbound env = x :: rest) :
    p.unbound (env.assign x.name v) = rest := by
  unfold Phrase.unbound at unbound ⊢
  have further : (p.vars.filter fun y => !(env.assign x.name v).knows y.name) =
      (p.vars.filter fun y => !env.knows y.name).filter fun y => y.name ≠ x.name := by
    rw [List.filter_filter]
    refine List.filter_congr fun y _ => ?_
    rw [Scope.knows_assign]
    simp [y.name_ne]
  rw [further]
  generalize (p.vars.filter fun y => !env.knows y.name) = xs at unbound ⊢
  cases xs with
  | nil => cases unbound
  | cons y xs =>
    rw [firsts_cons] at unbound
    cases unbound
    rw [List.filter_cons_of_neg (by simp)]

theorem unbound_of_unknown (unknown : ∀ x ∈ p.vars, env.knows x.name = false) : p.unbound env = p.asks := by
  rw [unbound, asks, List.filter_eq_self.mpr]
  intro x member
  simp [unknown x member]

/-- The first value goes to the first variable that is not bound, and the others go to the rest. -/
theorem bindAll_unbound_cons (enough : (v :: vs).length = (p.unbound env).length) :
    ∃ x, env.knows x.name = false ∧ p.unbound env = x :: p.unbound (env.assign x.name v) ∧
      vs.length = (p.unbound (env.assign x.name v)).length ∧
      env.bindAll ((p.unbound env).zip (v :: vs)) =
        Environment.bindAll (env.assign x.name v) ((p.unbound (env.assign x.name v)).zip vs) := by
  obtain ⟨x, rest, unbound⟩ := List.exists_cons_of_length_eq_add_one enough.symm
  have unknown := unknown_of_unbound unbound
  have left := unbound_assign (v := v) unbound
  rw [unbound] at enough
  refine ⟨x, unknown, by rw [unbound, left], by rw [left, Nat.succ.inj enough], ?_⟩
  rw [unbound, left, List.zip_cons_cons, Environment.bindAll, Environment.bind_unknown unknown]
  rfl

/-- As many values as there are variables bind them all. -/
theorem bindAll_unbound (enough : vs.length = (p.unbound env).length) :
    ∃ env', env.bindAll ((p.unbound env).zip vs) = .ok env' ∧ env.Widens env' ∧ p.unbound env' = [] := by
  induction vs generalizing env with
  | nil =>
    have none := List.eq_nil_of_length_eq_zero enough.symm
    exact ⟨env, by rw [none]; rfl, .refl env, none⟩
  | cons v vs ih =>
    obtain ⟨x, unknown, _, fewer, others⟩ := bindAll_unbound_cons enough
    obtain ⟨env', bound, widens, all⟩ := ih fewer
    exact ⟨env', others.trans bound, (Environment.widens_assign unknown).trans widens, all⟩

end Phrase

/-- Gives a value what it waits for, and what comes of that what it waits for then, as long as something is
waited for. What was asked for comes with what is left in the end. -/
def Value.resumeAll : Value → List Value → Evaluation (List Variable × Value)
  | .deferred x body env, v :: vs => do
    let w ← Value.resume x body env v
    let (asked, left) ← w.resumeAll vs
    return (x :: asked, left)
  | w, _ => return ([], w)

/-- Evaluates a phrase and applies what it comes to to values. -/
def Phrase.applied (p : Phrase) (vs : List Value) : Evaluation (List Variable × Value) := do
  (← p.eval).resumeAll vs

/-- The same in another environment. -/
def Phrase.appliedIn (p : Phrase) (env : Environment) (vs : List Value) :
    Evaluation (List Variable × Value) := do
  (← within env p.eval).resumeAll vs

theorem run_within_eq_ok {α : Type} {x : Evaluation α} {env : Environment} {s t : State} {a : α} :
    (within env x).run s = .ok a t ↔
      ∃ u, x.run ⟨env, s.ontology⟩ = .ok a u ∧ t = ⟨s.env, u.ontology⟩ := by
  rw [run_within]
  cases x.run ⟨env, s.ontology⟩ <;> simp [eq_comm]

namespace Phrase

variable {voc : Vocabulary} {base o : Ontology} {env env' : Environment} {p : Phrase} {x : Variable}
  {s t : State} {v w : Value} {vs : List Value} {asked : List Variable}

theorem applied_eq_ok : (p.applied vs).run s = .ok (asked, w) t ↔
    ∃ v s', p.eval.run s = .ok v s' ∧ (v.resumeAll vs).run s' = .ok (asked, w) t :=
  run_eq_ok_of_bind

theorem appliedIn_eq_ok : (p.appliedIn env vs).run s = .ok (asked, w) t ↔
    ∃ v u, p.eval.run ⟨env, s.ontology⟩ = .ok v u ∧
      (v.resumeAll vs).run ⟨s.env, u.ontology⟩ = .ok (asked, w) t := by
  unfold appliedIn
  rw [run_eq_ok_of_bind]
  simp only [run_within_eq_ok]
  constructor
  · rintro ⟨v, _, ⟨u, run, rfl⟩, rest⟩
    exact ⟨v, u, run, rest⟩
  · rintro ⟨v, u, run, rest⟩
    exact ⟨v, _, ⟨u, run, rfl⟩, rest⟩

theorem resumeAll_of_settled (settled : v.awaits? = none) :
    (v.resumeAll vs).run s = .ok (asked, w) t ↔ asked = [] ∧ w = v ∧ t = s := by
  have stays : (v.resumeAll vs).run s = .ok ([], v) s := by
    cases v with
    | deferred => cases settled
    | _ => cases vs <;> rfl
  rw [stays, EStateM.Result.ok.injEq, Prod.mk.injEq]
  simp only [eq_comm, and_assoc]

theorem resumeAll_nil : (v.resumeAll []).run s = .ok (asked, w) t ↔ asked = [] ∧ w = v ∧ t = s := by
  have stays : (v.resumeAll []).run s = .ok ([], v) s := by
    cases v <;> rfl
  rw [stays, EStateM.Result.ok.injEq, Prod.mk.injEq]
  simp only [eq_comm, and_assoc]

/-- To give a deferred value what it waits for is to evaluate its body again and to go on. -/
theorem resumeAll_cons (bound : env.bind x.name v = .ok env') :
    ((Value.deferred x p env).resumeAll (v :: vs)).run s = .ok (asked, w) t ↔
      ∃ others, asked = x :: others ∧ (p.appliedIn env' vs).run s = .ok (others, w) t := by
  have same : Value.resume x p env v = within env' p.eval := by
    rw [Value.resume, bound]
    rfl
  rw [Value.resumeAll, same, appliedIn, run_eq_ok_of_bind]
  simp only [run_eq_ok_of_bind]
  constructor
  · rintro ⟨a, s', run, ⟨others, left⟩, s'', run', done⟩
    cases done
    exact ⟨others, rfl, a, s', run, run'⟩
  · rintro ⟨others, rfl, a, s', run, run'⟩
    exact ⟨a, s', run, (others, w), t, run', rfl⟩

section Stages

variable (stated : p.Stated voc) (quiet : p.isDeclaration = false) (plain : p.refersBack = false)
include stated quiet plain

theorem becomes_of_run (fork : base.Fork o o) (old : env.Old base) (run : p.eval.run ⟨env, o⟩ = .ok w t) :
    State.Extends ⟨env, o⟩ t ∧ p.Becomes base t w := by
  have accords : State.Accords base ⟨env, o⟩ ⟨env, o⟩ := ⟨fork, .refl env, old⟩
  obtain ⟨adds, _, _, _, _, _, recurs⟩ := stated.recurs quiet plain accords w t run
  exact ⟨adds, recurs.first⟩

theorem applied_iff (fork : base.Fork s.ontology s.ontology) (old : s.env.Old base) :
    (p.applied vs).run s = .ok (asked, w) t ↔ (p.appliedIn s.env vs).run s = .ok (asked, w) t := by
  rw [applied_eq_ok, appliedIn_eq_ok]
  refine exists_congr fun v => exists_congr fun u => and_congr_right fun run => ?_
  obtain ⟨adds, _⟩ := becomes_of_run stated quiet plain fork old run
  obtain ⟨_, o⟩ := u
  cases adds.env
  exact Iff.rfl

/-- What is asked for are the variables that are not bound, in their order. -/
theorem asked_of_applied (fork : base.Fork s.ontology s.ontology) (old : env.Old base)
    (given : ∀ v ∈ vs, v.Old base) (run : (p.appliedIn env vs).run s = .ok (asked, w) t) :
    asked = (p.unbound env).take vs.length ∧ w.awaits? = (p.unbound env)[vs.length]? := by
  induction vs generalizing env s asked with
  | nil =>
    obtain ⟨a, u, first, rest⟩ := appliedIn_eq_ok.mp run
    obtain ⟨adds, becomes⟩ := becomes_of_run stated quiet plain fork old first
    obtain ⟨rfl, rfl, rfl⟩ := resumeAll_nil.mp rest
    have awaits : p.awaited? u.env = (p.unbound env).head? := adds.env ▸ awaited?_eq env p
    refine ⟨rfl, ?_⟩
    rw [List.length_nil, ← List.head?_eq_getElem?, ← awaits]
    cases waits : p.awaited? u.env with
    | none => exact (becomes.settled waits).settled
    | some x => rw [becomes.waiting waits, Value.awaits?]
  | cons v vs ih =>
    obtain ⟨here, there⟩ := List.forall_mem_cons.mp given
    obtain ⟨a, u, first, rest⟩ := appliedIn_eq_ok.mp run
    obtain ⟨adds, becomes⟩ := becomes_of_run stated quiet plain fork old first
    have awaits : p.awaited? u.env = (p.unbound env).head? := adds.env ▸ awaited?_eq env p
    cases unbound : p.unbound env with
    | nil =>
      rw [unbound] at awaits
      have settled := (becomes.settled awaits).settled
      obtain ⟨rfl, rfl, rfl⟩ := (resumeAll_of_settled settled).mp rest
      exact ⟨rfl, settled⟩
    | cons x xs =>
      rw [unbound] at awaits
      cases becomes.waiting awaits
      rw [adds.env] at rest
      have bound := Environment.bind_unknown (v := v) (unknown_of_unbound unbound)
      obtain ⟨others, rfl, again⟩ := (resumeAll_cons bound).mp rest
      have fork' : base.Fork u.ontology u.ontology := fork.further adds.ontology adds.ontology
      obtain ⟨order, left⟩ := ih (s := ⟨s.env, u.ontology⟩) fork' (old.assign here) there again
      rw [unbound_assign unbound] at order left
      exact ⟨congrArg (x :: ·) order, left⟩

/-- What is left in the end is what the phrase comes to where all its variables are bound. -/
theorem run_of_applied (fork : base.Fork s.ontology s.ontology) (old : env.Old base)
    (given : ∀ v ∈ vs, v.Old base) (enough : vs.length = (p.unbound env).length)
    (bound : env.bindAll ((p.unbound env).zip vs) = .ok env')
    (run : (p.appliedIn env vs).run s = .ok (asked, w) t) :
    ∃ o, s.ontology.Extends o ∧ p.eval.run ⟨env', o⟩ = .ok w ⟨env', t.ontology⟩ := by
  induction vs generalizing env s asked with
  | nil =>
    have none := List.eq_nil_of_length_eq_zero enough.symm
    rw [none] at bound
    cases bound
    obtain ⟨a, u, first, rest⟩ := appliedIn_eq_ok.mp run
    obtain ⟨adds, _⟩ := becomes_of_run stated quiet plain fork old first
    obtain ⟨_, rfl, rfl⟩ := resumeAll_nil.mp rest
    obtain ⟨_, o⟩ := u
    cases adds.env
    exact ⟨s.ontology, Std.Refl.refl _, first⟩
  | cons v vs ih =>
    obtain ⟨here, there⟩ := List.forall_mem_cons.mp given
    obtain ⟨x, unknown, unbound, fewer, rest⟩ := bindAll_unbound_cons enough
    rw [rest] at bound
    obtain ⟨a, u, first, after⟩ := appliedIn_eq_ok.mp run
    obtain ⟨adds, becomes⟩ := becomes_of_run stated quiet plain fork old first
    have awaits : p.awaited? u.env = some x := by rw [adds.env, awaited?_eq, unbound, List.head?_cons]
    cases becomes.waiting awaits
    rw [adds.env] at after
    obtain ⟨others, _, again⟩ := (resumeAll_cons (Environment.bind_unknown unknown)).mp after
    have fork' : base.Fork u.ontology u.ontology := fork.further adds.ontology adds.ontology
    obtain ⟨o, adds', last⟩ := ih (s := ⟨s.env, u.ontology⟩) fork' (old.assign here) there fewer bound again
    exact ⟨o, IsTrans.trans s.ontology u.ontology o adds.ontology adds', last⟩

/-- If the phrase comes to anything where all its variables are bound, they can be given one by one. -/
theorem applied_of_run {r : Value} (fork : base.Fork s.ontology s.ontology) (old : env'.Old base)
    (enough : vs.length = (p.unbound env).length) (bound : env.bindAll ((p.unbound env).zip vs) = .ok env')
    (direct : p.eval.run ⟨env', base⟩ = .ok r t) :
    ∃ asked w u, (p.appliedIn env vs).run s = .ok (asked, w) u := by
  have start : base.Extends base := Std.Refl.refl base
  have stage : ∀ {env : Environment} {s : State}, base.Fork s.ontology s.ontology → env.Widens env' →
      ∃ a u, p.eval.run ⟨env, s.ontology⟩ = .ok a u ∧ State.Extends ⟨env, s.ontology⟩ u ∧
        p.Becomes base u a := by
    intro env s fork widens
    have accords : State.Accords base ⟨env', base⟩ ⟨env, s.ontology⟩ :=
      ⟨⟨fork.kept, fork.arranged, start, fork.right⟩, widens, old⟩
    obtain ⟨_, a, u, run, adds, _, recurs⟩ := stated.recurs quiet plain accords r t direct
    exact ⟨a, u, run, adds, recurs.second⟩
  induction vs generalizing env s with
  | nil =>
    obtain ⟨_, same, widens, _⟩ := bindAll_unbound enough
    cases same.symm.trans bound
    obtain ⟨a, u, run, _⟩ := stage fork widens
    exact ⟨[], a, _, appliedIn_eq_ok.mpr ⟨a, u, run, resumeAll_nil.mpr ⟨rfl, rfl, rfl⟩⟩⟩
  | cons v vs ih =>
    obtain ⟨_, same, widens, _⟩ := bindAll_unbound enough
    cases same.symm.trans bound
    obtain ⟨a, u, run, adds, becomes⟩ := stage fork widens
    obtain ⟨x, unknown, unbound, fewer, rest⟩ := bindAll_unbound_cons enough
    rw [rest] at bound
    have awaits : p.awaited? u.env = some x := by rw [adds.env, awaited?_eq, unbound, List.head?_cons]
    cases becomes.waiting awaits
    have fork' : base.Fork u.ontology u.ontology := fork.further adds.ontology adds.ontology
    obtain ⟨others, w, z, again⟩ := ih (s := ⟨s.env, u.ontology⟩) fork' fewer bound
    refine ⟨x :: others, w, z, appliedIn_eq_ok.mpr ⟨_, u, run, ?_⟩⟩
    rw [adds.env]
    exact (resumeAll_cons (Environment.bind_unknown unknown)).mpr ⟨others, rfl, again⟩

/-- Where all variables are bound, a phrase comes to the same again, and nothing more is made. -/
theorem run_again (fork : base.Fork o o) (old : env.Old base) (all : p.unbound env = [])
    (run : p.eval.run ⟨env, o⟩ = .ok w t) : p.eval.run t = .ok w t := by
  obtain ⟨adds, _⟩ := becomes_of_run stated quiet plain fork old run
  have widens : t.env.Widens env := by
    rw [show t.env = env from adds.env]
    exact .refl env
  have further : base.Extends t.ontology := IsTrans.trans base o t.ontology fork.left adds.ontology
  have accords : State.Accords base ⟨env, o⟩ t :=
    ⟨⟨fork.kept, fork.arranged, fork.left, further⟩, widens, old⟩
  obtain ⟨_, b, u, again, _, same, recurs⟩ := stated.recurs quiet plain accords w t run
  cases same (Std.Refl.refl t)
  have settled : p.awaited? t.env = none := by rw [adds.env, awaited?_eq, all, List.head?_nil]
  rw [(recurs.twin settled).eq (fork.further adds.ontology adds.ontology), again]

end Stages

end Phrase

theorem Environment.ordinary_of_lookup {name : String} {v : Value} (found : operators.lookup name = some v) :
    Ordinary name := by
  have all : ∀ entry ∈ operators, entry.1 ≠ anaphoraName ∧ entry.1.toList.head? ≠ some '$' := by
    decide
  obtain ⟨before, rest, split, _⟩ := List.lookup_eq_some_iff.mp found
  have here := all (name, v) (split ▸ List.mem_append_right before (List.mem_cons_self ..))
  exact .of_head here.1 here.2

theorem Value.Admitted.ordinary {v : Vocabulary} {name : String} {x : Value} (admitted : x.Admitted v name) :
    Ordinary name := by
  obtain ⟨role, vetted⟩ := admitted.vetted
  exact .of_vetted vetted

namespace State.Sound

variable {spoken : Language → Prop} {top : String} {s : State} (sound : s.Sound spoken top)
include sound

theorem old : s.env.Old s.ontology := by
  intro name v differs found
  rcases sound.found found with bound | ⟨_, rfl⟩ | builtIn
  · have names := (sound.bound differs bound).1
    rcases names.cases with ⟨c, rfl⟩ | ⟨i, rfl⟩ | ⟨r, rfl⟩ <;> exact names.known
  · exact sound.everything.known
  · obtain ⟨op, rfl⟩ := Environment.operator_of_lookup builtIn
    exact trivial

/-- Programs bind no variables. -/
theorem unknown {x : Variable} (differs : x.name ≠ top) : s.env.knows x.name = false := by
  refine Option.isSome_eq_false_iff.mpr (Option.isNone_iff_eq_none.mpr ?_)
  refine Option.eq_none_iff_forall_ne_some.mpr fun v found => ?_
  rcases sound.found found with bound | ⟨same, _⟩ | builtIn
  · obtain ⟨names, other⟩ := sound.bound x.name_ne bound
    obtain ⟨_, _, _, _, admitted⟩ := sound.named names other
    exact admitted.ordinary.2 x rfl
  · exact differs same
  · exact (Environment.ordinary_of_lookup builtIn).2 x rfl

end State.Sound

namespace Language

open Phrase

/-- To evaluate a statement and to give it the values of its variables one by one is to evaluate it where
they are bound. It asks for its variables in the order in which they first occur, it comes to something
exactly if it does so where they are bound, and there it then comes to the same without making anything. What
is built in can not be bound, so that no variable may have the name of the concept of everything. -/
theorem deferral_agrees {top : String} {s : State} (reached : State.Reached (fun _ => True) top s)
    {l : Language} {text : String} {ps : List Phrase} (parsed : l.parse text = .ok (.program ps))
    {p : Phrase} (member : p ∈ ps) (quiet : p.isDeclaration = false) (plain : p.refersBack = false)
    (free : ∀ x ∈ p.vars, x.name ≠ top) {vs : List Value} (enough : vs.length = p.asks.length)
    (given : ∀ v ∈ vs, v.Old s.ontology) :
    ∃ env, s.env.bindAll (p.asks.zip vs) = .ok env ∧
      (∀ k asked w t, (p.applied (vs.take k)).run s = .ok (asked, w) t →
        asked = p.asks.take k ∧ w.awaits? = p.asks[k]?) ∧
      ((∃ w t, (p.applied vs).run s = .ok (p.asks, w) t ∧ w.awaits? = none) ↔
        ∃ r t, p.eval.run ⟨env, s.ontology⟩ = .ok r t) ∧
      ∀ asked r t, (p.applied vs).run s = .ok (asked, r) t →
        p.eval.run ⟨env, t.ontology⟩ = .ok r ⟨env, t.ontology⟩ := by
  obtain ⟨_, ⟨⟩, each⟩ := stated_of_parse parsed
  have stated := each p member
  have sound := reached.sound
  have start : s.ontology.Extends s.ontology := Std.Refl.refl s.ontology
  have fork : s.ontology.Fork s.ontology s.ontology := ⟨sound.kept, reached.arranged, start, start⟩
  have waits : p.unbound s.env = p.asks := unbound_of_unknown fun x member => sound.unknown (free x member)
  have enough' : vs.length = (p.unbound s.env).length := enough.trans (congrArg List.length waits.symm)
  obtain ⟨env, bound', _, all⟩ := bindAll_unbound enough'
  have bound : s.env.bindAll (p.asks.zip vs) = .ok env := waits ▸ bound'
  have same : ∀ {vs asked w t}, (p.applied vs).run s = .ok (asked, w) t ↔
      (p.appliedIn s.env vs).run s = .ok (asked, w) t := applied_iff stated quiet plain fork sound.old
  have asks : ∀ k asked w t, (p.applied (vs.take k)).run s = .ok (asked, w) t →
      asked = p.asks.take k ∧ w.awaits? = p.asks[k]? := by
    intro k asked w t run
    have given' : ∀ v ∈ vs.take k, v.Old s.ontology := fun v member => given v (List.mem_of_mem_take member)
    obtain ⟨order, left⟩ := asked_of_applied stated quiet plain fork sound.old given' (same.mp run)
    rw [waits, List.length_take, enough] at order left
    refine ⟨order.trans List.take_eq_take_min.symm, left.trans ?_⟩
    rcases Nat.lt_or_ge k p.asks.length with less | past
    · rw [Nat.min_eq_left less.le]
    · rw [Nat.min_eq_right past, List.getElem?_eq_none past, List.getElem?_eq_none le_rfl]
  have given' : ∀ pair ∈ p.asks.zip vs, pair.2.Old s.ontology := fun pair member =>
    given _ (List.of_mem_zip member).2
  have old := sound.old.bindAll given' bound
  have last : ∀ asked r t, (p.applied vs).run s = .ok (asked, r) t → ∃ o, s.ontology.Extends o ∧
      p.eval.run ⟨env, o⟩ = .ok r ⟨env, t.ontology⟩ := fun asked r t run =>
    run_of_applied stated quiet plain fork sound.old given enough' bound' (same.mp run)
  refine ⟨env, bound, asks, ⟨?_, ?_⟩, fun asked r t run => ?_⟩
  · rintro ⟨w, t, run, _⟩
    obtain ⟨o, adds, direct⟩ := last p.asks w t run
    have accords : State.Accords s.ontology ⟨env, o⟩ ⟨env, s.ontology⟩ :=
      ⟨⟨sound.kept, reached.arranged, adds, start⟩, .refl env, old⟩
    obtain ⟨_, r, u, run', _⟩ := stated.recurs quiet plain accords w _ direct
    exact ⟨r, u, run'⟩
  · rintro ⟨r, t, direct⟩
    obtain ⟨asked, w, u, run⟩ := applied_of_run stated quiet plain fork old enough' bound' direct
    have all := asks vs.length asked w u (by rw [List.take_length]; exact same.mpr run)
    rw [enough, List.take_length, List.getElem?_eq_none le_rfl] at all
    exact ⟨w, u, all.1 ▸ same.mpr run, all.2⟩
  · obtain ⟨o, adds, direct⟩ := last asked r t run
    have fork' : s.ontology.Fork o o := ⟨sound.kept, reached.arranged, adds, adds⟩
    exact run_again stated quiet plain fork' old all direct

/-- Two variables, the first of which occurs twice and is held to a type the second time. -/
def openJunction : Phrase :=
  .junction .and [.var ⟨"X", none⟩, .negation (.var ⟨"Y", some "T"⟩), .var ⟨"X", some "T"⟩]

theorem openJunction_agrees :
    parse ⟨Vocabulary.usual⟩ "$X & ~$Y:T & $X:T" = .ok (.program [openJunction]) ∧
    ∃ env t, (State.initial "T").env.bindAll
        [(⟨"X", none⟩, .concept ⟨1⟩), (⟨"Y", some "T"⟩, .concept ⟨1⟩)] = .ok env ∧
      (openJunction.applied [.concept ⟨1⟩, .concept ⟨1⟩]).run (.initial "T") =
        .ok ([⟨"X", none⟩, ⟨"Y", some "T"⟩], .concept ⟨3⟩) t ∧
      openJunction.eval.run ⟨env, t.ontology⟩ = .ok (.concept ⟨3⟩) ⟨env, t.ontology⟩ := by
  have parsed : parse ⟨Vocabulary.usual⟩ "$X & ~$Y:T & $X:T" = .ok (.program [openJunction]) := rfl
  have known : (State.initial "T").ontology.Knows (.concept ⟨1⟩) := by decide
  have given : ∀ v ∈ [Value.concept ⟨1⟩, .concept ⟨1⟩], v.Old (State.initial "T").ontology :=
    List.forall_mem_cons.mpr ⟨known, List.forall_mem_singleton.mpr known⟩
  have free : ∀ x ∈ openJunction.vars, x.name ≠ "T" := by decide
  have enough : [Value.concept ⟨1⟩, .concept ⟨1⟩].length = openJunction.asks.length := by decide
  obtain ⟨env, bound, _, _, same⟩ :=
    deferral_agrees .initial parsed (List.mem_singleton.mpr rfl) rfl rfl free enough given
  have applied : (openJunction.applied [.concept ⟨1⟩, .concept ⟨1⟩]).run (.initial "T") =
      .ok ([⟨"X", none⟩, ⟨"Y", some "T"⟩], .concept ⟨3⟩) ⟨Environment.initial "T",
        ⟨#[.concept (.named "T") [] [], .concept (.negation ⟨1⟩) [] [],
          .concept (.conjunction [⟨1⟩, ⟨2⟩]) [] []]⟩⟩ := by
    with_unfolding_all rfl
  exact ⟨parsed, env, _, bound, applied, same _ _ _ applied⟩

/-- Where the concept of everything has the name of a variable, the variable is not waited for. -/
theorem named_as_variable :
    parse ⟨Vocabulary.usual⟩ "$X" = .ok (.program [.var ⟨"X", none⟩]) ∧
    State.Reached (fun _ => True) "$X" (.initial "$X") ∧
    (Phrase.var ⟨"X", none⟩).isDeclaration = false ∧ (Phrase.var ⟨"X", none⟩).refersBack = false ∧
    (Phrase.var ⟨"X", none⟩).asks = [⟨"X", none⟩] ∧
    (State.initial "$X").ontology.Knows (.concept ⟨1⟩) ∧
    ((Phrase.var ⟨"X", none⟩).applied [.concept ⟨1⟩]).run (.initial "$X") =
      .ok ([], .concept ⟨1⟩) (.initial "$X") ∧
    (State.initial "$X").env.bindAll [(⟨"X", none⟩, .concept ⟨1⟩)] = .error (.immutableRebind "$X") := by
  refine ⟨rfl, .initial, rfl, rfl, by decide, by decide, rfl, rfl⟩

end Language

end ConceptLogic
