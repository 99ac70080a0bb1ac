import Ouro.Ows.Interpreter

/-!
# What a run may do next

A run's journal decides where an execution can be: it comes to a task of a list only along the results saved
before it (`passed`), and it enters a task only while that has no result. So the invocations in progress can
be read off the journal (`Current`), and everything an execution does is done under one of them (`Step`).

What was saved in the end stays (`Grows`), so a list that has failed has failed for good (`Failed`): no later
execution comes to another of its tasks. This keeps the attempts of a `try` apart (`Failed.excludes`).
-/

namespace Ouro.Interp

open Lib Ows

variable {w : Ows.Workflow} {J J' J'' : Table String Record} {l m first later : List Segment} {seg : Segment}
  {t t₀ : Ows.Task} {nest : Nest} {names : List String}

/-! ### What stays -/

/-- Records that nothing replaces. -/
def Record.final : Record → Bool
  | .task _ none => false
  | .call _ _ _ _ state _ => state.isDone
  | _ => true

theorem takes_final {k : String} {r old : Record} (h : takes J k r = true) (hold : J.get k = some old)
    (hfinal : Record.final old = true) : r = old := by
  rw [takes, hold, Option.all_some] at h
  unfold checkTransition at h
  rw [Bool.or_eq_true, decide_eq_true_iff] at h
  rcases h with rfl | h
  · rfl
  -- a record that is final takes no other
  · split at h
    · cases hfinal
    · rw [Record.final] at hfinal
      simp [hfinal] at h
    · cases h

/-- Final records stay from the one journal to the other. -/
def Grows (J J' : Table String Record) : Prop :=
  ∀ k r, J.get k = some r → Record.final r = true → J'.get k = some r

theorem Grows.refl (J : Table String Record) : Grows J J := fun _ _ h _ => h

theorem Grows.trans (h : Grows J J') (h' : Grows J' J'') : Grows J J'' :=
  fun k r hr hfinal => h' k r (h k r hr hfinal) hfinal

theorem grows_put {k : String} {r : Record} (h : takes J k r = true) : Grows J (J.put k r) := by
  intro k' old hold hfinal
  rw [Table.get_put]
  split
  · next hk =>
    subst hk
    rw [takes_final h hold hfinal]
  · exact hold

/-! ### Results -/

/-- The task at the path has a result. -/
def Ended (J : Table String Record) (l : List Segment) : Prop :=
  ∃ ms result, J.get (recordKey l .task) = some (.task ms (some result))

/-- The task at the path has faulted. -/
def Faulted (J : Table String Record) (l : List Segment) : Prop :=
  ∃ ms ctx e fatal, J.get (recordKey l .task) = some (.task ms (some ⟨ctx, .faulted e fatal⟩))

/-- The flow with which the task at the path completed. -/
def flowOf (J : Table String Record) (l : List Segment) : Option Flow :=
  match J.get (recordKey l .task) with
  | some (.task _ (some ⟨_, .completed _ flow⟩)) => some flow
  | _ => none

theorem flowOf_eq_some {flow : Flow} : flowOf J l = some flow ↔
    ∃ ms ctx output, J.get (recordKey l .task) = some (.task ms (some ⟨ctx, .completed output flow⟩)) := by
  unfold flowOf
  split
  · next ms ctx output flow' h => simp [h]
  · next h =>
    refine iff_of_false (fun h => by cases h) ?_
    rintro ⟨ms, ctx, output, hget⟩
    exact h _ _ _ _ hget

theorem Faulted.grows (h : Faulted J l) (hgrows : Grows J J') : Faulted J' l :=
  let ⟨ms, ctx, e, fatal, hget⟩ := h
  ⟨ms, ctx, e, fatal, hgrows _ _ hget rfl⟩

theorem Faulted.ended (h : Faulted J l) : Ended J l :=
  let ⟨_, _, _, _, hget⟩ := h
  ⟨_, _, hget⟩

theorem flowOf_grows {flow : Flow} (h : flowOf J l = some flow) (hgrows : Grows J J') : flowOf J' l = some flow :=
  let ⟨ms, ctx, output, hget⟩ := flowOf_eq_some.mp h
  flowOf_eq_some.mpr ⟨ms, ctx, output, hgrows _ _ hget rfl⟩

theorem ended_of_flowOf {flow : Flow} (h : flowOf J l = some flow) : Ended J l :=
  let ⟨_, _, _, hget⟩ := flowOf_eq_some.mp h
  ⟨_, _, hget⟩

theorem flowOf_of_faulted (h : Faulted J l) : flowOf J l = none := by
  obtain ⟨ms, ctx, e, fatal, hget⟩ := h
  rw [flowOf, hget]

/-! ### Along a list -/

/-- Where the directive of the task at `i` leads within a list. -/
def onward (names : List String) (i : Nat) : Flow → Option Nat
  | .continue => some (i + 1)
  | .goto target => names.findIdx? (· = target)
  | .exit | .end => none

/-- Where an execution of a list is after so many tasks with results: the position, and how often it has
come to each. -/
def passed (J : Table String Record) (l : List Segment) (nest : Nest) (names : List String) :
    Nat → Option (Nat × (Nat → Nat))
  | 0 => some (0, fun _ => 0)
  | n + 1 => do
    let (i, visits) ← passed J l nest names n
    let name ← names[i]?
    let flow ← flowOf J (l ++ [.list nest i name (visits i)])
    let j ← onward names i flow
    return (j, Function.update visits i (visits i + 1))

theorem passed_succ {n i j : Nat} {visits : Nat → Nat} {name : String} {flow : Flow}
    (h : passed J l nest names n = some (i, visits)) (hname : names[i]? = some name)
    (hflow : flowOf J (l ++ [.list nest i name (visits i)]) = some flow) (hj : onward names i flow = some j) :
    passed J l nest names (n + 1) = some (j, Function.update visits i (visits i + 1)) := by
  rw [passed, h]
  simp [hname, hflow, hj]

theorem passed_pred {n j : Nat} {visits : Nat → Nat} (h : passed J l nest names (n + 1) = some (j, visits)) :
    ∃ i v name flow, passed J l nest names n = some (i, v) ∧ names[i]? = some name ∧
      flowOf J (l ++ [.list nest i name (v i)]) = some flow ∧ onward names i flow = some j ∧
      visits = Function.update v i (v i + 1) := by
  rw [passed] at h
  cases hn : passed J l nest names n with
  | none => simp [hn] at h
  | some p =>
    -- it is the result of the task passed last that leads on
    obtain ⟨i, v⟩ := p
    rw [hn] at h
    simp only [Option.bind_eq_bind, Option.bind_some, Option.bind_eq_some_iff, Option.pure_def,
      Option.some.injEq] at h
    obtain ⟨name, hname, flow, hflow, j', hj, heq⟩ := h
    obtain ⟨rfl, rfl⟩ := Prod.mk.inj heq
    exact ⟨i, v, name, flow, rfl, hname, hflow, hj, rfl⟩

theorem passed_grows {n : Nat} {p : Nat × (Nat → Nat)} (h : passed J l nest names n = some p)
    (hgrows : Grows J J') : passed J' l nest names n = some p := by
  induction n generalizing p with
  | zero => exact h
  | succ n ih =>
    obtain ⟨j, visits⟩ := p
    obtain ⟨i, v, name, flow, hn, hname, hflow, hj, rfl⟩ := passed_pred h
    exact passed_succ (ih hn) hname (flowOf_grows hflow hgrows) hj

/-- An execution that has passed the tasks before one passes no task before it in another way. -/
theorem passed_le {n n' i : Nat} {visits : Nat → Nat} {p : Nat × (Nat → Nat)} {name : String}
    (h : passed J l nest names n = some (i, visits)) (hname : names[i]? = some name)
    (hstuck : flowOf J (l ++ [.list nest i name (visits i)]) = none)
    (h' : passed J l nest names n' = some p) : n' ≤ n := by
  by_contra hlt
  obtain ⟨k, rfl⟩ := Nat.exists_eq_add_of_lt (not_le.mp hlt)
  -- one more step is needed, and there is none
  have hnext : ∀ k, passed J l nest names (n + k + 1) = none := fun k => by
    induction k with
    | zero =>
      -- the next step would need the result of the task that has none
      cases hp : passed J l nest names (n + 1) with
      | none => rfl
      | some p =>
        obtain ⟨j, v⟩ := p
        obtain ⟨i', v', name', flow, hn, hname', hflow, -⟩ := passed_pred hp
        obtain ⟨rfl, rfl⟩ := Prod.mk.inj (Option.some.inj (h.symm.trans hn))
        obtain rfl := Option.some.inj (hname.symm.trans hname')
        rw [hstuck] at hflow
        cases hflow
    | succ k ih => rw [passed, show n + (k + 1) = n + k + 1 from rfl, ih]; rfl
  rw [hnext] at h'
  cases h'

/-- A list has one task at most that stops it. -/
theorem stuck_unique {n n' i i' : Nat} {visits visits' : Nat → Nat} {name name' : String}
    (h : passed J l nest names n = some (i, visits)) (hname : names[i]? = some name)
    (hstuck : flowOf J (l ++ [.list nest i name (visits i)]) = none)
    (h' : passed J l nest names n' = some (i', visits')) (hname' : names[i']? = some name')
    (hstuck' : flowOf J (l ++ [.list nest i' name' (visits' i')]) = none) :
    i = i' ∧ visits = visits' ∧ name = name' := by
  obtain rfl : n = n' := Nat.le_antisymm (passed_le h' hname' hstuck' h) (passed_le h hname hstuck h')
  obtain ⟨rfl, rfl⟩ := Prod.mk.inj (Option.some.inj (h.symm.trans h'))
  exact ⟨rfl, rfl, Option.some.inj (hname.symm.trans hname')⟩

/-! ### Attempts -/

/-- The attempt of the `try` at the path has ended in a fault that one of its tasks was left with. -/
def Failed (w : Ows.Workflow) (J : Table String Record) (l : List Segment) (k : Nat) : Prop :=
  ∃ t tasks n i visits name, w.follow w.top l = some t ∧ t.nested w (.attempt k) = some tasks ∧
    passed J l (.attempt k) (tasks.map Prod.fst) n = some (i, visits) ∧
    (tasks.map Prod.fst)[i]? = some name ∧ Faulted J (l ++ [.list (.attempt k) i name (visits i)])

theorem Failed.grows {k : Nat} (h : Failed w J l k) (hgrows : Grows J J') : Failed w J' l k :=
  let ⟨t, tasks, n, i, visits, name, ht, htasks, hpassed, hname, hfaulted⟩ := h
  ⟨t, tasks, n, i, visits, name, ht, htasks, passed_grows hpassed hgrows, hname, hfaulted.grows hgrows⟩

/-- An attempt after the first begins when the one before it has ended and the policy allows another. -/
def Begun (J : Table String Record) (l : List Segment) : Nest → Prop
  | .attempt k => 2 ≤ k → ∃ delay, J.get (recordKey l (.decision (k - 1))) = some (.retry (some delay))
  | _ => True

theorem Begun.grows (h : Begun J l nest) (hgrows : Grows J J') : Begun J' l nest := by
  cases nest with
  | attempt k => exact fun hk => let ⟨delay, hget⟩ := h hk; ⟨delay, hgrows _ _ hget rfl⟩
  | _ => trivial

/-! ### Invocations in progress -/

/-- An execution of the task at `l` comes to the segment. -/
def Placed (w : Ows.Workflow) (J : Table String Record) (l : List Segment) (t : Ows.Task) : Segment → Prop
  | .list nest index _ visit => ∃ tasks n visits, t.nested w nest = some tasks ∧
      passed J l nest (tasks.map Prod.fst) n = some (index, visits) ∧ visits index = visit ∧ Begun J l nest
  | _ => True

theorem Placed.grows (h : Placed w J l t seg) (hgrows : Grows J J') : Placed w J' l t seg := by
  cases seg with
  | list nest index name visit =>
    obtain ⟨tasks, n, visits, htasks, hpassed, hvisit, hbegun⟩ := h
    exact ⟨tasks, n, visits, htasks, passed_grows hpassed hgrows, hvisit, hbegun.grows hgrows⟩
  | _ => trivial

/-- The invocations that may be in progress: an execution comes to each from the one around it, and none has
a result. -/
inductive Current (w : Ows.Workflow) (J : Table String Record) : List Segment → Ows.Task → Prop where
  | top : Current w J [] w.top
  | enter {l : List Segment} {seg : Segment} {t t' : Ows.Task} (h : Current w J l t)
      (htask : seg.task w t = some t') (hplaced : Placed w J l t seg) (hopen : ¬Ended J (l ++ [seg])) :
      Current w J (l ++ [seg]) t'

theorem follow_snoc {t' : Ows.Task} (h : w.follow w.top l = some t) (htask : seg.task w t = some t') :
    w.follow w.top (l ++ [seg]) = some t' := by
  rw [follow_append, h, Option.bind_some, Workflow.follow, htask]
  rfl

theorem Current.follow (h : Current w J l t) : w.follow w.top l = some t := by
  induction h with
  | top => rfl
  | enter _ htask _ _ ih => exact follow_snoc ih htask

theorem Current.isSome (h : Current w J l t) : (w.follow w.top l).isSome := by
  rw [h.follow]
  rfl

theorem follow_initial (h : (w.follow w.top (l ++ m)).isSome) : (w.follow w.top l).isSome := by
  rw [follow_append] at h
  cases hl : w.follow w.top l with
  | none => rw [hl] at h; cases h
  | some _ => rfl

theorem Current.grows (h : Current w J m t) (hgrows : Grows J J')
    (hopen : ∀ p, p <+: m → Ended J' p → Ended J p) : Current w J' m t := by
  induction h with
  | top => exact .top
  | enter _ htask hplaced hnot ih =>
    refine .enter (ih fun p hp => hopen p (hp.trans (List.prefix_append _ _))) htask (hplaced.grows hgrows) ?_
    exact fun hended => hnot (hopen _ (List.prefix_refl _) hended)

/-- The invocations around one in progress are in progress. -/
theorem Current.around (h : Current w J (l ++ seg :: later) t) :
    ∃ t₀, Current w J l t₀ ∧ Placed w J l t₀ seg ∧ ¬Ended J (l ++ [seg]) := by
  generalize hm : l ++ seg :: later = m at h
  induction h generalizing later with
  | top => simp at hm
  | @enter l' seg' t₁ t₂ h htask hplaced hopen ih =>
    -- the segment in question is the last one, or one before it
    rcases List.eq_nil_or_concat later with rfl | ⟨later', last, rfl⟩
    · obtain ⟨rfl, hseg⟩ := List.append_inj' hm rfl
      obtain rfl : seg = seg' := by simpa using hseg
      exact ⟨t₁, h, hplaced, hopen⟩
    · rw [List.concat_eq_append, ← List.cons_append, ← List.append_assoc] at hm
      obtain ⟨hl, -⟩ := List.append_inj' hm rfl
      exact ih hl

/-- No invocation in an attempt that has failed is in progress. -/
theorem Failed.excludes {k index visit : Nat} {name : String} (h : Failed w J l k)
    (hcurrent : Current w J (l ++ .list (.attempt k) index name visit :: later) t) : False := by
  obtain ⟨t₁, tasks₁, n₁, i, visits₁, name₁, ht₁, htasks₁, hpassed₁, hname₁, hfaulted⟩ := h
  obtain ⟨t₀, hcurrent₀, ⟨tasks, n, visits, htasks, hpassed, rfl, -⟩, hopen⟩ := hcurrent.around
  obtain rfl : t₁ = t₀ := Option.some.inj (ht₁.symm.trans hcurrent₀.follow)
  obtain rfl := Option.some.inj (htasks₁.symm.trans htasks)
  -- the task that is in progress is one of the list
  have hname : (tasks₁.map Prod.fst)[index]? = some name := by
    have hvalid := hcurrent.isSome
    rw [follow_append, hcurrent₀.follow, Option.bind_some] at hvalid
    obtain ⟨t', htask, -⟩ := follow_cons hvalid
    obtain ⟨tasks', htasks', hat⟩ := Segment.task_list htask
    obtain rfl := Option.some.inj (htasks.symm.trans htasks')
    rw [taskAt] at hat
    obtain ⟨row, hrow, hif⟩ := Option.bind_eq_some_iff.mp hat
    split at hif
    · next hrowname => rw [List.getElem?_map, hrow, Option.map_some, hrowname]
    · cases hif
  -- it has no result, and neither has the one that has failed: the lists are at the same place
  have hstuck : flowOf J (l ++ [.list (.attempt k) index name (visits index)]) = none := by
    by_contra hflow
    obtain ⟨flow, hflow⟩ := Option.ne_none_iff_exists'.mp hflow
    exact hopen (ended_of_flowOf hflow)
  obtain ⟨rfl, rfl, rfl⟩ :=
    stuck_unique hpassed₁ hname₁ (flowOf_of_faulted hfaulted) hpassed hname hstuck
  exact hopen hfaulted.ended

/-! ### What may be done -/

/-- The journal that the saves leave. -/
def journalOf : List Act → Table String Record
  | [] => .empty
  | .save key _ r :: log => (journalOf log).put key r
  | .begin_ :: log | .send .. :: log => journalOf log

/-- The call is not proved not to have run. -/
def standing : CallState → Bool
  | .notExecuted _ => false
  | _ => true

/-- A call with the logical identity, delivered at most once, that is not proved not to have run. -/
def Record.stands (logical : String) : Record → Bool
  | .call l _ _ .atMostOnce state _ => decide (l = logical) && standing state
  | _ => false

theorem stands_iff {logical : String} {r : Record} : Record.stands logical r = true ↔
    ∃ name args state ann, r = .call logical name args .atMostOnce state ann ∧ standing state = true := by
  cases r with
  | call l name args delivery state ann =>
    cases delivery with
    | atLeastOnce => simp [Record.stands]
    | atMostOnce => simp [Record.stands]
  | _ => simp [Record.stands]

/-- What may be saved for an invocation in progress. -/
inductive Rule (w : Ows.Workflow) (ceiling : Nat) (J : Table String Record) (m : List Segment) :
    RecordKind → Record → Prop where
  | task {ms : Int} {result : Option TaskResult} : Rule w ceiling J m .task (.task ms result)
  /-- The first intent of a call, which no earlier attempt may have made. -/
  | intent {name : String} {args : Json} {delivery : Delivery} (hnone : J.get (recordKey m .call) = none)
      (hsafe : delivery = .atMostOnce → firstAttempts m ≠ m → ∀ k r, k ≠ recordKey m .call →
        J.get k = some r → Record.stands (reference (firstAttempts m)) r = false) :
      Rule w ceiling J m .call (.call (reference (firstAttempts m)) name args delivery .pending .empty)
  /-- The intent of a call that may be sent again. -/
  | again {logical name : String} {args : Json} {ann : Table String Annotation}
      (hpending : J.get (recordKey m .call) = some (.call logical name args .atLeastOnce .pending ann)) :
      Rule w ceiling J m .call (.call logical name args .atLeastOnce .pending .empty)
  | answer {logical name : String} {args : Json} {delivery : Delivery} {state : CallState}
      {ann ann' : Table String Annotation}
      (hpending : J.get (recordKey m .call) = some (.call logical name args delivery .pending ann))
      (hstate : state ≠ .pending) : Rule w ceiling J m .call (.call logical name args delivery state ann')
  /-- The decision on another attempt, once one has failed. -/
  | decision {k : Nat} {delay : Option Nat} (hnone : J.get (recordKey m (.decision k)) = none)
      (hfailed : Failed w J m k) (hceiling : delay.isSome → k < ceiling) :
      Rule w ceiling J m (.decision k) (.retry delay)
  | wait {ms : Int} (hnone : J.get (recordKey m .wait) = none) : Rule w ceiling J m .wait (.timer ms)
  | retry {k : Nat} {ms : Int} (hnone : J.get (recordKey m (.retry k)) = none) :
      Rule w ceiling J m (.retry k) (.timer ms)
  | jump {granted : Bool} {spent : Nat} {by_ : Option String} (hnone : J.get (recordKey m .jump) = none) :
      Rule w ceiling J m .jump (.budget granted spent by_)

/-- What an execution may do for the task at `l` and those inside it. -/
inductive Does (w : Ows.Workflow) (ceiling : Nat) (l : List Segment) (log : List Act) : Act → Prop where
  | save {m : List Segment} {kind : RecordKind} {r : Record} {t : Ows.Task} (hl : l <+: m)
      (hcurrent : Current w (journalOf log) m t)
      (htakes : takes (journalOf log) (recordKey m kind) r = true)
      (hrule : Rule w ceiling (journalOf log) m kind r) :
      Does w ceiling l log (.save (recordKey m kind) ((journalOf log).get (recordKey m kind)) r)
  /-- A call is handed over while its intent is pending; one that is delivered at most once, right after its
  first intent was saved. -/
  | send {m : List Segment} {t : Ows.Task} {logical name : String} {args : Json} {delivery : Delivery}
      (hl : l <+: m) (hcurrent : Current w (journalOf log) m t)
      (hpending : (journalOf log).get (recordKey m .call) =
        some (.call logical name args delivery .pending .empty))
      (hfresh : delivery = .atMostOnce → ∃ rest, log =
        .save (recordKey m .call) none (.call logical name args .atMostOnce .pending .empty) :: rest) :
      Does w ceiling l log (.send (recordKey m .call) logical name args delivery)

/-- Acts for the task at `l` and those inside it, from one log to another. -/
inductive Trail (w : Ows.Workflow) (ceiling : Nat) (l : List Segment) (log : List Act) : List Act → Prop where
  | refl : Trail w ceiling l log log
  | act {log' : List Act} {a : Act} (h : Trail w ceiling l log log') (ha : Does w ceiling l log' a) :
      Trail w ceiling l log (a :: log')

variable {ceiling : Nat} {log log' log'' : List Act} {a : Act} {p : List Segment}

theorem Trail.trans (h : Trail w ceiling l log log') (h' : Trail w ceiling l log' log'') :
    Trail w ceiling l log log'' := by
  induction h' with
  | refl => exact h
  | act _ ha ih => exact .act ih ha

theorem Does.wider (h : Does w ceiling m log a) (hl : l <+: m) : Does w ceiling l log a := by
  cases h with
  | save hm hcurrent htakes hrule => exact .save (hl.trans hm) hcurrent htakes hrule
  | send hm hcurrent hpending hfresh => exact .send (hl.trans hm) hcurrent hpending hfresh

theorem Trail.wider (h : Trail w ceiling m log log') (hl : l <+: m) : Trail w ceiling l log log' := by
  induction h with
  | refl => exact .refl
  | act _ ha ih => exact .act ih (ha.wider hl)

theorem Does.grows (h : Does w ceiling l log a) : Grows (journalOf log) (journalOf (a :: log)) := by
  cases h with
  | save _ _ htakes _ => exact grows_put htakes
  | send => exact .refl _

theorem Trail.grows (h : Trail w ceiling l log log') : Grows (journalOf log) (journalOf log') := by
  induction h with
  | refl => exact .refl _
  | act _ ha ih => exact ih.trans ha.grows

/-- No task but `l` and those inside it gets a result. -/
theorem Does.ended (h : Does w ceiling l log a) (hp : (w.follow w.top p).isSome) (hl : ¬l <+: p)
    (hended : Ended (journalOf (a :: log)) p) : Ended (journalOf log) p := by
  cases h with
  | send => exact hended
  | @save m kind r t hm hcurrent htakes hrule =>
    obtain ⟨ms, result, hget⟩ := hended
    -- its own results and those inside it apart, the journal says the same
    rw [journalOf, Table.get_put_ne] at hget
    · exact ⟨ms, result, hget⟩
    -- the key tells the invocation
    · intro hkey
      exact hl ((recordKey_inj hcurrent.isSome hp hkey).1 ▸ hm)

theorem Trail.ended (h : Trail w ceiling l log log') (hp : (w.follow w.top p).isSome) (hl : ¬l <+: p)
    (hended : Ended (journalOf log') p) : Ended (journalOf log) p := by
  induction h with
  | refl => exact hended
  | act _ ha ih => exact ih (ha.ended hp hl hended)

theorem not_prefix_initial (hp : p <+: l) : ¬l ++ [seg] <+: p := by
  intro h
  have hlength := (h.trans hp).length_le
  rw [List.length_append, List.length_singleton] at hlength
  omega

/-- What is done for a task inside leaves the one around it in progress. -/
theorem Trail.current (h : Trail w ceiling (l ++ [seg]) log log') (hcurrent : Current w (journalOf log) l t) :
    Current w (journalOf log') l t := by
  refine hcurrent.grows h.grows fun p hp => h.ended ?_ (not_prefix_initial hp)
  obtain ⟨later, rfl⟩ := hp
  exact follow_initial hcurrent.isSome

/-- A record that is not the result of a task leaves the invocations in progress. -/
theorem Current.put (h : Current w J l t) {k : String} {r : Record} (htakes : takes J k r = true)
    (hr : ∀ ms result, r ≠ .task ms (some result)) : Current w (J.put k r) l t := by
  refine h.grows (grows_put htakes) fun p _ hended => ?_
  obtain ⟨ms, result, hget⟩ := hended
  rw [Table.get_put] at hget
  split at hget
  · exact absurd (Option.some.inj hget) (hr ms result)
  · exact ⟨ms, result, hget⟩

/-! ### Whole runs -/

/-- What a run may have done: executions begin, save the run's own records, and do what they may. -/
inductive Legal (w : Ows.Workflow) (ceiling : Nat) : List Act → Prop where
  | nil : Legal w ceiling []
  | begin_ {log : List Act} (h : Legal w ceiling log) : Legal w ceiling (.begin_ :: log)
  | own {log : List Act} {key : String} {r : Record} (h : Legal w ceiling log)
      (hkey : key = executionKey ∨ key = finishedKey) (htakes : takes (journalOf log) key r = true)
      (hown : ∀ logical name args delivery state ann, r ≠ .call logical name args delivery state ann) :
      Legal w ceiling (.save key ((journalOf log).get key) r :: log)
  | act {log : List Act} {a : Act} (h : Legal w ceiling log) (ha : Does w ceiling [] log a) :
      Legal w ceiling (a :: log)

theorem Legal.trail (h : Legal w ceiling log) (htrail : Trail w ceiling l log log') : Legal w ceiling log' := by
  induction htrail with
  | refl => exact h
  | act _ ha ih => exact .act ih (ha.wider (List.nil_prefix))

theorem Legal.before {after before : List Act} (h : Legal w ceiling (after ++ before)) :
    Legal w ceiling before := by
  induction after with
  | nil => exact h
  | cons a after ih =>
    rw [List.cons_append] at h
    generalize hlog : after ++ before = log at h
    cases h with
    | begin_ h | own h | act h => exact ih (hlog ▸ h)

theorem hash_mem_recordKey (l : List Segment) (kind : RecordKind) : '#' ∈ (recordKey l kind).toList := by
  rw [recordKey, String.toList_append]
  refine List.mem_append_right _ ?_
  cases kind <;> simp [RecordKind.spell]

theorem own_ne_recordKey {key : String} (h : key = executionKey ∨ key = finishedKey) (l : List Segment)
    (kind : RecordKind) : key ≠ recordKey l kind := by
  intro heq
  have hmem := hash_mem_recordKey l kind
  rw [← heq] at hmem
  rcases h with rfl | rfl
  · exact absurd hmem (by decide)
  · exact absurd hmem (by decide)

end Ouro.Interp
