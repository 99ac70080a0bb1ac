import Ouro.Ows.Conduct

/-!
# What executions do

Tasks of every kind, and from them whole executions: what an execution does is legal after what those before
it did, whatever they met (`history_legal`).

A task's own frame is tied here. An execution comes to a task by its record (`Entry`): the result is restored,
the ceiling refuses it, or the task starts and is around whatever it does (`Around`) until its result is saved.
So one level of tasks keeps what the level below it keeps (`task_keeps`, by induction on the depth), a workflow
is a list without a task around it, and an execution is its workflow between two records of the run's own.
-/

namespace Ouro.Interp

open Lib Ows Prog

variable {α : Type} {w : Ows.Workflow} {ceiling : Nat} {l : List Segment} {t : Ows.Task} {t' : Task}
  {J : Table String Record} {seg : Segment} {task : TaskFn} {E : Env}

/-- The workflow that the paths of an execution are paths of, and its ceiling on attempts. -/
abbrev Env.Safe (E : Env) (l : List Segment) (t : Task) (m : M α) : Prop :=
  Interp.Safe E.wf.erase E.host.limits.maxAttempts.toNat l t.erase m

abbrev Env.TaskKeeps (E : Env) (task : TaskFn) : Prop :=
  Interp.TaskKeeps E.wf.erase E.host.limits.maxAttempts.toNat task

/-! ### One task -/

theorem kind_safe (htask : E.TaskKeeps task) (fuel : Nat) (input : Json) (scope : Scope) (desc : Json)
    (startedMs : Int) : E.Safe l t' (E.kind task fuel t' l input scope desc startedMs) := by
  unfold Env.kind
  refine safe_bind (quiet_gets _).safe fun ctx => safe_bind (E.quiet_args _ _ _ _ _).safe fun args => ?_
  -- one case for each kind of task; the lists inside run by the lemmas of their construct
  have hkind := t'.erase_kind
  split
  · next function with_ h =>
    rw [h, Kind.erase] at hkind
    refine safe_bind ?_ fun callArgs => safe_bind (call_safe E htask ?_ _ _) fun out => safe_pure _
    · split
      · exact (E.quiet_template _ _ _).safe
      · exact safe_pure _
    · rintro name hname
      exact ⟨function, with_, hkind, Target.function.inj hname⟩
  · next tasks h =>
    rw [h, Kind.erase] at hkind
    refine safe_bind (listOf_safe E htask ?_ (fun _ h => by cases h) _ _ _) fun next => safe_pure _
    rw [Task.nested, hkind]
  · next each at_ it condition tasks h =>
    rw [h, Kind.erase] at hkind
    refine safe_bind (E.quiet_items _ _ _).safe fun items => ?_
    exact passes_safe E htask fuel hkind _ _ _ _ _
  · exact safe_bind (E.quiet_eval _ _ _).safe fun out => safe_pure _
  · exact safe_bind (E.quiet_template _ _ _).safe fun out => safe_pure _
  · refine safe_bind (E.quiet_firstCase _ _ _).safe fun flow => ?_
    split <;> exact safe_pure _
  · next tasks c h =>
    rw [h, Kind.erase] at hkind
    exact Upholds.at_ _ (attempt_safe E htask hkind fuel input scope desc ctx startedMs fuel _)
      fun s _ _ hk => absurd hk (by decide)
  · exact safe_bind (E.quiet_raised _ _ _ _).safe fun e => (quiet_raise _).safe
  · exact safe_bind (Env.quiet_decide _).safe fun d => safe_bind (sleep_safe E d (.inl rfl)) fun _ => safe_pure _
  · exact safe_bind (runProcess_safe E _ _ _ _) fun out => safe_pure _

theorem finish_safe (htask : E.TaskKeeps task) (input : Json) (scope : Scope) (desc out : Json)
    (flow : Option Flow) : E.Safe l t' (E.finish task t' l input scope desc out flow) := by
  unfold Env.finish
  refine safe_bind ((E.quiet_transformed _ _ (quiet_bind (quiet_gets _) fun ctx => E.quiet_args _ _ _ _ _)).safe)
    fun out => safe_bind (E.quiet_conformTo _ _ _).safe fun _ => safe_bind ?_ fun _ =>
      safe_bind (quiet_gets _).safe fun ctx => safe_bind (E.quiet_conformTo _ _ _).safe fun _ =>
        safe_bind ?_ fun _ => safe_pure _
  · unfold Env.exported
    split
    · exact safe_pure _
    · exact safe_bind (quiet_gets _).safe fun ctx => safe_bind (E.quiet_args _ _ _ _ _).safe fun args =>
        safe_bind (E.quiet_transform _ _ _).safe fun ctx => safe_sets fun s => ⟨rfl, rfl, rfl⟩
  · unfold Env.follow
    split
    · refine safe_bind (jump_safe E) fun first => ?_
      split
      · exact safe_pure _
      · exact onExceeded_safe E htask _ _ _
    · exact safe_pure _

theorem steps_safe (htask : E.TaskKeeps task) (fuel : Nat) (name : String) (raw : Json) (scope : Scope)
    (startedMs : Int) : E.Safe l t' (E.steps task fuel t' name l raw scope startedMs) := by
  unfold Env.steps
  refine safe_bind (quiet_gets _).safe fun ctx => ?_
  refine safe_bind (E.quiet_test _ _ (E.quiet_args _ _ _ _ _)).safe fun goes => ?_
  split
  · refine safe_bind (E.quiet_conformTo _ _ _).safe fun _ => ?_
    refine safe_bind (E.quiet_transformed _ _ (quiet_bind (E.quiet_args _ _ _ _ _) fun args =>
      quiet_pure _)).safe fun input => ?_
    refine Upholds.bind (extensions_keeps E _ _ _ _) (fun found => ?_) fun _ _ _ => trivial
    obtain ⟨extensions, described⟩ := found
    refine Upholds.intro fun s _ hfound => Safe.from (safe_bind ?_ fun out => ?_)
    · exact layer_safe E htask fuel _ (fun v => kind_safe htask fuel v scope _ startedMs) (hfound _ rfl) _
    · exact finish_safe htask _ _ _ _ _
  · exact safe_pure _

/-! ### Entering and leaving -/

/-- What is in progress inside a task is so inside the one around it. -/
theorem Around.outer {s : State} (h : Around w (l ++ [seg]) t s) {t₀ : Ows.Task}
    (ht₀ : w.follow w.top l = some t₀) : Around w l t₀ s where
  journal := h.journal
  current := by
    obtain ⟨t₁, hcurrent, -, -⟩ := h.current.around
    obtain rfl := Option.some.inj (hcurrent.follow.symm.trans ht₀)
    exact hcurrent
  registers := h.registers
  registered := fun first k index name visit later hcut =>
    h.registered first k index name visit (later ++ [seg]) (by rw [hcut, List.append_assoc, List.cons_append])

theorem Going.outer {s s' : State} (h : Going w ceiling (l ++ [seg]) s s') : Going w ceiling l s s' where
  trail := h.trail.wider (List.prefix_append _ _)
  attempts := h.attempts

theorem leaves_error {e : Fault} (h : catchable e = false) : Leaves J l (.error e) := fun hcatch => by
  rw [h] at hcatch
  cases hcatch

theorem leaves_of_outcome_none {r : Except Fault (Json × Flow)} (h : outcome r = none) : Leaves J l r := by
  cases r with
  | ok out => cases h
  | error e =>
    cases e with
    | error e => cases h
    | fatal e => cases h
    | _ => exact leaves_error rfl

/-- The saved result is what the task leaves. -/
theorem leaves_of_outcome {r : Except Fault (Json × Flow)} {o : StepOutcome} {ms : Int} {ctx : Json}
    (h : outcome r = some o) (hget : J.get (recordKey l .task) = some (.task ms (some ⟨ctx, o⟩))) :
    Leaves J l r := by
  cases r with
  | ok out =>
    obtain rfl := Option.some.inj h
    exact flowOf_eq_some.mpr ⟨_, _, _, hget⟩
  | error e =>
    cases e with
    | error e =>
      obtain rfl := Option.some.inj h
      exact fun _ => ⟨_, _, _, _, hget⟩
    | fatal e =>
      obtain rfl := Option.some.inj h
      exact fun _ => ⟨_, _, _, _, hget⟩
    | _ => cases h

theorem leaves_restored {o : StepOutcome} {ms : Int} {ctx : Json}
    (hget : J.get (recordKey l .task) = some (.task ms (some ⟨ctx, o⟩))) : Leaves J l (restored o) := by
  refine leaves_of_outcome ?_ hget
  cases o with
  | completed output flow => rfl
  | faulted e fatal => cases fatal <;> rfl

/-- The task at the end of the path has been run, and what it left is saved. -/
theorem leave_keeps {t₀ : Ows.Task} (hfollow : w.follow w.top l = some t₀) {reference : String}
    {startedMs : Int} {result : Except Fault (Json × Flow)} {W : Weather} {s : State}
    (hs : Around w (l ++ [seg]) t s) :
    Going w ceiling l s (Env.leave (recordKey (l ++ [seg]) .task) reference startedMs result W s).2 ∧
    Around w l t₀ (Env.leave (recordKey (l ++ [seg]) .task) reference startedMs result W s).2 ∧
    Leaves (Env.leave (recordKey (l ++ [seg]) .task) reference startedMs result W s).2.records (l ++ [seg])
      (Env.leave (recordKey (l ++ [seg]) .task) reference startedMs result W s).1 := by
  -- the result is saved with the reference of a fault added, unless the run itself stops
  generalize hresult : locate reference result = r
  cases ho : outcome r with
  | none =>
    have hleave : Env.leave (recordKey (l ++ [seg]) .task) reference startedMs result = Prog.lift r := by
      unfold Env.leave
      simp only [hresult, ho]
    rw [hleave]
    exact ⟨⟨.refl, List.Subset.refl _⟩, hs.outer hfollow, leaves_of_outcome_none ho⟩
  | some o =>
    have hleave : Env.leave (recordKey (l ++ [seg]) .task) reference startedMs result =
        (do
          let ctx ← Prog.gets State.ctx
          save (recordKey (l ++ [seg]) .task) (.task startedMs (some ⟨ctx, o⟩))
          Prog.lift r) := by
      unfold Env.leave
      simp only [hresult, ho]
    rw [hleave, Prog.bind_ok (show Prog.gets State.ctx W s = (.ok s.ctx, s) from rfl)]
    -- the record was refused, or put; a refused save stops the run
    rcases save_cases (recordKey (l ++ [seg]) .task) (.task startedMs (some ⟨s.ctx, o⟩)) W s with
      ⟨e, hout, hsame⟩ | ⟨htakes, hsame, hout⟩
    · rw [Prog.bind_error (Prod.ext hout rfl)]
      exact ⟨hsame.going, (hsame.around hs).outer hfollow, leaves_error rfl⟩
    -- with the record the task around is current again
    · have htrail : Trail w ceiling (l ++ [seg]) s.log
          (s.put (recordKey (l ++ [seg]) .task) (.task startedMs (some ⟨s.ctx, o⟩))).log := hs.saves htakes .task
      have hjournal : (s.put (recordKey (l ++ [seg]) .task) (.task startedMs (some ⟨s.ctx, o⟩))).records =
          journalOf (s.put (recordKey (l ++ [seg]) .task) (.task startedMs (some ⟨s.ctx, o⟩))).log := by
        change s.records.put _ _ = (journalOf s.log).put _ _
        rw [hs.journal]
      have houter := hs.outer hfollow
      have hput : Around w l t₀ (s.put (recordKey (l ++ [seg]) .task) (.task startedMs (some ⟨s.ctx, o⟩))) := by
        refine ⟨hjournal, ?_, houter.registers, houter.registered⟩
        have hcurrent := houter.current
        rw [hs.journal] at hcurrent
        rw [hjournal]
        exact htrail.current hcurrent
      have hgoing : Going w ceiling l s (save (recordKey (l ++ [seg]) .task)
          (.task startedMs (some ⟨s.ctx, o⟩)) W s).2 := by
        refine ⟨?_, ?_⟩
        · rw [hsame.log]
          exact htrail.wider (List.prefix_append _ _)
        · rw [hsame.attempts]
          exact List.Subset.refl _
      -- the save answered, or failed for its caller although it was committed
      rcases hout with hout | ⟨e, hout⟩
      · rw [Prog.bind_ok (Prod.ext hout rfl)]
        have hget : (save (recordKey (l ++ [seg]) .task) (.task startedMs (some ⟨s.ctx, o⟩)) W s).2.records.get
            (recordKey (l ++ [seg]) .task) = some (.task startedMs (some ⟨s.ctx, o⟩)) := by
          rw [hsame.records]
          change (s.records.put _ _).get _ = _
          rw [Table.get_put, if_pos rfl]
        exact ⟨hgoing, hsame.around hput, leaves_of_outcome ho hget⟩
      · rw [Prog.bind_error (Prod.ext hout rfl)]
        exact ⟨hgoing, hsame.around hput, leaves_error rfl⟩

/-- A task without a result is counted, unless it has a record, and starts. -/
inductive Starts (E : Env) (key : String) (W : Weather) (s : State) : State → Int → Prop where
  | first (h : s.records.get key = none) (hmax : s.tasksRun < E.host.limits.maxTasks) :
      Starts E key W s { s with tasksRun := s.tasksRun + 1, tick := s.tick + 1 } (W.now s.tick)
  | again {ms : Int} (h : s.records.get key = some (.task ms none)) : Starts E key W s s ms
  | other {r : Record} (h : s.records.get key = some r) (hr : ∀ ms result, r ≠ .task ms result) :
      Starts E key W s { s with tick := s.tick + 1 } (W.now s.tick)

/-- How an execution comes to a task. -/
inductive Entry (E : Env) (key reference : String) (W : Weather) (s : State) :
    Except Fault (TaskResult ⊕ Int) × State → Prop where
  | restored {ms : Int} {result : TaskResult} (h : s.records.get key = some (.task ms (some result))) :
      Entry E key reference W s (.ok (.inl result), s)
  | refused (h : s.records.get key = none) (hmax : E.host.limits.maxTasks ≤ s.tasksRun) :
      Entry E key reference W s (.error (.fatal (exhausted E.host.limits.maxTasks reference)),
        { s with tasksRun := s.tasksRun + 1 })
  | stopped {s₁ t : State} {ms : Int} {e : Fault} (h : Starts E key W s s₁ ms)
      (hsave : save key (.task ms none) W s₁ = (.error e, t)) : Entry E key reference W s (.error e, t)
  | started {s₁ t : State} {ms : Int} (h : Starts E key W s s₁ ms)
      (hsave : save key (.task ms none) W s₁ = (.ok (), t)) : Entry E key reference W s (.ok (.inr ms), t)

theorem entry_of_starts {key reference : String} {W : Weather} {s s₁ : State} {ms : Int}
    (h : Starts E key W s s₁ ms) :
    Entry E key reference W s ((do save key (.task ms none); pure (.inr ms) : M (TaskResult ⊕ Int)) W s₁) := by
  cases hsave : save key (.task ms none) W s₁ with
  | mk r t =>
    cases r with
    | ok u =>
      rw [Prog.bind_ok hsave]
      exact .started h hsave
    | error e =>
      rw [Prog.bind_error hsave]
      exact .stopped h hsave

theorem entry_cases (E : Env) (key reference : String) (W : Weather) (s : State) :
    Entry E key reference W s (E.entry key reference W s) := by
  have hrecord : record key W s = (.ok (s.records.get key), s) := rfl
  unfold Env.entry
  rw [Prog.bind_ok hrecord]
  -- the task has no record: it counts, and starts for the first time
  cases hprior : s.records.get key with
  | none =>
    have hcount : E.count reference W s = if E.host.limits.maxTasks ≤ s.tasksRun then
        (.error (.fatal (exhausted E.host.limits.maxTasks reference)), { s with tasksRun := s.tasksRun + 1 })
        else (.ok (), { s with tasksRun := s.tasksRun + 1 }) := by
      change (if E.host.limits.maxTasks ≤ s.tasksRun then _ else _ : M Unit) W _ = _
      split <;> rfl
    change Entry E key reference W s ((E.count reference >>= fun _ => ask Weather.now >>= fun ms =>
      save key (.task ms none) >>= fun _ => pure (.inr ms)) W s)
    split_ifs at hcount with hmax
    · rw [Prog.bind_error hcount]
      exact .refused hprior hmax
    · rw [Prog.bind_ok hcount]
      exact entry_of_starts (.first hprior (not_le.mp hmax))
  -- it has one: its result is restored, or it starts again
  | some r =>
    cases r with
    | task ms result =>
      cases result with
      | some result => exact .restored hprior
      | none => exact entry_of_starts (.again hprior)
    | _ => exact entry_of_starts (.other hprior fun _ _ h => by cases h)

theorem Starts.same {key : String} {W : Weather} {s s₁ : State} {ms : Int} (h : Starts E key W s s₁ ms) :
    Same s s₁ := by
  cases h with
  | first => exact ⟨rfl, rfl, rfl⟩
  | again => exact .refl s
  | other => exact ⟨rfl, rfl, rfl⟩

theorem Starts.not_ended {W : Weather} {s s₁ : State} {ms : Int} (h : Starts E (recordKey l .task) W s s₁ ms) :
    ¬Ended s.records l := by
  rintro ⟨ms', result, hget⟩
  cases h with
  | first h => rw [hget] at h; cases h
  | again h => rw [hget] at h; cases h
  | other h hr => exact hr _ _ (Option.some.inj (h.symm.trans hget))

/-- A task that is started is in progress. -/
theorem entry_keeps {t₀ : Ows.Task} {reference : String} (hsegment : seg.task w t₀ = some t) :
    Upholds (frame w ceiling l t₀) (Reaches w l t₀ seg) (E.entry (recordKey (l ++ [seg]) .task) reference)
      fun r s => (∀ e, r = .error e → catchable e = false) ∧
        (∀ result, r = .ok (.inl result) →
          ∃ ms, s.records.get (recordKey (l ++ [seg]) .task) = some (.task ms (some result))) ∧
        ∀ ms, r = .ok (.inr ms) → Around w (l ++ [seg]) t s := by
  rintro W s hs ⟨hplaced, hregistered⟩
  have hfollow := hs.current.follow
  -- from a state in which the task has started, it is saved that it has
  have hsaved : ∀ {s₁ ms}, Starts E (recordKey (l ++ [seg]) .task) W s s₁ ms →
      Going w ceiling l s (save (recordKey (l ++ [seg]) .task) (.task ms none) W s₁).2 ∧
        Around w (l ++ [seg]) t (save (recordKey (l ++ [seg]) .task) (.task ms none) W s₁).2 := by
    intro s₁ ms h
    have hinner : Around w (l ++ [seg]) t s₁ := h.same.around
      ⟨hs.journal, .enter hs.current hsegment hplaced h.not_ended, hs.registers, hregistered⟩
    have hstarted : ∀ ms' result, Record.task ms none ≠ .task ms' (some result) := fun _ _ h => by cases h
    obtain ⟨hgoing, hsaved, -⟩ := save_keeps (s₁.records.get (recordKey (l ++ [seg]) .task)) hstarted W s₁ hinner
      ⟨rfl, Rule.task⟩
    have hsame : Going w ceiling l s s₁ := h.same.going
    exact ⟨(frame w ceiling l t₀).trans hsame (Going.outer hgoing), hsaved⟩
  -- how the execution may come to the task
  have hentry := entry_cases E (recordKey (l ++ [seg]) .task) reference W s
  generalize E.entry (recordKey (l ++ [seg]) .task) reference W s = out at hentry ⊢
  cases hentry with
  | restored h =>
    refine ⟨(frame w ceiling l t₀).refl s, hs, fun _ h => (by cases h), fun result heq => ?_, fun _ h => by cases h⟩
    cases heq
    exact ⟨_, h⟩
  | refused =>
    have hsame : Same s { s with tasksRun := s.tasksRun + 1 } := ⟨rfl, rfl, rfl⟩
    refine ⟨hsame.going, hsame.around hs, fun e heq => ?_, fun _ h => (by cases h), fun _ h => by cases h⟩
    cases heq
    exact standard_not_catchable rfl
  | @stopped s₁ t' ms e h hsave =>
    obtain ⟨hgoing, hinner⟩ := hsaved h
    rw [hsave] at hgoing hinner
    refine ⟨hgoing, hinner.outer hfollow, fun e' heq => ?_, fun _ h => (by cases h), fun _ h => by cases h⟩
    cases heq
    rcases save_cases (recordKey (l ++ [seg]) .task) (.task ms none) W s₁ with ⟨e', h, -⟩ | ⟨-, -, h | ⟨e', h⟩⟩
    · rw [hsave] at h
      cases h
      rfl
    · rw [hsave] at h
      cases h
    · rw [hsave] at h
      cases h
      rfl
  -- the task has started, and what it does is inside it
  | started h hsave =>
    obtain ⟨hgoing, hinner⟩ := hsaved h
    rw [hsave] at hgoing hinner
    exact ⟨hgoing, hinner.outer hfollow, fun _ h => (by cases h), fun _ h => (by cases h), fun _ _ => hinner⟩

theorem task_keeps (fuel : Nat) : E.TaskKeeps (E.task fuel) := by
  -- induction on the depth; inside, tasks are those of the level below
  induction fuel with
  | zero => exact fun t name l t₀ seg raw scope _ => (keeps_fail _).weaken fun r s hr => hr.1 ▸ leaves_error rfl
  | succ fuel ih =>
    intro t name l t₀ seg raw scope hsegment
    have hquiet : ∀ s s', Same s s' → Reaches E.wf.erase l t₀ seg s → Reaches E.wf.erase l t₀ seg s' :=
      fun s s' h hp => h.reaches hp
    have hstop : ∀ {pre : State → Prop} (e : Fault), catchable e = false →
        Upholds (frame E.wf.erase E.host.limits.maxAttempts.toNat l t₀) pre (Prog.fail e : M (Json × Flow))
          fun r s => Leaves s.records (l ++ [seg]) r := fun e he =>
      (keeps_fail e).weaken fun r s hr => hr.1 ▸ leaves_error he
    have hset : ∀ f : State → State, (∀ s, Same s (f s)) → Quiet (Prog.sets f : M Unit) := fun f hf => quiet_sets hf
    unfold Env.task
    -- a cancelled run stops at its next task
    refine (quiet_ask _).first (fun W s => ⟨_, rfl⟩) hquiet fun cancelled => ?_
    split
    · exact hstop _ rfl
    · refine Quiet.first (hset _ fun s => ?_) (fun W s => ⟨_, rfl⟩) hquiet fun _ => ?_
      · exact ⟨rfl, rfl, rfl⟩
      -- a handler of the spent budget may have taken over
      refine (quiet_gets _).first (fun W s => ⟨_, rfl⟩) hquiet fun handler => ?_
      split
      · exact hstop _ (standard_not_catchable rfl)
      · refine Upholds.bind (entry_keeps hsegment) (fun entered => ?_) fun e s hp => leaves_error (hp.1 e rfl)
        split
        · next result =>
          -- the result was saved by an earlier execution
          refine Upholds.at_ (fun s => ∃ ms, s.records.get (recordKey (l ++ [seg]) .task) =
            some (.task ms (some result))) ?_ fun s _ hp => hp.2.1 result rfl
          refine Quiet.first (hset _ fun s => ?_) (fun W s => ⟨_, rfl⟩) ?_ fun _ => ?_
          · exact ⟨rfl, rfl, rfl⟩
          · rintro s s' h ⟨ms, hget⟩
            exact ⟨ms, h.get hget⟩
          refine (keeps_lift _).weaken fun r s hr => ?_
          obtain ⟨rfl, ms, hget⟩ := hr
          exact leaves_restored hget
        -- the task starts: its steps, and then its result
        · next startedMs =>
          intro W s hs hp
          have hfollow := hs.current.follow
          have hinner : Around E.wf.erase (l ++ [seg]) t.erase s := hp.2.2 startedMs rfl
          obtain ⟨hgoing, hinner', -⟩ :=
            steps_safe ih fuel name raw scope startedMs W s hinner trivial
          obtain ⟨hgoing', hs', hleaves⟩ := leave_keeps hfollow hinner'
          exact ⟨(frame _ _ l t₀).trans hgoing.outer hgoing', hs', hleaves⟩

/-! ### Executions -/

theorem workflow_safe (fuel : Nat) (raw : Json) :
    Interp.Safe E.wf.erase E.host.limits.maxAttempts.toNat [] E.wf.erase.top (E.workflow fuel raw) := by
  unfold Env.workflow
  refine safe_bind (E.quiet_conformTo _ _ _).safe fun _ => ?_
  refine safe_bind (E.quiet_transformed _ _ (quiet_bind (E.quiet_args _ _ _ _ _) fun args =>
    quiet_pure _)).safe fun input => ?_
  refine safe_bind (safe_sets fun s => ⟨rfl, rfl, rfl⟩) fun _ => ?_
  refine safe_bind (listOf_safe E (task_keeps fuel) rfl (fun _ h => by cases h) _ _ _) fun next => ?_
  obtain ⟨out, flow⟩ := ended next
  refine safe_bind (E.quiet_transformed _ _ (quiet_bind (quiet_gets _) fun ctx => E.quiet_args _ _ _ _ _)).safe
    fun out => ?_
  exact safe_bind (E.quiet_conformTo _ _ _).safe fun _ => safe_pure _

/-- The journal is what the saves left, and the run did only what it may. -/
structure Kept (w : Ows.Workflow) (ceiling : Nat) (s : State) : Prop where
  journal : s.records = journalOf s.log
  legal : Legal w ceiling s.log

/-- What a whole execution keeps. -/
def executing (w : Ows.Workflow) (ceiling : Nat) : Frame State where
  inv := Kept w ceiling
  step _ _ := True
  refl _ := trivial
  trans _ _ := trivial

variable {s s' : State} {m : M α} {pre : State → Prop} {post : Except Fault α → State → Prop}

theorem Same.kept (h : Same s s') (hs : Kept w ceiling s) : Kept w ceiling s' where
  journal := by rw [h.records, h.log, hs.journal]
  legal := by rw [h.log]; exact hs.legal

theorem Quiet.executing (hm : Quiet m) (hpre : ∀ s s', Same s s' → pre s → pre s') :
    Upholds (executing w ceiling) pre m fun _ => pre :=
  fun W s hs hp => ⟨trivial, (hm W s).kept hs, hpre _ _ (hm W s) hp⟩

/-- A save of one of the run's own records. -/
theorem own_keeps {key : String} {r : Record} (hkey : key = executionKey ∨ key = finishedKey)
    (hown : ∀ logical name args delivery state ann, r ≠ .call logical name args delivery state ann)
    (hpre : ∀ s s' : State, s'.attempts = s.attempts → pre s → pre s') :
    Upholds (executing w ceiling) pre (save key r) fun _ => pre := by
  intro W s hs hp
  rcases save_cases key r W s with ⟨e, -, hsame⟩ | ⟨htakes, hsame, -⟩
  · exact ⟨trivial, hsame.kept hs, hpre _ _ hsame.attempts hp⟩
  · refine ⟨trivial, hsame.kept ⟨?_, ?_⟩, hpre s _ hsame.attempts hp⟩
    · change s.records.put _ _ = (journalOf s.log).put _ _
      rw [hs.journal]
    · change Legal w ceiling (.save key (s.records.get key) r :: s.log)
      rw [hs.journal] at htakes ⊢
      exact .own hs.legal hkey htakes hown

/-- From the top of the definition, what may be done for its tasks is legal. -/
theorem Safe.executing (hm : Interp.Safe w ceiling [] w.top m) :
    Upholds (executing w ceiling) (fun s => s.attempts = []) m fun _ _ => True := by
  intro W s hs hattempts
  have haround : Around w [] w.top s := by
    refine ⟨hs.journal, .top, ?_, ?_⟩
    · rw [hattempts]
      exact fun a ha => absurd ha List.not_mem_nil
    · exact fun first k index name visit later hcut => absurd hcut (by simp)
  obtain ⟨hgoing, hs', -⟩ := hm W s haround trivial
  exact ⟨trivial, ⟨hs'.journal, hs.legal.trail hgoing.trail⟩, trivial⟩

variable (G : Given)

theorem drive_keeps (fuel : Nat) (fresh : Bool) (startedMs : Int) (runtime : Json) :
    Upholds (executing G.wf.erase G.host.limits.maxAttempts.toNat) (fun s => s.attempts = [])
      (G.drive fuel fresh startedMs runtime) fun _ _ => True := by
  have hattempts : ∀ s s' : State, s'.attempts = s.attempts → s.attempts = [] → s'.attempts = [] :=
    fun s s' h hs => h.trans hs
  unfold Given.drive
  -- the execution itself, and then what is saved of its end
  refine Upholds.handle ?_ fun result => (?_ : Upholds _ (fun _ => True) _ _)
  · refine Upholds.via (fun _ s => s.attempts = []) ?_ (fun _ => ?_) fun _ _ _ => trivial
    -- the record of the execution is put once, before anything else
    · split
      · exact own_keeps (.inl rfl) (fun _ _ _ _ _ _ h => by cases h) hattempts
      · exact (keeps_pure _).weaken fun _ _ h => h.2
    · refine Upholds.bind ((quiet_ask _).executing fun s s' h => hattempts s s' h.attempts) (fun cancelled => ?_)
        fun _ _ _ => trivial
      split
      · exact (keeps_fail _).weaken fun _ _ _ => trivial
      · have hsafe := workflow_safe (E := G.env startedMs runtime) fuel G.input
        exact Safe.executing hsafe
  · split
    · exact (keeps_pure _).weaken fun _ _ _ => trivial
    -- the end is saved unless the run was interrupted
    · split
      · refine Upholds.handle (own_keeps (.inr rfl) (fun _ _ _ _ _ _ h => by cases h) fun _ _ _ => id) fun saved => ?_
        split
        · exact (keeps_pure _).weaken fun _ _ _ => trivial
        · exact (keeps_pure _).weaken fun _ _ _ => trivial
      · exact (keeps_pure _).weaken fun _ _ _ => trivial

theorem stops_keeps (o : Option Status) :
    Upholds (executing G.wf.erase G.host.limits.maxAttempts.toNat) (fun s => s.attempts = [])
      (pure o : M (Option Status)) fun _ _ => True :=
  (keeps_pure _).weaken fun _ _ _ => trivial

theorem proceed_keeps (fuel : Nat) (records : Table String Record) (fresh : Bool) (startedMs : Int)
    (runtime : Json) :
    Upholds (executing G.wf.erase G.host.limits.maxAttempts.toNat) (fun s => s.attempts = [])
      (G.proceed fuel records fresh startedMs runtime) fun _ _ => True := by
  unfold Given.proceed
  -- every check that fails ends the execution at once
  split
  · exact stops_keeps G _
  · split
    · exact stops_keeps G _
    · split
      · exact stops_keeps G _
      · split
        · exact stops_keeps G _
        · exact drive_keeps G fuel _ _ _

theorem execute_keeps (fuel : Nat) :
    Upholds (executing G.wf.erase G.host.limits.maxAttempts.toNat) (fun s => s.attempts = []) (G.execute fuel)
      fun _ _ => True := by
  have hquiet : ∀ s s', Same s s' → s.attempts = [] → s'.attempts = [] := fun s s' h hs => h.attempts.trans hs
  unfold Given.execute
  refine Upholds.bind ((quiet_gets _).executing hquiet) (fun records => ?_) fun _ _ _ => trivial
  split
  · split
    · exact stops_keeps G _
    · split
      · exact proceed_keeps G fuel _ _ _ _
      · exact stops_keeps G _
  · exact stops_keeps G _
  · split
    · exact Upholds.bind ((quiet_ask _).executing hquiet) (fun now => proceed_keeps G fuel _ _ _ _)
        fun _ _ _ => trivial
    · exact stops_keeps G _

/-- Whatever the executions of a run meet, and wherever each stops: the journal is what they saved, and all
they did was legal. -/
theorem history_legal (runs : List (Weather × Nat)) :
    (G.history runs).1 = journalOf (G.history runs).2 ∧
      Legal G.wf.erase G.host.limits.maxAttempts.toNat (G.history runs).2 := by
  induction runs with
  | nil => exact ⟨rfl, .nil⟩
  | cons run earlier ih =>
    obtain ⟨W, fuel⟩ := run
    obtain ⟨hjournal, hlegal⟩ := ih
    have hstart : Kept G.wf.erase G.host.limits.maxAttempts.toNat
        (.load (G.history earlier).1 (G.history earlier).2) := ⟨hjournal, .begin_ hlegal⟩
    obtain ⟨-, hkept, -⟩ := execute_keeps G fuel W _ hstart rfl
    exact ⟨hkept.journal, hkept.legal⟩

end Ouro.Interp
