import Ouro.Durable.Listens

/-!
# Fencing and the life of a run row

`Move.row` says what one move does to the row of one run: nothing, a first row (`NewRow`), or a
change of the stored one (`RowChange`). From it follow, by cases:

* `Sane`: a run is running exactly when it has a fence and exactly when it has a lease, its fence
  carries its own generation, and an ended run has a terminal outcome and neither owner, hold nor
  registrations;
* `RowChange.generation_le`: generations never decrease;
* `RowChange.frozen`: a change leaves an ended row's admission, state, outcome and end as they are.
-/

namespace Ouro

open Lib Engine

variable {env : Env} {now : Int} {may : String → Act → Prop}

/-! ### Rows after moves -/

@[simp] theorem Core.get_set (c : Core) (s : StoredRun) (i : String) :
    (c.set s).run.get i = if s.id = i then some s else c.run.get i :=
  Table.get_put _ _ _ _

/-- Ending the runs of a list, each once. -/
theorem Core.get_ended {c : Core} {end_ : StoredRun → StoredRun} {ids : List String}
    (h : ids.Nodup) (i : String) :
    (c.ended end_ ids).run.get i =
      if i ∈ ids then (c.run.get i).map end_ else c.run.get i := by
  unfold Core.ended
  simp only
  induction ids generalizing c with
  | nil => simp
  | cons j ids ih =>
    obtain ⟨hj, hnodup⟩ := List.nodup_cons.mp h
    rw [List.foldl_cons]
    have hstep := @ih { c with
      run := (c.run.get j).elim c.run fun s => c.run.put j (end_ s) } hnodup
    simp only at hstep
    rw [hstep]
    have hget : ((c.run.get j).elim c.run fun s => c.run.put j (end_ s)).get i =
        if i = j then (c.run.get i).map end_ else c.run.get i := by
      cases hrow : c.run.get j with
      | none =>
        by_cases hij : i = j
        · subst hij; simp [hrow]
        · simp [hij]
      | some s =>
        by_cases hij : i = j
        · subst hij; simp [hrow]
        · simp [hij, Table.get_put_ne _ _ (Ne.symm hij)]
    by_cases hij : i = j
    · subst hij; simp [hget, hj]
    · simp [hget, hij]

/-- A row after an end was there before it, and is as it was or ended. -/
theorem Core.get_finished {c : Core} {s : StoredRun} {status : Status} {spent : Nat}
    {ids : List String} (hs : c.run.get s.id = some s) (hnodup : (s.id :: ids).Nodup) {i : String}
    {t : StoredRun} (ht : ((c.set (ending s status spent now)).ended
      (ending · .cancelled spent now) ids).run.get i = some t) :
    ∃ s₀, c.run.get i = some s₀ ∧ (t = s₀ ∨ ∃ o, t = ending s₀ o spent now) := by
  obtain ⟨hnot, hnodup⟩ := List.nodup_cons.mp hnodup
  rw [Core.get_ended hnodup, Core.get_set] at ht
  by_cases hi : s.id = i
  · subst hi
    rw [if_neg hnot] at ht
    rw [if_pos (show (ending s status spent now).id = s.id from rfl)] at ht
    exact ⟨s, hs, .inr ⟨status, (Option.some.inj ht).symm⟩⟩
  · rw [if_neg (show (ending s status spent now).id ≠ i from hi)] at ht
    split at ht
    · obtain ⟨s₀, hs₀, rfl⟩ := Option.map_eq_some_iff.mp ht
      exact ⟨s₀, hs₀, .inr ⟨_, rfl⟩⟩
    · exact ⟨t, ht, .inl rfl⟩

/-- The rows a run starts with. -/
inductive NewRow (c : Core) (now : Int) (may : String → Act → Prop) : StoredRun → Prop
  | admission (a : Admission) (digest : String) (epoch : Option Nat) (trigger : Option String)
      (rearm : Option (Rearm × Trigger)) (hmay : trigger = none ∧ rearm = none ∨ may a.id .book) :
      NewRow c now may { fresh a digest epoch now with trigger, rearm }
  | refuse (a : Admission) (digest : String) (epoch : Option Nat) (error : WorkflowError) :
      NewRow c now may (stillborn (fresh a digest epoch now) error now)
  | bear {p : StoredRun} (a : Admission) (digest : String) (epoch : Option Nat) (link : ChildLink)
      (hp : c.run.get p.id = some p) (hlink : link.parent = p.id)
      (hr : p.run.state = .running) :
      NewRow c now may (linked (fresh a digest epoch now) link (p.run.root.getD p.id))

/-- What a move does to a stored run row. -/
inductive RowChange (env : Env) (c : Core) (now : Int) (may : String → Act → Prop) :
    StoredRun → StoredRun → Prop
  | rewrite {s s' : StoredRun} (h : Rewrite c now may s s') : RowChange env c now may s s'
  | accept {s : StoredRun} (e : StoredEvent) (hl : s.run.endedMs = none)
      (he : Acceptable env now e) :
      RowChange env c now may s (counted (if wanted s e now then wakeBy s now else s) e)
  | notify {s : StoredRun} (t : String) (data : Json) (hl : s.run.endedMs = none) :
      RowChange env c now may s
        (counted (if wakes s t false then { s with run := { s.run with wakeAtMs := now } } else s)
          (notice t data now))
  | expire {s : StoredRun} (c' : Core) (e : StoredEvent) (hl : s.run.endedMs = none) :
      RowChange env c now may s (refreshed c' (uncounted s e))
  | take {s : StoredRun} (c' : Core) (k : String) (types : List String) (n : Nat) (e : StoredEvent)
      (hr : s.run.state = .running) (hn : candidate c s.id types = some n)
      (he : (c.event s.id).get n = some e) (hmay : may s.id (.take k types)) :
      RowChange env c now may s
        (tookEvent (refreshed c' (uncounted (joined s e.type_) e)) k types)
  | offer {s : StoredRun} (hl : s.run.endedMs = none) :
      RowChange env c now may s (offering s now)
  | forget {s : StoredRun} (hl : s.run.endedMs ≠ none) : RowChange env c now may s (forgotten s)
  | finish {s : StoredRun} (status : Status) (spent : Nat) (hl : s.run.endedMs = none)
      (ht : status.terminal = true) : RowChange env c now may s (ending s status spent now)

theorem Rewrite.id_eq {c : Core} {s s' : StoredRun} (h : Rewrite c now may s s') : s'.id = s.id := by
  cases h with
  | park outcome =>
    obtain ⟨state, wakeAtMs, interruptions, heq⟩ := finished_eq c s outcome now
    rw [heq]
    rfl
  | register | unregister | settle => simp [StoredRun.id]
  | _ => rfl

theorem RowChange.id_eq {c : Core} {s s' : StoredRun} (h : RowChange env c now may s s') :
    s'.id = s.id := by
  cases h with
  | rewrite h => exact h.id_eq
  | accept e =>
    rw [counted_id]
    split <;> rfl
  | notify t =>
    rw [counted_id]
    split <;> rfl
  | take => simp
  | _ => rfl

/-- What a move does to the row stored under one id. -/
inductive RowStep (env : Env) (c : Core) (now : Int) (may : String → Act → Prop) (i : String) :
    Option StoredRun → Option StoredRun → Prop
  | same (row : Option StoredRun) : RowStep env c now may i row row
  | new {s' : StoredRun} (hid : s'.id = i) (h : NewRow c now may s') :
      RowStep env c now may i none (some s')
  | change {s s' : StoredRun} (hid : s.id = i) (h : RowChange env c now may s s') :
      RowStep env c now may i (some s) (some s')

/-- A write of one changed row leaves the others as they are. -/
theorem RowStep.set {c d : Core} {s s' : StoredRun} (hd : d.run = c.run)
    (hs : c.run.get s.id = some s) (h : RowChange env c now may s s') (i : String) :
    RowStep env c now may i (c.run.get i) ((d.set s').run.get i) := by
  rw [Core.get_set, hd, h.id_eq]
  split
  · next hi =>
    subst hi
    rw [hs]
    exact .change rfl h
  · exact .same _

/-- A first row leaves the others as they are. -/
theorem RowStep.insert {c : Core} {s' : StoredRun} (hs : c.run.get s'.id = none)
    (h : NewRow c now may s') (i : String) :
    RowStep env c now may i (c.run.get i) ((c.set s').run.get i) := by
  rw [Core.get_set]
  split
  · next hi =>
    subst hi
    rw [hs]
    exact .new rfl h
  · exact .same _

/-- Forgetting copies touches no run row, no record and no counter. -/
theorem forgetCopies_frame (run : String) (rows : List (Nat × StoredEvent)) (c : Core) :
    (rows.foldl (fun c row => forgetCopy c run row.1 row.2) c).run = c.run ∧
      (rows.foldl (fun c row => forgetCopy c run row.1 row.2) c).record = c.record ∧
      (rows.foldl (fun c row => forgetCopy c run row.1 row.2) c).budget = c.budget := by
  induction rows generalizing c with
  | nil => exact ⟨rfl, rfl, rfl⟩
  | cons row rows ih =>
    have hcopy : (forgetCopy c run row.1 row.2).run = c.run ∧
        (forgetCopy c run row.1 row.2).record = c.record ∧
        (forgetCopy c run row.1 row.2).budget = c.budget := by
      unfold forgetCopy
      split <;> exact ⟨rfl, rfl, rfl⟩
    obtain ⟨hrun, hrecord, hbudget⟩ := ih (forgetCopy c run row.1 row.2)
    exact ⟨hrun.trans hcopy.1, hrecord.trans hcopy.2.1, hbudget.trans hcopy.2.2⟩

theorem run_forgetRows (c : Core) (run : String) : (forgetRows c run).run = c.run :=
  (forgetCopies_frame run _ _).1

theorem record_forgetRows (c : Core) (run : String) :
    (forgetRows c run).record = Function.update c.record run .empty :=
  (forgetCopies_frame run _ _).2.1

theorem budget_forgetRows (c : Core) (run : String) : (forgetRows c run).budget = c.budget :=
  (forgetCopies_frame run _ _).2.2

/-- What a move does to the row of one run. -/
theorem Move.row {c c' : Core} (h : Move env now may c c') (i : String) :
    RowStep env c now may i (c.run.get i) (c'.run.get i) := by
  -- one case a move: it inserts a first row, writes one row, or writes no row
  cases h with
  | admission a digest epoch trigger rearm ha hmay =>
    exact .insert ha (.admission a digest epoch trigger rearm hmay) i
  | refuse a digest epoch error ha => exact .insert ha (.refuse a digest epoch error) i
  | bear a digest epoch link ha hp hlink hr =>
    exact .insert ha (.bear a digest epoch link hp hlink hr) i
  | rewrite hs h => exact .set rfl hs (.rewrite h) i
  -- these write beside the rows of runs
  | record | spend | dropBudget => exact .same _
  | accept e hs hl he => exact .set rfl hs (.accept e hl he) i
  | notify t data hs hl => exact .set rfl hs (.notify t data hl) i
  | expire n e at_ taken hs hl => exact .set rfl hs (.expire _ e hl) i
  | take k types n e event hs hr hm hk hn he hmay =>
    exact .set rfl hs (.take _ k types n e hr hn he hmay) i
  | offer n e hs hl => exact .set rfl hs (.offer hl) i
  -- the sweep of an ended run is a change of its row
  | @forget s at_ hs hl =>
    exact .set (run_forgetRows c s.id) hs (.forget (by simp [hl])) i
  | @finish s status spent ids hs hl ht hids =>
    -- the one move that writes several rows: the run and its live subtree
    obtain ⟨hs', hnodup⟩ := List.nodup_cons.mp hids.nodup
    rw [Core.get_ended hnodup, Core.get_set]
    change RowStep env c now may i _
      (if i ∈ ids then (if s.id = i then _ else _ : Option StoredRun).map _ else if s.id = i then _ else _)
    by_cases hi : s.id = i
    · subst hi
      -- the run itself
      rw [if_neg hs', if_pos rfl, hs]
      exact .change rfl (.finish status spent hl ht)
    · by_cases hmem : i ∈ ids
      -- a run of its subtree, cancelled with it
      · obtain ⟨child, link, hid, hchild, hlive, -, -⟩ := hids.owned i hmem
        rw [if_pos hmem, if_neg hi, hchild]
        exact .change hid (.finish .cancelled spent hlive rfl)
      -- any other run
      · rw [if_neg hmem, if_neg hi]
        exact .same _

/-! ### Sane rows -/

/-- The invariant of a run row by itself. -/
structure Sane (s : StoredRun) : Prop where
  /-- A run is running exactly when it has a fence. -/
  fence_iff : s.run.state = .running ↔ s.run.fence.isSome = true
  /-- A run is running exactly when it has a lease. -/
  lease_iff : s.run.state = .running ↔ s.run.leaseUntilMs.isSome = true
  /-- Its fence is its own, of its generation. -/
  fence_eq : ∀ f, s.run.fence = some f → f.runId = s.id ∧ f.generation = s.run.generation
  /-- A lease is a 64-bit instant. -/
  lease_le : ∀ l, s.run.leaseUntilMs = some l → l ≤ i64Max
  /-- A run without an end is ready, running or waiting, and has no outcome. -/
  live : s.run.endedMs = none →
    (s.run.state = .ready ∨ s.run.state = .running ∨ s.run.state = .waiting) ∧
      s.run.outcome = none
  /-- An ended run has a terminal outcome and its state, and nothing else holds it. -/
  ended : s.run.endedMs ≠ none →
    (∃ o, s.run.outcome = some o ∧ o.terminal = true ∧ s.run.state = terminalState o) ∧
      s.run.held = none ∧ s.awaits = .empty ∧ s.addressedWaits = ∅ ∧ s.listeners = .empty ∧
      s.subscriptions = .empty ∧ s.waits = .empty

namespace Sane

variable {s s' : StoredRun}

/-- A running run has not ended. -/
theorem live_of_running (h : Sane s) (hr : s.run.state = .running) : s.run.endedMs = none := by
  by_contra hne
  obtain ⟨⟨o, -, ht, hstate⟩, -⟩ := h.ended hne
  rw [hr] at hstate
  cases o <;> simp [terminalState] at hstate

/-- A claimable run has not ended. -/
theorem live_of_claimable (h : Sane s) (hc : claimable s.run now = true) :
    s.run.endedMs = none := by
  by_contra hne
  obtain ⟨⟨o, -, ht, hstate⟩, -⟩ := h.ended hne
  unfold claimable at hc
  rw [hstate] at hc
  cases o <;> simp [terminalState] at hc

/-- An ended run has neither fence nor lease. -/
theorem not_owned (h : Sane s) (hne : s.run.endedMs ≠ none) :
    s.run.fence = none ∧ s.run.leaseUntilMs = none := by
  have hr : s.run.state ≠ .running := fun hr => hne (h.live_of_running hr)
  constructor
  · have := mt h.fence_iff.mpr hr
    simpa using this
  · have := mt h.lease_iff.mpr hr
    simpa using this

/-- A live run stays sane when its lifecycle is kept. -/
theorem of_run_eq (h : Sane s) (hrun : s'.run = s.run) (hl : s.run.endedMs = none) : Sane s' where
  fence_iff := by rw [hrun]; exact h.fence_iff
  lease_iff := by rw [hrun]; exact h.lease_iff
  fence_eq := by rw [StoredRun.id, hrun]; exact h.fence_eq
  lease_le := by rw [hrun]; exact h.lease_le
  live := by rw [hrun]; exact h.live
  ended hne := absurd (hrun ▸ hl) hne

/-- A live run stays sane when only its wake-up, interruptions, annotations or hold change. -/
theorem of_schedule (h : Sane s) (hl : s.run.endedMs = none) (wakeAtMs : Int)
    (interruptions : Nat) (annotations : Totals) (held : Option Hold)
    (hrun : s'.run = { s.run with wakeAtMs, interruptions, annotations, held }) : Sane s' where
  fence_iff := by rw [hrun]; exact h.fence_iff
  lease_iff := by rw [hrun]; exact h.lease_iff
  fence_eq := by rw [StoredRun.id, hrun]; exact h.fence_eq
  lease_le := by rw [hrun]; exact h.lease_le
  live := by rw [hrun]; exact h.live
  ended hne := absurd (by rw [hrun]; exact hl) hne

/-- A live run without owner that is ready or waiting is sane. -/
theorem of_disowned (h : Sane s) (hl : s.run.endedMs = none)
    (hstate : s'.run.state = .ready ∨ s'.run.state = .waiting) (hfence : s'.run.fence = none)
    (hlease : s'.run.leaseUntilMs = none) (hended : s'.run.endedMs = s.run.endedMs)
    (houtcome : s'.run.outcome = s.run.outcome) : Sane s' where
  fence_iff := by rcases hstate with hs | hs <;> simp [hs, hfence]
  lease_iff := by rcases hstate with hs | hs <;> simp [hs, hlease]
  fence_eq f hf := by simp [hfence] at hf
  lease_le l hl := by simp [hlease] at hl
  live _ := ⟨hstate.imp_right .inr, by rw [houtcome]; exact (h.live hl).2⟩
  ended hne := absurd (hended.trans hl) hne

end Sane

theorem NewRow.sane {c : Core} {s : StoredRun} (h : NewRow c now may s) : Sane s := by
  cases h with
  | admission | bear => constructor <;> simp [fresh, linked]
  | refuse => constructor <;> simp [fresh, stillborn, terminalState, Status.terminal]

theorem Rewrite.sane {c : Core} {s s' : StoredRun} (h : Rewrite c now may s s') (hs : Sane s) :
    Sane s' := by
  -- one case a rewrite; a rewrite needs a live row, so `ended` never has to be shown
  cases h with
  -- a claim gives the row its fence and its lease
  | claim owner hc hg =>
    have hl := hs.live_of_claimable hc
    exact
      { fence_iff := by simp [claimed]
        lease_iff := by simp [claimed]
        fence_eq := by
          rintro f hf
          obtain rfl : _ = f := Option.some.inj hf
          exact ⟨rfl, rfl⟩
        -- the lease is cut off at the end of time
        lease_le := by
          rintro l hlease
          obtain rfl : satAdd now leaseMs = l := Option.some.inj hlease
          exact clamp_le _
        live := fun _ => ⟨.inr (.inl rfl), (hs.live hl).2⟩
        ended := fun hne => absurd hl hne }
  -- a renewal moves the lease only
  | renew hr =>
    have hl := hs.live_of_running hr
    exact
      { fence_iff := hs.fence_iff
        lease_iff := by simp [hr]
        fence_eq := hs.fence_eq
        lease_le := by
          rintro l hlease
          obtain rfl : satAdd now leaseMs = l := Option.some.inj hlease
          exact clamp_le _
        live := hs.live
        ended := fun hne => absurd hl hne }
  -- the owner gives the run back
  | release hr =>
    exact hs.of_disowned (hs.live_of_running hr) (.inl rfl) rfl rfl rfl rfl
  | park outcome hr ht =>
    have hl := hs.live_of_running hr
    -- only a waiting or an interrupted execution gives its run back
    cases outcome with
    | waiting wakeAtMs =>
      refine hs.of_disowned hl (.inr ?_) rfl rfl ?_ ?_ <;>
        simp only [disowned, finished] <;> split <;> rfl
    | interrupted error =>
      simp only [finished] at ht ⊢
      split at ht
      · simp [Status.terminal] at ht
      · next hn =>
        rw [if_neg hn]
        exact hs.of_disowned hl (.inl rfl) rfl rfl rfl rfl
    | completed | faulted | cancelled => simp [finished, Status.terminal] at ht
  -- counters, marks and holds touch no field the invariant speaks of
  | count n hr => exact hs.of_schedule (hs.live_of_running hr) _ n _ _ rfl
  | mark annotations hr _ => exact hs.of_schedule (hs.live_of_running hr) _ _ annotations _ rfl
  | hold h hl => exact hs.of_schedule hl _ _ _ h rfl
  | register types hr => exact hs.of_run_eq (by simp) (hs.live_of_running hr)
  | unregister k types hr => exact hs.of_run_eq (by simp) (hs.live_of_running hr)
  | settle child ha =>
    -- an ended run has no call row left to settle
    refine hs.of_run_eq (by simp) ?_
    by_contra hne
    simp [(hs.ended hne).2.2.1, Table.contains] at ha
  | listen k types hr | subscribe k types hr | unsubscribe k hr | describe k w hr | adopt child hr =>
    exact hs.of_run_eq rfl (hs.live_of_running hr)

theorem RowChange.sane {c : Core} {s s' : StoredRun} (h : RowChange env c now may s s') (hs : Sane s) :
    Sane s' := by
  cases h with
  | rewrite h => exact h.sane hs
  | accept e hl he =>
    split
    · exact hs.of_schedule hl _ _ _ _ rfl
    · exact hs.of_run_eq rfl hl
  | notify t data hl =>
    split
    · exact hs.of_schedule hl _ _ _ _ rfl
    · exact hs.of_run_eq rfl hl
  | expire c' e hl => exact hs.of_run_eq rfl hl
  | take c' k types n e hr => exact hs.of_run_eq (by simp) (hs.live_of_running hr)
  | offer hl => exact hs.of_schedule hl _ _ _ _ rfl
  | forget hl => exact { hs with }
  | finish status spent hl ht =>
    have hstate : terminalState status ≠ .running := by cases status <;> simp [terminalState]
    exact
      { fence_iff := by simpa [ending] using hstate
        lease_iff := by simpa [ending] using hstate
        fence_eq := by simp [ending]
        lease_le := by simp [ending]
        live := by simp [ending]
        ended := fun _ => ⟨⟨status, rfl, ht, rfl⟩, rfl, rfl, rfl, rfl, rfl, rfl⟩ }

/-! ### Generations -/

theorem Rewrite.generation_le {c : Core} {s s' : StoredRun} (h : Rewrite c now may s s') :
    s.run.generation ≤ s'.run.generation := by
  cases h with
  | claim => exact Nat.le_succ _
  | park outcome =>
    obtain ⟨state, wakeAtMs, interruptions, heq⟩ := finished_eq c s outcome now
    rw [heq]
    exact le_rfl
  | register | unregister | settle => simp
  | _ => exact le_rfl

theorem RowChange.generation_le {c : Core} {s s' : StoredRun} (h : RowChange env c now may s s') :
    s.run.generation ≤ s'.run.generation := by
  cases h with
  | rewrite h => exact h.generation_le
  | accept e => rw [counted_run]; split <;> exact le_rfl
  | notify t => rw [counted_run]; split <;> exact le_rfl
  | take => simp
  | _ => exact le_rfl

/-! ### Ended rows -/

/-- The row keeps what an ended run is known by. -/
structure Frozen (s s' : StoredRun) : Prop where
  admission : s'.run.admission = s.run.admission
  state : s'.run.state = s.run.state
  outcome : s'.run.outcome = s.run.outcome
  ended : s'.run.endedMs = s.run.endedMs
  accepted : s'.accepted = s.accepted

theorem Frozen.refl (s : StoredRun) : Frozen s s := ⟨rfl, rfl, rfl, rfl, rfl⟩

theorem Frozen.trans {s s' s'' : StoredRun} (h : Frozen s s') (h' : Frozen s' s'') :
    Frozen s s'' :=
  ⟨h'.admission.trans h.admission, h'.state.trans h.state, h'.outcome.trans h.outcome,
    h'.ended.trans h.ended, h'.accepted.trans h.accepted⟩

/-- The only change of an ended row is the removal of its evidence. -/
theorem RowChange.eq_forgotten {c : Core} {s s' : StoredRun} (h : RowChange env c now may s s')
    (hs : Sane s) (hne : s.run.endedMs ≠ none) : s' = forgotten s := by
  cases h with
  | forget => rfl
  | accept e hl | notify t data hl | expire c' e hl | offer hl | finish status spent hl =>
    exact absurd hl hne
  | take c' k types n e hr => exact absurd (hs.live_of_running hr) hne
  | rewrite h =>
    exfalso
    cases h with
    | claim owner hc => exact hne (hs.live_of_claimable hc)
    | hold h hl => exact hne hl
    | settle child ha => simp [(hs.ended hne).2.2.1, Table.contains] at ha
    | renew hr | release hr | park outcome hr | count n hr | register types hr
    | unregister k types hr | listen k types hr | subscribe k types hr | unsubscribe k hr
    | describe k w hr | adopt child hr | mark annotations hr _ =>
      exact hne (hs.live_of_running hr)

theorem RowChange.frozen {c : Core} {s s' : StoredRun} (h : RowChange env c now may s s')
    (hs : Sane s) (hne : s.run.endedMs ≠ none) : Frozen s s' := by
  rw [h.eq_forgotten hs hne]
  exact ⟨rfl, rfl, rfl, rfl, rfl⟩

end Ouro
