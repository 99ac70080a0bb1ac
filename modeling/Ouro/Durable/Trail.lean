import Ouro.Durable.Audit

/-!
# The audit trail

Every successful first execution of an operator's command leaves one entry (`executed`), and the audit
rows are those entries and nothing else, by request, in the order of time, and by run (`Trail`). So a
request that is repeated finds the entry of its first execution, whatever happened in between.
-/

namespace Ouro

open Lib Engine Tx

variable {env : Env} {now : Int}

/-! ### Executions -/

/-- The entry of a call that executes a command for the first time. -/
def executed (env : Env) (σ : Rows) : Op → Option Entry
  | .applyControl request command now =>
    match (call env σ (.applyControl request command now)).1 with
    | .ok (.applied { reply, repeated := false }) =>
      some { request, command := normalizeCommand command, atMs := now, reply }
    | _ => none
  | _ => none

/-- The entries of the first executions in a history, in its order. -/
def executions (env : Env) : Rows → List Op → List Entry
  | _, [] => []
  | σ, op :: rest => (executed env σ op).toList ++ executions env (step env σ op) rest

theorem executions_append (env : Env) (σ : Rows) (history later : List Op) :
    executions env σ (history ++ later) =
      executions env σ history ++ executions env (runs (step env) σ history) later := by
  induction history generalizing σ with
  | nil => rfl
  | cons op rest ih =>
    rw [List.cons_append, executions, executions, ih, List.append_assoc]
    rfl

/-- Whether a request may be made at all: it has an id, an actor and a reason. -/
def Request.complete (r : Request) : Bool := !blank r.id && !blank r.actor && !blank r.reason

/-- The place of an entry in the order of time. -/
def Entry.place (e : Entry) : Int ×ₗ String := toLex (e.atMs, e.request.id)

/-- The audit rows are the listed entries: each once under its request, in the order of time and under
the run its command names. -/
structure Trail (σ : Rows) (entries : List Entry) : Prop where
  ids : (entries.map fun e => e.request.id).Nodup
  complete : ∀ e ∈ entries, e.request.complete = true
  command : σ.controlCommand.Listed (fun e => e.request.id) entries
  history : σ.controlHistory.Listed Entry.place entries
  historyRun : ∀ run, (σ.controlHistoryRun run).Listed Entry.place
    (entries.filter fun e => decide (commandRun e.command = some run))

theorem Trail.empty : Trail .empty [] where
  ids := List.nodup_nil
  complete := by simp
  command := .empty _
  history := .empty _
  historyRun _ := .empty _

theorem Trail.of_unaudited {σ σ' : Rows} {entries : List Entry} (h : Trail σ entries)
    (hsame : Unaudited σ σ') : Trail σ' entries where
  ids := h.ids
  complete := h.complete
  command := by rw [hsame.command]; exact h.command
  history := by rw [hsame.history]; exact h.history
  historyRun := by rw [hsame.historyRun]; exact h.historyRun

/-- A request whose id is unused has no entry. -/
theorem Trail.unused {σ : Rows} {entries : List Entry} (h : Trail σ entries) {id : String}
    (hnone : σ.controlCommand.get id = none) : ∀ e ∈ entries, e.request.id ≠ id := by
  rintro e he rfl
  rw [(h.command e.request.id e).mpr ⟨he, rfl⟩] at hnone
  simp at hnone

/-- One more entry, under an id that is unused. -/
theorem Trail.audit {σ σ₁ σ' : Rows} {entries : List Entry} (h : Trail σ entries) {entry : Entry}
    (hcommand : σ₁.controlCommand = σ.controlCommand) (hhistory : σ₁.controlHistory = σ.controlHistory)
    (hrun : σ₁.controlHistoryRun = σ.controlHistoryRun)
    (hcomplete : entry.request.complete = true)
    (hnone : σ.controlCommand.get entry.request.id = none)
    (haudit : Engine.audit entry σ₁ = .ok ((), σ')) : Trail σ' (entries ++ [entry]) := by
  have hfresh := h.unused hnone
  have hplace : ∀ e ∈ entries, e.place ≠ entry.place := fun e he heq =>
    hfresh e he (congrArg (fun k => (ofLex k).2) heq)
  -- the three rows of the entry: by request, by time, by run
  obtain rfl := write_ok.mp haudit
  refine ⟨?_, fun e he => ?_, ?_, ?_, fun run => ?_⟩
  · rw [List.map_append, List.map_singleton]
    refine h.ids.append (List.nodup_singleton _) ?_
    simp only [List.disjoint_singleton, List.mem_map, not_exists, not_and]
    exact hfresh
  · rcases List.mem_append.mp he with he | he
    · exact h.complete e he
    · rw [List.mem_singleton.mp he]
      exact hcomplete
  · change (σ₁.controlCommand.put entry.request.id entry).Listed _ _
    rw [hcommand]
    exact h.command.concat hfresh
  · change (σ₁.controlHistory.put entry.place entry).Listed _ _
    rw [hhistory]
    exact h.history.concat hplace
  · change (((commandRun entry.command).elim σ₁.controlHistoryRun fun run =>
      Table.putAt σ₁.controlHistoryRun run entry.place entry) run).Listed _ _
    have hone : [entry].filter (fun e => decide (commandRun e.command = some run)) =
        if commandRun entry.command = some run then [entry] else [] := by
      simp [List.filter_cons]
    rw [hrun, List.filter_append, hone]
    -- a command on no run has no row by run
    cases hnamed : commandRun entry.command with
    | none =>
      rw [if_neg (by simp), List.append_nil]
      exact h.historyRun run
    -- the row is that of the run it names
    | some run' =>
      simp only [Option.elim_some, Option.some.injEq]
      by_cases heq : run' = run
      · subst heq
        have hput : Table.putAt σ.controlHistoryRun run' entry.place entry run' =
            (σ.controlHistoryRun run').put entry.place entry := Function.update_self ..
        rw [hput, if_pos rfl]
        exact (h.historyRun run').concat fun e he => hplace e (List.mem_of_mem_filter he)
      · rw [Table.putAt_ne _ _ _ (Ne.symm heq), if_neg heq, List.append_nil]
        exact h.historyRun run

/-! ### Commands -/

namespace Engine

section Apply

variable {σ : Rows} {request : Request} {command : Command} {entry : Entry}

/-- A request that was executed and is made again. -/
theorem applyControl_repeated (hcomplete : request.complete = true)
    (hentry : σ.controlCommand.get request.id = some entry) (hrequest : entry.request = request)
    (hcommand : entry.command = normalizeCommand command) :
    applyControl env request command now σ = .ok ({ reply := entry.reply, repeated := true }, σ) := by
  simp only [applyControl, bind_ok, ensure_ok, read_ok]
  refine ⟨(), σ, ⟨hcomplete, rfl⟩, some entry, σ, ⟨hentry.symm, rfl⟩, ?_⟩
  simp only [bind_ok, ensure_ok, pure_ok, decide_eq_true_eq]
  exact ⟨(), σ, ⟨⟨hrequest, hcommand⟩, rfl⟩, trivial, rfl⟩

/-- Its id with other content. -/
theorem applyControl_conflict (hcomplete : request.complete = true)
    (hentry : σ.controlCommand.get request.id = some entry)
    (hother : ¬(entry.request = request ∧ entry.command = normalizeCommand command)) :
    applyControl env request command now σ = .error (.control (.requestConflict request.id)) := by
  simp only [applyControl, bind_error]
  refine .inr ⟨(), σ, ensure_ok.mpr ⟨hcomplete, rfl⟩, .inr ⟨some entry, σ, read_ok.mpr ⟨hentry.symm, rfl⟩, ?_⟩⟩
  simp only [bind_error, ensure_error, decide_eq_false_iff_not]
  exact .inl ⟨hother, trivial⟩

/-- A request without an id, an actor or a reason. -/
theorem applyControl_incomplete (hcomplete : request.complete = false) :
    applyControl env request command now σ =
      .error (.control (.invalidInput "control request requires id, actor and reason")) := by
  simp only [applyControl, bind_error]
  exact .inl (ensure_error.mpr ⟨hcomplete, rfl⟩)

end Apply

end Engine

/-- A command leads to one more entry exactly when it is executed for the first time. -/
theorem Trail.command_step {σ : Rows} {entries : List Entry} (h : Trail σ entries) (request : Request)
    (command : Command) (now : Int) :
    Trail (step env σ (.applyControl request command now))
      (entries ++ (executed env σ (.applyControl request command now)).toList) := by
  unfold executed
  rcases step_cases env σ (.applyControl request command now) with ⟨heq, e, hcall⟩ | ⟨r, htx, hcall⟩
  · rw [heq]
    simp only [hcall]
    simpa using h
  · obtain ⟨a, happly, rfl⟩ := map_ok.mp htx
    simp only [hcall]
    obtain ⟨entry, -, -, -, rfl, hsame⟩ | ⟨hnone, reply, σ₁, hperform, rfl, haudit⟩ := applyControl_ok happly
    · rw [hsame]
      simpa using h
    · have hrows := perform_rows hperform
      have hcomplete : request.complete = true := by
        by_contra hno
        rw [applyControl_incomplete (by simpa using hno)] at happly
        simp at happly
      exact h.audit hrows.commands hrows.history hrows.historyRun hcomplete hnone haudit

theorem Trail.step {σ : Rows} {entries : List Entry} (h : Trail σ entries) (op : Op) :
    Trail (step env σ op) (entries ++ (executed env σ op).toList) := by
  by_cases hop : ∃ request command now, op = .applyControl request command now
  · obtain ⟨request, command, now, rfl⟩ := hop
    exact h.command_step request command now
  · have hnone : executed env σ op = none := by
      cases op with
      | applyControl request command now => exact absurd ⟨request, command, now, rfl⟩ hop
      | _ => rfl
    rw [hnone, Option.toList_none, List.append_nil]
    exact h.of_unaudited (step_unaudited (fun request command now heq => hop ⟨request, command, now, heq⟩) σ)

theorem trail_after (env : Env) (history : List Op) :
    Trail (after env history) (executions env .empty history) := by
  induction history using List.reverseRecOn with
  | nil => exact .empty
  | append_singleton history op ih =>
    rw [after_concat, executions_append]
    have hone : executions env (runs (Ouro.step env) .empty history) [op] =
        (executed env (after env history) op).toList := by
      simp [executions, after]
    rw [hone]
    exact ih.step op

/-- The entries are listed in the order of time. -/
theorem Trail.sorted {σ : Rows} {entries : List Entry} (h : Trail σ entries) :
    (σ.controlHistory.values.map Entry.atMs).Pairwise (· ≤ ·) := by
  unfold Table.values
  rw [List.map_map, List.pairwise_map]
  refine σ.controlHistory.rows_sorted.imp_of_mem ?_
  rintro ⟨k, e⟩ ⟨k', e'⟩ he he' hlt
  obtain rfl := ((h.history k e).mp ((Table.mem_rows _).mp he)).2
  obtain rfl := ((h.history k' e').mp ((Table.mem_rows _).mp he')).2
  rcases Prod.Lex.lt_iff.mp hlt with hlt | ⟨heq, -⟩
  · exact le_of_lt hlt
  · exact le_of_eq heq

/-- What a command that has an entry under its id gets: the first reply for the same content, a refusal
for any other, and nothing changes. -/
structure Settles (env : Env) (σ : Rows) (entry : Entry) (request : Request) (command : Command)
    (now : Int) : Prop where
  repeated : request = entry.request → normalizeCommand command = entry.command →
    call env σ (.applyControl request command now) =
      (.ok (.applied { reply := entry.reply, repeated := true }), σ)
  conflict : ¬(request = entry.request ∧ normalizeCommand command = entry.command) →
    call env σ (.applyControl request command now) =
      (.error (.control (if request.complete then .requestConflict request.id
        else .invalidInput "control request requires id, actor and reason")), σ)

theorem Trail.settles {σ : Rows} {entries : List Entry} (h : Trail σ entries) {entry : Entry}
    (hentry : entry ∈ entries) {request : Request} (hid : request.id = entry.request.id)
    (command : Command) (now : Int) : Settles env σ entry request command now := by
  have hrow : σ.controlCommand.get request.id = some entry := by
    rw [hid]
    exact (h.command _ _).mpr ⟨hentry, rfl⟩
  refine ⟨fun hrequest hcommand => ?_, fun hother => ?_⟩
  · refine call_of_tx (map_ok.mpr ⟨_, applyControl_repeated ?_ hrow hrequest.symm hcommand.symm, rfl⟩)
    rw [hrequest]
    exact h.complete entry hentry
  · refine call_of_error (map_error.mpr ?_)
    cases hcomplete : request.complete with
    | false => exact applyControl_incomplete hcomplete
    | true =>
      exact applyControl_conflict hcomplete hrow fun hsame => hother ⟨hsame.1.symm, hsame.2.symm⟩

/-- Over every history: the audit rows are one entry for each command executed for the first time, in the
order of time; a command under a used id is settled by its entry; and one that fails changes nothing,
its id included. -/
theorem commands_audited_once (env : Env) (history : List Op) :
    Trail (after env history) (executions env .empty history) ∧
    ((after env history).controlHistory.values.map Entry.atMs).Pairwise (· ≤ ·) ∧
    (∀ entry ∈ executions env .empty history, ∀ later request command now,
      request.id = entry.request.id →
      Settles env (after env (history ++ later)) entry request command now) ∧
    (∀ request command now err σ',
      call env (after env history) (.applyControl request command now) = (.error err, σ') →
      σ' = after env history ∧ executions env .empty (history ++ [.applyControl request command now]) =
        executions env .empty history) ∧
    ∀ request command now r, (∀ entry ∈ executions env .empty history, entry.request.id ≠ request.id) →
      (call env (after env history) (.applyControl request command now)).1 = .ok r →
      ∃ reply, r = .applied { reply, repeated := false } := by
  have htrail := trail_after env history
  refine ⟨htrail, htrail.sorted, fun entry hentry later request command now hid => ?_,
    fun request command now err σ' hcall => ?_, fun request command now r hunused hcall => ?_⟩
  -- the entry is one of the longer history too, and settles the request
  · refine (trail_after env (history ++ later)).settles ?_ hid command now
    rw [executions_append]
    exact List.mem_append_left _ hentry
  -- a command that failed wrote nothing, so it executed nothing
  · have hsame : σ' = after env history := by
      rcases step_cases env (after env history) (.applyControl request command now) with
        ⟨-, e, herr⟩ | ⟨r, htx, hr⟩
      · rw [herr] at hcall
        exact (Prod.mk.inj hcall).2.symm
      · obtain ⟨a, -, rfl⟩ := map_ok.mp htx
        rw [hr] at hcall
        simp at hcall
    refine ⟨hsame, ?_⟩
    have hnone : executed env (after env history) (.applyControl request command now) = none := by
      simp only [executed, hcall]
    have hone : executions env (runs (step env) .empty history) [.applyControl request command now] = [] := by
      simp only [executions, show runs (step env) .empty history = after env history from rfl, hnone]
      rfl
    rw [executions_append, hone, List.append_nil]
  -- an unused id has no entry, so the command was performed now
  · rcases step_cases env (after env history) (.applyControl request command now) with
      ⟨-, e, herr⟩ | ⟨r', htx, hr⟩
    · simp [herr] at hcall
    · obtain ⟨a, happly, rfl⟩ := map_ok.mp htx
      rw [hr] at hcall
      obtain ⟨entry, hentry, -⟩ | ⟨-, reply, -, -, rfl, -⟩ := applyControl_ok happly
      · obtain ⟨hmem, hid⟩ := (htrail.command _ _).mp hentry
        exact absurd hid.symm (hunused entry hmem)
      · exact ⟨reply, (Except.ok.inj hcall).symm⟩

/-- A used request id without a reason is refused for the reason that is missing. -/
theorem blank_reason_refused_first :
    (call .plain .empty (.applyControl { id := "1", actor := "a", reason := "b" } (.stop true) 0)).1 =
        .ok (.applied { reply := .changed true, repeated := false }) ∧
      (call .plain (after .plain [.applyControl { id := "1", actor := "a", reason := "b" } (.stop true) 0])
        (.applyControl { id := "1", actor := "a", reason := "" } (.stop true) 1)).1 =
          .error (.control (.invalidInput "control request requires id, actor and reason")) := by
  decide +kernel

end Ouro
