import Ouro.Durable.Identity

/-!
# The operator's commands and their audit

A command stores an entry under its request id, and an answer one under the identity of its event
too. Entries stay (`step_audited`), and the two entries of an answer agree (`Audited`), so an answer
that is given again has the reply of the first one (`respond_again`).
-/

namespace Ouro

open Lib Engine Tx

variable {env : Env} {now : Int}

/-! ### Calls that are no commands -/

theorem step_unaudited {op : Op} (hop : ∀ request command now, op ≠ .applyControl request command now)
    (σ : Rows) : Unaudited σ (step env σ op) := by
  rcases step_cases env σ op with ⟨heq, -⟩ | ⟨r, htx, -⟩
  · rw [heq]
    exact refl_of Unaudited σ
  · have hfire : ∀ f t, op = .fire f t → Steps Unaudited (fire env f t) := fun f t _ =>
      fire_catalog (fun _ _ _ => .write fun _ => ⟨rfl, rfl, rfl, rfl⟩) f
    exact Op.tx_catalog hfire (fun request command t heq => absurd heq (hop request command t)) htx

/-! ### Commands -/

namespace Engine

/-- The identity of an answer's event is that of the event as it is audited. -/
theorem identity_normal (event : Json) :
    identity ((payload event).entry "specversion" (.str "1.0")) = identity event := by
  unfold identity
  simp only [Json.text_entry (show "specversion" ≠ "source" by decide),
    Json.text_entry (show "specversion" ≠ "id" by decide), payload,
    Json.text_remove (show "time" ≠ "source" by decide), Json.text_remove (show "time" ≠ "id" by decide)]

/-- An answer finds the entry of its event's identity, or delivers its event. -/
theorem respond_ok {request : Request} {canonical : Command} {id key : String} {event : Json}
    {σ σ' : Rows} {reply : Reply}
    (h : respond env request canonical id key event now σ = .ok (reply, σ')) :
    ∃ i, identity event = some i ∧
      ((∃ entry, (σ.controlResponse id).get i = some entry ∧ entry.command = canonical ∧
          reply = entry.reply ∧ σ' = σ) ∨
        (σ.controlResponse id).get i = none ∧ ∃ recipient σ₁,
          answerWait env id key i event now σ = .ok (recipient, σ₁) ∧
          reply = .responded recipient ∧
          σ' = { σ₁ with
            controlResponse := Table.putAt σ₁.controlResponse id i
              { request, command := canonical, atMs := now, reply } }) := by
  simp only [respond, bind_ok, orFail_ok, read_ok] at h
  obtain ⟨i, σ₁, ⟨hi, rfl⟩, found, σ₂, ⟨hfound, rfl⟩, h⟩ := h
  refine ⟨i, hi, ?_⟩
  cases found with
  | some entry =>
    simp only [bind_ok, ensure_ok, decide_eq_true_eq, pure_ok] at h
    obtain ⟨u, σ₃, ⟨hcommand, rfl⟩, rfl, rfl⟩ := h
    exact .inl ⟨entry, hfound.symm, hcommand, rfl, rfl⟩
  | none =>
    simp only [bind_ok, write_ok, pure_ok] at h
    obtain ⟨recipient, σ₃, hanswer, u, σ₄, rfl, rfl, rfl⟩ := h
    exact .inr ⟨hfound.symm, recipient, σ₃, hanswer, rfl, rfl⟩

/-- A command finds the entry of its request, or is performed and audited. -/
theorem applyControl_ok {request : Request} {command : Command} {σ σ' : Rows} {a : Applied}
    (h : applyControl env request command now σ = .ok (a, σ')) :
    (∃ entry, σ.controlCommand.get request.id = some entry ∧ entry.request = request ∧
      entry.command = normalizeCommand command ∧ a = { reply := entry.reply, repeated := true } ∧
      σ' = σ) ∨
    σ.controlCommand.get request.id = none ∧ ∃ reply σ₁,
      perform env request command (normalizeCommand command) now σ = .ok (reply, σ₁) ∧
      a = { reply, repeated := false } ∧
      audit { request, command := normalizeCommand command, atMs := now, reply } σ₁ =
        .ok ((), σ') := by
  simp only [applyControl, bind_ok, ensure_ok, read_ok] at h
  obtain ⟨u, σ₁, ⟨-, rfl⟩, found, σ₂, ⟨hfound, rfl⟩, h⟩ := h
  cases found with
  | some entry =>
    simp only [bind_ok, ensure_ok, decide_eq_true_eq, pure_ok] at h
    obtain ⟨u', σ₃, ⟨⟨hrequest, hcommand⟩, rfl⟩, rfl, rfl⟩ := h
    exact .inl ⟨entry, hfound.symm, hrequest, hcommand, rfl, rfl⟩
  | none =>
    simp only [bind_ok, pure_ok] at h
    obtain ⟨reply, σ₃, hperform, u', σ₄, haudit, rfl, rfl⟩ := h
    exact .inr ⟨hfound.symm, reply, σ₃, hperform, rfl, haudit⟩

/-- What a command does to the audit rows before its own entry is stored. -/
structure Performed (command canonical : Command) (reply : Reply) (σ σ' : Rows) : Prop where
  commands : σ'.controlCommand = σ.controlCommand
  history : σ'.controlHistory = σ.controlHistory
  historyRun : σ'.controlHistoryRun = σ.controlHistoryRun
  /-- Entries of answers stay. -/
  keeps : ∀ id i entry, (σ.controlResponse id).get i = some entry →
    (σ'.controlResponse id).get i = some entry
  /-- An answer has its entry. -/
  answer : ∀ id key event, command = .respond id key event →
    ∃ i entry, identity event = some i ∧ (σ'.controlResponse id).get i = some entry ∧
      entry.command = canonical ∧ entry.reply = reply

theorem Performed.of_unaudited {command canonical : Command} {reply : Reply} {σ σ' : Rows}
    (h : Unaudited σ σ') (hne : ∀ id key event, command ≠ .respond id key event) :
    Performed command canonical reply σ σ' where
  commands := h.command
  history := h.history
  historyRun := h.historyRun
  keeps id i entry he := by rw [h.response]; exact he
  answer id key event heq := absurd heq (hne id key event)

theorem perform_rows {request : Request} {command canonical : Command} {σ σ' : Rows} {reply : Reply}
    (h : perform env request command canonical now σ = .ok (reply, σ')) :
    Performed command canonical reply σ σ' := by
  cases command with
  | cancel run => exact .of_unaudited ((cancelRun_catalog run).map h) (by simp)
  | pause name note => exact .of_unaudited ((pause_catalog request name note).map h) (by simp)
  | resume name => exact .of_unaudited ((resume_catalog name).map h) (by simp)
  | hold run note => exact .of_unaudited ((setHold_frame run _).map h) (by simp)
  | release run => exact .of_unaudited ((setHold_frame run none).map h) (by simp)
  | stop enabled => exact .of_unaudited ((stop_catalog enabled).map h) (by simp)
  | respond id key event =>
    obtain ⟨i, hi, ⟨entry, hentry, hcommand, rfl, rfl⟩ | ⟨hnone, recipient, σ₁, hanswer, hreply, rfl⟩⟩ :=
      respond_ok h
    -- the same answer was given before
    · refine ⟨rfl, rfl, rfl, fun _ _ _ he => he, fun id' key' event' heq => ?_⟩
      obtain ⟨rfl, rfl, rfl⟩ := Command.respond.inj heq
      exact ⟨i, entry, hi, hentry, hcommand, rfl⟩
    -- it is given now, and its row is the only one added
    · have hsame : Unaudited σ σ₁ := answerWait_frame id key i event hanswer
      refine ⟨hsame.command, hsame.history, hsame.historyRun, fun id' i' entry he => ?_,
        fun id' key' event' heq => ?_⟩
      · change (Table.putAt σ₁.controlResponse id i _ id').get i' = _
        rw [Table.get_putAt, hsame.response]
        refine (if_neg ?_).trans he
        rintro ⟨rfl, rfl⟩
        rw [hnone] at he
        simp at he
      · obtain ⟨rfl, rfl, rfl⟩ := Command.respond.inj heq
        refine ⟨i, { request, command := canonical, atMs := now, reply }, hi, ?_, rfl, rfl⟩
        change (Table.putAt σ₁.controlResponse id i _ id).get i = _
        rw [Table.get_putAt, if_pos ⟨rfl, rfl⟩]

end Engine

/-! ### Entries over histories -/

/-- The entry of an answer under its request agrees with the one under its event's identity. -/
def Audited (σ : Rows) : Prop :=
  ∀ k entry id key event, σ.controlCommand.get k = some entry →
    entry.command = .respond id key event →
    ∃ i first, identity event = some i ∧ (σ.controlResponse id).get i = some first ∧
      first.command = entry.command ∧ first.reply = entry.reply

/-- Entries stay. -/
structure Remembers (σ σ' : Rows) : Prop where
  command : ∀ k entry, σ.controlCommand.get k = some entry → σ'.controlCommand.get k = some entry
  response : ∀ id i entry, (σ.controlResponse id).get i = some entry →
    (σ'.controlResponse id).get i = some entry

theorem Unaudited.remembers {σ σ' : Rows} (h : Unaudited σ σ') : Remembers σ σ' :=
  ⟨fun k entry he => by rw [h.command]; exact he, fun id i entry he => by rw [h.response]; exact he⟩

theorem Unaudited.audited {σ σ' : Rows} (h : Unaudited σ σ') (hσ : Audited σ) : Audited σ' := by
  unfold Audited
  rw [h.command, h.response]
  exact hσ

/-- A command that is performed keeps every entry and adds its own. -/
theorem step_command {request : Request} {command : Command} (σ : Rows) (hσ : Audited σ) :
    Audited (step env σ (.applyControl request command now)) ∧
      Remembers σ (step env σ (.applyControl request command now)) := by
  rcases step_cases env σ (.applyControl request command now) with ⟨heq, -⟩ | ⟨r, htx, -⟩
  -- a call that failed stores no entry
  · rw [heq]
    exact ⟨hσ, fun _ _ h => h, fun _ _ _ h => h⟩
  generalize step env σ (.applyControl request command now) = σ' at htx
  obtain ⟨a, happly, -⟩ := map_ok.mp htx
  -- the command was performed before, or is now
  obtain ⟨-, -, -, -, -, rfl⟩ | ⟨hnew, reply, σ₁, hperform, -, haudit⟩ := applyControl_ok happly
  · exact ⟨hσ, fun _ _ h => h, fun _ _ _ h => h⟩
  obtain rfl := write_ok.mp haudit
  have hrows := perform_rows hperform
  have hcommand : ∀ k, (σ₁.controlCommand.put request.id
      { request, command := normalizeCommand command, atMs := now, reply }).get k =
      if request.id = k then some { request, command := normalizeCommand command, atMs := now, reply }
      else σ.controlCommand.get k := by
    intro k
    rw [Table.get_put, hrows.commands]
  refine ⟨?_, fun k entry he => ?_, hrows.keeps⟩
  -- entries of answers agree with those of their events' identities
  · intro k entry id key event he hrespond
    replace he := (hcommand k).symm.trans he
    split at he
    · -- the new entry is that of the answer just given
      obtain rfl := Option.some.inj he
      cases command with
      | respond id' key' event' =>
        obtain ⟨rfl, rfl, rfl⟩ := Command.respond.inj hrespond
        obtain ⟨i, first, hi, hfirst, hcmd, hreply⟩ := hrows.answer _ _ _ rfl
        exact ⟨i, first, by rw [identity_normal]; exact hi, hfirst, hcmd, hreply⟩
      | _ => simp [normalizeCommand] at hrespond
    -- an old entry
    · obtain ⟨i, first, hi, hfirst, hsame⟩ := hσ k entry id key event he hrespond
      exact ⟨i, first, hi, hrows.keeps id i first hfirst, hsame⟩
  -- no entry is written over: the id was unused
  · refine (hcommand k).trans (Eq.trans (if_neg ?_) he)
    rintro rfl
    rw [hnew] at he
    simp at he

theorem step_audited (σ : Rows) (op : Op) (hσ : Audited σ) :
    Audited (step env σ op) ∧ Remembers σ (step env σ op) := by
  by_cases hop : ∃ request command now, op = .applyControl request command now
  · obtain ⟨request, command, now, rfl⟩ := hop
    exact step_command σ hσ
  · have hsame : Unaudited σ (step env σ op) :=
      step_unaudited (fun request command now heq => hop ⟨request, command, now, heq⟩) σ
    exact ⟨hsame.audited hσ, hsame.remembers⟩

theorem audited_after (env : Env) (history : List Op) : Audited (after env history) :=
  runs_keep (fun k entry id key event he => by simp [Rows.empty] at he)
    (fun σ op hσ => (step_audited σ op hσ).1) history

/-- The entry of an answer is there after every later history. -/
theorem response_runs {σ : Rows} (hσ : Audited σ) {id i : String} {entry : Entry}
    (h : (σ.controlResponse id).get i = some entry) (later : List Op) :
    ((runs (step env) σ later).controlResponse id).get i = some entry :=
  (runs_keep (I := fun σ => Audited σ ∧ (σ.controlResponse id).get i = some entry) ⟨hσ, h⟩
    (fun σ op h => ⟨(step_audited σ op h.1).1, (step_audited σ op h.1).2.response id i entry h.2⟩)
    later).2

/-- An answer that is given again changes no row of a run and has the first reply. It fails only for its
request: one without an id, an actor or a reason, or with the id of another command. -/
theorem respond_again {σ : Rows} (hσ : Audited σ) {id key i : String} {event : Json} {entry : Entry}
    (hi : identity event = some i) (hentry : (σ.controlResponse id).get i = some entry)
    (hcommand : entry.command = normalizeCommand (.respond id key event)) (request : Request)
    (now : Int) :
    (step env σ (.applyControl request (.respond id key event) now)).toCore = σ.toCore ∧
    (∀ r, (call env σ (.applyControl request (.respond id key event) now)).1 = .ok r →
      ∃ repeated, r = .applied { reply := entry.reply, repeated }) ∧
    ((!blank request.id && !blank request.actor && !blank request.reason) = true →
      (∀ e, σ.controlCommand.get request.id = some e →
        e.request = request ∧ e.command = entry.command) →
      ∃ r, (call env σ (.applyControl request (.respond id key event) now)).1 = .ok r) := by
  -- what a repeated answer finds, whatever its request
  have hok : ∀ {a σ'}, applyControl env request (.respond id key event) now σ = .ok (a, σ') →
      σ'.toCore = σ.toCore ∧ a.reply = entry.reply := by
    intro a σ' happly
    obtain ⟨e, he, -, hsame, rfl, rfl⟩ | ⟨-, reply, σ₁, hperform, rfl, haudit⟩ := applyControl_ok happly
    · -- the same request: its entry agrees with that of the identity
      obtain ⟨i', first, hi', hfirst, -, hreply⟩ := hσ _ e id key _ he hsame
      rw [identity_normal, hi] at hi'
      obtain rfl := Option.some.inj hi'
      obtain rfl := Option.some.inj (hentry.symm.trans hfirst)
      exact ⟨rfl, hreply.symm⟩
    · obtain rfl := write_ok.mp haudit
      obtain ⟨i', hi', ⟨first, hfirst, -, rfl, rfl⟩ | ⟨hnone, -⟩⟩ := respond_ok hperform
      · obtain rfl := Option.some.inj (hi.symm.trans hi')
        obtain rfl := Option.some.inj (hentry.symm.trans hfirst)
        exact ⟨rfl, rfl⟩
      · obtain rfl := Option.some.inj (hi.symm.trans hi')
        simp [hentry] at hnone
  -- nothing changes, the reply is the first one, and only the request can be refused
  refine ⟨?_, fun r hr => ?_, fun hrequest hunused => ?_⟩
  · rcases step_cases env σ (.applyControl request (.respond id key event) now) with
      ⟨heq, -⟩ | ⟨r, htx, -⟩
    · rw [heq]
    · obtain ⟨a, happly, -⟩ := map_ok.mp htx
      exact (hok happly).1
  · rcases step_cases env σ (.applyControl request (.respond id key event) now) with
      ⟨-, e, heq⟩ | ⟨r', htx, heq⟩
    · simp [heq] at hr
    · obtain ⟨a, happly, rfl⟩ := map_ok.mp htx
      rw [heq] at hr
      obtain rfl := Except.ok.inj hr
      refine ⟨a.repeated, ?_⟩
      rw [← (hok happly).2]
  -- the answer is performed by reading its entry
  · have hperform : perform env request (.respond id key event)
        (normalizeCommand (.respond id key event)) now σ = .ok (entry.reply, σ) := by
      simp only [perform, respond, bind_ok, orFail_ok, read_ok]
      refine ⟨i, σ, ⟨hi, rfl⟩, _, σ, ⟨rfl, rfl⟩, ?_⟩
      simp only [hentry, bind_ok, ensure_ok, pure_ok, decide_eq_true_eq]
      exact ⟨(), σ, ⟨hcommand, rfl⟩, trivial, rfl⟩
    -- the request is new, or one of its own earlier uses
    have happly : ∃ a σ', applyControl env request (.respond id key event) now σ = .ok (a, σ') := by
      simp only [applyControl, bind_ok, ensure_ok, read_ok]
      cases hfound : σ.controlCommand.get request.id with
      | some e =>
        refine ⟨{ reply := e.reply, repeated := true }, σ, (), σ, ⟨hrequest, rfl⟩, some e, σ,
          ⟨hfound.symm, rfl⟩, ?_⟩
        simp only [bind_ok, ensure_ok, pure_ok, decide_eq_true_eq]
        obtain ⟨hsame, hcmd⟩ := hunused e hfound
        exact ⟨(), σ, ⟨⟨hsame, hcmd.trans hcommand⟩, rfl⟩, trivial, rfl⟩
      | none =>
        let stored : Entry :=
          ⟨request, normalizeCommand (.respond id key event), now, entry.reply⟩
        obtain ⟨σ', haudit⟩ : ∃ σ', audit stored σ = .ok ((), σ') := ⟨_, rfl⟩
        refine ⟨{ reply := entry.reply, repeated := false }, σ', (), σ, ⟨hrequest, rfl⟩, none, σ,
          ⟨hfound.symm, rfl⟩, ?_⟩
        simp only [bind_ok, pure_ok]
        exact ⟨entry.reply, σ, hperform, (), σ', haudit, rfl, rfl⟩
    obtain ⟨a, σ', happly⟩ := happly
    refine ⟨.applied a, ?_⟩
    unfold call
    rw [commit_ok (show (Op.applyControl request (.respond id key event) now).tx env σ =
      .ok (.ok (.applied a), σ') from map_ok.mpr ⟨a, happly, rfl⟩)]

end Ouro
