import Ouro.Durable.Triggers

/-!
# Firings and activations

A firing is a compare-and-swap of one trigger that admits runs under an overlap policy and may
consume an ingress event; an activation starts an epoch of a definition and arms its triggers.
-/

namespace Ouro

open Lib

namespace Engine

variable (env : Env)

/-- The identity of an ingress event, its tombstone and whether a trigger already took the event. -/
def tombstone (event : Json) (now : Int) : Txn (String × Option Tombstone × Bool) := do
  let id ← Tx.orFail (identity event) (.message "an ingress event needs a source and an id")
  let stored ← Tx.read (·.ingress.get id)
  match stored with
  | some t =>
    if now < t.expiresAtMs then
      Tx.ensure (decide (t.payload = payload event)) (.identityConflict (shown id))
      pure (id, stored, true)
    else pure (id, stored, false)
  | none => pure (id, none, false)

/-- What a firing comes to: the trigger it stores and its disposition. -/
abbrev Outcome : Type := Option Trigger × Fired

/-- Cancels the live runs of a trigger that a slot replaces. -/
def replaceLive (live : List (IndexKey × IndexValue)) (now : Int) : Txn Unit :=
  Tx.each (fun row =>
    match row.2 with
    | .run id => discard (cancelRun env id now)
    | .wait _ => Tx.fail (.message "invalid trigger run index")) live

/-- What a slot comes to that found `live` runs of its trigger. -/
def slotOutcome (f : Firing) (guard_ : OverlapGuard) (a : Admission)
    (live : List (IndexKey × IndexValue)) : Txn Outcome := do
  let room ← Tx.read (capacity · a.name guard_.maxConcurrentRuns)
  let queued ← Tx.read (·.triggerQueue.contains f.key)
  if !room then pure (some guard_.ceiling, .ceiling)
  else if !live.isEmpty && decide (guard_.policy ≠ .allow ∧ guard_.policy ≠ .replace) then
    if guard_.policy = .queue ∧ !queued then
      let q : Queued :=
        { admission := a, rearm := f.rearm, maxConcurrentRuns := guard_.maxConcurrentRuns
          failure := f.refused.map fun r => (r.error, r.breakerThreshold) }
      Tx.write fun rows =>
        { rows with
          triggerQueue := rows.triggerQueue.put f.key q
          queueName := Table.putAt rows.queueName a.name f.key f.key }
      pure (f.next, .queued)
    else
      let last := live.head?.elim "" fun row =>
        match row.2 with
        | .run id => id
        | .wait _ => ""
      pure (f.busy, .busy last)
  else pure (f.next, .committed)

/-- A firing under an overlap policy, for an admission whose run is not stored. -/
def overlapped (f : Firing) (guard_ : OverlapGuard) (a : Admission) (now : Int) : Txn Outcome := do
  let live ← Tx.read (scanIndex · (.triggerLive f.key) anyId
    (if guard_.policy = .replace then none else some 1))
  if guard_.policy = .replace then replaceLive env live now else pure ()
  slotOutcome f guard_ a live

/-- The disposition of a firing, before anything of it is stored. -/
def disposition (f : Firing) (now : Int) : Txn Outcome := do
  match f.overlap, f.admits.head?.orElse fun _ => f.refused.map (·.admission) with
  | some guard_, some a =>
    Tx.ensure (decide (f.admits.length ≤ 1)) (.message "overlap policy requires one admission")
    Tx.ensure (decide (0 < guard_.maxConcurrentRuns)) (.message "schedule ceiling must be positive")
    Tx.ensure (f.next.isSome && f.busy.isSome)
      (.message "overlap firing requires next and busy triggers")
    -- a slot already admitted is joined
    match ← findRun a.id with
    | some _ => pure (f.next, .committed)
    | none => overlapped env f guard_ a now
  | some _, none => pure (f.next, .committed)
  | none, _ =>
    match f.busy with
    | none => pure (f.next, .committed)
    | some busy =>
      if f.admits.isEmpty && f.refused.isNone then pure (f.next, .committed)
      else
        match ← Tx.read (·.triggerRun.get f.key) with
        | none => pure (f.next, .committed)
        | some last =>
          let found ← findRun last
          if found.any fun s => s.run.endedMs.isNone then pure (some busy, .busy last)
          else pure (f.next, .committed)

/-- Takes an ingress event: its tombstone with its expiry row. -/
def ingest (event : Json) (now : Int) : Txn Bool := do
  let (k, old, used) ← tombstone event now
  if used then pure true
  else
    let expiresAtMs := satAdd now env.policy.ingressMs
    Tx.write fun rows =>
      let due := old.elim rows.ingressDue fun t => rows.ingressDue.delete (toLex (t.expiresAtMs, k))
      { rows with
        ingress := rows.ingress.put k { payload := payload event, expiresAtMs }
        ingressDue := due.put (toLex (expiresAtMs, k)) k }
    pure false

/-- Stores a firing's trigger and admits its runs. -/
def commitFiring (f : Firing) (current : Option Trigger) (outcome : Outcome) (now : Int) :
    Txn Fired := do
  let (next, disposition) := outcome
  storeTrigger f.key current next
  if disposition = .committed then
    Tx.each (fun a => admitFiring f.key a f.rearm next now) f.admits
    match f.refused with
    | none => pure ()
    | some r =>
      refuse env r now
      Tx.write fun rows => { rows with triggerRun := rows.triggerRun.put f.key r.admission.id }
  else pure ()
  pure disposition

/-- Whether a trigger already took the firing's ingress event. -/
def ingested (f : Firing) (now : Int) : Txn Bool :=
  match f.ingress with
  | none => pure false
  | some event => (·.2.2) <$> tombstone event now

/-- Takes the firing's ingress event, unless a trigger already took it. -/
def ingestFiring (f : Firing) (now : Int) : Txn Bool :=
  match f.ingress with
  | none => pure false
  | some event => ingest env event now

/-- A firing whose trigger is the expected one. Ingress is validated before any policy outcome. -/
def fireChecked (f : Firing) (current : Option Trigger) (now : Int) : Txn Fired := do
  if ← ingested f now then pure .ingested
  else
    let outcome ← disposition env f now
    if ← ingestFiring env f now then pure .ingested else commitFiring env f current outcome now

/-- The first refusal the admissions of a firing meet after a drain. -/
def firstRefusal (drained : Bool) : List Admission → Txn (Option Error)
  | [] => pure none
  | a :: rest => do
    match ← drainedRefusal drained a with
    | some refusal => pure (some refusal)
    | none => firstRefusal drained rest

/-- Drains the deferred queue of the definition a firing admits to. -/
def drainFor (f : Firing) (now : Int) : Txn Bool :=
  match f.admits.head?.orElse fun _ => f.refused.map (·.admission) with
  | none => pure false
  | some a => drainMarked env a.name now

/-- Fires a trigger. An inner error is a refusal by a trip its own drain committed. -/
def fire (f : Firing) (now : Int) : Txn (Except Error Fired) := do
  if ← isStopped then pure (.ok .changed)
  else
    Tx.ensure (f.refused.isNone || f.admits.isEmpty)
      (.message "a firing admits its runs or records a refusal")
    let drained ← drainFor env f now
    let current ← Tx.read (·.trigger.get f.key)
    if current ≠ f.expected then pure (.ok .changed)
    else
      match ← firstRefusal drained (f.admits ++ (f.refused.map (·.admission)).toList) with
      | some refusal => pure (.error refusal)
      | none => .ok <$> fireChecked env f current now

/-- Activates a version in a new epoch, clears the breaker and arms the triggers. -/
def activate (name : String) (version : Nat) (epoch : Option Nat) (triggers : Table String Trigger)
    (activation : Activation) : Txn (Option Definitions) := do
  let found ← Tx.read (·.definitions.get name)
  let defs := found.getD .default
  Tx.ensure (defs.versions.contains version) (.message "unknown definition version")
  if epoch.any (· ≠ defs.epoch) then pure none
  else
    Tx.ensure (decide (defs.epoch < u64Max)) (.message "activation epoch overflow")
    let activated : Activated :=
      { epoch := defs.epoch + 1, atMs := activation.atMs, actor := activation.actor
        note := activation.note }
    let defs :=
      { defs with
        active := some version
        epoch := defs.epoch + 1
        consecutiveFaults := 0
        tripped := none
        activations := defs.activations.put version activated }
    Tx.write fun rows => { rows with paused := rows.paused.delete name }
    let defs ← arm defs triggers
    storeDefinitions name defs
    pure (some defs)

end Engine

end Ouro
