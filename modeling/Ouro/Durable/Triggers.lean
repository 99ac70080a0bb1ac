import Ouro.Durable.Events

/-!
# Triggers, the breaker and termination

Triggers with their index rows, the buffered slots of a trigger and their promotion, the breaker that
trips a definition, and the end of a run: its row, the cascade over its live owned descendants, the
notice to its parent, the promotion of slots it made room for and the totals of its definition.

The cascade is the source's worklist. It reads the index it is rewriting, so its recursion is bounded
by a number of rounds (`cascade`), which is chosen above the number of stored runs; a worklist that
outlived it would fail with `Error.diverged`.
-/

namespace Ouro

open Lib

namespace Engine

variable (env : Env)

/-! ### Trigger rows -/

/-- The index row by due time, moved from one instant to another. -/
def moveDue (due : Table (Int ×ₗ String) String) (key : String) (old new : Option Int) :
    Table (Int ×ₗ String) String :=
  if old = new then due
  else
    let due := new.elim due fun at_ => due.put (toLex (at_, key)) key
    old.elim due fun at_ => due.delete (toLex (at_, key))

/-- The index rows by event type, moved from one list to another. -/
def moveTypes (types : String → Table String String) (key : String) (old new : List String) :
    String → Table String String :=
  let added := (new.filter (· ∉ old)).foldl (fun types t => Table.putAt types t key key) types
  (old.filter (· ∉ new)).foldl (fun types t => Table.deleteAt types t key) added

/-- Writes a trigger and moves its index rows. -/
def storeTrigger (key : String) (before after : Option Trigger) : Txn Unit :=
  Tx.write fun rows =>
    { rows with
      triggerDue := moveDue rows.triggerDue key (before.bind (·.atMs)) (after.bind (·.atMs))
      triggerType :=
        moveTypes rows.triggerType key (before.elim [] (·.types)) (after.elim [] (·.types))
      trigger :=
        match after with
        | some t => rows.trigger.put key t
        | none => if before.isSome then rows.trigger.delete key else rows.trigger }

/-- Writes a trigger in place of the stored one. -/
def replaceTrigger (key : String) (after : Option Trigger) : Txn Unit := do
  let current ← Tx.read (·.trigger.get key)
  storeTrigger key current after

/-- The triggers that index rows lead to, each once. -/
def indexedTriggers (keys : List String) : Txn (List (String × Trigger)) :=
  Tx.fold (fun out k => do
    if out.any (·.1 == k) then pure out
    else
      let found ← Tx.read (·.trigger.get k)
      let t ← Tx.orFail found (.message s!"dangling trigger index {k}")
      pure (out ++ [(k, t)])) [] keys

/-- Drops the buffered slot of a trigger. -/
def removeQueue (key : String) : Txn Unit :=
  Tx.write fun rows =>
    match rows.triggerQueue.get key with
    | some q =>
      { rows with
        triggerQueue := rows.triggerQueue.delete key
        queueName := Table.deleteAt rows.queueName q.admission.name key }
    | none => rows

/-- Replaces the triggers a definition owns with `wanted`. -/
def arm (defs : Definitions) (wanted : Table String Trigger) : Txn Definitions := do
  Tx.each removeQueue defs.triggers
  Tx.each (fun k => replaceTrigger k none) (defs.triggers.filter fun k => !wanted.contains k)
  Tx.each (fun row => replaceTrigger row.1 (some row.2)) wanted.rows
  pure { defs with triggers := wanted.keys }

def storeDefinitions (name : String) (defs : Definitions) : Txn Unit :=
  Tx.write fun rows => { rows with definitions := rows.definitions.put name defs }

/-! ### The breaker -/

/-- Sixteen hexadecimal digits. -/
def hex16 (n : Nat) : String :=
  String.ofList ((List.range 16).reverse.map fun i => hexDigit (n / 16 ^ i % 16))

/-- The address of a trip's notice: its time, then the definition and epoch. -/
def noticeKey (name : String) (trip : Trip) : Int ×ₗ String :=
  toLex (trip.atMs, component name ++ ":" ++ hex16 trip.epoch)

/-- The trip as an identified CloudEvent. -/
def tripEvent (trip : Trip) (name : String) : Json :=
  let number (n : Nat) := Json.num (.int n)
  .obj [("data", .obj [("digest", .str trip.digest), ("epoch", number trip.epoch),
      ("faults", number trip.faults), ("name", .str name), ("reason", trip.reason.json),
      ("run", .str trip.run), ("threshold", number trip.threshold),
      ("version", number trip.version)]),
    ("id", .str s!"tripped:{trip.epoch}"), ("source", .str ("ouro/definitions/" ++ name)),
    ("specversion", .str "1.0"), ("subject", .str name),
    ("time", .str ((env.rfc3339 trip.atMs).getD "")), ("type", .str "ouro.definition.tripped")]

/-- The digest of a version the catalog holds. -/
def versionDigest (defs : Definitions) (version : Nat) : String :=
  ((defs.versions.get version).map (·.digest)).getD ""

/-- Counts a fault and trips at the threshold: the triggers go and the notice is stored. -/
def countFault (r : SavedRun) (reason : WorkflowError) (default : Nat) (now : Int)
    (defs : Definitions) : Txn Unit := do
  let name := r.admission.name
  let version := r.admission.version
  let defs := { defs with consecutiveFaults := min (defs.consecutiveFaults + 1) u32Max }
  let policy := ((defs.versions.get version).map (·.breaker)).getD .inherit
  match policy.effective default with
  | none => storeDefinitions name defs
  | some threshold =>
    if threshold ≤ defs.consecutiveFaults then
      let trip : Trip :=
        { manual := none, breaker := true, version, digest := versionDigest defs version,
          epoch := defs.epoch, faults := defs.consecutiveFaults, threshold, run := r.admission.id,
          reason, atMs := now }
      let defs ← arm defs .empty
      Tx.write fun rows =>
        { rows with notice := rows.notice.put (noticeKey name trip) (tripEvent env trip name) }
      storeDefinitions name { defs with tripped := some trip }
    else storeDefinitions name defs

/-- A terminal outcome's breaker observation. Only a run admitted in the active version's current
epoch counts, and only while the breaker has not tripped. -/
def breaker (r : SavedRun) (fault : Option WorkflowError) (success : Bool) (default : Nat)
    (now : Int) : Txn Unit := do
  match ← Tx.read (·.definitions.get r.admission.name) with
  | none => pure ()
  | some defs =>
    if defs.active ≠ some r.admission.version ∨ r.epoch ≠ some defs.epoch ∨ defs.tripped.isSome then
      pure ()
    else
      match fault with
      | some reason => countFault env r reason default now defs
      | none =>
        if success && decide (0 < defs.consecutiveFaults) then
          storeDefinitions r.admission.name { defs with consecutiveFaults := 0 }
        else pure ()

/-- The row of a run that ended faulted at its admission. -/
def stillborn (s : StoredRun) (error : WorkflowError) (now : Int) : StoredRun :=
  { s with
    run := { s.run with state := .failed, outcome := some (.faulted error), endedMs := some now } }

/-- A refused trigger run: admitted and ended faulted in the same write. -/
def refuse (refused : Refused) (now : Int) : Txn Unit := do
  match ← admitted refused.admission now .root with
  | none => pure ()
  | some s =>
    let s := stillborn s refused.error now
    storeRun s
    breaker env s.run (some refused.error) false refused.breakerThreshold now

/-! ### Buffered slots -/

/-- Whether the definition has room for another live run. -/
def capacity (rows : Rows) (name : String) (max : Nat) : Bool :=
  decide (0 < max) && decide ((scanIndex rows (.liveName name) anyId (some max)).length < max)

/-- Whether the trigger has a live run. -/
def triggerBusy (rows : Rows) (key : String) : Bool :=
  !(scanIndex rows (.triggerLive key) anyId (some 1)).isEmpty

/-- Admits a firing's run and binds it to the trigger. -/
def admitFiring (key : String) (a : Admission) (rearm : Option Rearm) (next : Option Trigger)
    (now : Int) : Txn Unit := do
  if ← insert a now then
    let s ← run a.id
    storeRun { s with
      trigger := some key
      rearm := rearm.bind fun r => next.map fun t => (r, t) }
  else pure ()
  Tx.write fun rows => { rows with triggerRun := rows.triggerRun.put key a.id }

/-- Promotes the buffered slot of a trigger, if its runs have ended and there is room. -/
def promote (name key : String) (now : Int) : Txn Unit := do
  match ← Tx.read (·.triggerQueue.get key) with
  | none =>
    -- a prior promotion of this batch may have tripped the definition and removed the slot
    let left ← Tx.read fun rows => (rows.queueName name).contains key
    Tx.ensure (!left) (.message "dangling queue index")
  | some q =>
    let waits ← Tx.read fun rows =>
      triggerBusy rows key || !capacity rows name q.maxConcurrentRuns
    if waits then pure ()
    else
      let found ← Tx.read (·.trigger.get key)
      let t ← Tx.orFail found (.message "queue without trigger")
      removeQueue key
      match q.failure with
      | some (error, breakerThreshold) =>
        refuse env { admission := q.admission, error, breakerThreshold } now
      | none => admitFiring key q.admission q.rearm (some t) now

/-- Promotes a definition's buffered slots; under the emergency stop it leaves a marker instead. -/
def drainQueues (name : String) (now : Int) : Txn Unit := do
  if ← isStopped then
    Tx.write fun rows =>
      if (rows.queueName name).isEmpty then rows
      else { rows with controlDrain := rows.controlDrain.put name true }
  else
    let keys ← Tx.read fun rows => (rows.queueName name).keys
    Tx.each (fun key => promote env name key now) keys

/-- Drains a definition's deferred queue before anything else is admitted to it. -/
def drainMarked (name : String) (now : Int) : Txn Bool := do
  let marked ← Tx.read (·.controlDrain.contains name)
  let stopped ← isStopped
  if marked && !stopped then
    Tx.write fun rows => { rows with controlDrain := rows.controlDrain.delete name }
    drainQueues env name now
    pure true
  else pure false

/-- Drains the first deferred queues. -/
def drainPending (now : Int) (limit : Nat) : Txn Unit := do
  let found ← Tx.read (·.controlDrain.scan Table.all (some limit))
  Tx.each (fun row => do
    Tx.write fun rows => { rows with controlDrain := rows.controlDrain.delete row.1 }
    drainQueues env row.1 now) found

/-! ### Termination -/

/-- The type of a child's lifecycle notification and its data; an interruption reports nothing. -/
def lifecycleNotice (id : String) : Status → Option (Bool × String × Json)
  | .completed output =>
    some (true, "done:" ++ id, .obj [("output", output), ("status", .str "completed")])
  | .faulted error =>
    some (true, "done:" ++ id, .obj [("error", error.json), ("status", .str "faulted")])
  | .cancelled => some (true, "done:" ++ id, .obj [("status", .str "cancelled")])
  | .waiting _ => some (false, "waiting:" ++ id, .obj [("status", .str "waiting")])
  | .interrupted _ => none

/-- Closes the automatic registration for a terminal child's waiting notifications, retaining any
explicit listen for that type. -/
def closeWaiting (parent id : String) : Txn Unit := do
  let p ← run parent
  let waiting := "waiting:" ++ id
  let closed := close p [waiting]
  if p.awaits.contains waiting && !closed.awaits.contains waiting then storeRun closed
  else pure ()

/-- Reports a child's status to its parent. -/
def lifecycle (id : String) (status : Status) (now : Int) : Txn Unit := do
  let s ← run id
  match s.run.child, lifecycleNotice id status with
  | none, _ | _, none => pure ()
  | some link, some (done, t, data) =>
    let first ← Tx.read fun rows => (rows.eventType link.parent).get t
    if done && first.isSome then pure ()
    else
      if done then closeWaiting link.parent id else pure ()
      notify link.parent t data now

/-- The state of a terminal status. -/
def terminalState : Status → RunState
  | .completed _ => .completed
  | .faulted _ => .failed
  | _ => .cancelled

/-- The row of a run that ended: no owner, no hold, no registrations. -/
def ending (s : StoredRun) (status : Status) (spent : Nat) (now : Int) : StoredRun :=
  { s with
    budgetEnded := some spent
    run := { s.run with
      state := terminalState status
      outcome := some status
      endedMs := some now
      fence := none
      leaseUntilMs := none
      held := none }
    awaits := .empty
    addressedWaits := ∅
    listeners := .empty
    subscriptions := .empty
    waits := .empty }

/-- The definitions' totals of the runs that ended, by name. -/
abbrev Ended : Type := Table String (Nat × Totals)

/-- Notes an ending run's annotation totals under its definition. -/
def tally (ended : Ended) (r : SavedRun) : Ended :=
  if r.annotations.isEmpty then ended
  else
    let (runs, totals) := (ended.get r.admission.name).getD (0, .empty)
    ended.put r.admission.name (runs + 1, accumulate env.addFloat totals r.annotations.rows)

/-- What the cascade gathers: the definitions it ended runs of, their totals and the runs it visited
so far. -/
structure Cascade where
  names : Table String Unit
  ended : Ended
  visited : List String

/-- The cascade after one more run ended. -/
def Cascade.note (acc : Cascade) (s : StoredRun) : Cascade :=
  { names := acc.names.put s.run.admission.name ()
    ended := tally env acc.ended s.run
    visited := acc.visited ++ [s.id] }

/-- Ends one owned child. Its row was read with the index; its index rows are not read twice. -/
def endChild (spent : Nat) (now : Int) (acc : Cascade) (child : StoredRun) : Txn Cascade := do
  storeRunIndexed (ending child .cancelled spent now) (indexes child)
  lifecycle child.id .cancelled now
  pure (acc.note env child)

/-- Ends the live owned descendants of the runs on the worklist, whose last run comes first. -/
def cascade (spent : Nat) (now : Int) : Nat → List String → Cascade → Txn Cascade
  | _, [], acc => pure acc
  | 0, _ :: _, _ => Tx.fail .diverged
  | fuel + 1, parent :: parents, acc => do
    let children ← indexedRuns (.children parent) anyId none
    let acc ← Tx.fold (endChild env spent now) acc children
    cascade spent now fuel ((children.map (·.id)).reverse ++ parents) acc

/-- Rearms the trigger a firing stored, when it is still that one and not due. -/
def rearmTrigger (s : StoredRun) (now : Int) : Txn Unit := do
  match s.rearm with
  | none => pure ()
  | some (rearm, armed) =>
    match ← Tx.read (·.trigger.get rearm.trigger) with
    | none => pure ()
    | some t =>
      if t = armed ∧ t.atMs = none then
        storeTrigger rearm.trigger (some t)
          (some { t with atMs := some (satAdd now rearm.delayMs) })
      else pure ()

/-- Ends the row of a run: its budget counter goes with a root, and its trigger may be rearmed. The
row as it was and the units its tree spent. -/
def endRow (id : String) (status : Status) (now : Int) : Txn (StoredRun × Nat) := do
  let s ← run id
  let spent ← Tx.read fun rows => (rows.budget.get (s.run.root.getD id)).getD 0
  storeRun (ending s status spent now)
  if s.run.root.isNone then
    Tx.write fun rows => { rows with budget := rows.budget.delete id }
  else pure ()
  rearmTrigger s now
  pure (s, spent)

/-- Ends a run and its live owned descendants. -/
def endTree (id : String) (status : Status) (now : Int) : Txn Cascade := do
  let (s, spent) ← endRow id status now
  let bound ← Tx.read (·.run.rows.length)
  let first : Cascade :=
    { names := Table.empty.put s.run.admission.name (), ended := tally env .empty s.run,
      visited := [] }
  cascade env spent now (bound + 1) [id] first

/-- The start of the bucket of an instant. -/
def bucketStart (ms : Int) : Int := satSub ms (ms % totalsBucketMs)

/-- Adds the totals of runs that ended now to a definition's bucket. -/
def addBucket (name : String) (now : Int) (runs : Nat) (annotations : Totals) : Txn Unit :=
  Tx.write fun rows =>
    let bucket := ((rows.totals name).get (bucketStart now)).getD { runs := 0, annotations := .empty }
    { rows with
      totals := Table.putAt rows.totals name (bucketStart now)
        { runs := min (bucket.runs + runs) u64Max
          annotations := accumulate env.addFloat bucket.annotations annotations.rows } }

/-- Ends a run: its tree, the notice to its parent, the slots its end makes room for and the totals
of its definition. -/
def terminate (id : String) (status : Status) (now : Int) : Txn Unit := do
  let acc ← endTree env id status now
  lifecycle id status now
  Tx.each (fun name => drainQueues env name now) acc.names.keys
  Tx.each (fun row => addBucket env row.1 now row.2.1 row.2.2) acc.ended.rows

def cancelRun (id : String) (now : Int) : Txn Bool := do
  match ← findRun id with
  | none => pure false
  | some s =>
    if s.run.endedMs.isSome then pure false
    else
      terminate env id .cancelled now
      pure true

end Engine

end Ouro
