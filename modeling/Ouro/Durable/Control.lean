import Ouro.Durable.Operations

/-!
# Operator commands

Attributed commands: cancelling, holding and releasing runs, pausing and resuming definitions, the
emergency stop and answers to waits. A command's effect, its audit entry and its reply commit
together; a request id already committed changes nothing and returns the stored reply.
-/

namespace Ouro

open Lib

namespace Engine

variable (env : Env)

/-! ### Hold and release -/

/-- The live subtree of the runs listed, level by level: `tree` is what was found so far and `next`
the part of it whose children are still to be read. -/
def subtree : Nat → List StoredRun → List StoredRun → Txn (List StoredRun)
  | _, [], tree => pure tree
  | 0, _ :: _, _ => Tx.fail .diverged
  | fuel + 1, s :: next, tree => do
    let children ← indexedRuns (.children s.id) anyId none
    subtree fuel (next ++ children) (tree ++ children)

/-- Holds or releases one run of the tree, unless it is in the wanted state already. -/
def holdOne (hold : Option Hold) (changed : Bool) (s : StoredRun) : Txn Bool := do
  if s.run.held.isSome = hold.isSome then pure changed
  else
    storeRunIndexed { s with run := { s.run with held := hold } } (indexes s)
    pure true

/-- Holds or releases a live run and its live owned descendants. -/
def setHold (id : String) (hold : Option Hold) : Txn Bool := do
  let found ← findRun id
  let root ← Tx.orFail found (.control (.notFound .run id))
  if root.run.endedMs.isSome then pure false
  else
    let bound ← Tx.read (·.run.rows.length)
    let tree ← subtree (bound + 1) [root] [root]
    Tx.fold (holdOne hold) false tree

/-! ### Pause and resume -/

/-- Keeps a definition's triggers and buffered slots aside and disarms it. -/
def suspend (name : String) (defs : Definitions) : Txn Definitions := do
  Tx.write fun rows =>
    let triggers := defs.triggers.foldl (fun (triggers : Table String Trigger) k =>
      (rows.trigger.get k).elim triggers (triggers.put k)) .empty
    let queues := defs.triggers.foldl (fun (queues : Table String Queued) k =>
      (rows.triggerQueue.get k).elim queues (queues.put k)) .empty
    { rows with paused := rows.paused.put name { epoch := defs.epoch, triggers, queues } }
  arm defs .empty

/-- The report of a pause without a breaker's trip under it. -/
def pauseTrip (defs : Definitions) (manual : ManualTrip) (version : Nat) (reason : String)
    (now : Int) : Trip :=
  { manual := some manual, breaker := false, version, digest := versionDigest defs version,
    epoch := defs.epoch, faults := defs.consecutiveFaults, threshold := 0, run := ""
    reason :=
      { type_ := "manual", status := 409, title := some "Definition paused", detail := some reason,
        instance_ := none }
    atMs := now }

/-- The catalog of a name an operator command gives. -/
def knownDefinitions (name : String) : Txn Definitions := do
  let found ← Tx.read (·.definitions.get name)
  Tx.orFail found (.control (.notFound .definition name))

def pause (request : Request) (name note : String) (now : Int) : Txn Bool := do
  let defs ← knownDefinitions name
  let manual : ManualTrip := { actor := request.actor, reason := request.reason, note }
  match defs.tripped with
  | some trip =>
    if trip.manual.isNone then
      -- the pause stands beside the breaker's report
      let defs ← suspend name { defs with tripped := some { trip with manual := some manual } }
      storeDefinitions name defs
      pure true
    else pure false
  | none =>
    let version ← Tx.orFail defs.active
      (.control (.invalidState s!"definition {name} has no active version"))
    let suspended ← suspend name defs
    storeDefinitions name
      { suspended with tripped := some (pauseTrip defs manual version request.reason now) }
    pure true

/-- Puts a buffered slot back. -/
def restoreQueue (name : String) (row : String × Queued) : Txn Unit := do
  Tx.ensure (decide (row.2.admission.name = name)) (.message "invalid suspended queue")
  Tx.write fun rows =>
    { rows with
      triggerQueue := rows.triggerQueue.put row.1 row.2
      queueName := Table.putAt rows.queueName name row.1 row.1 }

def resume (name : String) (now : Int) : Txn Bool := do
  let defs ← knownDefinitions name
  match defs.tripped with
  | none => pure false
  | some trip =>
    Tx.ensure trip.manual.isSome
      (.control (.invalidState (name ++ ": a breaker trip requires activation")))
    let found ← Tx.read (·.paused.get name)
    let paused ← Tx.orFail found (.message "missing suspended triggers")
    Tx.ensure (decide (paused.epoch = defs.epoch))
      (.control (.invalidState (name ++ ": suspended activation changed")))
    -- only the pause is lifted: a breaker's trip under it stays
    let tripped := if trip.breaker then some { trip with manual := none } else none
    let defs ← arm { defs with tripped } paused.triggers
    Tx.each (restoreQueue name) paused.queues.rows
    Tx.write fun rows => { rows with paused := rows.paused.delete name }
    storeDefinitions name defs
    drainQueues env name now
    pure true

/-! ### Answers to waits -/

/-- A response's event as it is delivered: with its version and time filled in. -/
def responseEvent (event : Json) (now : Int) : Txn Json :=
  match event with
  | .obj _ => do
    let time ← Tx.orFail (env.rfc3339 now) (.message "invalid response timestamp")
    pure ((event.entry "specversion" (.str "1.0")).entry "time" (.str time))
  | other => pure other

/-- A delivered copy as published. -/
def asPublished (e : StoredEvent) : StoredEvent := { e with delivered := false }

/-- The rows after a delivered copy is also offered to wildcard listens. -/
def offerCopy (c : Core) (run : String) (n : Nat) (e : StoredEvent) : Core :=
  { c with
    event := Table.putAt c.event run n (asPublished e)
    published := Table.putAt c.published run n n
    livePublished := Table.putAt c.livePublished run (liveKey e n) n }

/-- The run with one more published copy, woken. -/
def offering (s : StoredRun) (now : Int) : StoredRun :=
  { wakeBy s now with published := s.published + 1 }

/-- Offers an accepted answer to a wildcard listen. -/
def offerWildcard (id : String) (n : Nat) (now : Int) : Txn Unit := do
  let stored ← copy id n
  Tx.ensure stored.consumedKey.isNone (.message "response event already consumed by another wait")
  if stored.delivered then
    let current ← run id
    Tx.ensure (decide (current.published < u64Max)) (.message "published counter overflow")
    Tx.write fun rows => { rows with toCore := offerCopy rows.toCore id n stored }
    storeRun (offering current now)
  else pure ()

/-- Answers an open wait with an event: it is delivered to the run. -/
def answerWait (id key identity : String) (event : Json) (now : Int) : Txn (Option String) := do
  let found ← findRun id
  let s ← Tx.orFail found (.control (.notFound .run id))
  let w ← Tx.orFail (s.waits.get key) (.control (.waitClosed id key))
  Tx.ensure (s.run.endedMs.isNone && w.timeoutMs.all fun at_ => decide (now < at_))
    (.control (.waitClosed id key))
  let event ← responseEvent env event now
  let matched ← Tx.ofExcept <| (env.accepts w event).mapError fun e =>
    .control (.invalidState (s!"wait {key} of run {id} cannot be matched here: " ++ e))
  Tx.ensure matched (.control (.waitMismatch id key))
  let recipient ← deliver env event (some id) now
  let accepted ← Tx.read fun rows => (rows.eventId id).get identity
  let n ← Tx.orFail accepted (.message "response was not accepted")
  if w.types.contains "*" then offerWildcard id n now else pure ()
  pure recipient

def respond (request : Request) (canonical : Command) (id key : String) (event : Json) (now : Int) :
    Txn Reply := do
  let identity ← Tx.orFail (identity event)
    (.control (.invalidInput "response requires event source and id"))
  match ← Tx.read fun rows => (rows.controlResponse id).get identity with
  | some entry =>
    Tx.ensure (decide (entry.command = canonical))
      (.control (.responseConflict (shown identity)))
    pure entry.reply
  | none =>
    let recipient ← answerWait env id key identity event now
    let reply := Reply.responded recipient
    Tx.write fun rows =>
      { rows with
        controlResponse := Table.putAt rows.controlResponse id identity
          { request, command := canonical, atMs := now, reply } }
    pure reply

/-! ### Commands -/

/-- A command as it is audited: a response without its time and with its version. -/
def normalizeCommand : Command → Command
  | .respond run wait event => .respond run wait ((payload event).entry "specversion" (.str "1.0"))
  | c => c

def stop (enabled : Bool) (now : Int) : Txn Bool := do
  let stopped ← isStopped
  if stopped = enabled then pure false
  else
    if enabled then Tx.write fun rows => { rows with stopped := some true }
    else do
      Tx.write fun rows => { rows with stopped := none }
      drainPending env now maxPage
    pure true

/-- The effect of a command. -/
def perform (request : Request) (command canonical : Command) (now : Int) : Txn Reply :=
  match command with
  | .cancel id => Reply.changed <$> cancelRun env id now
  | .hold id note =>
    let hold : Hold := { actor := request.actor, reason := request.reason, note, atMs := now }
    Reply.changed <$> setHold id (some hold)
  | .release id => Reply.changed <$> setHold id none
  | .stop enabled => Reply.changed <$> stop env enabled now
  | .pause name note => Reply.changed <$> pause request name note now
  | .resume name => Reply.changed <$> resume env name now
  | .respond id key event => respond env request canonical id key event now

/-- The run a command is about. -/
def commandRun : Command → Option String
  | .cancel run | .respond run _ _ | .hold run _ | .release run => some run
  | _ => none

/-- Stores the audit entry of a command. -/
def audit (entry : Entry) : Txn Unit :=
  Tx.write fun rows =>
    let k := toLex (entry.atMs, entry.request.id)
    { rows with
      controlCommand := rows.controlCommand.put entry.request.id entry
      controlHistory := rows.controlHistory.put k entry
      controlHistoryRun := (commandRun entry.command).elim rows.controlHistoryRun fun run =>
        Table.putAt rows.controlHistoryRun run k entry }

/-- Executes an attributed operator command. -/
def applyControl (request : Request) (command : Command) (now : Int) : Txn Applied := do
  Tx.ensure (!blank request.id && !blank request.actor && !blank request.reason)
    (.control (.invalidInput "control request requires id, actor and reason"))
  let canonical := normalizeCommand command
  match ← Tx.read (·.controlCommand.get request.id) with
  | some entry =>
    Tx.ensure (decide (entry.request = request ∧ entry.command = canonical))
      (.control (.requestConflict request.id))
    pure { reply := entry.reply, repeated := true }
  | none =>
    let reply ← perform env request command canonical now
    audit { request, command := canonical, atMs := now, reply }
    pure { reply, repeated := false }

end Engine

/-! ### The store as a state machine -/

/-- One mutating call of the store, with the owner it would draw. -/
inductive Op where
  | admitRun (a : Admission) (now : Int)
  | start (a : Admission) (now : Int) (owner : String)
  | claimAs (id : String) (now : Int) (worker : Compatibility) (owner : String)
  | checkLease (f : Fence) (now : Int)
  | renew (f : Fence) (now : Int)
  | release (f : Fence) (now : Int)
  | loadRecords (f : Fence) (now : Int)
  | saveRecord (f : Fence) (k : String) (r : Record) (now : Int)
  | registerWait (f : Fence) (types : List String) (now : Int)
  | unregisterWait (f : Fence) (k : String) (types : List String) (now : Int)
  | describeWait (f : Fence) (k : String) (wait : PendingWait) (now : Int)
  | deliver (event : Json) (target : Option String) (now : Int)
  | takeEvent (f : Fence) (k : String) (types : List String) (now : Int)
  | subscribe (f : Fence) (k : String) (types : List String) (now : Int)
  | unsubscribe (f : Fence) (k : String) (now : Int)
  | publish (event : Json) (target : Option String) (now : Int)
  | fire (f : Firing) (now : Int)
  | finish (f : Fence) (outcome : Status) (now : Int) (threshold : Nat)
  | startChild (parent : Fence) (a : Admission) (link : ChildLink) (now : Int) (owner : String)
  | spend (f : Fence) (k : String) (limit : Nat) (now : Int)
  | dueAs (now : Int) (limit : Nat) (worker : Compatibility)
  | cancel (id : String) (now : Int)
  | sweep (now kept : Int)
  | saveDefinition (name yaml : String) (breaker : Breaker)
  | activate (name : String) (version : Nat) (now : Int)
  | activateWith (name : String) (version epoch : Nat) (arming : Table String Trigger)
      (activation : Activation)
  | acknowledge (key : Int ×ₗ String)
  | beat (worker : Worker)
  | applyControl (request : Request) (command : Command) (now : Int)

/-- The instant a call is made at, as it says. A call that touches no runs may say none. -/
def Op.instant : Op → Option Int
  | .admitRun _ now | .start _ now _ | .claimAs _ now _ _ | .checkLease _ now | .renew _ now
  | .release _ now | .loadRecords _ now | .saveRecord _ _ _ now | .registerWait _ _ now
  | .unregisterWait _ _ _ now | .describeWait _ _ _ now | .deliver _ _ now | .takeEvent _ _ _ now
  | .subscribe _ _ _ now | .unsubscribe _ _ now | .publish _ _ now | .fire _ now | .finish _ _ now _
  | .startChild _ _ _ now _ | .spend _ _ _ now | .dueAs now _ _ | .cancel _ now | .sweep now _
  | .activate _ _ now | .applyControl _ _ now => some now
  | .saveDefinition _ _ _ | .activateWith _ _ _ _ _ | .acknowledge _ | .beat _ => none

/-- What a call returns. -/
inductive Result where
  | unit
  | flag (b : Bool)
  | fence (f : Option Fence)
  | records (records : Table String Record)
  | recipient (run : Option String)
  | event (event : Option Json)
  | ids (runs : List String)
  | fired (fired : Fired)
  | status (status : Status)
  | record (record : Record)
  | swept (swept : Swept)
  | definition (definition : Definition)
  | definitions (definitions : Option Definitions)
  | applied (applied : Applied)
deriving DecidableEq

/-- A call that returns what its transaction computed. -/
def returning {α : Type} (f : α → Result) (m : Txn α) : Txn (Except Error Result) :=
  (fun a => .ok (f a)) <$> m

/-- A call whose committed result may itself be an error. -/
def reporting {α : Type} (f : α → Result) (m : Txn (Except Error α)) : Txn (Except Error Result) :=
  Except.map f <$> m

/-- The transaction of a call. -/
def Op.tx (env : Env) : Op → Txn (Except Error Result)
  | .admitRun a now => reporting .flag (Engine.admitRun env a now)
  | .start a now owner => reporting .fence (Engine.start env a now owner)
  | .claimAs id now worker owner => returning .fence (Engine.claimAs id now worker owner)
  | .checkLease f now => returning (fun _ => .unit) (Engine.checkLease env f now)
  | .renew f now => reporting (fun _ => .unit) (Engine.renew env f now)
  | .release f now => returning (fun _ => .unit) (Engine.release env f now)
  | .loadRecords f now => returning .records (Engine.loadRecords env f now)
  | .saveRecord f k r now => returning (fun _ => .unit) (Engine.saveRecord env f k r now)
  | .registerWait f types now => returning (fun _ => .unit) (Engine.registerWait env f types now)
  | .unregisterWait f k types now =>
    returning (fun _ => .unit) (Engine.unregisterWait env f k types now)
  | .describeWait f k wait now => returning (fun _ => .unit) (Engine.describeWait env f k wait now)
  | .deliver event target now => returning .recipient (Engine.deliver env event target now)
  | .takeEvent f k types now => returning .event (Engine.takeEvent env f k types now)
  | .subscribe f k types now => returning (fun _ => .unit) (Engine.subscribe env f k types now)
  | .unsubscribe f k now => returning (fun _ => .unit) (Engine.unsubscribe env f k now)
  | .publish event target now => returning .ids (Engine.publish env event target now)
  | .fire f now => reporting .fired (Engine.fire env f now)
  | .finish f outcome now threshold => returning .status (Engine.finish env f outcome now threshold)
  | .startChild parent a link now owner =>
    reporting .fence (Engine.startChild env parent a link now owner)
  | .spend f k limit now => returning .record (Engine.spend env f k limit now)
  | .dueAs now limit worker => returning .ids (Engine.dueAs env now limit worker)
  | .cancel id now => returning .flag (Engine.cancelRun env id now)
  | .sweep now kept => returning .swept (Engine.sweep env now kept)
  | .saveDefinition name yaml breaker =>
    returning .definition (Engine.saveDefinition env name yaml breaker)
  | .activate name version now =>
    returning (fun _ => .unit)
      (Engine.activate name version none .empty { atMs := now, actor := none, note := none })
  | .activateWith name version epoch arming activation =>
    returning .definitions (Engine.activate name version (some epoch) arming activation)
  | .acknowledge key => returning .flag (Engine.acknowledge key)
  | .beat worker => returning (fun _ => .unit) (Engine.beat worker)
  | .applyControl request command now =>
    returning .applied (Engine.applyControl env request command now)

/-- One call against stored rows: what it returns and the rows stored afterwards. -/
def call (env : Env) (rows : Rows) (op : Op) : Except Error Result × Rows :=
  match (op.tx env).commit rows with
  | (.ok result, rows) => (result, rows)
  | (.error e, rows) => (.error e, rows)

/-- The rows stored after one call. -/
def step (env : Env) (rows : Rows) (op : Op) : Rows := (call env rows op).2

/-- The rows after a history of calls on the empty store. -/
def after (env : Env) (history : List Op) : Rows := runs (step env) .empty history

end Ouro
