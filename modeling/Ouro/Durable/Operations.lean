import Ouro.Durable.Firing

/-!
# The operations of the store

The mutating operations of `RunStore` as transactions; the operator's commands follow in their own
module. A fenced operation starts with `checked` (or `authority`), before it writes anything.

Some operations commit and then report an error (a renewal of a held run, an admission refused by a
trip its own drain committed): their transaction returns that error as a result. The owner a claim
draws at random is an argument here.
-/

namespace Ouro

open Lib

namespace Engine

variable (env : Env)

/-! ### Admission and leases -/

/-- `RunStore::admit`. -/
def admitRun (a : Admission) (now : Int) : Txn (Except Error Bool) := do
  let drained ← drainMarked env a.name now
  match ← drainedRefusal drained a with
  | some refusal => pure (.error refusal)
  | none => .ok <$> insert a now

def start (a : Admission) (now : Int) (owner : String) : Txn (Except Error (Option Fence)) := do
  let drained ← drainMarked env a.name now
  match ← drainedRefusal drained a with
  | some refusal => pure (.error refusal)
  | none =>
    match ← admitted a now .root with
    | none => pure (.ok none)
    | some s =>
      let (s, fence) ← Tx.ofExcept (claimRun s now owner)
      storeRun s
      pure (.ok (some fence))

def claimAs (id : String) (now : Int) (worker : Compatibility) (owner : String) :
    Txn (Option Fence) := do
  if ← isStopped then pure none
  else
    match ← findRun id with
    | none => pure none
    | some s =>
      if !claimable s.run now || !worker.admits s.run.admission.applicationVersion then pure none
      else
        let (s, fence) ← Tx.ofExcept (claimRun s now owner)
        storeRun s
        pure (some fence)

def checkLease (f : Fence) (now : Int) : Txn Unit := do
  let _ ← checked f now env.policy.skewMs
  pure ()

/-- The renewal of a held run's lease commits and answers that it is held. -/
def renew (f : Fence) (now : Int) : Txn (Except Error Unit) := do
  running
  let s ← authority f now env.policy.skewMs
  let s := { s with run := { s.run with leaseUntilMs := some (satAdd now leaseMs) } }
  storeRun s
  pure (notHeld s)

def release (f : Fence) (now : Int) : Txn Unit := do
  let s ← authority f now env.policy.skewMs
  storeRun { s with
    run := { s.run with state := .ready, fence := none, leaseUntilMs := none, wakeAtMs := now } }

/-! ### Records -/

def loadRecords (f : Fence) (now : Int) : Txn (Table String Record) := do
  let _ ← checked f now env.policy.skewMs
  Tx.read fun rows => rows.record f.runId

/-- An answer of a call already dispatched: the one step a hold lets pass. -/
def answers : Option Record → Record → Bool
  | some (.call _ _ _ _ .pending _), .call _ _ _ _ (.done _) _ => true
  | some (.call _ _ _ _ .pending _), .call _ _ _ _ (.notExecuted _) _ => true
  | _, _ => false

/-- Records that other operations commit: they may only be saved again as they are. -/
def committedElsewhere : Record → Option String
  | .event _ | .expired _ => some "event records must be committed by take_event"
  | .budget _ _ _ | .exceeded _ => some "budget records must be committed by spend"
  | _ => none

/-- The annotations an answer adds to the run's totals: none when the call had its answer. -/
def newAnnotations (old : Option Record) (r : Record) : List (String × Number) :=
  match old, r with
  | some (.call _ _ _ _ (.done _) _), _ => []
  | _, .call _ _ _ _ (.done _) annotations => numbers annotations
  | _, _ => []

/-- The checks of a save: no hold, unless it answers a call; only this operation's kinds of record; a
step the key's record allows. -/
def savable (s : StoredRun) (old : Option Record) (r : Record) : Txn Unit := do
  if answers old r then pure () else Tx.ofExcept (notHeld s)
  match committedElsewhere r with
  | some message => Tx.ensure (decide (old = some r)) (.message message)
  | none => pure ()
  Tx.ensure (old.all fun old => checkTransition old r)
    (.message "invalid durable record transition")

def saveRecord (f : Fence) (k : String) (r : Record) (now : Int) : Txn Unit := do
  running
  let s ← authority f now env.policy.skewMs
  let old ← Tx.read fun rows => (rows.record f.runId).get k
  savable s old r
  Tx.write fun rows => { rows with record := Table.putAt rows.record f.runId k r }
  let annotations := accumulate env.addFloat s.run.annotations (newAnnotations old r)
  if s.evidence && decide (annotations = s.run.annotations) then pure ()
  else storeRun { s with evidence := true, run := { s.run with annotations } }

/-- The key of the run's first refused decision: this one's, unless another was refused before. -/
def firstRefused (run k : String) : Txn String := do
  match ← Tx.read fun rows => (rows.record run).get exceededKey with
  | some (.exceeded by_) => pure by_
  | some _ => Tx.fail (.message "invalid first refusal record")
  | none =>
    Tx.write fun rows =>
      { rows with record := Table.putAt rows.record run exceededKey (.exceeded k) }
    pure k

/-- The decision on one more unit of the budget of `root`'s tree. -/
def spendUnit (run root k : String) (limit : Nat) : Txn Record := do
  let spent ← Tx.read fun rows => (rows.budget.get root).getD 0
  if spent < limit then
    Tx.write fun rows => { rows with budget := rows.budget.put root (spent + 1) }
    pure (.budget true (spent + 1) none)
  else
    let first ← firstRefused run k
    pure (.budget false spent (some first))

/-- Spends one unit of the budget the run's tree shares and saves the decision. -/
def spend (f : Fence) (k : String) (limit : Nat) (now : Int) : Txn Record := do
  let s ← checked f now env.policy.skewMs
  match ← Tx.read fun rows => (rows.record f.runId).get k with
  | some (.budget granted spent first) => pure (.budget granted spent first)
  | some _ => Tx.fail (.message s!"invalid budget record at {k}")
  | none =>
    let record ← spendUnit f.runId (s.run.root.getD f.runId) k limit
    Tx.write fun rows => { rows with record := Table.putAt rows.record f.runId k record }
    if s.evidence then pure () else storeRun { s with evidence := true }
    pure record

/-! ### Listens -/

/-- The run with registrations for `types`, each from `now` unless it is registered already. -/
def registered (s : StoredRun) (types : List String) (now : Int) : StoredRun :=
  types.foldl (fun s t =>
    { s with
      addressedWaits := Insert.insert t s.addressedWaits
      awaits := if s.awaits.contains t then s.awaits else s.awaits.put t now }) s

def registerWait (f : Fence) (types : List String) (now : Int) : Txn Unit := do
  let s ← checked f now env.policy.skewMs
  storeRun (registered s types now)

def unregisterWait (f : Fence) (k : String) (types : List String) (now : Int) : Txn Unit := do
  let s ← checked f now env.policy.skewMs
  storeRun (close { s with listeners := s.listeners.delete k } types)

def describeWait (f : Fence) (k : String) (wait : PendingWait) (now : Int) : Txn Unit := do
  let s ← checked f now env.policy.skewMs
  let wait := (s.waits.get k).elim wait fun old => { wait with sinceMs := old.sinceMs }
  if s.waits.get k = some wait then pure ()
  else storeRun { s with waits := s.waits.put k wait }

/-- The first sequence number of a table of copies. -/
def firstCopy (copies : Table Nat Nat) : Option Nat :=
  (copies.scan Table.all (some 1)).head?.map (·.2)

/-- The smaller of two sequence numbers, either of which may be missing. -/
def earlier (a b : Option Nat) : Option Nat :=
  match a, b with
  | some a, some b => some (min a b)
  | some a, none => some a
  | none, b => b

/-- The first pending copy, in arrival order, of a listed type or, for `*`, published. -/
def candidate (c : Core) (run : String) (types : List String) : Option Nat :=
  let typed := types.map fun t => firstCopy (c.pending (run, t))
  let kinds := if types.contains "*" then typed ++ [firstCopy (c.published run)] else typed
  kinds.foldl earlier none

/-- The run after one of its listens took a copy. -/
def tookEvent (s : StoredRun) (k : String) (types : List String) : StoredRun :=
  close
    { s with
      listeners := s.listeners.delete k
      waits := s.waits.retain fun _ w => decide (w.position ≠ k) } types

/-- The run without the internal listener of a child whose end was taken. -/
def joined (s : StoredRun) (type_ : String) : StoredRun :=
  (stripPrefix type_ "done:").elim s fun child =>
    { s with listeners := s.listeners.delete ("child:" ++ child) }

/-- Takes copy `n` under `k`. -/
def takeCopy (s : StoredRun) (k : String) (types : List String) (n : Nat) : Txn Json := do
  let stored ← copy s.id n
  let event ← envelope env stored
  let s ← consume (joined s stored.type_) n stored k
  let s ← if stored.expiresAtMs.isSome then refreshMailbox s else pure s
  Tx.write fun rows => { rows with record := Table.putAt rows.record s.id k (.event event) }
  storeRun (tookEvent s k types)
  pure event

def takeEvent (f : Fence) (k : String) (types : List String) (now : Int) : Txn (Option Json) := do
  let s ← checked f now env.policy.skewMs
  match ← Tx.read fun rows => (rows.record f.runId).get k with
  | some (.event event) => pure (some event)
  | some _ => Tx.fail (.message "invalid event checkpoint")
  | none =>
    -- a copy past its mailbox time is consumed by its expiry record, never by this listen
    let (s, _) ← expire env s now
    match ← Tx.read fun rows => candidate rows.toCore f.runId types with
    | some n => some <$> takeCopy env s k types n
    | none =>
      storeRun { s with listeners := s.listeners.put k types }
      pure none

def subscribe (f : Fence) (k : String) (types : List String) (now : Int) : Txn Unit := do
  let s ← checked f now env.policy.skewMs
  storeRun { s with subscriptions := s.subscriptions.put k types }

def unsubscribe (f : Fence) (k : String) (now : Int) : Txn Unit := do
  let s ← checked f now env.policy.skewMs
  storeRun { s with subscriptions := s.subscriptions.delete k, waits := s.waits.delete k }

/-! ### The end of an execution -/

/-- The delay before the next attempt after `n` interruptions. -/
def backoff (n : Nat) : Int := min (2000 * 2 ^ min (n - 1) 20) 600000

/-- The run as its execution leaves it, still owned, and the status it ends with: running out of
interruptions is a fault. -/
def finished (c : Core) (s : StoredRun) (outcome : Status) (now : Int) : StoredRun × Status :=
  match outcome with
  | .waiting wakeAtMs =>
    let s := { s with run := { s.run with state := .waiting, interruptions := 0, wakeAtMs } }
    (if pendingWanted c s now then { s with run := { s.run with wakeAtMs := now } } else s,
      outcome)
  | .interrupted error =>
    let n := min (s.run.interruptions + 1) u32Max
    let s := { s with run := { s.run with interruptions := n } }
    if maxInterruptions ≤ n then
      let detail := s!"gave up after {n} interruptions: " ++ error.shown
      (s, .faulted (.runtime detail))
    else ({ s with run := { s.run with state := .ready, wakeAtMs := satAdd now (backoff n) } }, outcome)
  | _ => ({ s with run := { s.run with interruptions := 0 } }, outcome)

/-- The fault a terminal status counts toward the breaker: exhausted interruptions do not. -/
def faultOf (outcome status : Status) : Option WorkflowError :=
  match outcome, status with
  | .interrupted _, _ => none
  | _, .faulted e => some e
  | _, _ => none

/-- A run without owner. -/
def disowned (s : StoredRun) : StoredRun :=
  { s with run := { s.run with fence := none, leaseUntilMs := none } }

def finish (f : Fence) (outcome : Status) (now : Int) (threshold : Nat) : Txn Status := do
  let s ← checked f now env.policy.skewMs
  let (s, status) ← Tx.read fun rows => finished rows.toCore s outcome now
  storeRun (disowned s)
  if status.terminal then
    let success := match status with
      | .completed _ => true
      | _ => false
    breaker env (disowned s).run (faultOf outcome status) success threshold now
    terminate env f.runId status now
  else lifecycle f.runId status now
  pure status

/-! ### Children -/

/-- The parent registered for a child's notices. -/
def adopting (p : StoredRun) (child : String) (now : Int) : StoredRun :=
  let await (t : String) (awaits : Table String Int) :=
    if awaits.contains t then awaits else awaits.put t now
  { p with
    awaits := await ("waiting:" ++ child) (await ("done:" ++ child) p.awaits)
    listeners := p.listeners.put ("child:" ++ child) ["done:" ++ child] }

/-- The row of a new child. -/
def linked (c : StoredRun) (link : ChildLink) (root : String) : StoredRun :=
  { c with run := { c.run with child := some link, root := some root } }

/-- Joins a stored child: its end or its wait is reported again. -/
def rejoin (c : StoredRun) (now : Int) : Txn Unit := do
  storeRun c
  match c.run.outcome with
  | some outcome => lifecycle c.id outcome now
  | none => if c.run.state = .waiting then lifecycle c.id (.waiting 0) now else pure ()

def startChild (parent : Fence) (a : Admission) (link : ChildLink) (now : Int) (owner : String) :
    Txn (Except Error (Option Fence)) := do
  let p ← checked parent now env.policy.skewMs
  Tx.ensure (decide (link.parent = parent.runId ∧ a.id ≠ parent.runId))
    (.message "invalid child parent")
  let drained ← drainMarked env a.name now
  match ← drainedRefusal drained a with
  | some refusal => pure (.error refusal)
  | none =>
    storeRun (adopting p a.id now)
    match ← admitted a now .child with
    | some c =>
      let c := linked c link (p.run.root.getD parent.runId)
      let (c, fence) ← Tx.ofExcept (claimRun c now owner)
      storeRun c
      pure (.ok (some fence))
    | none =>
      let c ← run a.id
      Tx.ensure (decide (c.run.child = some link)) (.admissionMismatch a.id .link)
      rejoin c now
      pure (.ok none)

/-- The outcome of a child of `parent` under `key`. -/
def childOutcome (parent key child : String) : Txn (Option Status) := do
  let s ← run child
  Tx.ensure (s.run.child.any fun l => l.parent == parent && l.key == key)
    (.message "child belongs to another parent or key")
  pure s.run.outcome

/-! ### Scheduling and sweeping -/

/-- The run of a due row. -/
def dueRun (row : IndexKey × IndexValue) : Txn String :=
  match row.2 with
  | .run id => pure id
  | .wait _ => Tx.fail (.message "invalid due index")

/-- The application versions a worker's due page covers, each once. -/
def versionsOf (own : String) (accepts : List String) : List String :=
  ("" :: own :: accepts).dedup

def dueAs (now : Int) (limit : Nat) (worker : Compatibility) : Txn (List String) := do
  if ← isStopped then pure []
  else
    drainPending env now limit
    match worker.version with
    | none =>
      let found ← Tx.read (scanIndex · .due (untilId now) (some limit))
      Tx.collect dueRun found
    | some own =>
      let found ← Tx.read fun rows =>
        (versionsOf own worker.accepts).flatMap fun v =>
          scanIndex rows (.dueApp v) (untilId now) (some limit)
      let ids ← Tx.collect dueRun found
      let merged := (found.map fun row => (ofLex row.1).2).zip ids
      pure (((merged.insertionSort fun a b => a.1 ≤ b.1).take limit).map (·.2))

def dueTriggers (now : Int) (limit : Nat) : Txn (List (String × Trigger)) := do
  if ← isStopped then pure []
  else
    let found ← Tx.read fun rows =>
      rows.triggerDue.scan (fun k => decide ((ofLex k).1 ≤ now)) (some limit)
    indexedTriggers (found.map (·.2))

/-- The triggers that react to a type or, after them, to every type. -/
def triggersFor (t : String) (limit : Nat) : Txn (List (String × Trigger)) := do
  if ← isStopped then pure []
  else
    let typed ← Tx.read fun rows => (rows.triggerType t).scan Table.all (some limit)
    let wild ← Tx.read fun rows =>
      if t ≠ "*" ∧ typed.length < limit then
        (rows.triggerType "*").scan Table.all (some (limit - typed.length))
      else []
    -- the rows are read back in the order of their addresses
    let found := if component t ≤ component "*" then typed ++ wild else wild ++ typed
    indexedTriggers (found.map (·.2))

/-- Removes a finished run's evidence once it is old enough. -/
def sweepFinished (horizon : Int) (records : Nat) (s : StoredRun) : Txn Nat := do
  if s.run.endedMs.any fun at_ => decide (at_ ≤ horizon) then
    let (s, n) ← forget s
    storeRun s
    pure (records + n)
  else pure records

/-- Expires the due mailbox copies of a run. -/
def sweepMailbox (now : Int) (expired : Nat) (s : StoredRun) : Txn Nat := do
  let (s, n) ← expire env s now
  storeRun s
  pure (expired + n)

/-- Removes the rows of a table and of its expiry index up to an instant. -/
def sweepDue {V : Type} (due : Table (Int ×ₗ String) String) (table : Table String V)
    (horizon : Int) : Table (Int ×ₗ String) String × Table String V × Nat :=
  let rows := due.scan (fun k => decide ((ofLex k).1 ≤ horizon)) none
  (rows.foldl (fun due row => due.delete row.1) due,
    rows.foldl (fun table row => table.delete row.2) table, rows.length)

def sweep (now kept : Int) : Txn Swept := do
  Tx.ensure (decide (0 ≤ kept)) (.message "negative retention")
  let horizon := satSub now kept
  let ended ← indexedRuns .finished (untilId horizon) none
  let records ← Tx.fold (sweepFinished horizon) 0 ended
  let mailboxes ← indexedRuns .mailbox (untilId now) none
  let expired ← Tx.fold (sweepMailbox env now) 0 mailboxes
  let (ingressDue, ingress, tombstones) ← Tx.read fun rows =>
    sweepDue rows.ingressDue rows.ingress now
  Tx.write fun rows => { rows with ingressDue, ingress }
  let (workerExpiry, worker, workers) ← Tx.read fun rows =>
    sweepDue rows.workerExpiry rows.worker (satSub now workersKeptMs)
  Tx.write fun rows => { rows with workerExpiry, worker }
  pure { records, expired, tombstones, workers }

/-- Upserts a worker's liveness row. -/
def beat (w : Worker) : Txn Unit := do
  Tx.ensure (decide (w.id ≠ "")) (.message "a worker needs an id")
  Tx.write fun rows =>
    let stored (due : Table (Int ×ₗ String) String) : Rows :=
      { rows with
        workerExpiry := due.put (toLex (w.expiresMs, w.id)) w.id
        worker := rows.worker.put w.id w }
    match rows.worker.get w.id with
    | none => stored rows.workerExpiry
    | some old =>
      if w.beatMs < old.beatMs then rows
      else if old.expiresMs ≠ w.expiresMs then
        stored (rows.workerExpiry.delete (toLex (old.expiresMs, old.id)))
      else stored rows.workerExpiry

/-! ### The catalog -/

/-- The version after the last one. -/
def nextVersion (defs : Definitions) : Option Nat :=
  match defs.versions.keys.getLast? with
  | none => some 1
  | some v => if v < u64Max then some (v + 1) else none

def saveDefinition (name yaml : String) (breaker : Breaker) : Txn Definition := do
  let found ← Tx.read (·.definitions.get name)
  let defs := found.getD .default
  let version ← Tx.orFail (nextVersion defs) (.message "definition version overflow")
  let d : Definition := { name, version, yaml, digest := env.digestOf yaml, breaker }
  storeDefinitions name { defs with versions := defs.versions.put version d }
  pure d

def acknowledge (key : Int ×ₗ String) : Txn Bool := do
  let found ← Tx.read (·.notice.contains key)
  if found then Tx.write fun rows => { rows with notice := rows.notice.delete key } else pure ()
  pure found

end Engine

end Ouro
