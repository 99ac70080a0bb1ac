import Ouro.Durable.Address
import Ouro.Lib.Tx
import Ouro.Lib.Derived

/-!
# Stored rows and index keys

The rows of the store, one table for each family of the engine, and the writes that keep the index
rows of a run in step with its row (`storeRun`).

`Core` holds the rows that belong to runs: the run rows and, partitioned by run, what grows with a
run's life (its records, the copies of events it accepted with their index rows, the counter of its
tree's budget). `Rows` adds the index that derives from the run rows, the definitions and triggers,
and the operator's rows. A row's value is kept typed; the layout versions the source checks when it
decodes a row are constants of the code and are left out.

`indexes` holds the index rows of a run. Everything there derives from the run row;
`storeRunIndexed` applies the difference of two such tables together with the row.
-/

namespace Ouro

open Lib

/-! ### The rows -/

/-- When a pending copy expires (`⊤`: never), then its sequence number. -/
abbrev Expiry : Type := WithTop Int ×ₗ Nat

/-- The rows of runs. -/
structure Core where
  /-- Run rows, by run id. -/
  run : Table String StoredRun
  /-- A run's journal, by record key. -/
  record : String → Table String Record
  /-- A run's accepted copies, by sequence number. -/
  event : String → Table Nat StoredEvent
  /-- The sequence of the copy that holds an identity. -/
  eventId : String → Table String Nat
  /-- The sequence of the first copy of a type. -/
  eventType : String → Table String Nat
  /-- A run's pending copies of a type, in arrival order. -/
  pending : String × String → Table Nat Nat
  /-- The same by expiry: whether the copy is a CloudEvent. -/
  live : String × String → Table Expiry Bool
  /-- A run's pending published copies, in arrival order. -/
  published : String → Table Nat Nat
  /-- The same by expiry. -/
  livePublished : String → Table Expiry Nat
  /-- A run's pending mailbox copies, by expiry. -/
  expiry : String → Table (Int ×ₗ Nat) (Int × Nat)
  /-- The recipients of a delivered identity. -/
  delivered : String → Table String String
  /-- The units a run tree spent, by its root. -/
  budget : Table String Nat

/-- The rows of the store. -/
structure Rows extends Core where
  /-- The index rows that derive from run rows. -/
  index : Table IndexKey IndexValue
  /-- The emergency stop. -/
  stopped : Option Bool
  /-- Definitions whose queues are drained later. -/
  controlDrain : Table String Bool
  definitions : Table String Definitions
  trigger : Table String Trigger
  triggerDue : Table (Int ×ₗ String) String
  triggerType : String → Table String String
  /-- The run a trigger admitted last. -/
  triggerRun : Table String String
  triggerQueue : Table String Queued
  queueName : String → Table String String
  ingress : Table String Tombstone
  ingressDue : Table (Int ×ₗ String) String
  paused : Table String Paused
  notice : Table (Int ×ₗ String) Json
  totals : String → Table Int Bucket
  controlCommand : Table String Entry
  controlHistory : Table (Int ×ₗ String) Entry
  controlHistoryRun : String → Table (Int ×ₗ String) Entry
  controlResponse : String → Table String Entry
  worker : Table String Worker
  workerExpiry : Table (Int ×ₗ String) String

/-- The empty store. -/
def Rows.empty : Rows :=
  { run := .empty, record := fun _ => .empty, event := fun _ => .empty, eventId := fun _ => .empty,
    eventType := fun _ => .empty, pending := fun _ => .empty, live := fun _ => .empty,
    published := fun _ => .empty, livePublished := fun _ => .empty, expiry := fun _ => .empty,
    delivered := fun _ => .empty, budget := .empty, index := .empty, stopped := none,
    controlDrain := .empty, definitions := .empty, trigger := .empty, triggerDue := .empty,
    triggerType := fun _ => .empty, triggerRun := .empty, triggerQueue := .empty,
    queueName := fun _ => .empty, ingress := .empty, ingressDue := .empty, paused := .empty,
    notice := .empty, totals := fun _ => .empty, controlCommand := .empty,
    controlHistory := .empty, controlHistoryRun := fun _ => .empty,
    controlResponse := fun _ => .empty, worker := .empty, workerExpiry := .empty }

/-- A computation on the rows of the store. -/
abbrev Txn (α : Type) : Type := Tx Rows Error α

/-! ### The index rows of a run -/

/-- The listings of a run by its admission, or by its end. -/
def runKinds (r : SavedRun) (history : Bool) : List IndexKind :=
  if history then [.controlEnd, .controlEndOf r.admission.name]
  else [.controlRun, .controlRunOf r.admission.name]

/-- The listings of a pending wait. -/
def waitKinds (w : Wait) : List IndexKind :=
  [.controlWait, .controlWaitDefinition w.definition, .controlWaitRun w.run] ++
    w.waiting.types.flatMap fun t => [.controlWaitType t, .controlWaitDefinitionType w.definition t]

/-- When the run is due: a running run at its lease's end, any other at its wake-up, a held one
never. -/
def dueAt (s : StoredRun) : Option Int :=
  if s.run.held.isSome then none
  else if s.run.state = .running then s.run.leaseUntilMs
  else some s.run.wakeAtMs

/-- The automatic registration of a child's waiting notifications: it is addressed internally and
needs no competing-delivery index until an explicit listen registers the type. -/
def internal (s : StoredRun) (t : String) : Bool :=
  (stripPrefix t "waiting:").any fun id => s.listeners.contains ("child:" ++ id)

/-- The registrations that compete for an untargeted delivery: those of an unheld run whose type has
no pending copy. -/
def offered (s : StoredRun) : List (String × Int) :=
  if s.run.held.isSome then []
  else s.awaits.rows.filter fun (t, _) =>
    !s.pending.contains t && (!internal s t || decide (t ∈ s.addressedWaits))

/-- The index rows of a live run. -/
def liveEntries (s : StoredRun) : List (IndexKey × IndexValue) :=
  let value := IndexValue.run s.id
  (indexKey (.liveName s.run.admission.name) (.run s.id), value) ::
    (s.trigger.toList.map fun trigger => (indexKey (.triggerLive trigger) (.run s.id), value)) ++
    (dueAt s).toList.flatMap (fun due =>
      [(indexKey .due (.timed due s.id), value),
        (indexKey (.dueApp (s.run.admission.applicationVersion.getD "")) (.timed due s.id), value)]) ++
    (s.run.child.toList.map fun link => (indexKey (.children link.parent) (.run s.id), value)) ++
    ((offered s).map fun (t, at_) => (indexKey (.wait t) (.timed at_ s.id), value)) ++
    (s.subscriptions.values.flatten.map fun t => (indexKey (.subs t) (.run s.id), value)) ++
    (s.mailbox.toList.map fun at_ => (indexKey .mailbox (.timed at_ s.id), value))

/-- The index rows a run's row yields. -/
def entries (s : StoredRun) : List (IndexKey × IndexValue) :=
  let value := IndexValue.run s.id
  let started := IndexId.timed s.run.admittedMs s.id
  (indexKey (.name s.run.admission.name) (.run s.id), value) ::
    ((runKinds s.run false).map fun kind => (indexKey kind started, value)) ++
    s.run.endedMs.toList.flatMap (fun at_ =>
      (runKinds s.run true).map fun kind => (indexKey kind (.timed at_ s.id), value)) ++
    (s.run.child.toList.map fun link => (indexKey (.controlParent link.parent) started, value)) ++
    s.waits.rows.flatMap (fun (k, w) =>
      let entry : Wait := { run := s.id, definition := s.run.admission.name, key := k, waiting := w }
      (waitKinds entry).map fun kind => (indexKey kind (.wait w.sinceMs s.id k), .wait entry)) ++
    match s.run.endedMs with
    | none => liveEntries s
    | some ended => if s.evidence then [(indexKey .finished (.timed ended s.id), value)] else []

/-- The index rows of a run, by address. -/
def indexes (s : StoredRun) : Table IndexKey IndexValue :=
  .ofList (entries s)

namespace Engine

/-- The stored run, when there is one. -/
def findRun (id : String) : Txn (Option StoredRun) := Tx.read (·.run.get id)

/-- The stored run. -/
def run (id : String) : Txn StoredRun := do
  let found ← findRun id
  Tx.orFail found (.message s!"unknown run {id}")

/-- Stores a run row and moves its index rows from `before`. -/
def storeRunIndexed (snapshot : StoredRun) (before : Table IndexKey IndexValue) : Txn Unit :=
  Tx.write fun rows =>
    { rows with
      index := rows.index.apply (Table.changes before (indexes snapshot))
      run := rows.run.put snapshot.id snapshot }

/-- Stores a run row and moves its index rows from those of the stored one. -/
def storeRun (snapshot : StoredRun) : Txn Unit := do
  let old ← findRun snapshot.id
  storeRunIndexed snapshot (old.elim .empty indexes)

/-- The index rows of `kind` in `range`, in order. -/
def scanIndex (rows : Rows) (kind : IndexKind) (range : IndexId → Bool) (limit : Option Nat) :
    List (IndexKey × IndexValue) :=
  rows.index.scan (fun k => decide ((ofLex k).1 = kind) && range (ofLex k).2) limit

/-- The run an index row leads to. -/
def indexedRun (row : IndexKey × IndexValue) : Txn StoredRun :=
  match row.2 with
  | .run id => run id
  | .wait _ => Tx.fail (.message "invalid run index")

/-- The runs the index rows of `kind` in `range` lead to, in order. -/
def indexedRuns (kind : IndexKind) (range : IndexId → Bool) (limit : Option Nat) :
    Txn (List StoredRun) := do
  let found ← Tx.read (scanIndex · kind range limit)
  Tx.collect indexedRun found

/-- Every id of a kind. -/
def anyId : IndexId → Bool := fun _ => true

/-- The timed ids up to `ms`. -/
def untilId (ms : Int) : IndexId → Bool
  | .timed at_ _ | .wait at_ _ _ => decide (at_ ≤ ms)
  | .run _ => false

end Engine

end Ouro
