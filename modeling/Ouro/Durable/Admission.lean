import Ouro.Durable.Rows

/-!
# Admission, leases and compatibility

Who may act on a run (`authority`, `checked`), how a worker takes one (`claimable`, `claimRun`), and
the row a new run starts with (`admitted`). An admission of a stored id joins the stored run or is
refused; a standing trip refuses a new run in the transaction that reads it (`barred`).
-/

namespace Ouro

open Lib

namespace Engine

/-! ### Leases -/

/-- The current owner's authority: it acts only while its lease has more than the skew bound left. -/
def authority (fence : Fence) (now skew : Int) : Txn StoredRun := do
  let snapshot ← run fence.runId
  Tx.ensure (decide (snapshot.run.state = .running ∧ snapshot.run.fence = some fence) &&
      snapshot.run.leaseUntilMs.any fun until_ => decide (satAdd now skew < until_))
    (.message s!"run {fence.runId} lease expired or was replaced")
  pure snapshot

def isStopped : Txn Bool := Tx.read (·.stopped.getD false)

def running : Txn Unit := do
  let stopped ← isStopped
  Tx.ensure (!stopped) .stopped

/-- An operator's hold refuses. -/
def notHeld (s : StoredRun) : Except Error Unit :=
  if s.run.held.isSome then .error (.held s.id) else .ok ()

/-- Every fenced step: no emergency stop, current ownership and no operator hold. -/
def checked (fence : Fence) (now skew : Int) : Txn StoredRun := do
  running
  let s ← authority fence now skew
  Tx.ofExcept (notHeld s)
  pure s

/-- A ready or waiting run from its wake-up, a running one from its lease's end; a held one never. -/
def claimable (r : SavedRun) (now : Int) : Bool :=
  if r.held.isSome then false
  else
    match r.state with
    | .ready | .waiting => decide (r.wakeAtMs ≤ now)
    | .running => r.leaseUntilMs.any fun at_ => decide (at_ ≤ now)
    | _ => false

/-- The run as its new owner has it. A takeover records the lease's end as the wake-up. -/
def claimed (s : StoredRun) (now : Int) (owner : String) : StoredRun :=
  let r := s.run
  { s with
    run := { r with
      generation := r.generation + 1
      wakeAtMs := if r.state = .running then r.leaseUntilMs.getD r.wakeAtMs else r.wakeAtMs
      fence := some { runId := s.id, owner, generation := r.generation + 1 }
      leaseUntilMs := some (satAdd now leaseMs)
      state := .running } }

/-- Gives the run to `owner` under a new generation. -/
def claimRun (s : StoredRun) (now : Int) (owner : String) : Except Error (StoredRun × Fence) :=
  if s.run.generation < u64Max then
    .ok (claimed s now owner, { runId := s.id, owner, generation := s.run.generation + 1 })
  else .error (.message "fence generation overflow")

/-! ### Admission -/

/-- How an admission of a stored run id joins it. -/
inductive Join where
  | root
  | child
deriving DecidableEq, Repr

/-- The content digest of the admitted version as the catalog stores it. -/
def digest (defs : Option Definitions) (a : Admission) : String :=
  ((defs.bind fun d => d.versions.get a.version).map (·.digest)).getD ""

/-- The refusal a standing trip gives a new run: a pause refuses every one; an automatic trip the
tripped content, and a version the catalog does not hold. -/
def barred (defs : Option Definitions) (a : Admission) : Option DefinitionTripped :=
  (defs.bind (·.tripped)).bind fun trip =>
    let d := digest defs a
    if trip.manual.isSome ∨ d = "" ∨ d = trip.digest then some (trip.refusal a.name) else none

/-- The row of a new run. -/
def fresh (a : Admission) (digest : String) (epoch : Option Nat) (now : Int) : StoredRun :=
  { run :=
      { admission := a, state := .ready, fence := none, generation := 0, leaseUntilMs := none,
        wakeAtMs := now, interruptions := 0, outcome := none, endedMs := none, child := none,
        admittedMs := now, epoch, root := none, annotations := .empty, held := none }
    digest, awaits := .empty, listeners := .empty, subscriptions := .empty, waits := .empty,
    budgetEnded := none, addressedWaits := ∅, rearm := none, trigger := none, accepted := 0,
    pending := .empty, published := 0, mailbox := none, evidence := false }

/-- Whether an admission joins the stored run. A child's admission compares the definition only. -/
def joinsAs (stored a : Admission) : Join → Except Error Unit
  | .root => stored.joins a.name (if a.pinned then some a.version else none) a.host
  | .child => stored.joins a.name none stored.host

/-- The row a new run starts with, not stored yet; `none`: already admitted. -/
def admitted (a : Admission) (now : Int) (join : Join) : Txn (Option StoredRun) := do
  match ← findRun a.id with
  | some existing =>
    Tx.ofExcept (joinsAs existing.run.admission a join)
    pure none
  | none =>
    running
    let defs ← Tx.read (·.definitions.get a.name)
    match barred defs a with
    | some refusal => Tx.fail (.definitionTripped refusal)
    | none =>
      let epoch := (defs.filter fun d => decide (d.active = some a.version)).map (·.epoch)
      pure (some (fresh a (digest defs a) epoch now))

/-- Admits a run once. -/
def insert (a : Admission) (now : Int) : Txn Bool := do
  match ← admitted a now .root with
  | none => pure false
  | some snapshot =>
    storeRun snapshot
    pure true

/-- After a drain, the refusal a new run now meets if the drain tripped its definition. -/
def drainedRefusal (drained : Bool) (a : Admission) : Txn (Option Error) := do
  let found ← findRun a.id
  if !drained || found.isSome then pure none
  else
    let defs ← Tx.read (·.definitions.get a.name)
    pure ((barred defs a).map .definitionTripped)

/-! ### Registrations -/

/-- Ends the registrations of `types` that no listener names any more. -/
def close (s : StoredRun) (types : List String) : StoredRun :=
  types.foldl (fun s t =>
    if s.listeners.values.any (·.contains t) then s
    else { s with awaits := s.awaits.delete t, addressedWaits := s.addressedWaits.erase t }) s

end Engine

end Ouro
