import Ouro.Durable.Record
import Mathlib.Data.Finset.Sort

/-!
# The data of the store

The public data of the durable store (`durable::lib`, `durable::control`) and the rows the engine
keeps: runs with their fencing, admissions, stored event copies, the definitions' catalog, triggers
and operator commands.

Instants are milliseconds. The source has them as 64-bit integers whose additions saturate
(`satAdd`); here they are integers and only the saturation is kept. Unsigned counters are natural
numbers and the additions the source checks are checked (`u64Max`).

What the store calls from other packages is a field of `Env`: the printed form of an instant, the
matcher of a persisted wait, the content digest of a definition's text and the sum of two floating
point numbers.
-/

namespace Ouro

open Lib

/-! ### Time -/

/-- The greatest signed 64-bit integer. -/
def i64Max : Int := 2 ^ 63 - 1

/-- The least signed 64-bit integer. -/
def i64Min : Int := -2 ^ 63

/-- The greatest unsigned 64-bit integer. -/
def u64Max : Nat := 2 ^ 64 - 1

/-- The greatest unsigned 32-bit integer. -/
def u32Max : Nat := 2 ^ 32 - 1

/-- The nearest signed 64-bit integer. -/
def clamp (n : Int) : Int := max i64Min (min i64Max n)

/-- `i64::saturating_add`. -/
def satAdd (a b : Int) : Int := clamp (a + b)

/-- `i64::saturating_sub`. -/
def satSub (a b : Int) : Int := clamp (a - b)

/-- Whether a date and time can name the instant (`chrono::DateTime::from_timestamp_millis`): from the first
of the year -262143 to the last of the year 262142. -/
def dated (ms : Int) : Bool := decide (-8334601228800000 ≤ ms ∧ ms ≤ 8210266876799999)

theorem clamp_le (n : Int) : clamp n ≤ i64Max := by
  unfold clamp i64Min i64Max
  omega

theorem le_satAdd_of_le {until_ a b : Int} (hmax : until_ ≤ i64Max) (h : until_ ≤ a + b) :
    until_ ≤ satAdd a b := by
  unfold satAdd clamp
  omega

def leaseMs : Int := 30000
def maxInterruptions : Nat := 10

/-- A stale worker's row stays listed this long. -/
def workersKeptMs : Int := 24 * 3600000

/-- The width of one bucket of a definition's annotation totals. -/
def totalsBucketMs : Int := 3600000

/-- The longest page of a control query. -/
def maxPage : Nat := 1000

/-- A store's time policy. -/
structure Policy where
  mailboxMs : Int
  ingressMs : Int
  skewMs : Int
deriving DecidableEq, Repr

/-- The default time policy. -/
def Policy.default : Policy :=
  { mailboxMs := 24 * 3600000, ingressMs := 7 * 24 * 3600000, skewMs := 1000 }

/-! ### Admissions and errors -/

/-- What a run is admitted with. -/
structure Admission where
  id : String
  name : String
  version : Nat
  definition : String
  input : Json
  runtime : Json
deriving DecidableEq

namespace Admission

/-- Whether the host started this run at a version it named. -/
def pinned (a : Admission) : Bool := ((a.runtime.get? "pinned").bind Json.asBool).getD false

/-- The declared application version. -/
def applicationVersion (a : Admission) : Option String := a.runtime.text "application_version"

/-- The host data the run was admitted with; `null` is none. -/
def host (a : Admission) : Option Json :=
  (a.runtime.get? "host").filter fun host => decide (host ≠ .null)

end Admission

/-- What an admission of an existing run id disagreed on. -/
inductive AdmissionField where
  | name
  | version
  | host
  | link
deriving DecidableEq, Repr

/-- A new run of a tripped definition, refused. -/
structure DefinitionTripped where
  name : String
  epoch : Nat
  version : Nat
  faults : Nat
  paused : Bool
deriving DecidableEq, Repr

/-- What an operator command names and the store does not hold. -/
inductive Entity where
  | run
  | definition
deriving DecidableEq, Repr

/-- Why an operator command failed. -/
inductive ControlError where
  | notFound (entity : Entity) (id : String)
  | requestConflict (id : String)
  | responseConflict (identity : String)
  | invalidState (message : String)
  | waitClosed (run wait : String)
  | waitMismatch (run wait : String)
  | invalidInput (message : String)
deriving DecidableEq, Repr

/-- Why an operation of the store failed. -/
inductive Error where
  | admissionMismatch (id : String) (field : AdmissionField)
  | definitionTripped (refusal : DefinitionTripped)
  | identityConflict (identity : String)
  | stopped
  | held (run : String)
  | control (error : ControlError)
  | message (text : String)
  /-- A loop of the source was cut off; no operation of a reachable store returns it. -/
  | diverged
deriving DecidableEq, Repr

/-- Whether a root start of `name` (at `version`, when it names one) with `host` joins the stored
run: the same definition, the same version if named and the same host data. -/
def Admission.joins (a : Admission) (name : String) (version : Option Nat) (host : Option Json) :
    Except Error Unit :=
  if a.name ≠ name then .error (.admissionMismatch a.id .name)
  else if version.any (· ≠ a.version) then .error (.admissionMismatch a.id .version)
  else if a.host ≠ host then .error (.admissionMismatch a.id .host)
  else .ok ()

/-- The application versions a worker resumes. -/
structure Compatibility where
  version : Option String
  accepts : List String
deriving DecidableEq, Repr

/-- An undeclared run or an undeclared worker is compatible with everything; otherwise the worker's
own version and the ones it accepts are. -/
def Compatibility.admits (worker : Compatibility) (run : Option String) : Bool :=
  match run, worker.version with
  | none, _ | _, none => true
  | some run, some own => run == own || worker.accepts.contains run

/-! ### Runs -/

/-- The current owner of a run; the generation increases with every claim. -/
structure Fence where
  runId : String
  owner : String
  generation : Nat
deriving DecidableEq, Repr

inductive RunState where
  | ready
  | running
  | waiting
  | completed
  | failed
  | cancelled
deriving DecidableEq, Repr

/-- The invocation of a parent run that owns a child. -/
structure ChildLink where
  parent : String
  key : String
  reference : String
deriving DecidableEq, Repr

/-- Who froze a run and why. -/
structure Hold where
  actor : String
  reason : String
  note : String
  atMs : Int
deriving DecidableEq, Repr

/-- The lifecycle and fencing of a run. -/
structure SavedRun where
  admission : Admission
  state : RunState
  fence : Option Fence
  generation : Nat
  leaseUntilMs : Option Int
  wakeAtMs : Int
  interruptions : Nat
  outcome : Option Status
  endedMs : Option Int
  child : Option ChildLink
  admittedMs : Int
  epoch : Option Nat
  root : Option String
  annotations : Totals
  held : Option Hold
deriving DecidableEq

/-- A listen the run waits in, as persisted for an operator's answer: the types it is routed by and
the consumer (strategy, input, arguments, progress) that its matcher reads. -/
structure PendingWait where
  types : List String
  strategy : Json
  input : Json
  args : Json
  progress : Json
  position : String
  sinceMs : Int
  timeoutMs : Option Int
  redacted : Bool
deriving DecidableEq

/-- One accepted copy of an event: a CloudEvent with its envelope, or a child's lifecycle
notification without one. -/
structure StoredEvent where
  type_ : String
  data : Json
  deliveredAtMs : Int
  consumedKey : Option String
  envelope : Option Json
  delivered : Bool
  expiresAtMs : Option Int
deriving DecidableEq

/-- The pending copies of one type, and how many of them are CloudEvents. -/
structure Pending where
  copies : Nat
  cloud : Nat
deriving DecidableEq, Repr

/-- A keyed record the store indexes by the time it is next due and the event types it reacts to. -/
structure Trigger where
  atMs : Option Int
  types : List String
  state : Json
deriving DecidableEq

/-- Makes a trigger due again some time after a run ends. -/
structure Rearm where
  trigger : String
  delayMs : Int
deriving DecidableEq, Repr

/-- The row of a run: its lifecycle and what its open listens bound. -/
structure StoredRun where
  run : SavedRun
  digest : String
  awaits : Table String Int
  listeners : Table String (List String)
  subscriptions : Table String (List String)
  waits : Table String PendingWait
  budgetEnded : Option Nat
  addressedWaits : Finset String
  rearm : Option (Rearm × Trigger)
  trigger : Option String
  accepted : Nat
  pending : Table String Pending
  published : Nat
  mailbox : Option Int
  evidence : Bool
deriving DecidableEq

/-- The id of a stored run. -/
def StoredRun.id (s : StoredRun) : String := s.run.admission.id

/-! ### Definitions -/

/-- The breaker policy a definition declares. -/
inductive Breaker where
  | inherit
  | off
  | threshold (n : Nat)
deriving DecidableEq, Repr

/-- The consecutive faults that trip under this policy, given the host's default. -/
def Breaker.effective (b : Breaker) (default : Nat) : Option Nat :=
  match b with
  | .inherit => some (max default 1)
  | .off => none
  | .threshold n => some (max n 1)

/-- One version of a definition. -/
structure Definition where
  name : String
  version : Nat
  yaml : String
  digest : String
  breaker : Breaker
deriving DecidableEq, Repr

/-- Who pauses a definition and why. -/
structure ManualTrip where
  actor : String
  reason : String
  note : String
deriving DecidableEq, Repr

/-- What a tripped breaker reports. -/
structure Trip where
  manual : Option ManualTrip
  breaker : Bool
  version : Nat
  digest : String
  epoch : Nat
  faults : Nat
  threshold : Nat
  run : String
  reason : WorkflowError
  atMs : Int
deriving DecidableEq, Repr

/-- The refusal of a new run while this trip stands. -/
def Trip.refusal (t : Trip) (name : String) : DefinitionTripped :=
  { name, epoch := t.epoch, version := t.version, faults := t.faults, paused := t.manual.isSome }

/-- Who activates a version and why. -/
structure Activation where
  atMs : Int
  actor : Option String
  note : Option String
deriving DecidableEq, Repr

/-- A version's latest activation. -/
structure Activated where
  epoch : Nat
  atMs : Int
  actor : Option String
  note : Option String
deriving DecidableEq, Repr

/-- The catalog of one definition name. -/
structure Definitions where
  versions : Table Nat Definition
  active : Option Nat
  consecutiveFaults : Nat
  epoch : Nat
  tripped : Option Trip
  triggers : List String
  activations : Table Nat Activated
deriving DecidableEq

/-- A name without versions. -/
def Definitions.default : Definitions :=
  { versions := .empty, active := none, consecutiveFaults := 0, epoch := 0, tripped := none,
    triggers := [], activations := .empty }

/-! ### Firings -/

/-- A trigger's policy for slots that arrive while its runs are unfinished. -/
inductive Overlap where
  | skip
  | allow
  | queue
  | replace
deriving DecidableEq, Repr

/-- A trigger's run the host refused to admit. -/
structure Refused where
  admission : Admission
  error : WorkflowError
  breakerThreshold : Nat
deriving DecidableEq

structure OverlapGuard where
  policy : Overlap
  maxConcurrentRuns : Nat
  ceiling : Trigger
deriving DecidableEq

/-- One trigger firing: a compare-and-swap of the trigger with the runs it admits. -/
structure Firing where
  key : String
  expected : Option Trigger
  next : Option Trigger
  /-- The runs it admits (the source's `admit`). -/
  admits : List Admission
  rearm : Option Rearm
  ingress : Option Json
  busy : Option Trigger
  refused : Option Refused
  overlap : Option OverlapGuard
deriving DecidableEq

inductive Fired where
  | committed
  | changed
  | busy (run : String)
  | ingested
  | queued
  | ceiling
deriving DecidableEq, Repr

/-- One buffered slot of a trigger. -/
structure Queued where
  admission : Admission
  rearm : Option Rearm
  maxConcurrentRuns : Nat
  failure : Option (WorkflowError × Nat)
deriving DecidableEq

/-- An ingress identity a trigger took. -/
structure Tombstone where
  payload : Json
  expiresAtMs : Int
deriving DecidableEq

/-- The triggers and buffered slots a pause keeps. -/
structure Paused where
  epoch : Nat
  triggers : Table String Trigger
  queues : Table String Queued
deriving DecidableEq

/-- The runs of a definition that ended within one bucket with annotation totals. -/
structure Bucket where
  runs : Nat
  annotations : Totals
deriving DecidableEq

/-- What a sweep removed. -/
structure Swept where
  records : Nat
  expired : Nat
  tombstones : Nat
  workers : Nat
deriving DecidableEq, Repr

/-! ### Operator commands -/

structure Request where
  id : String
  actor : String
  reason : String
deriving DecidableEq, Repr

inductive Command where
  | cancel (run : String)
  | pause (definition note : String)
  | resume (definition : String)
  | hold (run note : String)
  | release (run : String)
  | stop (enabled : Bool)
  | respond (run wait : String) (event : Json)
deriving DecidableEq

inductive Reply where
  | changed (b : Bool)
  | responded (recipient : Option String)
deriving DecidableEq, Repr

/-- A command's reply and whether its request was a repeat. -/
structure Applied where
  reply : Reply
  repeated : Bool
deriving DecidableEq, Repr

/-- The audit entry of a command. -/
structure Entry where
  request : Request
  command : Command
  atMs : Int
  reply : Reply
deriving DecidableEq

/-- A pending wait as an operator lists it. -/
structure Wait where
  run : String
  definition : String
  key : String
  waiting : PendingWait
deriving DecidableEq

/-- One worker's liveness row. -/
structure Worker where
  id : String
  host : Option String
  application : Option String
  startedMs : Int
  beatMs : Int
  expiresMs : Int
  held : Nat
deriving DecidableEq, Repr

/-! ### The environment -/

/-- The store's time policy and what it calls from other packages. -/
structure Env where
  policy : Policy
  /-- An instant in RFC 3339, when the calendar holds it. -/
  rfc3339 : Int → Option String
  /-- Whether a persisted wait takes an event (`PendingWait::accepts`). -/
  accepts : PendingWait → Json → Except String Bool
  /-- The content digest of a definition's text. -/
  digestOf : String → String
  /-- The sum of two numbers as floating point, when it is finite. -/
  addFloat : Number → Number → Option Number

end Ouro
