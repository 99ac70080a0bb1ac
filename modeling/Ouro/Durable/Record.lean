import Ouro.Json
import Ouro.Lib.Table

/-!
# The records of a run

The storage contract of the interpreter (`ows::durable`): what a run's journal may hold, which
record may replace which (`checkTransition`), and the totals a store keeps of the numeric
annotations of a run's calls (`accumulate`).

A record is immutable except while it is pending: a task without a result may get one, and a call
that is not done may advance under the same bindings.
-/

namespace Ouro

open Lib

/-! ### Errors and outcomes -/

/-- A workflow error as Problem Details. -/
structure WorkflowError where
  type_ : String
  status : Nat
  title : Option String
  detail : Option String
  instance_ : Option String
deriving DecidableEq, Repr

/-- How an execution of a run ended. -/
inductive Status where
  | completed (output : Json)
  | faulted (error : WorkflowError)
  | cancelled
  | waiting (wakeAtMs : Int)
  | interrupted (error : WorkflowError)
deriving DecidableEq

/-- A completed, faulted or cancelled run has ended. -/
def Status.terminal : Status → Bool
  | .completed _ | .faulted _ | .cancelled => true
  | .waiting _ | .interrupted _ => false

/-- The prefix of the standard error types. -/
def standardErrors : String := "https://open-workflow-specification.org/spec/1.0.0/errors/"

/-- A standard error: `kind` is the last segment of its type. -/
def WorkflowError.standard (kind : String) (status : Nat) (title detail : String) : WorkflowError :=
  { type_ := standardErrors ++ kind, status, title := some title, detail := some detail,
    instance_ := none }

/-- The standard runtime error. -/
def WorkflowError.runtime (detail : String) : WorkflowError :=
  .standard "runtime" 500 "Runtime Error" detail

/-- How an error is shown. -/
def WorkflowError.shown (e : WorkflowError) : String :=
  e.title.getD e.type_ ++ (e.detail.elim "" fun d => ": " ++ d) ++
    (e.instance_.elim "" fun i => " (at " ++ i ++ ")")

/-- An error as JSON. -/
def WorkflowError.json (e : WorkflowError) : Json :=
  .obj <| (e.detail.toList.map fun d => ("detail", .str d)) ++
    (e.instance_.toList.map fun i => ("instance", .str i)) ++
    [("status", .num (.int e.status))] ++ (e.title.toList.map fun t => ("title", .str t)) ++
    [("type", .str e.type_)]

/-- A task's flow directive. -/
inductive Flow where
  | continue
  | exit
  | end
  | goto (task : String)
deriving DecidableEq, Repr

/-! ### Records -/

/-- How a call may be delivered. -/
inductive Delivery where
  | atLeastOnce
  | atMostOnce
deriving DecidableEq, Repr

/-- How far a call got. -/
inductive CallState where
  | pending
  | notExecuted (error : WorkflowError)
  | done (result : Except WorkflowError Json)
deriving DecidableEq

/-- The call has an answer that cannot change. -/
def CallState.isDone : CallState → Bool
  | .done _ => true
  | _ => false

/-- A small named value a call returns with its result. -/
inductive Annotation where
  | number (n : Number)
  | text (s : String)
deriving DecidableEq, Repr

/-- How a task ended. -/
inductive StepOutcome where
  | completed (output : Json) (flow : Flow)
  | faulted (error : WorkflowError) (fatal : Bool)
deriving DecidableEq

/-- A task's result: the context it left and its outcome. -/
structure TaskResult where
  context : Json
  outcome : StepOutcome
deriving DecidableEq

/-- One record of a run's journal. -/
inductive Record where
  | execution (version : Nat) (runId : String) (definition input runtime : Json) (startedMs : Int)
      (maxTasks maxAttempts : Nat)
  | task (startedMs : Int) (result : Option TaskResult)
  | call (logical function : String) (arguments : Json) (delivery : Delivery) (state : CallState)
      (annotations : Table String Annotation)
  | event (event : Json)
  | expired (event : Json)
  | timer (deadlineMs : Int)
  | retry (delayMs : Option Nat)
  | winner (output : Json)
  | finished (status : Status)
  | budget (granted : Bool) (spent : Nat) (first : Option String)
  | exceeded (by_ : String)
deriving DecidableEq

/-- The key of a run's first refused unit. -/
def exceededKey : String := "exceeded"

/-- Only pending tasks and calls may advance. Everything else is immutable. -/
def checkTransition (old new : Record) : Bool :=
  decide (old = new) ||
    match old, new with
    | .task a none, .task b _ => decide (a = b)
    | .call l a b d state _, .call m e f h _ _ =>
      !state.isDone && decide (l = m) && decide (a = e) && decide (b = f) && decide (d = h)
    | _, _ => false

/-! ### Annotation totals -/

/-- Numeric annotations summed per name. -/
abbrev Totals : Type := Table String Number

/-- At most this many names of a run's totals. -/
def maxAnnotations : Nat := 32

/-- At most this many bytes of a run's totals as JSON. -/
def maxAnnotationBytes : Nat := 4096

/-- The integer as a signed 64-bit number, when it is one. -/
def Number.asI64 : Number → Option Int
  | .int n => if -2 ^ 63 ≤ n ∧ n < 2 ^ 63 then some n else none
  | .float _ => none

/-- The integer as an unsigned 64-bit number, when it is one. -/
def Number.asU64 : Number → Option Int
  | .int n => if 0 ≤ n ∧ n < 2 ^ 64 then some n else none
  | .float _ => none

/-- `a + b`: integers stay integers while the sum fits; otherwise a float, which `addFloat` gives
when the sum is finite. -/
def Number.add (addFloat : Number → Number → Option Number) (a b : Number) : Option Number :=
  let fit (lo hi : Int) (x y : Option Int) : Option Number := do
    let s := (← x) + (← y)
    if lo ≤ s ∧ s < hi then some (.int s) else none
  (fit (-2 ^ 63) (2 ^ 63) a.asI64 b.asI64).orElse fun _ =>
    (fit 0 (2 ^ 64) a.asU64 b.asU64).orElse fun _ => addFloat a b

/-- Adds `n` to the total of `name`. -/
def addTo (addFloat : Number → Number → Option Number) (totals : Totals) (name : String)
    (n : Number) : Totals :=
  totals.put name <|
    match totals.get name with
    | some total => (Number.add addFloat total n).getD total
    | none => n

/-- The bytes of a character inside a JSON string. -/
def escapedBytes (c : Char) : Nat :=
  if c = '"' ∨ c = '\\' ∨ c = '\n' ∨ c = '\r' ∨ c = '\t' ∨ c.toNat = 8 ∨ c.toNat = 12 then 2
  else if c.toNat < 0x20 then 6
  else c.utf8Size

/-- The bytes of a printed number. -/
def Number.bytes : Number → Nat
  | .int n => (toString n).utf8ByteSize
  | .float token => token.utf8ByteSize

/-- The bytes of totals as JSON. -/
def Totals.bytes (totals : Totals) : Nat :=
  let member (m : String × Number) : Nat := (m.1.toList.map escapedBytes).sum + 3 + m.2.bytes
  2 + (totals.rows.map member).sum + (totals.rows.length - 1)

/-- Adds numeric annotations to the totals a store keeps, within the annotations' own bounds: a new
name is left out when the totals would hold too many names or bytes. -/
def accumulate (addFloat : Number → Number → Option Number) (totals : Totals)
    (numbers : List (String × Number)) : Totals :=
  numbers.foldl (fun totals (name, n) =>
    if totals.contains name then addTo addFloat totals name n
    else if maxAnnotations ≤ totals.rows.length then totals
    else
      let more : Totals := totals.put name n
      if maxAnnotationBytes < Totals.bytes more then totals else more) totals

/-- The numeric annotations of an answer. -/
def numbers (annotations : Table String Annotation) : List (String × Number) :=
  annotations.rows.filterMap fun
    | (name, .number n) => some (name, n)
    | (_, .text _) => none

end Ouro
