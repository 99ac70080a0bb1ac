import Ouro.Lib.Prog
import Ouro.Ows.Ceiling
import Ouro.Ows.Program

/-!
# The interpreter

A run goes on from its journal: every execution starts at the top of the definition, restores what earlier
ones saved and takes the rest step by step (`Interp.execute`). The functions are those of `ows::run`, under
its names; a function that the source calls again from inside a task takes it as the argument `task`, and
loops and the depth of tasks are bounded by `fuel`, which an execution may run out of anywhere
(`Fault.unfinished`).

A save is committed, or lost, or committed and its answer lost; in the last two the execution stops, so that
what it keeps in memory is the journal for as long as it runs (`State.records`). What a run saved and
dispatched is written down in `State.log`, the latest first, and each execution says there that it begins.

Left out: a run without a journal, observer events, what an outcome tells beside its status, and `$secrets`,
which is null.
-/

namespace Ouro.Interp

open Lib Ows

/-! ### The host -/

/-- How a call failed (`CallFailure`). -/
inductive CallFailure where
  | notExecuted (e : WorkflowError)
  | response (e : WorkflowError)
  | unknown (e : WorkflowError)
  | interrupted (e : WorkflowError)

/-- What becomes of a dispatched call: an answer with its annotations, or nothing, because the run's
cancellation dropped it. -/
inductive Answer where
  | dropped
  | answered (result : Except CallFailure Json) (annotations : Table String Annotation)

structure Limits where
  maxTasks : Nat := 10000
  maxJumps : Nat := 100
  maxAttempts : UInt32 := 10
  maxSleep : Option Duration := none

/-- The host of a run, as far as it does not change: which functions and processes it has, what they are
delivered as, and the libraries that evaluate expressions, schemas and durations. -/
structure Host where
  has : String → Bool
  process : String → Bool
  atMostOnce : String → Json → Bool
  unknownOutcome : String → Json → Option Json
  eval : Eval
  /-- Validates a value against a JSON Schema; an error is the message. -/
  validator : Json → Json → Except String (List String)
  /-- The resolver of external schemas. -/
  resources : Option (String → Except String Json)
  parseIsoDuration : String → Option UInt64
  /-- A value as a message shows it. -/
  display : Json → String
  /-- An instant as RFC 3339 text. -/
  iso8601 : Int → String
  limits : Limits := {}
  runtime : Json

/-- What becomes of a save. -/
inductive Commit where
  | kept
  | lost
  /-- It is committed, and the execution does not learn it. -/
  | unknown

/-- What an execution meets, by the number of what it asked before. -/
structure Weather where
  /-- The clock, which shows dates. -/
  clock : Nat → {ms : Int // dated ms = true}
  cancelled : Nat → Bool
  commit : Nat → Commit
  /-- What becomes of a call of the function with the arguments. -/
  answer : Nat → String → Json → Answer
  /-- The decision of a journal that keeps a budget for the whole run tree: granted or not, the units
  spent, and the first refused key. -/
  spend : Nat → Option (Bool × Nat × Option String)

/-- The clock in milliseconds. -/
def Weather.now (w : Weather) (n : Nat) : Int := (w.clock n).1

/-! ### Errors -/

/-- Why a step stopped. -/
inductive Fault where
  | error (e : WorkflowError)
  | fatal (e : WorkflowError)
  | cancelled
  | waiting (wakeAtMs : Int)
  | interrupted (e : WorkflowError)
  | exceeded (output : Json)
  /-- An addition of durations did not fit. -/
  | panicked
  /-- The execution was not followed any further. -/
  | unfinished

/-- The type of the error of a call whose outcome is unknown. -/
def callUnknown : String := "urn:ouro:errors:call.unknown"

def validationError (detail : String) : WorkflowError := .standard "validation" 400 "Validation Error" detail

def expressionError (detail : String) : WorkflowError := .standard "expression" 400 "Expression Error" detail

def budgetError (detail : String) : WorkflowError :=
  .standard "budget.exhausted" 508 "Budget Exhausted" detail

def unknownOutcomeError (detail : String) : WorkflowError :=
  { type_ := callUnknown, status := 409, title := some "Outcome Unknown", detail := some detail,
    instance_ := none }

/-- The namespaces in which a standard error also answers to its kind. -/
def errorNamespaces : List String :=
  ["https://serverlessworkflow.io/spec/1.0.0/errors/", "https://open-workflow-specification.org/dsl/errors/types/"]

/-- Whether a filter on types names the error's (`WorkflowError::has_type`). -/
def hasType (e : WorkflowError) (filter : String) : Bool :=
  decide (filter = e.type_) || (stripPrefix e.type_ standardErrors).any fun kind =>
    errorNamespaces.any fun ns => decide (stripPrefix filter ns = some kind)

/-- An error at an invocation, unless it is one of an inner one. -/
def located (e : WorkflowError) (at_ : String) : WorkflowError :=
  { e with instance_ := some (e.instance_.getD at_) }

/-! ### The state of a run -/

/-- What a run did. -/
inductive Act where
  /-- An execution begins. -/
  | begin_
  /-- A record is committed over what the journal held. -/
  | save (key : String) (old : Option Record) (record : Record)
  /-- A call is handed to its function. -/
  | send (key logical function : String) (arguments : Json) (delivery : Delivery)

/-- The journal, and what an execution has in memory beside it. -/
structure State where
  records : Table String Record
  log : List Act
  /-- The context, which tasks export to. -/
  ctx : Json
  tick : Nat
  tasksRun : Nat
  jumps : Nat
  attempts : List Attempt
  /-- The `on_exceeded` handlers that run, by reference, and the tasks each has entered. -/
  handlers : List (String × Nat)
  /-- How the first refused jump ended the execution. -/
  exceeded : Option Fault

abbrev M := Prog Weather State Fault

/-- Asks the weather. -/
def ask {α : Type} (f : Weather → Nat → α) : M α :=
  fun w s => (.ok (f w s.tick), { s with tick := s.tick + 1 })

def raise {α : Type} (e : WorkflowError) : M α := Prog.fail (.error e)

/-- The run stops where it is. -/
def interrupt {α : Type} (detail : String) : M α := Prog.fail (.interrupted (.runtime detail))

def record (key : String) : M (Option Record) := .gets fun s => s.records.get key

/-- The record is in the journal. -/
def State.put (s : State) (key : String) (r : Record) : State :=
  { s with records := s.records.put key r, log := .save key (s.records.get key) r :: s.log }

/-- `Run::save`, with the journal's own check. -/
def save (key : String) (r : Record) : M Unit := fun w s =>
  let t := { s with tick := s.tick + 1 }
  let failed : Except Fault Unit := .error (.interrupted (.runtime ("checkpoint " ++ key)))
  if takes s.records key r then
    match w.commit s.tick with
    | .kept => (.ok (), t.put key r)
    | .unknown => (failed, t.put key r)
    | .lost => (failed, t)
  else (.error (.interrupted (.runtime "invalid durable record transition")), t)

/-- Variables a scope adds to the runtime arguments; a later one shadows an earlier one. -/
abbrev Scope := List (String × Json)

/-- How a task list finished. -/
inductive Next where
  | done (output : Json)
  | exit (output : Json)
  | end_ (output : Json)

def ended : Next → Json × Option Flow
  | .done v | .exit v => (v, none)
  | .end_ v => (v, some .end)

/-- Runs a task: its definition, its name, where it is, its raw input and the scope. -/
abbrev TaskFn := Task → String → List Segment → Json → Scope → M (Json × Flow)

/-- What an execution reads and does not change. -/
structure Env where
  host : Host
  wf : Workflow
  runId : String
  input : Json
  startedMs : Int
  /-- `$runtime`, without the schedule. -/
  runtime : Json
  schedule : Option Json

/-- The value of an expression or a template, or its fault. -/
def Env.expr (r : Except String Json) : M Json := .lift (r.mapError fun e => .error (expressionError e))

/-! ### Values -/

/-- `expr::bare`. -/
def bare (text : String) : String := (strip text).getD (trim text)

mutual

/-- Evaluates every expression of a template (`expr::render`). -/
def render (eval : Eval) (input : Json) (args : Args) : Json → Except String Json
  | .str s => match strip s with
    | some code => eval code input args
    | none => .ok (.str s)
  | .arr items => .arr <$> renderItems eval input args items
  | .obj members => .obj <$> renderMembers eval input args members
  | v => .ok v

def renderItems (eval : Eval) (input : Json) (args : Args) : List Json → Except String (List Json)
  | [] => .ok []
  | v :: rest => do
    let v ← render eval input args v
    let rest ← renderItems eval input args rest
    return v :: rest

def renderMembers (eval : Eval) (input : Json) (args : Args) :
    List (String × Json) → Except String (List (String × Json))
  | [] => .ok []
  | (k, v) :: rest => do
    let v ← render eval input args v
    let rest ← renderMembers eval input args rest
    return (k, v) :: rest

end

namespace Env

variable (E : Env)

/-- A datetime as expressions see it. Only dates reach it: the clock shows them, and an execution stops at
a saved instant that is none. -/
def datetime (ms : Int) : Json :=
  .obj [("epoch", .obj [("milliseconds", .num (.int ms)), ("seconds", .num (.int (ms / 1000)))]),
    ("iso8601", .str (E.host.iso8601 ms))]

/-- `$workflow`. -/
def workflowArgument : Json :=
  .obj [("definition", E.wf.definition), ("id", .str E.runId), ("input", E.input),
    ("startedAt", E.datetime E.startedMs)]

def maxJumps : Nat := E.wf.budget.limit E.host.limits.maxJumps

/-- `$run` with the given visit counts. -/
def runArgument (jumps : Nat) (visits : Json) : Json :=
  let run := Json.obj [("jumps", .num (.int jumps)), ("maxJumps", .num (.int E.maxJumps)), ("visits", visits)]
  E.schedule.elim run (run.insert "schedule")

/-- The runtime arguments, then the scope's variables. -/
def args (ctx input output task : Json) (scope : Scope) : M Args := .gets fun s =>
  let base : Args := [("$context", ctx), ("$input", input), ("$output", output), ("$task", task),
    ("$workflow", E.workflowArgument), ("$runtime", E.runtime), ("$run", E.runArgument s.jumps (.obj []))]
  scope.foldl (fun args v => args.set v.1 v.2) base

/-- `input_args`, for a run without secrets. -/
def inputArgs (args : Args) : Args := args.set "secrets" .null

/-- The value of an expression. -/
def eval (code : String) (on : Json) (args : Args) : M Json := expr (E.host.eval code on args)

/-- Whether a condition holds; none holds. -/
def test (code : Option String) (on : Json) (args : M Args) : M Bool :=
  match code with
  | none => pure true
  | some code => do
    let args ← args
    let v ← E.eval code on args
    pure (truthy v)

def template (t on : Json) (args : Args) : M Json := expr (render E.host.eval on args t)

/-- `input.from`, `output.as` and `export.as`: an expression or a template. -/
def transform (t on : Json) (args : Args) : M Json :=
  match t with
  | .str code => E.eval code on args
  | t => E.template t on args

/-- A transformation, where there is one. -/
def transformed (t : Option Json) (on : Json) (args : M Args) : M Json :=
  match t with
  | none => pure on
  | some t => do
    let args ← args
    E.transform t on args

def conformDocument (schema value : Json) (what : String) : M Unit :=
  match E.host.validator schema value with
  | .error e => raise (validationError (what ++ " schema: " ++ e))
  | .ok [] => pure ()
  | .ok errors =>
    raise (validationError (what ++ " does not match its schema: " ++ "; ".intercalate (errors.take 3)))

/-- Validates against an inline or a host-resolved schema. -/
def conform (schema : Schema) (value : Json) (what : String) : M Unit :=
  match schema with
  | .document d => E.conformDocument d value what
  | .resource uri =>
    match E.host.resources with
    | none => raise (validationError ("no resource resolver for `" ++ uri ++ "`"))
    | some resources =>
      match resources uri with
      | .error e => interrupt ("schema `" ++ uri ++ "`: " ++ e)
      | .ok document => E.conformDocument document value what

/-- A schema, where there is one. -/
def conformTo (data : Option Data) (value : Json) (what : String) : M Unit :=
  match data.bind Data.schema with
  | none => pure ()
  | some schema => E.conform schema value what

/-- What a decision on a retry reads of its host. -/
def deciding (now : Int) : Deciding Fault where
  eval := E.host.eval
  expression e := .error (expressionError e)
  display := E.host.display
  parseIsoDuration := E.host.parseIsoDuration
  maxAttempts := E.host.limits.maxAttempts
  nowMs := .ofInt now

/-- A decision, whose overflow ends the program. -/
def decide {α : Type} (r : Except (Stop Fault) α) : M α :=
  .lift (r.mapError fun
    | .fault f => f
    | .overflow => .panicked)

/-! ### Waiting -/

/-- The end of the timer saved at the key, or of a new one. -/
def timer (d : Duration) (key : String) : M Int := do
  match ← record key with
  | some (.timer deadlineMs) => pure deadlineMs
  | some _ => interrupt "invalid timer record"
  | none => do
    let now ← ask Weather.now
    let deadlineMs := satAdd now (min (d.nanos / 10 ^ 6 : Nat) i64Max)
    save key (.timer deadlineMs)
    pure deadlineMs

/-- Sleeps until the timer at the key ends: the run is released until then. -/
def sleep (d : Duration) (key : String) : M Unit := do
  let deadlineMs ← timer (E.host.limits.maxSleep.elim d (min d)) key
  let now ← ask Weather.now
  if now < deadlineMs then .fail (.waiting deadlineMs) else pure ()

/-! ### Calls -/

end Env

/-- What a call record names: a function, or a process. -/
inductive Target where
  | function (name : String)
  | process (kind : String)

/-- The name in the record (`Process::function`). -/
def Target.name : Target → String
  | .function name => name
  | .process kind => "run:" ++ kind

/-- Whether the host has it. -/
def Host.knows (host : Host) : Target → Bool
  | .function name => host.has name
  | .process kind => host.process kind

/-- At most this many annotations of a call. -/
def maxCallAnnotations : Nat := 32

/-- At most this many bytes of them. -/
def maxCallAnnotationBytes : Nat := 4096

/-- The bytes of annotations as JSON. -/
def annotationBytes (annotations : Table String Annotation) : Nat :=
  let text (s : String) : Nat := (s.toList.map escapedBytes).sum + 2
  let member (m : String × Annotation) : Nat := text m.1 + 1 + match m.2 with
    | .number n => n.bytes
    | .text s => text s
  2 + (annotations.rows.map member).sum + (annotations.rows.length - 1)

/-- `durable::check_annotations`. -/
def checkAnnotations (annotations : Table String Annotation) : Except String Unit :=
  if maxCallAnnotations < annotations.rows.length then
    .error (toString annotations.rows.length ++ " annotations, at most " ++ toString maxCallAnnotations ++ " allowed")
  else if annotations.rows.any fun m => m.1.isEmpty then .error "an annotation needs a name"
  else if maxCallAnnotationBytes < annotationBytes annotations then
    .error ("annotations take " ++ toString (annotationBytes annotations) ++ " bytes, at most " ++
      toString maxCallAnnotationBytes ++ " allowed")
  else .ok ()

/-- A call's answer with the annotations it carried. -/
def annotated (name : String) (result : Except CallFailure Json) (annotations : Table String Annotation) :
    Except CallFailure Json × Table String Annotation :=
  match result with
  | .error (.notExecuted _) | .error (.unknown _) | .error (.interrupted _) => (result, .empty)
  | .ok _ | .error (.response _) =>
    match checkAnnotations annotations with
    | .ok () => (result, annotations)
    | .error e => (.error (.response (validationError (name ++ " annotations: " ++ e))), .empty)

/-- An at-most-once call under the reference may have run. -/
def unknown (reference : String) : Fault :=
  .fatal (unknownOutcomeError (reference ++ ": at-most-once call may have executed; automatic retry is forbidden"))

/-- A call that forbids sending it again: its outcome is unknown, or it answered with an error. -/
def Record.blocks : Record → Bool
  | .call _ _ _ .atMostOnce .pending _ => true
  | .call _ _ _ .atMostOnce (.done (.error _)) _ => true
  | _ => false

/-- `Run::blocks_retry`. -/
def blocksRetry (records : Table String Record) (reference : String) : Bool :=
  records.rows.any fun row => (reference ++ "/").toList.isPrefixOf row.1.toList && Record.blocks row.2

/-- What an earlier attempt of a call left: its function, arguments, delivery and state. -/
def Record.earlier (logical : String) : Record → Option (String × Json × Delivery × CallState)
  | .call l function arguments delivery state _ =>
    if l = logical then some (function, arguments, delivery, state) else none
  | _ => none

/-- The result of a call that succeeded. -/
def succeeded : String × Json × Delivery × CallState → Option (String × Json × Json)
  | (function, arguments, _, .done (.ok value)) => some (function, arguments, value)
  | _ => none

/-- The fault of an at-most-once call that may not be sent again. -/
def refused (reference : String) : String × Json × Delivery × CallState → Option Fault
  | (_, _, .atMostOnce, .pending) => some (unknown reference)
  | (_, _, .atMostOnce, .done (.error e)) => some (.error e)
  | _ => none

/-- `Run::earlier_attempt`: the result to reuse, a fault, or nothing when the call has to be sent. -/
def earlierAttempt (records : Table String Record) (logical key name : String) (args : Json)
    (reference : String) : Option (Except Fault Json) :=
  let earlier := (records.rows.filter fun row => row.1 ≠ key).filterMap fun row => Record.earlier logical row.2
  match earlier.findSome? succeeded with
  | some (function, arguments, value) =>
    if function ≠ name ∨ arguments ≠ args then
      some (.error (.fatal (.standard "conflict" 409 "Idempotency conflict" (reference ++
        ": an earlier attempt already made this call with other arguments; nothing was sent"))))
    else some (.ok value)
  | none => (earlier.findSome? (refused reference)).map .error

/-- `Run::logical`: each round replaces one later attempt, of which a reference has no more than letters. -/
def State.logical (s : State) (reference : String) : String :=
  (Ows.logical s.attempts (reference.toList.length + 1) reference).getD reference

/-- Hands a call to its function. -/
def send (key logical function : String) (arguments : Json) (delivery : Delivery) : M Answer := fun w s =>
  (.ok (w.answer s.tick function arguments),
    { s with tick := s.tick + 1, log := .send key logical function arguments delivery :: s.log })

namespace Env

variable (E : Env)

/-- An at-most-once call that may have run: the host's marker for it, saved as its result, or a fault. -/
def unknownCall (key logical name : String) (args : Json) (reference : String) : M Json :=
  match E.host.unknownOutcome name args with
  | none => .fail (unknown reference)
  | some marker => do
    match ← record key with
    | some (.call ..) => do
      save key (.call logical name args .atMostOnce (.done (.ok marker)) .empty)
      pure marker
    | _ => interrupt "missing call record"

/-- Takes the answer of a call, whose intent is saved. -/
def settle (key logical name : String) (args : Json) (delivery : Delivery) (reference : String)
    (result : Except CallFailure Json) (annotations : Table String Annotation) : M Json :=
  let done (state : CallState) : M Unit := save key (.call logical name args delivery state annotations)
  match result with
  | .ok value => do
    done (.done (.ok value))
    pure value
  | .error (.response e) => do
    done (.done (.error e))
    raise e
  | .error (.notExecuted e) => do
    done (.notExecuted e)
    raise e
  | .error (.unknown e) =>
    if delivery = .atMostOnce then E.unknownCall key logical name args reference
    -- it stays pending, and may be sent again
    else raise e
  | .error (.interrupted e) => do
    if ← ask Weather.cancelled then Prog.fail .cancelled
    else if delivery = .atMostOnce then E.unknownCall key logical name args reference
    else Prog.fail (.interrupted e)

/-- Saves a call's intent, hands it over and takes the answer. -/
def dispatch (key logical name : String) (args : Json) (delivery : Delivery) (reference : String) : M Json := do
  save key (.call logical name args delivery .pending .empty)
  match ← send key logical name args delivery with
  | .dropped => Prog.fail .cancelled
  | .answered result annotations =>
    let (result, annotations) := annotated name result annotations
    E.settle key logical name args delivery reference result annotations

/-- A call of the host's function or process. -/
def hostCall (target : Target) (args : Json) (l : List Segment) (delivery : Delivery) : M Json := do
  let name := target.name
  let reference := reference l
  let delivery := if E.host.atMostOnce name args then .atMostOnce else delivery
  let key := recordKey l .call
  let logical ← .gets fun s => s.logical reference
  let known := E.host.knows target
  match ← record key with
  | some (.call oldLogical function arguments oldDelivery state _) =>
    if oldLogical ≠ logical ∨ function ≠ name ∨ arguments ≠ args ∨ oldDelivery ≠ delivery then
      .fail (.fatal (.runtime (reference ++ ": call bindings changed")))
    else match state with
      | .done (.ok value) => pure value
      | .done (.error e) => raise e
      -- an answer that the workflow already acted on; a new attempt may send the call again
      | .notExecuted e => raise e
      | .pending =>
        if delivery = .atMostOnce then E.unknownCall key logical name args reference
        else if known then E.dispatch key logical name args delivery reference
        else .fail (.fatal (.runtime ("unknown function `" ++ name ++ "`")))
  | some _ => interrupt "invalid call record"
  | none =>
    if !known then .fail (.fatal (.runtime ("unknown function `" ++ name ++ "`")))
    else if logical ≠ reference ∧ delivery = .atMostOnce then do
      -- a retry of a protected call: what an earlier attempt left stands
      match ← .gets fun s => earlierAttempt s.records logical key name args reference with
      | some result => .lift result
      | none => E.dispatch key logical name args delivery reference
    else E.dispatch key logical name args delivery reference

/-- `Run::call`: a reusable function of the definition, or the host's. -/
def call (task : TaskFn) (target : Target) (args : Json) (l : List Segment) (delivery : Delivery) : M Json :=
  match target with
  | .process _ => E.hostCall target args l delivery
  | .function name =>
    match E.wf.functions.find? fun f => f.1 = name with
    | none => E.hostCall target args l delivery
    | some (_, function) =>
      if delivery ≠ .atLeastOnce then
        .fail (.fatal (validationError "delivery belongs on the external call inside a reusable function"))
      else do
        let (out, _) ← task function name (l ++ [.function name]) args []
        pure out

/-- `Run::run_process`, for a process of the host. -/
def runProcess (task : TaskFn) (r : RunTask) (l : List Segment) (input : Json) (args : Args)
    (delivery : Delivery) : M Json := do
  let definition ← E.template r.definition input args
  let definition := definition.insert "await" (.bool r.await)
  let result ← E.call task (.process r.kind) definition l delivery
  let part (k : String) : Json := (result.get? k).getD .null
  pure <| if !r.await then input else match r.return_ with
    | .stdout => part "stdout"
    | .stderr => part "stderr"
    | .code => part "code"
    | .all => result
    | .none => .null

/-! ### Jumps -/

end Env

/-- The reference is that of the handler or of a task in it. -/
def inside (outer reference : String) : Bool :=
  outer.toList.isPrefixOf reference.toList && (reference.toList.drop outer.toList.length).head?.all (· = '/')

/-- The handler that the reference is in. -/
def State.handler (s : State) (reference : String) : Option Nat :=
  (s.handlers.find? fun h => inside h.1 reference).map Prod.snd

/-- A task of the first such handler is counted. -/
def enterHandler (reference : String) : List (String × Nat) → List (String × Nat)
  | [] => []
  | h :: rest => if inside h.1 reference then (h.1, h.2 + 1) :: rest else h :: enterHandler reference rest

/-- The tasks an `on_exceeded` handler may run, itself included. -/
def handlerTasks : Nat := 10

/-- A refusal in the records names the run's first. -/
def Record.firstRefused : Record → Option String
  | .budget false _ first => first
  | _ => none

/-- What a decision on a jump says: nothing when it is granted, else the first refused key. -/
def decided : Record → M (Option String)
  | .budget true _ _ => pure none
  | .budget false _ (some first) => pure (some first)
  | _ => interrupt "invalid budget record"

/-- The journal's own decision on a jump, which it saves itself. -/
def spend (key : String) (r : Record) : M Unit := fun w s =>
  let t := { s with tick := s.tick + 1 }
  let failed : Except Fault Unit := .error (.interrupted (.runtime ("spending " ++ key)))
  match w.commit s.tick with
  | .kept => (.ok (), t.put key r)
  | .unknown => (failed, t.put key r)
  | .lost => (failed, t)

namespace Env

variable (E : Env)

/-- A decision on a jump: that of the journal's budget, or one that counts the run's own units. -/
def spendUnit (key : String) : M (Option String) := do
  match ← ask Weather.spend with
  | some (granted, spent, first) => do
    spend key (.budget granted spent first)
    decided (.budget granted spent first)
  | none => do
    let spent ← .gets State.jumps
    let taken := Decidable.decide (spent < E.maxJumps)
    -- every refusal of the run names its first
    let earlier ← .gets fun s => s.records.values.findSome? Record.firstRefused
    let first := if taken then none else some (earlier.getD key)
    save key (.budget taken (spent + if taken then 1 else 0) first)
    pure first

/-- `Run::jump`: one unit of the budget, or the key of the run's first refusal. -/
def jump (l : List Segment) : M (Option String) := do
  let reference := reference l
  if (← .gets fun s => s.handler reference).isSome then
    .fail (.fatal { budgetError "an on_exceeded handler cannot jump" with instance_ := some reference })
  else do
    let key := recordKey l .jump
    match ← record key with
    | some saved => decided saved
    | none =>
      let first ← E.spendUnit key
      .sets fun s => { s with jumps := s.jumps + if first.isNone then 1 else 0 }
      pure first

/-- The handler of a refused jump, and how it ends the run. -/
def runHandler (task : TaskFn) (handler : Task) (l : List Segment) (output : Json) (scope : Scope) : M Fault := do
  let at_ := l ++ [.exceeded]
  .sets fun s => { s with handlers := s.handlers ++ [(reference at_, 0)] }
  (task handler "on_exceeded" at_ output scope).handle fun result => do
    .sets fun s => { s with handlers := s.handlers.filter fun h => h.1 ≠ reference at_ }
    pure <| match result with
      | .ok (out, _) => .exceeded out
      -- the handler's error ends the run, whatever encloses the jump
      | .error (.error e) | .error (.fatal e) => .fatal e
      | .error other => other

/-- `Run::act_on_exceeded`. -/
def actOnExceeded (task : TaskFn) (l : List Segment) (output : Json) (scope : Scope) : M Fault :=
  match E.wf.budget.onExceeded with
  | .raise => pure (.error (budgetError "the jump budget is spent"))
  | .end_ => pure (.exceeded output)
  | .task handler => runHandler task handler l output scope

/-- `Run::exceeded`: the jump of the task at `l` was refused. Only the run's first refusal acts. -/
def onExceeded (task : TaskFn) (l : List Segment) (first : String) (output : Json) (scope : Scope) : M Unit :=
  match E.wf.budget.onExceeded with
  | .raise => raise (budgetError ("more than " ++ toString E.maxJumps ++
      " jumps in this run tree; a `then` loop did not end"))
  | _ => do
    if first ≠ recordKey l .jump then
      match ← .gets State.exceeded with
      | some fault => .fail fault
      -- it waits for the first one, until the run is cancelled
      | none => .fail .cancelled
    else do
      let fault ← E.actOnExceeded task l output scope
      .sets fun s => { s with exceeded := some fault }
      .fail fault

/-! ### Lists and tasks -/

/-- The visit counts of the lists around a scope. -/
def outerVisits (scope : Scope) : Json :=
  match ((scope.reverse.find? fun v => v.1 = "run").bind fun v => v.2.get? "visits") with
  | some (.obj members) => .obj members
  | _ => .obj []

/-- The counts of a list on top of those around it. -/
def visitCounts (tasks : TaskList) (visits : Nat → Nat) (outer : Json) : Json :=
  tasks.zipIdx.foldl (fun counts t =>
    if 0 < visits t.2 then counts.insert t.1.1 (.num (.int (visits t.2))) else counts) outer

/-- `Run::list`, from position `i` on: runs the tasks in order, following each one's flow directive. -/
def list (task : TaskFn) (tasks : TaskList) (l : List Segment) (nest : Nest) (scope : Scope) :
    Nat → Nat → (Nat → Nat) → Json → M Next
  | 0, _, _, _ => .fail .unfinished
  | fuel + 1, i, visits, data =>
    match tasks[i]? with
    | none => pure (.done data)
    | some (name, t) => do
      let at_ := l ++ [.list nest i name (visits i)]
      let visits := Function.update visits i (visits i + 1)
      let jumps ← .gets State.jumps
      let run := E.runArgument jumps (visitCounts tasks visits (outerVisits scope))
      let (out, flow) ← task t name at_ data (("run", run) :: scope.filter fun v => v.1 ≠ "run")
      match flow with
      | .continue => list task tasks l nest scope fuel (i + 1) visits out
      | .exit => pure (.exit out)
      | .end => pure (.end_ out)
      | .goto target =>
        match tasks.findIdx? fun t => t.1 = target with
        | some j => list task tasks l nest scope fuel j visits out
        | none => .fail (.fatal (.runtime ("`then: " ++ target ++ "` names no task in " ++ reference l ++
            nest.spell)))

/-- A list from its first task. -/
def listOf (task : TaskFn) (fuel : Nat) (tasks : TaskList) (l : List Segment) (nest : Nest) (data : Json)
    (scope : Scope) : M Next :=
  E.list task tasks l nest scope fuel 0 (fun _ => 0) data

/-- What `$task` says of a task. -/
def description (t : Task) (name : String) (l : List Segment) (raw : Json) (startedMs : Int) : Json :=
  .obj [("definition", t.definition), ("input", raw), ("name", .str name), ("reference", .str (reference l)),
    ("startedAt", E.datetime startedMs)]

/-- What `$task` is for the extensions around a task: the task's description on top of its definition. -/
def described : Json → Json → Json
  | .obj members, .obj more => more.foldl (fun v m => v.insert m.1 m.2) (.obj members)
  | _, .obj more => .obj more
  | _, _ => .obj []

/-- The extensions around a task, in order, of those from `rows` on. -/
def extending (t : Task) (input ctx : Json) (scope : Scope) (described : Json) :
    List ((String × Extension) × Nat) → M (List (Nat × String × Extension))
  | [] => pure []
  | ((name, e), i) :: rest => do
    let hit ← (if e.erase.extends t.erase.kind then
      E.test e.when input (E.args ctx input .null described scope) else pure false)
    let rest ← extending t input ctx scope described rest
    pure (if hit then (i, name, e) :: rest else rest)

/-- The extensions around a task, and what `$task` is for them. -/
def extensions (t : Task) (l : List Segment) (input ctx : Json) (scope : Scope) (desc : Json) :
    M (List (Nat × String × Extension) × Json) :=
  if E.wf.extensions.isEmpty ∨ "/use/extensions/".toList <:+: (reference l).toList then pure ([], .null)
  else do
    let described := described t.definition desc
    let out ← E.extending t input ctx scope described E.wf.extensions.zipIdx
    pure (out, described)

/-- `Run::layer`: the extensions' lists around what is inside. -/
def layer (task : TaskFn) (fuel : Nat) (l : List Segment) (around : Scope)
    (kind : Json → M (Json × Option Flow)) :
    List (Nat × String × Extension) → Json → M (Json × Option Flow)
  | [], input => kind input
  | (index, name, e) :: rest, input => do
    match ← (match e.before with
      | none => pure (Next.done input)
      | some before => E.listOf task fuel before l (.before index name) input around) with
    -- what is inside is skipped, and the `after` list too
    | .exit v => pure (v, none)
    | .end_ v => pure (v, some .end)
    | .done data => do
      let (out, flow) ← layer task fuel l around kind rest data
      match e.after with
      | none => pure (out, flow)
      | some after => do
        match ← E.listOf task fuel after l (.after index name) out around with
        | .end_ v => pure (v, some .end)
        | .done v | .exit v => pure (v, flow)

/-! ### Kinds -/

/-- The items of a `for`. -/
def items (it : Items) (input : Json) (args : Args) : M (List Json) :=
  match it with
  | .inline items => pure items
  | .expr code => do
    match ← E.eval code input args with
    | .arr items => pure items
    | .null => pure []
    | other => raise (expressionError ("`for.in` must produce an array, got " ++ E.host.display other))

/-- The passes of a `for`: each gets the output of the one before. -/
def passes (task : TaskFn) (fuel : Nat) (each at_ : String) (condition : Option String) (tasks : TaskList)
    (l : List Segment) (input desc : Json) (scope : Scope) :
    List (Json × Nat) → Json → M (Json × Option Flow)
  | [], data => pure (data, none)
  | (item, i) :: rest, data => do
    let inner := scope ++ [(each, item), (at_, .num (.int i))]
    if ← E.test condition data (do
        let ctx ← .gets State.ctx
        E.args ctx input .null desc inner) then
      match ← E.listOf task fuel tasks l (.iteration i) data inner with
      | .done v | .exit v => passes task fuel each at_ condition tasks l input desc scope rest v
      | .end_ v => pure (v, some .end)
    else pure (data, none)

/-- The first case that holds. -/
def firstCase (input : Json) (args : Args) : List (String × Case) → M (Option Flow)
  | [] => pure none
  | (_, c) :: rest => do
    match c.when with
    | none => firstCase input args rest
    | some code => do
      let v ← E.eval code input args
      if truthy v then pure (some c.then_) else firstCase input args rest

/-- A text of an error's definition, which may be an expression. -/
def errorText (input : Json) (args : Args) : Option String → M (Option String)
  | none => pure none
  | some s =>
    match strip s with
    | none => pure (some s)
    | some code => do
      match ← E.eval code input args with
      | .null => pure none
      | .str s => pure (some s)
      | other => pure (some (E.host.display other))

def errorDef : Raise → M ErrorDef
  | .inline d => pure d
  | .named name =>
    match E.wf.errors.find? fun e => e.1 = name with
    | some (_, d) => pure d
    | none => .fail (.fatal (.runtime ("no error `" ++ name ++ "` under use.errors")))

/-- `Run::raise`. -/
def raised (r : Raise) (l : List Segment) (input : Json) (args : Args) : M WorkflowError := do
  let d ← E.errorDef r
  let title ← E.errorText input args d.title
  let detail ← E.errorText input args d.detail
  pure { type_ := d.type_, status := d.status, title, detail,
         instance_ := some (d.instance_.getD (reference l)) }

/-- Whether a filter names the error. -/
def filtered (filter : List (String × Json)) (e : WorkflowError) : Bool :=
  filter.all fun
    | ("type", .str t) => hasType e t
    | (k, v) => Decidable.decide (e.json.get? k = some v)

/-- `Run::catches`. -/
def catches (c : Catch) (e : WorkflowError) (input : Json) (args : Args) : M Bool :=
  if (c.errors.any fun filter => !filtered filter e) then pure false
  else decide ((E.deciding 0).guards input args c.when c.exceptWhen)

/-- The filter names the error of a call whose outcome is unknown. -/
def namesUnknown (c : Catch) : Bool :=
  Decidable.decide (((c.errors.bind fun filter => filter.find? fun m => m.1 = "type").bind fun m => m.2.asStr) =
    some callUnknown)

/-- The fault is one that a `catch` may take; `true` for a call whose outcome is unknown. -/
def caughtFault (c : Catch) : Fault → Option (WorkflowError × Bool)
  | .error e => some (e, false)
  | .fatal e => if e.type_ = callUnknown ∧ namesUnknown c then some (e, true) else none
  | _ => none

/-- Milliseconds as a record of them holds, at most 64 bits. -/
def wholeMillis (d : Duration) : Nat := min (d.nanos / 10 ^ 6) (2 ^ 64 - 1)

/-- The delay of a saved decision. -/
def ofDelayMs (ms : Nat) : Duration := .ofMillis (UInt64.ofNat ms)

/-- The delay before another attempt, when the policy allows one and no call of the attempt forbids it. -/
def delay (c : Catch) (l : List Segment) (attempt : AttemptNumber) (began : Int) (input : Json) (args : Args) :
    M (Option Duration) := do
  let blocked ← .gets fun s => blocksRetry s.records (reference l ++ (Nest.attempt attempt.1.toNat).spell)
  match c.retry with
  | none => pure none
  | some retry =>
    if blocked then pure none
    else do
      let now ← ask Weather.now
      decide ((E.deciding now).retryDelay input args retry attempt (Int64.ofInt began))

/-- The decision on another attempt after the one with the number, made once. -/
def retryDecision (c : Catch) (l : List Segment) (attempt : AttemptNumber) (began : Int) (input : Json)
    (args : Args) : M (Option Duration) := do
  let key := recordKey l (.decision attempt.1.toNat)
  match ← record key with
  | some (.retry delayMs) => pure (delayMs.map ofDelayMs)
  | some _ => interrupt "invalid retry record"
  | none => do
    let delay ← E.delay c l attempt began input args
    save key (.retry (delay.map wholeMillis))
    pure delay

/-- `Run::attempt`, from an attempt on: the context of each is `snapshot`. -/
def attempt (task : TaskFn) (fuel : Nat) (tasks : TaskList) (c : Catch) (l : List Segment) (input : Json)
    (scope : Scope) (desc snapshot : Json) (began : Int) :
    Nat → AttemptNumber → M (Json × Option Flow)
  | 0, _ => .fail .unfinished
  | more + 1, number => do
    let k := number.1.toNat
    .sets fun s => { s with attempts := s.attempts ++
      [(reference l ++ (Nest.attempt k).spell, reference l ++ (Nest.attempt 1).spell, k)] }
    (E.listOf task fuel tasks l (.attempt k) input scope).handle fun
      | .ok next => pure (ended next)
      | .error fault =>
        match caughtFault c fault with
        | none => .fail fault
        | some (error, isUnknown) => do
          let caught := scope ++ [(c.as_, error.json)]
          let ctx ← .gets State.ctx
          let args ← E.args ctx input .null desc caught
          if !(← E.catches c error input args) then
            -- passed on as it came
            .fail (if isUnknown then .fatal error else .error error)
          else match ← E.retryDecision c l number began input args with
            | some delay => do
              E.sleep delay (recordKey l (.retry k))
              .sets fun s => { s with ctx := snapshot }
              if h : number.1.toNat + 1 < 2 ^ 32 then
                attempt task fuel tasks c l input scope desc snapshot began more
                  ⟨number.1 + 1, by rw [UInt32.toNat_add, UInt32.toNat_one, Nat.mod_eq_of_lt h]; exact Nat.succ_pos _⟩
              else .fail .panicked
            | none =>
              match c.tasks with
              | none => pure (input, c.then_)
              | some handler => do
                let (out, flow) := ended (← E.listOf task fuel handler l .catch_ input caught)
                pure (out, flow.orElse fun _ => c.then_)

/-- `Run::kind`: the task's raw output and the directive it chose, if any. -/
def kind (task : TaskFn) (fuel : Nat) (t : Task) (l : List Segment) (input : Json) (scope : Scope) (desc : Json)
    (startedMs : Int) : M (Json × Option Flow) := do
  let ctx ← .gets State.ctx
  let args ← E.args ctx input .null desc scope
  match t.kind with
  | .call function with_ => do
    let callArgs ← (match with_ with
      | some template => E.template template input args
      | none => pure (.obj []))
    let out ← E.call task (.function (functionName function)) callArgs l t.delivery
    pure (out, none)
  | .do_ tasks => ended <$> E.listOf task fuel tasks l .do_ input scope
  | .for_ each at_ it condition tasks => do
    let items ← E.items it input args
    E.passes task fuel each at_ condition tasks l input desc scope items.zipIdx input
  | .set (.str code) => do
    let out ← E.eval (bare code) input args
    pure (out, none)
  | .set template => do
    let out ← E.template template input args
    pure (out, none)
  | .switch cases => do
    match ← E.firstCase input args cases with
    | some flow => pure (input, some flow)
    -- without a default, the task's own directive applies
    | none => pure (input, (cases.find? fun c => c.2.when.isNone).map fun c => c.2.then_)
  | .try_ tasks c => E.attempt task fuel tasks c l input scope desc ctx startedMs fuel ⟨1, by decide⟩
  | .raise r => do
    let e ← E.raised r l input args
    raise e
  | .wait spec => do
    let d ← decide ((E.deciding 0).duration input args spec)
    E.sleep d (recordKey l .wait)
    pure (input, none)
  | .run r => do
    let out ← E.runProcess task r l input args t.delivery
    pure (out, none)

/-- The context that a task exports. -/
def exported (t : Task) (input : Json) (scope : Scope) (desc out : Json) : M Unit :=
  match t.export_.bind Data.as_ with
  | none => pure ()
  | some as_ => do
    let ctx ← .gets State.ctx
    let args ← E.args ctx input out desc scope
    let ctx ← E.transform as_ out args
    .sets fun s => { s with ctx }

/-- The directive that a task ends with; a jump to a named task takes a unit of the budget. -/
def follow (task : TaskFn) (l : List Segment) (flow : Flow) (out : Json) (scope : Scope) : M Unit :=
  match flow with
  | .goto _ => do
    match ← E.jump l with
    | none => pure ()
    | some first => E.onExceeded task l first out scope
  | _ => pure ()

/-- What `Run::steps` does with the raw output. -/
def finish (task : TaskFn) (t : Task) (l : List Segment) (input : Json) (scope : Scope) (desc out : Json)
    (flow : Option Flow) : M (Json × Flow) := do
  let out ← E.transformed (t.output.bind Data.as_) out (do
    let ctx ← .gets State.ctx
    E.args ctx input .null desc scope)
  E.conformTo t.output out "the task output"
  E.exported t input scope desc out
  let ctx ← .gets State.ctx
  E.conformTo t.export_ ctx "the exported context"
  let flow := (flow.orElse fun _ => t.then_).getD .continue
  E.follow task l flow out scope
  pure (out, flow)

/-- `Run::steps`: the condition, the input's schema and transformation, the task with its extensions, then
the output's and the export's. -/
def steps (task : TaskFn) (fuel : Nat) (t : Task) (name : String) (l : List Segment) (raw : Json) (scope : Scope)
    (startedMs : Int) : M (Json × Flow) := do
  let desc := E.description t name l raw startedMs
  let ctx ← .gets State.ctx
  if ← E.test (t.when.map bare) raw (E.args ctx .null .null desc scope) then do
    E.conformTo t.input raw "the task input"
    let input ← E.transformed (t.input.bind Data.as_) raw (inputArgs <$> E.args ctx .null .null desc scope)
    let (extensions, described) ← E.extensions t l input ctx scope desc
    let (out, flow) ← E.layer task fuel l (scope ++ [("task", described)])
      (fun input => E.kind task fuel t l input scope desc startedMs) extensions input
    E.finish task t l input scope (desc.insert "output" out) out flow
  else pure (raw, .continue)

end Env

/-- What a task that ended one way or the other has for a result; nothing when it stopped. -/
def outcome : Except Fault (Json × Flow) → Option StepOutcome
  | .ok (output, flow) => some (.completed output flow)
  | .error (.error e) => some (.faulted e false)
  | .error (.fatal e) => some (.faulted e true)
  | .error _ => none

/-- A fault located at the task, unless an inner one already is. -/
def locate (at_ : String) : Except Fault (Json × Flow) → Except Fault (Json × Flow)
  | .error (.error e) => .error (.error (located e at_))
  | .error (.fatal e) => .error (.fatal (located e at_))
  | r => r

/-- The result of a task as it was saved. -/
def restored : StepOutcome → Except Fault (Json × Flow)
  | .completed output flow => .ok (output, flow)
  | .faulted e true => .error (.fatal e)
  | .faulted e false => .error (.error e)

namespace Env

variable (E : Env)

/-- The end of a task: its result is saved, unless it stopped. -/
def leave (key reference : String) (startedMs : Int) (result : Except Fault (Json × Flow)) : M (Json × Flow) :=
  let result := locate reference result
  match outcome result with
  | none => .lift result
  | some o => do
    let ctx ← .gets State.ctx
    save key (.task startedMs (some ⟨ctx, o⟩))
    .lift result

/-- Takes a unit of the ceiling on tasks. -/
def count (reference : String) : M Unit := do
  let tasksRun ← .gets State.tasksRun
  .sets fun s => { s with tasksRun := s.tasksRun + 1 }
  if E.host.limits.maxTasks ≤ tasksRun then .fail (.fatal (exhausted E.host.limits.maxTasks reference)) else pure ()

/-- The result of a task as it was saved, or when the task started, which is saved. -/
def entry (key reference : String) : M (TaskResult ⊕ Int) := do
  let prior ← record key
  match prior with
  | some (.task _ (some result)) => pure (.inl result)
  | _ => do
    (if prior.isNone then E.count reference else pure ())
    let startedMs ← (match prior with
      | some (.task startedMs _) => pure startedMs
      | _ => ask Weather.now)
    save key (.task startedMs none)
    pure (.inr startedMs)

/-- `Run::task`, by the depth of tasks that an execution is followed to. -/
def task : Nat → TaskFn
  | 0, _, _, _, _, _ => .fail .unfinished
  | fuel + 1, t, name, l, raw, scope => do
    if ← ask Weather.cancelled then Prog.fail .cancelled
    else do
      let reference := reference l
      .sets fun s => { s with handlers := enterHandler reference s.handlers }
      if (← .gets fun s => s.handler reference).any fun n => handlerTasks < n then
        .fail (.fatal { budgetError ("an on_exceeded handler may run at most " ++ toString handlerTasks ++ " tasks")
          with instance_ := some reference })
      else do
        let key := recordKey l .task
        match ← E.entry key reference with
        | .inl result => do
          .sets fun s => { s with ctx := result.context }
          .lift (restored result.outcome)
        | .inr startedMs =>
          (E.steps (task fuel) fuel t name l raw scope startedMs).handle (leave key reference startedMs)

/-- `Run::workflow`. -/
def workflow (fuel : Nat) (raw : Json) : M Json := do
  E.conformTo E.wf.input raw "the workflow input"
  let input ← E.transformed (E.wf.input.bind Data.as_) raw (inputArgs <$> E.args .null .null .null .null [])
  .sets fun s => { s with ctx := input }
  let (out, _) := ended (← E.listOf (E.task fuel) fuel E.wf.tasks [] .do_ input [])
  let out ← E.transformed (E.wf.output.bind Data.as_) out (do
    let ctx ← .gets State.ctx
    E.args ctx .null .null .null [])
  E.conformTo E.wf.output out "the workflow output"
  pure out

end Env

/-! ### Executions -/

/-- The version of the records. -/
def version : Nat := 15

/-- The key of a run's own record. -/
def executionKey : String := "execution"

/-- The key of its end. -/
def finishedKey : String := "finished"

/-- The status that an execution ends with; nothing when it was not followed that far. -/
def status : Except Fault Json → Option Status
  | .ok v | .error (.exceeded v) => some (.completed v)
  | .error (.error e) | .error (.fatal e) => some (.faulted e)
  | .error .cancelled => some .cancelled
  | .error (.waiting wakeAtMs) => some (.waiting wakeAtMs)
  | .error (.interrupted e) => some (.interrupted e)
  | .error .panicked | .error .unfinished => none

/-- What is given to every execution of a run. -/
structure Given where
  host : Host
  wf : Workflow
  runId : String
  input : Json
  admittedMs : Option Int

/-- The records that an execution begins with, and its memory. -/
def State.load (records : Table String Record) (log : List Act) : State :=
  { records, log := .begin_ :: log, ctx := .null, tick := 0, tasksRun := tasksOf records,
    jumps := (records.rowsOf fun | .budget true _ _ => true | _ => false).length, attempts := [], handlers := [],
    exceeded := none }

/-- The text ends with the letters. -/
def endsWith (s suffix : String) : Bool := suffix.toList.isSuffixOf s.toList

/-- The text holds the letters. -/
def holds (s part : String) : Bool := Decidable.decide (part.toList <:+: s.toList)

/-- A record stands under a key of its kind. -/
def keyed (key : String) : Record → Bool
  | .execution .. => key = executionKey
  | .finished status => key = finishedKey && status.terminal
  | .task .. => endsWith key "#task"
  | .call .. => endsWith key "#call"
  | .winner _ => endsWith key "#winner"
  | .event _ => holds key "#event[" || endsWith key "#child"
  | .expired _ => startsWith key "mailbox#expired["
  | .timer _ => endsWith key "#wait" || holds key "#retry[" || holds key "#attempt["
  | .retry _ => holds key "#retry-decision["
  | .budget .. => endsWith key "#jump"
  | .exceeded _ => key = exceededKey

/-- The start that a record names is a date. -/
def stamped : Record → Bool
  | .execution _ _ _ _ _ startedMs _ _ | .task startedMs _ => dated startedMs
  | _ => true

namespace Given

variable (G : Given)

def env (startedMs : Int) (runtime : Json) : Env :=
  { host := G.host, wf := G.wf, runId := G.runId, input := G.input, startedMs,
    runtime := match runtime with
      | .obj members => .obj (members.filter fun m => m.1 ≠ "schedule")
      | other => other
    schedule := (runtime.get? "schedule").filter (· ≠ .null) }

/-- The record of the run that the first execution saves. -/
def executionRecord (startedMs : Int) (runtime : Json) : Record :=
  .execution version G.runId G.wf.definition G.input runtime startedMs G.host.limits.maxTasks
    G.host.limits.maxAttempts.toNat

/-- Runs the workflow, and saves its end. -/
def drive (fuel : Nat) (fresh : Bool) (startedMs : Int) (runtime : Json) : M (Option Status) := do
  let run : M Json := do
    (if fresh then save executionKey (G.executionRecord startedMs runtime) else pure ())
    if ← ask Weather.cancelled then Prog.fail .cancelled
    else (G.env startedMs runtime).workflow fuel G.input
  run.handle fun result =>
    match status result with
    | none => pure none
    | some status =>
      if status.terminal then
        (save finishedKey (.finished status)).handle fun
          | .error (.interrupted e) => pure (some (.interrupted e))
          | _ => pure (some status)
      else pure (some status)

/-- An execution that stops before it runs anything. -/
def stopped (detail : String) : M (Option Status) := pure (some (.interrupted (.runtime detail)))

/-- The records are checked before anything runs, and a finished run has nothing left to do. -/
def proceed (fuel : Nat) (records : Table String Record) (fresh : Bool) (startedMs : Int) (runtime : Json) :
    M (Option Status) :=
  if records.rows.any fun row => !keyed row.1 row.2 then stopped "invalid durable record key or terminal state"
  else if records.rows.any fun row => !stamped row.2 then stopped "invalid saved timestamp"
  -- an admission time that is no date ends the program
  else if !dated startedMs then pure none
  else match records.get finishedKey with
    | some (.finished status) => pure (some status)
    | _ => G.drive fuel fresh startedMs runtime

/-- `execute`: one execution of the run, from the journal that is left of those before it. -/
def execute (fuel : Nat) : M (Option Status) := do
  let records ← .gets State.records
  match records.get executionKey with
  | some (.execution v runId definition input runtime startedMs maxTasks maxAttempts) =>
    if v ≠ version ∨ maxTasks ≠ G.host.limits.maxTasks ∨ maxAttempts ≠ G.host.limits.maxAttempts.toNat then
      stopped "incompatible durable version or execution limits"
    else if runId = G.runId ∧ definition = G.wf.definition ∧ input = G.input then
      G.proceed fuel records false startedMs runtime
    else pure (some (.faulted (.runtime "a run's definition or input changed")))
  | some _ => pure (some (.faulted (.runtime "a run's definition or input changed")))
  | none =>
    if records.isEmpty then do
      let now ← ask Weather.now
      G.proceed fuel records true (G.admittedMs.getD now) G.host.runtime
    else stopped "missing execution record"

/-- The journal of a run and what it did, after executions in the weathers, each followed as far as its
fuel. -/
def history : List (Weather × Nat) → Table String Record × List Act
  | [] => (.empty, [])
  | (w, fuel) :: earlier =>
    let s := (G.execute fuel w (.load (history earlier).1 (history earlier).2)).2
    (s.records, s.log)

end Given

end Ouro.Interp
