import Ouro.Ows.Identity
import Ouro.Ows.Retry

/-!
# What the interpreter runs

A parsed workflow (`ows::model`) with everything a run reads of it: conditions, templates, schemas, policies
and errors. The kinds are those that one execution takes one after another: `fork`, a concurrent `for`,
`listen`, `emit` and child runs are left out, and so are time limits, of a workflow, a task and an attempt,
and secrets.

`Task.erase` forgets what the references of invocations do not depend on, so that a path leads to a task of
a program (`Workflow.erase`) exactly as in the definitions whose references are proved injective.
-/

namespace Ouro.Interp

open Lib Ows

/-- The schema and the transformation of a task's or workflow's data: `from` of an input, `as` of an output
or an export. -/
structure Data where
  schema : Option Schema := none
  as_ : Option Json := none

/-- An error of a definition. -/
structure ErrorDef where
  type_ : String
  status : Nat
  title : Option String := none
  detail : Option String := none
  instance_ : Option String := none

inductive Raise where
  | inline (d : ErrorDef)
  | named (name : String)

/-- What a `run` task outputs of its process. -/
inductive Return where
  | stdout | stderr | code | all | none

/-- A `run` of a process of the host. -/
structure RunTask where
  kind : String
  definition : Json
  await : Bool := true
  return_ : Return := .stdout

mutual

structure Task where
  delivery : Delivery := .atLeastOnce
  when : Option String := none
  input : Option Data := none
  output : Option Data := none
  export_ : Option Data := none
  then_ : Option Flow := none
  kind : Kind
  /-- The task as it is written. -/
  definition : Json := .null

structure Catch where
  errors : Option (List (String × Json)) := none
  as_ : String := "error"
  when : Option String := none
  exceptWhen : Option String := none
  retry : Option Retry := none
  tasks : Option (List (String × Task)) := none
  then_ : Option Flow := none

inductive Kind where
  | call (function : String) (with_ : Option Json)
  | do_ (tasks : List (String × Task))
  | for_ (each at_ : String) (items : Items) (condition : Option String) (tasks : List (String × Task))
  | set (value : Json)
  | switch (cases : List (String × Case))
  | try_ (tasks : List (String × Task)) (catch_ : Catch)
  | raise (r : Raise)
  | wait (spec : DurationSpec)
  | run (r : RunTask)

end

abbrev TaskList := List (String × Task)

structure Extension where
  extend : String
  when : Option String := none
  before : Option TaskList := none
  after : Option TaskList := none

inductive Exceeded where
  | raise
  | end_
  | task (handler : Task)

/-- The jump budget: the definition's own limit, and what a refused jump does. -/
structure Budget where
  maxJumps : Option Nat := none
  onExceeded : Exceeded := .raise

/-- `Budget::max_jumps`. -/
def Budget.limit (b : Budget) (ceiling : Nat) : Nat := b.maxJumps.elim ceiling (min · ceiling)

structure Workflow where
  input : Option Data := none
  output : Option Data := none
  functions : List (String × Task) := []
  errors : List (String × ErrorDef) := []
  extensions : List (String × Extension) := []
  tasks : TaskList
  budget : Budget := {}
  definition : Json := .null

/-! ### Paths -/

mutual

def Task.erase : Task → Ows.Task
  | ⟨delivery, when, input, output, export_, then_, kind, _⟩ =>
    { delivery, when, input := input.bind Data.schema, output := output.bind Data.schema,
      export_ := export_.bind Data.schema, then_, kind := kind.erase }

def Catch.erase : Catch → Ows.Catch
  | ⟨errors, _, when, exceptWhen, retry, tasks, then_⟩ =>
    { errors, when, exceptWhen, retry := retry.isSome, tasks := eraseTasks tasks, then_ }

def Kind.erase : Kind → Ows.Kind
  | .call function with_ => .call function with_
  | .do_ tasks => .do_ (eraseList tasks)
  | .for_ _ _ items condition tasks => .for_ items condition none (eraseList tasks)
  | .set _ => .set
  | .switch cases => .switch cases
  | .try_ tasks catch_ => .try_ (eraseList tasks) catch_.erase
  | .raise _ => .raise
  | .wait _ => .wait
  | .run r => .run (.external r.kind r.definition)

def eraseTasks : Option (List (String × Task)) → Option Ows.TaskList
  | none => none
  | some tasks => some (eraseList tasks)

def eraseList : List (String × Task) → Ows.TaskList
  | [] => []
  | (name, t) :: rest => (name, t.erase) :: eraseList rest

end

def Extension.erase (e : Extension) : Ows.Extension :=
  { extend := e.extend, when := e.when, before := e.before.map eraseList, after := e.after.map eraseList }

def Exceeded.erase : Exceeded → Ows.Exceeded
  | .raise => .raise
  | .end_ => .end_
  | .task handler => .task handler.erase

def Workflow.erase (wf : Workflow) : Ows.Workflow :=
  { input := wf.input.bind Data.schema, output := wf.output.bind Data.schema,
    functions := eraseList wf.functions,
    extensions := wf.extensions.map fun e => (e.1, e.2.erase),
    onExceeded := wf.budget.onExceeded.erase, tasks := eraseList wf.tasks }

theorem eraseList_eq (tasks : TaskList) : eraseList tasks = tasks.map fun t => (t.1, t.2.erase) := by
  induction tasks with
  | nil => rw [eraseList, List.map_nil]
  | cons t tasks ih => rw [eraseList, List.map_cons, ih]

theorem Task.erase_kind (t : Task) : t.erase.kind = t.kind.erase := by
  cases t
  rw [Task.erase]

theorem Catch.erase_tasks (c : Catch) : c.erase.tasks = c.tasks.map eraseList := by
  cases c with
  | mk errors as_ when exceptWhen retry tasks then_ =>
    rw [Catch.erase]
    cases tasks with
    | none => rw [eraseTasks]; rfl
    | some tasks => rw [eraseTasks]; rfl

theorem eraseList_get (tasks : TaskList) (i : Nat) :
    (eraseList tasks)[i]? = (tasks[i]?).map fun t => (t.1, t.2.erase) := by
  rw [eraseList_eq, List.getElem?_map]

theorem taskAt_erase {tasks : TaskList} {i : Nat} {name : String} {t : Task} (h : tasks[i]? = some (name, t)) :
    taskAt (eraseList tasks) i name = some t.erase := by
  rw [taskAt, eraseList_get, h, Option.map_some, Option.bind_some, if_pos rfl]

end Ouro.Interp
