import Ouro.Durable.Record
import Ouro.Lib.Search

/-!
# Definitions, their jump cycles and their static analysis

A parsed workflow (`ows::model`): its task lists, reusable functions, extensions and the handler of a
spent jump budget, as far as control flow and the analysis read them. Expressions are kept where only
their presence matters (an `if`, a guard, a `while`); durations, templates and data transformations are
left out, and of an input, output or export only its schema is kept.

* `closedCycles`: the jump cycles of a list with no way out, and `Validator.cycles`, which reports them;
* `visits`: every task of a definition with the reference its analysis gives it; from it `callSites`,
  `processes` and `schemaResources`, what a host pins before it starts a run.
-/

namespace Ouro.Ows

open Lib

/-! ### The definition -/

/-- A JSON Schema: inline, or an external resource the host resolves. -/
inductive Schema where
  | document (value : Json)
  | resource (uri : String)
deriving DecidableEq

/-- The external resource a schema is. -/
def Schema.uri? : Schema → Option String
  | .document _ => none
  | .resource uri => some uri

/-- What a `run` task starts: a child run, or a process for a host-registered runner. -/
inductive Process where
  | workflow (space name version : String) (input : Option Json)
  | external (kind : String) (definition : Json)
deriving DecidableEq

/-- The items a `for` goes over: an expression, or values written out. -/
inductive Items where
  | expr (code : String)
  | inline (values : List Json)

/-- A case of a switch; without a `when` it is the default. -/
structure Case where
  when : Option String := none
  then_ : Flow

mutual

/-- A task: its condition, the schemas of its data, its directive and its kind. -/
structure Task where
  delivery : Delivery := .atLeastOnce
  when : Option String := none
  input : Option Schema := none
  output : Option Schema := none
  export_ : Option Schema := none
  then_ : Option Flow := none
  kind : Kind

/-- A `catch`: its filter and guards, whether it retries, and what it does with an error it takes. -/
structure Catch where
  errors : Option (List (String × Json)) := none
  when : Option String := none
  exceptWhen : Option String := none
  retry : Bool := false
  tasks : Option (List (String × Task)) := none
  then_ : Option Flow := none

/-- `listen.foreach`: tasks run for each consumed event. -/
structure Foreach where
  tasks : List (String × Task)
  output : Option Schema := none
  export_ : Option Schema := none

/-- What a task does. -/
inductive Kind where
  | call (function : String) (with_ : Option Json)
  | do_ (tasks : List (String × Task))
  | for_ (items : Items) (condition : Option String) (concurrency : Option Nat)
      (tasks : List (String × Task))
  | fork (branches : List (String × Task)) (compete : Bool)
  | set
  | switch (cases : List (String × Case))
  | try_ (tasks : List (String × Task)) (catch_ : Catch)
  | raise
  | wait
  | listen (foreach : Option Foreach)
  | emit
  | run (process : Process)

end

/-- Named tasks in order. -/
abbrev TaskList := List (String × Task)

/-- The kind's name, which extensions go by. -/
def Kind.name : Kind → String
  | .call .. => "call"
  | .do_ .. => "do"
  | .for_ .. => "for"
  | .fork .. => "fork"
  | .set => "set"
  | .switch .. => "switch"
  | .try_ .. => "try"
  | .raise => "raise"
  | .wait => "wait"
  | .listen .. => "listen"
  | .emit => "emit"
  | .run .. => "run"

/-- Tasks run around every task of a kind: `extend` is a kind's name, `composite` (do and fork) or
`all`. -/
structure Extension where
  extend : String
  when : Option String := none
  before : Option TaskList := none
  after : Option TaskList := none

/-- Whether the extension goes around tasks of the kind. -/
def Extension.extends (e : Extension) (kind : Kind) : Bool :=
  if e.extend = "all" then true
  else if e.extend = "composite" then kind.name = "do" || kind.name = "fork"
  else e.extend = kind.name

/-- The extension's lists, `before` first, under the key each stands at. -/
def Extension.lists (e : Extension) : List (String × TaskList) :=
  (e.before.toList.map fun l => ("before", l)) ++ (e.after.toList.map fun l => ("after", l))

/-- What a refused jump does: raise an error, end the run, or run a task and end with its output. -/
inductive Exceeded where
  | raise
  | end_
  | task (handler : Task)

/-- A workflow. -/
structure Workflow where
  input : Option Schema := none
  output : Option Schema := none
  functions : List (String × Task) := []
  extensions : List (String × Extension) := []
  onExceeded : Exceeded := .raise
  tasks : TaskList

/-- The function a `call` names: `name:version@default` is `name`. -/
def functionName (call : String) : String :=
  if "@default".toList.isSuffixOf call.toList then
    String.ofList ((call.toList.take (call.toList.length - 8)).takeWhile (· ≠ ':'))
  else call

/-! ### Jump cycles -/

/-- Where a task's flow may go next within its list: a sibling, or out of it. -/
inductive Next where
  | task (i : Nat)
  | out
deriving DecidableEq, Repr

/-- Where a directive of the task at `i` leads. -/
def Next.of (tasks : TaskList) (i : Nat) : Flow → Next
  | .continue => if i + 1 < tasks.length then .task (i + 1) else .out
  | .goto name => ((tasks.findIdx? fun t => t.1 = name).map Next.task).getD .out
  | .exit | .end => .out

/-- The task's own directive. -/
def Task.own (t : Task) : Flow := t.then_.getD .continue

/-- A list without its repetitions, in order. -/
def distinct (l : List Next) : List Next :=
  l.foldl (fun d n => if d.contains n then d else d ++ [n]) []

/-- The ways the kind lets the task at `i` continue. -/
def Task.ways (tasks : TaskList) (i : Nat) (t : Task) : List Next :=
  match t.kind with
  | .raise => [.out]
  | .switch cases =>
    (cases.map fun c => Next.of tasks i c.2.then_) ++
      if cases.any fun c => c.2.when.isNone then [] else [Next.of tasks i t.own]
  | .try_ _ catch_ =>
    [Next.of tasks i t.own, (catch_.then_.map (Next.of tasks i)).getD (Next.of tasks i t.own)]
  | _ => [Next.of tasks i t.own]

/-- Every way the task at `i` may continue in its list; a task with an `if` may be skipped. -/
def successors (tasks : TaskList) (i : Nat) : List Next :=
  match tasks[i]? with
  | none => []
  | some (_, t) =>
    distinct (t.ways tasks i ++ if t.when.isSome then [Next.of tasks i .continue] else [])

/-- The directive ends the workflow. -/
def ends (f : Option Flow) : Bool := f = some .end

section Leaving

variable (functions : List (String × Task))

mutual

/-- Whether running the task can leave an enclosing cycle from inside. -/
def Task.canLeave : Task → Bool
  | ⟨_, _, _, _, _, _, kind⟩ => kind.canLeave

/-- Whether a task of the kind can: some nested task raises or ends the workflow, or it calls a
reusable function, whose body is not followed. -/
def Kind.canLeave : Kind → Bool
  | .raise => true
  | .call function _ => functions.any fun f => f.1 = functionName function
  | .do_ tasks | .for_ _ _ _ tasks => listLeaves tasks
  | .fork branches _ => listLeaves branches
  | .switch cases => cases.any fun c => c.2.then_ = .end
  | .try_ tasks ⟨_, _, _, _, none, then_⟩ => listLeaves tasks || ends then_
  | .try_ tasks ⟨_, _, _, _, some handler, then_⟩ =>
    listLeaves tasks || ends then_ || listLeaves handler
  | .listen none => false
  | .listen (some ⟨tasks, _, _⟩) => listLeaves tasks
  | .set | .wait | .emit | .run _ => false

/-- Whether a nested list can. -/
def listLeaves : TaskList → Bool
  | [] => false
  | (_, t) :: rest => (ends t.then_ || t.canLeave) || listLeaves rest

end

end Leaving

/-- The siblings the task at `i` may continue with. -/
def jumps (tasks : TaskList) (i : Nat) : List Nat :=
  (successors tasks i).filterMap fun
    | .task k => some k
    | .out => none

/-- The steps a search over the list can take from `i`: one for each edge it can follow. -/
def searchSteps (tasks : TaskList) (i : Nat) : Nat :=
  (jumps tasks i).length + ((List.range tasks.length).map fun j => (jumps tasks j).length).sum

/-- Whether `j` is reachable from `i` in one or more steps. -/
def reach (tasks : TaskList) (i j : Nat) : Bool :=
  mark (jumps tasks) (searchSteps tasks i) (jumps tasks i).reverse (fun _ => false) j

/-- The tasks that reach `i` and are reached from it, with `i` itself. -/
def component (tasks : TaskList) (i : Nat) : List Nat :=
  (List.range tasks.length).filter fun j => j = i || (reach tasks i j && reach tasks j i)

/-- Some task of the component can leave it from inside, or has more than one edge and one that leads
out of it. -/
def leaves (functions : List (String × Task)) (tasks : TaskList) (members : List Nat) : Bool :=
  members.any fun j =>
    ((tasks[j]?).any fun t => t.2.canLeave functions) ||
      (decide (1 < (successors tasks j).length) &&
        (successors tasks j).any fun
          | .task k => !members.contains k
          | .out => true)

/-- One turn of the loop over the list's tasks: the tasks of components seen so far, and the closed
cycles found. -/
def closedCyclesStep (functions : List (String × Task)) (tasks : TaskList)
    (acc : List Nat × List (List Nat)) (i : Nat) : List Nat × List (List Nat) :=
  if acc.1.contains i || !reach tasks i i then acc
  else
    let members := component tasks i
    (acc.1 ++ members, if leaves functions tasks members then acc.2 else acc.2 ++ [members])

/-- The jump cycles of a list (its strongly connected components with an edge back) that have no
conditional edge out and no task that can leave them from inside. -/
def closedCycles (functions : List (String × Task)) (tasks : TaskList) : List (List Nat) :=
  ((List.range tasks.length).foldl (closedCyclesStep functions tasks) ([], [])).2

/-- A definition problem, located by JSON pointer. -/
structure Problem where
  at_ : String
  message : String
deriving DecidableEq

/-- An extension can leave a list around whose tasks it runs. -/
def Validator.exits (wf : Workflow) : Bool :=
  wf.extensions.any fun e =>
    e.2.lists.any fun l => l.2.any fun t => t.2.canLeave wf.functions

/-- The cycles of a list that validation reports. -/
def Validator.cycles (wf : Workflow) (tasks : TaskList) : List (List Nat) :=
  if Validator.exits wf then [] else closedCycles wf.functions tasks

/-- The names of a cycle's tasks. -/
def names (tasks : TaskList) (cycle : List Nat) : List String :=
  cycle.map fun i => ((tasks[i]?).map Prod.fst).getD ""

/-- What validation says about the cycles of the list at `at_`. -/
def Validator.list (wf : Workflow) (tasks : TaskList) (at_ : String) : List Problem :=
  (Validator.cycles wf tasks).map fun cycle =>
    { at_ := at_ ++ "/" ++ toString (cycle.headD 0) ++ "/" ++ (names tasks cycle).headD ""
      message := "the tasks " ++ ", ".intercalate (names tasks cycle) ++
        " jump in a cycle with no conditional way out (add a switch case or an `if` that leaves it)" }

/-! ### Static analysis -/

mutual

/-- The task at a reference and every task nested in it. -/
def Task.visits (at_ : String) : Task → List (String × Task)
  | ⟨delivery, when, input, output, export_, then_, kind⟩ =>
    (at_, ⟨delivery, when, input, output, export_, then_, kind⟩) :: kind.visits at_

/-- The tasks nested in a task of the kind. -/
def Kind.visits (at_ : String) : Kind → List (String × Task)
  | .do_ tasks | .for_ _ _ _ tasks => listVisits (at_ ++ "/do") 0 tasks
  | .fork branches _ => listVisits (at_ ++ "/fork/branches") 0 branches
  | .try_ tasks ⟨_, _, _, _, none, _⟩ => listVisits (at_ ++ "/try") 0 tasks
  | .try_ tasks ⟨_, _, _, _, some handler, _⟩ =>
    listVisits (at_ ++ "/try") 0 tasks ++ listVisits (at_ ++ "/catch/do") 0 handler
  | .listen (some ⟨tasks, _, _⟩) => listVisits (at_ ++ "/foreach/do") 0 tasks
  | .listen none => []
  | .set | .switch _ | .raise | .wait | .emit | .run _ | .call _ _ => []

/-- The tasks of a list from position `i` on, and what is nested in them. -/
def listVisits (at_ : String) (i : Nat) : TaskList → List (String × Task)
  | [] => []
  | (name, t) :: rest =>
    t.visits (at_ ++ "/" ++ toString i ++ "/" ++ name) ++ listVisits at_ (i + 1) rest

end

/-- The tasks of extension `i`. -/
def Extension.visits (i : Nat) (name : String) (e : Extension) : List (String × Task) :=
  e.lists.flatMap fun l =>
    listVisits ("/use/extensions/" ++ toString i ++ "/" ++ name ++ "/" ++ l.1) 0 l.2

/-- Every task list in the definition with the references its tasks get: the reusable functions and the
extension lists, then the top level. -/
def Workflow.lists (wf : Workflow) : List (String × Task) :=
  (wf.functions.flatMap fun f => f.2.visits ("/use/functions/" ++ f.1)) ++
    (wf.extensions.zipIdx.flatMap fun e => e.1.2.visits e.2 e.1.1) ++ listVisits "/do" 0 wf.tasks

/-- One `call` in the definition: where it is and what it calls. -/
structure CallSite where
  reference : String
  function : String
  with_ : Option Json
  delivery : Delivery
deriving DecidableEq

/-- Every call site, in definition order. -/
def callSites (wf : Workflow) : List CallSite :=
  wf.lists.filterMap fun v =>
    match v.2.kind with
    | .call function with_ =>
      some { reference := v.1, function := functionName function, with_, delivery := v.2.delivery }
    | _ => none

/-- Every `run` task's process, in definition order. -/
def processes (wf : Workflow) : List Process :=
  wf.lists.filterMap fun v =>
    match v.2.kind with
    | .run process => some process
    | _ => none

/-- The schemas of a task's data, those of an iteration over events included. -/
def Task.schemas (t : Task) : List Schema :=
  t.input.toList ++ t.output.toList ++ t.export_.toList ++
    match t.kind with
    | .listen (some f) => f.output.toList ++ f.export_.toList
    | _ => []

/-- Adds the schema's resource, if it is one and not there yet. -/
def addResource (out : List String) (s : Schema) : List String :=
  match s.uri? with
  | some uri => if out.contains uri then out else out ++ [uri]
  | none => out

/-- Every external schema the definition refers to, each once. -/
def schemaResources (wf : Workflow) : List String :=
  (wf.input.toList ++ wf.output.toList ++ wf.lists.flatMap fun v => v.2.schemas).foldl addResource []

/-! ### Nesting -/

/-- The lists directly inside a task of the kind. -/
def Kind.nested : Kind → List TaskList
  | .do_ tasks | .for_ _ _ _ tasks => [tasks]
  | .fork branches _ => [branches]
  | .try_ tasks catch_ => tasks :: catch_.tasks.toList
  | .listen foreach => foreach.toList.map Foreach.tasks
  | _ => []

/-- `v` is the task itself or nested in it. -/
inductive Within (v : Task) : Task → Prop
  | refl : Within v v
  | nested {t : Task} {tasks : TaskList} {name : String} {u : Task} : tasks ∈ t.kind.nested →
      (name, u) ∈ tasks → Within v u → Within v t

theorem Within.trans {v u t : Task} (hv : Within v u) (hu : Within u t) : Within v t := by
  induction hu with
  | refl => exact hv
  | nested htasks hmem _ ih => exact .nested htasks hmem ih

theorem Task.visits_eq (at_ : String) (t : Task) : t.visits at_ = (at_, t) :: t.kind.visits at_ := by
  cases t
  rfl

/-- A list's analysis holds the analysis of each of its tasks. -/
theorem visits_subset_listVisits {tasks : TaskList} {name : String} {t : Task}
    (h : (name, t) ∈ tasks) (at_ : String) (i : Nat) :
    ∃ reference, t.visits reference ⊆ listVisits at_ i tasks := by
  induction tasks generalizing i with
  | nil => exact absurd h (by simp)
  | cons u tasks ih =>
    obtain ⟨other, u⟩ := u
    rcases List.mem_cons.mp h with heq | h
    · cases heq
      exact ⟨_, List.subset_append_left _ _⟩
    · obtain ⟨reference, hsub⟩ := ih h (i + 1)
      exact ⟨reference, fun x hx => List.mem_append_right _ (hsub hx)⟩

/-- A task's analysis holds the analysis of each list inside it. -/
theorem listVisits_subset_visits {kind : Kind} {tasks : TaskList} (h : tasks ∈ kind.nested)
    (at_ : String) : ∃ inner, listVisits inner 0 tasks ⊆ kind.visits at_ := by
  cases kind with
  | do_ | for_ | fork =>
    cases List.mem_singleton.mp h
    exact ⟨_, List.Subset.refl _⟩
  | try_ body catch_ =>
    obtain ⟨errors, when, exceptWhen, retry, handler, then_⟩ := catch_
    cases handler with
    | none =>
      cases List.mem_singleton.mp h
      exact ⟨_, List.Subset.refl _⟩
    | some handler =>
      rcases List.mem_cons.mp h with rfl | h
      · exact ⟨_, List.subset_append_left _ _⟩
      · cases List.mem_singleton.mp h
        exact ⟨_, List.subset_append_right _ _⟩
  | listen foreach =>
    cases foreach with
    | none => exact absurd h (by simp [Kind.nested])
    | some foreach =>
      cases foreach
      cases List.mem_singleton.mp h
      exact ⟨_, List.Subset.refl _⟩
  | _ => exact absurd h (by simp [Kind.nested])

/-- The analysis of a task visits everything nested in it. -/
theorem Within.visited {v t : Task} (h : Within v t) (at_ : String) :
    ∃ reference, (reference, v) ∈ t.visits at_ := by
  induction h generalizing at_ with
  | refl => exact ⟨at_, by rw [Task.visits_eq]; exact List.mem_cons_self⟩
  | @nested t tasks name u htasks hmem _ ih =>
    obtain ⟨inner, hinner⟩ := listVisits_subset_visits htasks at_
    obtain ⟨at', hat⟩ := visits_subset_listVisits hmem inner 0
    obtain ⟨reference, hv⟩ := ih at'
    exact ⟨reference, by rw [Task.visits_eq]; exact List.mem_cons_of_mem _ (hinner (hat hv))⟩

end Ouro.Ows
