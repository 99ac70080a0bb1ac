import Ouro.Ows.Definition

/-!
# How a definition runs

The interpreter's control flow (`ows::run`) as a relation `Runs` between what is being executed, what
of the host it meets on the way and how it ends. References are the source's own texts.

What a run's data decides is left open: whether a condition holds, how many items there are, whether an
event arrives, whether the host answers with an error, whether the jump budget grants a jump. Every
choice is a rule of its own. With `faults` an execution may stop anywhere (an expression or a schema
that fails, a deadline, a limit, a cancellation, a suspension, a crash); without it tasks fault by
`raise` only. A resumed execution answers from its records (`Runs.replayed`), so each execution of a
run that crashes and resumes is one derivation.

The traces of concurrent branches are put one after the other: their order means nothing.
-/

namespace Ouro.Ows

/-- What a run meets of the host. -/
inductive Touch where
  | calls (function : String)
  | starts (process : Process)
  | checks (uri : String)
deriving DecidableEq

/-- Why something did not complete. -/
inductive Fault where
  /-- The error of a `raise`. -/
  | raised
  /-- Another error that a `catch` may take. -/
  | error
  /-- The outcome of an at-most-once call is unknown: only a `catch` that names it takes it. -/
  | unknown
  /-- The run suspends. -/
  | waiting
  /-- A fatal error, a cancellation, an interruption, the end a spent budget decided. -/
  | stop
deriving DecidableEq

namespace Run

/-- How a task list finished: on its own, by `then: exit`, or by `then: end`. -/
inductive Next where
  | done
  | exit
  | end
deriving DecidableEq

end Run

/-- How something ended: a task with the directive to follow, a kind with the one it chose, a list. -/
inductive Result where
  | went (flow : Flow)
  | chose (flow : Option Flow)
  | finished (next : Run.Next)
  | failed (fault : Fault)
deriving DecidableEq

namespace Result

/-- What a task's end makes of its list, if the list ends with it. -/
def leaving : Result → Option Result
  | went .exit => some (finished .exit)
  | went .end => some (finished .end)
  | failed f => some (failed f)
  | _ => none

/-- What a nested list's end is to the task around it: only `end` goes on. -/
def ended : Result → Result
  | finished .end => chose (some .end)
  | finished _ => chose none
  | r => r

/-- A `before` list that does not run to its end keeps the extended task from running. -/
def before : Result → Option Result
  | finished .exit => some (chose none)
  | finished .end => some (chose (some .end))
  | failed f => some (failed f)
  | _ => none

/-- The directive of a task whose extension's `after` list ended this way. -/
def after (flow : Option Flow) : Result → Result
  | finished .end => chose (some .end)
  | failed f => failed f
  | _ => chose flow

/-- A handler's end, with the directive of its `catch`. -/
def orElse (flow : Option Flow) : Result → Result
  | chose none => chose flow
  | r => r

/-- An iteration beside later ones that all ran: the first fault wins over a suspension and over an
`end`. -/
def join : Result → Result → Result
  | failed .waiting, failed f => failed f
  | failed f, _ => failed f
  | chose none, r => r
  | _, failed f => failed f
  | r, _ => r

end Result

/-- The directive a task follows: the chosen one, or its own. -/
def Task.directive (t : Task) (flow : Option Flow) : Flow := (flow.or t.then_).getD .continue

/-- The position a directive leads to within the list. -/
def follow (tasks : TaskList) (i : Nat) : Flow → Option Nat
  | .continue => some (i + 1)
  | .goto name => tasks.findIdx? fun t => t.1 = name
  | .exit | .end => none

/-- The external schemas among `schemas`, each validated against. -/
def checking (schemas : List Schema) : List Touch :=
  schemas.filterMap fun s => s.uri?.map Touch.checks

/-- The marker of an extension's tasks in a reference. -/
def extensionTasks : String := "/use/extensions/"

/-- The reference is one of an extension's tasks, or spells like one. -/
def inside (reference : String) : Bool := decide (extensionTasks.toList <:+: reference.toList)

/-- The extensions around a task; `holds` says which `when` conditions do. -/
def Workflow.around (wf : Workflow) (t : Task) (reference : String) (holds : Nat → Bool) :
    List (Nat × String × Extension) :=
  if inside reference then []
  else
    (wf.extensions.zipIdx.filter fun e =>
      e.1.2.extends t.kind && (e.1.2.when.isNone || holds e.2)).map fun e => (e.2, e.1.1, e.1.2)

theorem Workflow.around_eq_nil {wf : Workflow} (h : wf.extensions = []) (t : Task) (reference : String)
    (holds : Nat → Bool) : wf.around t reference holds = [] := by
  simp [Workflow.around, h]

/-- The reference of the task at `i` on its visit `k`. -/
def refer (at_ : String) (i : Nat) (name : String) (k : Nat) : String :=
  at_ ++ "/" ++ toString i ++ "/" ++ name ++ if k = 0 then "" else "[" ++ toString k ++ "]"

/-- The counts of a list's visits, before any. -/
def unvisited (tasks : TaskList) : List Nat := tasks.map fun _ => 0

/-- One more visit of the task at `i`. -/
def visited (visits : List Nat) (i : Nat) : List Nat := visits.modify i (· + 1)

/-- The prefix of attempt `k`'s references. -/
def attemptRef (reference : String) (k : Nat) : String :=
  reference ++ "/try" ++ if k = 1 then "" else "[" ++ toString k ++ "]"

/-- How many items a `for` may find. -/
def Items.counts : Items → Nat → Prop
  | .expr _, _ => True
  | .inline values, n => n = values.length

/-- The catch is for an at-most-once call of unknown outcome. -/
def Catch.namesUnknown (c : Catch) : Bool :=
  c.errors.any fun filter =>
    (filter.find? fun m => m.1 = "type").any fun m => m.2 = .str "urn:ouro:errors:call.unknown"

/-- The catch gets to see the fault. -/
def Catch.sees (c : Catch) : Fault → Bool
  | .raised | .error => true
  | .unknown => c.namesUnknown
  | .waiting | .stop => false

/-- The catch may decline an error it sees. -/
def Catch.selective (c : Catch) : Bool := c.errors.isSome || c.when.isSome || c.exceptWhen.isSome

/-- What is being executed. -/
inductive Code where
  | list (tasks : TaskList) (at_ : String) (visits : List Nat) (i : Nat)
  | task (t : Task) (reference : String)
  | layer (extensions : List (Nat × String × Extension)) (t : Task) (reference : String)
  /-- A list that may not be there: an extension's `before` or `after`. -/
  | around (tasks : Option TaskList) (at_ : String)
  | kind (t : Task) (reference : String)
  /-- The iterations of a `for` from `i` on, `left` of them. -/
  | passes (condition : Option String) (concurrency : Option Nat) (tasks : TaskList)
      (reference : String) (i left : Nat)
  | attempt (tasks : TaskList) (catch_ : Catch) (reference : String) (k : Nat)
  /-- A `listen` that has consumed `n` events. -/
  | events (foreach : Foreach) (reference : String) (n : Nat)

/-- A list from its first task. -/
def Code.start (tasks : TaskList) (at_ : String) : Code := .list tasks at_ (unvisited tasks) 0

section Rules

variable (wf : Workflow)

/-- How code runs: whether tasks may fault other than by `raise`, whether it is part of an
`on_exceeded` handler, what it meets, and how it ends. -/
inductive Runs : (faults handling : Bool) → Code → List Touch → Result → Prop
  /-- Stopped before it does anything. -/
  | cut {h c f} : f ≠ .raised → Runs true h c [] (.failed f)
  /-- Stopped after all it does, by an answer that is an error or by a deadline around it. -/
  | dropped {h c touched r f} : f ≠ .raised → Runs true h c touched r →
      Runs true h c touched (.failed f)
  /-- What an earlier execution saved is not done again. -/
  | replayed {fs h c touched r} : Runs fs h c touched r → Runs fs h c [] r
  -- A list follows each task's directive.
  | listDone {fs h tasks at_ visits i} : tasks[i]? = none →
      Runs fs h (.list tasks at_ visits i) [] (.finished .done)
  | listLeft {fs h tasks at_ visits i name t touched r r'} : tasks[i]? = some (name, t) →
      Runs fs h (.task t (refer at_ i name (visits.getD i 0))) touched r → r.leaving = some r' →
      Runs fs h (.list tasks at_ visits i) touched r'
  | listGoes {fs h tasks at_ visits i name t touched flow k touched' r} : tasks[i]? = some (name, t) →
      Runs fs h (.task t (refer at_ i name (visits.getD i 0))) touched (.went flow) →
      follow tasks i flow = some k → Runs fs h (.list tasks at_ (visited visits i) k) touched' r →
      Runs fs h (.list tasks at_ visits i) (touched ++ touched') r
  | listLost {h tasks at_ visits i name t touched target} : tasks[i]? = some (name, t) →
      Runs true h (.task t (refer at_ i name (visits.getD i 0))) touched (.went (.goto target)) →
      follow tasks i (.goto target) = none → Runs true h (.list tasks at_ visits i) touched (.failed .stop)
  -- A task: its condition, its input, its layers, its output and export, its jump.
  | taskSkipped {fs h t reference} : t.when.isSome →
      Runs fs h (.task t reference) [] (.went .continue)
  | taskRefused {h t reference f} : f ≠ .raised →
      Runs true h (.task t reference) (checking t.input.toList) (.failed f)
  | taskFails {fs h t reference holds touched f} :
      Runs fs h (.layer (wf.around t reference holds) t reference) touched (.failed f) →
      Runs fs h (.task t reference) (checking t.input.toList ++ touched) (.failed f)
  | taskSpoiled {h t reference holds touched flow part f} : f ≠ .raised →
      Runs true h (.layer (wf.around t reference holds) t reference) touched (.chose flow) →
      part <+: checking (t.output.toList ++ t.export_.toList) →
      Runs true h (.task t reference) (checking t.input.toList ++ touched ++ part) (.failed f)
  | taskGoes {fs h t reference holds touched flow} :
      Runs fs h (.layer (wf.around t reference holds) t reference) touched (.chose flow) →
      (∀ target, t.directive flow = .goto target → h = false) →
      Runs fs h (.task t reference) (checking t.input.toList ++ touched ++
        checking (t.output.toList ++ t.export_.toList)) (.went (t.directive flow))
  -- A refused jump: `on_exceeded` raises, or ends the run; a handler runs first, and cannot jump.
  | taskExceeds {h t reference holds touched flow target f} : f ≠ .raised →
      Runs true h (.layer (wf.around t reference holds) t reference) touched (.chose flow) →
      t.directive flow = .goto target →
      Runs true h (.task t reference) (checking t.input.toList ++ touched ++
        checking (t.output.toList ++ t.export_.toList)) (.failed f)
  | taskHandled {t reference holds touched flow target handler touched' r} :
      Runs true false (.layer (wf.around t reference holds) t reference) touched (.chose flow) →
      t.directive flow = .goto target → wf.onExceeded = .task handler →
      Runs true true (.task handler (reference ++ "/limits/on_exceeded")) touched' r →
      Runs true false (.task t reference) (checking t.input.toList ++ touched ++
        checking (t.output.toList ++ t.export_.toList) ++ touched') (.failed .stop)
  -- The extensions around a task, the first one outermost.
  | aroundNone {fs h at_} : Runs fs h (.around none at_) [] (.finished .done)
  | aroundSome {fs h tasks at_ touched r} : Runs fs h (.start tasks at_) touched r →
      Runs fs h (.around (some tasks) at_) touched r
  | layerInner {fs h t reference touched r} : Runs fs h (.kind t reference) touched r →
      Runs fs h (.layer [] t reference) touched r
  | layerSkips {fs h i name e es t reference touched r r'} :
      Runs fs h (.around e.before
        (reference ++ extensionTasks ++ toString i ++ "/" ++ name ++ "/before")) touched r →
      r.before = some r' → Runs fs h (.layer ((i, name, e) :: es) t reference) touched r'
  | layerFails {fs h i name e es t reference touched touched' f} :
      Runs fs h (.around e.before
        (reference ++ extensionTasks ++ toString i ++ "/" ++ name ++ "/before")) touched
        (.finished .done) →
      Runs fs h (.layer es t reference) touched' (.failed f) →
      Runs fs h (.layer ((i, name, e) :: es) t reference) (touched ++ touched') (.failed f)
  | layerWraps {fs h i name e es t reference touched touched' flow touched'' r} :
      Runs fs h (.around e.before
        (reference ++ extensionTasks ++ toString i ++ "/" ++ name ++ "/before")) touched
        (.finished .done) →
      Runs fs h (.layer es t reference) touched' (.chose flow) →
      Runs fs h (.around e.after
        (reference ++ extensionTasks ++ toString i ++ "/" ++ name ++ "/after")) touched'' r →
      Runs fs h (.layer ((i, name, e) :: es) t reference) (touched ++ touched' ++ touched'')
        (r.after flow)
  -- Calls: a host function, or a task of `use.functions`, whose directive nobody follows.
  | callHost {fs h t reference function with_} : t.kind = .call function with_ →
      (wf.functions.find? fun f => f.1 = functionName function) = none →
      Runs fs h (.kind t reference) [.calls (functionName function)] (.chose none)
  | callOwn {fs h t reference function with_ name body touched flow} :
      t.kind = .call function with_ → t.delivery = .atLeastOnce →
      (wf.functions.find? fun f => f.1 = functionName function) = some (name, body) →
      Runs fs h (.task body (reference ++ "/use/functions/" ++ functionName function)) touched
        (.went flow) →
      Runs fs h (.kind t reference) touched (.chose none)
  | callOwnFails {fs h t reference function with_ name body touched f} :
      t.kind = .call function with_ → t.delivery = .atLeastOnce →
      (wf.functions.find? fun f => f.1 = functionName function) = some (name, body) →
      Runs fs h (.task body (reference ++ "/use/functions/" ++ functionName function)) touched
        (.failed f) →
      Runs fs h (.kind t reference) touched (.failed f)
  | do_ {fs h t reference tasks touched r} : t.kind = .do_ tasks →
      Runs fs h (.start tasks (reference ++ "/do")) touched r →
      Runs fs h (.kind t reference) touched r.ended
  -- The iterations of a `for`, one after the other or at once.
  | for_ {fs h t reference items condition concurrency tasks n touched r} :
      t.kind = .for_ items condition concurrency tasks → items.counts n →
      Runs fs h (.passes condition concurrency tasks reference 0 n) touched r →
      Runs fs h (.kind t reference) touched r
  | passesDone {fs h condition concurrency tasks reference i} :
      Runs fs h (.passes condition concurrency tasks reference i 0) [] (.chose none)
  | passesBreak {fs h condition tasks reference i left} : condition.isSome →
      Runs fs h (.passes condition none tasks reference i left) [] (.chose none)
  | passStops {fs h condition tasks reference i left touched r} :
      Runs fs h (.start tasks (reference ++ "[" ++ toString i ++ "]/do")) touched r →
      r.ended ≠ .chose none →
      Runs fs h (.passes condition none tasks reference i (left + 1)) touched r.ended
  | passGoes {fs h condition tasks reference i left touched r touched' r'} :
      Runs fs h (.start tasks (reference ++ "[" ++ toString i ++ "]/do")) touched r →
      r.ended = .chose none →
      Runs fs h (.passes condition none tasks reference (i + 1) left) touched' r' →
      Runs fs h (.passes condition none tasks reference i (left + 1)) (touched ++ touched') r'
  | passBeside {fs h condition limit tasks reference i left touched r touched' r'} :
      Runs fs h (.start tasks (reference ++ "[" ++ toString i ++ "]/do")) touched r →
      Runs fs h (.passes condition (some limit) tasks reference (i + 1) left) touched' r' →
      Runs fs h (.passes condition (some limit) tasks reference i (left + 1)) (touched ++ touched')
        (r.ended.join r')
  -- A fork: nobody follows its branches' directives. A branch that is dropped may be anywhere.
  | forkJoins {fs h t reference branches}
      {touched : Nat → List Touch} {flows : Nat → Flow} :
      t.kind = .fork branches false →
      (∀ j name b, branches[j]? = some (name, b) →
        Runs fs h (.task b (refer (reference ++ "/fork/branches") j name 0)) (touched j)
          (.went (flows j))) →
      Runs fs h (.kind t reference) ((List.range branches.length).flatMap touched) (.chose none)
  | forkFails {fs h t reference branches}
      {touched : Nat → List Touch} {results : Nat → Result} {k f f'} :
      t.kind = .fork branches false →
      (∀ name b, branches[k]? = some (name, b) →
        Runs fs h (.task b (refer (reference ++ "/fork/branches") k name 0)) (touched k)
          (.failed f)) →
      (∀ j name b, branches[j]? = some (name, b) → j ≠ k →
        Runs true h (.task b (refer (reference ++ "/fork/branches") j name 0)) (touched j)
          (results j)) →
      k < branches.length → f' = f ∨ (fs = true ∧ f' = .unknown) →
      Runs fs h (.kind t reference) ((List.range branches.length).flatMap touched) (.failed f')
  | raceWon {fs h t reference branches}
      {touched : Nat → List Touch} {results : Nat → Result} {k flow} :
      t.kind = .fork branches true →
      (∀ name b, branches[k]? = some (name, b) →
        Runs fs h (.task b (refer (reference ++ "/fork/branches") k name 0)) (touched k)
          (.went flow)) →
      (∀ j name b, branches[j]? = some (name, b) → j ≠ k →
        Runs true h (.task b (refer (reference ++ "/fork/branches") j name 0)) (touched j)
          (results j)) →
      k < branches.length →
      Runs fs h (.kind t reference) ((List.range branches.length).flatMap touched) (.chose none)
  | raceLost {fs h t reference branches}
      {touched : Nat → List Touch} {faults : Nat → Fault} {k} :
      t.kind = .fork branches true →
      (∀ j name b, branches[j]? = some (name, b) →
        Runs fs h (.task b (refer (reference ++ "/fork/branches") j name 0)) (touched j)
          (.failed (faults j))) →
      k < branches.length →
      Runs fs h (.kind t reference) ((List.range branches.length).flatMap touched)
        (.failed (faults k))
  | raceStopped {h t reference branches}
      {touched : Nat → List Touch} {results : Nat → Result} {k f} :
      t.kind = .fork branches true →
      (∀ name b, branches[k]? = some (name, b) →
        Runs true h (.task b (refer (reference ++ "/fork/branches") k name 0)) (touched k)
          (.failed f)) →
      (∀ j name b, branches[j]? = some (name, b) → j ≠ k →
        Runs true h (.task b (refer (reference ++ "/fork/branches") j name 0)) (touched j)
          (results j)) →
      k < branches.length → f ≠ .raised → f ≠ .error →
      Runs true h (.kind t reference) ((List.range branches.length).flatMap touched) (.failed f)
  | plain {fs h t reference} : t.kind = .set ∨ t.kind = .wait ∨ t.kind = .emit →
      Runs fs h (.kind t reference) [] (.chose none)
  | run {fs h t reference process} : t.kind = .run process →
      Runs fs h (.kind t reference) [.starts process] (.chose none)
  | raise {fs h t reference} : t.kind = .raise →
      Runs fs h (.kind t reference) [] (.failed .raised)
  -- A switch: a case whose condition holds, else its default, else the task's own directive.
  | switchCase {fs h t reference cases name c} : t.kind = .switch cases → (name, c) ∈ cases →
      c.when.isSome → Runs fs h (.kind t reference) [] (.chose (some c.then_))
  | switchElse {fs h t reference cases} : t.kind = .switch cases →
      Runs fs h (.kind t reference) []
        (.chose ((cases.find? fun c => c.2.when.isNone).map fun c => c.2.then_))
  -- A `try`: its attempts, each passing on what its catch does not see or take.
  | try_ {fs h t reference tasks catch_ touched r} : t.kind = .try_ tasks catch_ →
      Runs fs h (.attempt tasks catch_ reference 1) touched r →
      Runs fs h (.kind t reference) touched r
  | attemptDone {fs h tasks catch_ reference k touched next} :
      Runs fs h (.start tasks (attemptRef reference k)) touched (.finished next) →
      Runs fs h (.attempt tasks catch_ reference k) touched (Result.finished next).ended
  | attemptPasses {fs h tasks catch_ reference k touched f} :
      Runs fs h (.start tasks (attemptRef reference k)) touched (.failed f) →
      catch_.sees f = false ∨ catch_.selective = true →
      Runs fs h (.attempt tasks catch_ reference k) touched (.failed f)
  | attemptRetries {fs h tasks catch_ reference k touched f touched' r} :
      Runs fs h (.start tasks (attemptRef reference k)) touched (.failed f) →
      catch_.sees f = true → catch_.retry = true →
      Runs fs h (.attempt tasks catch_ reference (k + 1)) touched' r →
      Runs fs h (.attempt tasks catch_ reference k) (touched ++ touched') r
  | attemptCaught {fs h tasks catch_ reference k touched f touched' r} :
      Runs fs h (.start tasks (attemptRef reference k)) touched (.failed f) →
      catch_.sees f = true → Runs fs h (.around catch_.tasks (reference ++ "/catch/do")) touched' r →
      Runs fs h (.attempt tasks catch_ reference k) (touched ++ touched')
        (r.ended.orElse catch_.then_)
  -- A `listen` runs its `foreach` tasks for each event it consumes, as many as come.
  | listen {fs h t reference} : t.kind = .listen none →
      Runs fs h (.kind t reference) [] (.chose none)
  | listenEach {fs h t reference foreach touched r} : t.kind = .listen (some foreach) →
      Runs fs h (.events foreach reference 0) touched r → Runs fs h (.kind t reference) touched r
  | eventsDone {fs h foreach reference n} :
      Runs fs h (.events foreach reference n) [] (.chose none)
  | eventFails {fs h foreach reference n touched f} :
      Runs fs h (.start foreach.tasks (reference ++ "/foreach/" ++ toString n ++ "/do")) touched
        (.failed f) →
      Runs fs h (.events foreach reference n) touched (.failed f)
  | eventSpoiled {h foreach reference n touched next part f} : f ≠ .raised →
      Runs true h (.start foreach.tasks (reference ++ "/foreach/" ++ toString n ++ "/do")) touched
        (.finished next) →
      part <+: checking (foreach.output.toList ++ foreach.export_.toList) →
      Runs true h (.events foreach reference n) (touched ++ part) (.failed f)
  | eventEnds {fs h foreach reference n touched} :
      Runs fs h (.start foreach.tasks (reference ++ "/foreach/" ++ toString n ++ "/do")) touched
        (.finished .end) →
      Runs fs h (.events foreach reference n)
        (touched ++ checking (foreach.output.toList ++ foreach.export_.toList)) (.chose (some .end))
  | eventGoes {fs h foreach reference n touched next touched' r} :
      Runs fs h (.start foreach.tasks (reference ++ "/foreach/" ++ toString n ++ "/do")) touched
        (.finished next) → next ≠ .end →
      Runs fs h (.events foreach reference (n + 1)) touched' r →
      Runs fs h (.events foreach reference n)
        (touched ++ checking (foreach.output.toList ++ foreach.export_.toList) ++ touched') r

/-- One execution of the workflow: its input, its tasks, its output; it may stop anywhere. -/
inductive Executes : List Touch → Prop
  | refused : Executes (checking wf.input.toList)
  | stopped {touched r} : Runs wf true false (.start wf.tasks "/do") touched r →
      Executes (checking wf.input.toList ++ touched)
  | completed {touched next} :
      Runs wf true false (.start wf.tasks "/do") touched (.finished next) →
      Executes (checking wf.input.toList ++ touched ++ checking wf.output.toList)

end Rules

/-- Without extensions a task's only layer is the task itself. -/
theorem Runs.layer {wf : Workflow} {fs h : Bool} {t : Task} {reference : String}
    {touched : List Touch} {r : Result} (hruns : Runs wf fs h (.kind t reference) touched r)
    (hext : wf.extensions = []) (holds : Nat → Bool) :
    Runs wf fs h (.layer (wf.around t reference holds) t reference) touched r := by
  rw [Workflow.around_eq_nil hext]
  exact .layerInner hruns

end Ouro.Ows
