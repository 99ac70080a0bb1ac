import Ouro.Durable.Record
import Ouro.Lib.Counting

/-!
# The ceiling on tasks

An execution counts the tasks that a run has entered, from the records the executions before it left
(`Run.load`), and enters no task above the host's ceiling (`Run.task`). The count is in memory and goes up
before the task's record is saved, so a crash can fall between the two; branches and iterations save side
by side, and a save that failed for its caller may have been committed.

`TaskStep` says what can happen to the journal of a run and to its executions, those a later one has
replaced included: the journal takes saves only from the current one. In every history the records and the
first saves under way of the current execution stay within its count and the ceiling (`Ceiling.units`).
-/

namespace Ouro

open Lib

/-- The record of a task. -/
def Record.isTask : Record → Bool
  | .task _ _ => true
  | _ => false

namespace Ows

/-! ### Executions -/

/-- The key of the record of the task at a reference. -/
def taskKey (reference : String) : String := reference ++ "#task"

/-- The records of tasks. -/
def tasksOf (records : Table String Record) : Nat := (records.rowsOf Record.isTask).length

/-- Whether the task at a reference has a record. -/
def recorded (records : Table String Record) (reference : String) : Bool :=
  (records.get (taskKey reference)).any Record.isTask

/-- A save of a task's record under way. For its first one a unit was taken. -/
structure Saving where
  reference : String
  record : Record
  first : Bool
deriving DecidableEq

/-- An execution of a run: the tasks counted, the records it knows, its saves under way and the references
it has come to. -/
structure Run where
  tasksRun : Nat
  records : Table String Record
  saving : List Saving
  arrived : List String

/-- What becomes of a task that an execution comes to. -/
inductive Arrival where
  | restored (result : TaskResult)
  | refused (error : WorkflowError)
  | saving (s : Saving)

/-- The error of a task above the ceiling. -/
def exhausted (max : Nat) (reference : String) : WorkflowError :=
  { WorkflowError.runtime ("more than " ++ toString max ++
      " tasks ran; a loop or a `then` cycle does not end") with instance_ := some reference }

namespace Run

/-- An execution that starts from the records of those before it. -/
def load (records : Table String Record) : Run :=
  { tasksRun := tasksOf records, records, saving := [], arrived := [] }

/-- The execution has come to a task. -/
def come (r : Run) (reference : String) : Run := { r with arrived := reference :: r.arrived }

/-- A save starts. -/
def begin_ (r : Run) (s : Saving) : Run := { r with saving := s :: r.saving }

/-- One more task is counted. -/
def count (r : Run) : Run := { r with tasksRun := r.tasksRun + 1 }

/-- The execution comes to a task: a result is restored, a task with a record is entered again, and any
other takes a unit. The body is entered once the save is committed. -/
def task (max : Nat) (now : Int) (reference : String) (r : Run) : Run × Arrival :=
  match r.records.get (taskKey reference) with
  | some (.task _ (some result)) => (r.come reference, .restored result)
  | some (.task startedMs none) =>
    ((r.come reference).begin_ ⟨reference, .task startedMs none, false⟩,
      .saving ⟨reference, .task startedMs none, false⟩)
  | some _ =>
    ((r.come reference).begin_ ⟨reference, .task now none, false⟩, .saving ⟨reference, .task now none, false⟩)
  | none =>
    if max ≤ r.tasksRun then ((r.come reference).count, .refused (exhausted max reference))
    else
      ((r.come reference).count.begin_ ⟨reference, .task now none, true⟩,
        .saving ⟨reference, .task now none, true⟩)

/-- A save is over, and nothing is known of it. -/
def drop (r : Run) (s : Saving) : Run := { r with saving := r.saving.erase s }

/-- A save is over, and was committed. -/
def note (r : Run) (s : Saving) : Run :=
  { r.drop s with records := r.records.put (taskKey s.reference) s.record }

end Run

/-- The journal of a run and its executions, by the claim that each works under. -/
structure World where
  journal : Table String Record
  owner : Nat
  runs : Nat → Option Run
  /-- The tasks whose bodies were entered. -/
  entered : List String

namespace World

/-- A run before its first execution. -/
def start : World := { journal := .empty, owner := 0, runs := fun _ => none, entered := [] }

/-- The execution under a claim is now `r`. -/
def setRun (W : World) (f : Nat) (r : Run) : World := { W with runs := Function.update W.runs f (some r) }

/-- A save is committed. -/
def commit (W : World) (s : Saving) : World := { W with journal := W.journal.put (taskKey s.reference) s.record }

/-- The bodies entered once a save is known to be committed: that of the task, by its save without a
result. -/
def enter (W : World) (s : Saving) : World :=
  { W with entered := match s.record with
      | .task _ none => s.reference :: W.entered
      | _ => W.entered }

end World

/-- The journal takes a record where it has none, or where the record may advance to it. -/
def takes (journal : Table String Record) (k : String) (record : Record) : Bool :=
  (journal.get k).all fun old => checkTransition old record

/-- What can happen next. An execution that crashes, or is replaced, takes no more steps or goes on. -/
inductive TaskStep (max : Nat) (W : World) : World → Prop where
  /-- Another executor claims the run. -/
  | claim : TaskStep max W { W with owner := W.owner + 1 }
  | load (hnew : W.runs W.owner = none) : TaskStep max W (W.setRun W.owner (.load W.journal))
  /-- A reference names one invocation, which an execution comes to once. -/
  | arrive {f : Nat} {r : Run} {reference : String} {now : Int} (hr : W.runs f = some r)
      (honce : reference ∉ r.arrived) : TaskStep max W (W.setRun f (r.task max now reference).1)
  /-- The body of a task ends. -/
  | finish {f : Nat} {r : Run} {reference : String} {startedMs : Int} {result : TaskResult}
      (hr : W.runs f = some r) (harrived : reference ∈ r.arrived)
      (hrecord : r.records.get (taskKey reference) = some (.task startedMs none)) :
      TaskStep max W (W.setRun f (r.begin_ ⟨reference, .task startedMs (some result), false⟩))
  /-- The journal commits a save of its current executor and answers. -/
  | save {r : Run} {s : Saving} (hr : W.runs W.owner = some r) (hs : s ∈ r.saving)
      (htakes : takes W.journal (taskKey s.reference) s.record = true) :
      TaskStep max W (((W.setRun W.owner (r.note s)).commit s).enter s)
  /-- It commits the save and the answer is lost, or the task that saves is dropped. -/
  | lose {r : Run} {s : Saving} (hr : W.runs W.owner = some r) (hs : s ∈ r.saving)
      (htakes : takes W.journal (taskKey s.reference) s.record = true) :
      TaskStep max W ((W.setRun W.owner (r.drop s)).commit s)
  /-- A save fails, as every one of a replaced executor does. -/
  | fail {f : Nat} {r : Run} {s : Saving} (hr : W.runs f = some r) (hs : s ∈ r.saving) :
      TaskStep max W (W.setRun f (r.drop s))
  /-- The current executor saves a record of another kind. -/
  | other {r : Run} {k : String} {record : Record} (hr : W.runs W.owner = some r)
      (hkey : ∀ reference, k ≠ taskKey reference) (hkind : record.isTask = false)
      (htakes : takes W.journal k record = true) :
      TaskStep max W { W.setRun W.owner { r with records := r.records.put k record } with
        journal := W.journal.put k record }

/-- One world comes after another. -/
inductive After (max : Nat) (W : World) : World → Prop where
  | refl : After max W W
  | step {W' W'' : World} : After max W W' → TaskStep max W' W'' → After max W W''

/-! ### What the journal takes -/

theorem takes_task {journal : Table String Record} {k : String} {record old : Record}
    (h : takes journal k record = true) (hold : journal.get k = some old) : record.isTask = old.isTask := by
  rw [takes, hold, Option.all_some] at h
  unfold checkTransition at h
  rw [Bool.or_eq_true, decide_eq_true_iff] at h
  rcases h with rfl | h
  · rfl
  · -- a record that advances stays of its kind
    split at h
    · rfl
    · rfl
    · cases h

/-- A task's save is counted when the task had no record. -/
theorem tasksOf_put {journal : Table String Record} {k : String} {record : Record}
    (h : takes journal k record = true) : tasksOf (journal.put k record) =
      tasksOf journal + if record.isTask = true ∧ journal.get k = none then 1 else 0 := by
  unfold tasksOf
  cases hold : journal.get k with
  | none =>
    cases htask : record.isTask with
    | true => rw [if_pos ⟨rfl, rfl⟩, Table.countRows_put htask (by rw [hold]; rfl)]
    | false =>
      have hsame : (journal.get k).any Record.isTask = record.isTask := by rw [hold, htask]; rfl
      rw [if_neg fun h => absurd h.1 (by decide), Table.countRows_put_same hsame, Nat.add_zero]
  | some old =>
    have hsame : (journal.get k).any Record.isTask = record.isTask := by
      rw [hold, Option.any_some, takes_task h hold]
    rw [if_neg fun h => absurd h.2 (by simp), Table.countRows_put_same hsame, Nat.add_zero]

/-- A task's record stays one. -/
theorem task_put {journal : Table String Record} {k k' : String} {record : Record}
    (h : takes journal k record = true) (htask : (journal.get k').any Record.isTask = true) :
    ((journal.put k record).get k').any Record.isTask = true := by
  rw [Table.get_put]
  split
  · next hk =>
    subst hk
    cases hold : journal.get k with
    | none => simp [hold] at htask
    | some old =>
      rw [hold, Option.any_some] at htask
      rw [Option.any_some, takes_task h hold, htask]
  · exact htask

theorem isSome_put {journal : Table String Record} {k k' : String} {record : Record}
    (h : (journal.get k').isSome) : ((journal.put k record).get k').isSome := by
  rw [Table.get_put]
  split
  · rfl
  · exact h

/-! ### Within the ceiling -/

variable {max : Nat} {W W' : World}

/-- What holds of a run's journal and its executions. -/
structure Ceiling (max : Nat) (W : World) : Prop where
  bounded : tasksOf W.journal ≤ max
  unclaimed : ∀ f, W.owner < f → W.runs f = none
  /-- The records and the first saves under way are within the count of the current execution. -/
  units : ∀ r, W.runs W.owner = some r →
    tasksOf W.journal + r.saving.countP (·.first) ≤ max ∧
      tasksOf W.journal + r.saving.countP (·.first) ≤ r.tasksRun
  /-- What an execution knows is in the journal. -/
  known : ∀ f r, W.runs f = some r → ∀ k, (r.records.get k).isSome → (W.journal.get k).isSome
  /-- Saves under way are of tasks it has come to, and one that is not the first finds a record. -/
  saves : ∀ f r, W.runs f = some r → ∀ s ∈ r.saving, s.record.isTask = true ∧ s.reference ∈ r.arrived ∧
    (s.first = false → (W.journal.get (taskKey s.reference)).isSome)
  /-- Of the tasks that it has not come to, the current execution knows every record. -/
  remembered : ∀ r, W.runs W.owner = some r → ∀ reference, reference ∉ r.arrived →
    recorded W.journal reference = true → recorded r.records reference = true
  entered : ∀ reference ∈ W.entered, recorded W.journal reference = true

theorem start_ceiling : Ceiling max World.start where
  bounded := by
    have hnone : tasksOf World.start.journal = 0 := rfl
    rw [hnone]
    exact Nat.zero_le _
  unclaimed _ _ := rfl
  units _ h := by cases h
  known _ _ h := by cases h
  saves _ _ h := by cases h
  remembered _ h := by cases h
  entered _ h := by cases h

theorem taskKey_injective : Function.Injective taskKey := by
  intro x y h
  have hchars := congrArg String.toList h
  rw [taskKey, taskKey, String.toList_append, String.toList_append] at hchars
  exact String.toList_inj.mp (List.append_cancel_right hchars)

theorem Ceiling.claimed {f : Nat} {r : Run} (h : Ceiling max W) (hr : W.runs f = some r) : f ≤ W.owner := by
  by_contra hf
  rw [h.unclaimed f (Nat.lt_of_not_le hf)] at hr
  cases hr

/-- An execution changes, and the journal does not. -/
theorem Ceiling.setRun (h : Ceiling max W) {f : Nat} {r : Run} (hf : f ≤ W.owner)
    (hunits : f = W.owner → tasksOf W.journal + r.saving.countP (·.first) ≤ max ∧
      tasksOf W.journal + r.saving.countP (·.first) ≤ r.tasksRun)
    (hknown : ∀ k, (r.records.get k).isSome → (W.journal.get k).isSome)
    (hsaves : ∀ s ∈ r.saving, s.record.isTask = true ∧ s.reference ∈ r.arrived ∧
      (s.first = false → (W.journal.get (taskKey s.reference)).isSome))
    (hremembered : f = W.owner → ∀ reference, reference ∉ r.arrived →
      recorded W.journal reference = true → recorded r.records reference = true) :
    Ceiling max (W.setRun f r) where
  bounded := h.bounded
  unclaimed g hg := by
    -- An execution that was never claimed is another one.
    have hne : g ≠ f := fun heq => absurd hf (Nat.not_le.mpr (heq ▸ hg))
    exact (Function.update_of_ne hne _ _).trans (h.unclaimed g hg)
  -- The counts of the current execution, when it is the one that changes.
  units r' hr' := by
    by_cases heq : W.owner = f
    · obtain rfl : r = r' := by simpa [World.setRun, heq] using hr'
      exact hunits heq.symm
    · exact h.units r' ((Function.update_of_ne heq _ _).symm.trans hr')
  -- What any execution knows is in the journal.
  known g r' hr' := by
    by_cases heq : g = f
    · obtain rfl : r = r' := by simpa [World.setRun, heq] using hr'
      exact hknown
    · exact h.known g r' ((Function.update_of_ne heq _ _).symm.trans hr')
  saves g r' hr' := by
    by_cases heq : g = f
    · obtain rfl : r = r' := by simpa [World.setRun, heq] using hr'
      exact hsaves
    · exact h.saves g r' ((Function.update_of_ne heq _ _).symm.trans hr')
  -- A task it has not come to is found in what it loaded.
  remembered r' hr' := by
    by_cases heq : W.owner = f
    · obtain rfl : r = r' := by simpa [World.setRun, heq] using hr'
      exact hremembered heq.symm
    · exact h.remembered r' ((Function.update_of_ne heq _ _).symm.trans hr')
  entered := h.entered

/-- The journal takes a record from the current execution, which changes to `r`. -/
theorem Ceiling.put (h : Ceiling max W) {r : Run} {k : String} {record : Record} {entered : List String}
    (hr : W.runs W.owner = some r) {r' : Run} (htakes : takes W.journal k record = true)
    (hunits : tasksOf (W.journal.put k record) + r'.saving.countP (·.first) ≤
      tasksOf W.journal + r.saving.countP (·.first))
    (htasksRun : r'.tasksRun = r.tasksRun) (harrived : r'.arrived = r.arrived)
    (hsaving : ∀ s ∈ r'.saving, s ∈ r.saving)
    (hrecords : r'.records = r.records ∨ r'.records = r.records.put k record)
    (hfound : ∀ reference, taskKey reference = k → reference ∈ r.arrived)
    (hentered : ∀ reference ∈ entered, reference ∈ W.entered ∨
      taskKey reference = k ∧ record.isTask = true) :
    Ceiling max { W.setRun W.owner r' with journal := W.journal.put k record, entered := entered } where
  -- A save moves a unit from the saves under way to the journal.
  bounded := (Nat.le_add_right _ _).trans (hunits.trans (h.units r hr).1)
  unclaimed g hg := (Function.update_of_ne hg.ne' _ _).trans (h.unclaimed g hg)
  units r'' hr'' := by
    obtain rfl : r' = r'' := by simpa [World.setRun] using hr''
    exact ⟨hunits.trans (h.units r hr).1, hunits.trans (htasksRun ▸ (h.units r hr).2)⟩
  -- What is known now is the record put, or was known.
  known g r'' hr'' k' hk' := by
    by_cases heq : g = W.owner
    · obtain rfl : r' = r'' := by simpa [World.setRun, heq] using hr''
      rcases hrecords with hsame | hput
      · exact isSome_put (h.known _ r hr k' (hsame ▸ hk'))
      · show ((W.journal.put k record).get k').isSome
        rw [hput, Table.get_put] at hk'
        rw [Table.get_put]
        split
        · rfl
        · next hne =>
          rw [if_neg hne] at hk'
          exact h.known _ r hr k' hk'
    · exact isSome_put (h.known g r'' ((Function.update_of_ne heq _ _).symm.trans hr'') k' hk')
  -- No save under way is new.
  saves g r'' hr'' s hs := by
    by_cases heq : g = W.owner
    · obtain rfl : r' = r'' := by simpa [World.setRun, heq] using hr''
      obtain ⟨htask, hin, hfirst⟩ := h.saves _ r hr s (hsaving s hs)
      exact ⟨htask, harrived ▸ hin, fun hno => isSome_put (hfirst hno)⟩
    · obtain ⟨htask, hin, hfirst⟩ := h.saves g r'' ((Function.update_of_ne heq _ _).symm.trans hr'') s hs
      exact ⟨htask, hin, fun hno => isSome_put (hfirst hno)⟩
  remembered r'' hr'' reference hout hrecorded := by
    obtain rfl : r' = r'' := by simpa [World.setRun] using hr''
    rw [harrived] at hout
    -- it has not come to the task, so the record is another's
    have hne : k ≠ taskKey reference := fun heq => hout (hfound reference heq.symm)
    have hbefore : recorded W.journal reference = true := by
      unfold recorded at hrecorded ⊢
      rwa [show (W.journal.put k record).get (taskKey reference) = _ from Table.get_put_ne _ _ hne] at hrecorded
    have hknows := h.remembered r hr reference hout hbefore
    rcases hrecords with hsame | hput
    · rw [hsame]
      exact hknows
    · unfold recorded at hknows ⊢
      rw [hput, Table.get_put_ne _ _ hne]
      exact hknows
  -- A body that was entered has its task's record.
  entered reference hin := by
    show recorded (W.journal.put k record) reference = true
    rcases hentered reference hin with hin | ⟨rfl, htask⟩
    · exact task_put htakes (h.entered reference hin)
    · unfold recorded
      rw [Table.get_put_self, Option.any_some, htask]

/-- What an execution does when it comes to a task. -/
inductive Arrives (max : Nat) (reference : String) (r : Run) : Run × Arrival → Prop
  | restored {result : TaskResult} (hrecord : (r.records.get (taskKey reference)).isSome) :
      Arrives max reference r (r.come reference, .restored result)
  | again {startedMs : Int} (hrecord : (r.records.get (taskKey reference)).isSome) :
      Arrives max reference r ((r.come reference).begin_ ⟨reference, .task startedMs none, false⟩,
        .saving ⟨reference, .task startedMs none, false⟩)
  | refused (hnone : r.records.get (taskKey reference) = none) :
      Arrives max reference r ((r.come reference).count, .refused (exhausted max reference))
  | first {startedMs : Int} (hnone : r.records.get (taskKey reference) = none) (hroom : r.tasksRun < max) :
      Arrives max reference r ((r.come reference).count.begin_ ⟨reference, .task startedMs none, true⟩,
        .saving ⟨reference, .task startedMs none, true⟩)

theorem Run.task_arrives (max : Nat) (now : Int) (reference : String) (r : Run) :
    Arrives max reference r (r.task max now reference) := by
  unfold Run.task
  split
  · next hrecord => exact .restored (by rw [hrecord]; rfl)
  · next hrecord => exact .again (by rw [hrecord]; rfl)
  · next hrecord => exact .again (by rw [hrecord]; rfl)
  · next hnone =>
    split
    · exact .refused hnone
    · next hroom => exact .first hnone (Nat.lt_of_not_le hroom)

/-- An execution comes to a task. -/
theorem Ceiling.arrive (h : Ceiling max W) {f : Nat} {r : Run} {reference : String} {p : Run × Arrival}
    (hr : W.runs f = some r) (harrives : Arrives max reference r p) : Ceiling max (W.setRun f p.1) := by
  -- The task is now among those it has come to.
  have hsaves : ∀ s ∈ r.saving, s.record.isTask = true ∧ s.reference ∈ reference :: r.arrived ∧
      (s.first = false → (W.journal.get (taskKey s.reference)).isSome) := by
    intro s hs
    obtain ⟨htask, hin, hfirst⟩ := h.saves f r hr s hs
    exact ⟨htask, List.mem_cons_of_mem _ hin, hfirst⟩
  have hremembered : f = W.owner → ∀ other, other ∉ reference :: r.arrived →
      recorded W.journal other = true → recorded r.records other = true := by
    rintro rfl other hout
    exact h.remembered r hr other fun hin => hout (List.mem_cons_of_mem _ hin)
  have hunits : f = W.owner → tasksOf W.journal + r.saving.countP (·.first) ≤ max ∧
      tasksOf W.journal + r.saving.countP (·.first) ≤ r.tasksRun := by
    rintro rfl
    exact h.units r hr
  cases harrives with
  -- A task whose record was found runs no count; the others count one.
  | restored hrecord => exact h.setRun (h.claimed hr) hunits (h.known f r hr) hsaves hremembered
  | again hrecord =>
    refine h.setRun (h.claimed hr) (fun hf => ?_) (h.known f r hr) ?_ hremembered
    · simpa [Run.begin_, Run.come] using hunits hf
    · exact List.forall_mem_cons.mpr
        ⟨⟨rfl, List.mem_cons_self, fun _ => h.known f r hr _ hrecord⟩, hsaves⟩
  | refused hnone =>
    -- the count goes up all the same
    exact h.setRun (h.claimed hr) (fun hf => ⟨(hunits hf).1, (hunits hf).2.trans (Nat.le_succ _)⟩)
      (h.known f r hr) hsaves hremembered
  -- There was room under the ceiling, so the unit goes to the save under way.
  | first hnone hroom =>
    refine h.setRun (h.claimed hr) (fun hf => ?_) (h.known f r hr) ?_ hremembered
    · have hcount := hunits hf
      simp only [Run.begin_, Run.count, Run.come, List.countP_cons_of_pos]
      omega
    · exact List.forall_mem_cons.mpr ⟨⟨rfl, List.mem_cons_self, fun hno => by cases hno⟩, hsaves⟩

/-- A committed save moves its unit from the saves under way to the records. -/
theorem Ceiling.commit_units (h : Ceiling max W) {r : Run} {s : Saving} (hr : W.runs W.owner = some r)
    (hs : s ∈ r.saving) (htakes : takes W.journal (taskKey s.reference) s.record = true) :
    tasksOf (W.journal.put (taskKey s.reference) s.record) + (r.saving.erase s).countP (·.first) ≤
      tasksOf W.journal + r.saving.countP (·.first) := by
  have hcount : r.saving.countP (·.first) =
      (r.saving.erase s).countP (·.first) + if s.first = true then 1 else 0 := by
    rw [(List.perm_cons_erase hs).countP_eq, List.countP_cons]
  obtain ⟨-, -, hfirst⟩ := h.saves _ r hr s hs
  rw [tasksOf_put htakes, hcount]
  split
  · next hnew =>
    -- a task without a record is saved for the first time
    cases hf : s.first with
    | true =>
      simp only [if_true]
      omega
    | false =>
      have hsome := hfirst hf
      rw [hnew.2] at hsome
      cases hsome
  · omega

theorem Ceiling.step (h : Ceiling max W) (hstep : TaskStep max W W') : Ceiling max W' := by
  cases hstep with
  -- A claim: the execution before is replaced, and its saves are refused from now on.
  | claim =>
    have hnone : W.runs (W.owner + 1) = none := h.unclaimed _ (Nat.lt_succ_self _)
    exact { h with
      unclaimed := fun f hf => h.unclaimed f ((Nat.lt_succ_self _).trans hf)
      units := fun r hr => absurd (hnone.symm.trans hr) (by simp)
      remembered := fun r hr => absurd (hnone.symm.trans hr) (by simp) }
  -- A load counts the records it finds.
  | load hnew =>
    refine h.setRun le_rfl (fun _ => ⟨h.bounded, le_rfl⟩) (fun _ => id) ?_ fun _ _ _ => id
    intro s hs
    cases hs
  | arrive hr => exact h.arrive hr (Run.task_arrives ..)
  -- A task ends: its second save is no first one.
  | @finish f r reference startedMs result hr harrived hrecord =>
    refine h.setRun (h.claimed hr) ?_ (h.known f r hr) ?_ ?_
    · rintro rfl
      simpa [Run.begin_] using h.units r hr
    · intro s hs
      rcases List.mem_cons.mp hs with rfl | hs
      · exact ⟨rfl, harrived, fun _ => h.known f r hr _ (by rw [hrecord]; rfl)⟩
      · exact h.saves f r hr s hs
    · rintro rfl
      exact h.remembered r hr
  -- A save is taken, for its caller or although the caller was told it failed.
  | @save r s hr hs htakes =>
    obtain ⟨htask, hin, -⟩ := h.saves _ r hr s hs
    refine h.put hr htakes (h.commit_units hr hs htakes) rfl rfl (fun _ => List.mem_of_mem_erase) (.inr rfl)
      (fun reference hkey => taskKey_injective hkey ▸ hin) fun reference hentered => ?_
    -- the body is that of the task saved
    split at hentered
    · rcases List.mem_cons.mp hentered with rfl | hentered
      · exact .inr ⟨rfl, htask⟩
      · exact .inl hentered
    · exact .inl hentered
  | @lose r s hr hs htakes =>
    obtain ⟨-, hin, -⟩ := h.saves _ r hr s hs
    exact h.put hr htakes (h.commit_units hr hs htakes) rfl rfl (fun _ => List.mem_of_mem_erase) (.inl rfl)
      (fun reference hkey => taskKey_injective hkey ▸ hin) fun _ => .inl
  -- A save that fails leaves the journal.
  | @fail f r s hr hs =>
    have hless : (r.saving.erase s).countP (·.first) ≤ r.saving.countP (·.first) :=
      List.erase_sublist.countP_le
    refine h.setRun (h.claimed hr) ?_ (h.known f r hr)
      (fun s' hs' => h.saves f r hr s' (List.mem_of_mem_erase hs')) ?_
    · rintro rfl
      have hunits := h.units r hr
      exact ⟨(Nat.add_le_add_left hless _).trans hunits.1, (Nat.add_le_add_left hless _).trans hunits.2⟩
    · rintro rfl
      exact h.remembered r hr
  -- Records that are no task's do not count.
  | @other r k record hr hkey hkind htakes =>
    refine h.put hr htakes ?_ rfl rfl (fun _ => id) (.inr rfl)
      (fun reference heq => absurd heq.symm (hkey reference)) fun _ => .inl
    rw [tasksOf_put htakes, hkind, if_neg fun hnew => absurd hnew.1 (by decide), Nat.add_zero]

theorem Ceiling.after (h : Ceiling max W) (hafter : After max W W') : Ceiling max W' := by
  induction hafter with
  | refl => exact h
  | step _ hstep ih => exact ih.step hstep

/-! ### Every history -/

/-- The journal keeps the tasks' records. -/
theorem TaskStep.keeps (h : TaskStep max W W') {k : String} (hk : (W.journal.get k).any Record.isTask = true) :
    (W'.journal.get k).any Record.isTask = true := by
  cases h with
  | claim | load | arrive | finish | fail => exact hk
  | save _ _ htakes | lose _ _ htakes | other _ _ _ htakes => exact task_put htakes hk

theorem After.keeps (h : After max W W') {k : String} (hk : (W.journal.get k).any Record.isTask = true) :
    (W'.journal.get k).any Record.isTask = true := by
  induction h with
  | refl => exact hk
  | step _ hstep ih => exact hstep.keeps ih

/-- The tasks entered since the journal was that of `W` are within what it left of the ceiling. -/
theorem After.entered_le (h : After max W W') (hceiling : Ceiling max W) {l : List String} (hl : l.Nodup)
    (hentered : ∀ reference ∈ l, reference ∈ W'.entered ∧ recorded W.journal reference = false) :
    l.length + tasksOf W.journal ≤ max := by
  have hceiling' := hceiling.after h
  have hcount : (l.map taskKey).length + tasksOf W.journal ≤ tasksOf W'.journal := by
    refine Table.countRows_le (hl.map taskKey_injective) (fun k => h.keeps) fun k hk => ?_
    obtain ⟨reference, hin, rfl⟩ := List.mem_map.mp hk
    obtain ⟨hin, hnew⟩ := hentered reference hin
    exact ⟨hceiling'.entered reference hin, hnew⟩
  rw [List.length_map] at hcount
  exact hcount.trans hceiling'.bounded

/-- A task with a record takes no unit and is not refused. -/
theorem Arrives.free {reference : String} {r : Run} {p : Run × Arrival} (h : Arrives max reference r p)
    (hrecord : (r.records.get (taskKey reference)).isSome) :
    p.1.tasksRun = r.tasksRun ∧ ∀ error, p.2 ≠ .refused error := by
  cases h with
  | restored | again => exact ⟨rfl, fun error herror => by cases herror⟩
  | refused hnone | first hnone =>
    rw [hnone] at hrecord
    cases hrecord

/-- In every history of a run under one ceiling, whatever its executions do side by side and wherever they
stop: the journal holds no more records of tasks than the ceiling, a body is entered only of a task that
has one, a task that has one takes no unit when the current execution comes to it and is not refused, and
the tasks entered after any moment are no more than the records at that moment left. -/
theorem task_ceiling (max : Nat) (W : World) (hrun : After max .start W) :
    tasksOf W.journal ≤ max ∧ (∀ reference ∈ W.entered, recorded W.journal reference = true) ∧
    (∀ r reference now, W.runs W.owner = some r → reference ∉ r.arrived →
      recorded W.journal reference = true → (r.task max now reference).1.tasksRun = r.tasksRun ∧
        ∀ error, (r.task max now reference).2 ≠ .refused error) ∧
    ∀ (W' : World) (l : List String), After max W W' → l.Nodup →
      (∀ reference ∈ l, reference ∈ W'.entered ∧ recorded W.journal reference = false) →
      l.length + tasksOf W.journal ≤ max := by
  have hceiling : Ceiling max W := start_ceiling.after hrun
  refine ⟨hceiling.bounded, hceiling.entered, ?_, fun W' l hafter hl => hafter.entered_le hceiling hl⟩
  intro r reference now hr hnew hrecorded
  have hknows := hceiling.remembered r hr reference hnew hrecorded
  refine (Run.task_arrives max now reference r).free ?_
  cases hget : r.records.get (taskKey reference) with
  | none => simp [recorded, hget] at hknows
  | some record => rfl

/-- The save of a task that an execution enters first. -/
def firstSave : Saving := ⟨"/do/0/pay", .task 0 none, true⟩

/-- The execution, which has come to the task under a ceiling of one. -/
def paying : Run := ((Run.load .empty).task 1 0 "/do/0/pay").1

/-- A run whose first execution stopped in the task. -/
def stoppedInside : World :=
  (((((World.start.setRun 0 (.load .empty)).setRun 0 paying).setRun 0 (paying.note firstSave)).commit
    firstSave).enter firstSave)

theorem stoppedInside_after : After 1 .start stoppedInside := by
  have hloaded : After 1 .start (World.start.setRun 0 (.load .empty)) := .step .refl (.load rfl)
  have hcame : After 1 .start ((World.start.setRun 0 (.load .empty)).setRun 0 paying) :=
    .step hloaded (.arrive rfl List.not_mem_nil)
  exact .step hcame (.save rfl (by decide +kernel) rfl)

/-- No later execution enters another task. -/
theorem ceiling_reached : tasksOf stoppedInside.journal ≤ 1 ∧ ∀ (W : World) (reference : String),
    After 1 stoppedInside W → reference ∈ W.entered → recorded stoppedInside.journal reference = true := by
  obtain ⟨hbounded, -, -, hlater⟩ := task_ceiling 1 stoppedInside stoppedInside_after
  refine ⟨hbounded, fun W reference hafter hentered => ?_⟩
  have hone : tasksOf stoppedInside.journal = 1 := by decide +kernel
  by_contra hnew
  have hroom := hlater W [reference] hafter (List.nodup_singleton reference) fun other hother => by
    rw [List.mem_singleton.mp hother]
    exact ⟨hentered, Bool.not_eq_true _ ▸ hnew⟩
  rw [hone, List.length_singleton] at hroom
  exact absurd hroom (by decide)

end Ows

end Ouro
