import Ouro.Ows.References
import Ouro.Durable.Control

/-!
# Deadlines around a wait

An execution keeps the deadlines of the tasks under a timeout by reference, the workflow's under the
empty one. A listen publishes the earliest of those around it, so that an operator's answer is refused
once one of them has passed. It finds them by their references: those that its own continues with a slash.

An execution is followed here by the invocations in progress (`Moves`): which of them start and end, in
any order of concurrent branches, and by the table it keeps (`Execution.deadlines`). In every execution
the table has the workflow's deadline and those of the invocations in progress (`Followed.deadlines`), and a
listen sees the workflow's and those of the invocations around it, but for a `for` that it is in an
iteration of (`covers_iff`): the reference goes on with a bracket there.
-/

namespace Ouro.Runtime

open Lib Ows Engine

/-! ### Executions -/

/-- An invocation of a task in progress, with its deadline when the task has a timeout. -/
structure Invocation where
  at_ : List Segment
  deadline : Option Int
deriving DecidableEq

/-- The invocations in progress of an execution, and the deadlines it keeps. -/
structure Execution where
  running : List Invocation
  deadlines : Table String Int

namespace Execution

/-- An execution before its first task, with the workflow's deadline. -/
def start (workflow : Option Int) : Execution :=
  { running := []
    deadlines := workflow.elim .empty (Table.empty.put "") }

/-- A task starts: its deadline is kept until it ends. -/
def enter (e : Execution) (i : Invocation) : Execution :=
  { running := i :: e.running
    deadlines := i.deadline.elim e.deadlines (e.deadlines.put (reference i.at_)) }

/-- A task ends, or is dropped with the branch it is in. -/
def leave (e : Execution) (i : Invocation) : Execution :=
  { running := e.running.filter fun j => j.at_ ≠ i.at_
    deadlines := if i.deadline.isSome then e.deadlines.delete (reference i.at_) else e.deadlines }

end Execution

/-- What can happen next to the invocations in progress. -/
inductive Moves (w : Workflow) (e : Execution) : Execution → Prop where
  /-- A task starts in one in progress. A list runs one task at a time; iterations and branches run
  side by side. -/
  | enter {l : List Segment} {s : Segment} {deadline : Option Int} (invokes : w.Invokes (l ++ [s]))
      (inside : l = [] ∨ ∃ i ∈ e.running, i.at_ = l) (fresh : ∀ i ∈ e.running, i.at_ ≠ l ++ [s])
      (alone : ∀ nest index name visit, s = .list nest index name visit →
        ∀ i ∈ e.running, ∀ index' name' visit', i.at_ ≠ l ++ [.list nest index' name' visit']) :
      Moves w e (e.enter ⟨l ++ [s], deadline⟩)
  /-- A task ends. One that is dropped with tasks in it goes after them. -/
  | leave {i : Invocation} (running : i ∈ e.running)
      (innermost : ∀ j ∈ e.running, i.at_ <+: j.at_ → j = i) : Moves w e (e.leave i)

/-- The states of an execution of a definition. -/
inductive Executes (w : Workflow) (workflow : Option Int) : Execution → Prop where
  | start : Executes w workflow (.start workflow)
  | step {e e' : Execution} : Executes w workflow e → Moves w e e' → Executes w workflow e'

/-! ### Published deadlines -/

/-- Whether a task waiting at a reference is taken to be in the one at another. -/
def covers (reference ancestor : String) : Bool :=
  ancestor.isEmpty || reference = ancestor ||
    (ancestor.toList.isPrefixOf reference.toList &&
      (reference.toList.drop ancestor.toList.length).head? = some '/')

/-- The deadline that a listen publishes with its wait. -/
def timeoutMs (deadlines : Table String Int) (reference : String) (deadline : Option Int) : Option Int :=
  (((deadlines.rows.filter fun row => covers reference row.1).map Prod.snd) ++ deadline.toList).min?

/-- The deadlines around an invocation: the workflow's, its own and those of the tasks it is in. -/
def Execution.around (e : Execution) (workflow : Option Int) (l : List Segment) : Set Int :=
  { x | workflow = some x ∨ ∃ i ∈ e.running, i.at_ <+: l ∧ i.deadline = some x }

/-- The invocation is in an iteration of the other, which is a `for`. -/
def IteratedBy (l m : List Segment) : Prop :=
  ∃ i index name visit later, l = m ++ .list (.iteration i) index name visit :: later

/-- The deadlines that a listen sees: not those of a `for` it is in an iteration of. -/
def Execution.seen (e : Execution) (workflow : Option Int) (l : List Segment) : Set Int :=
  { x | workflow = some x ∨ ∃ i ∈ e.running, i.at_ <+: l ∧ ¬ IteratedBy l i.at_ ∧ i.deadline = some x }

/-- The deadline published with the wait of a listen in progress. -/
def Execution.published (e : Execution) (i : Invocation) : Option Int :=
  timeoutMs e.deadlines (reference i.at_) i.deadline

/-- The wait of a listen in progress is as tight as the deadlines around it: it publishes the earliest of
them, none when there is none, and an answer is refused once one has passed. -/
structure Tight (workflow : Option Int) (e : Execution) (i : Invocation) : Prop where
  earliest : Table.Least (e.around workflow i.at_) (e.published i)
  closes : ∀ (env : Env) (σ : Rows) (s : StoredRun) (wait : PendingWait) (request : Request)
    (canonical : Command) (id key identity' : String) (event : Json) (now : Int),
    σ.run.get id = some s → s.waits.get key = some wait → wait.timeoutMs = e.published i →
    identity event = some identity' → (σ.controlResponse id).get identity' = none →
    (∃ x ∈ e.around workflow i.at_, x ≤ now) →
    respond env request canonical id key event now σ = .error (.control (.waitClosed id key))

/-- No `for` has, for a task in an iteration of it, a deadline before all that a listen there sees. -/
def Execution.LoopsSpare (e : Execution) (workflow : Option Int) (l : List Segment) : Prop :=
  ∀ i ∈ e.running, IteratedBy l i.at_ → ∀ x, i.deadline = some x → ∃ y ∈ e.seen workflow l, y ≤ x

/-! ### What an execution keeps -/

variable {w : Workflow} {workflow : Option Int} {e e' : Execution}

/-- What holds of the invocations in progress and the deadlines of them. -/
structure Followed (w : Workflow) (workflow : Option Int) (e : Execution) : Prop where
  invokes : ∀ i ∈ e.running, w.Invokes i.at_
  unique : ∀ i ∈ e.running, ∀ j ∈ e.running, i.at_ = j.at_ → i = j
  /-- The tasks around one in progress are in progress. -/
  inside : ∀ i ∈ e.running, ∀ m s later, i.at_ = m ++ s :: later → m = [] ∨ ∃ j ∈ e.running, j.at_ = m
  /-- One task of a list is in progress. -/
  alone : ∀ i ∈ e.running, ∀ j ∈ e.running, ∀ l nest index name visit index' name' visit',
    i.at_ = l ++ [.list nest index name visit] → j.at_ = l ++ [.list nest index' name' visit'] →
    i.at_ = j.at_
  deadlines : ∀ r x, e.deadlines.get r = some x ↔
    (r = "" ∧ workflow = some x) ∨ ∃ i ∈ e.running, reference i.at_ = r ∧ i.deadline = some x

theorem reference_ne_empty {l : List Segment} (hl : w.Invokes l) : reference l ≠ "" := by
  obtain ⟨index, name, visit, rest, rfl⟩ := hl.starts
  intro h
  have hchars := congrArg String.toList h
  rw [reference, String.toList_append, Segment.spell_toList] at hchars
  cases hchars

theorem start_followed : Followed w workflow (.start workflow) where
  invokes _ hi := by cases hi
  unique _ hi := by cases hi
  inside _ hi := by cases hi
  alone _ hi := by cases hi
  deadlines r x := by
    cases workflow with
    | none => simp [Execution.start]
    | some y =>
      simp only [Execution.start, Option.elim_some, Table.get_put, Table.get_empty, List.not_mem_nil,
        false_and, exists_false, or_false]
      split
      · next h => simp [h]
      · next h => simp [Ne.symm h]

/-- A task starts in what holds. -/
theorem Followed.enter (h : Followed w workflow e) {l : List Segment} {s : Segment} {deadline : Option Int}
    (hinvokes : w.Invokes (l ++ [s])) (hinside : l = [] ∨ ∃ i ∈ e.running, i.at_ = l)
    (hfresh : ∀ i ∈ e.running, i.at_ ≠ l ++ [s])
    (halone : ∀ nest index name visit, s = .list nest index name visit →
      ∀ i ∈ e.running, ∀ index' name' visit', i.at_ ≠ l ++ [.list nest index' name' visit']) :
    Followed w workflow (e.enter ⟨l ++ [s], deadline⟩) where
  invokes := List.forall_mem_cons.mpr ⟨hinvokes, h.invokes⟩
  -- The reference of the task is new, and no other task of its list is in progress.
  unique i hi j hj hij := by
    rcases List.mem_cons.mp hi with rfl | hi <;> rcases List.mem_cons.mp hj with rfl | hj
    · rfl
    · exact absurd hij.symm (hfresh j hj)
    · exact absurd hij (hfresh i hi)
    · exact h.unique i hi j hj hij
  inside i hi m s' later hcut := by
    rcases List.mem_cons.mp hi with rfl | hi
    · -- it is the task that starts: what is around it is in progress, and so is what is around that
      rcases List.eq_nil_or_concat later with rfl | ⟨later, s'', rfl⟩
      · obtain ⟨rfl, -⟩ := List.append_inj' hcut rfl
        exact hinside.imp_right fun ⟨i, hi, hl⟩ => ⟨i, List.mem_cons_of_mem _ hi, hl⟩
      · have hl : l = m ++ s' :: later := by
          have hlast : l ++ [s] = (m ++ s' :: later) ++ [s''] := by simpa using hcut
          exact (List.append_inj' hlast rfl).1
        rcases hinside with rfl | ⟨i, hi, hil⟩
        · simp at hl
        · exact (h.inside i hi m s' later (hil.trans hl)).imp_right
            fun ⟨j, hj, hm⟩ => ⟨j, List.mem_cons_of_mem _ hj, hm⟩
    -- Another invocation has around it what it had.
    · exact (h.inside i hi m s' later hcut).imp_right fun ⟨j, hj, hm⟩ => ⟨j, List.mem_cons_of_mem _ hj, hm⟩
  -- Of the tasks of one list, one is in progress.
  alone i hi j hj m nest index name visit index' name' visit' him hjm := by
    rcases List.mem_cons.mp hi with rfl | hi <;> rcases List.mem_cons.mp hj with rfl | hj
    · rfl
    · obtain ⟨rfl, hs⟩ := List.append_inj' him rfl
      exact absurd hjm (halone _ _ _ _ (List.singleton_inj.mp hs) j hj _ _ _)
    · obtain ⟨rfl, hs⟩ := List.append_inj' hjm rfl
      exact absurd him (halone _ _ _ _ (List.singleton_inj.mp hs) i hi _ _ _)
    · exact h.alone i hi j hj m nest index name visit index' name' visit' him hjm
  -- The table: the row of this task, when it has a deadline, and those of the others.
  deadlines r x := by
    have hrunning : ∀ i ∈ e.running, reference i.at_ ≠ reference (l ++ [s]) := fun i hi hsame =>
      hfresh i hi (reference_injective (h.invokes i hi).leads hinvokes.leads hsame)
    cases deadline with
    | none =>
      show e.deadlines.get r = some x ↔ _
      rw [h.deadlines]
      simp [Execution.enter]
    | some y =>
      show (e.deadlines.put (reference (l ++ [s])) y).get r = some x ↔ _
      rw [Table.get_put]
      split
      · next hr =>
        subst hr
        simp only [Execution.enter, List.mem_cons, exists_eq_or_imp, true_and, reference_ne_empty hinvokes,
          false_and, false_or]
        refine ⟨.inl, fun hx => hx.resolve_right ?_⟩
        rintro ⟨i, hi, hsame, -⟩
        exact hrunning i hi hsame
      · next hr =>
        rw [h.deadlines]
        simp [Execution.enter, hr]

/-- A task ends in what holds. -/
theorem Followed.leave (h : Followed w workflow e) {i : Invocation} (hi : i ∈ e.running)
    (hinnermost : ∀ j ∈ e.running, i.at_ <+: j.at_ → j = i) : Followed w workflow (e.leave i) := by
  -- The invocations that are left.
  have hmem : ∀ j, j ∈ (e.leave i).running ↔ j ∈ e.running ∧ j.at_ ≠ i.at_ := fun j => by
    simp [Execution.leave]
  refine ⟨?_, ?_, ?_, ?_, ?_⟩
  · intro j hj
    exact h.invokes j ((hmem j).mp hj).1
  · intro j hj k hk
    exact h.unique j ((hmem j).mp hj).1 k ((hmem k).mp hk).1
  -- What is around one of them is still in progress.
  · intro j hj m s later hcut
    obtain ⟨hj, hne⟩ := (hmem j).mp hj
    refine (h.inside j hj m s later hcut).imp_right fun ⟨k, hk, hm⟩ => ⟨k, (hmem k).mpr ⟨hk, fun hki => ?_⟩, hm⟩
    -- the task that ends is around none
    have hin : i.at_ <+: j.at_ := by
      rw [← hki, hm, hcut]
      exact List.prefix_append _ _
    exact hne (hinnermost j hj hin ▸ rfl)
  · intro j hj k hk
    exact h.alone j ((hmem j).mp hj).1 k ((hmem k).mp hk).1
  -- The table loses the row of the task, and no other, for the references differ.
  · intro r x
    have hsame : ∀ j ∈ e.running, reference j.at_ = reference i.at_ ↔ j.at_ = i.at_ := fun j hj =>
      ⟨fun href => reference_injective (h.invokes j hj).leads (h.invokes i hi).leads href, congrArg reference⟩
    cases hd : i.deadline with
    | none =>
      have hkeeps : (e.leave i).deadlines = e.deadlines := by simp [Execution.leave, hd]
      rw [hkeeps, h.deadlines]
      refine or_congr_right ⟨fun ⟨j, hj, hr, hx⟩ => ⟨j, (hmem j).mpr ⟨hj, fun hji => ?_⟩, hr, hx⟩,
        fun ⟨j, hj, hjr⟩ => ⟨j, ((hmem j).mp hj).1, hjr⟩⟩
      rw [h.unique j hj i hi hji, hd] at hx
      cases hx
    | some y =>
      have hdeletes : (e.leave i).deadlines = e.deadlines.delete (reference i.at_) := by
        simp [Execution.leave, hd]
      rw [hdeletes, Table.get_delete]
      split
      · next hr =>
        subst hr
        refine ⟨fun hx => absurd hx (by simp), ?_⟩
        rintro (⟨hempty, -⟩ | ⟨j, hj, href, -⟩)
        · exact absurd hempty (reference_ne_empty (h.invokes i hi))
        · obtain ⟨hj, hne⟩ := (hmem j).mp hj
          exact absurd ((hsame j hj).mp href) hne
      · next hr =>
        rw [h.deadlines]
        refine or_congr_right ⟨fun ⟨j, hj, href, hx⟩ => ⟨j, (hmem j).mpr ⟨hj, fun hji => ?_⟩, href, hx⟩,
          fun ⟨j, hj, hjr⟩ => ⟨j, ((hmem j).mp hj).1, hjr⟩⟩
        exact hr (by rw [← hji, href])

theorem Moves.keep (h : Moves w e e') (hfollowed : Followed w workflow e) : Followed w workflow e' := by
  cases h with
  | enter hinvokes hinside hfresh halone => exact hfollowed.enter hinvokes hinside hfresh halone
  | leave hrunning hinnermost => exact hfollowed.leave hrunning hinnermost

theorem Executes.followed (h : Executes w workflow e) : Followed w workflow e := by
  induction h with
  | start => exact start_followed
  | step _ hmoves ih => exact hmoves.keep ih

/-! ### What a listen sees -/

/-- No invocation in progress is misread as one inside another in progress: the iterations and the later
visit would be of one list. -/
theorem Followed.not_mistaken (h : Followed w workflow e) {i j : Invocation} (hi : i ∈ e.running) (hj : j ∈ e.running) :
    ¬ Mistaken i.at_ j.at_ := by
  rintro ⟨first, nest, index, name, visit, index', name', visit', later, hvisit, hjm, hil⟩
  have hcut : i.at_ = (first ++ [.list nest index name 0]) ++ .list (.iteration visit) index' name' visit' :: later := by
    rw [hil, List.append_assoc, List.singleton_append]
  rcases h.inside i hi _ _ _ hcut with hnil | ⟨k, hk, hkm⟩
  · simp at hnil
  · -- the first visit and the later one would both be in progress
    have hsame := h.alone k hk j hj first nest index name 0 index name visit hkm hjm
    rw [hkm, hjm] at hsame
    have hsegment := List.singleton_inj.mp (List.append_cancel_left hsame)
    injection hsegment with _ _ _ hzero
    exact hvisit hzero.symm

theorem covers_iff_chars (r a : String) :
    covers r a = true ↔ a = "" ∨ r = a ∨ ∃ z, r.toList = a.toList ++ '/' :: z := by
  unfold covers
  rw [Bool.or_eq_true, Bool.or_eq_true, String.isEmpty_iff, decide_eq_true_iff, Bool.and_eq_true,
    List.isPrefixOf_iff_prefix, or_assoc]
  refine or_congr_right (or_congr_right ⟨?_, ?_⟩)
  · rintro ⟨⟨z, hz⟩, hhead⟩
    rw [← hz, List.drop_left, decide_eq_true_iff] at hhead
    obtain ⟨z', rfl⟩ := List.head?_eq_some_iff.mp hhead
    exact ⟨z', hz.symm⟩
  · rintro ⟨z, hz⟩
    rw [hz, List.drop_left]
    exact ⟨⟨_, rfl⟩, rfl⟩

/-- A listen sees an invocation in progress when it is in it, but not in an iteration of it. -/
theorem Followed.covers_iff (h : Followed w workflow e) {i j : Invocation} (hi : i ∈ e.running) (hj : j ∈ e.running) :
    covers (reference i.at_) (reference j.at_) = true ↔ j.at_ <+: i.at_ ∧ ¬ IteratedBy i.at_ j.at_ := by
  have hleads := (h.invokes i hi).leads
  have hleads' := (h.invokes j hj).leads
  -- The listen sees a reference that is its own, or that its own continues with a slash.
  rw [covers_iff_chars, or_iff_right (reference_ne_empty (h.invokes j hj))]
  constructor
  · rintro (hsame | ⟨z, hz⟩)
    · rw [reference_injective hleads hleads' hsame]
      refine ⟨List.prefix_rfl, ?_⟩
      rintro ⟨k, index, name, visit, later, hcut⟩
      simp at hcut
    · have hslash : ∀ c x, '/' :: z = c :: x → c = '/' := fun c x hc => (List.cons.inj hc).1.symm
      -- So the segments go on from those of the other invocation, and not with an iteration.
      rcases compare_references hleads hleads' hz hslash with ⟨later, hcut, hlater⟩ | ⟨hmis, -⟩
      · refine ⟨⟨later, hcut.symm⟩, ?_⟩
        rintro ⟨k, index, name, visit, later', hcut'⟩
        -- an iteration begins with a bracket
        rw [hcut, List.append_cancel_left_eq] at hcut'
        rw [hcut', reference, String.toList_append, Segment.spell_toList] at hlater
        exact absurd (List.cons.inj hlater).1 (by decide)
      · exact absurd hmis (h.not_mistaken hi hj)
  -- The segments go on: the first of them begins with a slash unless it is an iteration.
  · rintro ⟨⟨later, hcut⟩, hnot⟩
    cases later with
    | nil =>
      rw [List.append_nil] at hcut
      exact .inl (by rw [hcut])
    | cons s later =>
      right
      rw [← hcut, reference_append, reference, String.toList_append, String.toList_append]
      obtain ⟨z, hz⟩ : ∃ z, s.spell.toList = '/' :: z := by
        rw [Segment.spell_toList]
        cases s with
        | list nest index name visit =>
          cases nest with
          | iteration k => exact absurd ⟨k, index, name, visit, later, hcut.symm⟩ hnot
          | _ => exact ⟨_, rfl⟩
        | _ => exact ⟨_, rfl⟩
      rw [hz]
      exact ⟨_, rfl⟩

/-- What a listen publishes is the earliest deadline that it sees. -/
theorem Followed.timeoutMs_least (h : Followed w workflow e) {i : Invocation} (hi : i ∈ e.running) :
    Table.Least (e.seen workflow i.at_) (timeoutMs e.deadlines (reference i.at_) i.deadline) := by
  have hseen : e.seen workflow i.at_ = { x | x ∈ ((e.deadlines.rows.filter fun row =>
      covers (reference i.at_) row.1).map Prod.snd) ++ i.deadline.toList } := by
    ext x
    simp only [Execution.seen, Set.mem_ofPred_eq, List.mem_append, List.mem_map, List.mem_filter, Prod.exists,
      exists_eq_right, Table.mem_rows, h.deadlines, Option.mem_toList]
    constructor
    · rintro (hx | ⟨j, hj, hin, hnot, hx⟩)
      · exact .inl ⟨"", .inl ⟨rfl, hx⟩, (covers_iff_chars _ _).mpr (.inl rfl)⟩
      · exact .inl ⟨_, .inr ⟨j, hj, rfl, hx⟩, (h.covers_iff hi hj).mpr ⟨hin, hnot⟩⟩
    · rintro (⟨r, ⟨-, hx⟩ | ⟨j, hj, rfl, hx⟩, hcovers⟩ | hx)
      · exact .inl hx
      · obtain ⟨hin, hnot⟩ := (h.covers_iff hi hj).mp hcovers
        exact .inr ⟨j, hj, hin, hnot, hx⟩
      · -- its own deadline, given to it beside the table
        refine .inr ⟨i, hi, List.prefix_rfl, ?_, hx⟩
        rintro ⟨k, index, name, visit, later, hcut⟩
        simp at hcut
  rw [hseen]
  exact Table.least_min? _

/-- An answer to a wait past its deadline is refused. -/
theorem respond_closed (env : Env) {σ : Rows} {s : StoredRun} {wait : PendingWait} {request : Request}
    {canonical : Command} {id key identity' : String} {event : Json} {now x : Int}
    (hrun : σ.run.get id = some s) (hwait : s.waits.get key = some wait) (hx : wait.timeoutMs = some x)
    (hidentity : Engine.identity event = some identity')
    (hnew : (σ.controlResponse id).get identity' = none) (hnow : x ≤ now) :
    Engine.respond env request canonical id key event now σ = .error (.control (.waitClosed id key)) := by
  have hclosed : Engine.answerWait env id key identity' event now σ =
      .error (.control (.waitClosed id key)) := by
    refine Tx.bind_error.mpr (.inr ⟨_, σ, Tx.read_ok.mpr ⟨rfl, rfl⟩, ?_⟩)
    refine Tx.bind_error.mpr (.inr ⟨s, σ, Tx.orFail_ok.mpr ⟨hrun, rfl⟩, ?_⟩)
    refine Tx.bind_error.mpr (.inr ⟨wait, σ, Tx.orFail_ok.mpr ⟨hwait, rfl⟩, ?_⟩)
    refine Tx.bind_error.mpr (.inl (Tx.ensure_error.mpr ⟨?_, rfl⟩))
    simp [hx, hnow]
  refine Tx.bind_error.mpr (.inr ⟨identity', σ, Tx.orFail_ok.mpr ⟨hidentity, rfl⟩, ?_⟩)
  refine Tx.bind_error.mpr (.inr ⟨none, σ, Tx.read_ok.mpr ⟨hnew.symm, rfl⟩, ?_⟩)
  exact Tx.bind_error.mpr (.inl hclosed)

/-- In every execution, the wait of a listen is as tight as the deadlines around it exactly when no `for`
that it is in an iteration of has a deadline before the others. -/
theorem wait_tight_iff (w : Workflow) (workflow : Option Int) (e : Execution) (i : Invocation)
    (hexecutes : Executes w workflow e) (hi : i ∈ e.running) :
    Tight workflow e i ↔ e.LoopsSpare workflow i.at_ := by
  have hleast : Table.Least (e.seen workflow i.at_) (e.published i) := hexecutes.followed.timeoutMs_least hi
  -- What the listen sees is a part of what is around it.
  have hsubset : e.seen workflow i.at_ ⊆ e.around workflow i.at_ := by
    rintro x (hx | ⟨j, hj, hin, -, hx⟩)
    · exact .inl hx
    · exact .inr ⟨j, hj, hin, hx⟩
  -- The least of the part is the least of all when nothing in the rest comes before it.
  have hspare : (∀ x ∈ e.around workflow i.at_, ∃ y ∈ e.seen workflow i.at_, y ≤ x) ↔
      e.LoopsSpare workflow i.at_ := by
    constructor
    · intro h j hj ⟨k, index, name, visit, later, hcut⟩ x hx
      exact h x (.inr ⟨j, hj, ⟨_, hcut.symm⟩, hx⟩)
    · rintro h x (hx | ⟨j, hj, hin, hx⟩)
      · exact ⟨x, .inl hx, le_rfl⟩
      · by_cases hiterated : IteratedBy i.at_ j.at_
        · exact h j hj hiterated x hx
        · exact ⟨x, .inr ⟨j, hj, hin, hiterated, hx⟩, le_rfl⟩
  rw [← hspare, ← hleast.iff_of_subset hsubset]
  -- And then an answer after any of them is refused: the published deadline has passed as well.
  refine ⟨Tight.earliest, fun hearliest => ⟨hearliest, ?_⟩⟩
  intro env σ s wait request canonical id key identity' event now hrun hwait hpublished hidentity hnew hpassed
  obtain ⟨x, hx, hnow⟩ := hpassed
  cases hp : e.published i with
  | none =>
    -- no deadline is around it
    rw [hp] at hearliest
    have hempty : e.around workflow i.at_ = ∅ := hearliest
    rw [hempty] at hx
    exact absurd hx (Set.notMem_empty x)
  | some y =>
    rw [hp] at hearliest hpublished
    have hyx : y ≤ x := hearliest.2 hx
    exact respond_closed env hrun hwait hpublished hidentity hnew (hyx.trans hnow)

/-- A loop over requests, each answered by an operator. -/
def approvals : Workflow :=
  { tasks := [("each", { kind := .for_ (.inline [.null]) none none [("answer", { kind := .listen none })] })] }

/-- The loop, under a timeout, and the listen in its first iteration. -/
def approvalLoop : Invocation := ⟨[.list .do_ 0 "each" 0], some 1000⟩
def approvalWait (deadline : Option Int) : Invocation :=
  ⟨approvalLoop.at_ ++ [.list (.iteration 0) 0 "answer" 0], deadline⟩

/-- An execution in which the listen waits. -/
def waitingApproval (deadline : Option Int) : Execution :=
  ((Execution.start none).enter approvalLoop).enter (approvalWait deadline)

theorem waitingApproval_executes (deadline : Option Int) :
    Executes approvals none (waitingApproval deadline) := by
  have hloop : approvals.Invokes [.list .do_ 0 "each" 0] := ⟨⟨0, "each", 0, _, rfl⟩, rfl⟩
  have hwait : approvals.Invokes (approvalLoop.at_ ++ [.list (.iteration 0) 0 "answer" 0]) :=
    ⟨⟨0, "each", 0, _, rfl⟩, rfl⟩
  have hentered : Executes approvals none ((Execution.start none).enter approvalLoop) :=
    .step .start (.enter (l := []) hloop (.inl rfl) (fun i hi => by cases hi) fun _ _ _ _ _ i hi => by cases hi)
  refine .step hentered (.enter hwait (.inr ⟨approvalLoop, List.mem_singleton.mpr rfl, rfl⟩) ?_ ?_)
  · intro i hi
    rw [List.mem_singleton.mp hi]
    decide
  · intro nest index name visit _ i hi index' name' visit' heq
    rw [List.mem_singleton.mp hi] at heq
    have hlength := congrArg List.length heq
    simp [approvalLoop] at hlength

/-- The listen's own deadline is before the loop's. -/
theorem own_deadline_tight : Tight none (waitingApproval (some 500)) (approvalWait (some 500)) := by
  refine (wait_tight_iff approvals none (waitingApproval (some 500)) (approvalWait (some 500))
    (waitingApproval_executes _) List.mem_cons_self).mpr ?_
  intro i hi hiterated x hx
  refine ⟨500, .inr ⟨approvalWait (some 500), List.mem_cons_self, List.prefix_rfl, ?_, rfl⟩, ?_⟩
  · rintro ⟨k, index, name, visit, later, hcut⟩
    simp at hcut
  · rcases List.mem_cons.mp hi with rfl | hi
    · exact (Option.some.inj hx).le
    · rw [List.mem_singleton.mp hi] at hx
      rw [← Option.some.inj hx]
      decide

/-- The loop's timeout is around the listen, and the listen publishes none. -/
theorem loop_deadline_missed : ¬ ∀ (w : Workflow) (workflow : Option Int) (e : Execution) (i : Invocation),
    Executes w workflow e → i ∈ e.running → Tight workflow e i := by
  intro h
  obtain ⟨hearliest, -⟩ : Tight none (waitingApproval none) (approvalWait none) :=
    h approvals none _ _ (waitingApproval_executes none) List.mem_cons_self
  have hnone : (waitingApproval none).published (approvalWait none) = none := by decide +kernel
  rw [hnone] at hearliest
  have hempty : (waitingApproval none).around none (approvalWait none).at_ = ∅ := hearliest
  have hloop : (1000 : Int) ∈ (waitingApproval none).around none (approvalWait none).at_ :=
    .inr ⟨approvalLoop, List.mem_cons_of_mem _ List.mem_cons_self, ⟨_, rfl⟩, rfl⟩
  rw [hempty] at hloop
  exact absurd hloop (Set.notMem_empty _)

end Ouro.Runtime
