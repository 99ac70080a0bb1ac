import Ouro.Ows.Cycles

/-!
# The traps of a list

A task whose edges never lead out of the list, nor to a task that can leave it from inside, is
trapped. Validation finds exactly the traps: a cycle it reports is one (`closedCycles_closed`), and
what is trapped runs into a cycle it reports (`trapped_runs_into_cycle`). The loop over the tasks
reports a component when it meets its first task, and marks the others as seen, so no two reported
cycles share a task.
-/

namespace Ouro.Ows

open Lib

variable {functions : List (String × Task)} {tasks : TaskList}

/-- Some path of edges from the task at `i` reaches the list's end, or a task that can leave. -/
def Escapes (functions : List (String × Task)) (tasks : TaskList) (i : Nat) : Prop :=
  ∃ j, Relation.ReflTransGen (Leads (jumps tasks)) i j ∧
    (.out ∈ successors tasks j ∨ ∃ t, tasks[j]? = some t ∧ t.2.canLeave functions = true)

/-! ### Components -/

/-- The component of a task on a cycle is the component of each of its members. -/
theorem component_eq {i j : Nat} (hi : i < tasks.length) (hj : j ∈ component tasks i) :
    component tasks j = component tasks i := by
  have ⟨hlt, hmember⟩ := (mem_component hi).mp hj
  unfold component
  apply List.filter_congr
  intro k hk
  have hk := List.mem_range.mp hk
  rcases hmember with rfl | ⟨hij, hji⟩
  · rfl
  · apply Bool.eq_iff_iff.mpr
    simp only [Bool.or_eq_true, decide_eq_true_eq, Bool.and_eq_true, reach_iff hi, reach_iff hlt,
      reach_iff hk]
    constructor
    · rintro (rfl | ⟨hjk, hkj⟩)
      · exact .inr ⟨hij, hji⟩
      · exact .inr ⟨hij.trans hjk, hkj.trans hji⟩
    · rintro (rfl | ⟨hik, hki⟩)
      · exact .inr ⟨hji, hij⟩
      · exact .inr ⟨hji.trans hik, hki.trans hij⟩

theorem self_mem_component {i : Nat} (hi : i < tasks.length) : i ∈ component tasks i :=
  (mem_component hi).mpr ⟨hi, .inl rfl⟩

/-- Tasks of one component reach each other. -/
theorem component_leading {i j k : Nat} (hi : i < tasks.length) (hloop : Leading tasks i i)
    (hj : j ∈ component tasks i) (hk : k ∈ component tasks i) : Leading tasks j k := by
  have hto : Leading tasks j i := by
    rcases ((mem_component hi).mp hj).2 with rfl | h
    · exact hloop
    · exact h.2
  have hfrom : Leading tasks i k := by
    rcases ((mem_component hi).mp hk).2 with rfl | h
    · exact hloop
    · exact h.1
  exact hto.trans hfrom

/-! ### What the loop has found -/

/-- The loop has passed the tasks below `n`: it has seen the components of those on a cycle, and it
keeps those that nothing leaves, which share no task. -/
structure Sifted (functions : List (String × Task)) (tasks : TaskList) (n : Nat)
    (acc : List Nat × List (List Nat)) : Prop where
  seen : ∀ j, j ∈ acc.1 → ∃ i < n, i < tasks.length ∧ Leading tasks i i ∧ j ∈ component tasks i ∧
    (leaves functions tasks (component tasks i) = false → component tasks i ∈ acc.2)
  passed : ∀ i < n, Leading tasks i i → i ∈ acc.1
  kept : ∀ members ∈ acc.2, ∃ i < tasks.length, members = component tasks i ∧ members ⊆ acc.1
  apart : acc.2.Pairwise List.Disjoint

/-- One turn of the loop. -/
theorem Sifted.step {n : Nat} {acc : List Nat × List (List Nat)} (h : Sifted functions tasks n acc)
    (hn : n < tasks.length) :
    Sifted functions tasks (n + 1) (closedCyclesStep functions tasks acc n) := by
  unfold closedCyclesStep
  split
  -- Seen before, or no edge leads back to it.
  case isTrue hskip =>
    refine ⟨?_, ?_, h.kept, h.apart⟩
    · intro j hj
      obtain ⟨i, hi, hrest⟩ := h.seen j hj
      exact ⟨i, by omega, hrest⟩
    · intro i hi hloop
      rcases Nat.lt_succ_iff_lt_or_eq.mp hi with hlt | rfl
      · exact h.passed i hlt hloop
      · rcases Bool.or_eq_true _ _ ▸ hskip with hseen | hreach
        · simpa using hseen
        · rw [(reach_iff hn).mpr hloop] at hreach
          exact absurd hreach (by simp)
  -- A component that was not seen: reported unless it can leave.
  case isFalse hnew =>
    have hnew : n ∉ acc.1 ∧ reach tasks n n = true := by simpa using hnew
    have hloop : Leading tasks n n := (reach_iff hn).mp hnew.2
    have hmono : ∀ members ∈ acc.2, members ∈
        if leaves functions tasks (component tasks n) then acc.2
        else acc.2 ++ [component tasks n] := by
      intro members hmem
      split
      · exact hmem
      · exact List.mem_append_left _ hmem
    refine ⟨?_, ?_, ?_, ?_⟩
    -- What is seen is of the components met so far.
    · intro j hj
      rcases List.mem_append.mp hj with hj | hj
      · obtain ⟨i, hi, hlt, hi', hj, hkept⟩ := h.seen j hj
        exact ⟨i, by omega, hlt, hi', hj, fun hleaves => hmono _ (hkept hleaves)⟩
      · refine ⟨n, by omega, hn, hloop, hj, ?_⟩
        intro hleaves
        simp [hleaves]
    -- What was passed was seen.
    · intro i hi hi'
      rcases Nat.lt_succ_iff_lt_or_eq.mp hi with hlt | rfl
      · exact List.mem_append_left _ (h.passed i hlt hi')
      · exact List.mem_append_right _ (self_mem_component hn)
    -- What is reported is a component that was met.
    · intro members hmem
      have hcases : members ∈ acc.2 ∨ members = component tasks n := by
        simp only at hmem
        split at hmem
        · exact .inl hmem
        · simpa using hmem
      rcases hcases with hmem | rfl
      · obtain ⟨i, hi, heq, hsub⟩ := h.kept members hmem
        exact ⟨i, hi, heq, fun j hj => List.mem_append_left _ (hsub hj)⟩
      · exact ⟨n, hn, rfl, fun j hj => List.mem_append_right _ hj⟩
    -- And no two of them share a task.
    · simp only
      split
      · exact h.apart
      · refine List.pairwise_append.mpr ⟨h.apart, List.pairwise_singleton _ _, ?_⟩
        intro members hmem last hlast
        cases List.mem_singleton.mp hlast
        obtain ⟨i, hi, heq, hsub⟩ := h.kept members hmem
        -- A task in both would make them one component, and `n` would have been seen with it.
        intro j hj hjn
        have hsame : component tasks n = component tasks i := by
          rw [← component_eq hn hjn, component_eq hi (heq ▸ hj)]
        exact hnew.1 (hsub (heq ▸ hsame ▸ self_mem_component hn))

/-- What the loop has found after the last task. -/
theorem sifted (functions : List (String × Task)) (tasks : TaskList) :
    ∃ seen, Sifted functions tasks tasks.length (seen, closedCycles functions tasks) := by
  have hloop : ∀ n ≤ tasks.length, Sifted functions tasks n
      ((List.range n).foldl (closedCyclesStep functions tasks) ([], [])) := by
    intro n
    induction n with
    | zero => exact fun _ => ⟨by simp, by simp, by simp, .nil⟩
    | succ n ih =>
      intro hn
      rw [List.range_succ, List.foldl_append]
      exact (ih (by omega)).step hn
  exact ⟨_, hloop _ le_rfl⟩

/-! ### Traps -/

/-- A component on a cycle that nothing leaves is reported. -/
theorem mem_closedCycles {i : Nat} (hi : i < tasks.length) (hloop : Leading tasks i i)
    (hleaves : leaves functions tasks (component tasks i) = false) :
    component tasks i ∈ closedCycles functions tasks := by
  obtain ⟨seen, h⟩ := sifted functions tasks
  obtain ⟨j, _, hj, _, hmem, hkept⟩ := h.seen i (h.passed i hi hloop)
  have hsame := component_eq hj hmem
  rw [hsame] at hleaves ⊢
  exact hkept hleaves

theorem Task.ways_ne_nil (t : Task) (i : Nat) : t.ways tasks i ≠ [] := by
  unfold Task.ways
  split
  · simp
  · next cases _ =>
    -- A switch without cases has no default either.
    cases cases with
    | nil => simp
    | cons c cases => simp
  · simp
  · simp

/-- Every task of the list has an edge. -/
theorem exists_successor {i : Nat} (hi : i < tasks.length) : ∃ n, n ∈ successors tasks i := by
  have hways : (tasks[i]).2.ways tasks i ≠ [] := Task.ways_ne_nil _ i
  obtain ⟨n, hn⟩ := List.exists_mem_of_ne_nil _ hways
  refine ⟨n, ?_⟩
  unfold successors
  rw [List.getElem?_eq_getElem hi]
  exact mem_distinct.mpr (List.mem_append_left _ hn)

/-- Whoever cannot escape runs into a reported cycle. -/
theorem trapped_runs_into_cycle {i : Nat} (hi : i < tasks.length) (h : ¬ Escapes functions tasks i) :
    ∃ members ∈ closedCycles functions tasks, ∃ j ∈ members,
      Relation.ReflTransGen (Leads (jumps tasks)) i j := by
  -- Edges stay within the list.
  have hclosed : ∀ x ∈ Finset.range tasks.length, ∀ y ∈ jumps tasks x, y ∈ Finset.range tasks.length :=
    fun x _ y hy => Finset.mem_range.mpr (jumps_lt hy)
  obtain ⟨j, hij, hback⟩ := exists_recurrent hclosed (Finset.mem_range.mpr hi)
  have hj : j < tasks.length :=
    Finset.mem_range.mp (leads_mem hclosed (Finset.mem_range.mpr hi) hij)
  -- None of the tasks it comes to leads out or can leave.
  have hinside : ∀ k, Relation.ReflTransGen (Leads (jumps tasks)) j k →
      .out ∉ successors tasks k ∧ ∀ t, tasks[k]? = some t → t.2.canLeave functions = false := by
    intro k hjk
    refine ⟨fun hout => h ⟨k, hij.trans hjk, .inl hout⟩, fun t ht => ?_⟩
    by_contra hleave
    exact h ⟨k, hij.trans hjk, .inr ⟨t, ht, by simpa using hleave⟩⟩
  -- The recurrent task has an edge, which leads back to it.
  have hloop : Leading tasks j j := by
    obtain ⟨n, hn⟩ := exists_successor hj
    cases n with
    | out => exact absurd hn (hinside j .refl).1
    | task k =>
      have hedge : Leads (jumps tasks) j k := mem_jumps.mpr hn
      exact .head' hedge (hback k (.single hedge))
  -- So its component is all that it comes to, and is reported.
  have hmembers : ∀ k, k ∈ component tasks j ↔ Relation.ReflTransGen (Leads (jumps tasks)) j k := by
    intro k
    rw [mem_component hj]
    constructor
    · rintro ⟨_, rfl | ⟨hjk, _⟩⟩
      · exact .refl
      · exact hjk.to_reflTransGen
    · intro hjk
      refine ⟨Finset.mem_range.mp (leads_mem hclosed (Finset.mem_range.mpr hj) hjk), .inr ⟨?_, ?_⟩⟩
      · exact hloop.trans_left hjk
      · exact .trans_right (hback k hjk) hloop
  refine ⟨component tasks j, mem_closedCycles hj hloop ?_, j, self_mem_component hj, hij⟩
  refine List.any_eq_false.mpr fun k hk => ?_
  have hjk := (hmembers k).mp hk
  have ⟨hout, hleave⟩ := hinside k hjk
  simp only [Bool.or_eq_true, Bool.and_eq_true, decide_eq_true_eq, not_or, not_and]
  refine ⟨?_, fun _ => ?_⟩
  · cases ht : tasks[k]? with
    | none => simp
    | some t => simpa using hleave t ht
  · rw [Bool.not_eq_true, List.any_eq_false]
    intro n hn
    cases n with
    | out => exact absurd hn hout
    | task m => simpa using (hmembers m).mpr (hjk.tail (mem_jumps.mpr hn))

/-- What validation reports of a list are exactly its traps. A reported cycle is a nonempty set of
tasks that reach each other, whose edges all stay in the set and none of which can leave from inside,
and no two share a task. A task that cannot escape runs into one. So when none is reported, every task
of the list escapes. -/
theorem closed_cycles_are_traps (functions : List (String × Task)) (tasks : TaskList) :
    (∀ members ∈ closedCycles functions tasks,
      members ≠ [] ∧ members.Nodup ∧ (∀ j ∈ members, j < tasks.length) ∧
      (∀ j ∈ members, ∀ k ∈ members, Leading tasks j k) ∧
      (∀ j ∈ members, ∀ n ∈ successors tasks j, ∃ k ∈ members, n = .task k) ∧
      ∀ j ∈ members, ∀ t, tasks[j]? = some t → t.2.canLeave functions = false) ∧
    (∀ i < tasks.length, ¬ Escapes functions tasks i →
      ∃ members ∈ closedCycles functions tasks, ∃ j ∈ members,
        Relation.ReflTransGen (Leads (jumps tasks)) i j) ∧
    (closedCycles functions tasks = [] → ∀ i < tasks.length, Escapes functions tasks i) ∧
    (closedCycles functions tasks).Pairwise List.Disjoint := by
  refine ⟨fun members hmem => ?_, fun i hi h => trapped_runs_into_cycle hi h, ?_, ?_⟩
  · have hclosed := closedCycles_closed hmem
    obtain ⟨i, hi, hloop, rfl, _⟩ := exists_of_mem_closedCycles hmem
    refine ⟨List.ne_nil_of_mem (self_mem_component hi), List.nodup_range.filter _,
      fun j hj => (hclosed j hj).1, ?_, fun j hj => (hclosed j hj).2.2, fun j hj => (hclosed j hj).2.1⟩
    intro j hj k hk
    exact component_leading hi hloop hj hk
  · intro hnone i hi
    by_contra htrapped
    obtain ⟨members, hmem, _⟩ := trapped_runs_into_cycle hi htrapped
    rw [hnone] at hmem
    exact absurd hmem (by simp)
  · obtain ⟨_, h⟩ := sifted functions tasks
    exact h.apart

end Ouro.Ows
