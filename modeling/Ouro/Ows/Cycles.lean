import Ouro.Ows.Flow

/-!
# Rejected loops

Validation rejects a list when some of its tasks jump in a cycle with no way out
(`Validator.cycles`). The cycles it finds are closed: no edge leads out of one, and none of its tasks
can leave from inside (`closedCycles_closed`).

The interpreter takes the same edges. A task that cannot leave completes with a directive the graph
knows (`runs_calm`), with one exception: an extension's `before` list that exits around a switch makes
the task's own directive apply, which the graph leaves out for a switch with a default. And the search
for ways out misses an `end` on the tasks of an extension's lists themselves. Where neither happens, a
run that has entered a rejected cycle never leaves its list (`rejected_cycles_never_end`).
-/

namespace Ouro.Ows

open Lib

/-! ### The graph of a list -/

theorem mem_distinct {l : List Next} {n : Next} : n ∈ distinct l ↔ n ∈ l := by
  have hfold : ∀ (l d : List Next),
      n ∈ l.foldl (fun d n => if d.contains n then d else d ++ [n]) d ↔ n ∈ d ∨ n ∈ l := by
    intro l
    induction l with
    | nil => simp
    | cons m l ih =>
      intro d
      rw [List.foldl_cons, ih]
      by_cases hm : m ∈ d
      · simp only [List.contains_eq_mem, hm, decide_true, if_true, List.mem_cons]
        exact ⟨fun h => h.imp_right .inr, fun h => h.elim .inl fun h => h.elim (fun h => .inl (h ▸ hm)) .inr⟩
      · simp [hm, or_assoc]
  exact (hfold l []).trans (by simp)

theorem Next.of_lt {tasks : TaskList} {i k : Nat} {f : Flow} (h : Next.of tasks i f = .task k) :
    k < tasks.length := by
  cases f with
  | «continue» =>
    simp only [Next.of] at h
    split at h
    · cases h
      assumption
    · exact absurd h (by simp)
  | goto name =>
    -- the first task of the name, if there is one
    simp only [Next.of] at h
    cases hfind : tasks.findIdx? (fun t => t.1 = name) with
    | none => exact absurd h (by simp [hfind])
    | some j =>
      simp only [hfind, Option.map_some, Option.getD_some, Next.task.injEq] at h
      subst h
      exact (List.findIdx?_eq_some_iff_findIdx_eq.mp hfind).1
  | exit => exact absurd h (by simp [Next.of])
  | «end» => exact absurd h (by simp [Next.of])

/-- The interpreter goes where the graph says. -/
theorem Next.of_eq_task {tasks : TaskList} {i k j : Nat} {f : Flow} (h : Next.of tasks i f = .task k)
    (hfollow : follow tasks i f = some j) : j = k := by
  cases f with
  | «continue» =>
    simp only [Next.of] at h
    split at h
    · cases h
      simpa [follow] using hfollow.symm
    · exact absurd h (by simp)
  | goto name =>
    simp only [follow] at hfollow
    simpa [Next.of, hfollow] using h
  | exit => exact absurd h (by simp [Next.of])
  | «end» => exact absurd h (by simp [Next.of])

/-- Every way to continue comes from a directive. -/
theorem exists_flow_of_mem_successors {tasks : TaskList} {i : Nat} {n : Next}
    (h : n ∈ successors tasks i) : n = .out ∨ ∃ f, n = Next.of tasks i f := by
  unfold successors at h
  split at h
  · exact absurd h (by simp)
  · next name t _ =>
    rcases List.mem_append.mp (mem_distinct.mp h) with h | h
    -- by the kind of the task: a switch by its cases, a `try` by its handler
    · unfold Task.ways at h
      split at h
      · exact .inl (by simpa using h)
      · rcases List.mem_append.mp h with h | h
        · obtain ⟨c, _, rfl⟩ := List.mem_map.mp h
          exact .inr ⟨_, rfl⟩
        · split at h
          · exact absurd h (by simp)
          · exact .inr ⟨_, by simpa using h⟩
      · next catch_ _ =>
        cases hthen : catch_.then_ with
        | none => exact .inr ⟨_, by simpa [hthen] using h⟩
        | some f =>
          rcases List.mem_cons.mp h with h | h
          · exact .inr ⟨_, h⟩
          · exact .inr ⟨f, by simpa [hthen] using h⟩
      · exact .inr ⟨_, by simpa using h⟩
    · split at h
      · exact .inr ⟨_, by simpa using h⟩
      · exact absurd h (by simp)

theorem mem_jumps {tasks : TaskList} {i k : Nat} : k ∈ jumps tasks i ↔ .task k ∈ successors tasks i := by
  constructor
  · intro h
    obtain ⟨n, hn, hk⟩ := List.mem_filterMap.mp h
    cases n with
    | task j =>
      cases hk
      exact hn
    | out => exact absurd hk (by simp)
  · intro h
    exact List.mem_filterMap.mpr ⟨_, h, rfl⟩

theorem jumps_lt {tasks : TaskList} {i k : Nat} (h : k ∈ jumps tasks i) : k < tasks.length := by
  rcases exists_flow_of_mem_successors (mem_jumps.mp h) with hout | ⟨f, hf⟩
  · exact absurd hout (by simp)
  · exact Next.of_lt hf.symm

/-- One or more edges lead from `i` to `j`. -/
abbrev Leading (tasks : TaskList) : Nat → Nat → Prop := Relation.TransGen (Leads (jumps tasks))

/-- The search finds exactly what edges lead to. -/
theorem reach_iff {tasks : TaskList} {i j : Nat} (hi : i < tasks.length) :
    reach tasks i j = true ↔ Leading tasks i j := by
  have hclosed : ∀ x ∈ Finset.range tasks.length, ∀ y ∈ jumps tasks x, y ∈ Finset.range tasks.length :=
    fun x _ y hy => Finset.mem_range.mpr (jumps_lt hy)
  have hedges : edges (jumps tasks) (Finset.range tasks.length) (fun _ => false)
      = ((List.range tasks.length).map fun j => (jumps tasks j).length).sum := by
    unfold edges
    rw [Finset.filter_true_of_mem (by simp)]
    rfl
  exact reached_iff hclosed (Finset.mem_range.mpr hi) (by rw [hedges]; rfl)

theorem mem_component {tasks : TaskList} {i j : Nat} (hi : i < tasks.length) :
    j ∈ component tasks i ↔
      j < tasks.length ∧ (j = i ∨ (Leading tasks i j ∧ Leading tasks j i)) := by
  simp only [component, List.mem_filter, List.mem_range, Bool.or_eq_true, decide_eq_true_eq,
    Bool.and_eq_true]
  constructor
  · rintro ⟨hj, h⟩
    exact ⟨hj, h.imp_right fun h => ⟨(reach_iff hi).mp h.1, (reach_iff hj).mp h.2⟩⟩
  · rintro ⟨hj, h⟩
    exact ⟨hj, h.imp_right fun h => ⟨(reach_iff hi).mpr h.1, (reach_iff hj).mpr h.2⟩⟩

/-- What is found is the component of some task that an edge leads back to, and it has no way out. -/
theorem exists_of_mem_closedCycles {functions : List (String × Task)} {tasks : TaskList}
    {members : List Nat} (h : members ∈ closedCycles functions tasks) :
    ∃ i < tasks.length, Leading tasks i i ∧ members = component tasks i ∧
      leaves functions tasks members = false := by
  -- Along the loop over the tasks, what is reported was a component at its turn.
  have hfold : ∀ (l : List Nat) (acc : List Nat × List (List Nat)), (∀ i ∈ l, i < tasks.length) →
      members ∈ (l.foldl (closedCyclesStep functions tasks) acc).2 → members ∈ acc.2 ∨
        ∃ i ∈ l, reach tasks i i = true ∧ members = component tasks i ∧
          leaves functions tasks members = false := by
    intro l
    induction l with
    | nil => exact fun acc _ hmem => .inl hmem
    -- one task more: its component is reported when it is new and has no way out
    | cons i l ih =>
      intro acc hlt hmem
      rcases ih _ (fun j hj => hlt j (List.mem_cons_of_mem _ hj)) hmem with hmem | ⟨j, hj, hfound⟩
      · unfold closedCyclesStep at hmem
        split at hmem
        · exact .inl hmem
        · next hnew =>
          have hreach : reach tasks i i = true := by
            by_contra hfalse
            exact hnew (by simp [hfalse])
          simp only at hmem
          split at hmem
          · exact .inl hmem
          · next hleaves =>
            rcases List.mem_append.mp hmem with hmem | hmem
            · exact .inl hmem
            · have heq := List.mem_singleton.mp hmem
              exact .inr ⟨i, List.mem_cons_self, hreach, heq, heq ▸ by simpa using hleaves⟩
      · exact .inr ⟨j, List.mem_cons_of_mem _ hj, hfound⟩
  rcases hfold _ _ (fun i hi => List.mem_range.mp hi) h with hmem | ⟨i, hi, hreach, hrest⟩
  · exact absurd hmem (by simp)
  · have hi := List.mem_range.mp hi
    exact ⟨i, hi, (reach_iff hi).mp hreach, hrest⟩

/-- The tasks are of the list, none can leave from inside, and all their edges stay among them. -/
def Closed (functions : List (String × Task)) (tasks : TaskList) (members : List Nat) : Prop :=
  ∀ j ∈ members, j < tasks.length ∧ (∀ t, tasks[j]? = some t → t.2.canLeave functions = false) ∧
    ∀ n ∈ successors tasks j, ∃ k ∈ members, n = .task k

/-- A cycle that is found has no way out. -/
theorem closedCycles_closed {functions : List (String × Task)} {tasks : TaskList} {members : List Nat}
    (h : members ∈ closedCycles functions tasks) : Closed functions tasks members := by
  obtain ⟨i, hi, hloop, rfl, hleaves⟩ := exists_of_mem_closedCycles h
  intro j hj
  have ⟨hlt, hmember⟩ := (mem_component hi).mp hj
  have hstays := List.any_eq_false.mp hleaves j hj
  -- the test for ways out has failed at this task
  simp only [Bool.or_eq_true, Bool.and_eq_true, decide_eq_true_eq, not_or, not_and] at hstays
  obtain ⟨hinside, hedges⟩ := hstays
  refine ⟨hlt, fun t ht => by simpa [ht] using hinside, fun n hn => ?_⟩
  by_cases hone : 1 < (successors tasks j).length
  · -- Of several edges none leads out.
    have hstay := List.any_eq_false.mp (by simpa using hedges hone) n hn
    cases n with
    | out => exact absurd hstay (by simp)
    | task k => exact ⟨k, by simpa using hstay, rfl⟩
  · -- The only edge is the one back to `i`.
    have hto : Leading tasks i j ∨ j = i := hmember.elim .inr fun h => .inl h.1
    have hback : Leading tasks j i := hmember.elim (fun h => h ▸ hloop) And.right
    obtain ⟨k, hedge, hrest⟩ := Relation.TransGen.head'_iff.mp hback
    have hk : n = .task k := by
      obtain ⟨only, honly⟩ : ∃ only, successors tasks j = [only] :=
        List.length_eq_one_iff.mp (by have := List.length_pos_of_mem hn; omega)
      have hedge' := mem_jumps.mp hedge
      rw [honly, List.mem_singleton] at hn hedge'
      rw [hn, ← hedge']
    refine ⟨k, (mem_component hi).mpr ⟨jumps_lt hedge, ?_⟩, hk⟩
    rcases Relation.reflTransGen_iff_eq_or_transGen.mp hrest with heq | hrest
    · exact .inl heq.symm
    -- the edge leads back, so its end is in the component
    · refine .inr ⟨?_, hrest⟩
      rcases hto with hto | rfl
      · exact hto.tail hedge
      · exact .single hedge

/-! ### Tasks that cannot leave -/

/-- The directives a task's kind chooses from, when nothing inside it ends the workflow; `none` leaves
it to the task's own. -/
def Task.choices (t : Task) : List (Option Flow) :=
  match t.kind with
  | .raise => []
  | .switch cases =>
    (cases.map fun c => some c.2.then_) ++ if cases.any fun c => c.2.when.isNone then [] else [none]
  | .try_ _ catch_ => [none, catch_.then_]
  | _ => [none]

/-- Where a choice leads is among the ways the graph knows. -/
theorem directive_mem_ways {tasks : TaskList} {i : Nat} {t : Task} {o : Option Flow}
    (h : o ∈ t.choices) : Next.of tasks i (t.directive o) ∈ t.ways tasks i := by
  unfold Task.choices at h
  unfold Task.ways
  cases hkind : t.kind with
  | raise => simp [hkind] at h
  | switch cases =>
    simp only [hkind] at h ⊢
    rcases List.mem_append.mp h with h | h
    · obtain ⟨c, hc, rfl⟩ := List.mem_map.mp h
      exact List.mem_append_left _ (List.mem_map.mpr ⟨c, hc, rfl⟩)
    · refine List.mem_append_right _ ?_
      split at h
      · exact absurd h (by simp)
      · next hdefault =>
        cases List.mem_singleton.mp h
        rw [if_neg hdefault]
        exact List.mem_singleton.mpr rfl
  | try_ tasks catch_ =>
    simp only [hkind] at h ⊢
    rcases List.mem_cons.mp h with rfl | h
    · exact List.mem_cons_self
    · cases List.mem_singleton.mp h
      cases hthen : catch_.then_ with
      | none => exact List.mem_cons_self
      | some f => simp [Task.directive]
  | _ =>
    simp only [hkind, List.mem_singleton] at h
    subst h
    exact List.mem_singleton.mpr rfl

/-- The extension runs around the task or one nested in it. -/
def Extension.reaches (e : Extension) (t : Task) : Prop := ∃ v, Within v t ∧ e.extends v.kind = true

/-- No task of the extension's lists ends the workflow by its own directive. -/
def Extension.Endless (e : Extension) : Prop := ∀ l ∈ e.lists, ∀ t ∈ l.2, ends t.2.then_ = false

/-- The task may complete with `exit`. -/
def Task.mayExit (t : Task) : Prop := t.then_ = some .exit ∨ some .exit ∈ t.choices

/-- The extension's `before` list may exit, which skips the extended task. -/
def Extension.mayExit (e : Extension) : Prop := ∃ l, e.before = some l ∧ ∃ t ∈ l, t.2.mayExit

/-- The task cannot leave from inside, and the extensions around it and around what is nested in it do
not end the workflow either. -/
def Calm (wf : Workflow) (reference : String) (t : Task) : Prop :=
  t.canLeave wf.functions = false ∧
    (inside reference = true ∨ ∀ e ∈ wf.extensions, e.2.reaches t → e.2.Endless)

/-- The tasks of a nested list are calm, and none ends the workflow by its own directive. -/
def ListCalm (wf : Workflow) (at_ : String) (tasks : TaskList) : Prop :=
  ∀ t ∈ tasks, ends t.2.then_ = false ∧ Calm wf at_ t.2

/-- The directive a calm task completes with: a skipped task goes on, else its kind chooses; an
extension that exits leaves it to the task. -/
def Follows (wf : Workflow) (reference : String) (t : Task) (f : Flow) : Prop :=
  (t.when.isSome ∧ f = .continue) ∨ (∃ o ∈ t.choices, f = t.directive o) ∨
    (f = t.own ∧ inside reference = false ∧
      ∃ e ∈ wf.extensions, e.2.extends t.kind = true ∧ e.2.mayExit)

theorem inside_append {reference : String} (h : inside reference = true) (text : String) :
    inside (reference ++ text) = true := by
  simp only [inside, decide_eq_true_eq, String.toList_append] at h ⊢
  exact h.trans (List.infix_append_left)

theorem inside_extension (reference text : String) :
    inside (reference ++ extensionTasks ++ text) = true := by
  simp only [inside, decide_eq_true_eq, String.toList_append]
  exact ⟨reference.toList, text.toList, rfl⟩

theorem Calm.append {wf : Workflow} {reference : String} {t : Task} (h : Calm wf reference t)
    (text : String) : Calm wf (reference ++ text) t :=
  ⟨h.1, h.2.imp_left fun hinside => inside_append hinside text⟩

theorem ListCalm.append {wf : Workflow} {at_ : String} {tasks : TaskList} (h : ListCalm wf at_ tasks)
    (text : String) : ListCalm wf (at_ ++ text) tasks :=
  fun t ht => ⟨(h t ht).1, (h t ht).2.append text⟩

theorem Task.canLeave_eq (functions : List (String × Task)) (t : Task) :
    t.canLeave functions = t.kind.canLeave functions := by
  cases t
  rfl

theorem listLeaves_eq_false {functions : List (String × Task)} {tasks : TaskList}
    (h : listLeaves functions tasks = false) {t : String × Task} (ht : t ∈ tasks) :
    ends t.2.then_ = false ∧ t.2.canLeave functions = false := by
  induction tasks with
  | nil => exact absurd ht (by simp)
  | cons u tasks ih =>
    obtain ⟨name, u⟩ := u
    simp only [listLeaves, Bool.or_eq_false_iff] at h
    rcases List.mem_cons.mp ht with rfl | ht
    · exact h.1
    · exact ih h.2 ht

/-- What cannot leave has no list inside that can. -/
theorem nested_stays {functions : List (String × Task)} {kind : Kind}
    (h : kind.canLeave functions = false) {tasks : TaskList} (htasks : tasks ∈ kind.nested) :
    listLeaves functions tasks = false := by
  cases kind with
  | do_ | for_ | fork =>
    cases List.mem_singleton.mp htasks
    simpa [Kind.canLeave] using h
  | try_ body catch_ =>
    obtain ⟨errors, when, exceptWhen, retry, handler, then_⟩ := catch_
    cases handler with
    | none =>
      cases List.mem_singleton.mp htasks
      simp only [Kind.canLeave, Bool.or_eq_false_iff] at h
      exact h.1
    | some handler =>
      simp only [Kind.canLeave, Bool.or_eq_false_iff] at h
      rcases List.mem_cons.mp htasks with rfl | htasks
      · exact h.1.1
      · cases List.mem_singleton.mp htasks
        exact h.2
  | listen foreach =>
    cases foreach with
    | none => exact absurd htasks (by simp [Kind.nested])
    | some foreach =>
      cases foreach
      cases List.mem_singleton.mp htasks
      simpa [Kind.canLeave] using h
  | _ => exact absurd htasks (by simp [Kind.nested])

/-- The lists inside a calm task are calm. -/
theorem Calm.nested {wf : Workflow} {reference : String} {t : Task} (h : Calm wf reference t)
    {tasks : TaskList} (htasks : tasks ∈ t.kind.nested) : ListCalm wf reference tasks := by
  rintro ⟨name, u⟩ hu
  have ⟨hends, hstays⟩ := listLeaves_eq_false
    (nested_stays ((Task.canLeave_eq _ t).symm.trans h.1) htasks) hu
  refine ⟨hends, hstays, h.2.imp_right fun hext e he => ?_⟩
  rintro ⟨v, hv, hextends⟩
  exact hext e he ⟨v, hv.trans (.nested htasks hu .refl), hextends⟩

/-- A task that cannot leave has no `end` to choose. -/
theorem end_not_mem_choices {functions : List (String × Task)} {t : Task}
    (h : t.canLeave functions = false) : some .end ∉ t.choices := by
  rw [Task.canLeave_eq] at h
  unfold Task.choices
  intro hmem
  cases hkind : t.kind with
  | switch cases =>
    simp only [hkind] at hmem
    rcases List.mem_append.mp hmem with hmem | hmem
    · obtain ⟨c, hc, heq⟩ := List.mem_map.mp hmem
      rw [hkind, Kind.canLeave, List.any_eq_false] at h
      exact h c hc (by simpa using heq)
    · split at hmem <;> simp at hmem
  | try_ tasks catch_ =>
    obtain ⟨errors, when, exceptWhen, retry, handler, then_⟩ := catch_
    have hthen : then_ = some .end := by simpa [hkind, eq_comm] using hmem
    cases handler <;> simp [hkind, Kind.canLeave, hthen, ends] at h
  | _ => simp [hkind] at hmem

theorem directive_eq_end {t : Task} {o : Option Flow} (h : t.directive o = .end) :
    o = some .end ∨ ends t.then_ = true := by
  cases o with
  | some f => exact .inl (by simpa [Task.directive] using h)
  | none =>
    cases hthen : t.then_ with
    | none => simp [Task.directive, hthen] at h
    | some f => exact .inr (by simpa [Task.directive, hthen, ends] using h)

theorem directive_eq_exit {t : Task} {o : Option Flow} (h : t.directive o = .exit) :
    o = some .exit ∨ t.then_ = some .exit := by
  cases o with
  | some f => exact .inl (by simpa [Task.directive] using h)
  | none =>
    cases hthen : t.then_ with
    | none => simp [Task.directive, hthen] at h
    | some f => exact .inr (by simpa [Task.directive, hthen] using h)

theorem Task.own_eq (t : Task) : t.own = t.directive none := rfl

/-- In a nested list a calm task does not end the workflow. -/
theorem Follows.ne_end {wf : Workflow} {reference : String} {t : Task} {f : Flow}
    (h : Follows wf reference t f) (hcalm : t.canLeave wf.functions = false)
    (hends : ends t.then_ = false) : f ≠ .end := by
  rintro rfl
  rcases h with ⟨_, h⟩ | ⟨o, ho, h⟩ | ⟨h, _⟩
  · exact absurd h (by simp)
  · rcases directive_eq_end h.symm with rfl | h
    · exact end_not_mem_choices hcalm ho
    · exact absurd h (by simp [hends])
  · rcases directive_eq_end (t.own_eq ▸ h.symm) with h | h
    · exact absurd h (by simp)
    · exact absurd h (by simp [hends])

theorem Follows.mayExit {wf : Workflow} {reference : String} {t : Task}
    (h : Follows wf reference t .exit) : t.mayExit := by
  rcases h with ⟨_, h⟩ | ⟨o, ho, h⟩ | ⟨h, _⟩
  · exact absurd h (by simp)
  · rcases directive_eq_exit h.symm with rfl | h
    · exact .inr ho
    · exact .inl h
  · exact .inl ((directive_eq_exit (t.own_eq ▸ h.symm)).resolve_left (by simp))

/-! ### What calm code does -/

/-- How calm code ends when no task faults other than by `raise`: a list completes or exits, a task
follows a directive the graph knows of, and everything else leaves the directive to its task. -/
def Stays (wf : Workflow) (r : Result) : Code → Prop
  | .list tasks at_ _ _ => ListCalm wf at_ tasks →
    r = .finished .done ∨ (r = .finished .exit ∧ ∃ t ∈ tasks, t.2.mayExit)
  | .around tasks at_ => (∀ l, tasks = some l → ListCalm wf at_ l) →
    r = .finished .done ∨ (r = .finished .exit ∧ ∃ l, tasks = some l ∧ ∃ t ∈ l, t.2.mayExit)
  | .task t reference => Calm wf reference t → ∃ f, r = .went f ∧ Follows wf reference t f
  | .layer es t reference => Calm wf reference t →
    (∀ e ∈ es, inside reference = false ∧ e.2 ∈ wf.extensions ∧ e.2.2.extends t.kind = true) →
    ∃ o, r = .chose o ∧ (o ∈ t.choices ∨ (o = none ∧ ∃ e ∈ es, e.2.2.mayExit))
  | .kind t reference => Calm wf reference t → ∃ o ∈ t.choices, r = .chose o
  | .passes _ _ tasks reference _ _ | .attempt tasks _ reference _ =>
    ListCalm wf reference tasks → r = .chose none
  | .events foreach reference _ => ListCalm wf reference foreach.tasks → r = .chose none

theorem around_extends {wf : Workflow} {t : Task} {reference : String} {holds : Nat → Bool} :
    ∀ e ∈ wf.around t reference holds,
      inside reference = false ∧ e.2 ∈ wf.extensions ∧ e.2.2.extends t.kind = true := by
  intro e he
  unfold Workflow.around at he
  split at he
  · exact absurd he (by simp)
  · next hinside =>
    obtain ⟨⟨named, i⟩, hmem, rfl⟩ := List.mem_map.mp he
    obtain ⟨hext, hkind⟩ := List.mem_filter.mp hmem
    simp only [Bool.and_eq_true] at hkind
    exact ⟨by simpa using hinside, List.fst_mem_of_mem_zipIdx hext, hkind.1⟩

/-- The directive after the layers around a task. -/
theorem follows_of_layer {wf : Workflow} {t : Task} {reference : String} {holds : Nat → Bool}
    {o : Option Flow}
    (h : o ∈ t.choices ∨ (o = none ∧ ∃ e ∈ wf.around t reference holds, e.2.2.mayExit)) :
    Follows wf reference t (t.directive o) := by
  rcases h with h | ⟨rfl, e, he, hexit⟩
  · exact .inr (.inl ⟨o, h, rfl⟩)
  · have ⟨hinside, hmem, hextends⟩ := around_extends e he
    exact .inr (.inr ⟨rfl, hinside, e.2, hmem, hextends, hexit⟩)

/-- The lists of an extension around a calm task are calm: validation looked for ways out inside their
tasks, and they have no `end` of their own. -/
theorem extension_calm {wf : Workflow} (hexits : Validator.exits wf = false) {t : Task}
    {reference : String} (hcalm : Calm wf reference t) (hinside : inside reference = false)
    {e : String × Extension} (he : e ∈ wf.extensions) (hextends : e.2.extends t.kind = true)
    {l : String × TaskList} (hl : l ∈ e.2.lists) (text : String) :
    ListCalm wf (reference ++ extensionTasks ++ text) l.2 := by
  intro u hu
  have hendless : e.2.Endless := (hcalm.2.resolve_left (by simp [hinside])) e he ⟨t, .refl, hextends⟩
  have hstays : u.2.canLeave wf.functions = false := by
    simp only [Validator.exits, List.any_eq_false, Bool.not_eq_true] at hexits
    exact hexits e he l hl u hu
  exact ⟨hendless l hl u hu, hstays, .inl (inside_extension reference text)⟩

/-- A kind that leaves the directive to its task has that choice. -/
theorem none_mem_choices {t : Task} (h : ∀ cases, t.kind ≠ .switch cases) (hraise : t.kind ≠ .raise) :
    none ∈ t.choices := by
  unfold Task.choices
  cases hkind : t.kind with
  | raise => exact absurd hkind hraise
  | switch cases => exact absurd hkind (h cases)
  | _ => simp

/-- A calm list inside a task leaves the directive to the task. -/
theorem ended_eq {r : Result} {p : Prop} (h : r = .finished .done ∨ (r = .finished .exit ∧ p)) :
    r.ended = .chose none := by
  rcases h with rfl | ⟨rfl, _⟩ <;> rfl

/-- A calm list does not fail. -/
theorem not_failed {f : Fault} {p : Prop}
    (h : Result.failed f = .finished .done ∨ (Result.failed f = .finished .exit ∧ p)) : False := by
  rcases h with h | ⟨h, _⟩ <;> exact absurd h (by simp)

/-- The lists of an extension around a calm task are calm, wherever they run. -/
theorem layer_calm {wf : Workflow} (hexits : Validator.exits wf = false) {t : Task} {reference : String}
    (hcalm : Calm wf reference t) {i : Nat} {name : String} {e : Extension}
    (he : inside reference = false ∧ (name, e) ∈ wf.extensions ∧ e.extends t.kind = true)
    {key : String} {tasks : TaskList} (hkey : (key, tasks) ∈ e.lists) (text : String) :
    ListCalm wf (reference ++ extensionTasks ++ toString i ++ "/" ++ name ++ text) tasks := by
  have hlist := extension_calm hexits hcalm he.1 he.2.1 he.2.2 hkey (toString i)
  exact ((hlist.append "/").append name).append text

/-- The branches of a calm fork are calm. -/
theorem Calm.branch {wf : Workflow} {t : Task} {reference : String} (hcalm : Calm wf reference t)
    {branches : TaskList} {compete : Bool} (hkind : t.kind = .fork branches compete) {j : Nat}
    {b : String × Task} (hb : branches[j]? = some b) (visits : Nat) :
    Calm wf (refer (reference ++ "/fork/branches") j b.1 visits) b.2 := by
  have hlist : ListCalm wf reference branches := hcalm.nested (by simp [hkind, Kind.nested])
  have hbranch := (hlist b (List.mem_of_getElem? hb)).2
  exact (((((hbranch.append _).append _).append _).append _).append _).append _

/-- A switch that takes none of its conditions chooses its default, or leaves it to the task. -/
theorem switchElse_mem_choices {t : Task} {cases : List (String × Case)} (hkind : t.kind = .switch cases) :
    ((cases.find? fun c => c.2.when.isNone).map fun c => c.2.then_) ∈ t.choices := by
  simp only [Task.choices, hkind]
  cases hdefault : cases.find? fun c => c.2.when.isNone with
  | none =>
    have hnone : (cases.any fun c => c.2.when.isNone) = false := by
      rw [List.any_eq_false]
      exact List.find?_eq_none.mp hdefault
    simp [hnone]
  | some c =>
    exact List.mem_append_left _ (List.mem_map.mpr ⟨c, List.mem_of_find?_eq_some hdefault, rfl⟩)

/-- A calm task calls no reusable function. -/
theorem calm_calls_host {wf : Workflow} {t : Task} {reference : String} (hcalm : Calm wf reference t)
    {function : String} {with_ : Option Json} (hkind : t.kind = .call function with_) :
    (wf.functions.find? fun f => f.1 = functionName function) = none := by
  have hstays := hcalm.1
  rw [Task.canLeave_eq, hkind, Kind.canLeave, List.any_eq_false] at hstays
  exact List.find?_eq_none.mpr hstays

/-- Without other faults than raised ones, calm code stays: by induction over its run. -/
theorem runs_calm {wf : Workflow} (hexits : Validator.exits wf = false) {fs h : Bool} {c : Code}
    {touched : List Touch} {r : Result} (hruns : Runs wf fs h c touched r) (hfs : fs = false) :
    Stays wf r c := by
  induction hruns with
  -- A fault that no task raised is excluded.
  | cut | dropped | listLost | taskRefused | taskSpoiled | taskExceeds | taskHandled | raceStopped
  | eventSpoiled => exact absurd hfs (by simp)
  | replayed _ ih => exact ih hfs
  -- Lists: past the end, or on to what the task named.
  | listDone => exact fun _ => .inl rfl
  | listLeft htask _ hleft ih =>
    intro hcalm
    have hmem := List.mem_of_getElem? htask
    obtain ⟨hends, hcalm⟩ := hcalm _ hmem
    obtain ⟨f, rfl, hfollows⟩ := ih hfs (by simpa [refer, String.append_assoc] using hcalm.append _)
    cases f with
    | exit =>
      cases hleft
      exact .inr ⟨rfl, _, hmem, hfollows.mayExit⟩
    | «end» => exact absurd rfl (hfollows.ne_end hcalm.1 hends)
    | _ => exact absurd hleft (by simp [Result.leaving])
  | listGoes _ _ _ _ _ ih => exact ih hfs
  -- Tasks with their conditions, inputs and extensions.
  | taskSkipped hwhen => exact fun _ => ⟨_, rfl, .inl ⟨hwhen, rfl⟩⟩
  | taskFails _ ih =>
    intro hcalm
    obtain ⟨o, heq, _⟩ := ih hfs hcalm around_extends
    exact absurd heq (by simp)
  | taskGoes _ _ ih =>
    intro hcalm
    obtain ⟨o, heq, ho⟩ := ih hfs hcalm around_extends
    cases heq
    exact ⟨_, rfl, follows_of_layer ho⟩
  | aroundNone => exact fun _ => .inl rfl
  | aroundSome _ ih =>
    intro hcalm
    exact (ih hfs (hcalm _ rfl)).imp_right fun ⟨heq, hexit⟩ => ⟨heq, _, rfl, hexit⟩
  -- Layers of extensions: a list before, the task, a list after.
  | layerInner _ ih =>
    intro hcalm _
    obtain ⟨o, ho, rfl⟩ := ih hfs hcalm
    exact ⟨o, rfl, .inl ho⟩
  | @layerSkips _ _ _ _ e _ _ _ _ _ _ _ hbefore ih =>
    intro hcalm hes
    have hlist := ih hfs fun l hl => by
      have hkey : ("before", l) ∈ e.lists := by simp [Extension.lists, hl]
      exact layer_calm hexits hcalm (hes _ List.mem_cons_self) hkey _
    rcases hlist with rfl | ⟨rfl, hexit⟩
    · exact absurd hbefore (by simp [Result.before])
    · cases hbefore
      exact ⟨none, rfl, .inr ⟨rfl, _, List.mem_cons_self, hexit⟩⟩
  | layerFails _ _ _ ih =>
    intro hcalm hes
    obtain ⟨o, heq, _⟩ := ih hfs hcalm fun e he => hes e (List.mem_cons_of_mem _ he)
    exact absurd heq (by simp)
  | @layerWraps _ _ _ _ e _ _ _ _ _ _ _ _ _ _ _ _ ih ih' =>
    intro hcalm hes
    obtain ⟨o, heq, ho⟩ := ih hfs hcalm fun e he => hes e (List.mem_cons_of_mem _ he)
    cases heq
    have hlist := ih' hfs fun l hl => by
      have hkey : ("after", l) ∈ e.lists := by simp [Extension.lists, hl]
      exact layer_calm hexits hcalm (hes _ List.mem_cons_self) hkey _
    refine ⟨_, ?_, ho.imp_right fun ⟨hnone, other, hother, hexit⟩ =>
      ⟨hnone, other, List.mem_cons_of_mem _ hother, hexit⟩⟩
    rcases hlist with rfl | ⟨rfl, _⟩ <;> rfl
  -- Calls.
  | callHost hkind =>
    exact fun _ => ⟨none, none_mem_choices (by simp [hkind]) (by simp [hkind]), rfl⟩
  | callOwn hkind _ hown => exact fun hcalm => absurd hown (by simp [calm_calls_host hcalm hkind])
  | callOwnFails hkind _ hown => exact fun hcalm => absurd hown (by simp [calm_calls_host hcalm hkind])
  -- Blocks and loops hand on what their list returns.
  | do_ hkind _ ih =>
    intro hcalm
    have hlist := ih hfs ((hcalm.nested (by simp [hkind, Kind.nested])).append _)
    exact ⟨none, none_mem_choices (by simp [hkind]) (by simp [hkind]), ended_eq hlist⟩
  | for_ hkind _ _ ih =>
    intro hcalm
    have hpasses := ih hfs (hcalm.nested (by simp [hkind, Kind.nested]))
    exact ⟨none, none_mem_choices (by simp [hkind]) (by simp [hkind]), hpasses⟩
  | passesDone => exact fun _ => rfl
  | passesBreak => exact fun _ => rfl
  | passStops _ hstops ih =>
    exact fun hcalm => absurd (ended_eq (ih hfs (((hcalm.append _).append _).append _))) hstops
  | passGoes _ _ _ _ ih => exact ih hfs
  | passBeside _ _ ih ih' =>
    intro hcalm
    rw [ended_eq (ih hfs (((hcalm.append _).append _).append _)), ih' hfs hcalm]
    rfl
  -- Branches: one of them would have to fail, which calm code does not.
  | forkJoins hkind =>
    exact fun _ => ⟨none, none_mem_choices (by simp [hkind]) (by simp [hkind]), rfl⟩
  | @forkFails _ _ _ _ branches _ _ k _ _ hkind _ _ hk _ ih =>
    intro hcalm
    obtain ⟨f, heq, _⟩ := ih branches[k].1 branches[k].2 (List.getElem?_eq_getElem hk) hfs
      (hcalm.branch hkind (List.getElem?_eq_getElem hk) _)
    exact absurd heq (by simp)
  | raceWon hkind =>
    exact fun _ => ⟨none, none_mem_choices (by simp [hkind]) (by simp [hkind]), rfl⟩
  | @raceLost _ _ _ _ branches _ _ k hkind _ hk ih =>
    intro hcalm
    obtain ⟨f, heq, _⟩ := ih k branches[k].1 branches[k].2 (List.getElem?_eq_getElem hk) hfs
      (hcalm.branch hkind (List.getElem?_eq_getElem hk) _)
    exact absurd heq (by simp)
  | plain hkind =>
    refine fun _ => ⟨none, none_mem_choices (fun cases hswitch => ?_) fun hraise => ?_, rfl⟩
    · rw [hswitch] at hkind
      exact absurd hkind (by simp)
    · rw [hraise] at hkind
      exact absurd hkind (by simp)
  | run hkind =>
    exact fun _ => ⟨none, none_mem_choices (by simp [hkind]) (by simp [hkind]), rfl⟩
  -- A `raise` can leave, so it is not calm.
  | raise hkind =>
    intro hcalm
    have hstays := hcalm.1
    rw [Task.canLeave_eq, hkind] at hstays
    exact absurd hstays (by simp [Kind.canLeave])
  -- A switch names one of its cases.
  | switchCase hkind hmem _ =>
    refine fun _ => ⟨_, ?_, rfl⟩
    simp only [Task.choices, hkind]
    exact List.mem_append_left _ (List.mem_map.mpr ⟨_, hmem, rfl⟩)
  | switchElse hkind => exact fun _ => ⟨_, switchElse_mem_choices hkind, rfl⟩
  -- A block that is tried does not fail, so nothing is caught.
  | try_ hkind _ ih =>
    intro hcalm
    have hattempt := ih hfs (hcalm.nested (by simp [hkind, Kind.nested]))
    exact ⟨none, none_mem_choices (by simp [hkind]) (by simp [hkind]), hattempt⟩
  | attemptDone _ ih => exact fun hcalm => ended_eq (ih hfs ((hcalm.append _).append _))
  | attemptPasses _ _ ih => exact fun hcalm => (not_failed (ih hfs ((hcalm.append _).append _))).elim
  | attemptRetries _ _ _ _ _ ih => exact ih hfs
  | attemptCaught _ _ _ ih => exact fun hcalm => (not_failed (ih hfs ((hcalm.append _).append _))).elim
  -- A listen and its body.
  | listen hkind =>
    exact fun _ => ⟨none, none_mem_choices (by simp [hkind]) (by simp [hkind]), rfl⟩
  | listenEach hkind _ ih =>
    intro hcalm
    have hevents := ih hfs (hcalm.nested (by simp [hkind, Kind.nested]))
    exact ⟨none, none_mem_choices (by simp [hkind]) (by simp [hkind]), hevents⟩
  | eventsDone => exact fun _ => rfl
  | eventFails _ ih =>
    exact fun hcalm => (not_failed (ih hfs (((hcalm.append _).append _).append _))).elim
  | eventEnds _ ih =>
    intro hcalm
    rcases ih hfs (((hcalm.append _).append _).append _) with h | ⟨h, _⟩ <;> exact absurd h (by simp)
  | eventGoes _ _ _ _ ih => exact ih hfs

/-! ### Rejected cycles -/

/-- Extensions do not break a cycle open: those around its tasks (and around what is nested in them)
have no task with an `end` of its own, and where the `before` list of one around a task of the cycle may
exit, the directive of that task stays in the cycle. -/
def Contained (wf : Workflow) (at_ : String) (tasks : TaskList) (members : List Nat) : Prop :=
  inside at_ = true ∨ ∀ i ∈ members, ∀ t, tasks[i]? = some t → ∀ e ∈ wf.extensions,
    (e.2.reaches t.2 → e.2.Endless) ∧
      (e.2.extends t.2.kind = true → e.2.mayExit → ∃ k ∈ members, Next.of tasks i t.2.own = .task k)

/-- A task of a closed cycle goes on to a task of the cycle. -/
theorem Closed.follows {wf : Workflow} {at_ : String} {tasks : TaskList} {members : List Nat}
    (hclosed : Closed wf.functions tasks members) (hcontained : Contained wf at_ tasks members) {i : Nat}
    (hi : i ∈ members) {name : String} {t : Task} (htask : tasks[i]? = some (name, t)) {visits : Nat}
    {f : Flow} (hfollows : Follows wf (refer at_ i name visits) t f) :
    ∃ k ∈ members, Next.of tasks i f = .task k := by
  obtain ⟨_, _, hedges⟩ := hclosed i hi
  have hsuccessors : successors tasks i
      = distinct (t.ways tasks i ++ if t.when.isSome then [Next.of tasks i .continue] else []) := by
    simp [successors, htask]
  rcases hfollows with ⟨hwhen, rfl⟩ | ⟨o, ho, rfl⟩ | ⟨rfl, hinside, e, he, hextends, hexit⟩
  · apply hedges
    rw [hsuccessors, mem_distinct]
    exact List.mem_append_right _ (by simp [hwhen])
  · apply hedges
    rw [hsuccessors, mem_distinct]
    exact List.mem_append_left _ (directive_mem_ways ho)
  · rcases hcontained with hat | hcontained
    · have hmarked : inside (refer at_ i name visits) = true :=
        inside_append (inside_append (inside_append (inside_append (inside_append hat _) _) _) _) _
      exact absurd hmarked (by simp [hinside])
    · exact (hcontained i hi _ htask e he).2 hextends hexit

/-- A task of a rejected cycle completes, and with a directive that leads to a task of the cycle. -/
theorem Closed.goes_on {wf : Workflow} (hexits : Validator.exits wf = false) {at_ : String}
    {tasks : TaskList} {members : List Nat} (hclosed : Closed wf.functions tasks members)
    (hcontained : Contained wf at_ tasks members) {i : Nat} (hi : i ∈ members) {name : String} {t : Task}
    (htask : tasks[i]? = some (name, t)) {visits : Nat} {h : Bool} {touched : List Touch} {r : Result}
    (hruns : Runs wf false h (.task t (refer at_ i name visits)) touched r) :
    ∃ f k, r = .went f ∧ k ∈ members ∧ Next.of tasks i f = .task k := by
  have hcalm : Calm wf at_ t := by
    refine ⟨(hclosed i hi).2.1 _ htask, hcontained.imp_right fun hcontained e he => ?_⟩
    exact (hcontained i hi _ htask e he).1
  obtain ⟨f, rfl, hfollows⟩ := runs_calm hexits hruns rfl
    (((((hcalm.append _).append _).append _).append _).append _)
  obtain ⟨k, hk, hnext⟩ := hclosed.follows hcontained hi htask hfollows
  exact ⟨f, k, rfl, hk, hnext⟩

/-- A run in which tasks fault only by `raise` never leaves a list once it has entered a cycle that
validation reports, neither at the list's end nor by `exit`, by `end` or by an error, unless extensions
break the cycle open. -/
theorem rejected_cycles_never_end (wf : Workflow) (tasks : TaskList) (at_ : String) {cycle : List Nat}
    (hcycle : cycle ∈ Validator.cycles wf tasks) (hcontained : Contained wf at_ tasks cycle) {i : Nat}
    (hi : i ∈ cycle) (visits : List Nat) (handling : Bool) (touched : List Touch) (r : Result) :
    ¬ Runs wf false handling (.list tasks at_ visits i) touched r := by
  -- Validation reports cycles only where no `exit` leaves a list of an extension.
  have hexits : Validator.exits wf = false := by
    by_contra htrue
    exact absurd hcycle (by simp [Validator.cycles, htrue])
  have hclosed : Closed wf.functions tasks cycle :=
    closedCycles_closed (by simpa [Validator.cycles, hexits] using hcycle)
  intro hruns
  generalize hfs : false = fs at hruns
  generalize hc : Code.list tasks at_ visits i = c at hruns
  -- By induction over the run of the list: each task leads to another one of the cycle.
  induction hruns generalizing visits i with
  | cut | dropped | listLost => cases hfs
  | replayed _ ih => exact ih hi visits hfs hc
  | listDone hnone =>
    cases hc
    exact absurd (List.getElem?_eq_none_iff.mp hnone) (not_le.mpr (hclosed _ hi).1)
  | listLeft htask hruns hleft =>
    cases hc
    subst hfs
    obtain ⟨f, k, rfl, _, hnext⟩ := hclosed.goes_on hexits hcontained hi htask hruns
    cases f with
    | exit | «end» => exact absurd hnext (by simp [Next.of])
    | _ => exact absurd hleft (by simp [Result.leaving])
  | listGoes htask hruns hfollow _ _ ih =>
    cases hc
    subst hfs
    obtain ⟨f, k, hwent, hk, hnext⟩ := hclosed.goes_on hexits hcontained hi htask hruns
    cases hwent
    exact ih (Next.of_eq_task hnext hfollow ▸ hk) _ rfl rfl
  | _ => cases hc

/-- A task that jumps to itself, with an extension around it. -/
def spinning (kind : Kind) (then_ : Option Flow) (e : Extension) : Workflow where
  extensions := [("wrap", e)]
  tasks := [("again", { kind, then_ })]

/-- An extension of one task that sets data, and follows the given directive. -/
def wrapping (then_ : Option Flow) : Extension where
  extend := "all"
  before := some [("note", { kind := .set, then_ })]

/-- A loop whose extension goes on. -/
def loggedLoop : Workflow := spinning .set (some (.goto "again")) (wrapping none)

/-- An extension that only sets data does not break the loop open: no run of it ends. -/
theorem extended_loop_never_ends :
    [0] ∈ Validator.cycles loggedLoop loggedLoop.tasks ∧
      Contained loggedLoop "/do" loggedLoop.tasks [0] ∧
      ∀ touched r, ¬ Runs loggedLoop false false (.start loggedLoop.tasks "/do") touched r := by
  have hcycle : [0] ∈ Validator.cycles loggedLoop loggedLoop.tasks := by decide +kernel
  have hcontained : Contained loggedLoop "/do" loggedLoop.tasks [0] := by
    refine .inr fun i _ t _ e he => ?_
    cases List.mem_singleton.mp he
    refine ⟨fun _ l hl u hu => ?_, ?_⟩
    · cases (show l = ("before", [("note", { kind := .set })]) by simpa [wrapping, Extension.lists] using hl)
      cases List.mem_singleton.mp hu
      rfl
    · rintro _ ⟨l, hl, u, hu, hexit⟩
      cases hl
      cases List.mem_singleton.mp hu
      exact absurd hexit (by simp [Task.mayExit, Task.choices])
  exact ⟨hcycle, hcontained, fun _ _ =>
    rejected_cycles_never_end _ _ _ hcycle hcontained List.mem_cons_self _ _ _ _⟩

/-- The list of `wrapping` leaves by its directive. -/
theorem wrapping_leaves {wf : Workflow} {fs h : Bool} {at_ : String} {f : Flow} {r : Result}
    (hinside : inside at_ = true) (hleft : (Result.went f).leaving = some r) :
    Runs wf fs h (.around (wrapping (some f)).before at_) [] r := by
  have hreference : inside (refer at_ 0 "note" 0) = true :=
    inside_append (inside_append (inside_append (inside_append (inside_append hinside _) _) _) _) _
  have hkind : Runs wf fs h (.kind { kind := .set, then_ := some f } (refer at_ 0 "note" 0)) []
      (.chose none) := .plain (.inl rfl)
  have hlayer : Runs wf fs h (.layer (wf.around { kind := .set, then_ := some f } (refer at_ 0 "note" 0)
      fun _ => true) { kind := .set, then_ := some f } (refer at_ 0 "note" 0)) [] (.chose none) := by
    rw [Workflow.around, if_pos hreference]
    exact .layerInner hkind
  refine .aroundSome (.listLeft rfl (.taskGoes hlayer fun target hgoto => ?_) hleft)
  have hf : f = .goto target := hgoto
  subst hf
  exact absurd hleft (by simp [Result.leaving])

/-- A task wrapped by an extension that keeps it from running follows what the extension chose. -/
theorem spinning_task (kind : Kind) (then_ : Option Flow) {f : Flow} {r : Result} {o : Option Flow}
    (hleft : (Result.went f).leaving = some r) (hbefore : r.before = some (.chose o)) :
    Runs (spinning kind then_ (wrapping (some f))) false false
      (.task { kind, then_ } "/do/0/again") [] (.went (Task.directive { kind, then_ } o)) := by
  have haround : (spinning kind then_ (wrapping (some f))).around { kind, then_ } "/do/0/again"
      (fun _ => true) = [(0, "wrap", wrapping (some f))] := by
    rw [Workflow.around, if_neg (by decide +kernel)]
    simp [spinning, wrapping, Extension.extends]
  have hlayer : Runs (spinning kind then_ (wrapping (some f))) false false
      (.layer [(0, "wrap", wrapping (some f))] { kind, then_ } "/do/0/again") [] (.chose o) :=
    .layerSkips (wrapping_leaves (inside_append (inside_append (inside_append
      (inside_extension _ _) _) _) _) hleft) hbefore
  rw [← haround] at hlayer
  exact .taskGoes hlayer fun _ _ => rfl

/-- A loop whose extension ends the workflow. -/
def endedLoop : Workflow := spinning .set (some (.goto "again")) (wrapping (some .end))

/-- A loop by a switch's default, which an extension skips. -/
def skippedLoop : Workflow :=
  spinning (.switch [("always", { then_ := .goto "again" })]) none (wrapping (some .exit))

/-- Validation reports a loop although the extension around its task ends the workflow (the own directive
of an extension's task is not looked at), and one although the extension skips its switch, whose own
directive then leads on. -/
theorem broken_loops_rejected :
    [0] ∈ Validator.cycles endedLoop endedLoop.tasks ∧
      Runs endedLoop false false (.start endedLoop.tasks "/do") [] (.finished .end) ∧
      [0] ∈ Validator.cycles skippedLoop skippedLoop.tasks ∧
      Runs skippedLoop false false (.start skippedLoop.tasks "/do") [] (.finished .done) := by
  have hend : (Result.went .end).leaving = some (.finished .end) := rfl
  have hexit : (Result.went .exit).leaving = some (.finished .exit) := rfl
  refine ⟨by decide +kernel, ?_, by decide +kernel, ?_⟩
  · exact .listLeft rfl (spinning_task _ _ hend rfl) rfl
  · have htask := spinning_task (.switch [("always", { then_ := .goto "again" })]) none hexit rfl
    have hdone : Runs skippedLoop false false
        (.list skippedLoop.tasks "/do" (visited (unvisited skippedLoop.tasks) 0) 1) []
        (.finished .done) := .listDone rfl
    exact .listGoes rfl htask rfl hdone

end Ouro.Ows
