import Ouro.Lib.Words
import Ouro.Ows.Definition

/-!
# References of invocations

A run names each invocation of a task by a reference: the reference of the task around it, what leads
from that task to the nested list, the position and the name in the list, and the visit. Names are the
author's and may hold anything; lists, iterations, attempts and visits put slashes and bracketed counters
between them.

Where a reference leads is decided from its start: what can follow a task is told apart by the first
letters (`Construct`), positions and counters end at the next sign, and the name is that of the position.
One spelling has two readings: `x[1]` starts both the second visit of `x` and, when `x` is a `for`, the
second iteration of its first visit. What follows tells these apart, so no two invocations share a
reference (`reference_injective`), but `x[1]` followed by a slash need not be the second visit
(`compare_references`).
-/

namespace Ouro.Ows

open Lib

/-! ### Invocations -/

/-- How a list of tasks is nested in a task. -/
inductive Nest where
  | do_
  /-- An iteration of a `for`. -/
  | iteration (i : Nat)
  /-- An attempt of a `try`, from one on. -/
  | attempt (k : Nat)
  | catch_
  /-- The tasks for an event a `listen` consumed. -/
  | foreach (n : Nat)
  | before (index : Nat) (name : String)
  | after (index : Nat) (name : String)
deriving DecidableEq

/-- What leads from a task to one nested in it. -/
inductive Segment where
  /-- A task of a nested list; a `then` may come back to it. -/
  | list (nest : Nest) (index : Nat) (name : String) (visit : Nat)
  /-- A branch of a `fork`. -/
  | branch (index : Nat) (name : String)
  /-- The reusable function that a `call` names. -/
  | function (name : String)
  /-- The handler of a spent jump budget. -/
  | exceeded
deriving DecidableEq

namespace Nest

/-- What the reference of a nested list adds. -/
def spell : Nest → String
  | .do_ => "/do"
  | .iteration i => "[" ++ toString i ++ "]/do"
  | .attempt k => if k = 1 then "/try" else "/try[" ++ toString k ++ "]"
  | .catch_ => "/catch/do"
  | .foreach n => "/foreach/" ++ toString n ++ "/do"
  | .before index name => "/use/extensions/" ++ toString index ++ "/" ++ name ++ "/before"
  | .after index name => "/use/extensions/" ++ toString index ++ "/" ++ name ++ "/after"

end Nest

/-- The first visit of a task adds nothing to its reference. -/
def visitSuffix (visit : Nat) : String := if visit = 0 then "" else "[" ++ toString visit ++ "]"

/-- What the reference of a nested task adds. -/
def Segment.spell : Segment → String
  | .list nest index name visit =>
    nest.spell ++ "/" ++ toString index ++ "/" ++ name ++ visitSuffix visit
  | .branch index name => "/fork/branches/" ++ toString index ++ "/" ++ name
  | .function name => "/use/functions/" ++ name
  | .exceeded => "/limits/on_exceeded"

/-- The reference of the task that segments lead to, from the top of the definition. -/
def reference : List Segment → String
  | [] => ""
  | s :: l => s.spell ++ reference l

/-- The extension at a position, when it has the name and goes around the task. -/
def Workflow.extension (w : Workflow) (t : Task) (index : Nat) (name : String) : Option Extension :=
  (w.extensions[index]?).bind fun e => if e.1 = name ∧ e.2.extends t.kind then some e.2 else none

/-- The nested list of a task, when it has one of the kind. -/
def Task.nested (w : Workflow) (t : Task) : Nest → Option TaskList
  | .do_ => match t.kind with
    | .do_ tasks => some tasks
    | _ => none
  | .iteration _ => match t.kind with
    | .for_ _ _ _ tasks => some tasks
    | _ => none
  | .attempt k => match t.kind with
    | .try_ tasks _ => if k = 0 then none else some tasks
    | _ => none
  | .catch_ => match t.kind with
    | .try_ _ catch_ => catch_.tasks
    | _ => none
  | .foreach _ => match t.kind with
    | .listen (some f) => some f.tasks
    | _ => none
  | .before index name => (w.extension t index name).bind (·.before)
  | .after index name => (w.extension t index name).bind (·.after)

/-- The task at a position of a list, when it has the name. -/
def taskAt (tasks : TaskList) (index : Nat) (name : String) : Option Task :=
  (tasks[index]?).bind fun row => if row.1 = name then some row.2 else none

/-- The task a segment leads to from a task, when it leads anywhere. -/
def Segment.task (w : Workflow) (t : Task) : Segment → Option Task
  | .list nest index name _ => (t.nested w nest).bind fun tasks => taskAt tasks index name
  | .branch index name => match t.kind with
    | .fork branches _ => taskAt branches index name
    | _ => none
  | .function name => match t.kind with
    | .call call _ =>
      if functionName call = name then (w.functions.find? fun f => f.1 = name).map Prod.snd else none
    | _ => none
  | .exceeded => match w.onExceeded with
    | .task handler => some handler
    | _ => none

/-- The task that segments lead to from a task. -/
def Workflow.follow (w : Workflow) : Task → List Segment → Option Task
  | t, [] => some t
  | t, s :: l => (s.task w t).bind fun t' => w.follow t' l

/-- The top of a definition, as a task: its list is run like that of a `do`. -/
def Workflow.top (w : Workflow) : Task := { kind := .do_ w.tasks }

/-- The segments lead from the top of the definition to an invocation of a task. -/
structure Workflow.Invokes (w : Workflow) (l : List Segment) : Prop where
  starts : ∃ index name visit rest, l = .list .do_ index name visit :: rest
  leads : (w.follow w.top l).isSome

/-! ### Reading a segment -/

/-- What the letters after a task's reference say first. -/
inductive Construct where
  | do_ | for_ | try_ | catch_ | foreach | extension | branch | function | exceeded
deriving DecidableEq

/-- The letters that say it. -/
def Construct.tag : Construct → List Char
  | .do_ => ['/', 'd', 'o', '/']
  | .for_ => ['[']
  | .try_ => ['/', 't', 'r', 'y']
  | .catch_ => ['/', 'c', 'a', 't', 'c', 'h', '/', 'd', 'o', '/']
  | .foreach => ['/', 'f', 'o', 'r', 'e', 'a', 'c', 'h', '/']
  | .extension => ['/', 'u', 's', 'e', '/', 'e', 'x', 't', 'e', 'n', 's', 'i', 'o', 'n', 's', '/']
  | .branch => ['/', 'f', 'o', 'r', 'k', '/', 'b', 'r', 'a', 'n', 'c', 'h', 'e', 's', '/']
  | .function => ['/', 'u', 's', 'e', '/', 'f', 'u', 'n', 'c', 't', 'i', 'o', 'n', 's', '/']
  | .exceeded => ['/', 'l', 'i', 'm', 'i', 't', 's', '/', 'o', 'n', '_', 'e', 'x', 'c', 'e',
      'e', 'd', 'e', 'd']

theorem tag_prefix_free (c d : Construct) (h : c.tag <+: d.tag) : c = d := by
  cases c <;> cases d <;> first | rfl | exact absurd h (by decide)

/-- What the reference of a nested list says first. -/
def Nest.construct : Nest → Construct
  | .do_ => .do_
  | .iteration _ => .for_
  | .attempt _ => .try_
  | .catch_ => .catch_
  | .foreach _ => .foreach
  | .before _ _ | .after _ _ => .extension

/-- What a segment says first. -/
def Segment.construct : Segment → Construct
  | .list nest _ _ _ => nest.construct
  | .branch _ _ => .branch
  | .function _ => .function
  | .exceeded => .exceeded

/-- The letters of a position, a name and a visit. -/
def slotChars (index : Nat) (name : String) (visit : Nat) : List Char :=
  Nat.toDigits 10 index ++ '/' :: (name.toList ++ (visitSuffix visit).toList)

/-- What the reference of a nested list says after its tag, up to the slash before a position. -/
def Nest.rest : Nest → List Char
  | .do_ | .catch_ => []
  | .iteration i => Nat.toDigits 10 i ++ [']', '/', 'd', 'o', '/']
  | .attempt k => if k = 1 then ['/'] else '[' :: (Nat.toDigits 10 k ++ [']', '/'])
  | .foreach n => Nat.toDigits 10 n ++ ['/', 'd', 'o', '/']
  | .before e x => Nat.toDigits 10 e ++ '/' :: (x.toList ++ ['/', 'b', 'e', 'f', 'o', 'r', 'e', '/'])
  | .after e x => Nat.toDigits 10 e ++ '/' :: (x.toList ++ ['/', 'a', 'f', 't', 'e', 'r', '/'])

/-- What a segment says after its tag. -/
def Segment.rest : Segment → List Char
  | .list nest index name visit => nest.rest ++ slotChars index name visit
  | .branch index name => Nat.toDigits 10 index ++ '/' :: name.toList
  | .function name => name.toList
  | .exceeded => []

theorem toList_toString (n : Nat) : (toString n).toList = Nat.toDigits 10 n := Nat.toList_repr

/-- The reference of a nested list is its tag and the rest. -/
theorem Nest.spell_toList (nest : Nest) : nest.spell.toList ++ ['/'] = nest.construct.tag ++ nest.rest := by
  cases nest with
  | do_ => rfl
  | catch_ => rfl
  | attempt k =>
    unfold Nest.spell Nest.rest
    by_cases hk : k = 1
    · simp only [if_pos hk]
      rfl
    · simp only [if_neg hk, String.toList_append, toList_toString, List.append_assoc]
      rfl
  | iteration | foreach | before | after =>
    unfold Nest.spell Nest.rest
    simp only [String.toList_append, toList_toString, List.append_assoc]
    rfl

theorem Segment.list_toList (nest : Nest) (index : Nat) (name : String) (visit : Nat) :
    (Segment.list nest index name visit).spell.toList =
      nest.spell.toList ++ '/' :: slotChars index name visit := by
  unfold Segment.spell slotChars
  simp only [String.toList_append, toList_toString, List.append_assoc]
  rfl

/-- A segment is its tag and the rest. -/
theorem Segment.spell_toList (s : Segment) : s.spell.toList = s.construct.tag ++ s.rest := by
  cases s with
  | list nest index name visit =>
    have hnest := congrArg (· ++ slotChars index name visit) (Nest.spell_toList nest)
    simp only [List.append_assoc, List.singleton_append] at hnest
    exact (Segment.list_toList nest index name visit).trans hnest
  | branch =>
    unfold Segment.spell Segment.rest
    simp only [String.toList_append, toList_toString, List.append_assoc]
    rfl
  | function =>
    unfold Segment.spell Segment.rest
    simp only [String.toList_append]
    rfl
  | exceeded => rfl

/-! ### Two segments from one task -/

theorem visitSuffix_toList (visit : Nat) :
    (visitSuffix visit).toList = if visit = 0 then [] else '[' :: (Nat.toDigits 10 visit ++ [']']) := by
  unfold visitSuffix
  split
  · rfl
  · simp only [String.toList_append, toList_toString]
    rfl

theorem suffix_compare {u v : Nat} {x y : List Char}
    (h : (visitSuffix u).toList ++ x = (visitSuffix v).toList ++ y) :
    (u = v ∧ x = y) ∨ (u = 0 ∧ v ≠ 0 ∧ x = (visitSuffix v).toList ++ y) ∨
      (u ≠ 0 ∧ v = 0 ∧ y = (visitSuffix u).toList ++ x) := by
  by_cases hu : u = 0 <;> by_cases hv : v = 0
  · subst hu hv
    exact .inl ⟨rfl, List.append_cancel_left h⟩
  · subst hu
    exact .inr (.inl ⟨rfl, hv, h⟩)
  · subst hv
    exact .inr (.inr ⟨hu, rfl, h.symm⟩)
  · rw [visitSuffix_toList, visitSuffix_toList, if_neg hu, if_neg hv] at h
    simp only [List.cons_append, List.append_assoc] at h
    obtain ⟨huv, -, hxy⟩ := Words.digits_inj (by decide) (by decide) (List.cons.inj h).2
    exact .inl ⟨huv, hxy⟩

/-- The same position has the same name, so only the visits can differ. -/
theorem slot_compare {i j u v : Nat} {a b : String} {x y : List Char} (hname : i = j → a = b)
    (h : slotChars i a u ++ x = slotChars j b v ++ y) :
    i = j ∧ a = b ∧ (visitSuffix u).toList ++ x = (visitSuffix v).toList ++ y := by
  unfold slotChars at h
  simp only [List.append_assoc, List.cons_append] at h
  obtain ⟨hij, -, hrest⟩ := Words.digits_inj (by decide) (by decide) h
  obtain rfl := hname hij
  exact ⟨hij, rfl, List.append_cancel_left hrest⟩

variable {w : Workflow}

theorem extension_name {t : Task} {index : Nat} {a b : String} {e f : Extension}
    (he : w.extension t index a = some e) (hf : w.extension t index b = some f) : a = b := by
  obtain ⟨row, hrow, he⟩ := Option.bind_eq_some_iff.mp he
  obtain ⟨row', hrow', hf⟩ := Option.bind_eq_some_iff.mp hf
  obtain rfl := Option.some.inj (hrow.symm.trans hrow')
  split at he
  · next ha =>
    split at hf
    · next hb => exact ha.1.symm.trans hb.1
    · cases hf
  · cases he

theorem taskAt_name {tasks : TaskList} {index : Nat} {a b : String} {t u : Task}
    (ht : taskAt tasks index a = some t) (hu : taskAt tasks index b = some u) : a = b ∧ t = u := by
  obtain ⟨row, hrow, ht⟩ := Option.bind_eq_some_iff.mp ht
  obtain ⟨row', hrow', hu⟩ := Option.bind_eq_some_iff.mp hu
  obtain rfl := Option.some.inj (hrow.symm.trans hrow')
  split at ht
  · next ha =>
    split at hu
    · next hb => exact ⟨ha.symm.trans hb, Option.some.inj (ht.symm.trans hu)⟩
    · cases hu
  · cases ht

/-- A nested list is read off its letters. -/
theorem nest_compare {t : Task} {n m : Nest} {tasks tasks' : TaskList} {x y : List Char}
    (hn : t.nested w n = some tasks) (hm : t.nested w m = some tasks')
    (hc : n.construct = m.construct) (h : n.rest ++ x = m.rest ++ y) : n = m ∧ x = y := by
  -- The construct is the same; what is left is the letters after its tag.
  cases n with
  | do_ =>
    obtain rfl : m = .do_ := by cases m <;> first | rfl | exact Construct.noConfusion hc
    exact ⟨rfl, h⟩
  | catch_ =>
    obtain rfl : m = .catch_ := by cases m <;> first | rfl | exact Construct.noConfusion hc
    exact ⟨rfl, h⟩
  -- An iteration, by its number.
  | iteration k =>
    obtain ⟨l, rfl⟩ : ∃ l, m = .iteration l := by
      cases m <;> first | exact ⟨_, rfl⟩ | exact Construct.noConfusion hc
    unfold Nest.rest at h
    rw [List.append_assoc, List.append_assoc] at h
    obtain ⟨rfl, -, hrest⟩ := Words.digits_inj (by decide) (by decide) h
    exact ⟨rfl, List.append_cancel_left hrest⟩
  | foreach k =>
    obtain ⟨l, rfl⟩ : ∃ l, m = .foreach l := by
      cases m <;> first | exact ⟨_, rfl⟩ | exact Construct.noConfusion hc
    unfold Nest.rest at h
    rw [List.append_assoc, List.append_assoc] at h
    obtain ⟨rfl, -, hrest⟩ := Words.digits_inj (by decide) (by decide) h
    exact ⟨rfl, List.append_cancel_left hrest⟩
  -- An attempt, by its number; the first has none.
  | attempt k =>
    obtain ⟨l, rfl⟩ : ∃ l, m = .attempt l := by
      cases m <;> first | exact ⟨_, rfl⟩ | exact Construct.noConfusion hc
    unfold Nest.rest at h
    by_cases hk : k = 1 <;> by_cases hl : l = 1 <;>
      simp only [hk, hl, if_true, if_false, List.cons_append, List.append_assoc, List.cons.injEq,
        List.nil_append] at h
    · exact ⟨by rw [hk, hl], h.2⟩
    · exact absurd h.1 (by decide)
    · exact absurd h.1 (by decide)
    · obtain ⟨rfl, -, hrest⟩ := Words.digits_inj (by decide) (by decide) h.2
      exact ⟨rfl, (List.cons.inj hrest).2⟩
  -- A list of an extension, by its position, which decides the name.
  | before e c =>
    obtain ⟨f, hf, -⟩ := Option.bind_eq_some_iff.mp hn
    cases m with
    | before e' c' =>
      obtain ⟨f', hf', -⟩ := Option.bind_eq_some_iff.mp hm
      unfold Nest.rest at h
      simp only [List.append_assoc, List.cons_append] at h
      obtain ⟨rfl, -, hrest⟩ := Words.digits_inj (by decide) (by decide) h
      obtain rfl := extension_name hf hf'
      simpa using hrest
    | after e' c' =>
      obtain ⟨f', hf', -⟩ := Option.bind_eq_some_iff.mp hm
      unfold Nest.rest at h
      simp only [List.append_assoc, List.cons_append] at h
      obtain ⟨rfl, -, hrest⟩ := Words.digits_inj (by decide) (by decide) h
      obtain rfl := extension_name hf hf'
      simp at hrest
    | _ => exact Construct.noConfusion hc
  | after e c =>
    obtain ⟨f, hf, -⟩ := Option.bind_eq_some_iff.mp hn
    cases m with
    | after e' c' =>
      obtain ⟨f', hf', -⟩ := Option.bind_eq_some_iff.mp hm
      unfold Nest.rest at h
      simp only [List.append_assoc, List.cons_append] at h
      obtain ⟨rfl, -, hrest⟩ := Words.digits_inj (by decide) (by decide) h
      obtain rfl := extension_name hf hf'
      simpa using hrest
    | before e' c' =>
      obtain ⟨f', hf', -⟩ := Option.bind_eq_some_iff.mp hm
      unfold Nest.rest at h
      simp only [List.append_assoc, List.cons_append] at h
      obtain ⟨rfl, -, hrest⟩ := Words.digits_inj (by decide) (by decide) h
      obtain rfl := extension_name hf hf'
      simp at hrest
    | _ => exact Construct.noConfusion hc

theorem Segment.task_list {t t' : Task} {nest : Nest} {index visit : Nat} {name : String}
    (h : (Segment.list nest index name visit).task w t = some t') :
    ∃ tasks, t.nested w nest = some tasks ∧ taskAt tasks index name = some t' :=
  Option.bind_eq_some_iff.mp h

theorem Segment.task_branch {t t' : Task} {index : Nat} {name : String}
    (h : (Segment.branch index name).task w t = some t') :
    ∃ branches compete, t.kind = .fork branches compete ∧ taskAt branches index name = some t' := by
  cases hkind : t.kind with
  | fork branches compete =>
    simp only [Segment.task, hkind] at h
    exact ⟨branches, compete, rfl, h⟩
  | _ => simp [Segment.task, hkind] at h

theorem Segment.task_function {t t' : Task} {name : String}
    (h : (Segment.function name).task w t = some t') :
    ∃ call with_, t.kind = .call call with_ ∧ functionName call = name := by
  cases hkind : t.kind with
  | call call with_ =>
    by_cases hname : functionName call = name
    · exact ⟨call, with_, rfl, hname⟩
    · simp [Segment.task, hkind, hname] at h
  | _ => simp [Segment.task, hkind] at h

/-- What can follow the same task and begins the same letters is the same segment, but for the visit,
which what follows it may spell. -/
theorem segment_compare {t t₁ t₂ : Task} {s₁ s₂ : Segment} {x y : List Char}
    (h₁ : s₁.task w t = some t₁) (h₂ : s₂.task w t = some t₂)
    (h : s₁.spell.toList ++ x = s₂.spell.toList ++ y) :
    t₁ = t₂ ∧ (s₁ = s₂ ∧ x = y ∨
      (∃ nest index name visit, s₁ = .list nest index name 0 ∧ s₂ = .list nest index name visit ∧
        visit ≠ 0 ∧ x = (visitSuffix visit).toList ++ y) ∨
      ∃ nest index name visit, s₁ = .list nest index name visit ∧ s₂ = .list nest index name 0 ∧
        visit ≠ 0 ∧ y = (visitSuffix visit).toList ++ x) := by
  rw [Segment.spell_toList, Segment.spell_toList, List.append_assoc, List.append_assoc] at h
  obtain ⟨hc, hrest⟩ := Words.tag_inj tag_prefix_free h
  cases s₁ with
  -- a list of a task, by its nested list, its position and its visit
  | list n i a u =>
    cases s₂ with
    | list m j b v =>
      obtain ⟨tasks, hn, ht₁⟩ := Segment.task_list h₁
      obtain ⟨tasks', hm, ht₂⟩ := Segment.task_list h₂
      unfold Segment.rest at hrest
      rw [List.append_assoc, List.append_assoc] at hrest
      obtain ⟨rfl, hslot⟩ := nest_compare hn hm hc hrest
      obtain rfl := Option.some.inj (hn.symm.trans hm)
      obtain ⟨rfl, rfl, hsuffix⟩ :=
        slot_compare (fun hij => (taskAt_name (hij ▸ ht₁) ht₂).1) hslot
      refine ⟨(taskAt_name ht₁ ht₂).2, ?_⟩
      rcases suffix_compare hsuffix with ⟨rfl, hxy⟩ | ⟨rfl, hv, hx⟩ | ⟨hu, rfl, hy⟩
      · exact .inl ⟨rfl, hxy⟩
      · exact .inr (.inl ⟨n, i, a, v, rfl, rfl, hv, hx⟩)
      · exact .inr (.inr ⟨n, i, a, u, rfl, rfl, hu, hy⟩)
    | branch | function | exceeded => cases n <;> exact Construct.noConfusion hc
  -- a branch, by its position
  | branch i a =>
    cases s₂ with
    | branch j b =>
      obtain ⟨branches, compete, hkind, ht₁⟩ := Segment.task_branch h₁
      obtain ⟨branches', compete', hkind', ht₂⟩ := Segment.task_branch h₂
      rw [hkind] at hkind'
      cases hkind'
      unfold Segment.rest at hrest
      simp only [List.append_assoc, List.cons_append] at hrest
      obtain ⟨rfl, -, hrest⟩ := Words.digits_inj (by decide) (by decide) hrest
      obtain ⟨rfl, rfl⟩ := taskAt_name ht₁ ht₂
      exact ⟨rfl, .inl ⟨rfl, List.append_cancel_left hrest⟩⟩
    | list m => cases m <;> exact Construct.noConfusion hc
    | function | exceeded => exact Construct.noConfusion hc
  -- a function, which the task names
  | function a =>
    cases s₂ with
    | function b =>
      obtain ⟨call, with_, hkind, rfl⟩ := Segment.task_function h₁
      obtain ⟨call', with', hkind', rfl⟩ := Segment.task_function h₂
      rw [hkind] at hkind'
      cases hkind'
      exact ⟨Option.some.inj (h₁.symm.trans h₂), .inl ⟨rfl, List.append_cancel_left hrest⟩⟩
    | list m => cases m <;> exact Construct.noConfusion hc
    | branch | exceeded => exact Construct.noConfusion hc
  | exceeded =>
    cases s₂ with
    | exceeded => exact ⟨Option.some.inj (h₁.symm.trans h₂), .inl ⟨rfl, hrest⟩⟩
    | list m => cases m <;> exact Construct.noConfusion hc
    | branch | function => exact Construct.noConfusion hc

/-! ### Two references -/

theorem reference_append (l m : List Segment) : reference (l ++ m) = reference l ++ reference m := by
  induction l with
  | nil => simp [reference]
  | cons s l ih => rw [List.cons_append, reference, reference, ih, String.append_assoc]

theorem follow_cons {t : Task} {s : Segment} {l : List Segment} (h : (w.follow t (s :: l)).isSome) :
    ∃ t', s.task w t = some t' ∧ (w.follow t' l).isSome := by
  cases hs : s.task w t with
  | none => simp [Workflow.follow, hs] at h
  | some t' =>
    rw [Workflow.follow, hs, Option.bind_some] at h
    exact ⟨t', rfl, h⟩

theorem follow_append {t : Task} {l m : List Segment} :
    w.follow t (l ++ m) = (w.follow t l).bind fun t' => w.follow t' m := by
  induction l generalizing t with
  | nil => rfl
  | cons s l ih =>
    rw [List.cons_append, Workflow.follow, Workflow.follow, Option.bind_assoc]
    exact Option.bind_congr fun t' _ => ih

/-- The second reading of a reference: it is that of a later visit of a task, and the longer one goes
through the iteration of the first visit that has the visit's number. -/
def Mistaken (l m : List Segment) : Prop :=
  ∃ first nest index name visit index' name' visit' later, visit ≠ 0 ∧
    m = first ++ [.list nest index name visit] ∧
    l = first ++ .list nest index name 0 :: .list (.iteration visit) index' name' visit' :: later

/-- A `for` has no list of its own beside its iterations. -/
theorem nested_iteration {t : Task} {i : Nat} {tasks : TaskList}
    (h : t.nested w (.iteration i) = some tasks) : t.nested w .do_ = none := by
  cases hkind : t.kind with
  | for_ => simp [Task.nested, hkind]
  | _ => simp [Task.nested, hkind] at h

/-- What begins like a list of a `do` is one. -/
theorem do_compare {t t' : Task} {s : Segment} {x z : List Char} (hs : s.task w t = some t')
    (h : s.spell.toList ++ x = '/' :: 'd' :: 'o' :: '/' :: z) : t.nested w .do_ ≠ none := by
  rw [Segment.spell_toList, List.append_assoc] at h
  have hc : s.construct = .do_ := by
    refine (Words.tag_inj (c := s.construct) (d := .do_) (s := z) tag_prefix_free h).1
  cases s with
  | list nest index name visit =>
    cases nest with
    | do_ =>
      obtain ⟨tasks, hnested, -⟩ := Segment.task_list hs
      simp [hnested]
    | _ => exact Construct.noConfusion hc
  | _ => exact Construct.noConfusion hc

/-- What follows a task and begins with a bracket is an iteration. -/
theorem bracket_compare {t t' : Task} {s : Segment} {visit : Nat} {x y : List Char}
    (hs : s.task w t = some t') (h : s.spell.toList ++ x = (visitSuffix visit).toList ++ y)
    (hvisit : visit ≠ 0) : (∃ index name visit', s = .list (.iteration visit) index name visit') ∧
      (∃ z, y = '/' :: 'd' :: 'o' :: '/' :: z) ∧ t.nested w .do_ = none := by
  rw [visitSuffix_toList, if_neg hvisit, Segment.spell_toList, List.append_assoc] at h
  have hc : s.construct = .for_ ∧ s.rest ++ x = Nat.toDigits 10 visit ++ [']'] ++ y :=
    Words.tag_inj tag_prefix_free (d := .for_) h
  obtain ⟨hc, hrest⟩ := hc
  cases s with
  | list nest index name visit' =>
    cases nest with
    | iteration i =>
      obtain ⟨tasks, hnested, -⟩ := Segment.task_list hs
      simp only [Segment.rest, Nest.rest, List.append_assoc, List.cons_append, List.nil_append] at hrest
      obtain ⟨rfl, -, hy⟩ := Words.digits_inj (by decide) (by decide) hrest
      exact ⟨⟨index, name, visit', rfl⟩, ⟨_, hy.symm⟩, nested_iteration hnested⟩
    | _ => exact Construct.noConfusion hc
  | _ => exact Construct.noConfusion hc

/-- A reference that goes on as another one, whole or up to a slash, is that of a task nested in the
other's, unless the other is that of a later visit and misread. -/
theorem compare_references {t : Task} {l m : List Segment} {x : List Char}
    (hl : (w.follow t l).isSome) (hm : (w.follow t m).isSome)
    (h : (reference l).toList = (reference m).toList ++ x) (hx : ∀ c z, x = c :: z → c = '/') :
    (∃ later, l = m ++ later ∧ x = (reference later).toList) ∨ Mistaken l m ∧ x ≠ [] := by
  -- Induction on the shorter reference, segment by segment.
  induction m generalizing t l with
  | nil =>
    rw [reference, String.toList_empty, List.nil_append] at h
    exact .inl ⟨l, rfl, h.symm⟩
  -- What the first segments share decides which of three cases it is.
  | cons s₂ m ih =>
    obtain ⟨t₂, hs₂, hm₂⟩ := follow_cons hm
    cases l with
    | nil =>
      -- the empty reference goes on as no other
      have hempty : (reference []).toList = [] := rfl
      rw [hempty, reference, String.toList_append, Segment.spell_toList] at h
      cases hc : s₂.construct <;> simp [hc, Construct.tag] at h
    | cons s₁ l =>
      obtain ⟨t₁, hs₁, hl₁⟩ := follow_cons hl
      rw [reference, reference, String.toList_append, String.toList_append, List.append_assoc] at h
      obtain ⟨rfl, ⟨rfl, hrest⟩ | ⟨nest, index, name, visit, rfl, rfl, hvisit, hrest⟩ |
        ⟨nest, index, name, visit, rfl, rfl, hvisit, hrest⟩⟩ := segment_compare hs₁ hs₂ h
      -- The same segment, and the rest goes on alike.
      · rcases ih hl₁ hm₂ hrest with ⟨later, rfl, hlater⟩ | ⟨hmis, hne⟩
        · exact .inl ⟨later, rfl, hlater⟩
        · obtain ⟨first, nest, index, name, visit, index', name', visit', later, hvisit, rfl, rfl⟩ := hmis
          exact .inr ⟨⟨s₁ :: first, nest, index, name, visit, index', name', visit', later, hvisit, rfl,
            rfl⟩, hne⟩
      · -- the shorter reference is that of a later visit
        cases l with
        | nil =>
          rw [visitSuffix_toList, if_neg hvisit] at hrest
          cases hrest
        | cons s l =>
          obtain ⟨t', hnext, -⟩ := follow_cons hl₁
          rw [reference, String.toList_append] at hrest
          obtain ⟨⟨index', name', visit', rfl⟩, ⟨z, hz⟩, hnested⟩ := bracket_compare hnext hrest hvisit
          cases m with
          | nil =>
            refine .inr ⟨⟨[], nest, index, name, visit, index', name', visit', l, hvisit, rfl, rfl⟩, ?_⟩
            rintro rfl
            cases hz
          | cons s' m =>
            obtain ⟨t'', hnext', -⟩ := follow_cons hm₂
            rw [reference, String.toList_append, List.append_assoc] at hz
            exact absurd hnested (do_compare hnext' hz)
      · -- the longer one is
        cases m with
        | nil =>
          rw [visitSuffix_toList, if_neg hvisit] at hrest
          exact absurd (hx _ _ hrest) (by decide)
        | cons s m =>
          obtain ⟨t', hnext, -⟩ := follow_cons hm₂
          rw [reference, String.toList_append, List.append_assoc] at hrest
          obtain ⟨-, ⟨z, hz⟩, hnested⟩ := bracket_compare hnext hrest hvisit
          cases l with
          | nil => cases hz
          | cons s' l =>
            obtain ⟨t'', hnext', -⟩ := follow_cons hl₁
            rw [reference, String.toList_append] at hz
            exact absurd hnested (do_compare hnext' hz)

/-- A reference is misread only when its task is a `for`. -/
theorem Mistaken.iterates {t u : Task} {l m : List Segment} (h : Mistaken l m)
    (hl : (w.follow t l).isSome) (hm : w.follow t m = some u) :
    ∃ visit tasks, u.nested w (.iteration visit) = some tasks := by
  obtain ⟨first, nest, index, name, visit, index', name', visit', later, -, rfl, rfl⟩ := h
  rw [follow_append] at hl hm
  cases hfirst : w.follow t first with
  | none => simp [hfirst] at hm
  | some t₀ =>
    rw [hfirst, Option.bind_some] at hl hm
    obtain ⟨t₁, hs₁, hl⟩ := follow_cons hl
    obtain ⟨t₂, hs₂, -⟩ := follow_cons hl
    -- the visit does not change which task it is
    have hu : u = t₁ := by
      rw [Workflow.follow, show Segment.task w t₀ (.list nest index name visit) = some t₁ from hs₁] at hm
      exact (Option.some.inj hm).symm
    obtain ⟨tasks, hnested, -⟩ := Segment.task_list hs₂
    exact ⟨visit, tasks, hu ▸ hnested⟩

/-- No two invocations share a reference. -/
theorem reference_injective {t : Task} {l m : List Segment} (hl : (w.follow t l).isSome)
    (hm : (w.follow t m).isSome) (h : reference l = reference m) : l = m := by
  have hnil : ∀ c z, ([] : List Char) = c :: z → c = '/' := fun _ _ hz => by cases hz
  rcases compare_references hl hm (by rw [h, List.append_nil]) hnil with ⟨later, rfl, -⟩ | ⟨-, hne⟩
  · rcases compare_references hm hl (by rw [h, List.append_nil]) hnil with ⟨more, heq, -⟩ | ⟨-, hne⟩
    · have hlength := congrArg List.length heq
      simp only [List.length_append] at hlength
      rw [List.length_eq_zero_iff.mp (by omega : later.length = 0), List.append_nil]
    · exact absurd rfl hne
  · exact absurd rfl hne

/-! ### Around an invocation -/

theorem reference_cut (first later : List Segment) (nest : Nest) (index visit : Nat) (name : String) :
    (reference (first ++ .list nest index name visit :: later)).toList =
      (reference first ++ nest.spell).toList ++
        '/' :: (slotChars index name visit ++ (reference later).toList) := by
  rw [reference_append, reference, String.toList_append, String.toList_append, Segment.list_toList,
    String.toList_append]
  simp only [List.append_assoc, List.cons_append]

/-- A misread reference goes on like the list of a `do`. -/
theorem Mistaken.reference {l m : List Segment} (h : Mistaken l m) :
    ∃ z, (reference l).toList = (reference m).toList ++ '/' :: 'd' :: 'o' :: '/' :: z := by
  obtain ⟨first, nest, index, name, visit, index', name', visit', later, hvisit, rfl, rfl⟩ := h
  refine ⟨slotChars index' name' visit' ++ (Ows.reference later).toList, ?_⟩
  have hfirst : (visitSuffix 0).toList = [] := rfl
  have hiteration : (Nest.iteration visit).spell.toList =
      (visitSuffix visit).toList ++ ['/', 'd', 'o'] := by
    rw [visitSuffix_toList, if_neg hvisit]
    unfold Nest.spell
    simp only [String.toList_append, toList_toString, List.append_assoc, List.cons_append]
    rfl
  have hlater : (Ows.reference (.list (.iteration visit) index' name' visit' :: later)).toList =
      (visitSuffix visit).toList ++ '/' :: 'd' :: 'o' :: '/' ::
        (slotChars index' name' visit' ++ (Ows.reference later).toList) := by
    have hcut := reference_cut [] later (.iteration visit) index' visit' name'
    rw [List.nil_append, String.toList_append, hiteration] at hcut
    simpa [Ows.reference] using hcut
  have hempty : (Ows.reference []).toList = [] := rfl
  rw [reference_cut, reference_cut, hlater, hempty]
  simp only [slotChars, hfirst, List.append_nil, List.append_assoc, List.cons_append]

theorem slash_of_nest {nest : Nest} (hfor : nest.construct ≠ .for_) :
    ∃ c z, nest.construct.tag ++ nest.rest = '/' :: c :: z := by
  cases nest with
  | iteration => exact absurd rfl hfor
  | _ => exact ⟨_, _, rfl⟩

/-- A reference that begins with that of a nested list, other than an iteration, goes through the list. -/
theorem nest_around {t t' : Task} {l first : List Segment} {nest : Nest} {tasks : TaskList} {z : List Char}
    (hl : (w.follow t l).isSome) (hfirst : w.follow t first = some t')
    (hnested : t'.nested w nest = some tasks) (hfor : nest.construct ≠ .for_)
    (h : (reference l).toList ++ ['/'] = (reference first ++ nest.spell).toList ++ '/' :: z) :
    ∃ index name visit later, l = first ++ .list nest index name visit :: later := by
  -- what the reference says after that of the task
  have hspell : nest.spell.toList ++ '/' :: z = nest.construct.tag ++ (nest.rest ++ z) := by
    rw [← List.append_assoc, ← Nest.spell_toList, List.append_assoc, List.singleton_append]
  rw [String.toList_append, List.append_assoc, hspell] at h
  obtain ⟨c, z', hz'⟩ := slash_of_nest hfor
  have hspell' : nest.construct.tag ++ (nest.rest ++ z) = '/' :: c :: (z' ++ z) := by
    rw [← List.append_assoc, hz']
    rfl
  -- the reference of the task is the shorter of the two initial parts
  obtain ⟨x, hx⟩ : (reference first).toList <+: (reference l).toList := by
    refine List.prefix_of_prefix_length_le ⟨_, h.symm⟩ (List.prefix_append _ _) ?_
    have hlength := congrArg List.length h
    rw [hspell'] at hlength
    simp only [List.length_append, List.length_cons, List.length_nil] at hlength
    omega
  rw [← hx, List.append_assoc] at h
  have hrest := List.append_cancel_left h
  -- what goes on after it begins with a slash
  have hslash : ∀ c y, x = c :: y → c = '/' := by
    rintro c y rfl
    rw [hspell'] at hrest
    exact (List.cons.inj hrest).1
  -- So the invocation goes on from the task, and its next segment is this nested list.
  rcases compare_references hl (by rw [hfirst]; rfl) hx.symm hslash with ⟨later, rfl, rfl⟩ | ⟨hmis, -⟩
  · rw [follow_append, hfirst, Option.bind_some] at hl
    cases later with
    | nil =>
      rw [hspell'] at hrest
      cases hrest
    | cons s later =>
      obtain ⟨t'', hs, -⟩ := follow_cons hl
      rw [reference, String.toList_append, Segment.spell_toList] at hrest
      simp only [List.append_assoc] at hrest
      obtain ⟨hc, hrest⟩ := Words.tag_inj tag_prefix_free hrest
      cases s with
      | list nest' index name visit =>
        obtain ⟨tasks', hnested', -⟩ := Segment.task_list hs
        unfold Segment.rest at hrest
        rw [List.append_assoc] at hrest
        obtain ⟨rfl, -⟩ := nest_compare hnested' hnested hc hrest
        exact ⟨index, name, visit, later, rfl⟩
      | branch | function | exceeded => cases nest <;> exact Construct.noConfusion hc
  · -- a `for` has no list whose reference goes on like that of a `do`
    obtain ⟨y, hy⟩ := hmis.reference
    obtain ⟨visit, tasks', hiterates⟩ := hmis.iterates hl hfirst
    rw [← hx] at hy
    rw [List.append_cancel_left hy] at hrest
    have hc : nest.construct = .do_ := by
      have htag : Construct.do_.tag ++ (y ++ ['/']) = nest.construct.tag ++ (nest.rest ++ z) := hrest
      exact (Words.tag_inj tag_prefix_free htag).1.symm
    have hdo : nest = .do_ := by cases nest <;> first | rfl | exact Construct.noConfusion hc
    rw [hdo, nested_iteration hiterates] at hnested
    cases hnested

end Ouro.Ows
