import Ouro.Durable.Forest

/-!
# Armings, breaker observations and promotions

What the transactions that maintain triggers, buffered slots and definitions do to their rows, said
once for each: an arming (`arm_ok`), a terminal observation of the breaker (`breaker_ok`), a refused
run (`refuse_ok`), a run bound to its trigger (`admitFiring_ok`) and the promotion of a slot
(`promote_ok`). The invariants of the catalog are derived from these.
-/

namespace Ouro

open Lib Engine Tx

variable {env : Env} {now : Int}

/-! ### Rows of the catalog -/

/-- The rows of triggers, slots, definitions, markers and notices are as they were. -/
structure SamePlan (σ σ' : Rows) : Prop where
  trigger : σ'.trigger = σ.trigger
  queue : σ'.triggerQueue = σ.triggerQueue
  name : σ'.queueName = σ.queueName
  definitions : σ'.definitions = σ.definitions
  paused : σ'.paused = σ.paused
  marker : σ'.controlDrain = σ.controlDrain
  stopped : σ'.stopped = σ.stopped
  notice : σ'.notice = σ.notice

instance : RunFrame SamePlan where
  refl _ := ⟨rfl, rfl, rfl, rfl, rfl, rfl, rfl, rfl⟩
  trans _ _ _ h h' := ⟨h'.trigger.trans h.trigger, h'.queue.trans h.queue, h'.name.trans h.name,
    h'.definitions.trans h.definitions, h'.paused.trans h.paused, h'.marker.trans h.marker,
    h'.stopped.trans h.stopped, h'.notice.trans h.notice⟩
  core _ _ _ := ⟨rfl, rfl, rfl, rfl, rfl, rfl, rfl, rfl⟩

/-- What an arming leaves alone: the runs, the definitions, the slots kept aside by a pause, the
markers, the stop and the notices. -/
structure Unarming (σ σ' : Rows) : Prop where
  core : σ'.toCore = σ.toCore
  index : σ'.index = σ.index
  definitions : σ'.definitions = σ.definitions
  paused : σ'.paused = σ.paused
  marker : σ'.controlDrain = σ.controlDrain
  stopped : σ'.stopped = σ.stopped
  notice : σ'.notice = σ.notice

theorem Unarming.refl (σ : Rows) : Unarming σ σ := ⟨rfl, rfl, rfl, rfl, rfl, rfl, rfl⟩

theorem Unarming.trans {σ σ' σ'' : Rows} (h : Unarming σ σ') (h' : Unarming σ' σ'') :
    Unarming σ σ'' :=
  ⟨h'.core.trans h.core, h'.index.trans h.index, h'.definitions.trans h.definitions,
    h'.paused.trans h.paused, h'.marker.trans h.marker, h'.stopped.trans h.stopped,
    h'.notice.trans h.notice⟩

/-- The definition a buffered slot of `key` is for. -/
def slotName (σ : Rows) (key : String) : Option String :=
  (σ.triggerQueue.get key).map (·.admission.name)

/-- The slots of `keys` are gone, each with the row that lists it under its definition. -/
structure Emptied (keys : List String) (σ σ' : Rows) : Prop extends Unarming σ σ' where
  queue : ∀ k, σ'.triggerQueue.get k = if k ∈ keys then none else σ.triggerQueue.get k
  name : ∀ n k, (σ'.queueName n).get k =
    if k ∈ keys ∧ slotName σ k = some n then none else (σ.queueName n).get k

theorem Emptied.refl (σ : Rows) : Emptied [] σ σ where
  toUnarming := .refl σ
  queue k := by simp
  name n k := by simp

theorem Emptied.slotName {keys : List String} {σ σ' : Rows} (h : Emptied keys σ σ') (k : String) :
    Ouro.slotName σ' k = if k ∈ keys then none else Ouro.slotName σ k := by
  unfold Ouro.slotName
  rw [h.queue]
  split <;> rfl

/-- Slots only go. -/
theorem Emptied.kept {keys : List String} {σ σ' : Rows} (h : Emptied keys σ σ') {k : String}
    {q : Queued} (hq : σ'.triggerQueue.get k = some q) : σ.triggerQueue.get k = some q := by
  rw [h.queue] at hq
  split at hq
  · simp at hq
  · exact hq

theorem Emptied.trans {keys keys' : List String} {σ σ' σ'' : Rows} (h : Emptied keys σ σ')
    (h' : Emptied keys' σ' σ'') : Emptied (keys ++ keys') σ σ'' where
  toUnarming := h.toUnarming.trans h'.toUnarming
  queue k := by
    rw [h'.queue, h.queue]
    by_cases hk : k ∈ keys <;> by_cases hk' : k ∈ keys' <;> simp [hk, hk']
  name n k := by
    rw [h'.name, h.name, h.slotName]
    by_cases hk : k ∈ keys <;> by_cases hk' : k ∈ keys' <;> simp [hk, hk']

namespace Engine

theorem removeQueue_ok {key : String} {σ σ' : Rows} {u : Unit}
    (h : removeQueue key σ = .ok (u, σ')) : Emptied [key] σ σ' ∧ σ'.trigger = σ.trigger := by
  cases hq : σ.triggerQueue.get key with
  -- no slot waits under the key, so the row is that of before
  | none =>
    obtain rfl : σ' = σ := by simpa [removeQueue, hq] using h
    refine ⟨⟨.refl _, fun k => ?_, fun n k => ?_⟩, rfl⟩
    · split
      · next hmem => rw [List.mem_singleton.mp hmem, hq]
      · rfl
    · split
      · next hmem =>
        rw [List.mem_singleton.mp hmem.1] at hmem
        simp [slotName, hq] at hmem
      · rfl
  -- the slot and its name go together
  | some q =>
    obtain rfl : σ' = { σ with
        triggerQueue := σ.triggerQueue.delete key
        queueName := Table.deleteAt σ.queueName q.admission.name key } := by
      simpa [removeQueue, hq] using h
    refine ⟨⟨⟨rfl, rfl, rfl, rfl, rfl, rfl, rfl⟩, fun k => ?_, fun n k => ?_⟩, rfl⟩
    · simp only [Table.get_delete, List.mem_singleton, eq_comm]
    · rw [Table.get_deleteAt]
      by_cases hk : k = key
      · subst hk
        simp [slotName, hq, eq_comm]
      · simp [hk, Ne.symm hk]

theorem removeQueues_ok {keys : List String} {σ σ' : Rows} {u : Unit}
    (h : Tx.each removeQueue keys σ = .ok (u, σ')) : Emptied keys σ σ' ∧ σ'.trigger = σ.trigger := by
  induction keys generalizing σ with
  | nil =>
    obtain ⟨-, rfl⟩ := pure_ok.mp h
    exact ⟨.refl _, rfl⟩
  | cons k keys ih =>
    obtain ⟨u₁, σ₁, h₁, h₂⟩ := bind_ok.mp h
    obtain ⟨hk, ht₁⟩ := removeQueue_ok h₁
    obtain ⟨hrest, ht₂⟩ := ih h₂
    exact ⟨hk.trans hrest, ht₂.trans ht₁⟩

/-! ### Triggers -/

theorem get_storeTrigger {key : String} {before after : Option Trigger} {σ σ' : Rows} {u : Unit}
    (hbefore : before = σ.trigger.get key) (h : storeTrigger key before after σ = .ok (u, σ'))
    (k : String) : σ'.trigger.get k = if k = key then after else σ.trigger.get k := by
  obtain rfl := write_ok.mp h
  simp only
  cases after with
  | some t => simp [Table.get_put, eq_comm]
  | none =>
    simp only
    split
    · simp [Table.get_delete, eq_comm]
    · next hnone =>
      split
      · next hk => rw [hk, ← hbefore]; simpa using hnone
      · rfl

/-- The slots stay with their listings. -/
structure SameQueues (σ σ' : Rows) : Prop extends Unarming σ σ' where
  queue : σ'.triggerQueue = σ.triggerQueue
  name : σ'.queueName = σ.queueName

theorem SameQueues.refl (σ : Rows) : SameQueues σ σ := ⟨.refl σ, rfl, rfl⟩

theorem SameQueues.trans {σ σ' σ'' : Rows} (h : SameQueues σ σ') (h' : SameQueues σ' σ'') :
    SameQueues σ σ'' :=
  ⟨h.toUnarming.trans h'.toUnarming, h'.queue.trans h.queue, h'.name.trans h.name⟩

theorem replaceTrigger_ok {key : String} {after : Option Trigger} {σ σ' : Rows} {u : Unit}
    (h : replaceTrigger key after σ = .ok (u, σ')) :
    SameQueues σ σ' ∧
      ∀ k, σ'.trigger.get k = if k = key then after else σ.trigger.get k := by
  obtain ⟨current, σ₁, hread, h⟩ := bind_ok.mp h
  obtain ⟨rfl, rfl⟩ := read_ok.mp hread
  refine ⟨?_, get_storeTrigger rfl h⟩
  obtain rfl := write_ok.mp h
  exact ⟨⟨rfl, rfl, rfl, rfl, rfl, rfl, rfl⟩, rfl, rfl⟩

/-- Triggers written in turn, each as `target` has it. -/
theorem replaceTriggers_ok {α : Type} {key : α → String} {after : α → Option Trigger}
    (target : String → Option Trigger) {l : List α} {σ σ' : Rows} {u : Unit}
    (htarget : ∀ a ∈ l, after a = target (key a))
    (h : Tx.each (fun a => replaceTrigger (key a) (after a)) l σ = .ok (u, σ')) :
    SameQueues σ σ' ∧
      ∀ k, σ'.trigger.get k = if k ∈ l.map key then target k else σ.trigger.get k := by
  induction l generalizing σ with
  | nil =>
    obtain ⟨-, rfl⟩ := pure_ok.mp h
    exact ⟨.refl _, fun k => by simp⟩
  -- the first is written, and may be written again
  | cons a l ih =>
    obtain ⟨u₁, σ₁, h₁, h₂⟩ := bind_ok.mp h
    obtain ⟨hsame₁, hget₁⟩ := replaceTrigger_ok h₁
    obtain ⟨hsame₂, hget₂⟩ := ih (fun b hb => htarget b (List.mem_cons_of_mem _ hb)) h₂
    refine ⟨hsame₁.trans hsame₂, fun k => ?_⟩
    rw [hget₂, hget₁, htarget a List.mem_cons_self]
    by_cases hl : k ∈ l.map key
    · simp only [hl, List.map_cons, List.mem_cons, or_true, if_true]
    · by_cases hk : k = key a
      · simp [hk]
      · simp only [hl, hk, List.map_cons, List.mem_cons, or_false, if_false]

end Engine

/-! ### Armings -/

/-- The triggers of `keys` gave way to `wanted`, and their slots are gone. -/
structure Rearmed (keys : List String) (wanted : Table String Trigger) (σ σ' : Rows) : Prop
    extends Emptied keys σ σ' where
  trigger : ∀ k, σ'.trigger.get k =
    (wanted.get k).or (if k ∈ keys then none else σ.trigger.get k)

namespace Engine

theorem arm_ok {defs defs' : Definitions} {wanted : Table String Trigger} {σ σ' : Rows}
    (h : arm defs wanted σ = .ok (defs', σ')) :
    defs' = { defs with triggers := wanted.keys } ∧ Rearmed defs.triggers wanted σ σ' := by
  simp only [arm, bind_ok, pure_ok] at h
  -- queues go, then the triggers that are not wanted, then the wanted ones come
  obtain ⟨u₁, σ₁, hremove, u₂, σ₂, hdrop, u₃, σ₃, hput, rfl, rfl⟩ := h
  obtain ⟨hempty, htrigger⟩ := removeQueues_ok hremove
  obtain ⟨hsame₂, hget₂⟩ := replaceTriggers_ok (fun _ => none) (fun _ _ => rfl) hdrop
  obtain ⟨hsame₃, hget₃⟩ := replaceTriggers_ok wanted.get
    (fun row hrow => ((Table.mem_rows wanted).mp hrow).symm) hput
  have hsame := hsame₂.trans hsame₃
  refine ⟨rfl, ⟨⟨hempty.toUnarming.trans hsame.toUnarming, fun k => ?_, fun n k => ?_⟩, fun k => ?_⟩⟩
  · rw [hsame.queue]
    exact hempty.queue k
  · rw [hsame.name]
    exact hempty.name n k
  · rw [hget₃, hget₂, htrigger]
    have hmem : k ∈ wanted.rows.map Prod.fst ↔ ∃ t, wanted.get k = some t := Table.mem_keys wanted
    -- a wanted trigger was put last; another one was dropped, or never armed
    cases hk : wanted.get k with
    | some t =>
      rw [if_pos (hmem.mpr ⟨t, hk⟩)]
      rfl
    | none =>
      have hout : ¬k ∈ wanted.rows.map Prod.fst := by
        rw [hmem, hk]
        simp
      rw [if_neg hout]
      simp [Table.contains, hk]

end Engine

/-! ### The breaker -/

/-- The breaker of a definition counts the run: it was admitted at the active version in the current
epoch, and nothing tripped the definition. -/
structure Definitions.Counts (defs : Definitions) (r : SavedRun) : Prop where
  active : defs.active = some r.admission.version
  epoch : r.epoch = some defs.epoch
  untripped : defs.tripped = none

/-- The faults that trip a version, given the host's default. -/
def Definitions.threshold (defs : Definitions) (version default : Nat) : Option Nat :=
  Breaker.effective (((defs.versions.get version).map Definition.breaker).getD .inherit) default

/-- The definition after one more fault. -/
def Definitions.faulted (defs : Definitions) : Definitions :=
  { defs with consecutiveFaults := min (defs.consecutiveFaults + 1) u32Max }

/-- The trip of a definition at the fault of a run. -/
def Definitions.trip (defs : Definitions) (r : SavedRun) (reason : WorkflowError) (threshold : Nat)
    (now : Int) : Trip :=
  { manual := none, breaker := true, version := r.admission.version
    digest := versionDigest defs r.admission.version, epoch := defs.epoch
    faults := defs.faulted.consecutiveFaults, threshold, run := r.admission.id, reason, atMs := now }

/-- What the breaker does at the terminal outcome of a run. -/
inductive Observes (env : Env) (r : SavedRun) (fault : Option WorkflowError) (success : Bool)
    (default : Nat) (now : Int) (σ : Rows) : Rows → Prop
  /-- The run does not count, or its outcome changes nothing. -/
  | nothing (h : ∀ defs, σ.definitions.get r.admission.name = some defs → defs.Counts r →
      fault = none ∧ (success = true → defs.consecutiveFaults = 0)) : Observes env r fault success
        default now σ σ
  | reset (defs : Definitions) (hdefs : σ.definitions.get r.admission.name = some defs)
      (hcounts : defs.Counts r) (hfault : fault = none) (hsuccess : success = true) :
      Observes env r fault success default now σ
        { σ with
          definitions := σ.definitions.put r.admission.name { defs with consecutiveFaults := 0 } }
  | counted (defs : Definitions) (reason : WorkflowError)
      (hdefs : σ.definitions.get r.admission.name = some defs) (hcounts : defs.Counts r)
      (hfault : fault = some reason)
      (hbelow : ∀ threshold, defs.threshold r.admission.version default = some threshold →
        defs.faulted.consecutiveFaults < threshold) :
      Observes env r fault success default now σ
        { σ with definitions := σ.definitions.put r.admission.name defs.faulted }
  /-- The fault reached the threshold. -/
  | tripped (defs : Definitions) (reason : WorkflowError) (threshold : Nat) (σ₁ : Rows)
      (hdefs : σ.definitions.get r.admission.name = some defs) (hcounts : defs.Counts r)
      (hfault : fault = some reason)
      (hthreshold : defs.threshold r.admission.version default = some threshold)
      (hreached : threshold ≤ defs.faulted.consecutiveFaults)
      (harm : Rearmed defs.triggers .empty σ σ₁) :
      Observes env r fault success default now σ
        { σ₁ with
          notice := σ₁.notice.put (noticeKey r.admission.name (defs.trip r reason threshold now))
            (tripEvent env (defs.trip r reason threshold now) r.admission.name)
          definitions := σ₁.definitions.put r.admission.name
            { defs.faulted with
              triggers := [], tripped := some (defs.trip r reason threshold now) } }

namespace Engine

theorem storeDefinitions_ok {name : String} {defs : Definitions} {σ σ' : Rows} {u : Unit}
    (h : storeDefinitions name defs σ = .ok (u, σ')) :
    σ' = { σ with definitions := σ.definitions.put name defs } :=
  write_ok.mp h

theorem countFault_ok {r : SavedRun} {reason : WorkflowError} {default : Nat} {success : Bool}
    {defs : Definitions} {σ σ' : Rows} {u : Unit}
    (hdefs : σ.definitions.get r.admission.name = some defs) (hcounts : defs.Counts r)
    (h : countFault env r reason default now defs σ = .ok (u, σ')) :
    Observes env r (some reason) success default now σ σ' := by
  unfold countFault at h
  simp only at h
  -- a breaker that is off only counts
  cases hthreshold : defs.threshold r.admission.version default with
  | none =>
    rw [Definitions.threshold] at hthreshold
    simp only [hthreshold] at h
    rw [storeDefinitions_ok h]
    exact .counted defs reason hdefs hcounts rfl (by simp [Definitions.threshold, hthreshold])
  | some threshold =>
    have heffective := hthreshold
    rw [Definitions.threshold] at heffective
    simp only [heffective] at h
    split at h
    -- the threshold is reached, and the triggers are taken away
    · next hreached =>
      simp only [bind_ok, write_ok] at h
      obtain ⟨defs', σ₁, harm, u, σ₂, rfl, h⟩ := h
      obtain ⟨rfl, harmed⟩ := arm_ok harm
      rw [storeDefinitions_ok h]
      exact .tripped defs reason threshold σ₁ hdefs hcounts rfl hthreshold hreached harmed
    -- below it the failure is counted
    · next hbelow =>
      rw [storeDefinitions_ok h]
      refine .counted defs reason hdefs hcounts rfl fun threshold' hthreshold' => ?_
      rw [hthreshold, Option.some.injEq] at hthreshold'
      rw [← hthreshold']
      exact Nat.lt_of_not_le hbelow

/-- The breaker observes a terminal outcome. -/
theorem breaker_ok {r : SavedRun} {fault : Option WorkflowError} {success : Bool} {default : Nat}
    {σ σ' : Rows} {u : Unit} (h : breaker env r fault success default now σ = .ok (u, σ')) :
    Observes env r fault success default now σ σ' := by
  simp only [breaker, bind_ok, read_ok] at h
  obtain ⟨found, σ₁, ⟨hfound, rfl⟩, h⟩ := h
  -- a name without definitions is not observed
  cases found with
  | none =>
    obtain ⟨-, rfl⟩ := pure_ok.mp h
    exact .nothing fun defs hdefs => by rw [← hfound] at hdefs; simp at hdefs
  -- the outcome counts when the definition is active and untripped, in the epoch of the run
  | some defs =>
    simp only at h
    split at h
    · next hnot =>
      obtain ⟨-, rfl⟩ := pure_ok.mp h
      refine .nothing fun defs' hdefs hcounts => absurd hnot ?_
      rw [← hfound, Option.some.injEq] at hdefs
      subst hdefs
      simp [hcounts.active, hcounts.epoch, hcounts.untripped]
    · next hcounted =>
      simp only [not_or, not_not, Bool.not_eq_true, Option.isSome_eq_false_iff,
        Option.isNone_iff_eq_none] at hcounted
      have hcounts : defs.Counts r := ⟨hcounted.1, hcounted.2.1, hcounted.2.2⟩
      -- a fault is counted; a success starts the count again
      cases fault with
      | some reason => exact countFault_ok hfound.symm hcounts h
      | none =>
        simp only at h
        split at h
        · next hsuccess =>
          rw [storeDefinitions_ok h]
          exact .reset defs hfound.symm hcounts rfl (by simpa using (Bool.and_eq_true_iff.mp hsuccess).1)
        -- any other outcome changes nothing
        · next hidle =>
          obtain ⟨-, rfl⟩ := pure_ok.mp h
          refine .nothing fun defs' hdefs _ => ⟨rfl, fun hsuccess => ?_⟩
          rw [← hfound, Option.some.injEq] at hdefs
          subst hdefs
          simpa [hsuccess] using hidle

end Engine

section Observations

variable {r : SavedRun} {fault : Option WorkflowError} {success : Bool} {default : Nat} {σ σ' : Rows}

theorem Observes.core (h : Observes env r fault success default now σ σ') :
    σ'.toCore = σ.toCore ∧ σ'.index = σ.index := by
  cases h with
  | tripped defs reason threshold σ₁ hdefs hcounts hfault hthreshold hreached harm =>
    exact ⟨harm.core, harm.index⟩
  | _ => exact ⟨rfl, rfl⟩

/-- Slots only go. -/
theorem Observes.queue (h : Observes env r fault success default now σ σ') {k : String} {q : Queued}
    (hq : σ'.triggerQueue.get k = some q) : σ.triggerQueue.get k = some q := by
  cases h with
  | tripped defs reason threshold σ₁ hdefs hcounts hfault hthreshold hreached harm =>
    exact harm.kept hq
  | _ => exact hq

end Observations

/-! ### Admissions -/

/-- The row a new run starts with, as the definitions stand. -/
def newborn (σ : Rows) (a : Admission) (now : Int) : StoredRun :=
  fresh a (digest (σ.definitions.get a.name) a)
    (((σ.definitions.get a.name).filter fun d => decide (d.active = some a.version)).map (·.epoch))
    now

/-- An admission that may store a new run: the id is free, the store runs and no trip bars it. -/
structure Admissible (σ : Rows) (a : Admission) : Prop where
  free : σ.run.get a.id = none
  running : σ.stopped.getD false = false
  unbarred : barred (σ.definitions.get a.name) a = none

namespace Engine

theorem admitted_row {a : Admission} {join : Join} {σ σ' : Rows} {r : Option StoredRun}
    (h : admitted a now join σ = .ok (r, σ')) :
    σ' = σ ∧ ((∃ s, σ.run.get a.id = some s ∧ r = none) ∨
      Admissible σ a ∧ r = some (newborn σ a now)) := by
  simp only [admitted, bind_ok, findRun_ok] at h
  obtain ⟨found, σ₁, ⟨rfl, rfl⟩, h⟩ := h
  cases hrow : σ₁.run.get a.id with
  | some s =>
    rw [hrow] at h
    simp only [bind_ok, ofExcept_ok, pure_ok] at h
    obtain ⟨u, σ₂, ⟨-, rfl⟩, rfl, rfl⟩ := h
    exact ⟨rfl, .inl ⟨s, rfl, rfl⟩⟩
  | none =>
    rw [hrow] at h
    simp only [running, isStopped, bind_ok, read_ok, ensure_ok] at h
    obtain ⟨u, σ₂, ⟨stopped, σ₃, ⟨rfl, rfl⟩, hrunning, rfl⟩, defs, σ₄, ⟨rfl, rfl⟩, h⟩ := h
    cases hbarred : barred (σ₄.definitions.get a.name) a with
    | some refusal => simp [hbarred] at h
    | none =>
      simp only [hbarred, pure_ok] at h
      obtain ⟨rfl, rfl⟩ := h
      exact ⟨rfl, .inr ⟨⟨hrow, by simpa using hrunning, hbarred⟩, rfl⟩⟩

/-- A refused run joins the stored run of its id, or ends at its admission and counts as a fault. -/
theorem refuse_ok {refused : Refused} {σ σ' : Rows} {u : Unit}
    (h : refuse env refused now σ = .ok (u, σ')) :
    (∃ s, σ.run.get refused.admission.id = some s) ∧ σ' = σ ∨
    Admissible σ refused.admission ∧ ∃ s σ₁,
      s = stillborn (newborn σ refused.admission now) refused.error now ∧
      storeRun s σ = .ok ((), σ₁) ∧
      Observes env s.run (some refused.error) false refused.breakerThreshold now σ₁ σ' := by
  simp only [refuse, bind_ok] at h
  obtain ⟨r, σ₁, hadm, h⟩ := h
  obtain ⟨rfl, ⟨s, hs, rfl⟩ | ⟨hfree, rfl⟩⟩ := admitted_row hadm
  · obtain ⟨-, rfl⟩ := pure_ok.mp h
    exact .inl ⟨⟨s, hs⟩, rfl⟩
  · simp only [bind_ok] at h
    obtain ⟨u, σ₂, hstore, hbreaker⟩ := h
    exact .inr ⟨hfree, _, σ₂, rfl, hstore, breaker_ok hbreaker⟩

/-- Slots only go. -/
theorem refuse_slots {refused : Refused} {σ σ' : Rows} {u : Unit}
    (h : refuse env refused now σ = .ok (u, σ')) {k : String} {q : Queued}
    (hq : σ'.triggerQueue.get k = some q) : σ.triggerQueue.get k = some q := by
  obtain ⟨-, rfl⟩ | ⟨-, s, σ₁, rfl, hstore, hobserves⟩ := refuse_ok h
  · exact hq
  · have hsame : SamePlan σ σ₁ := storeRun_frame _ hstore
    rw [← hsame.queue]
    exact hobserves.queue hq

/-- The row of a run bound to its trigger. -/
def bound (s : StoredRun) (key : String) (rearm : Option Rearm) (next : Option Trigger) : StoredRun :=
  { s with trigger := some key, rearm := rearm.bind fun r => next.map fun t => (r, t) }

/-- A firing's run joins the stored run of its id, or is stored bound to its trigger. -/
theorem admitFiring_ok {key : String} {a : Admission} {rearm : Option Rearm} {next : Option Trigger}
    {σ σ' : Rows} {u : Unit} (h : admitFiring key a rearm next now σ = .ok (u, σ')) :
    SamePlan σ σ' ∧
      ((∃ s, σ.run.get a.id = some s) ∧ σ'.toCore = σ.toCore ∧ σ'.index = σ.index ∨
        Admissible σ a ∧ σ'.toCore = σ.toCore.set (bound (newborn σ a now) key rearm next) ∧
          (Indexed σ → Indexed σ')) := by
  simp only [admitFiring, insert, bind_ok] at h
  obtain ⟨b, σ₁, ⟨r, σ₂, hadm, hinsert⟩, h⟩ := h
  -- the run is there already, and only the trigger's own row is written
  obtain ⟨rfl, ⟨s, hs, rfl⟩ | ⟨hfree, rfl⟩⟩ := admitted_row hadm
  · obtain ⟨rfl, rfl⟩ := pure_ok.mp hinsert
    simp only [Bool.false_eq_true, if_false, write_ok] at h
    rw [h]
    exact ⟨⟨rfl, rfl, rfl, rfl, rfl, rfl, rfl, rfl⟩, .inl ⟨⟨s, hs⟩, rfl, rfl⟩⟩
  -- its first row is stored, and stored again with its trigger
  · simp only [bind_ok, pure_ok] at hinsert
    obtain ⟨u₁, σ₃, hstore, rfl, rfl⟩ := hinsert
    simp only [if_true, bind_ok, write_ok, run_ok] at h
    obtain ⟨s, σ₄, ⟨hs, rfl⟩, u₂, σ₅, hstore₂, rfl⟩ := h
    obtain rfl : newborn σ₂ a now = s := by
      rw [show σ₄.run = _ from congrArg Core.run (storeRun_core hstore), Core.get_set] at hs
      rw [if_pos (show (newborn σ₂ a now).id = a.id from rfl)] at hs
      exact Option.some.inj hs
    have hsame : SamePlan σ₂ σ₅ := trans_of SamePlan (storeRun_frame _ hstore) (storeRun_frame _ hstore₂)
    refine ⟨⟨hsame.trigger, hsame.queue, hsame.name, hsame.definitions, hsame.paused, hsame.marker,
      hsame.stopped, hsame.notice⟩, .inr ⟨hfree, ?_, ?_⟩⟩
    · show σ₅.toCore = _
      rw [storeRun_core hstore₂, storeRun_core hstore]
      exact congrArg (fun t => { σ₂.toCore with run := t }) (Table.put_put _ _ _ _)
    · intro hσ
      exact ((hσ.storeRun hstore).storeRun hstore₂).of_eq rfl rfl

/-- A slot waits: its trigger has a live run, or its definition has no room under the slot's bound. -/
def waits (σ : Rows) (name key : String) (q : Queued) : Bool :=
  triggerBusy σ key || !capacity σ name q.maxConcurrentRuns

/-- A promotion finds no slot or one that waits, or takes the slot off and admits its run. -/
theorem promote_ok {name key : String} {σ σ' : Rows} {u : Unit}
    (h : promote env name key now σ = .ok (u, σ')) :
    (σ' = σ ∧ ((σ.triggerQueue.get key = none ∧ (σ.queueName name).get key = none) ∨
      ∃ q, σ.triggerQueue.get key = some q ∧ waits σ name key q = true)) ∨
    ∃ q t σ₁, σ.triggerQueue.get key = some q ∧ waits σ name key q = false ∧
      σ.trigger.get key = some t ∧ Emptied [key] σ σ₁ ∧ σ₁.trigger = σ.trigger ∧
      ((∃ error default, q.failure = some (error, default) ∧
          refuse env { admission := q.admission, error, breakerThreshold := default } now σ₁ =
            .ok (u, σ')) ∨
        q.failure = none ∧ admitFiring key q.admission q.rearm (some t) now σ₁ = .ok (u, σ')) := by
  simp only [promote, bind_ok, read_ok] at h
  obtain ⟨found, σ₁, ⟨hq, rfl⟩, h⟩ := h
  -- no slot under the key, and then none listed either
  cases found with
  | none =>
    simp only [bind_ok, read_ok, ensure_ok] at h
    obtain ⟨left, σ₂, ⟨rfl, rfl⟩, hleft, rfl⟩ := h
    refine .inl ⟨rfl, .inl ⟨hq.symm, ?_⟩⟩
    simpa [Table.contains] using hleft
  -- a slot: it waits, or its turn has come
  | some q =>
    simp only [bind_ok, read_ok] at h
    obtain ⟨w, σ₂, ⟨hw, rfl⟩, h⟩ := h
    have hwaits : waits σ₂ name key q = w := hw.symm
    cases w with
    | true =>
      obtain ⟨-, rfl⟩ := pure_ok.mp h
      exact .inl ⟨rfl, .inr ⟨q, hq.symm, hwaits⟩⟩
    -- its trigger is stored, and the slot is taken off before anything is admitted
    | false =>
      simp only [Bool.false_eq_true, if_false, bind_ok, read_ok, orFail_ok] at h
      obtain ⟨found, σ₃, ⟨ht, rfl⟩, t, σ₄, ⟨rfl, rfl⟩, u', σ₅, hremove, h⟩ := h
      obtain ⟨hempty, htrigger⟩ := removeQueue_ok hremove
      refine .inr ⟨q, t, σ₅, hq.symm, hwaits, ht.symm, hempty, htrigger, ?_⟩
      -- a refused slot becomes an ended run, another slot a live one
      cases hfailure : q.failure with
      | none =>
        rw [hfailure] at h
        exact .inr ⟨rfl, h⟩
      | some failure =>
        rw [hfailure] at h
        exact .inl ⟨failure.1, failure.2, rfl, h⟩

/-- Slots only go, and the one that is promoted does. -/
theorem promote_slots {name key : String} {σ σ' : Rows} {u : Unit}
    (h : promote env name key now σ = .ok (u, σ')) {k : String} {q : Queued}
    (hq : σ'.triggerQueue.get k = some q) :
    σ.triggerQueue.get k = some q ∧ (k = key → σ' = σ ∧ waits σ name key q = true) := by
  obtain ⟨rfl, hidle⟩ | ⟨q₀, t, σ₁, -, -, -, hempty, -, hrest⟩ := promote_ok h
  · refine ⟨hq, ?_⟩
    rintro rfl
    rcases hidle with ⟨hnone, -⟩ | ⟨q', hq', hwaits⟩
    · rw [hnone] at hq
      simp at hq
    · rw [Option.some.inj (hq.symm.trans hq')]
      exact ⟨rfl, hwaits⟩
  · have hq₁ : σ₁.triggerQueue.get k = some q := by
      rcases hrest with ⟨error, default, -, hrefuse⟩ | ⟨-, hadmit⟩
      · exact refuse_slots hrefuse hq
      · rw [← (admitFiring_ok hadmit).1.queue]
        exact hq
    refine ⟨hempty.kept hq₁, ?_⟩
    rintro rfl
    rw [hempty.queue, if_pos (List.mem_singleton_self _)] at hq₁
    simp at hq₁

/-! ### Draining -/

section Draining

-- a relation that markers and promotions keep
variable {R : Rows → Rows → Prop} [IsPreorder Rows R]
  (hmark : ∀ (σ : Rows) (marks : Table String Bool), R σ { σ with controlDrain := marks })
  (hpromote : ∀ name key, Steps R (promote env name key now))

include hmark hpromote

theorem drainQueues_steps (name : String) : Steps R (drainQueues env name now) := by
  refine .bind .read fun stopped => ?_
  split
  · refine .write fun σ => ?_
    split
    · exact refl_of R σ
    · exact hmark σ _
  · exact .bind .read fun keys => .each (hpromote name) keys

theorem drainMarked_steps (name : String) : Steps R (drainMarked env name now) := by
  refine .bind .read fun marked => .bind .read fun stopped => ?_
  split
  · exact .bind (.write fun σ => hmark σ _) fun _ =>
      .bind (drainQueues_steps hmark hpromote name) fun _ => .pure
  · exact .pure

theorem drainFor_steps (f : Firing) : Steps R (drainFor env f now) := by
  unfold drainFor
  split
  · exact .pure
  · exact drainMarked_steps hmark hpromote _

end Draining

/-! ### The end of a run -/

theorem endRow_plan {id : String} {status : Status} {σ σ' : Rows} {p : StoredRun × Nat}
    (h : endRow id status now σ = .ok (p, σ')) :
    ∃ σ₁, σ.run.get id = some p.1 ∧ SamePlan σ σ₁ ∧ rearmTrigger p.1 now σ₁ = .ok ((), σ') := by
  simp only [endRow, bind_ok, run_ok, read_ok] at h
  obtain ⟨s, σ₁, ⟨hs, rfl⟩, spent, σ₂, ⟨-, rfl⟩, u₁, σ₃, hstore, h⟩ := h
  have hsame : SamePlan σ₂ σ₃ := storeRun_frame _ hstore
  split at h
  · simp only [bind_ok, write_ok, pure_ok] at h
    obtain ⟨u₂, σ₄, rfl, u₃, σ₅, hrearm, rfl, rfl⟩ := h
    refine ⟨_, hs, ?_, hrearm⟩
    exact trans_of SamePlan hsame (RunFrame.core σ₃ { σ₃.toCore with budget := σ₃.budget.delete id } _)
  · simp only [bind_ok, pure_ok] at h
    obtain ⟨u₂, σ₄, hrearm, rfl, rfl⟩ := h
    exact ⟨_, hs, hsame, hrearm⟩

/-- The end of a tree in the rows of the plan: the trigger of its root may be rearmed. -/
theorem endTree_plan {id : String} {status : Status} {σ σ' : Rows} {acc : Cascade}
    (h : endTree env id status now σ = .ok (acc, σ')) :
    ∃ s σ₁ σ₂, σ.run.get id = some s ∧ SamePlan σ σ₁ ∧ rearmTrigger s now σ₁ = .ok ((), σ₂) ∧
      SamePlan σ₂ σ' := by
  simp only [endTree, bind_ok, read_ok] at h
  obtain ⟨p, σ₁, hrow, bound, σ₂, ⟨-, rfl⟩, hcascade⟩ := h
  obtain ⟨σ₀, hs, hsame, hrearm⟩ := endRow_plan hrow
  exact ⟨p.1, σ₀, σ₂, hs, hsame, hrearm, cascade_frame _ _ _ _ hcascade⟩

/-- The end of a run: its tree ends, its parent hears of it, and the slots of the definitions it made
room in are drained. -/
theorem terminate_ok {id : String} {status : Status} {σ σ' : Rows} {u : Unit}
    (h : terminate env id status now σ = .ok (u, σ')) :
    ∃ acc σ₁ σ₂ σ₃, endTree env id status now σ = .ok (acc, σ₁) ∧
      lifecycle id status now σ₁ = .ok ((), σ₂) ∧
      Tx.each (fun name => drainQueues env name now) acc.names.keys σ₂ = .ok ((), σ₃) ∧
      SamePlan σ₃ σ' ∧ Quiet σ₃ σ' := by
  simp only [terminate, bind_ok] at h
  obtain ⟨acc, σ₁, htree, u₁, σ₂, hlife, u₂, σ₃, hdrain, htotals⟩ := h
  have htotal : ∀ row : String × Nat × Totals, Steps SamePlan (addBucket env row.1 now row.2.1 row.2.2) :=
    fun _ => .write fun _ => ⟨rfl, rfl, rfl, rfl, rfl, rfl, rfl, rfl⟩
  exact ⟨acc, σ₁, σ₂, σ₃, htree, hlife, hdrain, Steps.each htotal _ htotals,
    Steps.each (fun row : String × Nat × Totals => addBucket_quiet row.1 now row.2.1 row.2.2) _ htotals⟩

end Engine

end Ouro
