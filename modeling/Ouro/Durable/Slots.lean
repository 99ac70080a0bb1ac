import Ouro.Durable.Queues

/-!
# Draining buffered slots

The end of a run also promotes the buffered slots of the definitions it made room in, in the same
transaction: a promotion that fails takes the end of the run with it.

What happens to the slots depends on little of the store, the `Yard`: the slots with their listings, which
triggers are stored, the definitions, whose ids have been admitted, and which triggers and definitions
have live runs. There a promotion is a partial function (`Yard.promote`), without a value when the slot
whose turn it is cannot be promoted:

* its trigger is not stored;
* a run of its id is stored that does not take its admission as a repeat;
* or its run is new, and a trip bars it (`Yard.Takes`).

The store agrees with it (`promote_yard`): a promotion of the code succeeds where the abstract one has a
value, and the rows it leaves are seen as that value. So does a drain of a definition
(`drainQueues_yard`) and of several in turn (`drains_yard`). Outside the promotions nothing in a drain
can fail: the breaker always returns (`breaker_total`), and so does an admission that no trip bars
(`admitted_total`).
-/

namespace Ouro

open Lib Engine Tx

variable {env : Env} {now : Int}

/-! ### The yard -/

/-- What promotions read and write. -/
structure Yard where
  /-- The buffered slot of a trigger. -/
  slots : String → Option Queued
  /-- The triggers whose slots are listed under a definition, in order. -/
  listed : String → List String
  /-- The stored triggers. -/
  armed : Set String
  definitions : String → Option Definitions
  /-- The admission of a stored run. -/
  admitted : String → Option Admission
  /-- The triggers with a live run. -/
  busy : Set String
  /-- The live runs of a definition. -/
  living : String → Set String

/-- The rows, without the live runs among `gone`. -/
def yard (σ : Rows) (gone : Set String) : Yard where
  slots := σ.triggerQueue.get
  listed name := (σ.queueName name).keys
  armed := {key | σ.trigger.contains key = true}
  definitions := σ.definitions.get
  admitted id := (σ.run.get id).map (·.run.admission)
  busy := {key | ∃ id s, σ.run.get id = some s ∧ s.run.endedMs = none ∧ id ∉ gone ∧
    s.trigger = some key}
  living name := {id | id ∉ gone ∧ ∃ s, σ.run.get id = some s ∧ s.run.endedMs = none ∧
    s.run.admission.name = name}

namespace Yard

open Classical

/-- The slots of `keys` go, with the rows that list them. -/
noncomputable def clear (keys : List String) (y : Yard) : Yard :=
  { y with
    slots := fun k => if k ∈ keys then none else y.slots k
    listed := fun name => (y.listed name).filter fun k =>
      ¬(k ∈ keys ∧ (y.slots k).map (·.admission.name) = some name) }

noncomputable def define (name : String) (defs : Definitions) (y : Yard) : Yard :=
  { y with definitions := Function.update y.definitions name (some defs) }

/-- The breaker observes a terminal outcome: a fault counts, and trips the definition at its threshold;
the triggers it owns go then, with their slots. A success starts the count again. -/
noncomputable def observe (r : SavedRun) (fault : Option WorkflowError) (success : Bool)
    (default : Nat) (now : Int) (y : Yard) : Yard :=
  match y.definitions r.admission.name with
  | none => y
  | some defs =>
    if defs.Counts r then
      match fault, (defs.threshold r.admission.version default).filter
          fun threshold => threshold ≤ defs.faulted.consecutiveFaults with
      | some reason, some threshold =>
        define r.admission.name
          { defs.faulted with triggers := [], tripped := some (defs.trip r reason threshold now) }
          { y.clear defs.triggers with armed := y.armed \ {k | k ∈ defs.triggers} }
      | some _, none => y.define r.admission.name defs.faulted
      | none, _ =>
        if success then y.define r.admission.name { defs with consecutiveFaults := 0 } else y
    else y

/-- The row a new run starts with, as the definitions stand. -/
def newborn (y : Yard) (a : Admission) (now : Int) : StoredRun :=
  fresh a (digest (y.definitions a.name) a)
    (((y.definitions a.name).filter fun d => decide (d.active = some a.version)).map (·.epoch)) now

noncomputable def enroll (a : Admission) (y : Yard) : Yard :=
  { y with admitted := Function.update y.admitted a.id (some a) }

/-- A run starts, bound to its trigger. -/
noncomputable def start (key : String) (a : Admission) (y : Yard) : Yard :=
  { y.enroll a with
    busy := insert key y.busy
    living := Function.update y.living a.name (insert a.id (y.living a.name)) }

/-- A slot's admission is taken: as a repeat of the stored run's, or as a new run's that no trip bars. -/
def Takes (y : Yard) (a : Admission) : Prop :=
  match y.admitted a.id with
  | some stored => joinsAs stored a .root = .ok ()
  | none => barred (y.definitions a.name) a = none

/-- What becomes of a slot that was taken off: its run joins the stored one, starts, or, when the slot
holds a failure, ends at its admission and counts as a fault. -/
noncomputable def land (key : String) (q : Queued) (now : Int) (y : Yard) : Yard :=
  if (y.admitted q.admission.id).isSome then y
  else
    match q.failure with
    | none => y.start key q.admission
    | some (error, default) =>
      (y.enroll q.admission).observe (stillborn (y.newborn q.admission now) error now).run (some error)
        false default now

/-- Promotes the slot of a trigger, listed under a definition. It waits for a live run of the trigger and
for room in the definition. -/
noncomputable def promote (now : Int) (name key : String) (y : Yard) : Option Yard :=
  match y.slots key with
  | none => if key ∈ y.listed name then none else some y
  | some q =>
    if key ∈ y.busy ∨ q.maxConcurrentRuns ≤ (y.living name).ncard then some y
    else if key ∈ y.armed ∧ y.Takes q.admission then some ((y.clear [key]).land key q now)
    else none

/-- Promotes the slots of a definition in turn. -/
noncomputable def drain (now : Int) (y : Yard) (name : String) : Option Yard :=
  (y.listed name).foldlM (fun y key => y.promote now name key) y

end Yard

/-! ### Seeing rows -/

section Seeing

variable {σ σ' : Rows}

/-- Rows of the plan and of the runs kept, in what a drain sees of them. -/
theorem yard_congr {gone : Set String} (hcore : σ'.run = σ.run) (hqueue : σ'.triggerQueue = σ.triggerQueue)
    (hname : σ'.queueName = σ.queueName) (htrigger : ∀ k, σ'.trigger.contains k = σ.trigger.contains k)
    (hdefs : σ'.definitions = σ.definitions) : yard σ' gone = yard σ gone := by
  unfold yard
  rw [hcore, hqueue, hname, hdefs]
  simp only [htrigger]

theorem keys_filter {t t' : Table String String} {p : String → Bool}
    (h : ∀ k, t'.get k = if p k then t.get k else none) : t'.keys = t.keys.filter p := by
  unfold Table.keys
  rw [List.filter_map, Table.eq_of_keys t'.rows_sorted (t.rows_sorted.filter _)]
  intro row
  rw [List.mem_filter, Table.mem_rows t', Table.mem_rows t, h]
  simp only [Function.comp_apply]
  split
  · next hp => simp [hp]
  · next hp => simp [hp]

/-- Slots that go are cleared. -/
theorem yard_emptied {keys : List String} {gone : Set String} (h : Emptied keys σ σ') :
    yard σ' gone = { (yard σ gone).clear keys with armed := {k | σ'.trigger.contains k = true} } := by
  have hrun : σ'.run = σ.run := congrArg Core.run h.core
  have hslots : σ'.triggerQueue.get = fun k => if k ∈ keys then none else σ.triggerQueue.get k :=
    funext h.queue
  have hlisted : ∀ n, (σ'.queueName n).keys = (σ.queueName n).keys.filter fun k =>
      decide ¬(k ∈ keys ∧ (σ.triggerQueue.get k).map (·.admission.name) = some n) := by
    intro n
    refine keys_filter fun k => ?_
    rw [h.name, slotName]
    by_cases hk : k ∈ keys ∧ (σ.triggerQueue.get k).map (·.admission.name) = some n
    · rw [if_pos hk, if_neg (by rw [decide_eq_true_eq, not_not]; exact hk)]
    · rw [if_neg hk, if_pos (by rw [decide_eq_true_eq]; exact hk)]
  unfold yard Yard.clear
  simp only [hrun, hslots, hlisted, h.definitions]

/-- The breaker's observation, as the yard has it. -/
theorem yard_observes {r : SavedRun} {fault : Option WorkflowError} {success : Bool} {default : Nat}
    {gone : Set String} (h : Observes env r fault success default now σ σ') :
    yard σ' gone = (yard σ gone).observe r fault success default now := by
  have hput : ∀ (τ : Rows) (name : String) (defs : Definitions),
      yard { τ with definitions := τ.definitions.put name defs } gone = (yard τ gone).define name defs := by
    -- a stored definition is a defined one of the yard
    intro τ name defs
    unfold yard Yard.define
    congr
    funext n
    rw [Table.get_put, Function.update_apply]
    simp only [eq_comm]
  have hget : ∀ defs, σ.definitions.get r.admission.name = some defs →
      (yard σ gone).definitions r.admission.name = some defs := fun _ h => h
  -- one case for each thing the breaker may do
  cases h with
  | nothing h =>
    cases hdefs : σ.definitions.get r.admission.name with
    | none =>
      have hnone : (yard σ gone).definitions r.admission.name = none := hdefs
      rw [Yard.observe, hnone]
    | some defs =>
      rw [Yard.observe, hget defs hdefs]
      simp only
      split
      · next hcounts =>
        obtain ⟨rfl, hreset⟩ := h defs hdefs hcounts
        simp only
        split
        · next hsuccess =>
          -- the count starts again where it stands
          have hsame : { defs with consecutiveFaults := 0 } = defs := by rw [← hreset hsuccess]
          rw [hsame, Yard.define, ← hget defs hdefs, Function.update_eq_self]
        · rfl
      · rfl
  -- a success
  | reset defs hdefs hcounts hfault hsuccess =>
    rw [hput, Yard.observe, hget defs hdefs, hfault]
    simp only [if_pos hcounts, if_pos hsuccess]
  -- a fault below the threshold
  | counted defs reason hdefs hcounts hfault hbelow =>
    have hnone : ((defs.threshold r.admission.version default).filter
        fun threshold => threshold ≤ defs.faulted.consecutiveFaults) = none := by
      rw [Option.filter_eq_none_iff]
      intro threshold hthreshold
      simpa using hbelow threshold hthreshold
    rw [hput, Yard.observe, hget defs hdefs, hfault]
    simp only [if_pos hcounts, hnone]
  -- a fault that reaches it: the definition's triggers are disarmed and their slots taken off
  | tripped defs reason threshold σ₁ hdefs hcounts hfault hthreshold hreached harm =>
    have hsome : ((defs.threshold r.admission.version default).filter
        fun threshold => threshold ≤ defs.faulted.consecutiveFaults) = some threshold := by
      rw [hthreshold, Option.filter_some_pos (by simpa using hreached)]
    have harmed : {k | σ₁.trigger.contains k = true} = (yard σ gone).armed \ {k | k ∈ defs.triggers} := by
      ext k
      change σ₁.trigger.contains k = true ↔ σ.trigger.contains k = true ∧ k ∉ defs.triggers
      rw [Table.contains, harm.trigger, Table.get_empty, Option.none_or, Table.contains]
      split
      · next hmem => simp [hmem]
      · next hout => simp [hout]
    have hyard : yard σ₁ gone =
        { (yard σ gone).clear defs.triggers with
          armed := (yard σ gone).armed \ {k | k ∈ defs.triggers} } := by
      rw [yard_emptied harm.toEmptied, harmed]
    rw [Yard.observe, hget defs hdefs, hfault]
    simp only [if_pos hcounts, hsome]
    rw [← hyard, ← hput]
    rfl

/-! #### Who has room -/

/-- The live runs of a definition, by its index rows. -/
theorem living_ncard (hσ : Indexed σ) (name : String) :
    ((yard σ ∅).living name).ncard = (scanIndex σ (.liveName name) anyId none).length := by
  obtain ⟨rows, hrows⟩ : ∃ rows, rows = scanIndex σ (.liveName name) anyId none := ⟨_, rfl⟩
  -- the rows of the index under the name are those of its live runs
  have hrow : ∀ row ∈ rows, ∃ s, σ.run.get s.id = some s ∧ s.run.endedMs = none ∧
      s.run.admission.name = name ∧ row = (indexKey (.liveName name) (.run s.id), .run s.id) := by
    intro row hmem
    rw [hrows] at hmem
    obtain ⟨s, i, hs, hkey, hentry⟩ := hσ.mem_scan_kind.mp hmem
    obtain ⟨hl, hname, rfl, hvalue⟩ := mem_entries_liveName.mp hentry
    exact ⟨s, hs, hl, hname, Prod.ext hkey hvalue⟩
  -- the run of a row tells the row
  obtain ⟨idOf, hidOf⟩ : ∃ idOf : IndexKey × IndexValue → String,
      ∀ id, idOf (indexKey (.liveName name) (.run id), .run id) = id :=
    ⟨fun row => (ofLex row.1).2.owner, fun id => rfl⟩
  have hnodup : (rows.map idOf).Nodup := by
    refine List.Nodup.map_on (fun row hmem row' hmem' heq => ?_) (hrows ▸ Table.scan_nodup _ _)
    obtain ⟨s, -, -, -, rfl⟩ := hrow row hmem
    obtain ⟨s', -, -, -, rfl⟩ := hrow row' hmem'
    rw [hidOf, hidOf] at heq
    rw [heq]
  -- so the live runs are the rows, counted once each
  have hset : (yard σ ∅).living name = ((rows.map idOf).toFinset : Set String) := by
    ext id
    rw [List.coe_toFinset]
    constructor
    · rintro ⟨-, s, hs, hl, hname⟩
      obtain rfl := hσ.keyed _ _ hs
      have hentry := mem_entries_liveName.mpr
        ⟨hl, hname, (rfl : IndexId.run s.id = .run s.id), (rfl : IndexValue.run s.id = .run s.id)⟩
      have hmem : (indexKey (.liveName name) (.run s.id), .run s.id) ∈ rows :=
        hrows ▸ hσ.mem_scan_kind.mpr ⟨s, _, hs, rfl, hentry⟩
      exact List.mem_map.mpr ⟨_, hmem, hidOf _⟩
    · intro hmem
      obtain ⟨row, hrowmem, rfl⟩ := List.mem_map.mp hmem
      obtain ⟨s, hs, hl, hname, rfl⟩ := hrow row hrowmem
      rw [hidOf]
      exact ⟨Set.notMem_empty _, s, hs, hl, hname⟩
  rw [hset, Set.ncard_coe_finset, List.toFinset_card_of_nodup hnodup, List.length_map, hrows]

/-- A slot waits in the store when it does in the yard. -/
theorem waits_yard (hσ : Indexed σ) (name key : String) (q : Queued) :
    waits σ name key q = true ↔
      key ∈ (yard σ ∅).busy ∨ q.maxConcurrentRuns ≤ ((yard σ ∅).living name).ncard := by
  rw [waits, Bool.or_eq_true, triggerBusy_iff hσ, Bool.not_eq_true', capacity_eq_false, living_ncard hσ]
  refine or_congr_left ⟨?_, ?_⟩
  · rintro ⟨id, s, hs, hl, htrigger⟩
    exact ⟨id, s, hs, hl, Set.notMem_empty _, htrigger⟩
  · rintro ⟨id, s, hs, hl, -, htrigger⟩
    exact ⟨id, s, hs, hl, htrigger⟩

end Seeing

/-! ### What cannot fail -/

section Total

variable {σ : Rows}

theorem each_total {α : Type} {f : α → Txn Unit} (hf : ∀ a σ, ∃ σ', f a σ = .ok ((), σ')) (l : List α)
    (σ : Rows) : ∃ σ', Tx.each f l σ = .ok ((), σ') := by
  induction l generalizing σ with
  | nil => exact ⟨σ, rfl⟩
  | cons a l ih =>
    obtain ⟨σ₁, h₁⟩ := hf a σ
    obtain ⟨σ₂, h₂⟩ := ih σ₁
    exact ⟨σ₂, bind_ok.mpr ⟨(), σ₁, h₁, h₂⟩⟩

theorem arm_total (defs : Definitions) (wanted : Table String Trigger) (σ : Rows) :
    ∃ defs' σ', arm defs wanted σ = .ok (defs', σ') := by
  have hreplace : ∀ key after (σ : Rows), ∃ σ', replaceTrigger key after σ = .ok ((), σ') :=
    fun _ _ _ => ⟨_, rfl⟩
  obtain ⟨σ₁, h₁⟩ := each_total (f := removeQueue) (fun _ _ => ⟨_, rfl⟩) defs.triggers σ
  obtain ⟨σ₂, h₂⟩ := each_total (fun k σ => hreplace k none σ)
    (defs.triggers.filter fun k => !wanted.contains k) σ₁
  obtain ⟨σ₃, h₃⟩ := each_total (fun row : String × Trigger => hreplace row.1 (some row.2)) wanted.rows σ₂
  exact ⟨_, σ₃, bind_ok.mpr ⟨(), σ₁, h₁, bind_ok.mpr ⟨(), σ₂, h₂, bind_ok.mpr ⟨(), σ₃, h₃, rfl⟩⟩⟩⟩

theorem breaker_total (env : Env) (r : SavedRun) (fault : Option WorkflowError) (success : Bool)
    (default : Nat) (now : Int) (σ : Rows) :
    ∃ σ', breaker env r fault success default now σ = .ok ((), σ') := by
  -- a fault counted: the arming of the triggers cannot fail
  have hcount : ∀ reason defs, ∃ σ', countFault env r reason default now defs σ = .ok ((), σ') := by
    intro reason defs
    unfold countFault
    simp only
    cases Breaker.effective
        (((defs.versions.get r.admission.version).map Definition.breaker).getD .inherit) default with
    | none => exact ⟨_, rfl⟩
    | some threshold =>
      simp only
      by_cases hreached : threshold ≤ min (defs.consecutiveFaults + 1) u32Max
      · rw [if_pos hreached]
        obtain ⟨defs', σ₁, harm⟩ := arm_total
          { defs with consecutiveFaults := min (defs.consecutiveFaults + 1) u32Max } .empty σ
        exact ⟨_, bind_ok.mpr ⟨defs', σ₁, harm, bind_ok.mpr ⟨(), _, rfl, rfl⟩⟩⟩
      · rw [if_neg hreached]
        exact ⟨_, rfl⟩
  suffices h : ∃ σ', breaker env r fault success default now σ = .ok ((), σ') ∧ True by
    obtain ⟨σ', h, -⟩ := h
    exact ⟨σ', h⟩
  -- the cases of the operation, one after another
  unfold breaker
  cases hdefs : σ.definitions.get r.admission.name with
  | none => exact exists_bind_ok (read_ok.mpr ⟨hdefs.symm, rfl⟩) ⟨σ, rfl, trivial⟩
  | some defs =>
    refine exists_bind_ok (read_ok.mpr ⟨hdefs.symm, rfl⟩) ?_
    simp only
    split
    · exact ⟨σ, rfl, trivial⟩
    · cases fault with
      | some reason =>
        obtain ⟨σ', h⟩ := hcount reason defs
        exact ⟨σ', h, trivial⟩
      | none =>
        simp only
        split
        · exact ⟨_, rfl, trivial⟩
        · exact ⟨σ, rfl, trivial⟩

/-- An admission is read off the stored run, or off the definitions. -/
theorem admitted_iff {gone : Set String} (hstopped : σ.stopped.getD false = false) (a : Admission) :
    (∃ found, admitted a now .root σ = .ok (found, σ)) ↔ (yard σ gone).Takes a := by
  -- what the yard has of the id and the name
  have hadmitted : (yard σ gone).admitted a.id = (σ.run.get a.id).map (·.run.admission) := rfl
  have hdefs : (yard σ gone).definitions a.name = σ.definitions.get a.name := rfl
  unfold Yard.Takes
  rw [hadmitted, hdefs]
  constructor
  -- it returned: a repeat of the stored admission, or a new one that no trip bars
  · rintro ⟨found, hfound⟩
    have h := hfound
    simp only [admitted, bind_ok, findRun_ok] at h
    obtain ⟨row, σ₁, ⟨rfl, rfl⟩, h⟩ := h
    cases hs : σ₁.run.get a.id with
    | some s =>
      rw [hs] at h
      simp only [bind_ok, ofExcept_ok, pure_ok] at h
      obtain ⟨u, σ₂, ⟨hjoins, -⟩, -⟩ := h
      exact hjoins
    | none =>
      obtain ⟨s, hsome, -⟩ | ⟨hfree, -⟩ := (admitted_row hfound).2
      · simp [hs] at hsome
      · exact hfree.unbarred
  -- and in these cases it returns
  · intro h
    cases hs : σ.run.get a.id with
    | some s =>
      rw [hs] at h
      refine ⟨none, bind_ok.mpr ⟨some s, σ, findRun_ok.mpr ⟨hs.symm, rfl⟩, ?_⟩⟩
      exact bind_ok.mpr ⟨(), σ, ofExcept_ok.mpr ⟨h, rfl⟩, rfl⟩
    | none =>
      rw [hs] at h
      refine ⟨some (newborn σ a now), bind_ok.mpr ⟨none, σ, findRun_ok.mpr ⟨hs.symm, rfl⟩, ?_⟩⟩
      refine bind_ok.mpr ⟨(), σ, ?_, bind_ok.mpr ⟨_, σ, rfl, ?_⟩⟩
      · exact bind_ok.mpr ⟨_, σ, rfl, ensure_ok.mpr ⟨by simp [hstopped], rfl⟩⟩
      · simp only [Option.map_none] at h
        simp only [h]
        rfl

end Total

/-! ### Landings -/

/-- The rows while a drain is under way: the index is that of the runs, and nothing is stopped. -/
structure Draining (σ : Rows) : Prop where
  indexed : Indexed σ
  running : σ.stopped.getD false = false

section Landing

variable {σ σ' : Rows}

/-- A first row is stored. -/
theorem yard_set {s : StoredRun} (hnone : σ.run.get s.id = none)
    (hcore : σ'.toCore = σ.toCore.set s) (hplan : SamePlan σ σ') :
    yard σ' ∅ = { (yard σ ∅).enroll s.run.admission with
      busy := {k | k ∈ (yard σ ∅).busy ∨ s.run.endedMs = none ∧ s.trigger = some k}
      living := fun name => {id | id ∈ (yard σ ∅).living name ∨
        s.run.endedMs = none ∧ s.run.admission.name = name ∧ id = s.id} } := by
  have hget : ∀ id, σ'.run.get id = if s.id = id then some s else σ.run.get id := fun id => by
    rw [show σ'.run = _ from congrArg Core.run hcore, Core.get_set]
  -- a property of some live run is one of the new run, or of one stored before
  have hsplit : ∀ (P : String → StoredRun → Prop),
      (∃ id t, σ'.run.get id = some t ∧ P id t) ↔
        (∃ id t, σ.run.get id = some t ∧ P id t) ∨ P s.id s := by
    intro P
    constructor
    · rintro ⟨id, t, ht, hP⟩
      rw [hget] at ht
      split at ht
      · next heq =>
        obtain rfl := Option.some.inj ht
        exact .inr (heq ▸ hP)
      · exact .inl ⟨id, t, ht, hP⟩
    · rintro (⟨id, t, ht, hP⟩ | hP)
      · refine ⟨id, t, ?_, hP⟩
        rw [hget, if_neg, ht]
        rintro rfl
        simp [hnone] at ht
      · exact ⟨s.id, s, by rw [hget, if_pos rfl], hP⟩
  -- the new id is admitted
  have hadmitted : (fun id => (σ'.run.get id).map (·.run.admission)) =
      Function.update (fun id => (σ.run.get id).map (·.run.admission)) s.run.admission.id
        (some s.run.admission) := by
    funext id
    rw [hget, Function.update_apply]
    by_cases hid : s.id = id
    · rw [if_pos hid, if_pos (show id = s.run.admission.id from hid.symm)]
      rfl
    · rw [if_neg hid, if_neg (show ¬id = s.run.admission.id from fun heq => hid heq.symm)]
  -- its trigger is busy when it lives
  have hbusy : (yard σ' ∅).busy =
      {k | k ∈ (yard σ ∅).busy ∨ s.run.endedMs = none ∧ s.trigger = some k} := by
    ext k
    refine (hsplit fun id t => t.run.endedMs = none ∧ id ∉ (∅ : Set String) ∧ t.trigger = some k).trans ?_
    exact or_congr_right ⟨fun h => ⟨h.1, h.2.2⟩, fun h => ⟨h.1, Set.notMem_empty _, h.2⟩⟩
  -- and its definition has one live run more
  have hliving : (yard σ' ∅).living = fun name => {id | id ∈ (yard σ ∅).living name ∨
      s.run.endedMs = none ∧ s.run.admission.name = name ∧ id = s.id} := by
    funext name
    ext id
    have hrow := hsplit fun i t => i = id ∧ i ∉ (∅ : Set String) ∧ t.run.endedMs = none ∧
      t.run.admission.name = name
    constructor
    · rintro ⟨hout, t, ht, hl, hname⟩
      rcases hrow.mp ⟨id, t, ht, rfl, hout, hl, hname⟩ with ⟨i, t₀, ht₀, rfl, -, hl₀, hname₀⟩ |
        ⟨hid, -, hl₀, hname₀⟩
      · exact .inl ⟨hout, t₀, ht₀, hl₀, hname₀⟩
      · exact .inr ⟨hl₀, hname₀, hid.symm⟩
    · rintro (⟨hout, t, ht, hl, hname⟩ | ⟨hl, hname, rfl⟩)
      · obtain ⟨i, t₀, ht₀, rfl, -, hl₀, hname₀⟩ := hrow.mpr (.inl ⟨id, t, ht, rfl, hout, hl, hname⟩)
        exact ⟨hout, t₀, ht₀, hl₀, hname₀⟩
      · exact ⟨Set.notMem_empty _, s, by rw [hget, if_pos rfl], hl, hname⟩
  -- the other parts are rows that were not written
  calc yard σ' ∅ = { yard σ ∅ with
        admitted := fun id => (σ'.run.get id).map (·.run.admission)
        busy := (yard σ' ∅).busy, living := (yard σ' ∅).living } := by
        simp only [yard, hplan.queue, hplan.name, hplan.trigger, hplan.definitions]
    _ = _ := by
        rw [hadmitted, hbusy, hliving]
        rfl

/-- A run that ended at its admission is no more than admitted. -/
theorem yard_stillborn {a : Admission} {error : WorkflowError} (hnone : σ.run.get a.id = none)
    (hcore : σ'.toCore = σ.toCore.set (stillborn (newborn σ a now) error now)) (hplan : SamePlan σ σ') :
    yard σ' ∅ = (yard σ ∅).enroll a := by
  rw [yard_set (s := stillborn (newborn σ a now) error now) hnone hcore hplan]
  have hended : (stillborn (newborn σ a now) error now).run.endedMs ≠ none := by simp [stillborn]
  simp only [hended, false_and, or_false, Set.ofPred_mem_eq]
  rfl

/-- A run that starts takes up its trigger and room in its definition. -/
theorem yard_bound {key : String} {a : Admission} {rearm : Option Rearm} {next : Option Trigger}
    (hnone : σ.run.get a.id = none)
    (hcore : σ'.toCore = σ.toCore.set (bound (newborn σ a now) key rearm next)) (hplan : SamePlan σ σ') :
    yard σ' ∅ = (yard σ ∅).start key a := by
  rw [yard_set (s := bound (newborn σ a now) key rearm next) hnone hcore hplan]
  have hlive : (bound (newborn σ a now) key rearm next).run.endedMs = none := rfl
  have hadm : (bound (newborn σ a now) key rearm next).run.admission = a := rfl
  have hid : (bound (newborn σ a now) key rearm next).id = a.id := rfl
  have htrigger : (bound (newborn σ a now) key rearm next).trigger = some key := rfl
  simp only [hlive, hadm, hid, htrigger, true_and, Option.some.injEq]
  unfold Yard.start
  congr 1
  · ext k
    simp [or_comm, eq_comm]
  · funext name
    ext id
    rw [Function.update_apply]
    split
    · next heq => simp [heq, or_comm]
    · next hne => simp [Ne.symm hne]

theorem Observes.stopped {r : SavedRun} {fault : Option WorkflowError} {success : Bool} {default : Nat}
    (h : Observes env r fault success default now σ σ') : σ'.stopped = σ.stopped := by
  cases h with
  | tripped defs reason threshold σ₁ hdefs hcounts hfault hthreshold hreached harm => exact harm.stopped
  | _ => rfl

/-- The yard a slot's landing leaves, when its run is new. -/
theorem land_new {y : Yard} {key : String} {q : Queued} (h : y.admitted q.admission.id = none) :
    y.land key q now =
      match q.failure with
      | none => y.start key q.admission
      | some (error, default) =>
        (y.enroll q.admission).observe (stillborn (y.newborn q.admission now) error now).run (some error)
          false default now := by
  unfold Yard.land
  rw [h, Option.isSome_none, if_neg Bool.false_ne_true]

theorem land_joined {y : Yard} {key : String} {q : Queued} {a : Admission}
    (h : y.admitted q.admission.id = some a) : y.land key q now = y := by
  unfold Yard.land
  rw [h, Option.isSome_some, if_pos rfl]

section Refuse

variable {key : String} {q : Queued} {error : WorkflowError} {default : Nat}

theorem refuse_total (env : Env) (hσ : Draining σ) (h : (yard σ ∅).Takes q.admission) :
    ∃ σ', refuse env { admission := q.admission, error, breakerThreshold := default } now σ =
      .ok ((), σ') := by
  obtain ⟨found, hfound⟩ : ∃ found, admitted q.admission now .root σ = .ok (found, σ) :=
    (admitted_iff hσ.running q.admission).mpr h
  cases found with
  | none => exact ⟨σ, bind_ok.mpr ⟨none, σ, hfound, rfl⟩⟩
  | some s =>
    obtain ⟨σ₁, hstore⟩ : ∃ σ₁, storeRun (stillborn s error now) σ = .ok ((), σ₁) := ⟨_, rfl⟩
    obtain ⟨σ₂, hbreaker⟩ := breaker_total env (stillborn s error now).run (some error) false default now σ₁
    exact ⟨σ₂, bind_ok.mpr ⟨some s, σ, hfound, bind_ok.mpr ⟨(), σ₁, hstore, hbreaker⟩⟩⟩

theorem refuse_yard {u : Unit} (hσ : Draining σ) (hfailure : q.failure = some (error, default))
    (h : refuse env { admission := q.admission, error, breakerThreshold := default } now σ =
      .ok (u, σ')) :
    Draining σ' ∧ (yard σ ∅).Takes q.admission ∧ yard σ' ∅ = (yard σ ∅).land key q now := by
  have htakes : (yard σ ∅).Takes q.admission := by
    obtain ⟨found, σ₁, hfound, -⟩ := bind_ok.mp h
    obtain ⟨rfl, -⟩ := admitted_row hfound
    exact (admitted_iff hσ.running q.admission).mp ⟨found, hfound⟩
  obtain ⟨⟨s, hs⟩, rfl⟩ | ⟨hfree, s, σ₁, rfl, hstore, hobserves⟩ := refuse_ok h
  · have hadmitted : (yard σ' ∅).admitted q.admission.id = some s.run.admission :=
      congrArg (Option.map _) hs
    exact ⟨hσ, htakes, (land_joined hadmitted).symm⟩
  · have hplan : SamePlan σ σ₁ := storeRun_frame _ hstore
    have hadmit : yard σ₁ ∅ = (yard σ ∅).enroll q.admission :=
      yard_stillborn hfree.free (storeRun_core hstore) hplan
    have hnone : (yard σ ∅).admitted q.admission.id = none := congrArg (Option.map _) hfree.free
    refine ⟨⟨Quiet.indexed hobserves.core (hσ.indexed.storeRun hstore), ?_⟩, htakes, ?_⟩
    · rw [hobserves.stopped, hplan.stopped]
      exact hσ.running
    · rw [yard_observes hobserves, hadmit, land_new hnone, hfailure]
      rfl

theorem admitFiring_total (key : String) (rearm : Option Rearm) (next : Option Trigger)
    (hσ : Draining σ) (h : (yard σ ∅).Takes q.admission) :
    ∃ σ', admitFiring key q.admission rearm next now σ = .ok ((), σ') := by
  -- the run a trigger admitted last is noted in any case
  have hlast : ∀ σ : Rows, ∃ σ', (Tx.write fun rows =>
      { rows with triggerRun := rows.triggerRun.put key q.admission.id } : Txn Unit) σ =
        .ok ((), σ') := fun _ => ⟨_, rfl⟩
  obtain ⟨found, hfound⟩ : ∃ found, admitted q.admission now .root σ = .ok (found, σ) :=
    (admitted_iff hσ.running q.admission).mpr h
  cases found with
  | none =>
    have hinsert : insert q.admission now σ = .ok (false, σ) := bind_ok.mpr ⟨none, σ, hfound, rfl⟩
    obtain ⟨σ', hwrite⟩ := hlast σ
    refine ⟨σ', bind_ok.mpr ⟨false, σ, hinsert, ?_⟩⟩
    simp only [Bool.false_eq_true, if_false]
    exact hwrite
  | some s =>
    obtain ⟨σ₁, hstore⟩ : ∃ σ₁, storeRun s σ = .ok ((), σ₁) := ⟨_, rfl⟩
    have hinsert : insert q.admission now σ = .ok (true, σ₁) :=
      bind_ok.mpr ⟨some s, σ, hfound, bind_ok.mpr ⟨(), σ₁, hstore, rfl⟩⟩
    obtain ⟨-, ⟨t, -, hnone⟩ | ⟨-, hnew⟩⟩ := admitted_row hfound
    · simp at hnone
    obtain rfl := Option.some.inj hnew
    have hrun : σ₁.run.get q.admission.id = some (newborn σ q.admission now) := by
      rw [show σ₁.run = _ from congrArg Core.run (storeRun_core hstore), Core.get_set]
      exact if_pos rfl
    obtain ⟨σ₂, hstore₂⟩ : ∃ σ₂, storeRun (bound (newborn σ q.admission now) key rearm next) σ₁ =
        .ok ((), σ₂) := ⟨_, rfl⟩
    obtain ⟨σ', hwrite⟩ := hlast σ₂
    refine ⟨σ', bind_ok.mpr ⟨true, σ₁, hinsert, ?_⟩⟩
    simp only [if_true]
    exact bind_ok.mpr ⟨_, σ₁, run_ok.mpr ⟨hrun, rfl⟩, bind_ok.mpr ⟨(), σ₂, hstore₂, hwrite⟩⟩

theorem admitFiring_yard {rearm : Option Rearm} {next : Option Trigger} {u : Unit} (hσ : Draining σ)
    (hfailure : q.failure = none) (h : admitFiring key q.admission rearm next now σ = .ok (u, σ')) :
    Draining σ' ∧ (yard σ ∅).Takes q.admission ∧ yard σ' ∅ = (yard σ ∅).land key q now := by
  have htakes : (yard σ ∅).Takes q.admission := by
    simp only [admitFiring, Engine.insert, bind_ok] at h
    obtain ⟨b, σ₁, ⟨found, σ₂, hfound, -⟩, -⟩ := h
    obtain ⟨rfl, -⟩ := admitted_row hfound
    exact (admitted_iff hσ.running q.admission).mp ⟨found, hfound⟩
  obtain ⟨hplan, hrest⟩ := admitFiring_ok h
  have hrunning : σ'.stopped.getD false = false := by
    rw [hplan.stopped]
    exact hσ.running
  obtain ⟨⟨s, hs⟩, hcore, hindex⟩ | ⟨hfree, hcore, hindexed⟩ := hrest
  · have hadmitted : (yard σ ∅).admitted q.admission.id = some s.run.admission :=
      congrArg (Option.map _) hs
    refine ⟨⟨Quiet.indexed ⟨hcore, hindex⟩ hσ.indexed, hrunning⟩, htakes, ?_⟩
    rw [land_joined hadmitted]
    exact yard_congr (congrArg Core.run hcore) hplan.queue hplan.name (fun k => by rw [hplan.trigger])
      hplan.definitions
  · have hnone : (yard σ ∅).admitted q.admission.id = none := congrArg (Option.map _) hfree.free
    refine ⟨⟨hindexed hσ.indexed, hrunning⟩, htakes, ?_⟩
    rw [land_new hnone, hfailure]
    exact yard_bound hfree.free hcore hplan

end Refuse

/-! ### Promotions -/

/-- What a transaction leaves, as a yard; none when it fails. -/
def seen (r : Except Error (Unit × Rows)) : Option Yard := r.toOption.map fun p => yard p.2 ∅

/-- A slot taken off leaves the other slots, and what its own admission is judged by. -/
theorem yard_taken {key : String} {σ₁ : Rows} (hempty : Emptied [key] σ σ₁)
    (htrigger : σ₁.trigger = σ.trigger) : yard σ₁ ∅ = (yard σ ∅).clear [key] := by
  rw [yard_emptied hempty, htrigger]
  rfl

/-- A promotion in the store is one in the yard. -/
theorem promote_yard (env : Env) (now : Int) (hσ : Draining σ) (name key : String) :
    seen (promote env name key now σ) = (yard σ ∅).promote now name key ∧
      ∀ u σ', promote env name key now σ = .ok (u, σ') → Draining σ' := by
  have hslots : (yard σ ∅).slots key = σ.triggerQueue.get key := rfl
  -- a promotion of the code leads where the abstract one leads
  have hsuccess : ∀ u σ', promote env name key now σ = .ok (u, σ') →
      Draining σ' ∧ (yard σ ∅).promote now name key = some (yard σ' ∅) := by
    intro u σ' h
    unfold Yard.promote
    rw [hslots]
    obtain ⟨rfl, ⟨hnone, hleft⟩ | ⟨q, hq, hwaits⟩⟩ | ⟨q, t, σ₁, hq, hwaits, ht, hempty, htrigger, hrest⟩ :=
      promote_ok h
    -- no slot under the key
    · refine ⟨hσ, ?_⟩
      have hout : key ∉ (yard σ' ∅).listed name := by
        intro hmem
        obtain ⟨v, hv⟩ := (Table.mem_keys _).mp hmem
        simp [hleft] at hv
      rw [hnone]
      simp only [if_neg hout]
    -- a slot that waits
    · refine ⟨hσ, ?_⟩
      rw [hq]
      simp only [if_pos ((waits_yard hσ.indexed name key q).mp hwaits)]
    -- a slot whose turn it is: it is taken off, and its run is refused or admitted
    · have hopen := (waits_yard hσ.indexed name key q).not.mp (by simp [hwaits])
      have hσ₁ : Draining σ₁ :=
        ⟨Quiet.indexed ⟨hempty.core, hempty.index⟩ hσ.indexed, by rw [hempty.stopped]; exact hσ.running⟩
      have hlanded : Draining σ' ∧ (yard σ₁ ∅).Takes q.admission ∧
          yard σ' ∅ = (yard σ₁ ∅).land key q now := by
        rcases hrest with ⟨error, default, hfailure, hrefuse⟩ | ⟨hfailure, hadmit⟩
        · exact refuse_yard hσ₁ hfailure hrefuse
        · exact admitFiring_yard hσ₁ hfailure hadmit
      obtain ⟨hσ', htakes, hland⟩ := hlanded
      rw [yard_taken hempty htrigger] at htakes hland
      have harmed : key ∈ (yard σ ∅).armed := (Table.contains_iff _ _).mpr ⟨t, ht⟩
      refine ⟨hσ', ?_⟩
      rw [hq]
      simp only [if_neg hopen]
      rw [if_pos ⟨harmed, htakes⟩, hland]
  -- where the abstract one has a value the code's returns
  have htotal : ∀ y, (yard σ ∅).promote now name key = some y →
      ∃ σ', promote env name key now σ = .ok ((), σ') := by
    intro y hy
    unfold Yard.promote at hy
    rw [hslots] at hy
    suffices h : ∃ σ', promote env name key now σ = .ok ((), σ') ∧ True by
      obtain ⟨σ', h, -⟩ := h
      exact ⟨σ', h⟩
    cases hq : σ.triggerQueue.get key with
    | none =>
      rw [hq] at hy
      simp only at hy
      split at hy
      · simp at hy
      · next hout =>
        have hleft : (!(σ.queueName name).contains key) = true := by
          rw [Bool.not_eq_true', ← Bool.not_eq_true, Table.contains_iff]
          exact fun hv => hout ((Table.mem_keys _).mpr hv)
        refine exists_bind_ok (read_ok.mpr ⟨hq.symm, rfl⟩) ?_
        refine exists_bind_ok (read_ok.mpr ⟨rfl, rfl⟩) ?_
        exact ⟨σ, ensure_ok.mpr ⟨hleft, rfl⟩, trivial⟩
    | some q =>
      rw [hq] at hy
      simp only at hy
      refine exists_bind_ok (read_ok.mpr ⟨hq.symm, rfl⟩) ?_
      cases hwaits : waits σ name key q with
      | true => exact exists_bind_ok (read_ok.mpr ⟨hwaits.symm, rfl⟩) ⟨σ, rfl, trivial⟩
      -- the trigger is stored and the admission taken, by the guard of the abstract promotion
      | false =>
        refine exists_bind_ok (read_ok.mpr ⟨hwaits.symm, rfl⟩) ?_
        rw [if_neg ((waits_yard hσ.indexed name key q).not.mp (by simp [hwaits]))] at hy
        split at hy
        · next hgo =>
          obtain ⟨t, ht⟩ := (Table.contains_iff _ _).mp hgo.1
          obtain ⟨σ₁, hremove⟩ : ∃ σ₁, removeQueue key σ = .ok ((), σ₁) := ⟨_, rfl⟩
          obtain ⟨hempty, htrigger⟩ := removeQueue_ok hremove
          have hσ₁ : Draining σ₁ :=
            ⟨Quiet.indexed ⟨hempty.core, hempty.index⟩ hσ.indexed, by rw [hempty.stopped]; exact hσ.running⟩
          have htakes : (yard σ₁ ∅).Takes q.admission := by
            rw [yard_taken hempty htrigger]
            exact hgo.2
          refine exists_bind_ok (read_ok.mpr ⟨ht.symm, rfl⟩) (exists_bind_ok (orFail_ok.mpr ⟨rfl, rfl⟩) ?_)
          refine exists_bind_ok hremove ?_
          cases q.failure with
          | some failure =>
            obtain ⟨error, default⟩ := failure
            obtain ⟨σ', h⟩ : ∃ σ', refuse env
                { admission := q.admission, error, breakerThreshold := default } now σ₁ = .ok ((), σ') :=
              refuse_total env hσ₁ htakes
            exact ⟨σ', h, trivial⟩
          | none =>
            obtain ⟨σ', h⟩ := admitFiring_total key q.rearm (some t) hσ₁ htakes
            exact ⟨σ', h, trivial⟩
        · simp at hy
  -- so one returns exactly when the other has a value
  refine ⟨?_, fun u σ' h => (hsuccess u σ' h).1⟩
  cases h : promote env name key now σ with
  | ok r => exact ((hsuccess r.1 r.2 h).2).symm
  | error e =>
    cases hy : (yard σ ∅).promote now name key with
    | none => rfl
    | some y =>
      obtain ⟨σ', hok⟩ := htotal y hy
      simp [h] at hok

end Landing

/-! ### Drains -/

/-- What holds of each pass of a loop holds of the loop. -/
theorem each_yard {α : Type} {f : α → Txn Unit} {g : Yard → α → Option Yard}
    (hf : ∀ a σ, Draining σ → seen (f a σ) = g (yard σ ∅) a ∧
      ∀ u σ', f a σ = .ok (u, σ') → Draining σ') (l : List α) {σ : Rows} (hσ : Draining σ) :
    seen (Tx.each f l σ) = l.foldlM g (yard σ ∅) ∧
      ∀ u σ', Tx.each f l σ = .ok (u, σ') → Draining σ' := by
  induction l generalizing σ with
  | nil =>
    refine ⟨rfl, fun u σ' h => ?_⟩
    obtain ⟨-, rfl⟩ := pure_ok.mp h
    exact hσ
  | cons a l ih =>
    obtain ⟨hseen, hkeep⟩ := hf a σ hσ
    rw [List.foldlM_cons, ← hseen]
    cases h : f a σ with
    | error e =>
      have hfail : Tx.each f (a :: l) σ = .error e := bind_error.mpr (.inl h)
      rw [hfail]
      exact ⟨rfl, by simp⟩
    | ok r =>
      obtain ⟨u, σ₁⟩ := r
      have hgo : Tx.each f (a :: l) σ = Tx.each f l σ₁ := bind_of_ok h
      rw [hgo]
      exact ih (hkeep u σ₁ h)

/-- Draining a definition in the store is draining it in the yard. -/
theorem drainQueues_yard (env : Env) (now : Int) (name : String) {σ : Rows} (hσ : Draining σ) :
    seen (drainQueues env name now σ) = (yard σ ∅).drain now name ∧
      ∀ u σ', drainQueues env name now σ = .ok (u, σ') → Draining σ' := by
  have hgo : drainQueues env name now σ =
      Tx.each (fun key => promote env name key now) (σ.queueName name).keys σ := by
    have hstop : isStopped σ = .ok (false, σ) := read_ok.mpr ⟨hσ.running.symm, rfl⟩
    have hkeys : (Tx.read fun rows => (rows.queueName name).keys : Txn (List String)) σ =
        .ok ((σ.queueName name).keys, σ) := rfl
    unfold drainQueues
    rw [bind_of_ok hstop]
    simp only [Bool.false_eq_true, if_false]
    rw [bind_of_ok hkeys]
  rw [hgo]
  exact each_yard (fun key σ hσ => promote_yard env now hσ name key) _ hσ

/-- And so is draining several in turn. -/
theorem drains_yard (env : Env) (now : Int) (names : List String) {σ : Rows} (hσ : Draining σ) :
    seen (Tx.each (fun name => drainQueues env name now) names σ) =
      names.foldlM (fun y name => y.drain now name) (yard σ ∅) :=
  (each_yard (fun name _ hσ => drainQueues_yard env now name hσ) names hσ).1

/-- Under the emergency stop nothing is promoted. -/
theorem drains_stopped (env : Env) (now : Int) (names : List String) {σ : Rows}
    (hstopped : σ.stopped.getD false = true) :
    ∃ σ', Tx.each (fun name => drainQueues env name now) names σ = .ok ((), σ') := by
  induction names generalizing σ with
  | nil => exact ⟨σ, rfl⟩
  | cons name names ih =>
    obtain ⟨σ₁, hdrain, hstopped₁⟩ : ∃ σ₁, drainQueues env name now σ = .ok ((), σ₁) ∧
        σ₁.stopped.getD false = true := by
      refine exists_bind_ok (read_ok.mpr ⟨hstopped.symm, rfl⟩) ⟨_, rfl, ?_⟩
      dsimp only
      split
      · exact hstopped
      · exact hstopped
    obtain ⟨σ₂, h⟩ := ih hstopped₁
    exact ⟨σ₂, bind_ok.mpr ⟨(), σ₁, hdrain, h⟩⟩

end Ouro
