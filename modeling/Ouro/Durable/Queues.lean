import Ouro.Durable.Arming
import Ouro.Durable.Turns

/-!
# Buffered slots and their promotion

A slot that finds a live run of its trigger may be buffered; it is promoted in the commit that frees
it: the end of the run, or of another run of its definition when the definition was full. Under the
emergency stop the commit leaves a marker for the definition instead.

`no_stranded_slot` says that this misses none, in every history that fires each trigger with
admissions of one definition: a buffered slot without a marker waits for a live run of its trigger or
for room in its definition. The invariant is `Settled`, with a set of triggers whose slots are
excepted while a transaction is under way: the end of a run opens those of the definitions it made
room in (`endTree_settled`), draining a definition closes its own (`drainQueues_settled`), and runs
that are admitted or worked on open none (`Settled.grow`).
-/

namespace Ouro

open Lib Engine Tx

variable {env : Env} {now : Int}

/-! ### Slots that wait -/

/-- The trigger has a live run. -/
def Occupied (c : Core) (key : String) : Prop :=
  ∃ id s, c.run.get id = some s ∧ s.run.endedMs = none ∧ s.trigger = some key

/-- The slot waits for a live run of its trigger, or for room in its definition. -/
def Blocked (σ : Rows) (key : String) (q : Queued) : Prop :=
  Occupied σ.toCore key ∨ capacity σ q.admission.name q.maxConcurrentRuns = false

theorem triggerBusy_iff {σ : Rows} (hσ : Indexed σ) (key : String) :
    triggerBusy σ key = true ↔ Occupied σ.toCore key := by
  have hnil : triggerBusy σ key = true ↔ scanIndex σ (.triggerLive key) anyId none ≠ [] := by
    unfold triggerBusy scanIndex
    rw [Table.scan_some]
    cases σ.index.scan _ none <;> simp
  rw [hnil]
  constructor
  · intro hne
    obtain ⟨row, hrow⟩ := List.exists_mem_of_ne_nil _ hne
    obtain ⟨s, i, hs, -, hentry⟩ := hσ.mem_scan_kind.mp hrow
    obtain ⟨hl, htrigger, -⟩ := mem_entries_triggerLive.mp hentry
    exact ⟨s.id, s, hs, hl, htrigger⟩
  · rintro ⟨id, s, hs, hl, htrigger⟩
    have hid := hσ.keyed _ _ hs
    have hrow : (indexKey (.triggerLive key) (.run s.id), IndexValue.run s.id) ∈
        scanIndex σ (.triggerLive key) anyId none :=
      hσ.mem_scan_kind.mpr ⟨s, .run s.id, by rw [hid]; exact hs, rfl,
        mem_entries_triggerLive.mpr ⟨hl, htrigger, rfl, rfl⟩⟩
    exact List.ne_nil_of_mem hrow

/-- The definition has no room: as many live runs as it may have. -/
theorem capacity_eq_false {σ : Rows} (name : String) (max : Nat) :
    capacity σ name max = false ↔ max ≤ (scanIndex σ (.liveName name) anyId none).length := by
  unfold capacity scanIndex
  rw [Table.scan_some]
  cases max with
  | zero => simp
  | succ n => simp [List.length_take]

/-- Live runs that stay keep a definition full. -/
theorem capacity_grow {σ σ' : Rows} (hσ : Indexed σ) (hσ' : Indexed σ') {name : String} {max : Nat}
    (hgrow : ∀ id s, σ.run.get id = some s → s.run.endedMs = none → s.run.admission.name = name →
      ∃ s', σ'.run.get id = some s' ∧ s'.run.endedMs = none ∧ s'.run.admission.name = name)
    (h : capacity σ name max = false) : capacity σ' name max = false := by
  rw [capacity_eq_false] at h ⊢
  refine h.trans (List.Subperm.length_le ((Table.scan_nodup _ _).subperm fun row hrow => ?_))
  obtain ⟨s, i, hs, hkey, hentry⟩ := hσ.mem_scan_kind.mp hrow
  obtain ⟨hl, hname, rfl, hvalue⟩ := mem_entries_liveName.mp hentry
  obtain ⟨s', hs', hl', hname'⟩ := hgrow s.id s hs hl hname
  have hid : s'.id = s.id := hσ'.keyed _ _ hs'
  refine hσ'.mem_scan_kind.mpr ⟨s', .run s.id, by rw [hid]; exact hs', hkey, ?_⟩
  exact mem_entries_liveName.mpr ⟨hl', hname', by rw [hid], by rw [hvalue, hid]⟩

/-- What a promotion reads says whether the slot waits. -/
theorem waits_iff {σ : Rows} (hσ : Indexed σ) {name key : String} {q : Queued}
    (hname : q.admission.name = name) : waits σ name key q = true ↔ Blocked σ key q := by
  rw [waits, Bool.or_eq_true, triggerBusy_iff hσ, Blocked, hname, Bool.not_eq_true']

/-! ### The rows of slots -/

/-- Slots, their listings and the runs of triggers belong to the definition that owns the trigger. -/
structure Tidy (owner : String → String) (σ : Rows) : Prop where
  /-- A slot is listed under its definition, and nothing else is listed. -/
  named : ∀ n k, (σ.queueName n).get k = if slotName σ k = some n then some k else none
  slots : ∀ k q, σ.triggerQueue.get k = some q → q.admission.name = owner k
  /-- So are the slots a pause keeps aside. -/
  aside : ∀ n p k q, σ.paused.get n = some p → p.queues.get k = some q → q.admission.name = owner k
  runs : ∀ id s k, σ.run.get id = some s → s.trigger = some k → s.run.admission.name = owner k

/-- Every slot has a marker or waits, those of the excepted triggers apart. -/
def Settled (open_ : String → Prop) (σ : Rows) : Prop :=
  ∀ k q, σ.triggerQueue.get k = some q → ¬open_ k →
    σ.controlDrain.contains q.admission.name = true ∨ Blocked σ k q

/-- The rows of slots, while some of them are still to be looked at. -/
structure Shelved (owner : String → String) (open_ : String → Prop) (σ : Rows) : Prop where
  indexed : Indexed σ
  tidy : Tidy owner σ
  settled : Settled open_ σ

/-- The same in a good store. -/
structure Kept (owner : String → String) (open_ : String → Prop) (σ : Rows) : Prop
    extends Shelved owner open_ σ where
  good : Good σ

variable {owner : String → String} {open_ lost : String → Prop} {σ σ' : Rows}

theorem Shelved.mono (h : Shelved owner open_ σ) {open' : String → Prop}
    (hopen : ∀ k, open_ k → open' k) : Shelved owner open' σ :=
  ⟨h.indexed, h.tidy, fun k q hq hk => h.settled k q hq fun hk' => hk (hopen k hk')⟩

theorem Kept.mono (h : Kept owner open_ σ) {open' : String → Prop} (hopen : ∀ k, open_ k → open' k) :
    Kept owner open' σ :=
  ⟨h.toShelved.mono hopen, h.good⟩

/-- A slot waits on, when its definition lost no run. -/
theorem Tidy.blocked {k : String} {q : Queued} (h : Tidy owner σ) (hσ : Indexed σ) (hσ' : Indexed σ')
    (hcarries : Carries lost σ.toCore σ'.toCore) (hq : q.admission.name = owner k)
    (hlost : ¬lost (owner k)) (hblocked : Blocked σ k q) : Blocked σ' k q := by
  rcases hblocked with ⟨id, s, hs, hl, htrigger⟩ | hfull
  · obtain ⟨s', hs', hbirth, hended⟩ := hcarries id s hs
    refine .inl ⟨id, s', hs', ?_, hbirth.trigger.trans htrigger⟩
    rw [hended (by rw [h.runs id s k hs htrigger]; exact hlost)]
    exact hl
  · refine .inr (capacity_grow hσ hσ' (fun id s hs hl hname => ?_) hfull)
    obtain ⟨s', hs', hbirth, hended⟩ := hcarries id s hs
    refine ⟨s', hs', ?_, by rw [hbirth.admission]; exact hname⟩
    rw [hended (by rw [hname, hq]; exact hlost)]
    exact hl

/-- Slots stay as they are, and runs too, those of definitions that lost some apart. -/
theorem Shelved.carry (h : Shelved owner open_ σ) (hqueue : σ'.triggerQueue = σ.triggerQueue)
    (hname : σ'.queueName = σ.queueName) (hpaused : σ'.paused = σ.paused)
    (hmark : σ'.controlDrain = σ.controlDrain) (hindexed : Indexed σ')
    (hcarries : Carries lost σ.toCore σ'.toCore) (hunbound : Unbound σ.toCore σ'.toCore) :
    Shelved owner (fun k => open_ k ∨ lost (owner k)) σ' where
  indexed := hindexed
  tidy :=
    { named := fun n k => by
        rw [hname, slotName, hqueue]
        exact h.tidy.named n k
      slots := fun k q hq => h.tidy.slots k q (by rw [← hqueue]; exact hq)
      aside := fun n p k q hp => h.tidy.aside n p k q (by rw [← hpaused]; exact hp)
      runs := fun id s' k hs' htrigger => by
        obtain ⟨s, hs, hbirth⟩ | ⟨-, hnone, -⟩ := hunbound id s' hs'
        · rw [hbirth.admission]
          exact h.tidy.runs id s k hs (hbirth.trigger.symm.trans htrigger)
        · simp [htrigger] at hnone }
  settled k q hq hk := by
    rw [not_or] at hk
    rw [hqueue] at hq
    rw [hmark]
    exact (h.settled k q hq hk.1).imp id
      (h.tidy.blocked h.indexed hindexed hcarries (h.tidy.slots k q hq) hk.2)

/-- Runs are worked on, and the plan stays. -/
theorem Kept.works (h : Kept owner open_ σ) (hworks : Works env now σ σ') : Kept owner open_ σ' := by
  obtain ⟨hcarries, hunbound⟩ := hworks.carries h.good
  have hgood := hworks.runs.good h.good
  have hplan := hworks.plan
  refine ⟨(h.carry hplan.queue hplan.name hplan.paused hplan.marker hgood.indexed hcarries hunbound).mono
    ?_, hgood⟩
  rintro k (hopen | hfalse)
  · exact hopen
  · exact hfalse.elim

/-! ### Slots that go -/

/-- Slots are taken off with their listings. -/
theorem Tidy.emptied {keys : List String} (h : Tidy owner σ) (hempty : Emptied keys σ σ') :
    Tidy owner σ' where
  named n k := by
    rw [hempty.name, hempty.slotName, h.named]
    by_cases hk : k ∈ keys
    · by_cases hn : slotName σ k = some n <;> simp [hk, hn]
    · simp [hk]
  slots k q hq := h.slots k q (hempty.kept hq)
  aside n p k q hp := h.aside n p k q (by rw [← hempty.paused]; exact hp)
  runs id s k hs := by
    rw [show σ'.run = σ.run from congrArg Core.run hempty.core] at hs
    exact h.runs id s k hs

/-- Slots go, and what the others read stays. -/
theorem Settled.shrink (h : Settled open_ σ) (hcore : σ'.toCore = σ.toCore) (hindex : σ'.index = σ.index)
    (hmark : σ'.controlDrain = σ.controlDrain)
    (hqueue : ∀ k q, σ'.triggerQueue.get k = some q → σ.triggerQueue.get k = some q) :
    Settled open_ σ' := by
  intro k q hq hk
  rw [hmark]
  refine (h k q (hqueue k q hq) hk).imp id fun hblocked => ?_
  unfold Blocked capacity scanIndex at hblocked ⊢
  rw [hcore, hindex]
  exact hblocked

theorem Shelved.emptied {keys : List String} (h : Shelved owner open_ σ)
    (hempty : Emptied keys σ σ') : Shelved owner open_ σ' where
  indexed := Quiet.indexed ⟨hempty.core, hempty.index⟩ h.indexed
  tidy := h.tidy.emptied hempty
  settled := h.settled.shrink hempty.core hempty.index hempty.marker fun _ _ => hempty.kept

theorem Kept.emptied {keys : List String} (h : Kept owner open_ σ) (hempty : Emptied keys σ σ') :
    Kept owner open_ σ' :=
  ⟨h.toShelved.emptied hempty, Quiet.good ⟨hempty.core, hempty.index⟩ h.good⟩

/-- Rows that no slot reads. -/
theorem Shelved.aside (h : Shelved owner open_ σ) (hquiet : Quiet σ σ')
    (hqueue : σ'.triggerQueue = σ.triggerQueue) (hname : σ'.queueName = σ.queueName)
    (hpaused : σ'.paused = σ.paused) (hmark : σ'.controlDrain = σ.controlDrain) :
    Shelved owner open_ σ' where
  indexed := hquiet.indexed h.indexed
  tidy :=
    { named := fun n k => by
        rw [hname, slotName, hqueue]
        exact h.tidy.named n k
      slots := fun k q hq => h.tidy.slots k q (by rw [← hqueue]; exact hq)
      aside := fun n p k q hp => h.tidy.aside n p k q (by rw [← hpaused]; exact hp)
      runs := by
        rw [show σ'.run = σ.run from congrArg Core.run hquiet.1]
        exact h.tidy.runs }
  settled := h.settled.shrink hquiet.1 hquiet.2 hmark fun _ _ hq => by rw [← hqueue]; exact hq

/-- A terminal outcome observed by the breaker: a trip takes slots off. -/
theorem Shelved.observes {r : SavedRun} {fault : Option WorkflowError} {success : Bool} {default : Nat}
    (h : Shelved owner open_ σ) (hobs : Observes env r fault success default now σ σ') :
    Shelved owner open_ σ' := by
  cases hobs with
  | nothing => exact h
  | reset | counted => exact h.aside ⟨rfl, rfl⟩ rfl rfl rfl rfl
  | tripped defs reason threshold σ₁ hdefs hcounts hfault hthreshold hreached harm =>
    exact (h.emptied harm.toEmptied).aside ⟨rfl, rfl⟩ rfl rfl rfl rfl

theorem Kept.definitions (hσ : Kept owner open_ σ) (d : Table String Definitions) :
    Kept owner open_ { σ with definitions := d } :=
  ⟨hσ.aside ⟨rfl, rfl⟩ rfl rfl rfl rfl, ⟨hσ.indexed.of_eq rfl rfl, hσ.good.inv⟩⟩

/-- What a pause keeps aside is replaced. -/
theorem Kept.paused {p : Table String Paused} (hσ : Kept owner open_ σ)
    (hp : ∀ n held k q, p.get n = some held → held.queues.get k = some q →
      q.admission.name = owner k) : Kept owner open_ { σ with paused := p } :=
  ⟨⟨hσ.indexed.of_eq rfl rfl, ⟨hσ.tidy.named, hσ.tidy.slots, hp, hσ.tidy.runs⟩, hσ.settled⟩,
    ⟨hσ.indexed.of_eq rfl rfl, hσ.good.inv⟩⟩

theorem Kept.unpaused (hσ : Kept owner open_ σ) (name : String) :
    Kept owner open_ { σ with paused := σ.paused.delete name } := by
  refine hσ.paused fun n held k q hn hq => ?_
  rw [Table.get_delete] at hn
  split at hn
  · simp at hn
  · exact hσ.tidy.aside n held k q hn hq

/-! ### Promotions -/

namespace Engine

theorem refuse_kept {refused : Refused} {u : Unit} (hσ : Kept owner open_ σ)
    (h : refuse env refused now σ = .ok (u, σ')) : Kept owner open_ σ' := by
  obtain ⟨-, rfl⟩ | ⟨hfree, s, σ₁, rfl, hstore, hobserves⟩ := refuse_ok h
  · exact hσ
  have hworks : Works env now σ σ₁ := ⟨storeRun_frame _ hstore, fun hgood =>
    hgood.store hstore (.single (.refuse refused.admission _ _ _ hfree.free))⟩
  have hσ₁ := hσ.works hworks
  exact ⟨hσ₁.observes hobserves, Quiet.good hobserves.core hσ₁.good⟩

theorem admitFiring_kept (env : Env) {key : String} {a : Admission} {rearm : Option Rearm} {next : Option Trigger}
    {u : Unit} (hσ : Kept owner open_ σ) (ha : a.name = owner key)
    (h : admitFiring key a rearm next now σ = .ok (u, σ')) : Kept owner open_ σ' := by
  have hfill : Fills env now Books σ σ' := admitFiring_fills books key a rearm next h
  have hcarries : Carries (fun _ => False) σ.toCore σ'.toCore := fun id s hs =>
    ⟨s, (hfill hσ.good).2 id s hs, .refl s, fun _ => rfl⟩
  have hgood := hfill.good hσ.good
  -- the plan stays; a new run is bound to the trigger it was fired for
  obtain ⟨hplan, hcore⟩ := admitFiring_ok h
  refine ⟨⟨hgood.indexed, ⟨fun n k => ?_, fun k q hq => ?_, fun n p k q hp => ?_,
    fun id s k hs htrigger => ?_⟩, fun k q hq hk => ?_⟩, hgood⟩
  · rw [hplan.name, slotName, hplan.queue]
    exact hσ.tidy.named n k
  · rw [hplan.queue] at hq
    exact hσ.tidy.slots k q hq
  · rw [hplan.paused] at hp
    exact hσ.tidy.aside n p k q hp
  · obtain ⟨-, hcore, -⟩ | ⟨-, hcore, -⟩ := hcore
    · rw [show σ'.run = _ from congrArg Core.run hcore] at hs
      exact hσ.tidy.runs id s k hs htrigger
    · rw [show σ'.run = _ from congrArg Core.run hcore, Core.get_set] at hs
      split at hs
      · obtain rfl := Option.some.inj hs
        obtain rfl : key = k := Option.some.inj htrigger
        exact ha
      · exact hσ.tidy.runs id s k hs htrigger
  · rw [hplan.queue] at hq
    rw [hplan.marker]
    exact (hσ.settled k q hq hk).imp id
      (hσ.tidy.blocked hσ.indexed hgood.indexed hcarries (hσ.tidy.slots k q hq) id)

/-- A promotion looks at the slot of its trigger: it goes, or it waits. -/
theorem promote_kept {name key : String} {u : Unit} (hσ : Kept owner open_ σ)
    (hname : ∀ q, σ.triggerQueue.get key = some q → q.admission.name = name)
    (h : promote env name key now σ = .ok (u, σ')) :
    Kept owner (fun k => open_ k ∧ k ≠ key) σ' := by
  have hkept : Kept owner open_ σ' := by
    obtain ⟨rfl, -⟩ | ⟨q, t, σ₁, hq, -, -, hempty, -, hrest⟩ := promote_ok h
    · exact hσ
    have hσ₁ := hσ.emptied hempty
    rcases hrest with ⟨error, default, -, hrefuse⟩ | ⟨-, hadmit⟩
    · exact refuse_kept hσ₁ hrefuse
    · exact admitFiring_kept env hσ₁ (hσ.tidy.slots key q hq) hadmit
  refine ⟨⟨hkept.indexed, hkept.tidy, fun k q hq hk => ?_⟩, hkept.good⟩
  obtain ⟨hold, hself⟩ := promote_slots h hq
  by_cases hkey : k = key
  · obtain ⟨rfl, hwaits⟩ := hself hkey
    subst hkey
    exact .inr ((waits_iff hσ.indexed (hname q hold)).mp hwaits)
  · exact hkept.settled k q hq fun hopen => hk ⟨hopen, hkey⟩

theorem promotes_kept {name : String} {keys : List String} :
    ∀ {open_ : String → Prop} {σ : Rows} {u : Unit}, Kept owner open_ σ →
      (∀ k ∈ keys, ∀ q, σ.triggerQueue.get k = some q → q.admission.name = name) →
      Tx.each (fun key => promote env name key now) keys σ = .ok (u, σ') →
      Kept owner (fun k => open_ k ∧ k ∉ keys) σ' ∧
        ∀ k q, σ'.triggerQueue.get k = some q → σ.triggerQueue.get k = some q := by
  induction keys with
  | nil =>
    intro open_ σ u hσ _ h
    obtain ⟨-, rfl⟩ := pure_ok.mp h
    exact ⟨hσ.mono fun k hk => ⟨hk, by simp⟩, fun _ _ hq => hq⟩
  | cons key keys ih =>
    intro open_ σ u hσ hname h
    obtain ⟨u₁, σ₁, hpromote, h⟩ := bind_ok.mp h
    have hσ₁ := promote_kept hσ (hname key List.mem_cons_self) hpromote
    obtain ⟨hσ', hslots⟩ := ih hσ₁ (fun k hk q hq =>
      hname k (List.mem_cons_of_mem _ hk) q (promote_slots hpromote hq).1) h
    refine ⟨hσ'.mono ?_, fun k q hq => (promote_slots hpromote (hslots k q hq)).1⟩
    rintro k ⟨⟨hopen, hne⟩, hnot⟩
    exact ⟨hopen, by simp [hne, hnot]⟩

/-- Draining a definition looks at all of its slots, or leaves its marker. -/
theorem drainQueues_kept {name : String} {u : Unit} (hσ : Kept owner open_ σ)
    (h : drainQueues env name now σ = .ok (u, σ')) :
    Kept owner (fun k => open_ k ∧ owner k ≠ name) σ' := by
  -- the slots of the definition are those listed under it
  have hlisted : ∀ k q, σ.triggerQueue.get k = some q →
      (k ∈ (σ.queueName name).keys ↔ q.admission.name = name) := by
    intro k q hq
    rw [Table.mem_keys, hσ.tidy.named, slotName, hq]
    simp
  simp only [drainQueues, isStopped, bind_ok, read_ok] at h
  obtain ⟨stopped, σ₁, ⟨-, rfl⟩, h⟩ := h
  -- under the emergency stop: a marker, unless the definition has no slot
  split at h
  · rw [write_ok.mp h]
    split
    -- no slot is listed, so none of the definition's is open
    · next hempty =>
      refine ⟨⟨hσ.indexed, hσ.tidy, fun k q hq hk => hσ.settled k q hq fun hopen => hk ⟨hopen, ?_⟩⟩,
        hσ.good⟩
      intro hname
      have hmem := (hlisted k q hq).mpr ((hσ.tidy.slots k q hq).trans hname)
      rw [Table.keys, List.isEmpty_iff.mp hempty] at hmem
      simp at hmem
    · have hgood : Good { σ₁ with controlDrain := σ₁.controlDrain.put name true } :=
        ⟨hσ.indexed.of_eq rfl rfl, hσ.good.inv⟩
      refine ⟨⟨hgood.indexed, ⟨hσ.tidy.named, hσ.tidy.slots, hσ.tidy.aside, hσ.tidy.runs⟩,
        fun k q hq hk => ?_⟩, hgood⟩
      -- its slots are marked now, the others as before
      by_cases hname : owner k = name
      · refine .inl ((Table.contains_iff _ _).mpr ⟨true, ?_⟩)
        rw [hσ.tidy.slots k q hq, hname]
        exact Table.get_put_self _ _ _
      · refine (hσ.settled k q hq fun hopen => hk ⟨hopen, hname⟩).imp (fun hmark => ?_) id
        rw [Table.contains_iff] at hmark ⊢
        obtain ⟨b, hb⟩ := hmark
        refine ⟨b, ?_⟩
        rw [Table.get_put_ne]
        · exact hb
        · rw [hσ.tidy.slots k q hq]
          exact Ne.symm hname
  -- otherwise every listed slot is looked at, so none of the definition's stays open
  · simp only [bind_ok, read_ok] at h
    obtain ⟨keys, σ₂, ⟨rfl, rfl⟩, h⟩ := h
    obtain ⟨hσ', hslots⟩ := promotes_kept hσ (fun k hk q hq => (hlisted k q hq).mp hk) h
    refine ⟨⟨hσ'.indexed, hσ'.tidy, fun k q hq hk => hσ'.settled k q hq ?_⟩, hσ'.good⟩
    rintro ⟨hopen, hnot⟩
    refine hk ⟨hopen, fun hname => hnot ?_⟩
    have hq₀ := hslots k q hq
    exact (hlisted k q hq₀).mpr ((hσ.tidy.slots k q hq₀).trans hname)

/-- A marker is taken off and its definition drained. -/
theorem unmark_kept {name : String} {u : Unit} (hσ : Kept owner open_ σ)
    (h : drainQueues env name now { σ with controlDrain := σ.controlDrain.delete name } = .ok (u, σ')) :
    Kept owner open_ σ' := by
  have hopened : Kept owner (fun k => open_ k ∨ owner k = name)
      { σ with controlDrain := σ.controlDrain.delete name } := by
    have hgood : Good { σ with controlDrain := σ.controlDrain.delete name } :=
      ⟨hσ.indexed.of_eq rfl rfl, hσ.good.inv⟩
    refine ⟨⟨hgood.indexed, ⟨hσ.tidy.named, hσ.tidy.slots, hσ.tidy.aside, hσ.tidy.runs⟩,
      fun k q hq hk => ?_⟩, hgood⟩
    rw [not_or] at hk
    refine (hσ.settled k q hq hk.1).imp (fun hmark => ?_) id
    rw [Table.contains_iff] at hmark ⊢
    obtain ⟨b, hb⟩ := hmark
    refine ⟨b, ?_⟩
    rw [Table.get_delete_ne]
    · exact hb
    · rw [hσ.tidy.slots k q hq]
      exact Ne.symm hk.2
  refine (drainQueues_kept hopened h).mono ?_
  rintro k ⟨hopen | hname, hne⟩
  · exact hopen
  · exact absurd hname hne

theorem drainMarked_kept (name : String) : Steps (Tx.Keeps (Kept owner open_)) (drainMarked env name now) := by
  intro σ b σ' h hσ
  simp only [drainMarked, isStopped, bind_ok, read_ok] at h
  obtain ⟨marked, σ₁, ⟨-, rfl⟩, stopped, σ₂, ⟨-, rfl⟩, h⟩ := h
  split at h
  · simp only [bind_ok, write_ok, pure_ok] at h
    obtain ⟨u, σ₃, rfl, u', σ₄, hdrain, -, rfl⟩ := h
    exact unmark_kept hσ hdrain
  · rw [(pure_ok.mp h).2]
    exact hσ

theorem drainPending_kept (limit : Nat) : Steps (Tx.Keeps (Kept owner open_)) (drainPending env now limit) := by
  refine .bind .read fun found => .each (fun row => ?_) found
  intro σ u σ' h hσ
  simp only [bind_ok, write_ok] at h
  obtain ⟨u', σ₁, rfl, hdrain⟩ := h
  exact unmark_kept hσ hdrain

/-! ### The end of a run -/

/-- Rearming a trigger moves no slot. -/
theorem rearmTrigger_queues {s : StoredRun} {u : Unit} (h : rearmTrigger s now σ = .ok (u, σ')) :
    SameQueues σ σ' := by
  unfold rearmTrigger at h
  cases hrearm : s.rearm with
  | none =>
    simp only [hrearm] at h
    rw [(pure_ok.mp h).2]
    exact .refl σ
  | some armed =>
    simp only [hrearm, bind_ok, read_ok] at h
    obtain ⟨found, σ₁, ⟨-, rfl⟩, h⟩ := h
    cases found with
    | none =>
      rw [(pure_ok.mp h).2]
      exact .refl _
    | some t =>
      simp only at h
      split at h
      · rw [write_ok.mp h]
        exact ⟨⟨rfl, rfl, rfl, rfl, rfl, rfl, rfl⟩, rfl, rfl⟩
      · rw [(pure_ok.mp h).2]
        exact .refl _

/-- The rows a call finds when it ends a run: no slot was moved, save those of a trip. -/
theorem terminates_shelved {s : StoredRun} {status : Status} (hσ : Kept owner open_ σ)
    (h : Terminates env now σ s status σ') : Shelved owner open_ σ' := by
  cases h with
  -- a cancel stores nothing before the cascade
  | cancel => exact hσ.toShelved
  -- the last call of an owner gives the run back and tells the breaker
  | @finish f outcome threshold success σ₁ σ₂ hs ht hstore hb =>
    obtain ⟨-, hget, -⟩ := checked_ok hs
    have hget := hσ.good.get_id hget
    obtain ⟨n, hfin⟩ := finished_terminal ht
    have hplan : SamePlan σ σ₁ := storeRun_frame _ hstore
    have hid : (disowned (finished σ.toCore s outcome now).1).id = s.id := by rw [hfin]; rfl
    -- the run given back is as live as it was, and bound to what it was bound to
    have hcarries : Carries (fun _ => False) σ.toCore σ₁.toCore := by
      intro i t hi
      rw [storeRun_core hstore, Core.get_set, hid]
      split
      · next heq =>
        obtain rfl : s = t := by
          rw [← heq, hget] at hi
          exact Option.some.inj hi
        refine ⟨_, rfl, ?_, fun _ => ?_⟩
        · rw [hfin]
          exact ⟨rfl, rfl, rfl, rfl⟩
        · rw [hfin]
          rfl
      · exact ⟨t, hi, .refl t, fun _ => rfl⟩
    have hunbound : Unbound σ.toCore σ₁.toCore := by
      intro i t hi
      rw [storeRun_core hstore, Core.get_set, hid] at hi
      split at hi
      · next heq =>
        obtain rfl := Option.some.inj hi
        refine .inl ⟨s, heq ▸ hget, ?_⟩
        rw [hfin]
        exact ⟨rfl, rfl, rfl, rfl⟩
      · exact .inl ⟨t, hi, .refl t⟩
    -- a trip moves the slots of its definition; nothing else does
    have hstored := hσ.carry hplan.queue hplan.name hplan.paused hplan.marker
      (hσ.indexed.storeRun hstore) hcarries hunbound
    exact (hstored.observes (breaker_ok hb)).mono fun k hk => hk.resolve_right id

/-- Draining definitions one after the other closes the slots of each. -/
theorem drains_kept {names : List String} :
    ∀ {open_ : String → Prop} {σ : Rows} {u : Unit}, Kept owner open_ σ →
      Tx.each (fun name => drainQueues env name now) names σ = .ok (u, σ') →
      Kept owner (fun k => open_ k ∧ owner k ∉ names) σ' := by
  induction names with
  | nil =>
    intro open_ σ u hσ h
    obtain ⟨-, rfl⟩ := pure_ok.mp h
    exact hσ.mono fun k hk => ⟨hk, by simp⟩
  | cons name names ih =>
    intro open_ σ u hσ h
    obtain ⟨u₁, σ₁, hdrain, h⟩ := bind_ok.mp h
    refine (ih (drainQueues_kept hσ hdrain) h).mono ?_
    rintro k ⟨⟨hopen, hne⟩, hnot⟩
    exact ⟨hopen, by simp [hne, hnot]⟩

/-- The end of a run opens the slots of the definitions it made room in, and drains them. -/
theorem ends_kept {id : String} (hσ : Kept owner open_ σ) (h : Ends env now id σ σ') :
    Kept owner open_ σ' := by
  obtain ⟨s, status, σ₁, rfl, hterm, hend⟩ := h
  have hσ₁ := terminates_shelved hσ hterm
  obtain ⟨-, -, n, s', hlimbo, -⟩ := hterm.limbo hσ.good
  obtain ⟨acc, σ₂, σ₃, σ₄, htree, hlife, hdrain, hplan, hquiet⟩ := terminate_ok hend
  obtain ⟨hgood, hcarries, hunbound, hself⟩ := endTree_carries hlimbo hterm.terminal htree
  -- the slots stay where they are while the tree ends
  obtain ⟨t, σ₅, σ₆, -, hbefore, hrearm, hafter⟩ := endTree_plan htree
  have hqueues := rearmTrigger_queues hrearm
  have hended := hσ₁.carry (hafter.queue.trans (hqueues.queue.trans hbefore.queue))
    (hafter.name.trans (hqueues.name.trans hbefore.name))
    (hafter.paused.trans (hqueues.paused.trans hbefore.paused))
    (hafter.marker.trans (hqueues.marker.trans hbefore.marker)) hgood.indexed hcarries hunbound
  have htold : Works env now σ₂ σ₃ := lifecycle_works hself rfl hlife
  have hopened : Kept owner (fun k => open_ k ∨ acc.names.contains (owner k) = true) σ₃ :=
    Kept.works ⟨hended, hgood⟩ htold
  have hrest : Works env now σ₄ σ' := .of_quiet hplan hquiet
  have hdrained := (drains_kept hopened hdrain).works hrest
  refine hdrained.mono ?_
  rintro k ⟨hopen | hname, hnot⟩
  · exact hopen
  · rw [Table.contains_iff] at hname
    exact absurd ((Table.mem_keys _).mpr hname) hnot

/-! ### Firings -/

theorem storeTrigger_kept {key : String} {before after : Option Trigger} {u : Unit}
    (hσ : Kept owner open_ σ) (h : storeTrigger key before after σ = .ok (u, σ')) :
    Kept owner open_ σ' := by
  obtain rfl := write_ok.mp h
  have hquiet : Quiet σ _ := storeTrigger_quiet _ _ _ h
  exact ⟨hσ.aside hquiet rfl rfl rfl rfl, hquiet.good hσ.good⟩

/-- A slot is buffered only beside a live run of its trigger. -/
theorem slotOutcome_kept {f : Firing} {guard_ : OverlapGuard} {a : Admission}
    {live : List (IndexKey × IndexValue)} {o : Outcome} (hσ : Kept owner open_ σ)
    (ha : a.name = owner f.key)
    (hlive : guard_.policy = .queue → live.isEmpty = false → triggerBusy σ f.key = true)
    (h : slotOutcome f guard_ a live σ = .ok (o, σ')) : Kept owner open_ σ' := by
  simp only [slotOutcome, bind_ok, read_ok] at h
  -- room, and the slot stored under the trigger
  obtain ⟨room, σ₁, ⟨-, rfl⟩, queued, σ₂, ⟨hqueued, rfl⟩, h⟩ := h
  split at h
  · rw [(pure_ok.mp h).2]
    exact hσ
  split at h
  case isFalse =>
    rw [(pure_ok.mp h).2]
    exact hσ
  -- nothing to do for a free trigger, or without the policy to queue
  next hbusy =>
  split at h
  case isFalse =>
    rw [(pure_ok.mp h).2]
    exact hσ
  next hqueue =>
  -- the slot is buffered under a free key
  simp only [bind_ok, write_ok, pure_ok] at h
  obtain ⟨u, σ₃, rfl, -, rfl⟩ := h
  simp only [Bool.and_eq_true, Bool.not_eq_true'] at hbusy
  have hfree : σ₂.triggerQueue.get f.key = none := by
    have hnone := hqueue.2
    rw [hqueued] at hnone
    simpa [Table.contains] using hnone
  have hoccupied := (triggerBusy_iff hσ.indexed f.key).mp (hlive hqueue.1 hbusy.1)
  refine ⟨⟨hσ.indexed.of_eq rfl rfl, ⟨fun n k => ?_, fun k q hq => ?_, hσ.tidy.aside, hσ.tidy.runs⟩,
    fun k q hq hk => ?_⟩, ⟨hσ.indexed.of_eq rfl rfl, hσ.good.inv⟩⟩
  -- it is listed under its definition, and the others as before
  · simp only [slotName, Table.get_putAt, Table.get_put]
    by_cases hkey : k = f.key
    · subst hkey
      have hunlisted := hσ.tidy.named n f.key
      simp only [slotName, hfree, Option.map_none] at hunlisted
      by_cases hn : n = a.name <;> simp [hn, hunlisted, eq_comm]
    · have hlisted := hσ.tidy.named n k
      simp only [slotName] at hlisted
      simpa [hkey, Ne.symm hkey] using hlisted
  · simp only [Table.get_put] at hq
    split at hq
    · next hkey =>
      obtain rfl := Option.some.inj hq
      rw [← hkey]
      exact ha
    · exact hσ.tidy.slots k q hq
  -- it waits for the live run of its trigger
  · simp only [Table.get_put] at hq
    split at hq
    · next hkey =>
      subst hkey
      exact .inr (.inl hoccupied)
    · exact hσ.settled k q hq hk

theorem cancelRun_kept (id : String) : Steps (Tx.Keeps (Kept owner open_)) (cancelRun env id now) := by
  intro σ r σ' h hσ
  rcases cancelRun_cases hσ.good h with rfl | hend
  · exact hσ
  · exact ends_kept hσ hend

theorem overlapped_kept {f : Firing} {guard_ : OverlapGuard} {a : Admission} {o : Outcome}
    (hσ : Kept owner open_ σ) (ha : a.name = owner f.key)
    (h : overlapped env f guard_ a now σ = .ok (o, σ')) : Kept owner open_ σ' := by
  simp only [overlapped, bind_ok, read_ok] at h
  obtain ⟨live, σ₁, ⟨hlive, rfl⟩, h⟩ := h
  split at h
  · next hreplace =>
    obtain ⟨u, σ₂, hcancel, h⟩ := bind_ok.mp h
    refine slotOutcome_kept (replaceLive_steps cancelRun_kept live hcancel hσ) ha (fun hqueue => ?_) h
    rw [hreplace] at hqueue
    simp at hqueue
  · next hpolicy =>
    refine slotOutcome_kept hσ ha (fun _ hne => ?_) h
    rw [if_neg hpolicy] at hlive
    rw [triggerBusy, ← hlive, hne]
    rfl

theorem disposition_kept {f : Firing} {o : Outcome} (hσ : Kept owner open_ σ)
    (hf : ∀ a, f.candidate = some a → a.name = owner f.key)
    (h : disposition env f now σ = .ok (o, σ')) : Kept owner open_ σ' := by
  cases hoverlap : f.overlap with
  -- with a policy: the candidate is weighed against the live runs of its trigger
  | some g =>
    cases hcandidate : f.candidate with
    | some a =>
      rw [Firing.candidate] at hcandidate
      simp only [disposition, hoverlap, hcandidate, bind_ok, ensure_ok, findRun_ok] at h
      obtain ⟨u₁, σ₁, ⟨-, rfl⟩, u₂, σ₂, ⟨-, rfl⟩, u₃, σ₃, ⟨-, rfl⟩, found, σ₄, ⟨-, rfl⟩, h⟩ := h
      -- a candidate that was admitted before changes nothing
      cases found with
      | some s =>
        rw [(pure_ok.mp h).2]
        exact hσ
      | none => exact overlapped_kept hσ (hf a hcandidate) h
    | none =>
      rw [Firing.candidate] at hcandidate
      simp only [disposition, hoverlap, hcandidate, pure_ok] at h
      rw [h.2]
      exact hσ
  | none =>
    -- without a policy the rows are only read
    have hreads : Steps (· = ·) (disposition env f now) := by
      unfold disposition
      simp only [hoverlap]
      split
      · exact .pure
      · split
        · exact .pure
        · refine .bind .read fun last => ?_
          split
          · exact .pure
          · refine .bind .read fun found => ?_
            split <;> exact .pure
    obtain rfl := hreads h
    exact hσ

/-- The runs of a firing are of the definition that owns its trigger. -/
structure Owned (owner : String → String) (f : Firing) : Prop where
  admits : ∀ a ∈ f.admits, a.name = owner f.key
  refused : ∀ r, f.refused = some r → r.admission.name = owner f.key

theorem Owned.candidate {f : Firing} (h : Owned owner f) {a : Admission} (ha : f.candidate = some a) :
    a.name = owner f.key := by
  rw [Firing.candidate] at ha
  cases hhead : f.admits.head? with
  | some b =>
    rw [hhead] at ha
    obtain rfl : b = a := by simpa using ha
    exact h.admits b (List.mem_of_head? hhead)
  | none =>
    rw [hhead] at ha
    obtain ⟨r, hr, rfl⟩ : ∃ r, f.refused = some r ∧ r.admission = a := by simpa using ha
    exact h.refused r hr

theorem triggerRun_kept (hσ : Kept owner open_ σ) (runs : Table String String) :
    Kept owner open_ { σ with triggerRun := runs } :=
  ⟨hσ.aside ⟨rfl, rfl⟩ rfl rfl rfl rfl, ⟨hσ.indexed.of_eq rfl rfl, hσ.good.inv⟩⟩

theorem admits_kept (env : Env) {key : String} {rearm : Option Rearm} {next : Option Trigger} {l : List Admission} :
    ∀ {σ : Rows} {u : Unit}, Kept owner open_ σ → (∀ a ∈ l, a.name = owner key) →
      Tx.each (fun a => admitFiring key a rearm next now) l σ = .ok (u, σ') → Kept owner open_ σ' := by
  induction l with
  | nil =>
    intro σ u hσ _ h
    rw [(pure_ok.mp h).2]
    exact hσ
  | cons a l ih =>
    intro σ u hσ hl h
    obtain ⟨u₁, σ₁, hadmit, h⟩ := bind_ok.mp h
    exact ih (admitFiring_kept env hσ (hl a List.mem_cons_self) hadmit)
      (fun b hb => hl b (List.mem_cons_of_mem _ hb)) h

theorem commitFiring_kept {f : Firing} {current : Option Trigger} {outcome : Outcome} {r : Fired}
    (hσ : Kept owner open_ σ) (hf : Owned owner f)
    (h : commitFiring env f current outcome now σ = .ok (r, σ')) : Kept owner open_ σ' := by
  obtain ⟨next, disposition⟩ := outcome
  simp only [commitFiring] at h
  obtain ⟨u, σ₁, hput, h⟩ := bind_ok.mp h
  have hσ₁ := storeTrigger_kept hσ hput
  split at h
  · obtain ⟨u₁, σ₂, hadmits, h⟩ := bind_ok.mp h
    have hσ₂ := admits_kept env hσ₁ hf.admits hadmits
    refine (?_ : Steps (Tx.Keeps (Kept owner open_)) _) h hσ₂
    split
    · exact .pure
    · exact .bind (fun _ _ _ hrefuse hσ => refuse_kept hσ hrefuse) fun _ =>
        .bind (.write fun _ hσ => triggerRun_kept hσ _) fun _ => .pure
  · rw [(pure_ok.mp h).2]
    exact hσ₁

theorem drainFor_kept (f : Firing) : Steps (Tx.Keeps (Kept owner open_)) (drainFor env f now) := by
  unfold drainFor
  split
  · exact .pure
  · exact drainMarked_kept _

theorem ingestFiring_plan (f : Firing) : Steps SamePlan (ingestFiring env f now) := by
  unfold ingestFiring
  split
  · exact .pure
  · refine .bind ((tombstone_reads _ _).mono fun σ σ' (h : σ = σ') => h ▸ refl_of SamePlan σ) ?_
    rintro ⟨k, old, used⟩
    simp only
    split
    · exact .pure
    · exact .bind (.write fun _ => ⟨rfl, rfl, rfl, rfl, rfl, rfl, rfl, rfl⟩) fun _ => .pure

/-- A firing keeps what is said of slots. -/
theorem fire_kept {f : Firing} {r : Except Error Fired} (hσ : Kept owner open_ σ) (hf : Owned owner f)
    (h : fire env f now σ = .ok (r, σ')) : Kept owner open_ σ' := by
  -- a stopped store, a trigger that was replaced, a definition that refuses: nothing is written
  simp only [fire, isStopped, bind_ok, read_ok] at h
  obtain ⟨stopped, σ₁, ⟨-, rfl⟩, h⟩ := h
  split at h
  · rw [(pure_ok.mp h).2]
    exact hσ
  simp only [bind_ok, ensure_ok, read_ok] at h
  obtain ⟨u, σ₂, ⟨-, rfl⟩, drained, σ₃, hdrain, current, σ₄, ⟨-, rfl⟩, h⟩ := h
  -- the deferred drains of the definitions it admits come first
  have hσ₁ := drainFor_kept f hdrain hσ
  split at h
  · rw [(pure_ok.mp h).2]
    exact hσ₁
  obtain ⟨found, σ₅, hfirst, h⟩ := bind_ok.mp h
  obtain rfl := firstRefusal_reads _ _ hfirst
  cases found with
  | some refusal =>
    rw [(pure_ok.mp h).2]
    exact hσ₁
  | none =>
    obtain ⟨fired, h, -⟩ := map_ok.mp h
    simp only [fireChecked, bind_ok] at h
    obtain ⟨used, σ₅, hused, h⟩ := h
    obtain rfl := ingested_reads f hused
    split at h
    · rw [(pure_ok.mp h).2]
      exact hσ₁
    -- the disposition, the events used up, and the commit
    obtain ⟨outcome, σ₆, hdisposition, h⟩ := bind_ok.mp h
    obtain ⟨used', σ₇, hingest, h⟩ := bind_ok.mp h
    have hσ₂ := disposition_kept hσ₁ (fun a => hf.candidate) hdisposition
    have htaken : Works env now σ₆ σ₇ := .of_quiet (ingestFiring_plan f hingest) (ingestFiring_quiet f hingest)
    have hσ₃ := hσ₂.works htaken
    split at h
    · rw [(pure_ok.mp h).2]
      exact hσ₃
    · exact commitFiring_kept hσ₃ hf h

/-! ### Pauses and activations -/

theorem arm_kept {defs defs' : Definitions} {wanted : Table String Trigger} (hσ : Kept owner open_ σ)
    (h : arm defs wanted σ = .ok (defs', σ')) : Kept owner open_ σ' :=
  hσ.emptied (arm_ok h).2.toEmptied

theorem activate_kept {name : String} {version : Nat} {epoch : Option Nat}
    {triggers : Table String Trigger} {activation : Activation} {r : Option Definitions}
    (hσ : Kept owner open_ σ)
    (h : activate name version epoch triggers activation σ = .ok (r, σ')) : Kept owner open_ σ' := by
  simp only [activate, bind_ok, read_ok, ensure_ok] at h
  obtain ⟨found, σ₁, ⟨-, rfl⟩, u, σ₂, ⟨-, rfl⟩, h⟩ := h
  split at h
  · rw [(pure_ok.mp h).2]
    exact hσ
  · simp only [bind_ok, ensure_ok, write_ok, pure_ok, storeDefinitions] at h
    obtain ⟨u₁, σ₃, ⟨-, rfl⟩, u₂, σ₄, rfl, defs, σ₅, harm, u₃, σ₆, rfl, -, rfl⟩ := h
    exact (arm_kept (hσ.unpaused name) harm).definitions _

/-- The slots a pause puts aside are stored ones. -/
theorem get_foldl_slots (queue : Table String Queued) (keys : List String) :
    ∀ (init : Table String Queued) {k : String} {q : Queued},
      (keys.foldl (fun queues k => (queue.get k).elim queues (queues.put k)) init).get k = some q →
        init.get k = some q ∨ queue.get k = some q := by
  induction keys with
  | nil => exact fun init k q hq => .inl hq
  | cons key keys ih =>
    intro init k q hq
    rw [List.foldl_cons] at hq
    rcases ih _ hq with hinit | hstored
    · cases hkey : queue.get key with
      | none =>
        rw [hkey] at hinit
        exact .inl hinit
      | some q' =>
        rw [hkey, Option.elim_some, Table.get_put] at hinit
        split at hinit
        · next heq =>
          rw [← heq, hkey]
          exact .inr hinit
        · exact .inl hinit
    · exact .inr hstored

theorem suspend_kept {name : String} {defs defs' : Definitions} (hσ : Kept owner open_ σ)
    (h : suspend name defs σ = .ok (defs', σ')) : Kept owner open_ σ' := by
  simp only [suspend, bind_ok, write_ok] at h
  obtain ⟨u, σ₁, rfl, harm⟩ := h
  refine arm_kept (hσ.paused fun n held k q hn hq => ?_) harm
  rw [Table.get_put] at hn
  split at hn
  · obtain rfl := Option.some.inj hn
    rcases get_foldl_slots σ.triggerQueue _ _ hq with hempty | hstored
    · simp at hempty
    · exact hσ.tidy.slots k q hstored
  · exact hσ.tidy.aside n held k q hn hq

theorem pause_kept {request : Request} {name note : String} {b : Bool} (hσ : Kept owner open_ σ)
    (h : pause request name note now σ = .ok (b, σ')) : Kept owner open_ σ' := by
  simp only [pause, knownDefinitions, bind_ok, read_ok, orFail_ok] at h
  obtain ⟨defs, σ₁, ⟨found, σ₂, ⟨-, rfl⟩, -, rfl⟩, h⟩ := h
  cases htrip : defs.tripped with
  | some trip =>
    simp only [htrip] at h
    split at h
    · simp only [bind_ok, storeDefinitions, write_ok, pure_ok] at h
      obtain ⟨defs', σ₃, hsuspend, u, σ₄, rfl, -, rfl⟩ := h
      exact (suspend_kept hσ hsuspend).definitions _
    · rw [(pure_ok.mp h).2]
      exact hσ
  | none =>
    simp only [htrip, bind_ok, orFail_ok, storeDefinitions, write_ok, pure_ok] at h
    obtain ⟨version, σ₃, ⟨-, rfl⟩, defs', σ₄, hsuspend, u, σ₅, rfl, -, rfl⟩ := h
    exact (suspend_kept hσ hsuspend).definitions _

/-- A slot is put back, and is still to be looked at. -/
theorem restoreQueue_kept {name : String} {row : String × Queued} {u : Unit}
    (hσ : Kept owner open_ σ) (hrow : row.2.admission.name = owner row.1)
    (hopen : owner row.1 = name → open_ row.1)
    (h : restoreQueue name row σ = .ok (u, σ')) : Kept owner open_ σ' := by
  simp only [restoreQueue, bind_ok, ensure_ok, write_ok, decide_eq_true_eq] at h
  obtain ⟨u₁, σ₁, ⟨hname, rfl⟩, rfl⟩ := h
  obtain ⟨key, q⟩ := row
  simp only at hrow hopen hname
  refine ⟨⟨hσ.indexed.of_eq rfl rfl, ⟨fun n k => ?_, fun k q' hq => ?_, hσ.tidy.aside, hσ.tidy.runs⟩,
    fun k q' hq hk => ?_⟩, ⟨hσ.indexed.of_eq rfl rfl, hσ.good.inv⟩⟩
  -- the index by names
  · have hlisted := hσ.tidy.named n k
    simp only [slotName] at hlisted
    simp only [slotName, Table.get_putAt, Table.get_put]
    by_cases hkey : k = key
    · subst hkey
      by_cases hn : n = name
      · simp [hn, hname]
      · -- a slot it takes the place of was listed under the same definition
        have hother : slotName σ₁ k ≠ some n := by
          intro heq
          obtain ⟨old, hold, hwas⟩ := Option.map_eq_some_iff.mp heq
          refine hn ?_
          rw [← hwas, hσ.tidy.slots k old hold, ← hrow, hname]
        have hfree := hσ.tidy.named n k
        rw [if_neg hother] at hfree
        simp [hfree, hname, Ne.symm hn]
    · simpa [hkey, Ne.symm hkey] using hlisted
  -- the slots' own definitions
  · simp only [Table.get_put] at hq
    split at hq
    · next hkey =>
      obtain rfl := Option.some.inj hq
      rw [← hkey]
      exact hrow
    · exact hσ.tidy.slots k q' hq
  -- and what each waits for: the one put back is open, as the others that are yet to be looked at
  · simp only [Table.get_put] at hq
    split at hq
    · next hkey =>
      subst hkey
      exact absurd (hopen (hrow.symm.trans hname)) hk
    · exact hσ.settled k q' hq hk

theorem resume_kept {name : String} {b : Bool} (hσ : Kept owner open_ σ)
    (h : resume env name now σ = .ok (b, σ')) : Kept owner open_ σ' := by
  simp only [resume, knownDefinitions, bind_ok, read_ok, orFail_ok] at h
  obtain ⟨defs, σ₁, ⟨found, σ₂, ⟨-, rfl⟩, -, rfl⟩, h⟩ := h
  cases htrip : defs.tripped with
  | none =>
    simp only [htrip, pure_ok] at h
    rw [h.2]
    exact hσ
  | some trip =>
    simp only [htrip, bind_ok, ensure_ok, read_ok, orFail_ok, storeDefinitions, write_ok, pure_ok] at h
    obtain ⟨u₁, σ₃, ⟨-, rfl⟩, p, σ₄, ⟨rfl, rfl⟩, held, σ₅, ⟨hheld, rfl⟩, u₂, σ₆, ⟨-, rfl⟩, defs', σ₇,
      harm, u₃, σ₈, hrestore, u₄, σ₉, rfl, u₅, σ₁₀, rfl, u₆, σ₁₁, hdrain, -, rfl⟩ := h
    -- the slots put back are open until the definition is drained
    have harmed : Kept owner (fun k => open_ k ∨ owner k = name) σ₇ :=
      (arm_kept hσ harm).mono fun _ => .inl
    have hrestored : Kept owner (fun k => open_ k ∨ owner k = name) σ₈ := by
      refine each_keeps (fun row hrow _ _ _ hkept hrestore => ?_) harmed hrestore
      refine restoreQueue_kept hkept ?_ .inr hrestore
      exact hσ.tidy.aside name held row.1 row.2 hheld ((Table.mem_rows held.queues).mp hrow)
    refine (drainQueues_kept ((hrestored.unpaused name).definitions _) hdrain).mono ?_
    rintro k ⟨hopen | hname, hne⟩
    · exact hopen
    · exact absurd hname hne

theorem stop_kept {enabled b : Bool} (hσ : Kept owner open_ σ)
    (h : stop env enabled now σ = .ok (b, σ')) : Kept owner open_ σ' := by
  have hwritten : ∀ {σ : Rows} (stopped : Option Bool), Kept owner open_ σ →
      Kept owner open_ { σ with stopped := stopped } := fun _ hσ =>
    ⟨hσ.aside ⟨rfl, rfl⟩ rfl rfl rfl rfl, ⟨hσ.indexed.of_eq rfl rfl, hσ.good.inv⟩⟩
  simp only [stop, isStopped, bind_ok, read_ok] at h
  obtain ⟨stopped, σ₁, ⟨-, rfl⟩, h⟩ := h
  split at h
  · rw [(pure_ok.mp h).2]
    exact hσ
  · split at h
    · simp only [bind_ok, write_ok, pure_ok] at h
      obtain ⟨u, σ₂, rfl, -, rfl⟩ := h
      exact hwritten _ hσ
    · -- the slots left under the stop are drained as it is lifted
      simp only [bind_ok, write_ok, pure_ok] at h
      obtain ⟨u, σ₂, rfl, u', σ₃, hdrain, -, rfl⟩ := h
      exact drainPending_kept _ hdrain (hwritten none hσ)

end Engine

/-! ### Every turn -/

/-- No turn leaves a slot behind, when its firing is the owner's. -/
theorem Turn.kept {op : Op} (howned : ∀ f t, op = .fire f t → Owned owner f)
    (hσ : Kept owner open_ σ) (h : Turn env op σ σ') : Kept owner open_ σ' := by
  cases h with
  | works h => exact hσ.works h
  | drains hdrain h => exact (drainMarked_kept _ hdrain hσ).works h
  | pending h => exact drainPending_kept _ h hσ
  | ends h hrest => exact (ends_kept hσ h).works hrest
  | fires hop h => exact fire_kept hσ (howned _ _ hop) h
  | activates hop h => exact activate_kept hσ h
  | saves h =>
    simp only [saveDefinition, bind_ok, read_ok, orFail_ok, storeDefinitions, write_ok, pure_ok] at h
    obtain ⟨found, σ₁, ⟨-, rfl⟩, version, σ₂, ⟨-, rfl⟩, u, σ₃, rfl, -, rfl⟩ := h
    exact hσ.definitions _
  | acknowledges h =>
    simp only [acknowledge, bind_ok, read_ok] at h
    obtain ⟨found, σ₁, ⟨-, rfl⟩, h⟩ := h
    split at h
    · simp only [bind_ok, write_ok, pure_ok] at h
      obtain ⟨u, σ₂, rfl, -, rfl⟩ := h
      exact ⟨hσ.aside ⟨rfl, rfl⟩ rfl rfl rfl rfl, ⟨hσ.indexed.of_eq rfl rfl, hσ.good.inv⟩⟩
    · rw [(pure_ok.mp h).2]
      exact hσ
  | pauses h hrest => exact (pause_kept hσ h).works hrest
  | resumes h hrest => exact (resume_kept hσ h).works hrest
  | stops h hrest => exact (stop_kept hσ h).works hrest

theorem Kept.empty (owner : String → String) : Kept owner (fun _ => False) .empty where
  indexed := Good.empty.indexed
  tidy := ⟨fun n k => by simp [Rows.empty, slotName], fun k q hq => by simp [Rows.empty] at hq,
    fun n p k q hp => by simp [Rows.empty] at hp, fun id s k hs => by simp [Rows.empty] at hs⟩
  settled k q hq := by simp [Rows.empty] at hq
  good := Good.empty

/-- The store after any history that fires each trigger for the definition that owns it. -/
theorem kept_after (env : Env) {owner : String → String} {history : List Op}
    (howned : ∀ f t, Op.fire f t ∈ history → Owned owner f) :
    Kept owner (fun _ => False) (after env history) := by
  induction history using List.reverseRecOn with
  | nil => exact .empty owner
  | append_singleton history op ih =>
    rw [after_concat]
    have hσ := ih fun f t hmem => howned f t (List.mem_append_left _ hmem)
    rcases step_turn env hσ.good op with heq | hturn
    · rw [heq]
      exact hσ
    · exact hturn.kept (fun f t hop => howned f t (by simp [hop])) hσ

/-- In every history that fires each trigger for one definition, no buffered slot is left behind: its
definition has a marker, or the slot waits for a live run of its trigger or for room in its
definition. A slot is listed under its definition, and what is listed is a slot. -/
theorem no_stranded_slot (env : Env) (owner : String → String) (history : List Op)
    (howned : ∀ f t, Op.fire f t ∈ history → Owned owner f) :
    (∀ key q, (after env history).triggerQueue.get key = some q →
      (after env history).controlDrain.contains q.admission.name = true ∨
        Blocked (after env history) key q) ∧
      ∀ name key, (∃ v, ((after env history).queueName name).get key = some v) ↔
        ∃ q, (after env history).triggerQueue.get key = some q ∧ q.admission.name = name := by
  have hσ := kept_after env howned
  refine ⟨fun key q hq => hσ.settled key q hq id, fun name key => ?_⟩
  rw [hσ.tidy.named, slotName]
  constructor
  · rintro ⟨v, hv⟩
    split at hv
    · next hlisted => exact Option.map_eq_some_iff.mp hlisted
    · simp at hv
  · rintro ⟨q, hq, hname⟩
    refine ⟨key, ?_⟩
    rw [hq, Option.map_some, hname, if_pos rfl]

/-- A slot of the trigger `k` that is buffered while a run of the trigger is live. -/
def Firing.queueing (id : String) (expected next : Option Trigger) : Firing :=
  { Firing.replacing id none expected next with
    overlap := some { policy := .queue, maxConcurrentRuns := 5, ceiling := .dormant 0 } }

/-- Two slots, the second buffered behind the run of the first. -/
def slotsQueued : List Op :=
  [.fire (.queueing "a" none (some (.dormant 0))) 0,
    .fire (.queueing "b" (some (.dormant 0)) (some (.dormant 1))) 1]

/-- A slot is buffered beside the live run of its trigger, and waits for it. -/
theorem buffered_slot_waits :
    ∃ q, (after .plain slotsQueued).triggerQueue.get "k" = some q ∧ q.admission = .plain "b" ∧
      Blocked (after .plain slotsQueued) "k" q := by
  have howned : ∀ f t, Op.fire f t ∈ slotsQueued → Owned (fun _ => "w") f := by
    intro f t hmem
    simp only [slotsQueued, List.mem_cons, Op.fire.injEq, List.not_mem_nil, or_false] at hmem
    rcases hmem with ⟨rfl, -⟩ | ⟨rfl, -⟩
    · exact ⟨by decide, by simp [Firing.queueing, Firing.replacing]⟩
    · exact ⟨by decide, by simp [Firing.queueing, Firing.replacing]⟩
  obtain ⟨q, hq, hadmission⟩ : ∃ q, (after .plain slotsQueued).triggerQueue.get "k" = some q ∧
      q.admission = .plain "b" := by
    have hrow : ((after .plain slotsQueued).triggerQueue.get "k").map (·.admission) =
        some (.plain "b") := by decide +kernel
    exact Option.map_eq_some_iff.mp hrow
  have hmark : (after .plain slotsQueued).controlDrain.contains "w" = false := by decide +kernel
  refine ⟨q, hq, hadmission, ?_⟩
  refine ((no_stranded_slot .plain (fun _ => "w") slotsQueued howned).1 "k" q hq).resolve_left ?_
  rw [hadmission]
  simp [Admission.plain, hmark]

end Ouro
