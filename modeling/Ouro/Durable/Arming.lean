import Ouro.Durable.Promotion

/-!
# The index rows of triggers

A trigger is indexed by the time it is next due and by the event types it reacts to. `storeTrigger`
moves these rows from the image its caller hands it: they stay exact (`Armed`) when that image is the
stored trigger (`storeTrigger_armed`), which every caller reads right before, a firing apart. A
firing reads its trigger and may then replace the trigger's live runs: their end rearms the very
trigger, or promotes a refused slot that trips the definition and disarms it. The image is stale
then (`stale_trigger_index`).

`trigger_index_exact` says that the rows are exact in every history whose replacing firings find
their trigger undisturbed (`Undisturbed`): no run they replace rearms it as it is stored, and the
refused slots of no definition that owns it can reach its threshold. The proof follows the trigger
through the replacement (`Guarded`); all other transactions keep the rows by the frame of the
catalog.
-/

namespace Ouro

open Lib Engine Tx

variable {env : Env} {now : Int}

/-! ### Moving index rows -/

namespace Engine

theorem get_moveDue_ne (due : Table (Int ×ₗ String) String) {key k : String} (old new : Option Int)
    (at_ : Int) (h : k ≠ key) :
    (moveDue due key old new).get (toLex (at_, k)) = due.get (toLex (at_, k)) := by
  have hne : ∀ at' : Int, toLex (at', key) ≠ toLex (at_, k) := fun at' heq =>
    h (congrArg (fun p => (ofLex p).2) heq).symm
  unfold moveDue
  split
  · rfl
  · cases old with
    | none => cases new <;> simp [Table.get_put_ne, hne]
    | some o => cases new <;> simp [Table.get_put_ne, Table.get_delete_ne, hne]

/-- The rows of one trigger, moved from one instant to another. -/
theorem get_moveDue {due : Table (Int ×ₗ String) String} {key : String} {old : Option Int}
    (h : ∀ at_ v, due.get (toLex (at_, key)) = some v ↔ v = key ∧ old = some at_)
    (new : Option Int) (at_ : Int) (v : String) :
    (moveDue due key old new).get (toLex (at_, key)) = some v ↔ v = key ∧ new = some at_ := by
  unfold moveDue
  split
  -- nothing to move
  · next heq => rw [h, heq]
  · next hne =>
    have hkey : ∀ a b : Int, toLex (a, key) = toLex (b, key) ↔ a = b := fun a b =>
      ⟨fun heq => congrArg (fun p => (ofLex p).1) heq, fun heq => by rw [heq]⟩
    have hold : due.get (toLex (at_, key)) = some v ↔ v = key ∧ old = some at_ := h at_ v
    -- a row put, a row deleted, or both
    cases old with
    | none =>
      cases new with
      | none => exact absurd rfl hne
      | some n =>
        simp only [Option.elim_some, Option.elim_none, Table.get_put, hkey, Option.some.injEq]
        split
        · next heq => simp [heq, eq_comm]
        · next hn => simp [hold, hn]
    | some o =>
      cases new with
      | none =>
        simp only [Option.elim_some, Option.elim_none, Table.get_delete, hkey]
        split
        · simp
        · next ho => simp [hold, ho]
      | some n =>
        have hon : o ≠ n := fun heq => hne (congrArg some heq)
        simp only [Option.elim_some, Table.get_delete, Table.get_put, hkey, Option.some.injEq]
        split
        · next ho => simp [← ho, Ne.symm hon]
        · next ho =>
          split
          · next hn => simp [hn, eq_comm]
          · next hn => simp [hold, ho, hn]

theorem get_foldl_putAt (key : String) (l : List String) (types : String → Table String String)
    (t k : String) :
    (l.foldl (fun types t => Table.putAt types t key key) types t).get k =
      if t ∈ l ∧ k = key then some key else (types t).get k := by
  induction l generalizing types with
  | nil => simp
  | cons t' l ih =>
    rw [List.foldl_cons, ih, Table.get_putAt]
    by_cases hk : k = key
    · by_cases hl : t ∈ l
      · simp [hk, hl]
      · by_cases ht : t = t'
        · simp [hk, ht]
        · simp [hk, hl, ht, Ne.symm ht]
    · simp [hk, Ne.symm hk]

theorem get_foldl_deleteAt (key : String) (l : List String) (types : String → Table String String)
    (t k : String) :
    (l.foldl (fun types t => Table.deleteAt types t key) types t).get k =
      if t ∈ l ∧ k = key then none else (types t).get k := by
  induction l generalizing types with
  | nil => simp
  | cons t' l ih =>
    rw [List.foldl_cons, ih, Table.get_deleteAt]
    by_cases hk : k = key
    · by_cases hl : t ∈ l
      · simp [hk, hl]
      · by_cases ht : t = t'
        · simp [hk, ht]
        · simp [hk, hl, ht, Ne.symm ht]
    · simp [hk, Ne.symm hk]

theorem get_moveTypes (types : String → Table String String) (key : String) (old new : List String)
    (t k : String) :
    (moveTypes types key old new t).get k =
      if k = key then
        if t ∈ new then if t ∈ old then (types t).get k else some key
        else if t ∈ old then none else (types t).get k
      else (types t).get k := by
  unfold moveTypes
  rw [get_foldl_deleteAt, get_foldl_putAt]
  by_cases hk : k = key <;> by_cases hn : t ∈ new <;> by_cases ho : t ∈ old <;> simp [hk, hn, ho]

end Engine

/-! ### Exact rows -/

/-- The index rows of triggers are those of the stored triggers. -/
structure Armed (σ : Rows) : Prop where
  due : ∀ at_ key v, σ.triggerDue.get (toLex (at_, key)) = some v ↔
    v = key ∧ ∃ t, σ.trigger.get key = some t ∧ t.atMs = some at_
  type_ : ∀ ty key v, (σ.triggerType ty).get key = some v ↔
    v = key ∧ ∃ t, σ.trigger.get key = some t ∧ ty ∈ t.types

theorem Armed.empty : Armed .empty where
  due at_ key v := by simp [Rows.empty]
  type_ ty key v := by simp [Rows.empty]

theorem Armed.of_eq {σ σ' : Rows} (h : Armed σ) (htrigger : σ'.trigger = σ.trigger)
    (hdue : σ'.triggerDue = σ.triggerDue) (htype : σ'.triggerType = σ.triggerType) : Armed σ' where
  due := by rw [htrigger, hdue]; exact h.due
  type_ := by rw [htrigger, htype]; exact h.type_

namespace Engine

/-- A trigger written in place of the stored one takes its index rows along. -/
theorem storeTrigger_armed {key : String} {before after : Option Trigger} {σ σ' : Rows} {u : Unit}
    (hσ : Armed σ) (hbefore : before = σ.trigger.get key)
    (h : storeTrigger key before after σ = .ok (u, σ')) : Armed σ' := by
  have htrigger := get_storeTrigger hbefore h
  obtain rfl := write_ok.mp h
  -- the rows by due time
  refine ⟨fun at_ k v => ?_, fun ty k v => ?_⟩
  · rw [htrigger]
    simp only
    split
    · next hk =>
      subst hk
      rw [get_moveDue fun at' v' => ?_]
      · simp [Option.bind_eq_some_iff]
      · rw [hσ.due, hbefore]
        simp [Option.bind_eq_some_iff]
    -- the rows by event type: of the old types those that are not among the new ones are deleted
    · next hk => rw [get_moveDue_ne _ _ _ _ hk, hσ.due]
  · rw [htrigger]
    simp only
    rw [get_moveTypes]
    split
    · next hk =>
      subst hk
      have hold : (σ.triggerType ty).get k = some v ↔ v = k ∧ ty ∈ before.elim [] (·.types) := by
        rw [hσ.type_, ← hbefore]
        cases before <;> simp
      have hnew : (∃ t, after = some t ∧ ty ∈ t.types) ↔ ty ∈ after.elim [] (·.types) := by
        cases after <;> simp
      rw [hnew]
      by_cases hn : ty ∈ after.elim [] (·.types)
      · by_cases ho : ty ∈ before.elim [] (·.types)
        · simp only [hn, ho, if_true, hold]
        · simp only [hn, ho, if_true, if_false, and_true, Option.some.injEq]
          exact eq_comm
      · by_cases ho : ty ∈ before.elim [] (·.types)
        · simp [hn, ho]
        · simp only [hn, ho, if_false, hold]
    · exact hσ.type_ ty k v

end Engine

instance : RunFrame (Keeps Armed) where
  core _ _ _ hσ := hσ.of_eq rfl rfl rfl

instance : CatalogFrame (Keeps Armed) where
  free _ _ h hσ := hσ.of_eq h.trigger h.due h.type_
  trigger key after := by
    intro σ u σ' h hσ
    obtain ⟨current, σ₁, hread, h⟩ := bind_ok.mp h
    obtain ⟨rfl, rfl⟩ := read_ok.mp hread
    exact storeTrigger_armed hσ rfl h

/-! ### Trips at a promotion -/

/-- The refused slots buffered for a definition. -/
def refusedSlots (σ : Rows) (name : String) : Nat :=
  (σ.triggerQueue.rows.filter fun row =>
    row.2.failure.isSome && decide (row.2.admission.name = name)).length

theorem mem_refused {σ : Rows} {name key : String} {q : Queued} :
    (key, q) ∈ (σ.triggerQueue.rows.filter fun row =>
      row.2.failure.isSome && decide (row.2.admission.name = name)) ↔
      σ.triggerQueue.get key = some q ∧ q.failure.isSome = true ∧ q.admission.name = name := by
  simp [List.mem_filter, Table.mem_rows]

theorem refused_nodup (σ : Rows) (name : String) :
    (σ.triggerQueue.rows.filter fun row =>
      row.2.failure.isSome && decide (row.2.admission.name = name)).Nodup :=
  List.Nodup.filter _ (σ.triggerQueue.rows_sorted.imp fun h heq => absurd (congrArg Prod.fst heq) h.ne)

section Fewer

variable {σ σ' : Rows}
  (hqueue : ∀ k q, σ'.triggerQueue.get k = some q → σ.triggerQueue.get k = some q)

include hqueue

theorem refusedSlots_le (name : String) : refusedSlots σ' name ≤ refusedSlots σ name := by
  refine ((refused_nodup σ' name).subperm ?_).length_le
  rintro ⟨k, q⟩ hmem
  obtain ⟨hq, hfailure, hname⟩ := mem_refused.mp hmem
  exact mem_refused.mpr ⟨hqueue k q hq, hfailure, hname⟩

/-- A refused slot less. -/
theorem refusedSlots_lt {key : String} {q : Queued} (hq : σ.triggerQueue.get key = some q)
    (hfailure : q.failure.isSome = true) (hgone : σ'.triggerQueue.get key = none) :
    refusedSlots σ' q.admission.name < refusedSlots σ q.admission.name := by
  have hnew : (key, q) ∉ (σ'.triggerQueue.rows.filter fun row =>
      row.2.failure.isSome && decide (row.2.admission.name = q.admission.name)) := fun hmem => by
    rw [mem_refused, hgone] at hmem
    simp at hmem
  refine (((refused_nodup σ' q.admission.name).cons hnew).subperm ?_).length_le
  intro row hmem
  rcases List.mem_cons.mp hmem with rfl | hmem
  · exact mem_refused.mpr ⟨hq, hfailure, rfl⟩
  · obtain ⟨hq', hfailure', hname'⟩ := mem_refused.mp (show (row.1, row.2) ∈ _ from hmem)
    exact mem_refused.mpr ⟨hqueue _ _ hq', hfailure', hname'⟩

end Fewer

/-- No definition that owns the trigger can trip on its refused slots: if all of them counted, its
faults would stay below the threshold. -/
def Untrippable (key : String) (σ : Rows) : Prop :=
  ∀ name defs, σ.definitions.get name = some defs → key ∈ defs.triggers → defs.tripped = none →
    ∀ k q error default threshold, σ.triggerQueue.get k = some q → q.admission.name = name →
      q.failure = some (error, default) → defs.active = some q.admission.version →
      defs.threshold q.admission.version default = some threshold →
      defs.consecutiveFaults + refusedSlots σ name < threshold

/-- Slots go, and definitions count no more faults than slots went. -/
theorem Untrippable.mono {key : String} {σ σ' : Rows} (h : Untrippable key σ)
    (hqueue : ∀ k q, σ'.triggerQueue.get k = some q → σ.triggerQueue.get k = some q)
    (hdefs : ∀ name defs', σ'.definitions.get name = some defs' → key ∈ defs'.triggers →
      ∃ defs, σ.definitions.get name = some defs ∧ defs'.triggers = defs.triggers ∧
        defs'.tripped = defs.tripped ∧ defs'.active = defs.active ∧ defs'.versions = defs.versions ∧
        defs'.consecutiveFaults + refusedSlots σ' name ≤
          defs.consecutiveFaults + refusedSlots σ name) : Untrippable key σ' := by
  intro name defs' hdefs' hkey htrip k q error default threshold hq hname hfailure hactive hthreshold
  obtain ⟨defs, hget, htriggers, htripped, hactive', hversions, hle⟩ := hdefs name defs' hdefs' hkey
  refine lt_of_le_of_lt hle (h name defs hget (htriggers ▸ hkey) (htripped ▸ htrip) k q error default
    threshold (hqueue k q hq) hname hfailure (hactive' ▸ hactive) ?_)
  rw [← hthreshold, Definitions.threshold, Definitions.threshold, hversions]

/-- The trigger is stored as `stored`, and no promotion can disarm it. -/
structure Guarded (key : String) (stored : Option Trigger) (σ : Rows) : Prop where
  trigger : σ.trigger.get key = stored
  trips : Untrippable key σ

/-- Rows of no trigger, slot or definition. -/
theorem Guarded.of_eq {key : String} {stored : Option Trigger} {σ σ' : Rows}
    (h : Guarded key stored σ) (htrigger : σ'.trigger = σ.trigger)
    (hqueue : σ'.triggerQueue = σ.triggerQueue) (hdefs : σ'.definitions = σ.definitions) :
    Guarded key stored σ' where
  trigger := by rw [htrigger]; exact h.trigger
  trips := by
    have hslots : ∀ name, refusedSlots σ' name = refusedSlots σ name := fun name => by
      rw [refusedSlots, refusedSlots, hqueue]
    refine h.trips.mono (fun k q hq => by rw [← hqueue]; exact hq) fun name defs hget _ => ?_
    exact ⟨defs, by rw [← hdefs]; exact hget, rfl, rfl, rfl, rfl, by rw [hslots]⟩

instance (key : String) (stored : Option Trigger) : RunFrame (Keeps (Guarded key stored)) where
  core _ _ _ h := h.of_eq rfl rfl rfl

theorem SamePlan.guarded {key : String} {stored : Option Trigger} {σ σ' : Rows} (h : SamePlan σ σ') :
    Keeps (Guarded key stored) σ σ' :=
  fun hσ => hσ.of_eq h.trigger h.queue h.definitions

namespace Engine

variable {key : String} {stored : Option Trigger}

/-- A refused slot that is promoted counts as one fault and is one slot less. -/
theorem refuse_guarded {σ σ₁ σ' : Rows} {slot : String} {q : Queued} {error : WorkflowError}
    {default : Nat} {u : Unit} (hσ : Guarded key stored σ) (hq : σ.triggerQueue.get slot = some q)
    (hfailure : q.failure = some (error, default)) (hempty : Emptied [slot] σ σ₁)
    (hσ₁ : Guarded key stored σ₁)
    (h : refuse env { admission := q.admission, error, breakerThreshold := default } now σ₁ =
      .ok (u, σ')) : Guarded key stored σ' := by
  -- a slot whose run exists already, or the first and ended row of its run
  obtain ⟨-, rfl⟩ | ⟨-, s, σ₂, rfl, hstore, hobserves⟩ := refuse_ok h
  · exact hσ₁
  have hsame : SamePlan σ₁ σ₂ := storeRun_frame _ hstore
  have hσ₂ := hsame.guarded hσ₁
  have hqueue : ∀ k q, σ₂.triggerQueue.get k = some q → σ.triggerQueue.get k = some q :=
    fun k q hq => hempty.kept (by rw [← hsame.queue]; exact hq)
  have hdefinitions : σ₂.definitions = σ.definitions := hsame.definitions.trans hempty.definitions
  -- the slot is gone, so its name has one refused slot less
  have hlt : refusedSlots σ₂ q.admission.name < refusedSlots σ q.admission.name := by
    refine refusedSlots_lt hqueue hq (by simp [hfailure]) ?_
    rw [hsame.queue, hempty.queue, if_pos (List.mem_singleton_self _)]
  -- the rows of the definitions the fault is not counted by
  have hothers : ∀ {σ₃ : Rows}, (∀ k q, σ₃.triggerQueue.get k = some q → σ.triggerQueue.get k = some q) →
      ∀ name defs, σ₂.definitions.get name = some defs → ∃ defs', σ.definitions.get name = some defs' ∧
        defs.triggers = defs'.triggers ∧ defs.tripped = defs'.tripped ∧ defs.active = defs'.active ∧
        defs.versions = defs'.versions ∧ defs.consecutiveFaults + refusedSlots σ₃ name ≤
          defs'.consecutiveFaults + refusedSlots σ name := by
    intro σ₃ hqueue₃ name defs hdefs
    rw [hdefinitions] at hdefs
    exact ⟨defs, hdefs, rfl, rfl, rfl, rfl, Nat.add_le_add_left (refusedSlots_le hqueue₃ name) _⟩
  -- what the breaker observes of the refused run
  cases hobserves with
  | nothing => exact hσ₂
  | reset defs hdefs hcounts hfault => simp at hfault
  -- the breaker counts a fault: the sum of faults and refused slots stays at most what it was
  | counted defs reason hdefs hcounts hfault hbelow =>
    refine ⟨hσ₂.trigger, hσ.trips.mono hqueue fun name defs' hdefs' _ => ?_⟩
    change (σ₂.definitions.put q.admission.name defs.faulted).get name = some defs' at hdefs'
    rw [Table.get_put] at hdefs'
    split at hdefs'
    · next hname =>
      obtain rfl := Option.some.inj hdefs'
      subst hname
      refine ⟨defs, by rw [← hdefinitions]; exact hdefs, rfl, rfl, rfl, rfl, ?_⟩
      have hcf : defs.faulted.consecutiveFaults ≤ defs.consecutiveFaults + 1 := Nat.min_le_left _ _
      change defs.faulted.consecutiveFaults + refusedSlots σ₂ q.admission.name ≤ _
      omega
    · exact hothers hqueue name defs' hdefs'
  -- the breaker trips and disarms the triggers that the definition owns
  | tripped defs reason threshold σ₃ hdefs hcounts hfault hthreshold hreached harm =>
    -- the definition does not own the trigger: its refused slots could not reach the threshold
    have hkey : key ∉ defs.triggers := by
      intro hmem
      have hdefs : σ₂.definitions.get q.admission.name = some defs := hdefs
      rw [hdefinitions] at hdefs
      have hbelow := hσ.trips q.admission.name defs hdefs hmem hcounts.untripped slot q error default
        threshold hq rfl hfailure hcounts.active hthreshold
      have hcf : defs.faulted.consecutiveFaults ≤ defs.consecutiveFaults + 1 := Nat.min_le_left _ _
      omega
    have hqueue₃ : ∀ k q, σ₃.triggerQueue.get k = some q → σ.triggerQueue.get k = some q :=
      fun k q hq => hqueue k q (harm.kept hq)
    refine ⟨?_, hσ.trips.mono hqueue₃ fun name defs' hdefs' hmem => ?_⟩
    · change σ₃.trigger.get key = stored
      rw [harm.trigger, if_neg hkey]
      simpa using hσ₂.trigger
    · change (σ₃.definitions.put q.admission.name _).get name = some defs' at hdefs'
      rw [Table.get_put, harm.definitions] at hdefs'
      split at hdefs'
      · obtain rfl := Option.some.inj hdefs'
        simp at hmem
      · exact hothers hqueue₃ name defs' hdefs'

theorem promote_guarded (name slot : String) :
    Steps (Keeps (Guarded key stored)) (promote env name slot now) := by
  intro σ u σ' h hσ
  obtain ⟨rfl, -⟩ | ⟨q, t, σ₁, hq, -, -, hempty, htrigger, hrest⟩ := promote_ok h
  · exact hσ
  have hσ₁ : Guarded key stored σ₁ := by
    refine ⟨by rw [htrigger]; exact hσ.trigger, hσ.trips.mono (fun k q => hempty.kept) ?_⟩
    intro name defs hdefs _
    rw [hempty.definitions] at hdefs
    exact ⟨defs, hdefs, rfl, rfl, rfl, rfl,
      Nat.add_le_add_left (refusedSlots_le (fun k q => hempty.kept) name) _⟩
  rcases hrest with ⟨error, default, hfailure, hrefuse⟩ | ⟨-, hadmit⟩
  · exact refuse_guarded hσ hq hfailure hempty hσ₁ hrefuse
  · exact (admitFiring_ok hadmit).1.guarded hσ₁

theorem drainQueues_guarded (name : String) :
    Steps (Keeps (Guarded key stored)) (drainQueues env name now) :=
  drainQueues_steps (fun _ _ h => h.of_eq rfl rfl rfl) promote_guarded name

end Engine

/-! ### Runs that are replaced -/

/-- The end of the run does not rearm the trigger as it is stored. -/
def Harmless (key : String) (stored : Option Trigger) (s : StoredRun) : Prop :=
  ∀ r t, s.rearm = some (r, t) → r.trigger = key → stored = some t → t.atMs ≠ none

namespace Engine

variable {key : String} {stored : Option Trigger}

theorem rearmTrigger_guarded {s : StoredRun} (hs : Harmless key stored s) :
    Steps (Keeps (Guarded key stored)) (rearmTrigger s now) := by
  intro σ u σ' h hσ
  unfold rearmTrigger at h
  cases hrearm : s.rearm with
  -- the run rearms nothing
  | none =>
    simp only [hrearm, pure_ok] at h
    rwa [h.2]
  | some p =>
    simp only [hrearm, bind_ok, read_ok] at h
    obtain ⟨found, σ₁, ⟨hfound, rfl⟩, h⟩ := h
    cases found with
    | none =>
      rw [(pure_ok.mp h).2]
      exact hσ
    | some t =>
      simp only at h
      split at h
      -- the trigger that it rearms is another one, since the run is harmless
      · next hstored =>
        have hne : key ≠ p.1.trigger := by
          intro heq
          refine hs p.1 p.2 hrearm heq.symm ?_ (hstored.1 ▸ hstored.2)
          rw [← hσ.trigger, heq, ← hfound, hstored.1]
        refine ⟨?_, ?_⟩
        · rw [get_storeTrigger hfound h, if_neg hne]
          exact hσ.trigger
        · obtain rfl := write_ok.mp h
          exact hσ.trips
      · rw [(pure_ok.mp h).2]
        exact hσ

/-- A run ends that does not rearm the trigger. -/
theorem terminate_guarded {id : String} {status : Status} {s : StoredRun} {σ σ' : Rows} {u : Unit}
    (hs : σ.run.get id = some s) (hharmless : Harmless key stored s) (hσ : Guarded key stored σ)
    (h : terminate env id status now σ = .ok (u, σ')) : Guarded key stored σ' := by
  obtain ⟨acc, σ₁, σ₂, σ₃, htree, hlife, hdrain, hsame, -⟩ := terminate_ok h
  obtain ⟨s', σ₄, σ₅, hs', h₁, hrearm, h₂⟩ := endTree_plan htree
  obtain rfl := Option.some.inj (hs.symm.trans hs')
  have hσ₁ := h₂.guarded (rearmTrigger_guarded hharmless hrearm (h₁.guarded hσ))
  have hlife : SamePlan σ₁ σ₂ := lifecycle_frame _ _ hlife
  have hσ₂ := hlife.guarded hσ₁
  exact hsame.guarded (Steps.each (fun name => drainQueues_guarded name) _ hdrain hσ₂)

/-- Runs are replaced whose ends do not rearm the trigger. -/
theorem replaceLive_guarded {live : List (IndexKey × IndexValue)} {σ σ' : Rows} {u : Unit}
    (hgood : Good σ) (hσ : Guarded key stored σ)
    (hlive : ∀ row ∈ live, ∀ id, row.2 = .run id →
      ∃ s, σ.run.get id = some s ∧ Harmless key stored s)
    (h : replaceLive env live now σ = .ok (u, σ')) : Guarded key stored σ' := by
  -- along the live runs of the trigger: each is cancelled, and the ones after it stay harmless
  refine (each_keeps (I := fun σ => Good σ ∧ Guarded key stored σ ∧ ∀ row ∈ live, ∀ id,
    row.2 = .run id → ∃ s, σ.run.get id = some s ∧ Harmless key stored s) ?_ ⟨hgood, hσ, hlive⟩ h).2.1
  -- one run cancelled
  rintro row hrow σ₁ σ₂ u₁ ⟨hgood₁, hσ₁, hlive₁⟩ h₁
  cases hvalue : row.2 with
  | wait w =>
    rw [hvalue] at h₁
    exact (fail_ok.mp h₁).elim
  | run id =>
    rw [hvalue] at h₁
    obtain ⟨b, hcancel, -⟩ := map_ok.mp h₁
    have hreach : Reaches env now (fun _ _ => True) σ₁ σ₂ :=
      cancelRun_reaches id trivial (fun _ => trivial) hcancel
    refine ⟨hreach.good hgood₁, ?_, fun row' hrow' id' hvalue' => ?_⟩
    · obtain ⟨s, hs, hharmless⟩ := hlive₁ row hrow id hvalue
      simp only [cancelRun, bind_ok, findRun_ok] at hcancel
      obtain ⟨found, σ₃, ⟨rfl, rfl⟩, hcancel⟩ := hcancel
      -- an ended run is left alone; a live one is terminated with its subtree
      simp only [hs] at hcancel
      split at hcancel
      · rw [(pure_ok.mp hcancel).2]
        exact hσ₁
      · simp only [bind_ok, pure_ok] at hcancel
        obtain ⟨u₂, σ₄, hterm, -, rfl⟩ := hcancel
        exact terminate_guarded hs hharmless hσ₁ hterm
    · -- the other runs keep what they were born with
      obtain ⟨s, hs, hharmless⟩ := hlive₁ row' hrow' id' hvalue'
      obtain ⟨s', hs', hbirth⟩ := (hreach hgood₁).2.stored hgood₁.inv (R := SameBirth) .refl
        (fun _ _ _ => .trans) (fun _ _ _ _ _ hchange => hchange.birth) hs
      refine ⟨s', hs', fun r t hrearm => hharmless r t ?_⟩
      rw [← hbirth.rearm]
      exact hrearm

end Engine

/-! ### Firings -/

/-- The firing replaces the live runs of its trigger. -/
def Firing.replaces (f : Firing) : Prop := ∃ g, f.overlap = some g ∧ g.policy = .replace

/-- The admission a firing is about. -/
def Firing.candidate (f : Firing) : Option Admission :=
  f.admits.head?.orElse fun _ => f.refused.map (·.admission)

/-- Neither a live run of the trigger nor the run of its buffered slot would rearm the trigger. -/
structure Calm (key : String) (stored : Option Trigger) (σ : Rows) : Prop where
  runs : ∀ id s, σ.run.get id = some s → s.run.endedMs = none → s.trigger = some key →
    Harmless key stored s
  slot : ∀ q, σ.triggerQueue.get key = some q → q.failure = none → ∀ r t, q.rearm = some r →
    r.trigger = key → stored = some t → t.atMs ≠ none

/-- What a replacing firing needs of the rows it finds, so that its own trigger stays as it read it
until it stores the next one. -/
structure Undisturbed (σ : Rows) (f : Firing) : Prop where
  /-- The end of none of the runs it replaces rearms the trigger. -/
  runs : ∀ id s, σ.run.get id = some s → s.run.endedMs = none → s.trigger = some f.key →
    Harmless f.key f.expected s
  /-- Nor that of the run of the trigger's slot, when the firing drains the definition first. -/
  slot : ∀ a, f.candidate = some a → σ.controlDrain.contains a.name = true →
    ∀ q, σ.triggerQueue.get f.key = some q → q.failure = none → ∀ r t, q.rearm = some r →
      r.trigger = f.key → f.expected = some t → t.atMs ≠ none
  /-- No refused slot trips a definition that owns the trigger. -/
  trips : Untrippable f.key σ

namespace Engine

/-- A promotion admits no run that would rearm the trigger. -/
theorem promote_calm {key : String} {stored : Option Trigger} (name slot : String) :
    Steps (Keeps (Calm key stored)) (promote env name slot now) := by
  -- nothing to promote, or a slot taken off the queue
  intro σ u σ' h hσ
  obtain ⟨rfl, -⟩ | ⟨q, t, σ₁, hq, -, ht, hempty, htrigger, hrest⟩ := promote_ok h
  · exact hσ
  have hσ₁ : Calm key stored σ₁ := by
    refine ⟨?_, fun q' hq' => hσ.slot q' (hempty.kept hq')⟩
    rw [show σ₁.run = σ.run from congrArg Core.run hempty.core]
    exact hσ.runs
  -- a refused slot becomes an ended run; another slot is admitted
  rcases hrest with ⟨error, default, -, hrefuse⟩ | ⟨hfailure, hadmit⟩
  · obtain ⟨-, rfl⟩ | ⟨-, s, σ₂, rfl, hstore, hobserves⟩ := refuse_ok hrefuse
    · exact hσ₁
    have hsame : SamePlan σ₁ σ₂ := storeRun_frame _ hstore
    refine ⟨fun id s' hs' hlive => ?_, fun q' hq' => hσ₁.slot q' ?_⟩
    · rw [show σ'.run = _ from congrArg Core.run (hobserves.core.1.trans (storeRun_core hstore)),
        Core.get_set] at hs'
      split at hs'
      · -- the refused run has ended
        obtain rfl := Option.some.inj hs'
        simp [stillborn] at hlive
      · exact hσ₁.runs id s' hs' hlive
    · rw [← hsame.queue]
      exact hobserves.queue hq'
  -- no run is admitted, or the run of the slot
  · obtain ⟨hsame, ⟨-, hcore, -⟩ | ⟨-, hcore, -⟩⟩ := admitFiring_ok hadmit
    · refine ⟨?_, ?_⟩
      · rw [show σ'.run = _ from congrArg Core.run hcore]
        exact hσ₁.runs
      · rw [hsame.queue]
        exact hσ₁.slot
    · refine ⟨fun id s' hs' hlive htrig r armed hrearm hkey hstored => ?_, ?_⟩
      · rw [show σ'.run = _ from congrArg Core.run hcore, Core.get_set] at hs'
        split at hs'
        · -- the run of the slot: its rearm is the slot's
          obtain rfl := Option.some.inj hs'
          obtain rfl : slot = key := Option.some.inj htrig
          have hslot : ∃ r', q.rearm = some r' ∧ (r', t) = (r, armed) := by
            simpa [bound, Option.bind_eq_some_iff] using hrearm
          obtain ⟨r', hr', heq⟩ := hslot
          obtain ⟨rfl, rfl⟩ := Prod.mk.inj heq
          exact hσ.slot q hq hfailure r' t hr' hkey hstored
        · exact hσ₁.runs id s' hs' hlive htrig r armed hrearm hkey hstored
      · rw [hsame.queue]
        exact hσ₁.slot

/-- The rows a replacing firing finds after its deferred drain. -/
theorem drainFor_calm {f : Firing} {σ σ' : Rows} {b : Bool} (hσ : Undisturbed σ f)
    (h : drainFor env f now σ = .ok (b, σ')) :
    (∀ id s, σ'.run.get id = some s → s.run.endedMs = none → s.trigger = some f.key →
      Harmless f.key f.expected s) ∧ Untrippable f.key σ' := by
  have htrips : Untrippable f.key σ' := by
    have hguarded : Guarded f.key (σ.trigger.get f.key) σ := ⟨rfl, hσ.trips⟩
    exact (drainFor_steps (fun _ _ h => h.of_eq rfl rfl rfl) promote_guarded f h hguarded).trips
  refine ⟨?_, htrips⟩
  unfold drainFor at h
  cases hcandidate : f.candidate with
  | none =>
    rw [Firing.candidate] at hcandidate
    simp only [hcandidate, pure_ok] at h
    rw [h.2]
    exact hσ.runs
  | some a =>
    have hslot := hσ.slot a hcandidate
    rw [Firing.candidate] at hcandidate
    simp only [hcandidate] at h
    by_cases hmarked : σ.controlDrain.contains a.name = true
    -- the name is marked: what the drain starts for it is harmless
    · have hcalm : Calm f.key f.expected σ := ⟨hσ.runs, hslot hmarked⟩
      exact (drainMarked_steps (fun _ _ h => ⟨h.runs, h.slot⟩) promote_calm a.name h hcalm).runs
    -- otherwise nothing is drained
    · simp only [drainMarked, isStopped, bind_ok, read_ok] at h
      obtain ⟨marked, σ₁, ⟨rfl, rfl⟩, stopped, σ₂, ⟨rfl, rfl⟩, h⟩ := h
      simp only [hmarked, Bool.false_and, Bool.false_eq_true, if_false, pure_ok] at h
      rw [h.2]
      exact hσ.runs

/-- A firing finds its trigger as it read it when it comes to store the next one. -/
theorem disposition_trigger {f : Firing} {σ σ' : Rows} {o : Outcome} (hgood : Good σ)
    (hσ : f.replaces → (∀ id s, σ.run.get id = some s → s.run.endedMs = none →
      s.trigger = some f.key → Harmless f.key (σ.trigger.get f.key) s) ∧ Untrippable f.key σ)
    (h : disposition env f now σ = .ok (o, σ')) : σ'.trigger.get f.key = σ.trigger.get f.key := by
  -- where no run is replaced, the outcome of a slot writes the queue alone
  have hslot : ∀ {g a live σ₁}, slotOutcome f g a live σ₁ = .ok (o, σ') → σ'.trigger = σ₁.trigger := by
    intro g a live σ₁ hslot
    simp only [slotOutcome, bind_ok, read_ok] at hslot
    obtain ⟨room, σ₂, ⟨-, rfl⟩, queued, σ₃, ⟨-, rfl⟩, hslot⟩ := hslot
    split at hslot
    · rw [(pure_ok.mp hslot).2]
    · split at hslot
      · split at hslot
        · simp only [bind_ok, write_ok, pure_ok] at hslot
          obtain ⟨u, σ₄, rfl, -, rfl⟩ := hslot
          rfl
        · rw [(pure_ok.mp hslot).2]
      · rw [(pure_ok.mp hslot).2]
  -- an overlap policy, or a busy trigger
  cases hoverlap : f.overlap with
  | some g =>
    cases hcandidate : f.admits.head?.orElse fun _ => f.refused.map (·.admission) with
    | some a =>
      simp only [disposition, hoverlap, hcandidate, bind_ok, ensure_ok, findRun_ok] at h
      obtain ⟨u₁, σ₁, ⟨-, rfl⟩, u₂, σ₂, ⟨-, rfl⟩, u₃, σ₃, ⟨-, rfl⟩, found, σ₄, ⟨-, rfl⟩, h⟩ := h
      cases found with
      | some s => rw [(pure_ok.mp h).2]
      | none =>
        -- the live runs of the trigger are cancelled when the policy is to replace them
        simp only [overlapped, bind_ok, read_ok] at h
        obtain ⟨live, σ₅, ⟨hlive, rfl⟩, h⟩ := h
        split at h
        · next hreplace =>
          obtain ⟨u₄, σ₆, hcancel, h⟩ := bind_ok.mp h
          obtain ⟨hruns, htrips⟩ := hσ ⟨g, hoverlap, hreplace⟩
          rw [hslot h]
          refine (replaceLive_guarded hgood ⟨rfl, htrips⟩ (fun row hrow id hvalue => ?_) hcancel).trigger
          rw [hlive, if_pos hreplace] at hrow
          obtain ⟨s, hs, hl, htrigger⟩ := hgood.indexed.of_triggerLive hrow hvalue
          exact ⟨s, hs, hruns id s hs hl htrigger⟩
        · rw [hslot h]
    | none =>
      simp only [disposition, hoverlap, hcandidate, pure_ok] at h
      rw [h.2]
  -- without a policy the trigger is read, not written
  | none =>
    cases hbusy : f.busy with
    | none =>
      simp only [disposition, hoverlap, hbusy, pure_ok] at h
      rw [h.2]
    | some busy =>
      simp only [disposition, hoverlap, hbusy] at h
      split at h
      · rw [(pure_ok.mp h).2]
      · simp only [bind_ok, read_ok] at h
        obtain ⟨last, σ₁, ⟨-, rfl⟩, h⟩ := h
        cases last with
        | none => rw [(pure_ok.mp h).2]
        | some last =>
          simp only [bind_ok, findRun_ok] at h
          obtain ⟨found, σ₂, ⟨-, rfl⟩, h⟩ := h
          split at h <;> rw [(pure_ok.mp h).2]

theorem ingestFiring_trigger {f : Firing} {σ σ' : Rows} {b : Bool}
    (h : ingestFiring env f now σ = .ok (b, σ')) : σ'.trigger = σ.trigger := by
  cases hingress : f.ingress with
  | none =>
    simp only [ingestFiring, hingress, pure_ok] at h
    rw [h.2]
  | some event =>
    simp only [ingestFiring, hingress, ingest, bind_ok] at h
    obtain ⟨⟨k, old, used⟩, σ₁, htomb, h⟩ := h
    obtain rfl := tombstone_reads _ _ htomb
    simp only at h
    split at h
    · rw [(pure_ok.mp h).2]
    · simp only [bind_ok, write_ok, pure_ok] at h
      obtain ⟨u, σ₂, rfl, -, rfl⟩ := h
      rfl

/-- A firing keeps the index rows exact, unless it replaces runs that disturb its trigger. -/
theorem fire_armed {f : Firing} {σ σ' : Rows} {r : Except Error Fired} (hgood : Good σ)
    (hundisturbed : f.replaces → Undisturbed σ f) (hσ : Armed σ)
    (h : fire env f now σ = .ok (r, σ')) : Armed σ' := by
  -- a stopped store fires nothing
  simp only [fire, isStopped, bind_ok, read_ok] at h
  obtain ⟨stopped, σ₁, ⟨-, rfl⟩, h⟩ := h
  split at h
  · rw [(pure_ok.mp h).2]
    exact hσ
  simp only [bind_ok, ensure_ok, read_ok] at h
  -- the definitions it admits are drained first
  obtain ⟨u, σ₂, ⟨-, rfl⟩, drained, σ₃, hdrain, current, σ₄, ⟨hcurrent, rfl⟩, h⟩ := h
  have hσ₁ : Armed σ₄ := drainFor_catalog (R := Keeps Armed) f hdrain hσ
  have hgood₁ : Good σ₄ := (drainFor_fills (fun _ => trivial) f hdrain : Fills env now (fun _ _ => True) _ _).good hgood
  -- the trigger was replaced since the scheduler read it
  split at h
  · rw [(pure_ok.mp h).2]
    exact hσ₁
  next hexpected =>
  obtain ⟨found, σ₅, hfirst, h⟩ := bind_ok.mp h
  obtain rfl := firstRefusal_reads _ _ hfirst
  cases found with
  | some refusal =>
    rw [(pure_ok.mp h).2]
    exact hσ₁
  | none =>
    -- the firing proper: dedup by the events used, disposition, copies, and the next trigger
    obtain ⟨fired, h, -⟩ := map_ok.mp h
    simp only [fireChecked, bind_ok] at h
    obtain ⟨used, σ₅, hused, h⟩ := h
    obtain rfl := ingested_reads f hused
    split at h
    · rw [(pure_ok.mp h).2]
      exact hσ₁
    obtain ⟨outcome, σ₆, hdisposition, h⟩ := bind_ok.mp h
    obtain ⟨used', σ₇, hingest, h⟩ := bind_ok.mp h
    have hσ₃ : Armed σ₇ := ingestFiring_catalog (R := Keeps Armed) f hingest
      (disposition_catalog (R := Keeps Armed) f hdisposition hσ₁)
    split at h
    · rw [(pure_ok.mp h).2]
      exact hσ₃
    -- the trigger stored in the end is the one that was read
    · have hread : current = σ₇.trigger.get f.key := by
        rw [ingestFiring_trigger hingest, hcurrent]
        refine (disposition_trigger hgood₁ (fun hreplaces => ?_) hdisposition).symm
        rw [← hcurrent, not_not.mp hexpected]
        exact drainFor_calm (hundisturbed hreplaces) hdrain
      exact commitFiring_catalog (R := Keeps Armed)
        (fun _ _ hput hσ => storeTrigger_armed hσ hread hput) h hσ₃

/-- Index rows that are exact lead to stored triggers. -/
theorem indexedTriggers_total {keys : List String} {σ : Rows}
    (h : ∀ k ∈ keys, ∃ t, σ.trigger.get k = some t) :
    ∃ found, indexedTriggers keys σ = .ok (found, σ) := by
  suffices hfold : ∀ (keys : List String) (out : List (String × Trigger)),
      (∀ k ∈ keys, ∃ t, σ.trigger.get k = some t) → ∃ found, Tx.fold (fun out k => do
        if out.any (·.1 == k) then pure out
        else
          let found ← Tx.read (·.trigger.get k)
          let t ← Tx.orFail found (.message s!"dangling trigger index {k}")
          pure (out ++ [(k, t)])) out keys σ = (.ok (found, σ) : Except Error _) from hfold keys [] h
  intro keys
  induction keys with
  | nil => exact fun out _ => ⟨out, rfl⟩
  | cons k keys ih =>
    intro out hkeys
    obtain ⟨t, ht⟩ := hkeys k List.mem_cons_self
    have hrest := fun out => ih out fun k' hk' => hkeys k' (List.mem_cons_of_mem _ hk')
    by_cases hout : out.any (·.1 == k) = true
    -- the key is known already, or its trigger is read and found
    · obtain ⟨found, hfound⟩ := hrest out
      refine ⟨found, bind_ok.mpr ⟨out, σ, ?_, hfound⟩⟩
      simp only [hout, if_true]
      rfl
    · obtain ⟨found, hfound⟩ := hrest (out ++ [(k, t)])
      refine ⟨found, bind_ok.mpr ⟨out ++ [(k, t)], σ, ?_, hfound⟩⟩
      simp only [hout]
      exact bind_ok.mpr ⟨some t, σ, read_ok.mpr ⟨ht.symm, rfl⟩,
        bind_ok.mpr ⟨t, σ, orFail_ok.mpr ⟨rfl, rfl⟩, rfl⟩⟩

variable {σ : Rows}

theorem dueTriggers_total (hσ : Armed σ) (now : Int) (limit : Nat) :
    ∃ found, dueTriggers now limit σ = .ok (found, σ) := by
  cases hstopped : σ.stopped.getD false with
  | true => exact ⟨[], bind_ok.mpr ⟨true, σ, read_ok.mpr ⟨hstopped.symm, rfl⟩, rfl⟩⟩
  | false =>
    obtain ⟨due, hdue⟩ : ∃ due, due = σ.triggerDue.scan (fun k => decide ((ofLex k).1 ≤ now))
        (some limit) := ⟨_, rfl⟩
    have hkeys : ∀ k ∈ due.map (·.2), ∃ t, σ.trigger.get k = some t := by
      intro k hk
      obtain ⟨row, hrow, rfl⟩ := List.mem_map.mp hk
      rw [hdue] at hrow
      have hget := (Table.of_mem_scan (show (row.1, row.2) ∈ _ from hrow)).1
      obtain ⟨hkey, t, ht, -⟩ := (hσ.due (ofLex row.1).1 (ofLex row.1).2 row.2).mp hget
      exact ⟨t, by rw [hkey]; exact ht⟩
    obtain ⟨found, hfound⟩ := indexedTriggers_total hkeys
    exact ⟨found, bind_ok.mpr ⟨false, σ, read_ok.mpr ⟨hstopped.symm, rfl⟩,
      bind_ok.mpr ⟨due, σ, read_ok.mpr ⟨hdue, rfl⟩, hfound⟩⟩⟩

theorem triggersFor_total (hσ : Armed σ) (type_ : String) (limit : Nat) :
    ∃ found, triggersFor type_ limit σ = .ok (found, σ) := by
  -- an index row leads to a stored trigger
  have htype : ∀ {ty limit row}, row ∈ (σ.triggerType ty).scan Table.all limit →
      ∃ t, σ.trigger.get row.2 = some t := by
    intro ty limit row hrow
    have hget := (Table.of_mem_scan (show (row.1, row.2) ∈ _ from hrow)).1
    obtain ⟨hkey, t, ht, -⟩ := (hσ.type_ ty row.1 row.2).mp hget
    exact ⟨t, by rw [hkey]; exact ht⟩
  cases hstopped : σ.stopped.getD false with
  | true => exact ⟨[], bind_ok.mpr ⟨true, σ, read_ok.mpr ⟨hstopped.symm, rfl⟩, rfl⟩⟩
  -- the rows of the type and of the wildcard are found, in whichever order
  | false =>
    obtain ⟨typed, htyped⟩ : ∃ typed, typed = (σ.triggerType type_).scan Table.all (some limit) :=
      ⟨_, rfl⟩
    obtain ⟨wild, hwild⟩ : ∃ wild, wild = if type_ ≠ "*" ∧ typed.length < limit then
        (σ.triggerType "*").scan Table.all (some (limit - typed.length)) else [] := ⟨_, rfl⟩
    have hrows : ∀ row, row ∈ typed ∨ row ∈ wild → ∃ t, σ.trigger.get row.2 = some t := by
      rintro row (hrow | hrow)
      · rw [htyped] at hrow
        exact htype hrow
      · rw [hwild] at hrow
        split at hrow
        · exact htype hrow
        · simp at hrow
    have hkeys : ∀ k ∈ (if component type_ ≤ component "*" then typed ++ wild else wild ++ typed).map
        (·.2), ∃ t, σ.trigger.get k = some t := by
      intro k hk
      obtain ⟨row, hrow, rfl⟩ := List.mem_map.mp hk
      refine hrows row ?_
      split at hrow
      · exact List.mem_append.mp hrow
      · exact (List.mem_append.mp hrow).symm
    obtain ⟨found, hfound⟩ := indexedTriggers_total hkeys
    exact ⟨found, bind_ok.mpr ⟨false, σ, read_ok.mpr ⟨hstopped.symm, rfl⟩,
      bind_ok.mpr ⟨typed, σ, read_ok.mpr ⟨htyped, rfl⟩,
        bind_ok.mpr ⟨wild, σ, read_ok.mpr ⟨hwild, rfl⟩, hfound⟩⟩⟩⟩

end Engine

/-! ### Histories -/

theorem step_armed {σ : Rows} (hgood : Good σ) (op : Op) (hσ : Armed σ)
    (hop : ∀ f t, op = .fire f t → f.replaces → Undisturbed σ f) : Armed (step env σ op) := by
  rcases step_cases env σ op with ⟨heq, -⟩ | ⟨r, htx, -⟩
  · rw [heq]
    exact hσ
  by_cases hfire : ∃ f t, op = .fire f t
  · obtain ⟨f, t, rfl⟩ := hfire
    obtain ⟨r', htx, -⟩ := map_ok.mp htx
    exact fire_armed hgood (hop f t rfl) hσ htx
  · refine Op.tx_catalog (R := Keeps Armed) (fun f t heq => absurd ⟨f, t, heq⟩ hfire)
      (fun request command t _ => ?_) htx hσ
    exact applyControl_catalog (fun _ _ _ _ _ h => h.of_eq rfl rfl rfl) request command

theorem armed_after (env : Env) (history : List Op)
    (h : ∀ before f t rest, history = before ++ Op.fire f t :: rest → f.replaces →
      Undisturbed (after env before) f) : Armed (after env history) := by
  induction history using List.reverseRecOn with
  | nil => exact .empty
  | append_singleton history op ih =>
    rw [after_concat]
    refine step_armed (good_after env history) op (ih fun before f t rest heq => ?_) fun f t heq => ?_
    · exact h before f t (rest ++ [op]) (by rw [heq]; simp)
    · exact h history f t [] (by rw [heq])

/-- In every history whose replacing firings find their triggers undisturbed, the index rows of
triggers are exact, and reading triggers through them never fails. -/
theorem trigger_index_exact (env : Env) (history : List Op)
    (h : ∀ before f t rest, history = before ++ Op.fire f t :: rest → f.replaces →
      Undisturbed (after env before) f) :
    Armed (after env history) ∧
      (∀ now limit, ∃ found, dueTriggers now limit (after env history) = .ok (found, after env history)) ∧
      ∀ type_ limit, ∃ found,
        triggersFor type_ limit (after env history) = .ok (found, after env history) := by
  have harmed := armed_after env history h
  exact ⟨harmed, dueTriggers_total harmed, triggersFor_total harmed⟩

/-! ### A trigger rearmed by the run it replaces -/

/-- A trigger that waits for the end of its run. -/
def Trigger.dormant (n : Int) : Trigger := { atMs := none, types := [], state := .num (.int n) }

/-- A slot of the trigger `k` that replaces its live run. -/
def Firing.replacing (id : String) (rearm : Option Rearm) (expected next : Option Trigger) : Firing :=
  { key := "k", expected, next, admits := [.plain id], rearm, ingress := none
    busy := some (.dormant 0), refused := none
    overlap := some { policy := .replace, maxConcurrentRuns := 5, ceiling := .dormant 0 } }

/-- Two slots, the second in place of the first, whose end rearms the trigger after `10`. -/
def slotReplaced : List Op :=
  [.fire (.replacing "a" (some { trigger := "k", delayMs := 10 }) none (some (.dormant 0))) 0,
    .fire (.replacing "b" none (some (.dormant 0)) (some (.dormant 1))) 1]

/-- The trigger then ends. -/
def replacedEnded : Op :=
  .fire { Firing.replacing "b" none (some (.dormant 1)) none with
    admits := [], busy := none, overlap := none } 2

/-- The row of the due time stays that the replaced run's end gave the trigger. -/
theorem stale_trigger_index :
    ¬Armed (after .plain slotReplaced) ∧
      (dueTriggers 11 5 (after .plain (slotReplaced ++ [replacedEnded]))).map (·.1) =
        .error (.message "dangling trigger index k") := by
  refine ⟨fun h => ?_, by decide +kernel⟩
  have hrow : (after .plain slotReplaced).triggerDue.get (toLex (11, "k")) = some "k" := by decide +kernel
  have htrigger : (after .plain slotReplaced).trigger.get "k" = some (.dormant 1) := by decide +kernel
  obtain ⟨-, t, ht, hat⟩ := (h.due 11 "k" "k").mp hrow
  rw [htrigger, Option.some.injEq] at ht
  simp [← ht, Trigger.dormant] at hat

/-- Two slots, the second in place of the first, whose run rearms nothing. -/
def slotSucceeded : List Op :=
  [.fire (.replacing "a" none none (some (.dormant 0))) 0,
    .fire (.replacing "b" none (some (.dormant 0)) (some (.dormant 1))) 1]

/-- A firing that replaces the live run of its trigger, whose end does not rearm it. -/
theorem replaced_index_exact :
    ((after .plain slotSucceeded).run.get "a").any (·.run.endedMs.isSome) = true ∧
      Armed (after .plain slotSucceeded) := by
  refine ⟨by decide +kernel, (trigger_index_exact .plain slotSucceeded ?_).1⟩
  have hplain : ∀ σ : Rows, (σ.run.rows.all fun row => decide (row.2.rearm = none)) = true →
      σ.triggerQueue.isEmpty = true → ∀ f, Undisturbed σ f := by
    intro σ hruns hqueue f
    have hnone : ∀ k q, σ.triggerQueue.get k ≠ some q := fun k q hq => by
      rw [← Table.mem_rows, List.isEmpty_iff.mp hqueue] at hq
      simp at hq
    refine ⟨fun id s hs _ _ r t hrearm => ?_, fun _ _ _ q hq => (hnone _ q hq).elim,
      fun _ _ _ _ _ k q _ _ _ hq => (hnone k q hq).elim⟩
    have hs' := List.all_eq_true.mp hruns (id, s) ((Table.mem_rows _).mpr hs)
    simp [hrearm] at hs'
  intro before f t rest heq _
  rcases before with _ | ⟨op, _ | ⟨op', before⟩⟩
  · exact hplain _ (by decide +kernel) (by decide +kernel) f
  · obtain rfl := (List.cons.inj heq).1
    exact hplain _ (by decide +kernel) (by decide +kernel) f
  · simp [slotSucceeded] at heq

end Ouro
