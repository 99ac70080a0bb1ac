import Ouro.Durable.Invariant

/-!
# Calls as paths of moves: triggers and admissions

A transaction on a good store (`Good`: indexed, and with the invariant on its run rows) leads along a
path of moves to a good store (`Reaches`). Some transactions touch nothing of runs (`Quiet`): the
rows of triggers, of the breaker and of the catalog. Others only add runs (`Fills`): admissions,
refusals and the promotion of buffered slots, whatever they are nested in.
-/

namespace Ouro

open Lib Engine Tx

variable {env : Env} {now : Int} {may : String → Act → Prop}

/-! ### Relations between stores -/

/-- The store is indexed and its run rows satisfy their invariant. -/
structure Good (σ : Rows) : Prop where
  indexed : Indexed σ
  inv : Inv σ.toCore

theorem Good.empty : Good .empty := ⟨.empty, .empty⟩

/-- Neither run rows nor their index are touched. -/
def Quiet (σ σ' : Rows) : Prop := σ'.toCore = σ.toCore ∧ σ'.index = σ.index

instance : IsPreorder Rows Quiet where
  refl _ := ⟨rfl, rfl⟩
  trans _ _ _ h h' := ⟨h'.1.trans h.1, h'.2.trans h.2⟩

/-- A good store leads along moves to an indexed one. -/
def Reaches (env : Env) (now : Int) (may : String → Act → Prop) (σ σ' : Rows) : Prop :=
  Good σ → Indexed σ' ∧ Path env now may σ.toCore σ'.toCore

theorem Reaches.good {σ σ' : Rows} (h : Reaches env now may σ σ') (hσ : Good σ) : Good σ' :=
  ⟨(h hσ).1, hσ.inv.path (h hσ).2⟩

theorem Reaches.mono {may' : String → Act → Prop} {σ σ' : Rows} (h : Reaches env now may σ σ')
    (hmay : ∀ i a, may i a → may' i a) : Reaches env now may' σ σ' :=
  fun hσ => ⟨(h hσ).1, Path.mono (h hσ).2 hmay⟩

instance : IsPreorder Rows (Reaches env now may) where
  refl _ hσ := ⟨hσ.indexed, .refl⟩
  trans _ _ _ h h' hσ := ⟨(h' (h.good hσ)).1, (h hσ).2.trans (h' (h.good hσ)).2⟩

/-- The same, and no stored run row changes. -/
def Fills (env : Env) (now : Int) (may : String → Act → Prop) (σ σ' : Rows) : Prop :=
  Good σ → (Indexed σ' ∧ Path env now may σ.toCore σ'.toCore) ∧
    ∀ i s, σ.run.get i = some s → σ'.run.get i = some s

theorem Fills.reaches {σ σ' : Rows} (h : Fills env now may σ σ') : Reaches env now may σ σ' :=
  fun hσ => (h hσ).1

theorem Fills.good {σ σ' : Rows} (h : Fills env now may σ σ') (hσ : Good σ) : Good σ' :=
  h.reaches.good hσ

instance : IsPreorder Rows (Fills env now may) where
  refl _ hσ := ⟨⟨hσ.indexed, .refl⟩, fun _ _ h => h⟩
  trans _ _ _ h h' hσ :=
    ⟨trans_of (Reaches env now may) h.reaches h'.reaches hσ,
      fun i s hs => (h' (h.good hσ)).2 i s ((h hσ).2 i s hs)⟩

theorem Quiet.indexed {σ σ' : Rows} (h : Quiet σ σ') (hσ : Indexed σ) : Indexed σ' :=
  hσ.of_eq (congrArg Core.run h.1) h.2

theorem Quiet.good {σ σ' : Rows} (h : Quiet σ σ') (hσ : Good σ) : Good σ' :=
  ⟨h.indexed hσ.indexed, by rw [h.1]; exact hσ.inv⟩

theorem Quiet.fills {σ σ' : Rows} (h : Quiet σ σ') : Fills env now may σ σ' := by
  intro hσ
  refine ⟨⟨h.indexed hσ.indexed, ?_⟩, fun i s hs => ?_⟩
  · rw [h.1]
  · rw [show σ'.run = σ.run from congrArg Core.run h.1]
    exact hs

theorem Quiet.reaches {σ σ' : Rows} (h : Quiet σ σ') : Reaches env now may σ σ' := h.fills.reaches

/-! ### Writes of run rows -/

theorem storeRun_core {s : StoredRun} {σ σ' : Rows} {u : Unit}
    (h : storeRun s σ = .ok (u, σ')) : σ'.toCore = σ.toCore.set s := by
  rw [storeRun_ok h]
  rfl

/-- A row written over another of the same run. -/
theorem Core.set_set {c : Core} {s s' : StoredRun} (h : s'.id = s.id) :
    (c.set s).set s' = c.set s' := by
  unfold Core.set
  rw [h, Table.put_put]

/-- A row written as it is stored. -/
theorem Core.set_self {c : Core} {s : StoredRun} (h : c.run.get s.id = some s) : c.set s = c := by
  unfold Core.set
  rw [Table.put_get _ h]

/-- A stored row is under its own id. -/
theorem Good.get_id {σ : Rows} (hσ : Good σ) {i : String} {s : StoredRun}
    (h : σ.run.get i = some s) : σ.run.get s.id = some s := by
  rw [hσ.indexed.keyed i s h]
  exact h

/-- Storing the row a move writes. -/
theorem Good.store {σ σ' : Rows} (hσ : Good σ) {s : StoredRun} {u : Unit}
    (h : storeRun s σ = .ok (u, σ')) (hmove : Path env now may σ.toCore (σ.toCore.set s)) :
    Indexed σ' ∧ Path env now may σ.toCore σ'.toCore :=
  ⟨hσ.indexed.storeRun h, by rw [storeRun_core h]; exact hmove⟩

/-- Storing a rewritten row. -/
theorem Good.rewrite {σ σ' : Rows} (hσ : Good σ) {i : String} {s s' : StoredRun} {u : Unit}
    (hs : σ.run.get i = some s) (hr : Rewrite σ.toCore now may s s')
    (h : storeRun s' σ = .ok (u, σ')) : Indexed σ' ∧ Path env now may σ.toCore σ'.toCore :=
  hσ.store h (.single (.rewrite (hσ.get_id hs) hr))

/-! ### Quiet transactions -/

namespace Engine

theorem storeTrigger_quiet (key : String) (before after : Option Trigger) :
    Steps Quiet (storeTrigger key before after) :=
  .write fun _ => ⟨rfl, rfl⟩

theorem replaceTrigger_quiet (key : String) (after : Option Trigger) :
    Steps Quiet (replaceTrigger key after) :=
  .bind .read fun _ => storeTrigger_quiet _ _ _

theorem removeQueue_quiet (key : String) : Steps Quiet (removeQueue key) := by
  refine .write fun σ => ?_
  split <;> exact ⟨rfl, rfl⟩

theorem arm_quiet (defs : Definitions) (wanted : Table String Trigger) :
    Steps Quiet (arm defs wanted) :=
  .bind (.each removeQueue_quiet _) fun _ =>
    .bind (.each (fun k => replaceTrigger_quiet k none) _) fun _ =>
      .bind (.each (fun row : String × Trigger => replaceTrigger_quiet row.1 (some row.2)) _)
        fun _ => .pure

theorem storeDefinitions_quiet (name : String) (defs : Definitions) :
    Steps Quiet (storeDefinitions name defs) :=
  .write fun _ => ⟨rfl, rfl⟩

theorem countFault_quiet (r : SavedRun) (reason : WorkflowError) (default : Nat) (now : Int)
    (defs : Definitions) : Steps Quiet (countFault env r reason default now defs) := by
  unfold countFault
  simp only
  split
  · exact storeDefinitions_quiet _ _
  · split
    · exact .bind (arm_quiet _ _) fun _ =>
        .bind (.write fun _ => ⟨rfl, rfl⟩) fun _ => storeDefinitions_quiet _ _
    · exact storeDefinitions_quiet _ _

theorem breaker_quiet (r : SavedRun) (fault : Option WorkflowError) (success : Bool)
    (default : Nat) (now : Int) : Steps Quiet (breaker env r fault success default now) := by
  refine .bind .read fun found => ?_
  split
  · exact .pure
  · split
    · exact .pure
    · split
      · exact countFault_quiet _ _ _ _ _
      · split
        · exact storeDefinitions_quiet _ _
        · exact .pure

theorem rearmTrigger_quiet (s : StoredRun) (now : Int) : Steps Quiet (rearmTrigger s now) := by
  unfold rearmTrigger
  split
  · exact .pure
  · refine .bind .read fun found => ?_
    split
    · exact .pure
    · split
      · exact storeTrigger_quiet _ _ _
      · exact .pure

theorem addBucket_quiet (name : String) (now : Int) (runs : Nat) (annotations : Totals) :
    Steps Quiet (addBucket env name now runs annotations) :=
  .write fun _ => ⟨rfl, rfl⟩

theorem tombstone_reads (event : Json) (now : Int) : Steps (· = ·) (tombstone event now) := by
  refine .bind .orFail fun id => .bind .read fun stored => ?_
  split
  · split
    · exact .bind .ensure fun _ => .pure
    · exact .pure
  · exact .pure

theorem ingest_quiet (event : Json) (now : Int) : Steps Quiet (ingest env event now) := by
  refine .bind (tombstone_reads _ _).of_eq fun found => ?_
  split
  split
  · exact .pure
  · exact .bind (.write fun _ => ⟨rfl, rfl⟩) fun _ => .pure

theorem activate_quiet (name : String) (version : Nat) (epoch : Option Nat)
    (triggers : Table String Trigger) (activation : Activation) :
    Steps Quiet (activate name version epoch triggers activation) := by
  refine .bind .read fun found => .bind .ensure fun _ => ?_
  split
  · exact .pure
  · exact .bind .ensure fun _ => .bind (.write fun _ => ⟨rfl, rfl⟩) fun _ =>
      .bind (arm_quiet _ _) fun _ => .bind (storeDefinitions_quiet _ _) fun _ => .pure

theorem saveDefinition_quiet (name yaml : String) (breaker : Breaker) :
    Steps Quiet (saveDefinition env name yaml breaker) :=
  .bind .read fun _ => .bind .orFail fun _ => .bind (storeDefinitions_quiet _ _) fun _ => .pure

theorem acknowledge_quiet (key : Int ×ₗ String) : Steps Quiet (acknowledge key) := by
  refine .bind .read fun found => ?_
  simp only
  split
  · exact .bind (.write fun _ => ⟨rfl, rfl⟩) fun _ => .pure
  · exact .pure

theorem beat_quiet (w : Worker) : Steps Quiet (beat w) := by
  refine .bind .ensure fun _ => .write fun σ => ?_
  simp only
  split
  · exact ⟨rfl, rfl⟩
  · split
    · exact ⟨rfl, rfl⟩
    · split <;> exact ⟨rfl, rfl⟩

theorem knownDefinitions_quiet (name : String) : Steps Quiet (knownDefinitions name) :=
  .bind .read fun _ => .orFail

theorem suspend_quiet (name : String) (defs : Definitions) : Steps Quiet (suspend name defs) :=
  .bind (.write fun _ => ⟨rfl, rfl⟩) fun _ => arm_quiet _ _

theorem pause_quiet (request : Request) (name note : String) (now : Int) :
    Steps Quiet (pause request name note now) := by
  refine .bind (knownDefinitions_quiet _) fun defs => ?_
  simp only
  split
  · split
    · exact .bind (suspend_quiet _ _) fun _ => .bind (storeDefinitions_quiet _ _) fun _ => .pure
    · exact .pure
  · exact .bind .orFail fun _ => .bind (suspend_quiet _ _) fun _ =>
      .bind (storeDefinitions_quiet _ _) fun _ => .pure

theorem restoreQueue_quiet (name : String) (row : String × Queued) :
    Steps Quiet (restoreQueue name row) :=
  .bind .ensure fun _ => .write fun _ => ⟨rfl, rfl⟩

theorem audit_quiet (entry : Entry) : Steps Quiet (audit entry) :=
  .write fun _ => ⟨rfl, rfl⟩

theorem drainedRefusal_reads (drained : Bool) (a : Admission) :
    Steps (· = ·) (drainedRefusal drained a) := by
  refine .bind .read fun found => ?_
  split
  · exact .pure
  · exact .bind .read fun _ => .pure

theorem firstRefusal_reads (drained : Bool) (l : List Admission) :
    Steps (· = ·) (firstRefusal drained l) := by
  induction l with
  | nil => exact .pure
  | cons a l ih =>
    refine .bind (drainedRefusal_reads _ _) fun found => ?_
    split
    · exact .pure
    · exact ih

/-! ### Admissions -/

theorem running_ok {σ σ' : Rows} {u : Unit} (h : running σ = .ok (u, σ')) : σ' = σ := by
  simp only [running, isStopped, bind_ok, read_ok, ensure_ok] at h
  obtain ⟨stopped, σ₁, ⟨-, rfl⟩, -, rfl⟩ := h
  rfl

/-- An admission reads only; it gives a first row for an id without one, or finds the stored run. -/
theorem admitted_ok {a : Admission} {join : Join} {σ σ' : Rows} {r : Option StoredRun}
    (h : admitted a now join σ = .ok (r, σ')) :
    σ' = σ ∧ ((∃ s, σ.run.get a.id = some s ∧ r = none) ∨
      σ.run.get a.id = none ∧ ∃ digest epoch, r = some (fresh a digest epoch now)) := by
  simp only [admitted, bind_ok, findRun_ok] at h
  obtain ⟨found, σ₁, ⟨rfl, rfl⟩, h⟩ := h
  -- the id has a row, and the request must be the same
  cases hrow : σ₁.run.get a.id with
  | some s =>
    rw [hrow] at h
    simp only [bind_ok, ofExcept_ok, pure_ok] at h
    obtain ⟨u, σ₂, ⟨-, rfl⟩, rfl, rfl⟩ := h
    exact ⟨rfl, .inl ⟨s, rfl, rfl⟩⟩
  -- there is none, and the definition may refuse it
  | none =>
    rw [hrow] at h
    simp only [bind_ok, read_ok] at h
    obtain ⟨u, σ₂, hrun, defs, σ₃, ⟨rfl, rfl⟩, h⟩ := h
    obtain rfl := running_ok hrun
    cases hbarred : barred (σ₃.definitions.get a.name) a with
    | some refusal => simp [hbarred] at h
    | none =>
      simp only [hbarred, pure_ok] at h
      obtain ⟨rfl, rfl⟩ := h
      exact ⟨rfl, .inr ⟨rfl, _, _, rfl⟩⟩

/-- Storing a first row keeps every stored one. -/
theorem store_first {σ σ' : Rows} {s : StoredRun} {u : Unit} (hs : σ.run.get s.id = none)
    (h : storeRun s σ = .ok (u, σ')) :
    ∀ i t, σ.run.get i = some t → σ'.run.get i = some t := by
  intro i t ht
  rw [show σ'.run = (σ.toCore.set s).run from congrArg Core.run (storeRun_core h), Core.get_set]
  split
  · next hi => rw [hi, ht] at hs; simp at hs
  · exact ht

theorem insert_ok (env : Env) (may : String → Act → Prop) {a : Admission} {σ σ' : Rows} {b : Bool}
    (hσ : Good σ) (h : insert a now σ = .ok (b, σ')) :
    ((Indexed σ' ∧ Path env now may σ.toCore σ'.toCore) ∧
      ∀ i s, σ.run.get i = some s → σ'.run.get i = some s) ∧
    (b = false → σ' = σ) ∧
    (b = true → σ.run.get a.id = none ∧ ∃ digest epoch,
      σ'.toCore = σ.toCore.set (fresh a digest epoch now)) := by
  simp only [insert, bind_ok] at h
  obtain ⟨r, σ₁, hadm, h⟩ := h
  -- nothing is written, or one first row is
  obtain ⟨rfl, ⟨s, hs, rfl⟩ | ⟨hnone, digest, epoch, rfl⟩⟩ := admitted_ok hadm
  · obtain ⟨rfl, rfl⟩ := pure_ok.mp h
    exact ⟨⟨⟨hσ.indexed, .refl⟩, fun _ _ h => h⟩, fun _ => rfl, by simp⟩
  · simp only [bind_ok, pure_ok] at h
    obtain ⟨u, σ₂, hstore, rfl, rfl⟩ := h
    refine ⟨⟨hσ.store hstore (.single (.admission a digest epoch none none hnone (.inl ⟨rfl, rfl⟩))),
        store_first (s := fresh a digest epoch now) hnone hstore⟩, by simp,
      fun _ => ⟨hnone, digest, epoch, storeRun_core hstore⟩⟩

theorem insert_fills (a : Admission) : Steps (Fills env now may) (insert a now) :=
  fun _ _ _ h hσ => (insert_ok env may hσ h).1

theorem refuse_fills (refused : Refused) : Steps (Fills env now may) (refuse env refused now) := by
  intro σ u σ' h hσ
  simp only [refuse, bind_ok] at h
  obtain ⟨r, σ₁, hadm, h⟩ := h
  obtain ⟨rfl, ⟨s, hs, rfl⟩ | ⟨hnone, digest, epoch, rfl⟩⟩ := admitted_ok hadm
  · obtain ⟨-, rfl⟩ := pure_ok.mp h
    exact refl_of (Fills env now may) _ hσ
  -- a refusal is a first row as well; the breaker writes no run
  · simp only [bind_ok] at h
    obtain ⟨u, σ₂, hstore, hbreaker⟩ := h
    have hfill : Fills env now may σ₁ σ₂ := fun hσ =>
      ⟨hσ.store hstore (.single (.refuse refused.admission digest epoch _ hnone)),
        store_first (s := stillborn (fresh refused.admission digest epoch now) refused.error now)
          hnone hstore⟩
    exact trans_of (Fills env now may) hfill (breaker_quiet _ _ _ _ _ hbreaker).fills hσ

section Book

variable (hbook : ∀ i, may i .book)

include hbook

theorem admitFiring_fills (key : String) (a : Admission) (rearm : Option Rearm)
    (next : Option Trigger) : Steps (Fills env now may) (admitFiring key a rearm next now) := by
  intro σ u σ' h hσ
  simp only [admitFiring, bind_ok] at h
  obtain ⟨b, σ₁, hins, h⟩ := h
  have hquiet : ∀ {σ₂ u}, (Tx.write fun rows : Rows =>
      { rows with triggerRun := rows.triggerRun.put key a.id } : Txn Unit) σ₂ = .ok (u, σ') →
      Quiet σ₂ σ' := by
    intro σ₂ u hwrite
    obtain rfl := write_ok.mp hwrite
    exact ⟨rfl, rfl⟩
  obtain ⟨hfill, -, hnew⟩ := insert_ok env may hσ hins
  cases b with
  -- a repeated admission writes the row of the trigger at most
  | false => exact trans_of (Fills env now may) (fun _ => hfill) (hquiet h).fills hσ
  | true =>
    obtain ⟨hnone, digest, epoch, hcore⟩ := hnew rfl
    simp only [if_true, bind_ok, run_ok] at h
    obtain ⟨s, σ₃, ⟨hs, rfl⟩, u₁, σ₂, hstore, hwrite⟩ := h
    obtain rfl : s = fresh a digest epoch now := by
      rw [show σ₃.run = _ from congrArg Core.run hcore, Core.get_set,
        if_pos (show (fresh a digest epoch now).id = a.id from rfl)] at hs
      exact (Option.some.inj hs).symm
    -- the run is stored twice, and is bound to its trigger in the end
    have hbound : σ₂.toCore = σ.toCore.set { fresh a digest epoch now with
        trigger := some key, rearm := rearm.bind fun r => next.map fun t => (r, t) } := by
      rw [storeRun_core hstore, hcore, Core.set_set]
      rfl
    have hfirst : Fills env now may σ σ₂ := by
      refine fun hσ => ⟨⟨hfill.1.1.storeRun hstore, ?_⟩, fun i t ht => ?_⟩
      · rw [hbound]
        exact .single (.admission a digest epoch _ _ hnone (.inr (hbook _)))
      · rw [show σ₂.run = _ from congrArg Core.run hbound, Core.get_set]
        split
        · next hi =>
          rw [← hi] at ht
          exact absurd (hnone.symm.trans ht) (by simp)
        · exact ht
    exact trans_of (Fills env now may) hfirst (hquiet hwrite).fills hσ

/-! ### Buffered slots -/

theorem promote_fills (name key : String) : Steps (Fills env now may) (promote env name key now) := by
  refine .bind .read fun found => ?_
  split
  · exact .bind .read fun _ => .ensure
  · refine .bind .read fun waits => ?_
    split
    · exact .pure
    · refine .bind .read fun _ => .bind .orFail fun _ =>
        .bind ((removeQueue_quiet _).mono fun _ _ => Quiet.fills) fun _ => ?_
      split
      · exact refuse_fills _
      · exact admitFiring_fills hbook _ _ _ _

theorem drainQueues_fills (name : String) : Steps (Fills env now may) (drainQueues env name now) := by
  refine .bind .read fun stopped => ?_
  split
  · refine .write fun σ => ?_
    split
    · exact refl_of (Fills env now may) _
    · exact Quiet.fills ⟨rfl, rfl⟩
  · exact .bind .read fun keys => .each (fun key => promote_fills hbook name key) keys

theorem drainMarked_fills (name : String) : Steps (Fills env now may) (drainMarked env name now) := by
  refine .bind .read fun marked => .bind .read fun stopped => ?_
  split
  · exact .bind (.write fun _ => Quiet.fills ⟨rfl, rfl⟩) fun _ =>
      .bind (drainQueues_fills hbook name) fun _ => .pure
  · exact .pure

theorem drainPending_fills (limit : Nat) : Steps (Fills env now may) (drainPending env now limit) := by
  refine .bind .read fun found => .each (fun row => ?_) found
  have hmark : Steps (Fills env now may) (Tx.write fun rows : Rows =>
      { rows with controlDrain := rows.controlDrain.delete row.1 } : Txn Unit) :=
    .write fun _ => Quiet.fills ⟨rfl, rfl⟩
  exact hmark.bind fun _ => drainQueues_fills hbook row.1

theorem resume_fills (name : String) : Steps (Fills env now may) (resume env name now) := by
  have hq : ∀ {σ σ' : Rows}, Quiet σ σ' → Fills env now may σ σ' := Quiet.fills
  refine .bind ((knownDefinitions_quiet _).mono fun _ _ => hq) fun defs => ?_
  split
  · exact .pure
  · exact .bind .ensure fun _ => .bind .read fun _ => .bind .orFail fun _ => .bind .ensure fun _ =>
      .bind ((arm_quiet _ _).mono fun _ _ => hq) fun _ =>
      .bind ((Steps.each (restoreQueue_quiet name) _).mono fun _ _ => hq) fun _ =>
      .bind (.write fun _ => hq ⟨rfl, rfl⟩) fun _ =>
      .bind ((storeDefinitions_quiet _ _).mono fun _ _ => hq) fun _ =>
      .bind (drainQueues_fills hbook name) fun _ => .pure

end Book

end Engine

end Ouro
