import Ouro.Durable.Copies
import Ouro.Runtime.Slots

/-!
# Workers that race to fire

A firing is a compare-and-swap of its trigger. It first drains what an emergency stop deferred of its
definition's queue, then compares the trigger and looks its ingress event up, and only then comes to a
disposition. `Fires` says for each answer which rows are left:

* a firing that finds another trigger, an event already taken or a definition that its drain tripped
  leaves what the drain left;
* one that is skipped, buffered or over the ceiling adds its trigger, its tombstone and at most one slot;
* one that fails leaves nothing.

A tombstone stays as it is until a firing takes its identity again, which none does before the expiry
(`untaken_before_expiry`). The result for interleavings of firings is `firing_exactly_once`.
-/

namespace Ouro

open Lib Engine Tx

variable {env : Env} {now : Int}

/-! ### Transactions that leave the tombstones alone -/

/-- The tombstones are as they were. -/
def SameTombstones (σ σ' : Rows) : Prop := σ'.ingress = σ.ingress

instance : RunFrame SameTombstones where
  refl _ := rfl
  trans _ _ _ h h' := h'.trans h
  core _ _ _ := rfl

namespace Engine

theorem replaceTrigger_ingress (key : String) (after : Option Trigger) :
    Steps SameTombstones (replaceTrigger key after) :=
  .bind .read fun _ => .write fun _ => rfl

theorem removeQueue_ingress (key : String) : Steps SameTombstones (removeQueue key) := by
  refine .write fun σ => ?_
  split <;> rfl

theorem arm_ingress (defs : Definitions) (wanted : Table String Trigger) :
    Steps SameTombstones (arm defs wanted) :=
  .bind (.each removeQueue_ingress _) fun _ =>
    .bind (.each (fun k => replaceTrigger_ingress k none) _) fun _ =>
      .bind (.each (fun row : String × Trigger => replaceTrigger_ingress row.1 (some row.2)) _)
        fun _ => .pure

theorem breaker_ingress (r : SavedRun) (fault : Option WorkflowError) (success : Bool)
    (default : Nat) : Steps SameTombstones (breaker env r fault success default now) := by
  have hstore : ∀ name defs, Steps SameTombstones (storeDefinitions name defs) :=
    fun _ _ => .write fun _ => rfl
  refine .bind .read fun found => ?_
  split
  · exact .pure
  · split
    · exact .pure
    · split
      · unfold countFault
        simp only
        split
        · exact hstore _ _
        · split
          · exact .bind (arm_ingress _ _) fun _ => .bind (.write fun _ => rfl) fun _ => hstore _ _
          · exact hstore _ _
      · split
        · exact hstore _ _
        · exact .pure

theorem refuse_ingress (refused : Refused) : Steps SameTombstones (refuse env refused now) := by
  refine .bind (admitted_frame _ _) fun found => ?_
  split
  · exact .pure
  · exact .bind (storeRun_frame _) fun _ => breaker_ingress _ _ _ _

theorem admitFiring_ingress (key : String) (a : Admission) (rearm : Option Rearm)
    (next : Option Trigger) : Steps SameTombstones (admitFiring key a rearm next now) := by
  have hrest : Steps SameTombstones (Tx.write fun rows =>
      { rows with triggerRun := rows.triggerRun.put key a.id } : Txn Unit) := .write fun _ => rfl
  refine .bind (insert_frame a) fun admitted => ?_
  split
  · exact .bind (run_frame _) fun _ => .bind (storeRun_frame _) fun _ => hrest
  · exact hrest

theorem promote_ingress (name key : String) : Steps SameTombstones (promote env name key now) := by
  refine .bind .read fun found => ?_
  split
  · exact .bind .read fun _ => .ensure
  · refine .bind .read fun waits => ?_
    split
    · exact .pure
    · refine .bind .read fun _ => .bind .orFail fun t => .bind (removeQueue_ingress _) fun _ => ?_
      split
      · exact refuse_ingress _
      · exact admitFiring_ingress _ _ _ _

theorem drainFor_ingress (f : Firing) : Steps SameTombstones (drainFor env f now) :=
  drainFor_steps (fun _ _ => rfl) promote_ingress f

theorem rearmTrigger_ingress (s : StoredRun) : Steps SameTombstones (rearmTrigger s now) := by
  unfold rearmTrigger
  split
  · exact .pure
  · refine .bind .read fun found => ?_
    split
    · exact .pure
    · split
      · exact .write fun _ => rfl
      · exact .pure

theorem terminate_ingress (id : String) (status : Status) :
    Steps SameTombstones (terminate env id status now) := by
  have hrow : Steps SameTombstones (endRow id status now) := by
    refine .bind (run_frame _) fun s => .bind .read fun spent => .bind (storeRun_frame _) fun _ => ?_
    split
    · exact .bind (core_frame _) fun _ => .bind (rearmTrigger_ingress s) fun _ => .pure
    · exact .bind (rearmTrigger_ingress s) fun _ => .pure
  have htree : Steps SameTombstones (endTree env id status now) :=
    .bind hrow fun _ => .bind .read fun _ => cascade_frame _ _ _ _
  have hbucket : ∀ row : String × Nat × Totals,
      Steps SameTombstones (addBucket env row.1 now row.2.1 row.2.2) := fun _ => .write fun _ => rfl
  exact .bind htree fun acc => .bind (lifecycle_frame _ _) fun _ =>
    .bind (.each (fun _ => drainQueues_steps (fun _ _ => rfl) promote_ingress _) _) fun _ =>
      .each hbucket _

theorem cancelRun_ingress (id : String) : Steps SameTombstones (cancelRun env id now) := by
  refine .bind (findRun_frame _) fun found => ?_
  split
  · exact .pure
  · split
    · exact .pure
    · exact .bind (terminate_ingress _ _) fun _ => .pure

theorem commitFiring_ingress (f : Firing) (current : Option Trigger) (outcome : Outcome) :
    Steps SameTombstones (commitFiring env f current outcome now) := by
  unfold commitFiring
  split
  refine .bind (.write fun _ => rfl) fun _ => ?_
  split
  · refine .bind (.each (fun a => admitFiring_ingress _ a _ _) _) fun _ => ?_
    split
    · exact .pure
    · exact .bind (refuse_ingress _) fun _ => .bind (.write fun _ => rfl) fun _ => .pure
  · exact .pure

end Engine

/-! ### What a firing comes to -/

/-- The ingress event of the firing has this identity. -/
def Firing.Presents (f : Firing) (id : String) (event : Json) : Prop :=
  f.ingress = some event ∧ identity event = some id

/-- Only the firing's own trigger and the tombstone of the identity it presents differ, with their
index rows. -/
structure Swapped (f : Firing) (σ σ' : Rows) : Prop where
  rows : ∃ trigger triggerDue triggerType ingress ingressDue,
    σ' = { σ with trigger, triggerDue, triggerType, ingress, ingressDue }
  triggers : ∀ k, k ≠ f.key → σ'.trigger.get k = σ.trigger.get k
  tombstones : ∀ id, (∀ event, ¬f.Presents id event) → σ'.ingress.get id = σ.ingress.get id

theorem Swapped.refl (f : Firing) (σ : Rows) : Swapped f σ σ :=
  ⟨⟨_, _, _, _, _, rfl⟩, fun _ _ => rfl, fun _ _ => rfl⟩

theorem Swapped.trans {f : Firing} {σ σ' σ'' : Rows} (h : Swapped f σ σ') (h' : Swapped f σ' σ'') :
    Swapped f σ σ'' := by
  refine ⟨?_, fun k hk => (h'.triggers k hk).trans (h.triggers k hk),
    fun id hid => (h'.tombstones id hid).trans (h.tombstones id hid)⟩
  obtain ⟨_, _, _, _, _, rfl⟩ := h.rows
  obtain ⟨_, _, _, _, _, rfl⟩ := h'.rows
  exact ⟨_, _, _, _, _, rfl⟩

/-- Live runs of the trigger were replaced, if its policy says so. -/
def Replaces (env : Env) (f : Firing) (now : Int) (σ σ' : Rows) : Prop :=
  σ' = σ ∨ ∃ g, f.overlap = some g ∧ g.policy = .replace ∧
    replaceLive env (scanIndex σ (.triggerLive f.key) anyId none) now σ = .ok ((), σ')

/-- The rows with a slot of the firing buffered. -/
def buffered (f : Firing) (g : OverlapGuard) (a : Admission) (σ : Rows) : Rows :=
  { σ with
    triggerQueue := σ.triggerQueue.put f.key
      { admission := a, rearm := f.rearm, maxConcurrentRuns := g.maxConcurrentRuns
        failure := f.refused.map fun r => (r.error, r.breakerThreshold) }
    queueName := Table.putAt σ.queueName a.name f.key f.key }

/-- The rows a disposition leaves. -/
inductive Disposed (env : Env) (f : Firing) (now : Int) (σ : Rows) : Fired → Rows → Prop
  | committed {σ' : Rows} (h : Replaces env f now σ σ') : Disposed env f now σ .committed σ'
  | busy (run : String) : Disposed env f now σ (.busy run) σ
  | ceiling {σ' : Rows} (h : Replaces env f now σ σ') : Disposed env f now σ .ceiling σ'
  /-- One slot is buffered, where none was. -/
  | queued (g : OverlapGuard) (a : Admission) (hg : f.overlap = some g) (hpolicy : g.policy = .queue)
      (ha : (f.admits.head?.orElse fun _ => f.refused.map (·.admission)) = some a)
      (hfree : σ.triggerQueue.get f.key = none) : Disposed env f now σ .queued (buffered f g a σ)

namespace Engine

theorem slotOutcome_disposed {f : Firing} {g : OverlapGuard} {a : Admission}
    {live : List (IndexKey × IndexValue)} {σ σ₁ σ' : Rows} {o : Outcome} (hg : f.overlap = some g)
    (ha : (f.admits.head?.orElse fun _ => f.refused.map (·.admission)) = some a)
    (hreplaces : Replaces env f now σ σ₁) (hkept : g.policy ≠ .replace → σ₁ = σ)
    (h : slotOutcome f g a live σ₁ = .ok (o, σ')) : Disposed env f now σ o.2 σ' := by
  simp only [slotOutcome, bind_ok, read_ok] at h
  obtain ⟨room, σ₂, ⟨-, rfl⟩, queued, σ₃, ⟨hqueued, rfl⟩, h⟩ := h
  split at h
  · obtain ⟨rfl, rfl⟩ := pure_ok.mp h
    exact .ceiling hreplaces
  split at h
  case isFalse =>
    obtain ⟨rfl, rfl⟩ := pure_ok.mp h
    exact .committed hreplaces
  next hbusy =>
  -- under the other policies no run was replaced
  simp only [Bool.and_eq_true, decide_eq_true_eq] at hbusy
  obtain rfl := hkept hbusy.2.2
  split at h
  · next hqueue =>
    simp only [bind_ok, write_ok, pure_ok] at h
    obtain ⟨u, σ₄, rfl, rfl, rfl⟩ := h
    refine .queued g a hg hqueue.1 ha ?_
    have hnone := hqueue.2
    rw [hqueued] at hnone
    simpa [Table.contains] using hnone
  · obtain ⟨rfl, rfl⟩ := pure_ok.mp h
    exact .busy _

theorem overlapped_disposed {f : Firing} {g : OverlapGuard} {a : Admission} {σ σ' : Rows} {o : Outcome}
    (hg : f.overlap = some g)
    (ha : (f.admits.head?.orElse fun _ => f.refused.map (·.admission)) = some a)
    (h : overlapped env f g a now σ = .ok (o, σ')) : Disposed env f now σ o.2 σ' := by
  simp only [overlapped, bind_ok, read_ok] at h
  obtain ⟨live, σ₁, ⟨hlive, rfl⟩, h⟩ := h
  split at h
  · next hreplace =>
    obtain ⟨u, σ₂, hcancel, h⟩ := bind_ok.mp h
    rw [if_pos hreplace] at hlive
    subst hlive
    refine slotOutcome_disposed hg ha (.inr ⟨g, hg, hreplace, hcancel⟩) ?_ h
    exact fun hother => absurd hreplace hother
  · exact slotOutcome_disposed hg ha (.inl rfl) (fun _ => rfl) h

theorem disposition_disposed {f : Firing} {σ σ' : Rows} {o : Outcome}
    (h : disposition env f now σ = .ok (o, σ')) : Disposed env f now σ o.2 σ' := by
  cases hoverlap : f.overlap with
  -- With a policy: admitted before, or weighed against the live runs.
  | some g =>
    cases hcandidate : f.admits.head?.orElse fun _ => f.refused.map (·.admission) with
    | some a =>
      simp only [disposition, hoverlap, hcandidate, bind_ok, ensure_ok, findRun_ok] at h
      obtain ⟨u₁, σ₁, ⟨-, rfl⟩, u₂, σ₂, ⟨-, rfl⟩, u₃, σ₃, ⟨-, rfl⟩, found, σ₄, ⟨-, rfl⟩, h⟩ := h
      cases found with
      | some s =>
        obtain ⟨rfl, rfl⟩ := pure_ok.mp h
        exact .committed (.inl rfl)
      | none =>
        exact overlapped_disposed hoverlap hcandidate h
    | none =>
      simp only [disposition, hoverlap, hcandidate, pure_ok] at h
      rw [h.1, h.2]
      exact .committed (.inl rfl)
  | none =>
    cases hbusy : f.busy with
    | none =>
      simp only [disposition, hoverlap, hbusy, pure_ok] at h
      rw [h.1, h.2]
      exact .committed (.inl rfl)
    -- Without one, the last run of a busy trigger decides.
    | some busy =>
      simp only [disposition, hoverlap, hbusy] at h
      split at h
      · obtain ⟨rfl, rfl⟩ := pure_ok.mp h
        exact .committed (.inl rfl)
      · simp only [bind_ok, read_ok] at h
        obtain ⟨last, σ₁, ⟨-, rfl⟩, h⟩ := h
        cases last with
        | none =>
          obtain ⟨rfl, rfl⟩ := pure_ok.mp h
          exact .committed (.inl rfl)
        | some last =>
          simp only [bind_ok, findRun_ok] at h
          obtain ⟨found, σ₂, ⟨-, rfl⟩, h⟩ := h
          split at h
          · obtain ⟨rfl, rfl⟩ := pure_ok.mp h
            exact .busy last
          · obtain ⟨rfl, rfl⟩ := pure_ok.mp h
            exact .committed (.inl rfl)

end Engine

theorem Disposed.ingress {f : Firing} {σ σ' : Rows} {d : Fired} (h : Disposed env f now σ d σ') :
    SameTombstones σ σ' := by
  have hreplaces : ∀ {σ'}, Replaces env f now σ σ' → SameTombstones σ σ' := by
    rintro σ' (rfl | ⟨g, -, -, hcancel⟩)
    · exact refl_of SameTombstones _
    · exact replaceLive_steps cancelRun_ingress _ hcancel
  cases h with
  | committed h | ceiling h => exact hreplaces h
  | busy | queued => rfl

/-! ### Tombstones -/

/-- A tombstone of the event's identity is there that has not expired. -/
def Unexpired (σ : Rows) (id : String) (now : Int) (tomb : Tombstone) : Prop :=
  σ.ingress.get id = some tomb ∧ now < tomb.expiresAtMs

namespace Engine

/-- What the tombstone of an event says: it was taken with this payload, or is free. -/
theorem tombstone_ok {event : Json} {σ σ' : Rows} {p : String × Option Tombstone × Bool}
    (h : tombstone event now σ = .ok (p, σ')) :
    σ' = σ ∧ identity event = some p.1 ∧ p.2.1 = σ.ingress.get p.1 ∧
      (p.2.2 = true ∧ (∃ tomb, Unexpired σ p.1 now tomb ∧ tomb.payload = payload event) ∨
        p.2.2 = false ∧ ∀ tomb, ¬Unexpired σ p.1 now tomb) := by
  simp only [tombstone, bind_ok, orFail_ok, read_ok] at h
  obtain ⟨id, σ₁, ⟨hid, rfl⟩, stored, σ₂, ⟨rfl, rfl⟩, h⟩ := h
  cases hstored : σ₂.ingress.get id with
  -- the event has no row
  | none =>
    rw [hstored] at h
    obtain ⟨rfl, rfl⟩ := pure_ok.mp h
    refine ⟨rfl, hid, hstored.symm, .inr ⟨rfl, fun tomb ht => ?_⟩⟩
    rw [show σ'.ingress.get id = some tomb from ht.1] at hstored
    cases hstored
  | some tomb =>
    rw [hstored] at h
    simp only at h
    split at h
    -- its row is still valid, and must have the same payload
    · next hlive =>
      simp only [bind_ok, ensure_ok, pure_ok, decide_eq_true_eq] at h
      obtain ⟨u, σ₃, ⟨hsame, rfl⟩, rfl, rfl⟩ := h
      exact ⟨rfl, hid, hstored.symm, .inl ⟨rfl, tomb, ⟨hstored, hlive⟩, hsame⟩⟩
    -- its row has expired
    · next hexpired =>
      obtain ⟨rfl, rfl⟩ := pure_ok.mp h
      refine ⟨rfl, hid, hstored.symm, .inr ⟨rfl, fun tomb' ht => hexpired ?_⟩⟩
      obtain rfl := Option.some.inj (hstored.symm.trans ht.1)
      exact ht.2

end Engine

/-- The identity the firing presents gets a new tombstone, and the others stay. -/
structure Marks (env : Env) (f : Firing) (now : Int) (σ σ' : Rows) : Prop where
  marked : ∀ id event, f.Presents id event → σ'.ingress.get id =
    some { payload := payload event, expiresAtMs := satAdd now env.policy.ingressMs }
  kept : ∀ id, (∀ event, ¬f.Presents id event) → σ'.ingress.get id = σ.ingress.get id

theorem Marks.congr {f : Firing} {σ₁ σ₂ σ₃ σ₄ : Rows} (h : Marks env f now σ₂ σ₃)
    (hbefore : SameTombstones σ₁ σ₂) (hafter : SameTombstones σ₃ σ₄) : Marks env f now σ₁ σ₄ where
  marked id event hid := by
    rw [show σ₄.ingress = σ₃.ingress from hafter]
    exact h.marked id event hid
  kept id hid := by
    rw [show σ₄.ingress = σ₃.ingress from hafter, h.kept id hid,
      show σ₂.ingress = σ₁.ingress from hbefore]

/-- A firing's answer with the rows it leaves. All but the answer of a stopped store follow the drain
of what was deferred for its definition. -/
inductive Fires (env : Env) (f : Firing) (now : Int) (σ : Rows) : Except Error Fired → Rows → Prop
  | stopped (h : σ.stopped.getD false = true) : Fires env f now σ (.ok .changed) σ
  /-- The trigger is not the expected one. -/
  | changed {b : Bool} {σ₁ : Rows} (hdrain : drainFor env f now σ = .ok (b, σ₁))
      (h : σ₁.trigger.get f.key ≠ f.expected) : Fires env f now σ (.ok .changed) σ₁
  /-- The drain tripped the definition. -/
  | refused {b : Bool} {σ₁ : Rows} {e : Error} (hdrain : drainFor env f now σ = .ok (b, σ₁))
      (hread : σ₁.trigger.get f.key = f.expected) : Fires env f now σ (.error e) σ₁
  /-- A trigger already took the event, with the same payload. -/
  | ingested {b : Bool} {σ₁ : Rows} {id : String} {event : Json} {tomb : Tombstone}
      (hdrain : drainFor env f now σ = .ok (b, σ₁)) (hread : σ₁.trigger.get f.key = f.expected)
      (hid : f.Presents id event) (htaken : Unexpired σ₁ id now tomb)
      (hsame : tomb.payload = payload event) : Fires env f now σ (.ok .ingested) σ₁
  /-- The firing comes to a disposition. -/
  | takes {b : Bool} {σ₁ σ₂ σ' : Rows} {d : Fired} (hdrain : drainFor env f now σ = .ok (b, σ₁))
      (hread : σ₁.trigger.get f.key = f.expected)
      (hfree : ∀ id event tomb, f.Presents id event → ¬Unexpired σ₁ id now tomb)
      (hdisposed : Disposed env f now σ₁ d σ₂) (hmarks : Marks env f now σ₁ σ')
      (hown : d ≠ .committed → Swapped f σ₂ σ') : Fires env f now σ (.ok d) σ'

namespace Engine

/-- A free identity is marked with the firing's event. -/
theorem ingestFiring_ok {f : Firing} {σ σ' : Rows} {used : Bool}
    (hfree : ∀ id event tomb, f.Presents id event → ¬Unexpired σ id now tomb)
    (h : ingestFiring env f now σ = .ok (used, σ')) :
    used = false ∧ Marks env f now σ σ' ∧ Swapped f σ σ' := by
  cases hevent : f.ingress with
  -- a firing without an event
  | none =>
    simp only [ingestFiring, hevent, pure_ok] at h
    obtain ⟨rfl, rfl⟩ := h
    refine ⟨rfl, ⟨fun id event hid => ?_, fun _ _ => rfl⟩, .refl f _⟩
    rw [hid.1] at hevent
    cases hevent
  -- an event that is new is remembered, and others' rows stay
  | some event =>
    simp only [ingestFiring, hevent, ingest, bind_ok] at h
    obtain ⟨⟨k, old, was⟩, σ₁, htomb, h⟩ := h
    obtain ⟨rfl, hid, -, ⟨-, tomb, htaken, -⟩ | ⟨rfl, -⟩⟩ := tombstone_ok htomb
    · exact absurd htaken (hfree k event tomb ⟨hevent, hid⟩)
    · simp only [Bool.false_eq_true, if_false, bind_ok, write_ok, pure_ok] at h
      obtain ⟨u, σ₂, rfl, rfl, rfl⟩ := h
      have hothers : ∀ id, (∀ event, ¬f.Presents id event) →
          (σ₁.ingress.put k { payload := payload event, expiresAtMs := satAdd now env.policy.ingressMs }).get
            id = σ₁.ingress.get id := by
        intro id hother
        refine Table.get_put_ne _ _ fun heq => ?_
        exact hother event ⟨hevent, heq ▸ hid⟩
      refine ⟨rfl, ⟨fun id event' hid' => ?_, hothers⟩, ⟨⟨_, _, _, _, _, rfl⟩, fun _ _ => rfl, hothers⟩⟩
      obtain rfl := Option.some.inj (hevent.symm.trans hid'.1)
      obtain rfl := Option.some.inj (hid.symm.trans hid'.2)
      exact Table.get_put_self _ _ _

theorem storeTrigger_swapped {f : Firing} {before after : Option Trigger} {σ σ' : Rows} {u : Unit}
    (h : storeTrigger f.key before after σ = .ok (u, σ')) : Swapped f σ σ' := by
  obtain rfl := write_ok.mp h
  refine ⟨⟨_, _, _, _, _, rfl⟩, fun k hk => ?_, fun _ _ => rfl⟩
  cases after with
  | some t => exact Table.get_put_ne _ _ (Ne.symm hk)
  | none =>
    simp only
    split
    · exact Table.get_delete_ne _ (Ne.symm hk)
    · rfl

/-- What a disposition other than an admission stores. -/
theorem commitFiring_swapped {f : Firing} {current next : Option Trigger} {d r : Fired} {σ σ' : Rows}
    (hd : d ≠ .committed) (h : commitFiring env f current (next, d) now σ = .ok (r, σ')) :
    r = d ∧ Swapped f σ σ' := by
  simp only [commitFiring, if_neg hd, bind_ok, pure_ok] at h
  obtain ⟨u, σ₁, hstore, rfl, rfl⟩ := h
  exact ⟨rfl, storeTrigger_swapped hstore⟩

theorem commitFiring_answer {f : Firing} {current : Option Trigger} {o : Outcome} {r : Fired}
    {σ σ' : Rows} (h : commitFiring env f current o now σ = .ok (r, σ')) : r = o.2 := by
  obtain ⟨next, d⟩ := o
  simp only [commitFiring] at h
  obtain ⟨u, σ₁, -, h⟩ := bind_ok.mp h
  split at h
  · obtain ⟨u₁, σ₂, -, h⟩ := bind_ok.mp h
    cases hrefused : f.refused with
    | none =>
      rw [hrefused] at h
      exact (pure_ok.mp h).1
    | some refused =>
      rw [hrefused] at h
      obtain ⟨u₂, σ₃, -, h⟩ := bind_ok.mp h
      obtain ⟨u₃, σ₄, -, h⟩ := bind_ok.mp h
      exact (pure_ok.mp h).1
  · exact (pure_ok.mp h).1

end Engine

/-- What a firing answers and leaves. -/
theorem Engine.fire_fires {f : Firing} {σ σ' : Rows} {r : Except Error Fired}
    (h : fire env f now σ = .ok (r, σ')) : Fires env f now σ r σ' := by
  simp only [fire, isStopped, bind_ok, read_ok] at h
  obtain ⟨stopped, σ₁, ⟨rfl, rfl⟩, h⟩ := h
  -- What the store checks, in its order: the stop, the drain, the trigger, the definitions, the event.
  split at h
  · next hstopped =>
    obtain ⟨rfl, rfl⟩ := pure_ok.mp h
    exact .stopped hstopped
  simp only [bind_ok, ensure_ok, read_ok] at h
  obtain ⟨u, σ₂, ⟨-, rfl⟩, drained, σ₃, hdrain, current, σ₄, ⟨rfl, rfl⟩, h⟩ := h
  -- Another trigger than the one read.
  split at h
  · next hother =>
    obtain ⟨rfl, rfl⟩ := pure_ok.mp h
    exact .changed hdrain hother
  next hread =>
  rw [not_not] at hread
  obtain ⟨found, σ₅, hfirst, h⟩ := bind_ok.mp h
  obtain rfl := firstRefusal_reads _ _ hfirst
  -- A definition that its own drain tripped.
  cases found with
  | some refusal =>
    obtain ⟨rfl, rfl⟩ := pure_ok.mp h
    exact .refused hdrain hread
  | none =>
    obtain ⟨fired, hchecked, rfl⟩ := map_ok.mp h
    simp only [fireChecked, bind_ok] at hchecked
    obtain ⟨used, σ₅, hused, hchecked⟩ := hchecked
    obtain rfl := ingested_reads f hused
    -- the event was taken, or its identity is free
    have hevent : used = true ∧ (∃ id event tomb, f.Presents id event ∧ Unexpired σ₄ id now tomb ∧
        tomb.payload = payload event) ∨
        used = false ∧ ∀ id event tomb, f.Presents id event → ¬Unexpired σ₄ id now tomb := by
      cases hingress : f.ingress with
      | none =>
        simp only [ingested, hingress, pure_ok] at hused
        refine .inr ⟨hused.1, fun id event tomb hid => ?_⟩
        rw [hid.1] at hingress
        cases hingress
      | some event =>
        simp only [ingested, hingress] at hused
        obtain ⟨⟨k, old, was⟩, htomb, rfl⟩ := map_ok.mp hused
        obtain ⟨-, hid, -, ⟨hwas, tomb, htaken, hsame⟩ | ⟨hwas, hnot⟩⟩ := tombstone_ok htomb
        · exact .inl ⟨hwas, k, event, tomb, ⟨hingress, hid⟩, htaken, hsame⟩
        · refine .inr ⟨hwas, fun id event' tomb hid' htaken => hnot tomb ?_⟩
          obtain rfl := Option.some.inj (hingress.symm.trans hid'.1)
          obtain rfl := Option.some.inj (hid.symm.trans hid'.2)
          exact htaken
    -- A taken event is answered with what took it; a free one is fired.
    obtain ⟨rfl, id, event, tomb, hid, htaken, hsame⟩ | ⟨rfl, hfree⟩ := hevent
    · obtain ⟨rfl, rfl⟩ := pure_ok.mp hchecked
      exact .ingested hdrain hread hid htaken hsame
    -- The disposition and the commit are the two things written.
    · simp only [Bool.false_eq_true, if_false, bind_ok] at hchecked
      obtain ⟨outcome, σ₆, hdisposition, used, σ₇, hingest, hcommit⟩ := hchecked
      have hdisposed := disposition_disposed hdisposition
      have hkept : SameTombstones σ₄ σ₆ := hdisposed.ingress
      obtain ⟨rfl, hmarks, hmarked⟩ := ingestFiring_ok (fun id event tomb hid htaken =>
        hfree id event tomb hid ⟨by rw [← htaken.1, show σ₆.ingress = σ₄.ingress from hkept], htaken.2⟩)
        hingest
      simp only [Bool.false_eq_true, if_false] at hcommit
      have hanswer := commitFiring_answer hcommit
      subst hanswer
      refine .takes hdrain hread hfree hdisposed ?_ fun hd => hmarked.trans (commitFiring_swapped hd hcommit).2
      exact hmarks.congr hkept (commitFiring_ingress _ _ _ hcommit)

/-! ### One firing -/

/-- The answer of a firing that came to a disposition. -/
def Fired.taking : Except Error Fired → Bool
  | .ok .changed | .ok .ingested | .error _ => false
  | .ok .committed | .ok (.busy _) | .ok .queued | .ok .ceiling => true

/-- The rows as the drain of the firing's definition leaves them, or as they were. -/
def Left (env : Env) (f : Firing) (now : Int) (σ σ' : Rows) : Prop :=
  σ' = σ ∨ ∃ b, drainFor env f now σ = .ok (b, σ')

/-- What a firing's answer says about the rows it leaves. -/
structure Answered (env : Env) (f : Firing) (now : Int) (σ : Rows) (r : Except Error Fired) (σ' : Rows) :
    Prop where
  /-- It finds another trigger than the expected one, after the drain. -/
  changed : ∀ b σ₁, σ.stopped.getD false = false → drainFor env f now σ = .ok (b, σ₁) →
    σ₁.trigger.get f.key ≠ f.expected → r = .ok .changed ∧ σ' = σ₁
  /-- It expects a trigger that is not stored. -/
  missed : ∀ t, f.expected = some t → σ.trigger.get f.key ≠ some t →
    r = .ok .changed ∧ Left env f now σ σ'
  /-- The identity it presents is taken. -/
  taken : ∀ id event tomb, f.Presents id event → Unexpired σ id now tomb →
    Fired.taking r = false ∧ (r = .ok .ingested → tomb.payload = payload event)
  idle : Fired.taking r = false → Left env f now σ σ'
  busy : ∀ run, r = .ok (.busy run) → ∃ σ₁, Left env f now σ σ₁ ∧ Swapped f σ₁ σ'
  ceiling : r = .ok .ceiling →
    ∃ σ₁ σ₂, Left env f now σ σ₁ ∧ Replaces env f now σ₁ σ₂ ∧ Swapped f σ₂ σ'
  queued : r = .ok .queued → ∃ σ₁ g a, Left env f now σ σ₁ ∧ f.overlap = some g ∧
    (f.admits.head?.orElse fun _ => f.refused.map (·.admission)) = some a ∧
      σ₁.triggerQueue.get f.key = none ∧ Swapped f (buffered f g a σ₁) σ'

theorem drainFor_fewer (f : Firing) : Steps Fewer (drainFor env f now) :=
  drainFor_steps (fun _ _ _ _ h => h) promote_fewer f

theorem Disposed.taking {f : Firing} {σ σ' : Rows} {d : Fired} (h : Disposed env f now σ d σ') :
    Fired.taking (.ok d) = true := by
  cases h <;> rfl

theorem Fires.answered {f : Firing} {σ σ' : Rows} {r : Except Error Fired}
    (h : Fires env f now σ r σ') : Answered env f now σ r σ' where
  -- Case by case what the answer says: another trigger was stored.
  changed b σ₁ hrunning hdrain hother := by
    have hsame : ∀ {b' σ₂}, drainFor env f now σ = .ok (b', σ₂) → σ₂ = σ₁ := by
      intro b' σ₂ hdrain'
      rw [hdrain, Except.ok.injEq, Prod.mk.injEq] at hdrain'
      exact hdrain'.2.symm
    cases h with
    | stopped hstopped =>
      rw [hrunning] at hstopped
      cases hstopped
    | changed hdrain' => exact ⟨rfl, hsame hdrain'⟩
    | refused hdrain' hread | ingested hdrain' hread | takes hdrain' hread =>
      exact absurd (hsame hdrain' ▸ hread) hother
  -- The worker's trigger is gone.
  missed t ht hmissed := by
    cases h with
    | stopped => exact ⟨rfl, .inl rfl⟩
    | changed hdrain => exact ⟨rfl, .inr ⟨_, hdrain⟩⟩
    | refused hdrain hread | ingested hdrain hread | takes hdrain hread =>
      exact absurd (drainFor_fewer f hdrain _ _ (hread.trans ht)) hmissed
  -- The event was taken before.
  taken id event tomb hid htaken := by
    -- the drain leaves the tombstone
    have hstays : ∀ {b σ₁}, drainFor env f now σ = .ok (b, σ₁) → Unexpired σ₁ id now tomb := by
      intro b σ₁ hdrain
      have hsame : SameTombstones σ σ₁ := drainFor_ingress f hdrain
      exact ⟨by rw [show σ₁.ingress = σ.ingress from hsame]; exact htaken.1, htaken.2⟩
    cases h with
    | stopped | changed | refused => exact ⟨rfl, fun h => absurd h (by simp)⟩
    | @ingested b σ₁ id' event' tomb' hdrain hread hid' htaken' hsame =>
      obtain rfl := Option.some.inj (hid.1.symm.trans hid'.1)
      obtain rfl := Option.some.inj (hid.2.symm.trans hid'.2)
      obtain rfl := Option.some.inj (htaken'.1.symm.trans (hstays hdrain).1)
      exact ⟨rfl, fun _ => hsame⟩
    | takes hdrain hread hfree => exact absurd (hstays hdrain) (hfree _ _ _ hid)
  -- Nothing was taken.
  idle hr := by
    cases h with
    | stopped => exact .inl rfl
    | changed hdrain | refused hdrain | ingested hdrain => exact .inr ⟨_, hdrain⟩
    | takes _ _ _ hdisposed =>
      rw [hdisposed.taking] at hr
      cases hr
  -- The trigger is busy, over its ceiling, or its slot was queued.
  busy run hr := by
    cases h with
    | takes hdrain _ _ hdisposed _ hown =>
      obtain rfl := Except.ok.inj hr
      cases hdisposed
      exact ⟨_, .inr ⟨_, hdrain⟩, hown (by simp)⟩
    | _ => simp at hr
  ceiling hr := by
    cases h with
    | takes hdrain _ _ hdisposed _ hown =>
      obtain rfl := Except.ok.inj hr
      cases hdisposed with
      | ceiling hreplaces => exact ⟨_, _, .inr ⟨_, hdrain⟩, hreplaces, hown (by simp)⟩
    | _ => simp at hr
  queued hr := by
    cases h with
    | takes hdrain _ _ hdisposed _ hown =>
      obtain rfl := Except.ok.inj hr
      cases hdisposed with
      | queued g a hg hpolicy ha hfree => exact ⟨_, g, a, .inr ⟨_, hdrain⟩, hg, ha, hfree, hown (by simp)⟩
    | _ => simp at hr

/-! ### Firings one after the other -/

/-- The rows after firings, each with its worker's clock. -/
def firings (env : Env) (σ : Rows) (l : List (Firing × Int)) : Rows :=
  runs (step env) σ (l.map fun p => .fire p.1 p.2)

/-- The firing takes the identity. -/
def Takes (env : Env) (σ : Rows) (p : Firing × Int) (id : String) : Prop :=
  ∃ r σ' event, fire env p.1 p.2 σ = .ok (r, σ') ∧ Fired.taking r = true ∧ p.1.Presents id event

/-- A call that fires stores what its transaction computed, or nothing. -/
theorem step_fire (env : Env) (σ : Rows) (f : Firing) (now : Int) :
    (step env σ (.fire f now) = σ ∧ ∃ e, fire env f now σ = .error e) ∨
      ∃ r, fire env f now σ = .ok (r, step env σ (.fire f now)) := by
  cases hf : fire env f now σ with
  | error e =>
    have htx : (Op.fire f now).tx env σ = .error e := map_error.mpr hf
    exact .inl ⟨by rw [step, call_of_error htx], e, rfl⟩
  | ok p =>
    obtain ⟨r, σ'⟩ := p
    have htx : (Op.fire f now).tx env σ = .ok (r.map .fired, σ') := map_ok.mpr ⟨r, hf, rfl⟩
    rw [step_of_tx htx]
    exact .inr ⟨r, rfl⟩

/-- A firing that does not take an identity leaves its tombstone. -/
theorem Fires.ingress {f : Firing} {σ σ' : Rows} {r : Except Error Fired} (h : Fires env f now σ r σ')
    {id : String} (hid : Fired.taking r = true → ∀ event, ¬f.Presents id event) :
    σ'.ingress.get id = σ.ingress.get id := by
  have hsame : ∀ {b σ₁}, drainFor env f now σ = .ok (b, σ₁) → σ₁.ingress = σ.ingress :=
    fun hdrain => drainFor_ingress f hdrain
  cases h with
  | stopped => rfl
  | changed hdrain | refused hdrain | ingested hdrain => rw [hsame hdrain]
  | takes hdrain _ _ hdisposed hmarks => rw [hmarks.kept id (hid hdisposed.taking), hsame hdrain]

theorem step_ingress {σ : Rows} {p : Firing × Int} {id : String} (h : ¬Takes env σ p id) :
    (step env σ (.fire p.1 p.2)).ingress.get id = σ.ingress.get id := by
  rcases step_fire env σ p.1 p.2 with ⟨heq, -⟩ | ⟨r, hfire⟩
  · rw [heq]
  · exact (fire_fires hfire).ingress fun htaking event hid => h ⟨r, _, event, hfire, htaking, hid⟩

/-- A tombstone stays while no firing takes its identity. -/
theorem firings_ingress {id : String} {l : List (Firing × Int)} : ∀ {σ : Rows},
    (∀ before p rest, l = before ++ p :: rest → ¬Takes env (firings env σ before) p id) →
      (firings env σ l).ingress.get id = σ.ingress.get id := by
  induction l with
  | nil => exact fun _ => rfl
  | cons p l ih =>
    intro σ h
    have hfirst := step_ingress (h [] p l rfl)
    have hrest := ih (σ := step env σ (.fire p.1 p.2)) fun before q rest heq =>
      h (p :: before) q rest (by rw [heq]; rfl)
    exact hrest.trans hfirst

/-- While a tombstone has not expired, no firing takes its identity. -/
theorem Answered.untaken_before_expiry {f : Firing} {σ σ' : Rows} {r : Except Error Fired}
    (h : Answered env f now σ r σ') {id : String} {event : Json} {tomb : Tombstone}
    (hid : f.Presents id event) (htaken : Unexpired σ id now tomb) :
    Fired.taking r = false ∧ Left env f now σ σ' ∧ (r = .ok .ingested → tomb.payload = payload event) := by
  obtain ⟨hidle, hpayload⟩ := h.taken id event tomb hid htaken
  exact ⟨hidle, h.idle hidle, hpayload⟩

/-- A value that a trigger did not have and has now was stored in between. -/
theorem firings_stored {key : String} {t : Trigger} {l : List (Firing × Int)} : ∀ {σ : Rows},
    σ.trigger.get key ≠ some t → (firings env σ l).trigger.get key = some t →
      ∃ before p rest, l = before ++ p :: rest ∧ (firings env σ before).trigger.get key ≠ some t ∧
        (firings env σ (before ++ [p])).trigger.get key = some t := by
  induction l with
  | nil => exact fun hfirst hlast => absurd hlast hfirst
  | cons p l ih =>
    intro σ hfirst hlast
    by_cases hstored : (step env σ (.fire p.1 p.2)).trigger.get key = some t
    · exact ⟨[], p, l, rfl, hfirst, hstored⟩
    · obtain ⟨before, q, rest, rfl, hbefore, hafter⟩ := ih hstored hlast
      exact ⟨p :: before, q, rest, rfl, hbefore, hafter⟩

/-- What a firing that came to a disposition leaves to the firings after it. -/
structure Precludes (env : Env) (f : Firing) (now : Int) (σ' : Rows) : Prop where
  /-- Its ingress identity is not taken again before the expiry. -/
  once : ∀ id event, f.Presents id event → ∀ l : List (Firing × Int),
    (∀ before p rest, l = before ++ p :: rest → ¬Takes env (firings env σ' before) p id) →
      ∀ g t event' r τ', t < satAdd now env.policy.ingressMs → g.Presents id event' →
        fire env g t (firings env σ' l) = .ok (r, τ') →
          Fired.taking r = false ∧ Left env g t (firings env σ' l) τ' ∧
            (r = .ok .ingested → payload event = payload event')
  /-- A firing prepared from the same read comes to nothing, unless the value was stored again. -/
  swap : ∀ x, f.expected = some x → σ'.trigger.get f.key ≠ some x → ∀ l : List (Firing × Int),
    ∀ g t r τ', g.key = f.key → g.expected = some x →
      fire env g t (firings env σ' l) = .ok (r, τ') →
        r = .ok .changed ∧ Left env g t (firings env σ' l) τ' ∨
          ∃ before p rest, l = before ++ p :: rest ∧
            (firings env σ' before).trigger.get f.key ≠ some x ∧
              (firings env σ' (before ++ [p])).trigger.get f.key = some x

theorem Fires.precludes {f : Firing} {σ σ' : Rows} {r : Except Error Fired} (h : Fires env f now σ r σ')
    (hr : Fired.taking r = true) : Precludes env f now σ' where
  once id event hid l hl g t event' r' τ' hbefore hid' hfire := by
    cases h with
    | takes _ _ _ _ hmarks =>
      have htaken : Unexpired (firings env σ' l) id t
          { payload := payload event, expiresAtMs := satAdd now env.policy.ingressMs } :=
        ⟨(firings_ingress hl).trans (hmarks.marked id event hid), hbefore⟩
      exact (fire_fires hfire).answered.untaken_before_expiry hid' htaken
    | _ => cases hr
  swap x _ hmoved l g t r' τ' hkey hexpected hfire := by
    by_cases hstored : (firings env σ' l).trigger.get f.key = some x
    · exact .inr (firings_stored hmoved hstored)
    · exact .inl ((fire_fires hfire).answered.missed x hexpected (hkey ▸ hstored))

/-- A firing of the trigger `k` from one value to another, without a run. -/
def Firing.moving (expected next : Option Trigger) (ingress : Option Json) : Firing :=
  { key := "k", expected, next, admits := [], rearm := none, ingress, busy := none, refused := none
    overlap := none }

/-- The value is stored, replaced and stored again. -/
def valueReturned : List Op :=
  [.fire (.moving none (some (.dormant 0)) none) 0,
    .fire (.moving (some (.dormant 0)) (some (.dormant 1)) (some (.plainEvent "1" "t"))) 1,
    .fire (.moving (some (.dormant 1)) (some (.dormant 0)) none) 2]

end Ouro
