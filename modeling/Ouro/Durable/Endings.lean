import Ouro.Durable.Copies
import Ouro.Durable.Slots

/-!
# Ending a live run

A cancel of a live run, and the last call of its owner, end the run with its tree, report the end to the
run's parent and promote the buffered slots of the definitions they made room in. Two of these can fail,
and each takes the whole call with it:

* the report, when the parent listens for it and has accepted all the copies it may (`CanTell`);
* a promotion, when the slot whose turn it is cannot be promoted (`Yard.promote`).

Nothing else can: a call ends its run exactly when its parent can be told and the slots can be drained
(`Endable`, `live_run_ends`). Both are conditions on the rows before the call. The drain finds them with
the runs of the tree gone (`endTree_yard`) and, when an owner ends its run, with the outcome observed by
the breaker.

Slots that cannot be promoted do occur: a firing may store no trigger over a buffered slot, and the slot
then fails every call that would end a run of its definition (`orphaned_slot`).
-/

namespace Ouro

open Lib Engine Tx

variable {env : Env} {now : Int}

/-! ### Runs a termination leaves alone -/

/-- The runs are those of `c`, up to what neither the slots nor their promotions depend on. -/
def SameStanding (c c' : Core) : Prop :=
  ∀ id, (c'.run.get id).map (fun s => (s.run.admission, s.trigger, s.run.endedMs)) =
    (c.run.get id).map fun s => (s.run.admission, s.trigger, s.run.endedMs)

theorem SameStanding.refl (c : Core) : SameStanding c c := fun _ => rfl

theorem SameStanding.trans {c c' c'' : Core} (h : SameStanding c c') (h' : SameStanding c' c'') :
    SameStanding c c'' :=
  fun id => (h' id).trans (h id)

theorem SameStanding.set {c : Core} {s s' : StoredRun} (hs : c.run.get s'.id = some s)
    (hadm : s'.run.admission = s.run.admission) (htrigger : s'.trigger = s.trigger)
    (hended : s'.run.endedMs = s.run.endedMs) : SameStanding c (c.set s') := by
  intro id
  rw [Core.get_set]
  split
  · next hid => rw [← hid, hs, Option.map_some, Option.map_some, hadm, htrigger, hended]
  · rfl

/-- What the yard has of a run, were the runs of `gone` no longer live. -/
def standingOf (c : Core) (gone : Set String) (id : String) : Option (Admission × Option String × Prop) :=
  (c.run.get id).map fun s => (s.run.admission, s.trigger, s.run.endedMs = none ∧ id ∉ gone)

theorem SameStanding.standing {c c' : Core} (h : SameStanding c c') (gone : Set String) (id : String) :
    standingOf c' gone id = standingOf c gone id := by
  have hmap : ∀ c : Core, standingOf c gone id =
      ((c.run.get id).map fun s => (s.run.admission, s.trigger, s.run.endedMs)).map
        fun p => (p.1, p.2.1, p.2.2 = none ∧ id ∉ gone) := fun c => by
    rw [Option.map_map]
    rfl
  rw [hmap, hmap, h id]

/-- The slots, their listings, the stored triggers and the definitions are as they were. -/
structure SameSlots (σ σ' : Rows) : Prop where
  queue : σ'.triggerQueue = σ.triggerQueue
  name : σ'.queueName = σ.queueName
  armed : ∀ k, σ'.trigger.contains k = σ.trigger.contains k
  definitions : σ'.definitions = σ.definitions
  stopped : σ'.stopped = σ.stopped

theorem SamePlan.sameSlots {σ σ' : Rows} (h : SamePlan σ σ') : SameSlots σ σ' :=
  ⟨h.queue, h.name, fun k => by rw [h.trigger], h.definitions, h.stopped⟩

theorem SameSlots.trans {σ σ' σ'' : Rows} (h : SameSlots σ σ') (h' : SameSlots σ' σ'') : SameSlots σ σ'' :=
  ⟨h'.queue.trans h.queue, h'.name.trans h.name, fun k => (h'.armed k).trans (h.armed k),
    h'.definitions.trans h.definitions, h'.stopped.trans h.stopped⟩

/-- The yard is a view of the slots and of what each run stands for. -/
theorem yard_standing {σ σ' : Rows} {gone gone' : Set String} (hslots : SameSlots σ σ')
    (hruns : ∀ id, standingOf σ'.toCore gone' id = standingOf σ.toCore gone id) :
    yard σ' gone' = yard σ gone := by
  -- each part of the view that is about runs reads their standing
  have hadmitted : ∀ (σ : Rows) gone id,
      (σ.run.get id).map (·.run.admission) = (standingOf σ.toCore gone id).map (·.1) := fun σ gone id => by
    rw [standingOf, Option.map_map]
    rfl
  have hread : ∀ (σ : Rows) (gone : Set String) (P : String → Option String → Admission → Prop) id,
      (∃ s, σ.run.get id = some s ∧ s.run.endedMs = none ∧ id ∉ gone ∧ P id s.trigger s.run.admission) ↔
        ∃ p, standingOf σ.toCore gone id = some p ∧ p.2.2 ∧ P id p.2.1 p.1 := by
    intro σ gone P id
    constructor
    · rintro ⟨s, hs, hl, hin, hP⟩
      have hp : standingOf σ.toCore gone id =
          some (s.run.admission, s.trigger, s.run.endedMs = none ∧ id ∉ gone) := by
        rw [standingOf, hs, Option.map_some]
      exact ⟨_, hp, ⟨hl, hin⟩, hP⟩
    · rintro ⟨p, hp, hl, hP⟩
      obtain ⟨s, hs, rfl⟩ := Option.map_eq_some_iff.mp hp
      exact ⟨s, hs, hl.1, hl.2, hP⟩
  -- a trigger is busy with a live run of it that stays
  have hbusy : (yard σ' gone').busy = (yard σ gone).busy := by
    ext key
    refine exists_congr fun id => ?_
    rw [hread σ' gone' fun _ trigger _ => trigger = some key, hruns,
      ← hread σ gone fun _ trigger _ => trigger = some key]
  -- the live runs of a name, without those that go
  have hliving : (yard σ' gone').living = (yard σ gone).living := by
    funext name
    ext id
    have hgo : ∀ (σ : Rows) (gone : Set String), id ∈ (yard σ gone).living name ↔
        ∃ p, standingOf σ.toCore gone id = some p ∧ p.2.2 ∧ p.1.name = name := by
      intro σ gone
      rw [← hread σ gone fun _ _ a => a.name = name]
      constructor
      · rintro ⟨hin, s, hs, hl, hname⟩
        exact ⟨s, hs, hl, hin, hname⟩
      · rintro ⟨s, hs, hl, hin, hname⟩
        exact ⟨hin, s, hs, hl, hname⟩
    rw [hgo, hgo, hruns]
  -- the other parts of the yard are read from the rows of slots
  calc yard σ' gone' = { yard σ gone with
        admitted := fun id => (σ'.run.get id).map (·.run.admission)
        busy := (yard σ' gone').busy, living := (yard σ' gone').living } := by
        simp only [yard, hslots.queue, hslots.name, hslots.armed, hslots.definitions]
    _ = yard σ gone := by
        rw [hbusy, hliving]
        simp only [hadmitted σ' gone', hruns, ← hadmitted σ gone]
        rfl

/-! ### Telling the parent -/

/-- The parent of a run can be told of its end: it has heard of it, does not listen for it, or can take
one more copy. -/
def CanTell (c : Core) (id : String) : Prop :=
  ∀ s link p, c.run.get id = some s → s.run.child = some link → c.run.get link.parent = some p →
    p.run.endedMs = none → p.awaits.contains ("done:" ++ id) = true →
    p.pending.contains ("done:" ++ id) = false → (c.eventType link.parent).get ("done:" ++ id) = none →
    p.accepted < u64Max

/-- A notice is accepted when its run can take one more copy, or has no use for it. -/
theorem notify_iff (now : Int) {σ : Rows} {p : StoredRun} (t : String) (data : Json)
    (hp : σ.run.get p.id = some p) :
    ((∃ σ', notify p.id t data now σ = .ok ((), σ')) ↔
      (p.run.endedMs = none → p.awaits.contains t = true → p.pending.contains t = false →
        p.accepted < u64Max)) ∧
    ∀ u σ', notify p.id t data now σ = .ok (u, σ') → SameSlots σ σ' ∧ SameStanding σ.toCore σ'.toCore := by
  -- the operation with the parent's row in hand
  have hgo := bind_of_ok (f := fun s : StoredRun =>
    if s.run.endedMs.isSome || !s.awaits.contains t || s.pending.contains t then (pure () : Txn Unit)
    else do
      let woken := if wakes s t false then { s with run := { s.run with wakeAtMs := now } } else s
      let s ← push woken (notice t data now)
      storeRun s) (run_ok.mpr ⟨hp, rfl⟩)
  have hnotify : notify p.id t data now σ = _ := hgo
  rw [hnotify]
  split
  -- the parent has no use for the notice
  · next hskip =>
    refine ⟨⟨fun _ hl ha hunseen => ?_, fun _ => ⟨σ, rfl⟩⟩, fun u σ' h => ?_⟩
    · simp [hl, ha, hunseen] at hskip
    · obtain ⟨-, rfl⟩ := pure_ok.mp h
      exact ⟨SamePlan.sameSlots (refl_of SamePlan _), .refl _⟩
  -- the notice is pushed: this fails on a full counter, and on nothing else
  · next hskip =>
    obtain ⟨woken, hwoken⟩ : ∃ w, w = if wakes p t false then
      { p with run := { p.run with wakeAtMs := now } } else p := ⟨_, rfl⟩
    have hkept : woken.accepted = p.accepted ∧ woken.run.admission = p.run.admission ∧
        woken.trigger = p.trigger ∧ woken.run.endedMs = p.run.endedMs := by
      rw [hwoken]
      split <;> exact ⟨rfl, rfl, rfl, rfl⟩
    -- past the guard, the condition is the room for one more copy
    have hguard : (p.run.endedMs = none → p.awaits.contains t = true → p.pending.contains t = false →
        p.accepted < u64Max) ↔ p.accepted < u64Max := by
      simp only [Bool.or_eq_true, Bool.not_eq_true', not_or, Bool.not_eq_true, Option.isSome_eq_false_iff,
        Option.isNone_iff_eq_none, Bool.not_eq_false] at hskip
      exact ⟨fun h => h hskip.1.1 hskip.1.2 hskip.2, fun h _ _ _ => h⟩
    rw [hguard]
    dsimp only
    rw [← hwoken]
    refine ⟨⟨?_, fun hroom => ?_⟩, fun u σ' h => ?_⟩
    -- the push refuses a full counter
    · rintro ⟨σ', h⟩
      obtain ⟨s, σ₁, hpush, -⟩ := bind_ok.mp h
      obtain ⟨hlt, -, -⟩ := push_ok hpush
      rw [← hkept.1]
      exact hlt
    -- and takes the copy below it
    · have hensure : Tx.ensure (decide (woken.accepted < u64Max)) (Error.message "event sequence overflow") σ =
          .ok ((), σ) := ensure_ok.mpr ⟨by rw [hkept.1]; exact decide_eq_true hroom, rfl⟩
      obtain ⟨σ₁, hpush⟩ : ∃ σ₁, push woken (notice t data now) σ =
          .ok (counted woken (notice t data now), σ₁) :=
        ⟨_, bind_ok.mpr ⟨(), σ, hensure, bind_ok.mpr ⟨(), _, rfl, rfl⟩⟩⟩
      exact ⟨_, bind_ok.mpr ⟨_, σ₁, hpush, rfl⟩⟩
    -- what a push writes is neither a slot nor the standing of a run
    · obtain ⟨s, σ₁, hpush, hstore⟩ := bind_ok.mp h
      obtain ⟨-, rfl, hσ₁⟩ := push_ok hpush
      have hrun : σ₁.run = σ.run := by rw [hσ₁]; rfl
      have hset : SameStanding σ₁.toCore σ'.toCore := by
        rw [storeRun_core hstore]
        refine .set (s := p) ?_ hkept.2.1 hkept.2.2.1 hkept.2.2.2
        rw [hrun]
        have hid : (counted woken (notice t data now)).id = p.id :=
          congrArg Admission.id hkept.2.1
        rw [hid]
        exact hp
      refine ⟨?_, fun id => ?_⟩
      · refine SamePlan.sameSlots (trans_of SamePlan ?_ (storeRun_frame _ hstore))
        rw [hσ₁]
        exact RunFrame.core _ _ _
      · rw [hset id, hrun]

/-- The registration of an ended child's waiting notices can be closed. -/
theorem closeWaiting_total {σ : Rows} {p : StoredRun} (id : String) (hp : σ.run.get p.id = some p) :
    ∃ σ' p', closeWaiting p.id id σ = .ok ((), σ') ∧ SameSlots σ σ' ∧ SameStanding σ.toCore σ'.toCore ∧
      p'.id = p.id ∧ σ'.run.get p.id = some p' ∧ p'.accepted = p.accepted ∧ p'.pending = p.pending ∧
      p'.run.endedMs = p.run.endedMs ∧
      p'.awaits.contains ("done:" ++ id) = p.awaits.contains ("done:" ++ id) := by
  cases hclosed : p.awaits.contains ("waiting:" ++ id) &&
      !(close p ["waiting:" ++ id]).awaits.contains ("waiting:" ++ id) with
  -- the parent waited for the child to wait, and does so no longer
  | true =>
    obtain ⟨σ', hstore⟩ : ∃ σ', storeRun (close p ["waiting:" ++ id]) σ = .ok ((), σ') := ⟨_, rfl⟩
    have hawaits : (close p ["waiting:" ++ id]).awaits.get ("done:" ++ id) =
        p.awaits.get ("done:" ++ id) := by
      rw [close_awaits, if_neg]
      rintro ⟨hmem, -⟩
      exact waiting_ne_done id (List.mem_singleton.mp hmem).symm
    refine ⟨σ', close p ["waiting:" ++ id], bind_ok.mpr ⟨p, σ, run_ok.mpr ⟨hp, rfl⟩, ?_⟩,
      SamePlan.sameSlots (storeRun_frame _ hstore), ?_, close_id _ _, ?_, close_accepted _ _,
      close_pending _ _, by rw [close_run], ?_⟩
    -- the other registrations of the parent stay
    · rw [if_pos hclosed]
      exact hstore
    · rw [storeRun_core hstore]
      exact .set (s := p) (by rw [close_id]; exact hp) (by rw [close_run]) (by rw [close_eq])
        (by rw [close_run])
    · rw [show σ'.run = _ from congrArg Core.run (storeRun_core hstore), Core.get_set,
        if_pos (close_id _ _)]
    · rw [Table.contains, Table.contains, hawaits]
  -- it did not wait for that
  | false =>
    refine ⟨σ, p, bind_ok.mpr ⟨p, σ, run_ok.mpr ⟨hp, rfl⟩, ?_⟩, SamePlan.sameSlots (refl_of SamePlan _),
      .refl _, rfl, hp, rfl, rfl, rfl, rfl⟩
    rw [if_neg (by simp [hclosed])]
    rfl

/-- The end of a run is reported when its parent can be told. -/
theorem lifecycle_iff (now : Int) {σ : Rows} {s : StoredRun} {id : String} {status : Status}
    (hs : σ.run.get id = some s) (ht : status.terminal = true)
    (hparent : ∀ link, s.run.child = some link → ∃ p, p.id = link.parent ∧ σ.run.get link.parent = some p) :
    ((∃ σ', lifecycle id status now σ = .ok ((), σ')) ↔ CanTell σ.toCore id) ∧
      ∀ u σ', lifecycle id status now σ = .ok (u, σ') →
        SameSlots σ σ' ∧ SameStanding σ.toCore σ'.toCore := by
  -- the status is one that ends a run, so it has a notice
  obtain ⟨data, hnotice⟩ : ∃ data, lifecycleNotice id status = some (true, "done:" ++ id, data) := by
    cases status with
    | completed | faulted | cancelled => exact ⟨_, rfl⟩
    | waiting | interrupted => simp [Status.terminal] at ht
  have hquiet : lifecycle id status now σ = .ok ((), σ) → ∀ u σ',
      lifecycle id status now σ = .ok (u, σ') → SameSlots σ σ' ∧ SameStanding σ.toCore σ'.toCore := by
    intro hgo u σ' h
    rw [hgo] at h
    obtain ⟨-, rfl⟩ : () = u ∧ σ = σ' := by simpa using h
    exact ⟨SamePlan.sameSlots (refl_of SamePlan _), .refl _⟩
  -- a root has nobody to tell
  cases hchild : s.run.child with
  | none =>
    have hgo : lifecycle id status now σ = .ok ((), σ) := by
      refine bind_ok.mpr ⟨s, σ, run_ok.mpr ⟨hs, rfl⟩, ?_⟩
      simp only [hchild]
      rfl
    refine ⟨⟨fun _ s' link p hs' hlink => ?_, fun _ => ⟨σ, hgo⟩⟩, hquiet hgo⟩
    obtain rfl := Option.some.inj (hs.symm.trans hs')
    simp [hchild] at hlink
  -- a child tells its parent
  | some link =>
    obtain ⟨p, hpid, hp⟩ := hparent link hchild
    have htell : CanTell σ.toCore id ↔ ((σ.eventType link.parent).get ("done:" ++ id) = none →
        p.run.endedMs = none → p.awaits.contains ("done:" ++ id) = true →
        p.pending.contains ("done:" ++ id) = false → p.accepted < u64Max) := by
      refine ⟨fun h hfirst hl ha hunseen => h s link p hs hchild hp hl ha hunseen hfirst, ?_⟩
      intro h s' link' p' hs' hlink' hp' hl ha hunseen hfirst
      obtain rfl := Option.some.inj (hs.symm.trans hs')
      obtain rfl := Option.some.inj (hchild.symm.trans hlink')
      obtain rfl := Option.some.inj (hp.symm.trans hp')
      exact h hfirst hl ha hunseen
    have hread : (Tx.read fun rows => (rows.eventType link.parent).get ("done:" ++ id) :
        Txn (Option Nat)) σ = .ok ((σ.eventType link.parent).get ("done:" ++ id), σ) := rfl
    rw [htell]
    cases hfirst : (σ.eventType link.parent).get ("done:" ++ id) with
    | some n =>
      -- the parent has heard of it
      have hgo : lifecycle id status now σ = .ok ((), σ) := by
        refine bind_ok.mpr ⟨s, σ, run_ok.mpr ⟨hs, rfl⟩, ?_⟩
        simp only [hchild, hnotice]
        refine bind_ok.mpr ⟨_, σ, hread, ?_⟩
        rw [hfirst]
        rfl
      exact ⟨⟨fun _ h => by simp at h, fun _ => ⟨σ, hgo⟩⟩, hquiet hgo⟩
    -- the first notice of its end: the call that waits for it is settled, and the notice pushed
    | none =>
      rw [← hpid] at hp
      obtain ⟨σ₁, p₁, hclose, hslots₁, hsame₁, hid₁, hp₁, hacc, hpend, hended, hawaits⟩ :=
        closeWaiting_total id hp
      have hgo : lifecycle id status now σ = notify p₁.id ("done:" ++ id) data now σ₁ := by
        unfold lifecycle
        rw [bind_of_ok (run_ok.mpr ⟨hs, rfl⟩)]
        simp only [hchild, hnotice]
        rw [bind_of_ok hread, hfirst, Option.isSome_none, Bool.and_false, if_neg Bool.false_ne_true,
          if_pos trivial, ← hpid, bind_of_ok hclose, hid₁]
      -- settling moved neither the counter nor what the parent awaits and has pending
      rw [← hid₁] at hp₁
      obtain ⟨hiff, hkept⟩ := notify_iff now ("done:" ++ id) data hp₁
      rw [hacc, hpend, hended, hawaits] at hiff
      rw [hgo]
      refine ⟨hiff.trans ⟨fun h _ => h, fun h => h rfl⟩, fun u σ' h => ?_⟩
      obtain ⟨hslots', hsame'⟩ := hkept u σ' h
      exact ⟨hslots₁.trans hslots', hsame₁.trans hsame'⟩

/-! ### A tree that ends -/

/-- A run with its owned descendants. -/
def kin (c : Core) (id : String) : Set String := {j | Relation.ReflTransGen (Owns c) id j}

theorem Subtree.mem_kin {c : Core} {id : String} {ids : List String} (hsub : Subtree c id ids)
    (htree : Tree c) {j : String} (hl : Live c j) : j ∈ kin c id ↔ j ∈ id :: ids := by
  rw [List.mem_cons, hsub.mem_iff htree, kin, Set.mem_ofPred, Relation.reflTransGen_iff_eq_or_transGen]
  exact or_congr_right (and_iff_right hl).symm

theorem rearmTrigger_sameSlots {s : StoredRun} {σ σ' : Rows} {u : Unit}
    (h : rearmTrigger s now σ = .ok (u, σ')) : SameSlots σ σ' := by
  cases hrearm : s.rearm with
  -- the run rearms nothing
  | none =>
    simp only [rearmTrigger, hrearm] at h
    obtain ⟨-, rfl⟩ := pure_ok.mp h
    exact SamePlan.sameSlots (refl_of SamePlan _)
  | some pair =>
    obtain ⟨rearm, armed⟩ := pair
    simp only [rearmTrigger, hrearm, bind_ok, read_ok] at h
    obtain ⟨found, σ₁, ⟨rfl, rfl⟩, h⟩ := h
    cases hfound : σ₁.trigger.get rearm.trigger with
    | none =>
      rw [hfound] at h
      obtain ⟨-, rfl⟩ := pure_ok.mp h
      exact SamePlan.sameSlots (refl_of SamePlan _)
    | some t =>
      rw [hfound] at h
      -- rearmed as it is stored, or another trigger has its key
      simp only at h
      split at h
      · -- a stored trigger is stored again
        obtain rfl := write_ok.mp h
        refine ⟨rfl, rfl, fun k => ?_, rfl, rfl⟩
        change (Table.put _ _ _).contains k = _
        rw [Table.contains, Table.get_put, Table.contains]
        split
        · next heq => rw [← heq, hfound]; rfl
        · rfl
      · obtain ⟨-, rfl⟩ := pure_ok.mp h
        exact SamePlan.sameSlots (refl_of SamePlan _)

/-- The rows a tree has ended in are those before, with its runs gone. -/
theorem endTree_yard {c : Core} {s₀ s : StoredRun} {status : Status} {acc : Cascade} {σ σ' : Rows}
    (h : Limbo c s₀ σ s) (hend : endTree env s₀.id status now σ = .ok (acc, σ'))
    (hsub : Subtree c s₀.id acc.visited)
    (hcore : σ'.toCore = endedRows c s₀ status (spentBy c s₀) (budgetAfter c s₀) now acc.visited) :
    SameSlots σ σ' ∧ yard σ' ∅ = yard σ (kin c s₀.id) := by
  -- ending a tree rewrites rows of runs and rearms a trigger
  have hslots : SameSlots σ σ' := by
    obtain ⟨t, σ₁, σ₂, -, hbefore, hrearm, hafter⟩ := endTree_plan hend
    exact hbefore.sameSlots.trans ((rearmTrigger_sameSlots hrearm).trans hafter.sameSlots)
  -- run by run: the rows after the end against the rows before it without the tree
  refine ⟨hslots, yard_standing hslots fun id => ?_⟩
  have hkept : s.run.admission = s₀.run.admission ∧ s.trigger = s₀.trigger :=
    ⟨congrArg (·.run.admission) (h.ending .cancelled 0 0), congrArg (·.trigger) (h.ending .cancelled 0 0)⟩
  have hrow : σ.run.get id = if s₀.id = id then some s else c.run.get id := by
    rw [show σ.run = _ from congrArg Core.run h.core, Core.get_set, h.id]
  have hended : σ'.run.get id = _ := (congrArg (·.run.get id) hcore).trans (get_endedRows hsub.nodup id)
  unfold standingOf
  rw [hrow, hended]
  -- the root itself
  by_cases hroot : s₀.id = id
  · have hin : id ∈ kin c s₀.id := by rw [hroot]; exact Relation.ReflTransGen.refl
    rw [if_pos hroot, if_pos hroot]
    simp [ending, hkept, hin]
  · rw [if_neg hroot, if_neg hroot]
    cases hget : c.run.get id with
    | none => split <;> rfl
    | some t =>
      cases hl : t.run.endedMs with
      | some at_ =>
        -- an ended run is as little live before as after
        split
        · simp [ending, hl]
        · simp [hl]
      -- a live run was visited exactly when it belongs to the tree
      | none =>
        have hmem := hsub.mem_kin h.inv.tree ⟨t, hget, hl⟩
        rw [List.mem_cons, or_iff_right (Ne.symm hroot)] at hmem
        split
        · next hvisited => simp [ending, hmem.mpr hvisited]
        · next hother => simp [hl, hmem.not.mpr hother]

/-- The definitions of the live runs of a tree. -/
def TreeNames (c : Core) (id : String) (names : Table String Unit) : Prop :=
  ∀ name, names.contains name = true ↔
    ∃ j s, j ∈ kin c id ∧ c.run.get j = some s ∧ s.run.endedMs = none ∧ s.run.admission.name = name

theorem TreeNames.unique {c : Core} {id : String} {names names' : Table String Unit} (h : TreeNames c id names)
    (h' : TreeNames c id names') : names = names' := by
  refine Table.ext_get fun name => ?_
  have hiff : (names.get name).isSome = true ↔ (names'.get name).isSome = true :=
    (h name).trans (h' name).symm
  cases hn : names.get name with
  | none =>
    cases hn' : names'.get name with
    | none => rfl
    | some u => simp [hn, hn'] at hiff
  | some u =>
    cases hn' : names'.get name with
    | none => simp [hn, hn'] at hiff
    | some u' => rfl

/-- The definitions a termination gathers are those of the live runs of its tree. -/
theorem Engine.Cascade.Noted.treeNames {c : Core} {s₀ : StoredRun} {acc : Cascade} (h : acc.Noted c s₀)
    (htree : Tree c) (hsub : Subtree c s₀.id acc.visited) (hroot : Live c s₀.id) :
    TreeNames c s₀.id acc.names := by
  intro name
  rw [h name]
  constructor
  · rintro ⟨i, hi, t, ht, hname⟩
    have hl : Live c i := by
      rcases List.mem_cons.mp hi with rfl | hvisited
      · exact hroot
      · exact ((hsub.mem_iff htree i).mp hvisited).1
    obtain ⟨t', ht', hlive⟩ := hl
    obtain rfl := Option.some.inj (ht.symm.trans ht')
    exact ⟨i, t, (hsub.mem_kin htree ⟨t, ht, hlive⟩).mpr hi, ht, hlive, hname⟩
  · rintro ⟨i, t, hi, ht, hlive, hname⟩
    exact ⟨i, (hsub.mem_kin htree ⟨t, ht, hlive⟩).mp hi, t, ht, hname⟩

/-- Under the emergency stop nothing is drained; else the slots of the tree's definitions are, in the
order of their names. -/
def CanDrain (now : Int) (c : Core) (stopped : Bool) (id : String) (y : Yard) : Prop :=
  stopped = true ∨ ∃ names, TreeNames c id names ∧
    (names.keys.foldlM (fun (y : Yard) name => y.drain now name) y).isSome = true

/-- A termination succeeds when the parent can be told and the slots can be drained. -/
theorem terminate_iff (env : Env) (now : Int) {c : Core} {s₀ s : StoredRun} {σ : Rows} {status : Status}
    (h : Limbo c s₀ σ s) (ht : status.terminal = true) :
    (∃ σ', terminate env s₀.id status now σ = .ok ((), σ')) ↔
      CanTell c s₀.id ∧ CanDrain now c (σ.stopped.getD false) s₀.id (yard σ (kin c s₀.id)) := by
  -- the cascade always succeeds; the notice and the drains come after it
  obtain ⟨acc, σ₁, hend, hindexed, hsub, hnoted, hcore⟩ := endTree_total env h status now
  obtain ⟨hslots₁, hyard₁⟩ := endTree_yard h hend hsub hcore
  have hσ₁ : Good σ₁ := by
    have hpath : Path env now (fun _ _ => True) c σ₁.toCore := by
      rw [hcore]
      exact endTree_path h.stored h.live ht hsub trivial
    exact ⟨hindexed, h.inv.path hpath⟩
  have hget : ∀ id, σ₁.run.get id = _ := fun id =>
    (congrArg (·.run.get id) hcore).trans (get_endedRows hsub.nodup id)
  have hself : σ₁.run.get s₀.id = some (ending s₀ status (spentBy c s₀) now) := by
    rw [hget, if_pos rfl]
  -- the parent is no run of the tree, and stored as before
  have hparent : ∀ link, s₀.run.child = some link → σ₁.run.get link.parent = c.run.get link.parent := by
    intro link hlink
    have hown : Owns c link.parent s₀.id := ⟨s₀, link, h.stored, hlink, rfl⟩
    have hne : link.parent ≠ s₀.id := by
      intro heq
      exact h.inv.tree.acyclic s₀.id (.single (heq ▸ hown))
    rw [hget, if_neg hne.symm, if_neg]
    intro hmem
    exact h.inv.tree.acyclic s₀.id (((hsub.mem_iff h.inv.tree _).mp hmem).2.tail hown)
  have htypes : σ₁.eventType = c.eventType := (congrArg Core.eventType hcore).trans rfl
  -- so the parent can be told after the cascade exactly when it could be told before
  have htell : CanTell σ₁.toCore s₀.id ↔ CanTell c s₀.id := by
    constructor
    · intro hcan s' link p hs' hlink hp hl ha hunseen hfirst
      obtain rfl := Option.some.inj (h.stored.symm.trans hs')
      exact hcan _ link p hself hlink ((hparent link hlink).trans hp) hl ha hunseen (by rw [htypes, hfirst])
    · intro hcan s' link p hs' hlink hp hl ha hunseen hfirst
      obtain rfl := Option.some.inj (hself.symm.trans hs')
      exact hcan s₀ link p h.stored hlink ((hparent link hlink).symm.trans hp) hl ha hunseen
        (by rw [← htypes, hfirst])
  obtain ⟨hlifeIff, hlifeKept⟩ := lifecycle_iff now hself ht fun link hlink => by
    obtain ⟨p, hp, -⟩ := h.inv.tree.parent s₀.id s₀ link h.stored hlink
    exact ⟨p, h.inv.tree.keyed _ _ hp, (hparent link hlink).trans hp⟩
  -- the names the drains are made for are those of the tree's runs
  have hnames : TreeNames c s₀.id acc.names :=
    hnoted.noted.treeNames h.inv.tree hsub ⟨s₀, h.stored, h.live⟩
  -- what the drain finds, and what it needs
  have hdrains : ∀ σ₂, lifecycle s₀.id status now σ₁ = .ok ((), σ₂) →
      ((∃ σ₃, Tx.each (fun name => drainQueues env name now) acc.names.keys σ₂ = .ok ((), σ₃)) ↔
        CanDrain now c (σ.stopped.getD false) s₀.id (yard σ (kin c s₀.id))) := by
    intro σ₂ hlife
    obtain ⟨hslots₂, hsame₂⟩ := hlifeKept _ _ hlife
    have hyard₂ : yard σ₂ ∅ = yard σ (kin c s₀.id) :=
      (yard_standing hslots₂ (hsame₂.standing ∅)).trans hyard₁
    have hstopped₂ : σ₂.stopped = σ.stopped := hslots₂.stopped.trans hslots₁.stopped
    obtain ⟨hindexed₂, -⟩ : Indexed σ₂ ∧ Path env now (fun _ _ => True) σ₁.toCore σ₂.toCore :=
      lifecycle_path env hσ₁ (fun t _ _ ht _ => by
        obtain rfl := Option.some.inj (hself.symm.trans ht)
        rfl) (fun _ => .inl trivial) hlife
    -- a stopped store drains nothing
    cases hstop : σ.stopped.getD false with
    | true =>
      exact iff_of_true (drains_stopped env now _ (by rw [hstopped₂]; exact hstop)) (.inl rfl)
    -- otherwise the drains go through exactly when they do on the yard
    | false =>
      have hσ₂ : Draining σ₂ := ⟨hindexed₂, by rw [hstopped₂]; exact hstop⟩
      have hseen := drains_yard env now acc.names.keys hσ₂
      rw [hyard₂] at hseen
      constructor
      · rintro ⟨σ₃, hdrain⟩
        refine .inr ⟨acc.names, hnames, ?_⟩
        rw [← hseen, seen, hdrain]
        rfl
      · rintro (hfalse | ⟨names, hnames', hsome⟩)
        · simp at hfalse
        · rw [hnames'.unique hnames, ← hseen] at hsome
          cases hdrain : Tx.each (fun name => drainQueues env name now) acc.names.keys σ₂ with
          | ok r => exact ⟨r.2, rfl⟩
          | error e => simp [seen, hdrain, Except.toOption] at hsome
  constructor
  -- it went through, so each of its parts did
  · rintro ⟨σ', hterm⟩
    rw [terminate, bind_of_ok hend] at hterm
    obtain ⟨u, σ₂, hlife, hterm⟩ := bind_ok.mp hterm
    obtain ⟨u', σ₃, hdrain, -⟩ := bind_ok.mp hterm
    exact ⟨htell.mp (hlifeIff.mp ⟨σ₂, hlife⟩), (hdrains σ₂ hlife).mp ⟨σ₃, hdrain⟩⟩
  -- the notice, the drains, and the buckets, which cannot fail
  · rintro ⟨htold, hdrained⟩
    obtain ⟨σ₂, hlife⟩ := hlifeIff.mpr (htell.mpr htold)
    obtain ⟨σ₃, hdrain⟩ := (hdrains σ₂ hlife).mpr hdrained
    obtain ⟨σ₄, hbuckets⟩ := each_total
      (f := fun row : String × (Nat × Totals) => addBucket env row.1 now row.2.1 row.2.2)
      (fun _ _ => ⟨_, rfl⟩) acc.ended.rows σ₃
    exact ⟨σ₄, bind_ok.mpr ⟨acc, σ₁, hend, bind_ok.mpr ⟨(), σ₂, hlife,
      bind_ok.mpr ⟨(), σ₃, hdrain, hbuckets⟩⟩⟩⟩

/-! ### The calls -/

/-- What the end of a run reads of the rows of its relatives. -/
def outlook (s : StoredRun) : Option ChildLink × Option Int × String × Table String Int ×
    Table String Pending × Nat :=
  (s.run.child, s.run.endedMs, s.run.admission.name, s.awaits, s.pending, s.accepted)

section Outlook

variable {c c' : Core} {id : String}

theorem CanTell.congr (h : ∀ i, (c'.run.get i).map outlook = (c.run.get i).map outlook)
    (htypes : c'.eventType = c.eventType) (hcan : CanTell c id) : CanTell c' id := by
  -- a row of the one is as telling as that of the other
  have hrow : ∀ {i s'}, c'.run.get i = some s' → ∃ s, c.run.get i = some s ∧ outlook s = outlook s' := by
    intro i s' hs'
    have heq := h i
    rw [hs', Option.map_some] at heq
    exact Option.map_eq_some_iff.mp heq.symm
  intro s' link p' hs' hlink hp' hl ha hunseen hfirst
  obtain ⟨s, hs, hsame⟩ := hrow hs'
  obtain ⟨p, hp, hpsame⟩ := hrow hp'
  simp only [outlook, Prod.mk.injEq] at hsame hpsame
  obtain ⟨-, hended, -, hawaits, hpending, haccepted⟩ := hpsame
  rw [← haccepted]
  exact hcan s link p hs (hsame.1.trans hlink) hp (hended.trans hl) (by rw [hawaits, ha])
    (by rw [hpending, hunseen]) (by rw [← htypes, hfirst])

theorem TreeNames.congr (h : ∀ i, (c'.run.get i).map outlook = (c.run.get i).map outlook)
    {names : Table String Unit} (hnames : TreeNames c id names) : TreeNames c' id names := by
  have hkin : kin c' id = kin c id := by
    have hforest : ∀ i, (c'.run.get i).map (fun s => (s.run.child, s.run.endedMs)) =
        (c.run.get i).map fun s => (s.run.child, s.run.endedMs) := by
      intro i
      have heq := congrArg (Option.map fun o : Option ChildLink × Option Int × String × Table String Int ×
        Table String Pending × Nat => (o.1, o.2.1)) (h i)
      rw [Option.map_map, Option.map_map] at heq
      exact heq
    rw [kin, kin, (forest_congr hforest).1]
  intro name
  rw [hnames name, hkin]
  refine exists_congr fun j => ?_
  have hrow := h j
  cases hs : c.run.get j with
  | none =>
    rw [hs, Option.map_none, Option.map_eq_none_iff] at hrow
    simp [hrow]
  | some s =>
    rw [hs, Option.map_some] at hrow
    obtain ⟨s', hs', hsame⟩ := Option.map_eq_some_iff.mp hrow
    simp only [outlook, Prod.mk.injEq] at hsame
    simp [hs', hsame]

theorem CanDrain.congr (h : ∀ i, (c'.run.get i).map outlook = (c.run.get i).map outlook) {stopped : Bool}
    {y : Yard} (hcan : CanDrain now c stopped id y) : CanDrain now c' stopped id y := by
  rcases hcan with hstop | ⟨names, hnames, hsome⟩
  · exact .inl hstop
  · exact .inr ⟨names, hnames.congr h, hsome⟩

end Outlook

/-- A call can end a run: the run's parent can be told, and the slots drained from what the drain finds. -/
structure Endable (now : Int) (σ : Rows) (id : String) (y : Yard) : Prop where
  told : CanTell σ.toCore id
  drained : CanDrain now σ.toCore (σ.stopped.getD false) id y

section Calls

variable {σ : Rows}

theorem cancelRun_iff (env : Env) (now : Int) {id : String} {s : StoredRun} (hσ : Good σ)
    (hs : σ.run.get id = some s) (hl : s.run.endedMs = none) :
    (∃ σ', cancelRun env id now σ = .ok (true, σ')) ↔ Endable now σ id (yard σ (kin σ.toCore id)) := by
  have hid := hσ.indexed.keyed _ _ hs
  rw [← hid] at hs
  have hiff : (∃ σ', terminate env s.id .cancelled now σ = .ok ((), σ')) ↔ _ :=
    terminate_iff env now (Good.limbo hσ hs hl) rfl
  rw [hid] at hiff hs
  have hgo : cancelRun env id now σ = (do terminate env id .cancelled now; pure true : Txn Bool) σ := by
    unfold cancelRun
    rw [bind_of_ok (findRun_ok.mpr ⟨hs.symm, rfl⟩)]
    simp only [hl, Option.isSome_none, Bool.false_eq_true, if_false]
  rw [hgo]
  constructor
  · rintro ⟨σ', h⟩
    obtain ⟨u, σ₁, hterm, -⟩ := bind_ok.mp h
    obtain ⟨htold, hdrained⟩ := hiff.mp ⟨σ₁, hterm⟩
    exact ⟨htold, hdrained⟩
  · intro h
    obtain ⟨σ', hterm⟩ := hiff.mpr ⟨h.told, h.drained⟩
    exact ⟨σ', bind_ok.mpr ⟨(), σ', hterm, rfl⟩⟩

/-- A cancel that finds a live run leaves it ended. -/
theorem cancelRun_ended {σ' : Rows} {id : String} {s : StoredRun} {r : Bool} (hσ : Good σ)
    (hs : σ.run.get id = some s) (hl : s.run.endedMs = none)
    (h : cancelRun env id now σ = .ok (r, σ')) : Ended σ'.toCore id := by
  have hid := hσ.indexed.keyed _ _ hs
  rw [← hid] at hs
  simp only [cancelRun, bind_ok, findRun_ok] at h
  obtain ⟨found, σ₁, ⟨rfl, rfl⟩, h⟩ := h
  rw [← hid, hs] at h
  simp only [hl, Option.isSome_none, Bool.false_eq_true, if_false, bind_ok, pure_ok] at h
  obtain ⟨u, σ₂, hterm, -, rfl⟩ := h
  obtain ⟨ids, σ₃, σ₄, hsub, hσ₃, hcore, hlife, hrest⟩ :=
    terminate_cases (fun _ _ => True) (fun _ => trivial) (Good.limbo hσ hs hl) rfl hterm
  have hself : σ₃.run.get s.id = some (ending s .cancelled (spentBy σ₁.toCore s) now) := by
    rw [show σ₃.run = _ from congrArg Core.run hcore]
    exact get_endedRows_root hsub.nodup
  have hreach : Reaches env now (fun _ _ => True) σ₃ σ' :=
    trans_of (Reaches env now _) (fun hσ₃ => lifecycle_path env hσ₃ (fun t _ _ ht _ => by
      rw [hself] at ht
      rw [← Option.some.inj ht]
      rfl) (fun _ => .inl trivial) hlife) hrest
  obtain ⟨t, ht, hended⟩ := (hreach hσ₃).2.ended_stored hσ₃.inv hself (by simp [ending])
  rw [← hid]
  exact ⟨t, ht, Option.isSome_iff_ne_none.mpr hended⟩

theorem finished_of_terminal (c : Core) (s : StoredRun) (now : Int) {outcome : Status}
    (h : outcome.terminal = true) : (finished c s outcome now).2 = outcome := by
  cases outcome with
  | waiting | interrupted => simp [Status.terminal] at h
  | completed | faulted | cancelled => rfl

/-- A success, to the breaker. -/
def Status.completes : Status → Bool
  | .completed _ => true
  | _ => false

/-- The breaker looks at the version and the epoch of a run alone. -/
theorem Yard.observe_congr {y : Yard} {r r' : SavedRun} {fault : Option WorkflowError} {success : Bool}
    {default : Nat} (hadm : r'.admission = r.admission) (hepoch : r'.epoch = r.epoch) :
    y.observe r' fault success default now = y.observe r fault success default now := by
  have hcounts : ∀ defs : Definitions, defs.Counts r' ↔ defs.Counts r := by
    intro defs
    constructor
    · rintro ⟨hactive, he, hun⟩
      exact ⟨by rw [hactive, hadm], by rw [← hepoch, he], hun⟩
    · rintro ⟨hactive, he, hun⟩
      exact ⟨by rw [hactive, hadm], by rw [hepoch, he], hun⟩
  have htrip : ∀ (defs : Definitions) reason threshold,
      defs.trip r' reason threshold now = defs.trip r reason threshold now := by
    intro defs reason threshold
    unfold Definitions.trip
    rw [hadm]
  unfold Yard.observe
  rw [hadm]
  cases y.definitions r.admission.name with
  | none => rfl
  | some defs =>
    classical
    refine if_congr (hcounts defs) ?_ rfl
    simp only [htrip]

theorem finish_iff (env : Env) (now : Int) {f : Fence} {s : StoredRun} {outcome : Status}
    (threshold : Nat) (hσ : Good σ) (ht : outcome.terminal = true)
    (hchecked : checked f now env.policy.skewMs σ = .ok (s, σ)) :
    (∃ σ', finish env f outcome now threshold σ = .ok (outcome, σ')) ↔
      Endable now σ f.runId ((yard σ (kin σ.toCore f.runId)).observe s.run (faultOf outcome outcome)
        outcome.completes threshold now) := by
  -- what `checked` found
  obtain ⟨-, hs, hr⟩ := checked_ok hchecked
  have hid := hσ.indexed.keyed _ _ hs
  rw [← hid] at hs
  have hstatus := finished_of_terminal σ.toCore s now ht
  have hfin : (finished σ.toCore s outcome now).2.terminal = true := by rw [hstatus]; exact ht
  have hpair : finished σ.toCore s outcome now = ((finished σ.toCore s outcome now).1, outcome) :=
    Prod.ext rfl hstatus
  obtain ⟨n, hrow⟩ := finished_terminal hfin
  -- the run is given back, and the breaker told
  obtain ⟨σ₁, hstore⟩ : ∃ σ₁, storeRun (disowned (finished σ.toCore s outcome now).1) σ =
      .ok ((), σ₁) := ⟨_, rfl⟩
  have hplan : SamePlan σ σ₁ := storeRun_frame _ hstore
  have hsame : SameStanding σ.toCore σ₁.toCore := by
    rw [storeRun_core hstore, hrow]
    exact .set (s := s) hs rfl rfl rfl
  obtain ⟨σ₂, hbreaker⟩ := breaker_total env (disowned (finished σ.toCore s outcome now).1).run
    (faultOf outcome outcome) outcome.completes threshold now σ₁
  have hobserves := breaker_ok hbreaker
  obtain ⟨m, hlimbo⟩ := finish_limbo env hσ hs hr hfin hstore (breaker_quiet _ _ _ _ _ hbreaker)
  -- past its guards, the call is the termination of the row that was given back
  have hgo : finish env f outcome now threshold σ =
      (do terminate env s.id outcome now; pure outcome : Txn Status) σ₂ := by
    have hread : (Tx.read fun rows => finished rows.toCore s outcome now : Txn (StoredRun × Status)) σ =
        .ok (((finished σ.toCore s outcome now).1, outcome), σ) := read_ok.mpr ⟨hpair.symm, rfl⟩
    unfold finish
    rw [bind_of_ok hchecked, bind_of_ok hread]
    dsimp only
    rw [bind_of_ok hstore, if_pos ht, hid]
    cases outcome <;> exact bind_of_ok hbreaker
  -- what the drain finds, as of the rows of the store
  have hyard : ∀ gone, yard σ₂ gone = (yard σ gone).observe s.run (faultOf outcome outcome)
      outcome.completes threshold now := by
    intro gone
    rw [yard_observes hobserves, yard_standing hplan.sameSlots (hsame.standing gone)]
    exact Yard.observe_congr (by rw [hrow]; rfl) (by rw [hrow]; rfl)
  -- the counter of interruptions is no part of what the tree looks like
  have houtlook : ∀ i, ((σ.toCore.set { s with run := { s.run with interruptions := m } }).run.get i).map
      outlook = (σ.run.get i).map outlook := by
    intro i
    rw [Core.get_set]
    split
    · next heq =>
      rw [← heq, show ({ s with run := { s.run with interruptions := m } } : StoredRun).id = s.id from rfl,
        hs]
      rfl
    · rfl
  have hkin : kin (σ.toCore.set { s with run := { s.run with interruptions := m } }) s.id =
      kin σ.toCore s.id := by
    rw [kin, kin, (forest_set { s with run := { s.run with interruptions := m } } hs rfl rfl rfl).1]
  have hstopped : σ₂.stopped = σ.stopped := hobserves.stopped.trans hplan.stopped
  -- and the termination goes through exactly as above
  have hiff := terminate_iff env now hlimbo ht
  rw [hyard, hstopped, show ({ s with run := { s.run with interruptions := m } } : StoredRun).id = s.id
    from rfl, hkin] at hiff
  rw [hgo, ← hid]
  constructor
  · rintro ⟨σ', h⟩
    obtain ⟨u, σ₃, hterm, -⟩ := bind_ok.mp h
    obtain ⟨htold, hdrained⟩ := hiff.mp ⟨σ₃, hterm⟩
    exact ⟨htold.congr (fun i => (houtlook i).symm) rfl, hdrained.congr fun i => (houtlook i).symm⟩
  · intro h
    obtain ⟨σ', hterm⟩ := hiff.mpr ⟨h.told.congr houtlook rfl, h.drained.congr houtlook⟩
    exact ⟨σ', bind_ok.mpr ⟨(), σ', hterm, rfl⟩⟩

end Calls

/-- A live run can be ended exactly when its parent can be told and the slots can be drained: a cancel
ends it then, and so does the last call of its owner, whose outcome the breaker observes first. -/
theorem live_run_ends (env : Env) (history : List Op) (now : Int) :
    (∀ id s, (after env history).run.get id = some s → s.run.endedMs = none →
      ((call env (after env history) (.cancel id now)).1 = .ok (.flag true) ∧
          Ended (step env (after env history) (.cancel id now)).toCore id ↔
        Endable now (after env history) id
          (yard (after env history) (kin (after env history).toCore id)))) ∧
    (∀ f s outcome threshold, outcome.terminal = true →
      checked f now env.policy.skewMs (after env history) = .ok (s, after env history) →
      ((call env (after env history) (.finish f outcome now threshold)).1 = .ok (.status outcome) ↔
        Endable now (after env history) f.runId
          ((yard (after env history) (kin (after env history).toCore f.runId)).observe s.run
            (faultOf outcome outcome) outcome.completes threshold now))) := by
  have hσ := good_after env history
  -- a call answers when its transaction commits
  have hcall : ∀ {op : Op} {r : Result}, (call env (after env history) op).1 = .ok r ↔
      ∃ σ', op.tx env (after env history) = .ok (.ok r, σ') := by
    intro op r
    unfold call
    cases htx : op.tx env (after env history) with
    | error e => simp [Tx.commit_error htx]
    | ok p =>
      obtain ⟨result, σ'⟩ := p
      rw [Tx.commit_ok htx]
      simp
  refine ⟨fun id s hs hl => ?_, fun f s outcome threshold ht hchecked => ?_⟩
  -- the cancel: what `cancelRun_iff` says, and that the run has ended then
  · rw [← cancelRun_iff env now hσ hs hl]
    constructor
    · rintro ⟨h, -⟩
      obtain ⟨σ', htx⟩ := hcall.mp h
      obtain ⟨r, hcancel, hr⟩ := map_ok.mp htx
      obtain rfl : true = r := by simpa using hr
      exact ⟨σ', hcancel⟩
    · rintro ⟨σ', hcancel⟩
      have htx : (Op.cancel id now).tx env (after env history) = .ok (.ok (.flag true), σ') :=
        map_ok.mpr ⟨true, hcancel, rfl⟩
      refine ⟨hcall.mpr ⟨σ', htx⟩, ?_⟩
      have hstep : step env (after env history) (.cancel id now) = σ' := by
        unfold step call
        rw [Tx.commit_ok htx]
      rw [hstep]
      exact cancelRun_ended hσ hs hl hcancel
  -- the last call of an owner
  · rw [← finish_iff env now threshold hσ ht hchecked, hcall]
    refine exists_congr fun σ' => ?_
    constructor
    · intro htx
      obtain ⟨r, hfinish, hr⟩ := map_ok.mp htx
      obtain rfl : outcome = r := by simpa using hr
      exact hfinish
    · intro hfinish
      exact map_ok.mpr ⟨outcome, hfinish, rfl⟩

/-! ### A slot without its trigger -/

/-- A trigger that is due at an instant. -/
def Trigger.due (at_ : Int) : Trigger := { atMs := some at_, types := [], state := .null }

/-- A slot of the trigger `k` that is buffered while a run of it is live. -/
def Firing.slot (id : String) (expected next : Option Trigger) : Firing :=
  { key := "k", expected, next, admits := [.plain id], rearm := none, ingress := none,
    busy := some (.due 9), refused := none
    overlap := some { policy := .queue, maxConcurrentRuns := 5, ceiling := .due 9 } }

/-- A trigger starts a run, and its next slot is buffered behind it. -/
def slotBuffered : List Op :=
  [.fire (.slot "r" none (some (.due 1))) 0, .fire (.slot "q" (some (.due 1)) (some (.due 2))) 1,
    .claimAs "r" 2 { version := none, accepts := [] } "o"]

/-- The trigger then ends, and its buffered slot stays. -/
def triggerEnded : Op :=
  .fire { Firing.slot "q" (some (.due 2)) none with admits := [], busy := none, overlap := none } 3

/-- The slot's trigger is gone: the cancel fails on it, although nothing is wrong with the run. -/
theorem orphaned_slot :
    ((after .plain (slotBuffered ++ [triggerEnded])).run.get "r").any
        (fun s => decide (s.run.endedMs = none ∧ s.run.fence = some (.plain "r" 1))) = true ∧
      (call .plain (after .plain (slotBuffered ++ [triggerEnded])) (.cancel "r" 4)).1 =
        .error (.message "queue without trigger") ∧
      (call .plain (after .plain (slotBuffered ++ [triggerEnded]))
          (.finish (.plain "r" 1) (.completed .null) 4 5)).1 =
        .error (.message "queue without trigger") := by
  decide +kernel

/-- With its trigger stored, the slot can be promoted. -/
theorem slotBuffered_endable :
    Endable 4 (after .plain slotBuffered) "r"
      (yard (after .plain slotBuffered) (kin (after .plain slotBuffered).toCore "r")) := by
  -- the one stored run is the one that is cancelled
  have hruns : ∀ j s, (after .plain slotBuffered).run.get j = some s →
      j = "r" ∧ s.run.admission.name = "w" ∧ s.run.child = none := by
    have hall : ((after .plain slotBuffered).run.rows.all fun row =>
        decide (row.1 = "r" ∧ row.2.run.admission.name = "w" ∧ row.2.run.child = none)) = true := by
      decide +kernel
    intro j s hs
    simpa using List.all_eq_true.mp hall (j, s) ((Table.mem_rows _).mpr hs)
  have hlive : ((after .plain slotBuffered).run.get "r").any
      (fun s => decide (s.run.endedMs = none)) = true := by decide +kernel
  obtain ⟨s, hs, hl⟩ := (Option.any_eq_true _ _).mp hlive
  have hself : "r" ∈ kin (after .plain slotBuffered).toCore "r" := Relation.ReflTransGen.refl
  refine ⟨fun s link p hs hlink => ?_, .inr ⟨Table.empty.put "w" (), fun name => ?_, ?_⟩⟩
  · simp [(hruns "r" s hs).2.2] at hlink
  · rw [Table.contains_iff, Table.get_put]
    constructor
    · rintro ⟨u, hu⟩
      refine ⟨"r", s, hself, hs, by simpa using hl, ?_⟩
      rw [(hruns "r" s hs).2.1]
      by_contra hne
      simp [hne] at hu
    · rintro ⟨j, t, -, ht, -, rfl⟩
      rw [(hruns j t ht).2.1]
      exact ⟨(), if_pos rfl⟩
  -- the yard as far as the drain reads it
  · have hslot : ((after .plain slotBuffered).triggerQueue.get "k").any
        (fun q => decide (q.admission = .plain "q" ∧ q.maxConcurrentRuns = 5)) = true := by decide +kernel
    obtain ⟨q, hq, hadm⟩ := (Option.any_eq_true _ _).mp hslot
    rw [decide_eq_true_eq] at hadm
    obtain ⟨y, hy⟩ : ∃ y, y = yard (after .plain slotBuffered)
      (kin (after .plain slotBuffered).toCore "r") := ⟨_, rfl⟩
    have hslots : y.slots "k" = some q := by rw [hy]; exact hq
    have hlisted : y.listed "w" = ["k"] := by
      rw [hy]
      have hkeys : ((after .plain slotBuffered).queueName "w").keys = ["k"] := by decide +kernel
      exact hkeys
    have hnone : y.admitted "q" = none := by
      rw [hy]
      have hget : (after .plain slotBuffered).run.get "q" = none := by decide +kernel
      exact congrArg (Option.map fun s : StoredRun => s.run.admission) hget
    have hdefs : y.definitions "w" = none := by
      rw [hy]
      have hget : (after .plain slotBuffered).definitions.get "w" = none := by decide +kernel
      exact hget
    have harmed : "k" ∈ y.armed := by
      rw [hy]
      have hget : (after .plain slotBuffered).trigger.contains "k" = true := by decide +kernel
      exact hget
    -- the one run there is goes with the tree
    have hidle : "k" ∉ y.busy := by
      rw [hy]
      rintro ⟨id, t, ht, -, hout, -⟩
      exact hout ((hruns id t ht).1 ▸ hself)
    have hroom : (y.living "w").ncard = 0 := by
      have hempty : y.living "w" = ∅ := by
        rw [hy, Set.eq_empty_iff_forall_notMem]
        rintro id ⟨hout, t, ht, -⟩
        exact hout ((hruns id t ht).1 ▸ hself)
      rw [hempty, Set.ncard_empty]
    have htakes : y.Takes q.admission := by
      have hid : q.admission.id = "q" := by rw [hadm.1]; rfl
      have hname : q.admission.name = "w" := by rw [hadm.1]; rfl
      unfold Yard.Takes
      rw [hid, hnone, hname, hdefs]
      rfl
    -- so the slot's turn lands it
    have hpromote : y.promote 4 "w" "k" = some ((y.clear ["k"]).land "k" q 4) := by
      unfold Yard.promote
      rw [hslots]
      dsimp only
      rw [if_neg, if_pos ⟨harmed, htakes⟩]
      rw [hroom, hadm.2]
      simp [hidle]
    have hkeys : (Table.empty.put "w" () : Table String Unit).keys = ["w"] := by decide +kernel
    rw [hkeys, ← hy, List.foldlM_cons, Yard.drain, hlisted, List.foldlM_cons, hpromote]
    rfl

/-- A run is cancelled over a slot that waits for it: the slot can be promoted, and the run ends. -/
theorem buffered_run_ends :
    (call .plain (after .plain slotBuffered) (.cancel "r" 4)).1 = .ok (.flag true) ∧
      (call .plain (after .plain slotBuffered) (.finish (.plain "r" 1) (.completed .null) 4 5)).1 =
        .ok (.status (.completed .null)) := by
  have hlive : ((after .plain slotBuffered).run.get "r").any
      (fun s => decide (s.run.endedMs = none ∧ s.run.admission.name = "w")) = true := by decide +kernel
  obtain ⟨s, hs, hl⟩ := (Option.any_eq_true _ _).mp hlive
  rw [decide_eq_true_eq] at hl
  have hchecked : (checked (.plain "r" 1) 4 Env.plain.policy.skewMs (after .plain slotBuffered)).isOk =
      true := by decide +kernel
  have hends := live_run_ends .plain slotBuffered 4
  refine ⟨((hends.1 "r" s hs hl.1).mpr slotBuffered_endable).1, ?_⟩
  cases hok : checked (.plain "r" 1) 4 Env.plain.policy.skewMs (after .plain slotBuffered) with
  | error e => simp [hok, Except.isOk, Except.toBool] at hchecked
  | ok r =>
    obtain ⟨s', σ'⟩ := r
    obtain ⟨rfl, hs', -⟩ := checked_ok hok
    refine (hends.2 (.plain "r" 1) s' (.completed .null) 5 rfl hok).mpr ?_
    -- the definition has no version, and the breaker nothing to observe
    obtain rfl := Option.some.inj (hs.symm.trans hs')
    have hget : (after .plain slotBuffered).definitions.get "w" = none := by decide +kernel
    have hobserve : ∀ gone fault success, (yard (after .plain slotBuffered) gone).observe s.run fault
        success 5 4 = yard (after .plain slotBuffered) gone := by
      intro gone fault success
      have hdefs : (yard (after .plain slotBuffered) gone).definitions s.run.admission.name = none := by
        rw [hl.2]
        exact hget
      rw [Yard.observe, hdefs]
    rw [hobserve]
    exact slotBuffered_endable

end Ouro
