import Mathlib
import Ouro.Durable.Arming
import Ouro.Runtime.Schedule

/-!
# The slots of a periodic trigger

Workers race to fire an `every` or `cron` trigger. Each has read the trigger at some time and brings
its own clock; the store takes a firing only while the trigger is the one that worker read.

* `fire_writes`: what a firing leaves of its trigger, by its disposition;
* `Attempt.fire_periodic`: an attempt either keeps the slot for a retry or asks for triggers whose slot
  lies after both the consumed one and the clock;
* `slots_advance`: over every run of attempts within one epoch, each consumed slot is the one the
  consumption before it moved the trigger to.
-/

namespace Ouro

open Lib Engine Tx

variable {env : Env} {now : Int}

/-! ### What a firing writes -/

/-- Triggers only go. -/
def Fewer (σ σ' : Rows) : Prop := ∀ k t, σ'.trigger.get k = some t → σ.trigger.get k = some t

instance : IsPreorder Rows Fewer where
  refl _ _ _ h := h
  trans _ _ _ h h' k t ht := h k t (h' k t ht)

theorem SamePlan.fewer {σ σ' : Rows} (h : SamePlan σ σ') : Fewer σ σ' := by
  intro k t ht
  rwa [h.trigger] at ht

theorem Observes.fewer {r : SavedRun} {fault : Option WorkflowError} {success : Bool} {default : Nat}
    {σ σ' : Rows} (h : Observes env r fault success default now σ σ') : Fewer σ σ' := by
  intro k t ht
  cases h with
  | tripped defs reason threshold σ₁ hdefs hcounts hfault hthreshold hreached harm =>
    have ht₁ : σ₁.trigger.get k = some t := ht
    rw [harm.trigger, Table.get_empty, Option.none_or] at ht₁
    split at ht₁
    · exact absurd ht₁ (by simp)
    · exact ht₁
  | _ => exact ht

/-- The trigger that a firing with a disposition leaves, none where it leaves it as it is. -/
def Firing.wrote (f : Firing) : Except Error Fired → Option Trigger
  | .ok .committed | .ok .queued => f.next
  | .ok (.busy _) => f.busy
  | .ok .ceiling => f.overlap.map (·.ceiling)
  | .ok .changed | .ok .ingested | .error _ => none

namespace Engine

theorem refuse_fewer {refused : Refused} {σ σ' : Rows} {u : Unit}
    (h : refuse env refused now σ = .ok (u, σ')) : Fewer σ σ' := by
  obtain ⟨-, rfl⟩ | ⟨-, s, σ₁, rfl, hstore, hobserves⟩ := refuse_ok h
  · exact refl_of Fewer _
  · have hsame : SamePlan σ σ₁ := storeRun_frame _ hstore
    exact trans_of Fewer hsame.fewer hobserves.fewer

theorem promote_fewer (name key : String) : Steps Fewer (promote env name key now) := by
  intro σ u σ' h
  obtain ⟨rfl, -⟩ | ⟨q, t, σ₁, -, -, -, -, htrigger, hrest⟩ := promote_ok h
  · exact refl_of Fewer _
  · have hfirst : Fewer σ σ₁ := by
      intro k x hx
      rwa [htrigger] at hx
    refine trans_of Fewer hfirst ?_
    rcases hrest with ⟨error, default, -, hrefuse⟩ | ⟨-, hbind⟩
    · exact refuse_fewer hrefuse
    · exact (admitFiring_ok hbind).1.fewer

theorem slotOutcome_wrote {f : Firing} {g : OverlapGuard} {a : Admission}
    {live : List (IndexKey × IndexValue)} {σ σ' : Rows} {o : Outcome} (hg : f.overlap = some g)
    (hnext : f.next.isSome) (hbusy : f.busy.isSome) (h : slotOutcome f g a live σ = .ok (o, σ')) :
    o.1 = f.wrote (.ok o.2) ∧ o.1.isSome := by
  simp only [slotOutcome, bind_ok, read_ok] at h
  obtain ⟨room, σ₁, ⟨-, rfl⟩, queued, σ₂, ⟨-, rfl⟩, h⟩ := h
  split at h
  · rw [(pure_ok.mp h).1]
    simp [Firing.wrote, hg]
  · split at h
    · split at h
      · simp only [bind_ok, pure_ok] at h
        obtain ⟨u, σ₃, -, rfl, -⟩ := h
        exact ⟨rfl, hnext⟩
      · rw [(pure_ok.mp h).1]
        exact ⟨rfl, hbusy⟩
    · rw [(pure_ok.mp h).1]
      exact ⟨rfl, hnext⟩

/-- The outcome of a disposition is the trigger that firings with it leave. -/
theorem disposition_wrote {f : Firing} {σ σ' : Rows} {o : Outcome} (hnext : f.next.isSome)
    (h : disposition env f now σ = .ok (o, σ')) : o.1 = f.wrote (.ok o.2) ∧ o.1.isSome := by
  -- With an overlap policy, the outcome is that of the slot; a candidate admitted before moves on.
  cases hoverlap : f.overlap with
  | some g =>
    cases hcandidate : f.admits.head?.orElse fun _ => f.refused.map (·.admission) with
    | some a =>
      simp only [disposition, hoverlap, hcandidate, bind_ok, ensure_ok, findRun_ok] at h
      obtain ⟨u₁, σ₁, ⟨-, rfl⟩, u₂, σ₂, ⟨-, rfl⟩, u₃, σ₃, ⟨hboth, rfl⟩, found, σ₄, ⟨-, rfl⟩, h⟩ := h
      cases found with
      | some s =>
        rw [(pure_ok.mp h).1]
        exact ⟨rfl, hnext⟩
      | none =>
        have hbusy : f.busy.isSome := (Bool.and_eq_true _ _ ▸ hboth).2
        obtain ⟨live, σ₅, -, h⟩ := bind_ok.mp h
        split at h
        · obtain ⟨u₄, σ₆, -, h⟩ := bind_ok.mp h
          exact slotOutcome_wrote hoverlap hnext hbusy h
        · exact slotOutcome_wrote hoverlap hnext hbusy h
    | none =>
      simp only [disposition, hoverlap, hcandidate, pure_ok] at h
      rw [h.1]
      exact ⟨rfl, hnext⟩
  -- Without one, a busy trigger waits while its last run is not ended.
  | none =>
    cases hbusy : f.busy with
    | none =>
      simp only [disposition, hoverlap, hbusy, pure_ok] at h
      rw [h.1]
      exact ⟨rfl, hnext⟩
    | some busy =>
      simp only [disposition, hoverlap, hbusy] at h
      split at h
      · rw [(pure_ok.mp h).1]
        exact ⟨rfl, hnext⟩
      · simp only [bind_ok, read_ok] at h
        obtain ⟨last, σ₁, ⟨-, rfl⟩, h⟩ := h
        cases last with
        | none =>
          rw [(pure_ok.mp h).1]
          exact ⟨rfl, hnext⟩
        | some last =>
          simp only [bind_ok, findRun_ok] at h
          obtain ⟨found, σ₂, ⟨-, rfl⟩, h⟩ := h
          split at h
          · rw [(pure_ok.mp h).1]
            exact ⟨hbusy.symm, rfl⟩
          · rw [(pure_ok.mp h).1]
            exact ⟨rfl, hnext⟩

/-- The firing's trigger is the one its outcome names, unless a refusal trips the definition. -/
theorem commitFiring_wrote {f : Firing} {current : Option Trigger} {x : Trigger} {d r : Fired}
    {σ σ' : Rows} (h : commitFiring env f current (some x, d) now σ = .ok (r, σ')) :
    r = d ∧ (∀ y, σ'.trigger.get f.key = some y → y = x) ∧
      (f.refused = none → σ'.trigger.get f.key = some x) := by
  obtain ⟨u, σ₁, hstore, h⟩ := bind_ok.mp h
  have hput : σ₁.trigger.get f.key = some x := by
    rw [write_ok.mp hstore]
    simp
  -- only a refusal can take the trigger away again
  have hrest : r = d ∧ Fewer σ₁ σ' ∧ (f.refused = none → σ'.trigger = σ₁.trigger) := by
    split at h
    · obtain ⟨w, σ₃, heach, hrefused⟩ := bind_ok.mp h
      have hstep : ∀ a, Steps SamePlan (admitFiring f.key a f.rearm (some x) now) :=
        fun a _ _ _ h => (admitFiring_ok h).1
      have hsame : SamePlan σ₁ σ₃ := Steps.each hstep f.admits heach
      cases hf : f.refused with
      | none =>
        rw [hf] at hrefused
        obtain ⟨rfl, rfl⟩ := pure_ok.mp hrefused
        exact ⟨rfl, hsame.fewer, fun _ => hsame.trigger⟩
      | some refused =>
        rw [hf] at hrefused
        obtain ⟨w', σ₄, hrefuse, hrefused⟩ := bind_ok.mp hrefused
        obtain ⟨w'', σ₅, hwrite, hpure⟩ := bind_ok.mp hrefused
        obtain ⟨rfl, rfl⟩ := pure_ok.mp hpure
        refine ⟨rfl, trans_of Fewer hsame.fewer (trans_of Fewer (refuse_fewer hrefuse) ?_), by simp⟩
        rw [write_ok.mp hwrite]
        exact fun _ _ h => h
    · obtain ⟨rfl, rfl⟩ := pure_ok.mp h
      exact ⟨rfl, refl_of Fewer _, fun _ => rfl⟩
  refine ⟨hrest.1, fun y hy => ?_, fun hf => ?_⟩
  · exact Option.some.inj ((hrest.2.1 _ _ hy).symm.trans hput)
  · rw [hrest.2.2 hf, hput]

/-- What a firing without an ingress event leaves of its trigger: the one its disposition names, in
place of the expected one; otherwise triggers only go. -/
theorem fire_writes {f : Firing} {σ σ' : Rows} {r : Except Error Fired} (hnext : f.next.isSome)
    (hingress : f.ingress = none) (h : fire env f now σ = .ok (r, σ')) :
    f.wrote r = none ∧ Fewer σ σ' ∨
      ∃ x, f.wrote r = some x ∧ (∀ t, f.expected = some t → σ.trigger.get f.key = some t) ∧
        (∀ y, σ'.trigger.get f.key = some y → y = x) ∧
        (f.refused = none → σ'.trigger.get f.key = some x) := by
  simp only [fire, isStopped, bind_ok, read_ok] at h
  obtain ⟨stopped, σ₁, ⟨-, rfl⟩, h⟩ := h
  -- A stopped store.
  split at h
  · obtain ⟨rfl, rfl⟩ := pure_ok.mp h
    exact .inl ⟨rfl, refl_of Fewer _⟩
  simp only [bind_ok, ensure_ok, read_ok] at h
  -- The drains come first; they fire nothing, so triggers only go.
  obtain ⟨u, σ₂, ⟨-, rfl⟩, drained, σ₃, hdrain, current, σ₄, ⟨hcurrent, rfl⟩, h⟩ := h
  have hfewer : Fewer σ₂ σ₄ :=
    drainFor_steps (fun _ _ _ _ h => h) promote_fewer f hdrain
  -- Another worker has moved the trigger meanwhile.
  split at h
  · obtain ⟨rfl, rfl⟩ := pure_ok.mp h
    exact .inl ⟨rfl, hfewer⟩
  next hexpected =>
  obtain ⟨found, σ₅, hfirst, h⟩ := bind_ok.mp h
  obtain rfl := firstRefusal_reads _ _ hfirst
  -- A definition refuses the firing, or the firing proper.
  cases found with
  | some refusal =>
    obtain ⟨rfl, rfl⟩ := pure_ok.mp h
    exact .inl ⟨rfl, hfewer⟩
  | none =>
    obtain ⟨fired, hchecked, rfl⟩ := map_ok.mp h
    simp only [fireChecked, ingested, ingestFiring, hingress, bind_ok, pure_ok] at hchecked
    obtain ⟨used, σ₆, ⟨rfl, rfl⟩, hchecked⟩ := hchecked
    simp only [Bool.false_eq_true, if_false, bind_ok] at hchecked
    obtain ⟨outcome, σ₇, hdisposition, used', σ₈, hpure, hcommit⟩ := hchecked
    obtain ⟨rfl, rfl⟩ := pure_ok.mp hpure
    -- The trigger that is stored is the one of the outcome.
    obtain ⟨hwrote, hsome⟩ := disposition_wrote hnext hdisposition
    obtain ⟨x, hx⟩ := Option.isSome_iff_exists.mp hsome
    obtain ⟨next, d⟩ := outcome
    simp only at hx hwrote
    subst hx
    simp only [Bool.false_eq_true, if_false] at hcommit
    obtain ⟨rfl, honly, hstays⟩ := commitFiring_wrote hcommit
    refine .inr ⟨x, hwrote.symm, fun t ht => hfewer _ _ ?_, honly, hstays⟩
    rw [← hcurrent, not_not.mp hexpected, ht]

end Engine

namespace Runtime

open Ows

/-! ### The trigger a slot waits in -/

/-- A periodic trigger of a definition that waits for a slot. -/
structure Waits (name kind : String) (slot : Int) (t : Trigger) : Prop where
  name : t.state.text "name" = some name
  kind : t.state.text "kind" = some kind
  slot : slotOf t = some slot

variable {name kind : String} {slot : Int} {t : Trigger}

theorem retrySlot_unretried (t : Trigger) : retrySlot (unretried t) = none := by
  unfold retrySlot unretried
  rw [Json.get?_remove_self]
  rfl

theorem retrySlot_setState {k : String} (h : k ≠ "retry") (t : Trigger) (v : Json) :
    retrySlot (setState t k v) = retrySlot t := by
  unfold retrySlot setState
  rw [Json.get?_insert_ne h]

theorem text_setState {k l : String} (h : k ≠ l) (t : Trigger) (v : Json) :
    (setState t k v).state.text l = t.state.text l := by
  unfold setState Json.text
  rw [Json.get?_insert_ne h]

/-- A trigger that a firing moves: it waits for its due time, without a retry. -/
structure Moved (name kind : String) (slot : Int) (t : Trigger) : Prop
    extends Waits name kind slot t where
  unretried : retrySlot t = none

theorem Waits.moved (h : Waits name kind slot t) (m : Int) :
    Moved name kind m { Runtime.unretried t with atMs := some m } where
  name := (Json.text_remove (by decide) _).trans h.name
  kind := (Json.text_remove (by decide) _).trans h.kind
  slot := by
    show ((retrySlot (Runtime.unretried t)).or (some m)) = some m
    rw [retrySlot_unretried]
    rfl
  unretried := retrySlot_unretried t

theorem Moved.setState (h : Moved name kind slot t) {k : String} (hname : k ≠ "name")
    (hkind : k ≠ "kind") (hretry : k ≠ "retry") (v : Json) :
    Moved name kind slot (Runtime.setState t k v) where
  name := (text_setState hname t v).trans h.name
  kind := (text_setState hkind t v).trans h.kind
  slot := by
    unfold slotOf
    rw [retrySlot_setState hretry]
    exact h.slot
  unretried := (retrySlot_setState hretry t v).trans h.unretried

theorem Moved.skipped (h : Moved name kind slot t) (s : Int) (reason : String) :
    Moved name kind slot (Runtime.skipped t s reason) :=
  (h.setState (by decide) (by decide) (by decide) _).setState (by decide) (by decide) (by decide) _

/-- An interrupted admission keeps its slot. -/
theorem Waits.retried (h : Waits name kind slot t) (error : String) (now : Int) :
    Waits name kind slot (Runtime.retried t slot error now) ∧
      retrySlot (Runtime.retried t slot error now) = some slot := by
  obtain ⟨v, hv, -⟩ := Option.bind_eq_some_iff.mp (show (t.state.get? "name").bind _ = _ from h.name)
  have hretry : retrySlot (Runtime.retried t slot error now) = some slot := by
    unfold retrySlot Runtime.retried Runtime.setState
    rw [Json.get?_insert_self hv]
    rfl
  refine ⟨⟨(text_setState (by decide) _ _).trans h.name, (text_setState (by decide) _ _).trans h.kind,
    ?_⟩, hretry⟩
  unfold slotOf
  rw [hretry]
  rfl

/-! ### The next slot -/

/-- Occurrences of a cron expression lie after the instant they are asked for. -/
def Host.Forward (host : Host) : Prop :=
  ∀ cron zone after next, host.nextCron cron zone after = .ok next → after < next

theorem millis_pos (d : Nat) : 0 < millis d := by
  unfold millis
  omega

theorem lt_nextEvery {p : Int} (hp : 0 < p) (after : Int) : after < nextEvery p after := by
  unfold nextEvery
  have := Int.emod_lt_of_pos after hp
  omega

theorem dvd_nextEvery (p after : Int) : p ∣ nextEvery p after := by
  unfold nextEvery
  exact (Int.dvd_self_sub_emod).add (dvd_refl p)

/-- The next slot lies after the instant it is asked for; an `every` slot is a multiple of the
period. -/
theorem nextSlot_after {host : Host} (hcron : host.Forward) {s : Schedule} {after next : Int}
    (h : nextSlot host s kind after = .ok (some next)) :
    after < next ∧ (kind = "every" → ∀ p, s.every = some p → millis p ∣ next) := by
  unfold nextSlot at h
  split at h
  -- a period goes on by whole multiples
  · rw [Except.ok.injEq, Option.map_eq_some_iff] at h
    obtain ⟨p, hp, rfl⟩ := h
    refine ⟨lt_nextEvery (millis_pos p) after, fun _ q hq => ?_⟩
    rw [hp, Option.some.injEq] at hq
    rw [← hq]
    exact dvd_nextEvery _ _
  · next hkind =>
    refine ⟨?_, fun hk => absurd hk hkind⟩
    split at h
    -- `cron` goes forward by assumption
    · split at h
      · next cron _ =>
        cases hn : host.nextCron cron s.timezone after with
        | error e =>
          rw [hn] at h
          exact absurd h (by simp [Except.map])
        | ok n =>
          rw [hn] at h
          simp only [Except.map, Except.ok.injEq, Option.some.injEq] at h
          rw [← h]
          exact hcron _ _ _ _ hn
      · exact absurd h (by simp)
    · exact absurd h (by simp)

/-- A schedule with one slot of a kind has the next one of that kind as well. -/
theorem nextSlot_isSome {host : Host} {s : Schedule} {after after' x : Int} {o : Option Int}
    (h : nextSlot host s kind after = .ok (some x)) (h' : nextSlot host s kind after' = .ok o) :
    o.isSome := by
  unfold nextSlot at h h'
  -- `every` has a next slot always, `at` never, and `cron` whenever it can be evaluated
  split at h
  · next hkind =>
    rw [if_pos hkind, Except.ok.injEq] at h'
    rw [Except.ok.injEq, Option.map_eq_some_iff] at h
    obtain ⟨p, hp, -⟩ := h
    rw [← h', hp]
    rfl
  · next hkind =>
    rw [if_neg hkind] at h'
    split at h
    · next hcron =>
      rw [if_pos hcron] at h'
      cases hc : s.cron with
      | none =>
        rw [hc] at h
        exact absurd h (by simp)
      | some cron =>
        rw [hc] at h'
        simp only at h'
        cases hn : host.nextCron cron s.timezone after' with
        | error e =>
          rw [hn] at h'
          exact absurd h' (by simp [Except.map])
        | ok n =>
          rw [hn] at h'
          simp only [Except.map, Except.ok.injEq] at h'
          rw [← h']
          rfl
    · exact absurd h (by simp)

/-! ### One attempt -/

/-- The ids of the runs a firing asks for, admitted or refused. -/
def runs (f : Firing) : List String := f.admits.map (·.id) ++ (f.refused.map (·.admission.id)).toList

/-- A firing that consumes a slot at `now`: whatever its disposition, it leaves a trigger that waits for
the slot after both, and it asks for at most the slot's own run. -/
structure Consumes (host : Host) (s : Schedule) (name kind : String) (slot now : Int) (f : Firing) :
    Prop where
  wrote : ∀ r x, f.wrote r = some x →
    ∃ m, nextSlot host s kind (max slot now) = .ok (some m) ∧ Moved name kind m x
  runs : runs f = [] ∨ runs f = [slotId name kind slot]

/-- A firing that keeps an interrupted slot. -/
structure Retries (name kind : String) (slot : Int) (f : Firing) : Prop where
  wrote : ∀ r x, f.wrote r = some x → Waits name kind slot x ∧ retrySlot x = some slot
  runs : runs f = []

theorem wrote_moved {key : String} {t next x : Trigger} {r : Except Error Fired}
    (h : (moved key t next none).wrote r = some x) : x = next := by
  unfold Firing.wrote moved at h
  split at h
  · exact (Option.some.inj h).symm
  · exact (Option.some.inj h).symm
  all_goals exact absurd h (by simp)

variable {host : Host} {a : Attempt} {s : Schedule} {f : Firing}

/-- The firing of a periodic slot by the admitter's answer. -/
theorem Attempt.firing_periodic {p : Slot} {m : Int} (hw : Waits name kind slot a.trigger)
    (hm : nextSlot host s kind (max slot a.now) = .ok (some m)) (hid : p.id = slotId name kind slot)
    (hnext : Moved name kind m p.next) (hbusy : Moved name kind m p.busy) (hrearm : p.rearm = none)
    (h : a.firing host s name kind slot p = .ok (some f)) :
    Consumes host s name kind slot a.now f ∨ Retries name kind slot f := by
  -- every trigger such a firing names waits for the next slot
  have hany : ∀ {admits : List Admission} {rearm : Option Rearm} {refused : Option Refused}
      {r : Except Error Fired} {x : Trigger},
      ({ moved a.key a.trigger (Runtime.setState p.next "previous" (.int slot))
          (some (Runtime.skipped p.busy slot "overlap")) with
        admits, rearm, refused
        overlap := some
          { policy := s.overlap, maxConcurrentRuns := a.maxConcurrentRuns
            ceiling := Runtime.skipped p.busy slot "overlap: ceiling" } } : Firing).wrote r = some x →
        Moved name kind m x := by
    intro admits rearm refused r x hx
    have hprevious := hnext.setState (k := "previous") (by decide) (by decide) (by decide) (.int slot)
    unfold Firing.wrote at hx
    split at hx
    · exact Option.some.inj hx ▸ hprevious
    · exact Option.some.inj hx ▸ hprevious
    · exact Option.some.inj hx ▸ hbusy.skipped slot "overlap"
    · exact Option.some.inj hx ▸ hbusy.skipped slot "overlap: ceiling"
    all_goals exact absurd hx (by simp)
  -- The admitter's answer decides what is asked for.
  unfold Attempt.firing at h
  cases hanswer : a.answer with
  | admitted admission =>
    rw [hanswer] at h
    obtain rfl := Option.some.inj (Except.ok.inj h)
    refine .inl ⟨fun r x hx => ⟨m, hm, hany hx⟩, .inr ?_⟩
    rw [← hid]
    rfl
  | refused r =>
    rw [hanswer, hrearm] at h
    obtain rfl := Option.some.inj (Except.ok.inj h)
    refine .inl ⟨fun r x hx => ⟨m, hm, hany hx⟩, .inr ?_⟩
    rw [← hid]
    rfl
  | tripped =>
    rw [hanswer] at h
    exact absurd h (by simp)
  -- An interrupted attempt keeps its slot.
  | interrupted error =>
    rw [hanswer] at h
    obtain rfl := Option.some.inj (Except.ok.inj h)
    refine .inr ⟨fun r x hx => ?_, rfl⟩
    rw [wrote_moved hx]
    exact hw.retried error a.now
  | failed error =>
    rw [hanswer] at h
    exact absurd h (by simp)

/-- An attempt to fire a periodic trigger consumes its slot or keeps it for a retry. -/
theorem Attempt.fire_periodic (hkind : kind = "every" ∨ kind = "cron")
    (hw : Waits name kind slot a.trigger) (hs : active host a.defs = .ok (some s))
    (h : a.fire host = .ok (some f)) :
    Consumes host s name kind slot a.now f ∨ Retries name kind slot f := by
  unfold Attempt.fire at h
  rw [hw.name, hw.kind, hw.slot] at h
  simp only [hs] at h
  split at h
  -- The following slot, and the first one after the clock.
  · rw [Attempt.plan, if_pos hkind] at h
    unfold Attempt.periodic at h
    cases hfollowing : nextSlot host s kind slot with
    | error e =>
      rw [hfollowing] at h
      exact absurd h (by simp)
    | ok o =>
      rw [hfollowing] at h
      cases o with
      | none => exact absurd h (by simp)
      | some following =>
        simp only at h
        cases hat : nextSlot host s kind (max slot a.now) with
        | error e =>
          rw [hat] at h
          exact absurd h (by simp)
        | ok at_ =>
          -- Where there is a following slot there is one after the clock.
          obtain ⟨m, rfl⟩ := Option.isSome_iff_exists.mp (nextSlot_isSome hfollowing hat)
          rw [hat] at h
          have hmoved := hw.moved m
          simp only at h
          split at h
          · exact absurd h (by simp)
          · exact absurd h (by simp)
          -- The slot is too late, and missed ones are not run.
          · next hpassed =>
            split at hpassed
            · -- a missed slot is passed over
              obtain rfl := Option.some.inj (Except.ok.inj h)
              simp only [Except.ok.injEq, Plan.passed.injEq] at hpassed
              refine .inl ⟨fun r x hx => ⟨m, hat, ?_⟩, .inl rfl⟩
              rw [wrote_moved hx, ← hpassed]
              exact hmoved.skipped slot "missed"
            · exact absurd hpassed (by simp)
          -- The slot is due: its run is admitted, or refused.
          · next hrun =>
            split at hrun
            · exact absurd hrun (by simp)
            · simp only [Except.ok.injEq, Plan.run.injEq] at hrun
              subst hrun
              exact Attempt.firing_periodic hw hat rfl hmoved hmoved rfl h
  · exact absurd h (by simp)

/-- A worker's firing compares the trigger it read. -/
theorem Attempt.fire_compares (h : a.fire host = .ok (some f)) :
    f.key = a.key ∧ f.expected = some a.trigger ∧ f.ingress = none ∧ f.next.isSome := by
  have hfiring : ∀ {s name kind slot p}, a.firing host s name kind slot p = .ok (some f) →
      f.key = a.key ∧ f.expected = some a.trigger ∧ f.ingress = none ∧ f.next.isSome := by
    -- with or without a dispatch, the firing is that of the stored trigger
    intro s name kind slot p hf
    unfold Attempt.firing at hf
    cases hanswer : a.answer <;> rw [hanswer] at hf
    · obtain rfl := Option.some.inj (Except.ok.inj hf)
      exact ⟨rfl, rfl, rfl, rfl⟩
    · obtain rfl := Option.some.inj (Except.ok.inj hf)
      exact ⟨rfl, rfl, rfl, rfl⟩
    · exact absurd hf (by simp)
    · obtain rfl := Option.some.inj (Except.ok.inj hf)
      exact ⟨rfl, rfl, rfl, rfl⟩
    · exact absurd hf (by simp)
  unfold Attempt.fire at h
  -- no firing is made of a trigger without a slot, or one that is not due
  split at h
  · split at h
    · exact absurd h (by simp)
    · exact absurd h (by simp)
    · split at h
      · split at h
        · exact absurd h (by simp)
        · exact absurd h (by simp)
        · obtain rfl := Option.some.inj (Except.ok.inj h)
          exact ⟨rfl, rfl, rfl, rfl⟩
        · exact hfiring h
      · exact absurd h (by simp)
  · exact absurd h (by simp)

/-! ### Runs of attempts -/

/-- A slot that a firing consumed: when, where it moved the trigger, the runs it asked for, whether the
host refused the run, and the trigger it left in the store. -/
structure Consumed where
  slot : Int
  now : Int
  moved : Int
  runs : List String
  refused : Bool
  stored : Option Trigger

/-- The slot that an attempt's firing consumed. A firing that leaves a retry keeps its slot, any other
that the store took consumes it. -/
def Attempt.consumed (a : Attempt) (f : Firing) (r : Except Error Fired) (after : Rows) :
    Option Consumed :=
  ((f.wrote r).filter fun x => (retrySlot x).isNone).map fun x =>
    { slot := (slotOf a.trigger).getD 0, now := a.now, moved := (slotOf x).getD 0, runs := runs f
      refused := f.refused.isSome, stored := after.trigger.get f.key }

/-- What happens to a trigger within one epoch, beside the latest row that was written for it. Whatever
is not a firing leaves the row, takes it away (a trip, a pause) or puts it back (a resume); a firing is
a worker's attempt, whose definition is that of the epoch and whose trigger and clock are its own. -/
inductive Step (env : Env) (host : Host) (s : Schedule) (key : String) :
    Rows × Trigger → Option Consumed → Rows × Trigger → Prop where
  | other {σ σ' : Rows} {t : Trigger} (h : ∀ x, σ'.trigger.get key = some x → x = t) :
    Step env host s key (σ, t) none (σ', t)
  | attempt {σ σ' : Rows} {t : Trigger} (a : Attempt) {f : Firing} {r : Except Error Fired}
    (hkey : a.key = key) (hs : active host a.defs = .ok (some s)) (hf : a.fire host = .ok (some f))
    (h : Engine.fire env f a.now σ = .ok (r, σ')) :
    Step env host s key (σ, t) (a.consumed f r σ') (σ', (f.wrote r).getD t)

/-- A run of steps with the slots it consumes. -/
inductive Course (env : Env) (host : Host) (s : Schedule) (key : String) :
    Rows × Trigger → List Consumed → Rows × Trigger → Prop where
  | nil {w : Rows × Trigger} : Course env host s key w [] w
  | cons {w w' w'' : Rows × Trigger} {o : Option Consumed} {l : List Consumed} :
    Step env host s key w o w' → Course env host s key w' l w'' →
      Course env host s key w (o.toList ++ l) w''

/-- What the consumption of a slot comes to. -/
structure Consumed.Proper (s : Schedule) (name kind : String) (c : Consumed) : Prop where
  after_slot : c.slot < c.moved
  after_now : c.now < c.moved
  aligned : kind = "every" → ∀ p, s.every = some p → millis p ∣ c.moved
  run : c.runs = [] ∨ c.runs = [slotId name kind c.slot]
  /-- The trigger is in the store, unless the refusal of the run tripped the definition. -/
  stored : c.refused = false → ∃ x, c.stored = some x ∧ slotOf x = some c.moved
  only : ∀ x, c.stored = some x → slotOf x = some c.moved

/-- Each consumption takes the slot that the one before it moved the trigger to, from `first` to
`last`. -/
def Advances (s : Schedule) (name kind : String) (first : Int) : List Consumed → Int → Prop
  | [], last => last = first
  | c :: l, last => c.slot = first ∧ c.Proper s name kind ∧ Advances s name kind c.moved l last

theorem Step.advances {env : Env} {key : String} (hcron : host.Forward)
    (hkind : kind = "every" ∨ kind = "cron") {w w' : Rows × Trigger} {o : Option Consumed}
    (hw : Waits name kind slot w.2) (hrow : ∀ x, w.1.trigger.get key = some x → x = w.2)
    (h : Step env host s key w o w') :
    ∃ last, Waits name kind last w'.2 ∧ (∀ x, w'.1.trigger.get key = some x → x = w'.2) ∧
      Advances s name kind slot o.toList last := by
  -- Other calls leave the trigger or take it away.
  cases h with
  | other h => exact ⟨slot, hw, h, rfl⟩
  | @attempt σ σ' t a f r hkey hs hf h =>
    -- The store takes a firing only while the trigger is the one that was read.
    obtain ⟨hfkey, hexpected, hingress, hnext⟩ := Attempt.fire_compares hf
    rw [hkey] at hfkey
    rcases Engine.fire_writes hnext hingress h with ⟨hnone, hfewer⟩ | ⟨x, hx, hread, honly, hstays⟩
    · -- the store did not take it
      rw [Attempt.consumed, hnone]
      exact ⟨slot, hw, fun y hy => hrow y (hfewer _ _ hy), rfl⟩
    · -- the trigger the worker read is the latest one
      obtain rfl : a.trigger = t := hrow _ (hfkey ▸ hread _ hexpected)
      rw [hfkey] at honly hstays
      rw [Attempt.consumed, hx]
      -- The slot is consumed: the next one lies after it and after the clock.
      rcases Attempt.fire_periodic hkind hw hs hf with hconsumes | hretries
      · obtain ⟨m, hm, hmoved⟩ := hconsumes.wrote r x hx
        obtain ⟨hafter, haligned⟩ := nextSlot_after hcron hm
        refine ⟨m, hmoved.toWaits, honly, ?_⟩
        rw [Option.filter_some, if_pos (by rw [hmoved.unretried]; rfl)]
        simp only [Option.map_some, Option.toList_some, Advances, hw.slot, hmoved.slot,
          Option.getD_some, hfkey, true_and, and_true]
        refine ⟨?_, ?_, haligned, hconsumes.runs, ?_, ?_⟩
        · exact lt_of_le_of_lt (le_max_left _ _) hafter
        · exact lt_of_le_of_lt (le_max_right _ _) hafter
        · intro hrefused
          exact ⟨x, hstays (by simpa using hrefused), hmoved.slot⟩
        · intro y hy
          rw [honly y hy]
          exact hmoved.slot
      -- Or it is kept for a retry.
      · obtain ⟨hwaits, hretry⟩ := hretries.wrote r x hx
        refine ⟨slot, hwaits, honly, ?_⟩
        rw [Option.filter_some, if_neg (by rw [hretry]; simp)]
        rfl

theorem Advances.append {l l' : List Consumed} {first mid last : Int}
    (h : Advances s name kind first l mid) (h' : Advances s name kind mid l' last) :
    Advances s name kind first (l ++ l') last := by
  induction l generalizing first with
  | nil =>
    rw [show mid = first from h] at h'
    exact h'
  | cons c l ih => exact ⟨h.1, h.2.1, ih h.2.2⟩

/-- The slots that follow lie after the first one. -/
theorem Advances.le {l : List Consumed} {first last : Int} (h : Advances s name kind first l last) :
    ∀ c ∈ l, first ≤ c.slot := by
  induction l generalizing first with
  | nil => exact fun c hc => absurd hc (by simp)
  | cons c l ih =>
    intro d hd
    rcases List.mem_cons.mp hd with rfl | hd
    · exact h.1.ge
    · have hmoved := ih h.2.2 d hd
      have hlt := h.2.1.after_slot
      have hfirst := h.1
      omega

theorem Advances.increasing {l : List Consumed} {first last : Int}
    (h : Advances s name kind first l last) : (l.map (·.slot)).Pairwise (· < ·) := by
  induction l generalizing first with
  | nil => exact List.Pairwise.nil
  | cons c l ih =>
    rw [List.map_cons, List.pairwise_cons]
    refine ⟨fun x hx => ?_, ih h.2.2⟩
    obtain ⟨d, hd, rfl⟩ := List.mem_map.mp hx
    exact lt_of_lt_of_le h.2.1.after_slot (h.2.2.le d hd)

theorem slotId_injective (name kind : String) : Function.Injective (slotId name kind) := by
  intro a b h
  have hdigits : toString a = toString b := append_left_injective _ h
  exact Int.repr_injective hdigits

theorem Advances.runs_nodup {l : List Consumed} {first last : Int}
    (h : Advances s name kind first l last) : (l.flatMap (·.runs)).Nodup := by
  induction l generalizing first with
  | nil => exact List.nodup_nil
  | cons c l ih =>
    rw [List.flatMap_cons]
    rcases h.2.1.run with hnone | hone
    · rw [hnone]
      exact ih h.2.2
    · rw [hone, List.singleton_append, List.nodup_cons]
      refine ⟨fun hin => ?_, ih h.2.2⟩
      obtain ⟨d, hd, hdrun⟩ := List.mem_flatMap.mp hin
      -- a later run has a later slot's id
      have hproper : ∀ {l : List Consumed} {first last : Int}, Advances s name kind first l last →
          ∀ d ∈ l, d.Proper s name kind := by
        intro l
        induction l with
        | nil => exact fun _ d hd => absurd hd (by simp)
        | cons e l ih =>
          intro first last hl d hd
          rcases List.mem_cons.mp hd with rfl | hd
          · exact hl.2.1
          · exact ih hl.2.2 d hd
      have hlt := lt_of_lt_of_le h.2.1.after_slot (h.2.2.le d hd)
      rcases (hproper h.2.2 d hd).run with hnone | hone
      · rw [hnone] at hdrun
        exact absurd hdrun (by simp)
      · rw [hone, List.mem_singleton] at hdrun
        exact hlt.ne (slotId_injective name kind hdrun)

theorem Course.advances {env : Env} {key : String} {w w' : Rows × Trigger} {l : List Consumed}
    (hcron : host.Forward) (hkind : kind = "every" ∨ kind = "cron") (hw : Waits name kind slot w.2)
    (hrow : ∀ x, w.1.trigger.get key = some x → x = w.2) (h : Course env host s key w l w') :
    ∃ last, Waits name kind last w'.2 ∧ (∀ x, w'.1.trigger.get key = some x → x = w'.2) ∧
      Advances s name kind slot l last := by
  induction h generalizing slot with
  | nil => exact ⟨slot, hw, hrow, rfl⟩
  | cons hstep _ ih =>
    obtain ⟨mid, hmid, hrows, hadv⟩ := hstep.advances hcron hkind hw hrow
    obtain ⟨last, hlast, hrows', hadv'⟩ := ih hmid hrows
    exact ⟨last, hlast, hrows', hadv.append hadv'⟩

/-- A run every ten milliseconds, beside those that still go. -/
def tenth : Schedule :=
  { every := some 10, cron := none, timezone := none, after := none, at_ := none, on := none
    read := .data, overlap := .allow, catchup := .latest }

/-- A host whose definitions all have that schedule. -/
def Host.plain : Host :=
  { schedule := fun _ => .ok (some tenth), nextCron := fun _ _ after => .ok (after + 1)
    iso8601 := fun ms => toString ms }

theorem Host.plain_forward : Host.plain.Forward := by
  intro cron zone after next h
  simp only [Host.plain, Except.ok.injEq] at h
  omega

/-- The trigger of that schedule, armed for the slot `10` in the first epoch. -/
def atTen : Trigger :=
  { atMs := some 10, types := []
    state := .obj [("epoch", .int 1), ("kind", .str "every"), ("name", .str "w")] }

/-- The definition `w` activated with its trigger. -/
def armedAtTen : Rows :=
  after .plain [.saveDefinition "w" "" .inherit,
    .activateWith "w" 1 0 (Table.empty.put "w#every" atTen) { atMs := 0, actor := none, note := none }]

/-- A worker's attempt at what the store then holds. -/
def attemptAt (σ : Rows) (now : Int) (answer : Answer) : Attempt :=
  { key := "w#every", trigger := (σ.trigger.get "w#every").getD atTen, now
    defs := (σ.definitions.get "w").getD .default, ran := false, answer, maxConcurrentRuns := 5 }

/-- The firing that an attempt asks for. -/
def asked (a : Attempt) : Firing := ((a.fire .plain).toOption.join).getD (moved "" atTen atTen none)

/-- The store after it. -/
def fired (σ : Rows) (a : Attempt) : Rows :=
  match Engine.fire .plain (asked a) a.now σ with
  | .ok (_, σ') => σ'
  | .error _ => σ

/-- An attempt whose firing the store commits is a step. -/
theorem fired_step (σ : Rows) (a : Attempt) (t : Trigger) (hkey : a.key = "w#every")
    (hactive : (a.defs.active.bind a.defs.versions.get).isSome)
    (hasked : a.fire .plain = .ok (some (asked a)))
    (hfired : (Engine.fire .plain (asked a) a.now σ).map (·.1) = .ok (.ok .committed)) :
    Step .plain .plain tenth "w#every" (σ, t) (a.consumed (asked a) (.ok .committed) (fired σ a))
      (fired σ a, ((asked a).wrote (.ok .committed)).getD t) := by
  have hs : active .plain a.defs = .ok (some tenth) := by
    obtain ⟨d, hd⟩ := Option.isSome_iff_exists.mp hactive
    simp [active, hd, Host.plain]
  refine .attempt a hkey hs hasked ?_
  unfold fired
  cases hstore : Engine.fire .plain (asked a) a.now σ with
  | error e =>
    rw [hstore] at hfired
    exact absurd hfired (by simp [Except.map])
  | ok p =>
    obtain ⟨r, σ'⟩ := p
    rw [hstore] at hfired
    obtain rfl : r = .ok .committed := by simpa [Except.map] using hfired
    rfl

/-- The first attempt comes two milliseconds late, and its admission is interrupted. -/
def interruptedAttempt : Attempt := attemptAt armedAtTen 12 (.interrupted "down")

/-- The retry of the slot, a second later. -/
def retriedAttempt : Attempt := attemptAt (fired armedAtTen interruptedAttempt) 1013 (.admitted (.plain ""))

/-- The attempt at the slot that the retry moved the trigger to, five milliseconds late. -/
def lastAttempt : Attempt :=
  attemptAt (fired (fired armedAtTen interruptedAttempt) retriedAttempt) 1025 (.admitted (.plain ""))

end Runtime

end Ouro
