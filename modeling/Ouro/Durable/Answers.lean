import Ouro.Durable.Audit

/-!
# Answers to waits

An answer is delivered to the run of the wait it answers, and offered to wildcard listens when the
wait is one. The delivery accepts an identity the run holds already, whatever became of its copy, so
an accepted answer is available to its wait exactly when the copy it leads to is (`Answerable`).
-/

namespace Ouro

open Lib Engine Tx

variable {env : Env} {now : Int}

/-- The run holds a pending, unexpired copy of the identity that a take with the types finds, and is
running or due. -/
def Available (c : Core) (run : String) (types : List String) (id : String) (now : Int) : Prop :=
  (∃ n e, identityOf e = some id ∧ expired e now = false ∧ Takeable c run types n e) ∧
    ∃ s, c.run.get run = some s ∧ (s.run.state = .running ∨ s.run.wakeAtMs ≤ now)

/-- The copy of an answer is one its wait can take: a new one when it is not stale at once and its type
is routed to the wait, one the run holds when it is neither taken nor expired. The run is due for it
already, or the acceptance wakes it. -/
def Answerable (env : Env) (c : Core) (s : StoredRun) (w : PendingWait) (t id : String) (now : Int) :
    Prop :=
  match (c.eventId s.id).get id with
  | none =>
    now < satAdd now env.policy.mailboxMs ∧ (t ∈ w.types ∨ "*" ∈ w.types) ∧
      (s.run.state = .running ∨ s.run.wakeAtMs ≤ now ∨ "*" ∈ w.types ∨ s.awaits.contains t = true ∨
        ∃ types ∈ s.subscriptions.values, t ∈ types)
  | some n => ∃ e, (c.event s.id).get n = some e ∧ e.consumedKey = none ∧ expired e now = false ∧
      (e.type_ ∈ w.types ∨ "*" ∈ w.types) ∧
      (s.run.state = .running ∨ s.run.wakeAtMs ≤ now ∨ "*" ∈ w.types ∧ e.delivered = true)

/-! ### The copy an answer leads to -/

namespace Engine

/-- An answer keeps the identity of its event. -/
theorem responseEvent_identity {event ev : Json} {σ σ' : Rows}
    (h : responseEvent env event now σ = .ok (ev, σ')) : identity ev = identity event := by
  cases event with
  | obj members =>
    simp only [responseEvent, bind_ok, pure_ok] at h
    obtain ⟨time, σ₁, -, rfl, rfl⟩ := h
    unfold identity
    simp only [Json.text_entry (show "time" ≠ "source" by decide),
      Json.text_entry (show "time" ≠ "id" by decide),
      Json.text_entry (show "specversion" ≠ "source" by decide),
      Json.text_entry (show "specversion" ≠ "id" by decide)]
  | _ =>
    obtain ⟨rfl, -⟩ := pure_ok.mp h
    rfl

/-- A copy and its run after an answer is offered to a wildcard wait, or left as it was delivered. -/
structure Offered (now : Int) (wild : Bool) (e e' : StoredEvent) (s s' : StoredRun) : Prop where
  pending : wild = true → e.consumedKey = none
  copy : e' = if wild && e.delivered then asPublished e else e
  run : s' = if wild && e.delivered then offering s now else s

theorem offerWildcard_ok {id : String} {n : Nat} {σ σ' : Rows} {u : Unit} {s : StoredRun}
    {e : StoredEvent} (hid : s.id = id) (hs : σ.run.get id = some s)
    (he : (σ.event id).get n = some e) (h : offerWildcard id n now σ = .ok (u, σ')) :
    ∃ e' s', Offered now true e e' s s' ∧ σ'.run.get id = some s' ∧
      (σ'.event id).get n = some e' := by
  simp only [offerWildcard, bind_ok, copy_ok, ensure_ok, Option.isNone_iff_eq_none] at h
  obtain ⟨e₀, σ₁, ⟨he₀, rfl⟩, u₁, σ₂, ⟨hpend, rfl⟩, h⟩ := h
  obtain rfl := Option.some.inj (he.symm.trans he₀)
  refine ⟨_, _, ⟨fun _ => hpend, rfl, rfl⟩, ?_⟩
  rw [Bool.true_and]
  split at h
  · next hd =>
    simp only [bind_ok, run_ok, ensure_ok, decide_eq_true_eq, write_ok] at h
    obtain ⟨s₀, σ₃, ⟨hs₀, rfl⟩, u₂, σ₄, ⟨-, rfl⟩, u₃, σ₅, hwrite, hstore⟩ := h
    obtain rfl := Option.some.inj (hs.symm.trans hs₀)
    rw [if_pos hd, if_pos hd, storeRun_core hstore, hwrite]
    refine ⟨?_, ?_⟩
    · rw [Core.get_set]
      exact if_pos hid
    · change (Table.putAt σ₄.event id n _ id).get n = _
      rw [Table.get_putAt, if_pos ⟨rfl, rfl⟩]
  · next hd =>
    obtain ⟨-, rfl⟩ := pure_ok.mp h
    rw [if_neg hd, if_neg hd]
    exact ⟨hs, he⟩

/-- The copy an answer leads to and its run once the answer is delivered: a new copy, or the one the run
holds. -/
inductive Reached (env : Env) (now : Int) (c : Core) (s : StoredRun) (ev : Json) (t id : String) :
    Nat → StoredEvent → StoredRun → Prop
  | fresh (hnone : (c.eventId s.id).get id = none) (e : StoredEvent)
      (he : e = cloudEvent ev t now true (some (satAdd now env.policy.mailboxMs))) :
      Reached env now c s ev t id s.accepted e (counted (if wanted s e now then wakeBy s now else s) e)
  | held (n : Nat) (e : StoredEvent) (hn : (c.eventId s.id).get id = some n)
      (he : (c.event s.id).get n = some e) : Reached env now c s ev t id n e s

theorem Reached.identity {c : Core} {s s₁ : StoredRun} {ev : Json} {t id : String} {n : Nat}
    {e : StoredEvent} (h : Reached env now c s ev t id n e s₁) (hmail : Mail c s)
    (hid : identity ev = some id) : identityOf e = some id := by
  cases h with
  | fresh hnone e he =>
    rw [he]
    exact hid
  | held n e hn he =>
    obtain ⟨e', he', hident⟩ := (hmail.eventId id n).mp hn
    rwa [Option.some.inj (he.symm.trans he')]

theorem Offered.identity {wild : Bool} {e e' : StoredEvent} {s s' : StoredRun}
    (h : Offered now wild e e' s s') : identityOf e' = identityOf e := by
  rw [h.copy]
  split <;> rfl

/-- A targeted delivery that leaves the identity with its target. -/
theorem deliver_reached {σ σ' : Rows} (hσ : Good σ) {s : StoredRun} {ev : Json} {t id : String}
    {r : Option String} {n : Nat} (hs : σ.run.get s.id = some s) (ht : typeOf ev = some t)
    (hid : identity ev = some id) (h : deliver env ev (some s.id) now σ = .ok (r, σ'))
    (hn : (σ'.eventId s.id).get id = some n) :
    ∃ e s', Reached env now σ.toCore s ev t id n e s' ∧ s'.id = s.id ∧
      σ'.run.get s.id = some s' ∧ (σ'.event s.id).get n = some e := by
  obtain ⟨-, hcore | ⟨s₀, t', ht', -, htarget, hg, hcore⟩⟩ := deliver_cases hσ h
  · -- nothing changed: the run holds the identity
    rw [show σ'.eventId = σ.eventId from congrArg Core.eventId hcore] at hn
    obtain ⟨e, he, -⟩ := ((hσ.inv.mails.mail s.id s hs).eventId id n).mp hn
    refine ⟨e, s, .held n e hn he, rfl, ?_, ?_⟩
    · rw [show σ'.run = σ.run from congrArg Core.run hcore]
      exact hs
    · rw [show σ'.event = σ.event from congrArg Core.event hcore]
      exact he
  -- the event was pushed: the run delivered to is the target
  · obtain rfl : t = t' := Option.some.inj (ht.symm.trans ht')
    have hsame : s₀ = s := by
      have hget := hg.stored
      rw [← htarget s.id rfl, hs] at hget
      exact (Option.some.inj hget).symm
    subst hsame
    generalize he : cloudEvent ev t now true (some (satAdd now env.policy.mailboxMs)) = e at hg hcore
    have hident : identityOf e = some id := by
      rw [← he]
      exact hid
    have hnone := hg.fresh id hident
    -- so the identity row that was found is the one written by this push
    have hrow : (σ'.eventId s₀.id).get id = some s₀.accepted := by
      rw [show σ'.eventId = _ from congrArg Core.eventId hcore]
      change (((identityOf e).elim σ.eventId fun i =>
        Table.putAt σ.eventId s₀.id i s₀.accepted) s₀.id).get id = _
      rw [hident]
      change (Table.putAt σ.eventId s₀.id id s₀.accepted s₀.id).get id = _
      rw [Table.get_putAt, if_pos ⟨rfl, rfl⟩]
    obtain rfl : s₀.accepted = n := Option.some.inj (hrow.symm.trans hn)
    refine ⟨e, _, .fresh hnone e he.symm, ?_, ?_, ?_⟩
    · rw [counted_id]
      split <;> rfl
    · rw [show σ'.run = _ from congrArg Core.run hcore]
      unfold accepting
      rw [Core.get_set, if_pos]
      rw [counted_id]
      split <;> rfl
    · rw [show σ'.event = _ from congrArg Core.event hcore]
      exact (pushed_event _).trans (if_pos rfl)

/-- An answer leads to a copy of its event in the run it is for. -/
theorem answerWait_ok {σ σ' : Rows} (hσ : Good σ) {id key i : String} {event : Json}
    {r : Option String} (hi : identity event = some i)
    (h : answerWait env id key i event now σ = .ok (r, σ')) :
    ∃ s w t ev n e s₁ e' s', σ.run.get id = some s ∧ s.waits.get key = some w ∧
      typeOf event = some t ∧ identity ev = some i ∧ Reached env now σ.toCore s ev t i n e s₁ ∧
      Offered now (w.types.contains "*") e e' s₁ s' ∧ σ'.run.get id = some s' ∧
      (σ'.event id).get n = some e' := by
  -- the answer is read, checked against the wait, delivered and looked up by its identity
  simp only [answerWait, bind_ok, findRun_ok, orFail_ok, ensure_ok, ofExcept_ok, read_ok] at h
  obtain ⟨found, σ₁, ⟨rfl, rfl⟩, s, σ₂, ⟨hs, rfl⟩, w, σ₃, ⟨hw, rfl⟩, u, σ₄, ⟨-, rfl⟩, ev, σ₅,
    hev, m, σ₆, ⟨-, rfl⟩, u', σ₇, ⟨-, rfl⟩, rcpt, σ₈, hdel, acc, σ₉, ⟨rfl, rfl⟩, n, σ₁₀, ⟨hn, rfl⟩,
    h⟩ := h
  have hquiet := responseEvent_quiet _ hev
  have hident : identity ev = some i := (responseEvent_identity hev).trans hi
  -- a delivery without a type fails
  obtain ⟨t, ht⟩ : ∃ t, typeOf ev = some t := by
    simp only [deliver, bind_ok, orFail_ok] at hdel
    obtain ⟨t, -, ⟨ht, -⟩, -⟩ := hdel
    exact ⟨t, ht⟩
  have hs₇ : σ₇.run.get id = some s := by
    rw [show σ₇.run = _ from congrArg Core.run hquiet.1]
    exact hs
  obtain rfl := (hquiet.good hσ).indexed.keyed id s hs₇
  -- what the delivery left under the identity
  obtain ⟨e, s₁, hreached, hid, hrun, hcopy⟩ := deliver_reached (hquiet.good hσ) hs₇ ht hident hdel hn
  rw [hquiet.1] at hreached
  rw [responseEvent_type hev] at ht
  -- a wildcard wait has the copy offered; another wait leaves it as delivered
  split at h
  · next hwild =>
    simp only [bind_ok, pure_ok] at h
    obtain ⟨u₂, σ₁₁, hoffer, -, rfl⟩ := h
    obtain ⟨e', s', hoffered, hrun', hcopy'⟩ := offerWildcard_ok hid hrun hcopy hoffer
    rw [← hwild] at hoffered
    exact ⟨s, w, t, ev, n, e, s₁, e', s', hs, hw, ht, hident, hreached, hoffered, hrun', hcopy'⟩
  · next hwild =>
    obtain ⟨-, rfl⟩ := pure_ok.mp h
    rw [Bool.not_eq_true] at hwild
    refine ⟨s, w, t, ev, n, e, s₁, e, s₁, hs, hw, ht, hident, hreached, ?_, hrun, hcopy⟩
    rw [hwild]
    exact ⟨by simp, rfl, rfl⟩

end Engine

/-! ### Available answers -/

/-- The copy of an identity decides whether it is available. -/
theorem available_iff {c : Core} {i : String} {s : StoredRun} (hmail : Mail c s) (hs : c.run.get i = some s)
    (hid : s.id = i) {types : List String} {id : String} {n : Nat} {e : StoredEvent}
    (he : (c.event i).get n = some e) (hident : identityOf e = some id) :
    Available c i types id now ↔ e.consumedKey = none ∧ expired e now = false ∧
      (e.type_ ∈ types ∨ "*" ∈ types ∧ e.delivered = false) ∧
      (s.run.state = .running ∨ s.run.wakeAtMs ≤ now) := by
  have hpublished : published e = !e.delivered := by
    cases henv : e.envelope with
    | none => simp [identityOf, henv] at hident
    | some event => simp [published, henv]
  constructor
  · rintro ⟨⟨m, e', hident', hfresh, ⟨hpend, htypes⟩⟩, s', hs', hdue⟩
    obtain rfl := Option.some.inj (hs.symm.trans hs')
    -- a run holds one copy of an identity
    subst hid
    obtain rfl : m = n := by
      have hm := (hmail.eventId id m).mpr ⟨e', hpend.1, hident'⟩
      have hn := (hmail.eventId id n).mpr ⟨e, he, hident⟩
      exact Option.some.inj (hm.symm.trans hn)
    obtain rfl := Option.some.inj (he.symm.trans hpend.1)
    refine ⟨hpend.2, hfresh, ?_, hdue⟩
    simpa [hpublished] using htypes
  · rintro ⟨hpend, hfresh, htypes, hdue⟩
    refine ⟨⟨n, e, hident, hfresh, ⟨he, hpend⟩, ?_⟩, s, hs, hdue⟩
    simpa [hpublished] using htypes

/-- A new copy wakes its run when a registration or a subscription names its type. -/
theorem wanted_new {s : StoredRun} {ev : Json} {t : String} {until_ : Int} :
    wanted s (cloudEvent ev t now true (some until_)) now = true ↔
      now < until_ ∧ (s.awaits.contains t = true ∨ ∃ types ∈ s.subscriptions.values, t ∈ types) := by
  simp [wanted, cloudEvent, expired, wakes, subscribed, published]

/-- Whether the copy an answer leads to is available was decided before the answer. -/
theorem Engine.Reached.answerable_iff {c : Core} {s s₁ s' : StoredRun} {w : PendingWait} {ev : Json}
    {t id : String} {n : Nat} {e e' : StoredEvent} (h : Reached env now c s ev t id n e s₁)
    (ho : Offered now (w.types.contains "*") e e' s₁ s') :
    (e'.consumedKey = none ∧ expired e' now = false ∧
      (e'.type_ ∈ w.types ∨ "*" ∈ w.types ∧ e'.delivered = false) ∧
      (s'.run.state = .running ∨ s'.run.wakeAtMs ≤ now)) ↔
    Answerable env c s w t id now := by
  obtain ⟨hpend, rfl, rfl⟩ := ho
  -- a wildcard wait takes the copy whatever its type, and its run is woken for a delivered one
  by_cases hwild : "*" ∈ w.types
  · have hcontains : w.types.contains "*" = true := by simpa using hwild
    have hpend := hpend hcontains
    -- a new copy is marked as delivered, and offering it makes the run due at once
    rw [hcontains, Bool.true_and]
    cases h with
    | fresh hnone e he =>
      have hd : e.delivered = true := by rw [he]; rfl
      have hexp : expired e now = false ↔ now < satAdd now env.policy.mailboxMs := by
        simp [he, expired, cloudEvent]
      rw [if_pos hd, if_pos hd]
      simp only [Answerable, hnone]
      have hdue : (offering (counted (if wanted s e now then wakeBy s now else s) e) now).run.wakeAtMs ≤
          now := min_le_right _ _
      simp only [hwild, or_true, true_or, and_true, true_and, hdue]
      exact ⟨fun h => hexp.mp h.2.1, fun h => ⟨hpend, hexp.mpr h, by simp [asPublished]⟩⟩
    -- a copy held before is offered when it was marked and left alone when it was not
    | held n e hn he =>
      simp only [Answerable, hn, he, Option.some.injEq, exists_eq_left', hwild, or_true, true_and]
      cases hd : e.delivered with
      | true =>
        have hdue : (offering s now).run.wakeAtMs ≤ now := min_le_right _ _
        simp only [if_true, or_true, and_true, hdue]
        exact ⟨fun h => ⟨h.1, h.2.1⟩, fun h => ⟨h.1, h.2, .inr rfl⟩⟩
      | false => simp [hd]
  -- without the wildcard nothing is offered: the type decides, and whether the run was woken
  · have hcontains : w.types.contains "*" = false := by simpa using hwild
    rw [hcontains, Bool.false_and]
    simp only [Bool.false_eq_true, if_false, hwild, false_and, or_false]
    cases h with
    | fresh hnone e he =>
      have hexp : expired e now = false ↔ now < satAdd now env.policy.mailboxMs := by
        simp [he, expired, cloudEvent]
      have hkey : e.consumedKey = none := by rw [he]; rfl
      have htype : e.type_ = t := by rw [he]; rfl
      have hwanted := @wanted_new now s ev t (satAdd now env.policy.mailboxMs)
      rw [← he] at hwanted
      simp only [Answerable, hnone, hexp, hkey, htype, hwild, false_or, or_false, true_and]
      -- a new copy wakes its run exactly when it is wanted
      refine and_congr_right fun hlt => and_congr_right fun _ => ?_
      rw [counted_run]
      by_cases hw : wanted s e now = true
      · rw [if_pos hw]
        have hdue : (wakeBy s now).run.wakeAtMs ≤ now := min_le_right _ _
        exact iff_of_true (.inr hdue) (.inr (.inr (hwanted.mp hw).2))
      · rw [if_neg hw]
        have hnot : ¬(s.awaits.contains t = true ∨ ∃ types ∈ s.subscriptions.values, t ∈ types) :=
          fun h => hw (hwanted.mpr ⟨hlt, h⟩)
        simp only [hnot, or_false]
    -- a copy held before was answered for before
    | held n e hn he =>
      simp only [Answerable, hn, he, Option.some.injEq, exists_eq_left', hwild, false_and, or_false]

/-- Every later answer with the payload has the reply again and changes no row of a run. Only its own
request can make it fail. -/
def Repeats (env : Env) (σ : Rows) (run wait : String) (event : Json) (reply : Reply) : Prop :=
  ∀ later request again now, payload again = payload event →
    (step env (runs (step env) σ later) (.applyControl request (.respond run wait again) now)).toCore =
      (runs (step env) σ later).toCore ∧
    (∀ r, (call env (runs (step env) σ later)
        (.applyControl request (.respond run wait again) now)).1 = .ok r →
      ∃ repeated, r = .applied { reply, repeated }) ∧
    ((!blank request.id && !blank request.actor && !blank request.reason) = true →
      (∀ e, (runs (step env) σ later).controlCommand.get request.id = some e →
        e.request = request ∧ e.command = normalizeCommand (.respond run wait event)) →
      ∃ r, (call env (runs (step env) σ later)
        (.applyControl request (.respond run wait again) now)).1 = .ok r)

theorem repeats_of_entry {σ : Rows} (hσ : Audited σ) {run wait id : String} {event : Json}
    (entry : Entry) (hid : identity event = some id)
    (hentry : (σ.controlResponse run).get id = some entry)
    (hcommand : entry.command = normalizeCommand (.respond run wait event)) :
    Repeats env σ run wait event entry.reply := by
  intro later request again now hpayload
  have hsame : normalizeCommand (.respond run wait again) =
      normalizeCommand (.respond run wait event) := by
    simp only [normalizeCommand, hpayload]
  have hagain : identity again = some id := by
    rw [← identity_normal, hpayload, identity_normal]
    exact hid
  have hσ' : Audited (runs (step env) σ later) :=
    runs_keep hσ (fun σ op h => (step_audited σ op h).1) later
  rw [← hcommand]
  exact respond_again hσ' hagain (response_runs hσ hentry later) (hcommand.trans hsame.symm) request now

/-- An accepted answer is available to its wait exactly when its copy is one the wait can take. -/
theorem accepted_answer_exact (env : Env) (history : List Op) (request : Request) (run wait : String)
    (event : Json) (now : Int)
    (hfirst : ∀ id, identity event = some id →
      ((after env history).controlResponse run).get id = none)
    (haccepted : (call env (after env history) (.applyControl request (.respond run wait event) now)).1 =
      .ok (.applied { reply := .responded (some run), repeated := false })) :
    ∃ s w t id, (after env history).run.get run = some s ∧ s.waits.get wait = some w ∧
      typeOf event = some t ∧ identity event = some id ∧
      (Available (step env (after env history)
          (.applyControl request (.respond run wait event) now)).toCore run w.types id now ↔
        Answerable env (after env history).toCore s w t id now) ∧
      Repeats env (step env (after env history) (.applyControl request (.respond run wait event) now))
        run wait event (.responded (some run)) := by
  have hσ := good_after env history
  have hσ' := step_good env hσ (.applyControl request (.respond run wait event) now)
  have haudited : Audited (step env (after env history)
      (.applyControl request (.respond run wait event) now)) :=
    (step_audited _ _ (audited_after env history)).1
  -- a call that failed answers nothing
  rcases step_cases env (after env history) (.applyControl request (.respond run wait event) now) with
    ⟨-, e, heq⟩ | ⟨r, htx, heq⟩
  · simp [heq] at haccepted
  generalize step env (after env history) (.applyControl request (.respond run wait event) now) = σ'
    at hσ' haudited htx heq ⊢
  rw [heq] at haccepted
  -- the reply was not a repeated one, so the command was performed now
  obtain ⟨a, happly, rfl⟩ := map_ok.mp htx
  obtain rfl : a = { reply := .responded (some run), repeated := false } := by simpa using haccepted
  obtain ⟨_, _, _, _, ha, _⟩ | ⟨-, reply, σ₁, hperform, ha, haudit⟩ := applyControl_ok happly
  · simp at ha
  obtain rfl : reply = .responded (some run) := by simpa using ha.symm
  obtain rfl := write_ok.mp haudit
  -- and not answered from the record of an earlier delivery of the same event
  obtain ⟨id, hid, ⟨entry, hentry, -⟩ | ⟨-, recipient, σ₂, hanswer, -, rfl⟩⟩ := respond_ok hperform
  · simp [hfirst id hid] at hentry
  -- what the answer left with the run
  obtain ⟨s, w, t, ev, n, e, s₁, e', s', hs, hw, ht, hident, hreached, hoffered, hrun, hcopy⟩ :=
    answerWait_ok hσ hid hanswer
  -- available in the rows after, answerable in the rows before
  refine ⟨s, w, t, id, hs, hw, ht, hid, ?_, ?_⟩
  · rw [← hreached.answerable_iff hoffered]
    have hkeyed := hσ'.indexed.keyed run s' hrun
    refine available_iff (hσ'.inv.mails.mail run s' hrun) hrun hkeyed hcopy ?_
    rw [hoffered.identity, hreached.identity (hσ.inv.mails.mail run s hs) hident]
  -- the audit entry and the response row that a repetition reads
  · refine repeats_of_entry haudited
      ⟨request, normalizeCommand (.respond run wait event), now, .responded (some run)⟩ hid ?_ rfl
    change (Table.putAt σ₂.controlResponse run id _ run).get id = _
    rw [Table.get_putAt, if_pos ⟨rfl, rfl⟩]

/-- A wait for one type. -/
def PendingWait.typed : PendingWait :=
  { PendingWait.wildcard with
    types := ["t"]
    strategy := .obj [("One", .obj [("correlate", .arr []), ("with", .obj [("type", .str "t")])])] }

/-- An event with its version, as an answer is delivered. -/
def Json.versioned : Json := (Json.plainEvent "1" "t").entry "specversion" (.str "1.0")

/-- The answer to the wait. -/
def answer : Op :=
  .applyControl { id := "c", actor := "a", reason := "b" } (.respond "r" "k" .versioned) 5

/-- A run waits for a type. -/
def waitingForType : List Op :=
  [.start (.plain "r") 0 "o", .describeWait (.plain "r" 1) "k" .typed 1]

/-- A run waits for a type and is answered with a new event of it: the answer is available to the wait. -/
theorem answer_available :
    Available (step .plain (after .plain waitingForType) answer).toCore "r" ["t"] "s\x001" 5 := by
  obtain ⟨s, w, t, id, hs, hw, ht, hid, hiff, -⟩ := accepted_answer_exact .plain waitingForType
    { id := "c", actor := "a", reason := "b" } "r" "k" .versioned 5
    (fun id _ => by
      have hempty : (after .plain waitingForType).controlResponse "r" = .empty := by decide +kernel
      simp [hempty])
    (by decide +kernel)
  have hwait : ((after .plain waitingForType).run.get "r").bind (·.waits.get "k") = some .typed := by
    decide +kernel
  rw [hs, Option.bind_some, hw] at hwait
  obtain rfl := Option.some.inj hwait
  obtain rfl : "t" = t :=
    Option.some.inj ((show typeOf .versioned = some "t" by decide +kernel).symm.trans ht)
  obtain rfl : "s\x001" = id :=
    Option.some.inj ((show identity .versioned = some "s\x001" by decide +kernel).symm.trans hid)
  refine hiff.mpr ?_
  -- the run does not hold the identity, and it is running
  have hrunning : ((after .plain waitingForType).run.get "r").any (·.run.state = .running) = true := by
    decide +kernel
  have hnone : ((after .plain waitingForType).eventId "r").get "s\x001" = none := by decide +kernel
  have hkeyed : s.id = "r" := (good_after .plain waitingForType).indexed.keyed "r" s hs
  rw [hs, Option.any_some, decide_eq_true_eq] at hrunning
  unfold Answerable
  rw [hkeyed, hnone]
  exact ⟨by decide, .inl (by decide), .inl hrunning⟩

/-! ### A copy that is taken -/

/-- Another listen takes the event before it is given as the answer. -/
def takenThenAnswered : List Op :=
  waitingForType ++ [.deliver .versioned (some "r") 2, .takeEvent (.plain "r" 1) "b" ["t"] 3]

/-- The event of the answer was taken by another listen: the answer is accepted, and its wait cannot take
it. -/
theorem taken_answer_accepted :
    (call .plain (after .plain takenThenAnswered) answer).1 =
        .ok (.applied { reply := .responded (some "r"), repeated := false }) ∧
      ¬Available (step .plain (after .plain takenThenAnswered) answer).toCore "r" ["t"] "s\x001" 5 := by
  have hrows : ((step .plain (after .plain takenThenAnswered) answer).event "r").rows.all
      (fun row => row.2.consumedKey.isSome) = true := by decide +kernel
  refine ⟨by decide +kernel, ?_⟩
  rintro ⟨⟨n, e, -, -, ⟨he, hpend⟩, -⟩, -⟩
  have htaken := List.all_eq_true.mp hrows (n, e) ((Table.mem_rows _).mpr he)
  simp [hpend] at htaken

end Ouro
