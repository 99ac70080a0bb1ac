import Ouro.Durable.Copies

/-!
# No wake-up is lost

`no_lost_wakeup`: over every history of calls and at every instant that none of them is after, a
waiting run that holds a copy it wants is due. `pending_wanted_exact`: the counters of any stored run
report a wanted copy exactly when it has one.

A run is parked with what its counters say (`pendingWanted`), and woken by what arrives afterwards
(`wanted`). Three facts make the two agree:

* the counters answer as the copies do (`Mail.pendingWanted`): they count the unconsumed copies, and
  where copies have expired, two live copies of a type include a CloudEvent, because a type has at
  most one unconsumed notice;
* a notice that would wake the run has a registration (`Heard`): it arrived with one, a listener that
  names its type keeps the registration, and a listener is left only when nothing of its types is
  there to take;
* a copy that has not expired at some instant has not expired at any earlier one.

Registrations and listeners are followed apart from the rest of a row (`EarStep`): what a change of them keeps
is shown once (`EarStep.heard`) and gives `Heard` of every reachable store. The result itself is the invariant
`Woken`, kept by each move: a move that stores a waiting run's row stores it with its wake-up (`park_woken`),
a move that stores a copy wakes the run that wants it, and every other move leaves both alone.
-/

namespace Ouro

open Lib Engine Tx

variable {env : Env} {now : Int} {may : String → Act → Prop}

/-! ### The counters answer as the copies do -/

theorem expiresAfter_liveKey {e : StoredEvent} (h : expired e now = false) (n : Nat) :
    expiresAfter now (liveKey e n) = true := by
  cases hat : e.expiresAtMs with
  | none => simp [expiresAfter, liveKey, hat]; rfl
  | some at_ =>
    have hlt : now < at_ := by simpa [expired, hat] using h
    simp only [expiresAfter, liveKey, hat, Option.elim_some]
    exact decide_eq_true hlt

theorem expired_of_expiresAfter {e : StoredEvent} {n : Nat}
    (h : expiresAfter now (liveKey e n) = true) : expired e now = false := by
  cases hat : e.expiresAtMs with
  | none => simp [expired, hat]
  | some at_ =>
    simp only [expiresAfter, liveKey, hat, Option.elim_some] at h
    have hlt : now < at_ := of_decide_eq_true h
    simpa [expired, hat] using hlt

/-- Fewer copies satisfy a stronger condition, if some copy tells them apart. -/
theorem count_lt_count {c : Core} {run : String} {bound n : Nat} {e : StoredEvent}
    {p q : StoredEvent → Bool} (hn : n < bound) (hp : Pend c run n e) (hle : ∀ e, q e = true → p e = true)
    (hpe : p e = true) (hqe : q e = false) : count c run bound q < count c run bound p := by
  refine Finset.card_lt_card (Finset.ssubset_iff_of_subset ?_ |>.mpr ⟨n, ?_, ?_⟩)
  · refine Finset.monotone_filter_right _ fun m _ hm => ?_
    simp only [Option.any_eq_true, Bool.and_eq_true] at hm ⊢
    obtain ⟨e', he', hc, hq⟩ := hm
    exact ⟨e', he', hc, hle e' hq⟩
  · simp [hn, hp.1, hp.2, hpe]
  · simp [hp.1, hqe]

namespace Mail

variable {c : Core} {s : StoredRun}

/-- The counter of the type of an unconsumed copy. -/
theorem counter (h : Mail c s) {n : Nat} {e : StoredEvent} (hp : Pend c s.id n e) :
    ∃ p, s.pending.get e.type_ = some p ∧ (e.envelope.isSome = true → 0 < p.cloud) ∧
      (e.envelope = none → p.cloud < p.copies) := by
  have hlt := h.event_lt n e hp.1
  have hcopies : count c s.id s.accepted (fun x => x.type_ == e.type_) ≠ 0 :=
    Nat.pos_iff_ne_zero.mp (count_pos_iff.mpr ⟨n, hlt, e, hp, by simp⟩)
  refine ⟨_, by rw [h.counts, packed, if_neg hcopies], fun hcloud => ?_, fun hnone => ?_⟩
  · exact count_pos_iff.mpr ⟨n, hlt, e, hp, by simp [hcloud]⟩
  · exact count_lt_count hlt hp (fun x hx => (Bool.and_eq_true_iff.mp hx).1) (by simp) (by simp [hnone])

theorem published_pos (h : Mail c s) {n : Nat} {e : StoredEvent} (hp : Pend c s.id n e)
    (hpub : Engine.published e = true) : 0 < s.published := by
  rw [h.publishedCount]
  exact count_pos_iff.mpr ⟨n, h.event_lt n e hp.1, e, hp, hpub⟩

/-- Among the first two live copies of a type is a CloudEvent, if any live copy is one. -/
theorem liveCloud (h : Mail c s) {n : Nat} {e : StoredEvent} (hp : Pend c s.id n e)
    (hcloud : e.envelope.isSome = true) (hx : expired e now = false) :
    Engine.liveCloud c s.id e.type_ now = true := by
  -- the copy itself is among the live ones, and the scan of two of them has its row or two others
  have hmem : (liveKey e n, true) ∈ (c.live (s.id, e.type_)).scan (expiresAfter now) none :=
    (Table.mem_scan _ _).mpr ⟨h.get_live.mpr ⟨n, e, hp, rfl, rfl, hcloud.symm⟩, expiresAfter_liveKey hx n⟩
  have hsorted := (c.live (s.id, e.type_)).scan_sorted (expiresAfter now)
  have hrow : ∀ k b, (k, b) ∈ (c.live (s.id, e.type_)).scan (expiresAfter now) none → b = false →
      -- a row of the scan that is no CloudEvent is a notice
      ∃ m x, Pend c s.id m x ∧ x.type_ = e.type_ ∧ x.envelope = none ∧ k = liveKey x m := by
    intro k b hkb hb
    obtain ⟨m, x, hpx, ht, hk, hbx⟩ := h.get_live.mp ((Table.mem_scan _ _).mp hkb).1
    exact ⟨m, x, hpx, ht, by simpa [hbx] using hb, hk⟩
  unfold Engine.liveCloud
  rw [Table.scan_some]
  -- only what is known of the scanned rows matters from here on
  generalize (c.live (s.id, e.type_)).scan (expiresAfter now) none = l at hmem hsorted hrow
  match l, hmem, hsorted, hrow with
  | [row], hmem, _, _ => simp [← List.mem_singleton.mp hmem]
  | (k₁, b₁) :: (k₂, b₂) :: rest, _, hsorted, hrow =>
    by_contra hany
    obtain ⟨rfl, rfl⟩ : b₁ = false ∧ b₂ = false := by simpa using hany
    -- two notices of one type would be the same copy
    obtain ⟨m₁, x₁, hp₁, ht₁, hn₁, rfl⟩ := hrow k₁ false (by simp) rfl
    obtain ⟨m₂, x₂, hp₂, ht₂, hn₂, rfl⟩ := hrow k₂ false (by simp) rfl
    obtain rfl := h.notice_once m₁ m₂ x₁ x₂ hp₁ hp₂ hn₁ hn₂ (ht₁.trans ht₂.symm)
    obtain rfl := hp₁.unique hp₂
    exact lt_irrefl _ ((List.pairwise_cons.mp hsorted).1 _ List.mem_cons_self)

theorem livePublished_of (h : Mail c s) {n : Nat} {e : StoredEvent} (hp : Pend c s.id n e)
    (hpub : Engine.published e = true) (hx : expired e now = false) :
    Engine.livePublished c s.id now = true := by
  have hrow := h.get_livePublished.mpr ⟨e, hp, hpub, rfl⟩
  unfold Engine.livePublished
  rcases (c.livePublished s.id).scan_one (expiresAfter now) with ⟨-, hnone⟩ | ⟨k, v, hone, -⟩
  · have := hnone _ _ hrow
    simp [expiresAfter_liveKey hx n] at this
  · simp [hone]

/-- A copy the run wants shows in its counters. -/
theorem pendingWanted (h : Mail c s) {n : Nat} {e : StoredEvent} (hp : Pend c s.id n e)
    (hnotice : e.envelope = none → wakes s e.type_ false = true → s.awaits.contains e.type_ = true)
    (hw : wanted s e now = true) : Engine.pendingWanted c s now = true := by
  simp only [wanted, Bool.and_eq_true, Bool.or_eq_true, Bool.not_eq_true'] at hw
  obtain ⟨⟨-, hx⟩, hw⟩ := hw
  -- the counter of the copy's type, with the CloudEvents among its copies
  obtain ⟨p, hcount, hcloud, hcopies⟩ := h.counter hp
  have hlive : e.envelope.isSome = true →
      (s.mailbox.all (fun at_ => decide (now < at_)) || Engine.liveCloud c s.id e.type_ now) = true :=
    fun hc => by rw [h.liveCloud hp hc hx, Bool.or_true]
  unfold Engine.pendingWanted
  simp only [Bool.or_eq_true, List.any_eq_true]
  rcases hw with hwakes | hsub
  · -- the type is registered
    have hawaits : s.awaits.contains e.type_ = true := by
      cases henv : e.envelope with
      | none => exact hnotice henv (by simpa [henv] using hwakes)
      | some event => simpa [henv, wakes] using hwakes
    obtain ⟨at_, hat⟩ := (Table.contains_iff _ _).mp hawaits
    refine .inl ⟨e.type_, (Table.mem_keys _).mpr ⟨at_, hat⟩, ?_⟩
    rw [hcount]
    cases henv : e.envelope with
    | none =>
      rw [henv] at hwakes
      simp [hcopies henv, show wakes s e.type_ false = true from hwakes]
    | some event =>
      have hc : e.envelope.isSome = true := by simp [henv]
      simp only [Option.any_some, Bool.or_eq_true, Bool.and_eq_true, decide_eq_true_eq]
      exact .inr ⟨⟨hcloud hc, by simpa [wakes] using hawaits⟩, by simpa using hlive hc⟩
  -- the type is subscribed to, by its name or by the wildcard
  · simp only [subscribed, Bool.and_eq_true, List.any_eq_true, Bool.or_eq_true] at hsub
    obtain ⟨hc, types, htypes, ht | ⟨hpub, hstar⟩⟩ := hsub
    · refine .inr ⟨e.type_, List.mem_flatten.mpr ⟨types, htypes, by simpa using ht⟩, .inr ?_⟩
      rw [hcount]
      simp only [Option.any_some, Bool.and_eq_true, decide_eq_true_eq]
      exact ⟨hcloud hc, hlive hc⟩
    · refine .inr ⟨"*", List.mem_flatten.mpr ⟨types, htypes, by simpa using hstar⟩, .inl ?_⟩
      simp [h.published_pos hp hpub, h.livePublished_of hp hpub hx]

/-- A counter is backed by a copy that has not expired: by a CloudEvent that the first rows by expiry
show, or, while the earliest expiry is ahead, by any. -/
theorem exists_cloud (h : Mail c s) {t : String} {p : Pending} (hcount : s.pending.get t = some p)
    (hpos : 0 < p.cloud)
    (hlive : s.mailbox.all (fun at_ => decide (now < at_)) = true ∨ Engine.liveCloud c s.id t now = true) :
    ∃ n e, Pend c s.id n e ∧ e.type_ = t ∧ e.envelope.isSome = true ∧ expired e now = false := by
  rcases hlive with hfresh | hlive
  · rw [h.counts, packed] at hcount
    split at hcount
    · simp at hcount
    · obtain rfl := Option.some.inj hcount
      obtain ⟨n, -, e, hp, he⟩ := count_pos_iff.mp hpos
      obtain ⟨ht, hc⟩ := Bool.and_eq_true_iff.mp he
      exact ⟨n, e, hp, by simpa using ht, hc, h.unexpired hfresh hp⟩
  · unfold Engine.liveCloud at hlive
    obtain ⟨⟨k, b⟩, hmem, hb⟩ := List.any_eq_true.mp hlive
    obtain ⟨hget, hafter⟩ := Table.of_mem_scan hmem
    obtain ⟨n, e, hp, ht, rfl, rfl⟩ := h.get_live.mp hget
    exact ⟨n, e, hp, ht, hb, expired_of_expiresAfter hafter⟩

/-- The notices a counter has beside its CloudEvents are backed by one, which never expires. -/
theorem exists_notice (h : Mail c s) {t : String} {p : Pending} (hcount : s.pending.get t = some p)
    (hlt : p.cloud < p.copies) :
    ∃ n e, Pend c s.id n e ∧ e.type_ = t ∧ e.envelope = none ∧ expired e now = false := by
  rw [h.counts, packed] at hcount
  split at hcount
  · simp at hcount
  · obtain rfl := Option.some.inj hcount
    -- otherwise every copy of the type is a CloudEvent
    by_contra hno
    have hlt : count c s.id s.accepted (fun e => e.type_ == t && e.envelope.isSome) <
      count c s.id s.accepted fun e => e.type_ == t := hlt
    unfold count at hlt
    refine absurd hlt (not_lt.mpr (Finset.card_le_card ?_))
    refine Finset.monotone_filter_right _ fun n _ hn => ?_
    simp only [Option.any_eq_true, Bool.and_eq_true, Option.isNone_iff_eq_none] at hn ⊢
    obtain ⟨e, he, hc, ht⟩ := hn
    refine ⟨e, he, hc, ht, ?_⟩
    cases henv : e.envelope with
    | some event => rfl
    | none =>
      refine absurd ⟨n, e, ⟨he, hc⟩, by simpa using ht, henv, ?_⟩ hno
      simp [expired, (h.cloud n e he henv).2]

theorem exists_published (h : Mail c s) (hpos : 0 < s.published)
    (hlive : s.mailbox.all (fun at_ => decide (now < at_)) = true ∨
      Engine.livePublished c s.id now = true) :
    ∃ n e, Pend c s.id n e ∧ Engine.published e = true ∧ expired e now = false := by
  rcases hlive with hfresh | hlive
  · rw [h.publishedCount] at hpos
    obtain ⟨n, -, e, hp, hpub⟩ := count_pos_iff.mp hpos
    exact ⟨n, e, hp, hpub, h.unexpired hfresh hp⟩
  · unfold Engine.livePublished at hlive
    rcases (c.livePublished s.id).scan_one (expiresAfter now) with ⟨hnil, -⟩ | ⟨k, m, -, hget, hafter, -⟩
    · simp [hnil] at hlive
    · obtain ⟨e, hp, hpub, rfl⟩ := h.get_livePublished.mp hget
      exact ⟨m, e, hp, hpub, expired_of_expiresAfter hafter⟩

/-- What the counters report is wanted. -/
theorem wanted_of_pendingWanted (h : Mail c s) (hw : Engine.pendingWanted c s now = true) :
    ∃ n e, Pend c s.id n e ∧ wanted s e now = true := by
  -- whatever kind of counter reports it, a live copy that wakes or is subscribed to is wanted
  have hwanted : ∀ {n e}, Pend c s.id n e → expired e now = false →
      wakes s e.type_ e.envelope.isSome = true ∨ subscribed s e = true → wanted s e now = true := by
    intro n e hp hx hcase
    simp only [wanted, hp.2, hx, Option.isNone_none, Bool.not_false, Bool.true_and, Bool.or_eq_true]
    exact hcase
  unfold Engine.pendingWanted at hw
  simp only [Bool.or_eq_true, List.any_eq_true] at hw
  rcases hw with ⟨t, -, hcount⟩ | ⟨t, ht, hsub⟩
  · -- a registered type
    obtain ⟨p, hcount, hcase⟩ := (Option.any_eq_true _ _).mp hcount
    simp only [Bool.or_eq_true, Bool.and_eq_true, decide_eq_true_eq] at hcase
    rcases hcase with ⟨hlt, hwakes⟩ | ⟨⟨hpos, hwakes⟩, hlive⟩
    · obtain ⟨n, e, hp, rfl, henv, hx⟩ := h.exists_notice hcount hlt
      exact ⟨n, e, hp, hwanted hp hx (.inl (by rw [henv]; exact hwakes))⟩
    · obtain ⟨n, e, hp, rfl, henv, hx⟩ := h.exists_cloud hcount hpos hlive
      exact ⟨n, e, hp, hwanted hp hx (.inl (by rw [henv]; exact hwakes))⟩
  · obtain ⟨types, htypes, ht⟩ := List.mem_flatten.mp ht
    simp only [Bool.and_eq_true, Bool.or_eq_true, beq_iff_eq, decide_eq_true_eq] at hsub
    rcases hsub with ⟨⟨rfl, hpos⟩, hlive⟩ | ⟨hcount, hlive⟩
    · -- a wildcard subscription
      obtain ⟨n, e, hp, hpub, hx⟩ := h.exists_published hpos hlive
      refine ⟨n, e, hp, hwanted hp hx (.inr ?_)⟩
      have henv : e.envelope.isSome = true := (Bool.and_eq_true_iff.mp hpub).1
      simp only [subscribed, henv, Bool.true_and, List.any_eq_true, Bool.or_eq_true]
      exact ⟨types, htypes, .inr (by simp [hpub, ht])⟩
    · -- a subscription to the type
      obtain ⟨p, hcount, hpos⟩ := (Option.any_eq_true _ _).mp hcount
      obtain ⟨n, e, hp, rfl, henv, hx⟩ := h.exists_cloud hcount (of_decide_eq_true hpos) hlive
      refine ⟨n, e, hp, hwanted hp hx (.inr ?_)⟩
      simp only [subscribed, henv, Bool.true_and, List.any_eq_true, Bool.or_eq_true]
      exact ⟨types, htypes, .inl (by simpa using ht)⟩

end Mail

/-! ### What a move does to registrations -/

/-- The same registrations and listeners. -/
structure SameEars (s s' : StoredRun) : Prop where
  awaits : s'.awaits = s.awaits
  listeners : s'.listeners = s.listeners
  addressed : s'.addressedWaits = s.addressedWaits

theorem SameEars.wakes {s s' : StoredRun} (h : SameEars s s') (t : String) (cloud : Bool) :
    wakes s' t cloud = wakes s t cloud := by
  unfold Engine.wakes
  rw [h.awaits, h.listeners, h.addressed]

/-- What a change does to the registrations and listeners of a run. -/
inductive EarStep (c : Core) (now : Int) (may : String → Act → Prop) (s s' : StoredRun) : Prop
  | same (h : SameEars s s')
  | register (types : List String) (hmay : may s.id (.register types))
      (h : SameEars (registered s types now) s')
  | unregister (k : String) (types : List String) (hmay : may s.id (.unregister k types))
      (h : SameEars (close { s with listeners := s.listeners.delete k } types) s')
  | listen (k : String) (types : List String) (hn : candidate c s.id types = none)
      (hmay : may s.id (.listen k types))
      (h : SameEars { s with listeners := s.listeners.put k types } s')
  | take (k : String) (types : List String) (n : Nat) (e : StoredEvent)
      (hn : candidate c s.id types = some n) (he : (c.event s.id).get n = some e)
      (hmay : may s.id (.take k types)) (h : SameEars (tookEvent (joined s e.type_) k types) s')
  | adopt (child : String) (h : SameEars (adopting s child now) s')
  | settle (child : String) (hmay : may child .finish ∨ may child .report)
      (h : SameEars (close s ["waiting:" ++ child]) s')
  | ended (ha : s'.awaits = .empty) (hl : s'.listeners = .empty) (hd : s'.addressedWaits = ∅)

theorem Rewrite.ears {c : Core} {s s' : StoredRun} (h : Rewrite c now may s s') :
    EarStep c now may s s' := by
  cases h with
  | register types hr hmay => exact .register types hmay ⟨rfl, rfl, rfl⟩
  | unregister k types hr hmay => exact .unregister k types hmay ⟨rfl, rfl, rfl⟩
  | listen k types hr hn hmay => exact .listen k types hn hmay ⟨rfl, rfl, rfl⟩
  | adopt child hr => exact .adopt child ⟨rfl, rfl, rfl⟩
  | settle child ha hmay => exact .settle child hmay ⟨rfl, rfl, rfl⟩
  | park outcome =>
    obtain ⟨state, wakeAtMs, interruptions, heq⟩ := finished_eq c s outcome now
    rw [heq]
    exact .same ⟨rfl, rfl, rfl⟩
  | _ => exact .same ⟨rfl, rfl, rfl⟩

theorem close_ears {s s' : StoredRun} (h : SameEars s s') (types : List String) :
    SameEars (close s types) (close s' types) where
  awaits := Table.ext_get fun t => by
    rw [close_awaits, close_awaits, h.awaits, show named s' t = named s t by unfold named; rw [h.listeners]]
  listeners := by rw [close_listeners, close_listeners, h.listeners]
  addressed := Finset.ext fun t => by
    simp only [mem_close_addressedWaits, named, h.addressed, h.listeners]

theorem tookEvent_ears {s s' : StoredRun} (h : SameEars s s') (k : String) (types : List String) :
    SameEars (tookEvent s k types) (tookEvent s' k types) := by
  have hears : SameEars
      { s with
        listeners := s.listeners.delete k
        waits := s.waits.retain fun _ w => decide (w.position ≠ k) }
      { s' with
        listeners := s'.listeners.delete k
        waits := s'.waits.retain fun _ w => decide (w.position ≠ k) } :=
    ⟨h.awaits, congrArg (·.delete k) h.listeners, h.addressed⟩
  exact close_ears hears types

theorem RowChange.ears {c : Core} {s s' : StoredRun} (h : RowChange env c now may s s') :
    EarStep c now may s s' := by
  cases h with
  | rewrite h => exact h.ears
  | accept e =>
    refine .same ?_
    split <;> exact ⟨rfl, rfl, rfl⟩
  | notify t =>
    refine .same ?_
    split <;> exact ⟨rfl, rfl, rfl⟩
  | expire | offer | forget => exact .same ⟨rfl, rfl, rfl⟩
  | take c' k types n e hr hn he hmay =>
    have hears : SameEars (joined s e.type_) (refreshed c' (uncounted (joined s e.type_) e)) :=
      ⟨rfl, rfl, rfl⟩
    exact .take k types n e hn he hmay (tookEvent_ears hears k types)
  | finish => exact .ended rfl rfl rfl

/-! ### Notices that wake have a registration -/

/-- A listener that is not a child's names the type. -/
theorem wakes_notice {s : StoredRun} {t : String} :
    wakes s t false = true ↔ t ∈ s.addressedWaits ∨
      ∃ k types, s.listeners.get k = some types ∧ startsWith k "child:" = false ∧ t ∈ types := by
  simp only [wakes, Bool.false_eq_true, if_false, Bool.or_eq_true, decide_eq_true_eq, List.any_eq_true,
    Bool.and_eq_true, Bool.not_eq_true', List.contains_iff_mem]
  refine or_congr_right ⟨?_, ?_⟩
  · rintro ⟨⟨k, types⟩, hmem, hk, ht⟩
    exact ⟨k, types, (Table.mem_rows _).mp hmem, hk, ht⟩
  · rintro ⟨k, types, hget, hk, ht⟩
    exact ⟨(k, types), (Table.mem_rows _).mpr hget, hk, ht⟩

/-- Closing keeps the registrations that wake. -/
theorem close_heard {s₀ s : StoredRun} {types : List String} {t : String}
    (hw : wakes (close s types) t false = true) (ha : s₀.awaits.contains t = true)
    (hs : s.awaits = s₀.awaits) : (close s types).awaits.contains t = true := by
  have hkept : ¬(t ∈ types ∧ named s t = false) := by
    rcases wakes_notice.mp hw with hmem | ⟨k, ts, hget, -, ht⟩
    · exact ((mem_close_addressedWaits _ _ _).mp hmem).2
    · rw [close_listeners] at hget
      simp [named_iff.mpr ⟨k, ts, hget, ht⟩]
  obtain ⟨at_, hat⟩ := (Table.contains_iff _ _).mp ha
  refine (Table.contains_iff _ _).mpr ⟨at_, ?_⟩
  rw [close_awaits, if_neg hkept, hs]
  exact hat

/-- A run with fewer listeners and the same registrations is woken by less. -/
theorem wakes_of_close {s₀ s : StoredRun} {types : List String} {t : String}
    (hw : wakes (close s types) t false = true)
    (hl : ∀ k ts, s.listeners.get k = some ts → s₀.listeners.get k = some ts)
    (hd : s.addressedWaits = s₀.addressedWaits) : wakes s₀ t false = true := by
  rcases wakes_notice.mp hw with hmem | ⟨k, ts, hget, hk, ht⟩
  · rw [mem_close_addressedWaits, hd] at hmem
    exact wakes_notice.mpr (.inl hmem.1)
  · rw [close_listeners] at hget
    exact wakes_notice.mpr (.inr ⟨k, ts, hl k ts hget, hk, ht⟩)

/-- What a change keeps: a notice that is registered, or that nothing listens for, stays so. -/
theorem EarStep.heard {c : Core} {s s' : StoredRun} (h : EarStep c now may s s') (hmail : Mail c s)
    {t : String} (ht : s.awaits.contains t = true ∨
      wakes s t false = false ∧ ∃ n e, Pend c s.id n e ∧ e.type_ = t)
    (hw : wakes s' t false = true) : s'.awaits.contains t = true := by
  have hno : wakes s t false = false → ¬(t ∈ s.addressedWaits ∨ ∃ k types,
      s.listeners.get k = some types ∧ startsWith k "child:" = false ∧ t ∈ types) := by
    intro hno
    rw [← wakes_notice, hno]
    simp
  -- closing after listeners were dropped
  have hclose : ∀ (s₀ : StoredRun) {types : List String}, s₀.awaits = s.awaits →
      s₀.addressedWaits = s.addressedWaits →
      (∀ k ts, s₀.listeners.get k = some ts → s.listeners.get k = some ts) →
      SameEars (close s₀ types) s' → s'.awaits.contains t = true := by
    intro s₀ types ha hd hl hears
    rw [hears.wakes] at hw
    rw [hears.awaits]
    rcases ht with ht | ⟨hsilent, -⟩
    · exact close_heard hw ht ha
    · rw [wakes_of_close hw hl hd] at hsilent
      simp at hsilent
  -- what the step does to registrations and listeners decides
  cases h with
  | same hears =>
    rw [hears.wakes] at hw
    rw [hears.awaits]
    rcases ht with ht | ⟨hsilent, -⟩
    · exact ht
    · simp [hw] at hsilent
  | register types hmay hears =>
    rw [hears.wakes, wakes_notice, registered_listeners, mem_registered_addressedWaits] at hw
    rw [hears.awaits, registered_awaits]
    rcases ht with ht | ⟨hsilent, -⟩
    · simp [ht]
    · rcases hw with (hmem | hmem) | hlist
      · exact absurd (.inl hmem) (hno hsilent)
      · simp [hmem]
      · exact absurd (.inr hlist) (hno hsilent)
  | unregister k types hmay hears =>
    exact hclose { s with listeners := s.listeners.delete k } rfl rfl (fun _ _ => Table.of_get_delete) hears
  | settle child hmay hears => exact hclose s rfl rfl (fun _ _ h => h) hears
  -- a take drops the wait and its listener, and the types that nothing else names lose their registration
  | take k types n e hn he hmay hears =>
    refine hclose { joined s e.type_ with
        listeners := (joined s e.type_).listeners.delete k
        waits := (joined s e.type_).waits.retain fun _ w => decide (w.position ≠ k) }
      (by rw [joined_eq]) (by rw [joined_eq]) (fun k' ts hget => ?_) hears
    exact joined_listeners (Table.of_get_delete hget)
  | listen k types hn hmay hears =>
    rw [hears.awaits]
    rcases ht with ht | ⟨hsilent, n, e, hp, rfl⟩
    · exact ht
    · -- there is a copy of the type, so the listener is not for it
      have hnot : e.type_ ∉ types := fun hmem => by
        have hleast := hmail.least_candidate types
        rw [hn] at hleast
        have : n ∈ {n | ∃ e, Takeable c s.id types n e} := ⟨e, hp, .inl hmem⟩
        rw [show {n | ∃ e, Takeable c s.id types n e} = ∅ from hleast] at this
        exact absurd this (Set.notMem_empty n)
      rw [hears.wakes, wakes_notice] at hw
      rcases hw with hmem | ⟨k', ts, hget, hk', hts⟩
      · exact absurd (.inl hmem) (hno hsilent)
      · have hget : (s.listeners.put k types).get k' = some ts := hget
        rw [Table.get_put] at hget
        split at hget
        · rw [← Option.some.inj hget] at hts
          exact absurd hts hnot
        · exact absurd (.inr ⟨k', ts, hget, hk', hts⟩) (hno hsilent)
  -- an adoption only adds to the registrations and listeners
  | adopt child hears =>
    rw [hears.awaits]
    rcases ht with ht | ⟨hsilent, -⟩
    · exact adopting_awaits.mpr (.inl ht)
    · rw [hears.wakes, wakes_notice] at hw
      rcases hw with hmem | ⟨k', ts, hget, hk', hts⟩
      · exact absurd (.inl hmem) (hno hsilent)
      · have hne : "child:" ++ child ≠ k' := by
          rintro rfl
          rw [startsWith_append] at hk'
          simp at hk'
        have hget : (s.listeners.put ("child:" ++ child) ["done:" ++ child]).get k' = some ts := hget
        rw [Table.get_put_ne _ _ hne] at hget
        exact absurd (.inr ⟨k', ts, hget, hk', hts⟩) (hno hsilent)
  -- an ended run has no listener and nothing addressed to it
  | ended ha hl hd =>
    rw [wakes_notice, hl, hd] at hw
    simp at hw

/-- Every unconsumed notice that would wake its run has a registration. -/
def Heard (c : Core) : Prop :=
  ∀ i s, c.run.get i = some s → ∀ n e, Pend c i n e → e.envelope = none →
    wakes s e.type_ false = true → s.awaits.contains e.type_ = true

theorem Heard.move {c c' : Core} (h : Heard c) (hinv : Inv c) (hmove : Move env now may c c') :
    Heard c' := by
  intro i s' hs' n e hp hnone hw
  -- the notice was there before, or it arrived now
  have horigin : Pend c i n e ∨ ∃ s, c.run.get i = some s ∧ s.awaits.contains e.type_ = true := by
    have hcopy := hmove.copy hinv i n
    rw [hp.1] at hcopy
    generalize hold : (c.event i).get n = o at hcopy
    cases hcopy with
    | same => exact .inl ⟨hold, hp.2⟩
    | accepted hs hn he =>
      have := he.cloud
      simp [hnone] at this
    | notified hs hn hr ha => exact .inr ⟨_, hs, ha⟩
    | expired => simp [Pend, asConsumed] at hp
    | taken => simp [Pend, asConsumed] at hp
    | @offered e₀ hp₀ hd =>
      obtain ⟨s, hs⟩ : ∃ s, c.run.get i = some s := by
        by_contra hno
        have := (hinv.mails.vacant i (Option.eq_none_iff_forall_ne_some.mpr (by simpa using hno))).event
        simp [this] at hold
      obtain rfl := hinv.tree.keyed i s hs
      have := (hinv.mails.mail _ _ hs).cloud n e₀ hold hnone
      simp [hd] at this
  have hrow := hmove.row i
  rw [hs'] at hrow
  generalize hold : c.run.get i = row at hrow
  -- the run's row after the move comes from its row before, with a registration that `EarStep.heard` carries
  -- over
  have hdone : ∀ s, row = some s → EarStep c now may s s' ∨ s = s' → s'.awaits.contains e.type_ = true := by
    rintro s rfl hstep
    obtain rfl := hinv.tree.keyed i s hold
    have hcase : s.awaits.contains e.type_ = true ∨
        wakes s e.type_ false = false ∧ ∃ n x, Pend c s.id n x ∧ x.type_ = e.type_ := by
      rcases horigin with hp₀ | ⟨s₀, hs₀, ha⟩
      · cases hwk : wakes s e.type_ false with
        | true => exact .inl (h _ s hold n e hp₀ hnone hwk)
        | false => exact .inr ⟨rfl, n, e, hp₀, rfl⟩
      · exact .inl (Option.some.inj (hold.symm.trans hs₀) ▸ ha)
    rcases hstep with hstep | rfl
    · exact hstep.heard (hinv.mails.mail _ _ hold) hcase hw
    · rcases hcase with ha | ⟨hno, -⟩
      · exact ha
      · simp [hw] at hno
  cases hrow with
  | same => exact hdone s' rfl (.inr rfl)
  | new hid hnew =>
    -- a first row has no copies
    rcases horigin with hp₀ | ⟨s₀, hs₀, -⟩
    · simp [Pend, (hinv.mails.vacant i hold).event] at hp₀
    · simp [hold] at hs₀
  | change hid hchange => exact hdone _ rfl (.inl hchange.ears)

theorem heard_after (env : Env) (history : List Op) : Heard (after env history).toCore :=
  runs_core (P := Heard) (fun _ _ _ _ hinv hmove h => h.move hinv hmove) Good.empty
    (fun i s hs => by simp [Rows.empty] at hs) history

/-! ### Waiting runs are due -/

theorem wanted_congr {s s' : StoredRun} (h : SameEars s s') (hsub : s'.subscriptions = s.subscriptions)
    (e : StoredEvent) (now : Int) : wanted s' e now = wanted s e now := by
  unfold wanted subscribed
  rw [h.wakes, hsub]

/-- What is not expired at an instant is not at any before. -/
theorem wanted_before {s : StoredRun} {e : StoredEvent} {t : Int} (ht : now ≤ t)
    (h : wanted s e t = true) : wanted s e now = true := by
  simp only [wanted, Bool.and_eq_true, Bool.not_eq_true'] at h ⊢
  refine ⟨⟨h.1.1, ?_⟩, h.2⟩
  have hx := h.1.2
  unfold expired at hx ⊢
  cases hat : e.expiresAtMs with
  | none => rfl
  | some at_ =>
    simp only [hat, Option.any_some, decide_eq_false_iff_not] at hx ⊢
    omega

/-- A closed registration wakes no more. -/
theorem wanted_of_close {s : StoredRun} {types : List String} {e : StoredEvent}
    (h : wanted (close s types) e now = true) : wanted s e now = true := by
  simp only [wanted, Bool.and_eq_true, Bool.or_eq_true] at h ⊢
  refine ⟨h.1, h.2.imp (fun hw => ?_) fun hsub => ?_⟩
  · cases henv : e.envelope with
    | none =>
      rw [henv] at hw
      exact wakes_of_close hw (fun _ _ h => h) rfl
    | some event =>
      rw [henv] at hw
      exact contains_of_close hw
  · rw [close_eq] at hsub
    exact hsub

/-- At the instant `t`, a waiting run that holds a copy it wants is due. -/
def Woken (t : Int) (c : Core) : Prop :=
  ∀ i s, c.run.get i = some s → s.run.state = .waiting → ∀ n e, (c.event i).get n = some e →
    wanted s e t = true → s.run.wakeAtMs ≤ t

/-- Parking a run leaves it waiting only with its wake-up right. -/
theorem park_woken {c : Core} {s : StoredRun} {outcome : Status} {t : Int} (hinv : Inv c)
    (hheard : Heard c) (hs : c.run.get s.id = some s) (hnow : now ≤ t)
    (ht : (finished c s outcome now).2.terminal = false)
    (hwait : (finished c s outcome now).1.run.state = .waiting) {n : Nat} {e : StoredEvent}
    (he : (c.event s.id).get n = some e) (hw : wanted (finished c s outcome now).1 e t = true) :
    (finished c s outcome now).1.run.wakeAtMs ≤ t := by
  obtain ⟨state, wakeAtMs, interruptions, heq⟩ := finished_eq c s outcome now
  have hws : wanted s e t = true := by
    rw [heq] at hw
    exact hw
  have hp : Pend c s.id n e := by
    refine ⟨he, ?_⟩
    simp only [wanted, Bool.and_eq_true, Option.isNone_iff_eq_none] at hws
    exact hws.1.1
  -- a park answers by its outcome: only a wait can leave the run waiting
  cases outcome with
  | waiting wake =>
    -- the row as its counters are read
    obtain ⟨s₁, hs₁⟩ : ∃ s₁ : StoredRun, s₁ =
        { s with run := { s.run with state := .waiting, interruptions := 0, wakeAtMs := wake } } := ⟨_, rfl⟩
    have hmail : Mail c s₁ := (hinv.mails.mail _ _ hs).congr (.refl c _) (by rw [hs₁]; exact ⟨rfl, rfl, rfl, rfl, rfl⟩)
    have hpending : Engine.pendingWanted c s₁ now = true := by
      refine hmail.pendingWanted (n := n) (e := e) (by rw [hs₁]; exact hp) (fun hnone hwk => ?_)
        (by rw [hs₁]; exact wanted_before hnow hws)
      rw [hs₁] at hwk ⊢
      exact hheard s.id s hs n e hp hnone hwk
    simp only [finished, ← hs₁, hpending, if_true]
    exact hnow
  -- an interruption leaves it waiting for its backoff, or faults it
  | interrupted error =>
    simp only [finished] at ht hwait
    split at ht
    · simp [Status.terminal] at ht
    · next hlt => simp [hlt] at hwait
  | completed | faulted | cancelled => simp [finished, Status.terminal] at ht

theorem Woken.move {t : Int} {c c' : Core} (h : Woken t c) (hinv : Inv c) (hheard : Heard c)
    (hmove : Move env now may c c') (hnow : now ≤ t) : Woken t c' := by
  intro i s' hs' hwait n e he hw
  -- a move on another run, or on rows that are no mailbox
  -- runs the move does not touch
  have hframe : c'.run.get i = c.run.get i → c'.event i = c.event i → s'.run.wakeAtMs ≤ t := by
    intro hrow hevent
    rw [hrow] at hs'
    rw [hevent] at he
    exact h i s' hs' hwait n e he hw
  -- a move that stores one row, and otherwise changes the mailbox of that run only
  have hset : ∀ {d : Core} {s₁ : StoredRun}, c' = d.set s₁ → d.run = c.run →
      (∀ r, r ≠ s₁.id → d.event r = c.event r) → (i = s₁.id → s' = s₁ → s'.run.wakeAtMs ≤ t) →
      s'.run.wakeAtMs ≤ t := by
    rintro d s₁ rfl hd hevent hsame
    by_cases hi : s₁.id = i
    · rw [Core.get_set, if_pos hi] at hs'
      exact hsame hi.symm (Option.some.inj hs').symm
    · refine hframe ?_ (hevent i (Ne.symm hi))
      rw [Core.get_set, if_neg hi, hd]
  -- a run that is not waiting has nothing to show
  have hnot : ∀ {s : StoredRun}, s.run.state ≠ .waiting → s' = s → s'.run.wakeAtMs ≤ t := by
    rintro s hne rfl
    exact absurd hwait hne
  -- each kind of move is one of the three
  cases hmove with
  | record | spend | dropBudget => exact hframe rfl rfl
  | admission a digest epoch trigger rearm ha =>
    exact hset rfl rfl (fun _ _ => rfl) fun _ => hnot (by simp [fresh])
  | refuse a digest epoch error ha =>
    exact hset rfl rfl (fun _ _ => rfl) fun _ => hnot (by simp [stillborn])
  | bear a digest epoch link ha hp hlink hr =>
    exact hset rfl rfl (fun _ _ => rfl) fun _ => hnot (by simp [linked, fresh])
  | @rewrite s s₁ hs hrw =>
    refine hset rfl rfl (fun _ _ => rfl) fun hi heq => ?_
    have hid := hrw.id_eq
    subst heq
    rw [hid] at hi
    subst hi
    -- a running run stays running, apart from the end of its execution
    cases hrw with
    | claim => exact absurd hwait (by simp [claimed])
    | release => exact absurd hwait (by simp)
    | park outcome hr ht => exact park_woken hinv hheard hs hnow ht hwait he hw
    | hold hold hl => exact h _ s hs hwait n e he hw
    | settle child ha =>
      rw [close_run] at hwait ⊢
      exact h _ s hs hwait n e he (wanted_of_close hw)
    | register types hr => exact absurd hwait (by simp [hr])
    | unregister k types hr => exact absurd hwait (by simp [hr])
    | renew hr | count _ hr | listen _ _ hr | subscribe _ _ hr | unsubscribe _ hr | describe _ _ hr
    | adopt _ hr | mark _ hr _ => exact absurd hwait (by simp [hr])
  | @accept s e₀ hs hl hacc hfresh hn hmay =>
    have hid : (counted (if wanted s e₀ now then wakeBy s now else s) e₀).id = s.id := by
      rw [counted_id]; split <;> rfl
    refine hset rfl rfl (fun r hr => (pushed_same (hid ▸ hr)).event) fun hi heq => ?_
    rw [hid] at hi
    subst hi heq
    have hears : wanted s e t = true := by
      rw [← hw]
      refine (wanted_congr ⟨?_, ?_, ?_⟩ ?_ e t).symm <;> (simp only [counted]; split <;> rfl)
    have he : ((pushed c s.id s.accepted e₀).event s.id).get n = some e := he
    rw [counted_run] at hwait ⊢
    rw [pushed_event] at he
    by_cases hnew : wanted s e₀ now = true
    · -- the new copy wakes the run
      simp only [hnew, if_true, wakeBy] at hwait ⊢
      exact (min_le_right _ _).trans hnow
    · simp only [hnew, Bool.false_eq_true, if_false] at hwait ⊢
      by_cases hn : s.accepted = n
      · rw [if_pos hn] at he
        obtain rfl := Option.some.inj he
        exact absurd (wanted_before hnow hears) hnew
      · rw [if_neg hn] at he
        exact h _ s hs hwait n e he hears
  | @notify s ty data hs hl ha hp hr hn =>
    have hid : (counted (if wakes s ty false then { s with run := { s.run with wakeAtMs := now } } else s)
        (notice ty data now)).id = s.id := by
      rw [counted_id]; split <;> rfl
    refine hset rfl rfl (fun r hr => (pushed_same (hid ▸ hr)).event) fun hi heq => ?_
    rw [hid] at hi
    subst hi heq
    have hears : wanted s e t = true := by
      rw [← hw]
      refine (wanted_congr ⟨?_, ?_, ?_⟩ ?_ e t).symm <;> (simp only [counted]; split <;> rfl)
    have he : ((pushed c s.id s.accepted (notice ty data now)).event s.id).get n = some e := he
    rw [counted_run] at hwait ⊢
    rw [pushed_event] at he
    -- a notice the run listens for wakes it at once
    by_cases hnew : wakes s ty false = true
    · simp only [hnew, if_true]
      exact hnow
    · simp only [hnew, Bool.false_eq_true, if_false] at hwait ⊢
      by_cases hn : s.accepted = n
      · -- a notice is wanted only by those it wakes
        rw [if_pos hn] at he
        obtain rfl := Option.some.inj he
        simp only [wanted, subscribed, notice, Bool.and_eq_true, Bool.or_eq_true] at hears
        rcases hears.2 with hwk | hsub
        · exact absurd hwk hnew
        · simp at hsub
      · rw [if_neg hn] at he
        exact h _ s hs hwait n e he hears
  | @expire s m e₀ at_ taken hs hl hx hat he₀ =>
    refine hset rfl rfl (fun r hr => Table.putAt_ne _ _ _ hr) fun hi heq => ?_
    subst heq
    have hi : i = s.id := hi
    subst hi
    have he : (Table.putAt c.event s.id m (asConsumed e₀ (expiredKey m)) s.id).get n = some e := he
    rw [Table.get_putAt] at he
    split at he
    -- an expired copy is consumed, so it is no longer wanted
    · rw [← Option.some.inj he] at hw
      simp [wanted, asConsumed] at hw
    · exact h _ s hs hwait n e he hw
  | @take s k types m e₀ event hs hr hm hk hn he₀ hmay =>
    have hid : (tookEvent (refreshed (consumeRows c s.id m e₀ k) (uncounted (joined s e₀.type_) e₀)) k
        types).id = s.id := by simp
    exact hset rfl rfl (fun r hne => Table.putAt_ne _ _ _ (hid ▸ hne)) fun _ => hnot (by simp [hr])
  | @offer s m e₀ hs hl he₀ hp hd hn =>
    refine hset rfl rfl (fun r hr => Table.putAt_ne _ _ _ hr) fun hi heq => ?_
    rw [heq]
    exact (min_le_right _ _).trans hnow
  | @forget s at_ hs hl =>
    refine hset rfl (run_forgetRows c s.id) (fun r hr => (forgetRows_same hr).event) fun hi heq => ?_
    obtain ⟨⟨o, -, -, hstate⟩, -⟩ := (hinv.sane _ _ hs).ended (by simp [hl])
    refine hnot ?_ heq
    change s.run.state ≠ .waiting
    rw [hstate]
    cases o <;> simp [terminalState]
  -- the end of a tree leaves no run of it waiting
  | @finish s status spent ids hs hl ht hids hmay =>
    obtain ⟨hnotin, hnodup⟩ := List.nodup_cons.mp hids.nodup
    have hends : ∀ {s : StoredRun} {o : Status}, (ending s o spent now).run.state ≠ .waiting := by
      intro s o
      cases o <;> simp [ending, terminalState]
    rw [Core.get_ended hnodup] at hs'
    split at hs'
    · obtain ⟨s₀, -, rfl⟩ := Option.map_eq_some_iff.mp hs'
      exact absurd hwait hends
    · rw [Core.get_set] at hs'
      split at hs'
      · exact hnot hends (Option.some.inj hs').symm
      · exact h i s' hs' hwait n e he hw

/-! ### Histories -/

/-- No call of the history was made after the instant. -/
def NotAfter (history : List Op) (t : Int) : Prop := ∀ op ∈ history, ∀ s, op.instant = some s → s ≤ t

theorem woken_after (env : Env) (history : List Op) {t : Int} (ht : NotAfter history t) :
    Woken t (after env history).toCore := by
  induction history using List.reverseRecOn with
  | nil => exact fun i s hs => by simp [after, runs, Rows.empty] at hs
  | append_singleton history op ih =>
    have ih := ih fun op hop => ht op (List.mem_append_left _ hop)
    rw [after_concat]
    have hσ := good_after env history
    cases hinstant : op.instant with
    | none => rw [step_core_of_instant env _ hinstant]; exact ih
    | some s =>
      have hpath := step_path env hσ op
      rw [hinstant] at hpath
      have hs : s ≤ t := ht op (by simp) s hinstant
      have hkeep := hpath.keep hσ.inv (P := fun c => Heard c ∧ Woken t c)
        (fun c c' hinv hmove h => ⟨h.1.move hinv hmove, h.2.move hinv h.1 hmove hs⟩)
        ⟨heard_after env history, ih⟩
      exact hkeep.2

/-- No wake-up is lost. In every store that a history leads to and at every instant from its last call on,
a waiting run that holds an unconsumed copy it wants is due at that instant. -/
theorem no_lost_wakeup (env : Env) (history : List Op) (t : Int)
    (ht : ∀ op ∈ history, ∀ at_, op.instant = some at_ → at_ ≤ t) (i : String) (s : StoredRun)
    (hs : (after env history).run.get i = some s) (hwait : s.run.state = .waiting) (n : Nat)
    (e : StoredEvent) (he : ((after env history).event i).get n = some e)
    (hw : wanted s e t = true) : s.run.wakeAtMs ≤ t :=
  woken_after env history ht i s hs hwait n e he hw

/-- A run listens, is parked until much later, and its event arrives. -/
def parkedThenDelivered : List Op :=
  [.start (.plain "r") 0 "o", .registerWait (.plain "r" 1) ["t"] 1,
    .takeEvent (.plain "r" 1) "k" ["t"] 2, .finish (.plain "r" 1) (.waiting 1000) 3 1,
    .deliver (.plainEvent "1" "t") none 4]

/-- A run parks without a deadline, an event it waits for is delivered, and it is due. -/
theorem parked_run_woken : ∃ s : StoredRun,
    (after .plain parkedThenDelivered).run.get "r" = some s ∧ s.run.state = .waiting ∧
      s.run.wakeAtMs ≤ 4 := by
  have hrow : ((after .plain parkedThenDelivered).run.get "r").any (fun s =>
      decide (s.run.state = .waiting) && (((after .plain parkedThenDelivered).event "r").get 0).any
        (wanted s · 4)) = true := by decide +kernel
  obtain ⟨s, hs, h⟩ := (Option.any_eq_true _ _).mp hrow
  rw [Bool.and_eq_true, decide_eq_true_eq] at h
  obtain ⟨e, he, hw⟩ := (Option.any_eq_true _ _).mp h.2
  exact ⟨s, hs, h.1, no_lost_wakeup .plain parkedThenDelivered 4 (by decide) "r" s hs h.1 0 e he hw⟩

/-! ### The counters and the copies -/

/-- What the counters and the first rows by expiry answer is what a search of all copies finds. -/
theorem pending_wanted_exact (env : Env) (history : List Op) (i : String) (s : StoredRun)
    (hs : (after env history).run.get i = some s) (now : Int) :
    pendingWanted (after env history).toCore s now = true ↔
      ∃ n e, ((after env history).event i).get n = some e ∧ wanted s e now = true := by
  have hgood := good_after env history
  obtain rfl := hgood.inv.tree.keyed i s hs
  have hmail := hgood.inv.mails.mail _ _ hs
  constructor
  · intro hw
    obtain ⟨n, e, hp, hwanted⟩ := hmail.wanted_of_pendingWanted hw
    exact ⟨n, e, hp.1, hwanted⟩
  · rintro ⟨n, e, he, hw⟩
    have hp : Pend (after env history).toCore s.id n e := by
      refine ⟨he, ?_⟩
      simp only [wanted, Bool.and_eq_true, Option.isNone_iff_eq_none] at hw
      exact hw.1.1
    exact hmail.pendingWanted hp (heard_after env history s.id s hs n e hp) hw

/-- The copy that was delivered is the one the listen wants. -/
theorem delivered_copy_wanted : ∃ s : StoredRun,
    (after .plain parkedThenDelivered).run.get "r" = some s ∧
      pendingWanted (after .plain parkedThenDelivered).toCore s 4 = true := by
  have hrow : ((after .plain parkedThenDelivered).run.get "r").any (fun s =>
      (((after .plain parkedThenDelivered).event "r").get 0).any (wanted s · 4)) = true := by
    decide +kernel
  obtain ⟨s, hs, h⟩ := (Option.any_eq_true _ _).mp hrow
  obtain ⟨e, he, hw⟩ := (Option.any_eq_true _ _).mp h
  exact ⟨s, hs, (pending_wanted_exact .plain parkedThenDelivered "r" s hs 4).mpr ⟨0, e, he, hw⟩⟩

end Ouro
