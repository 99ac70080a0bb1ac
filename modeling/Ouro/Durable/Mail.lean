import Ouro.Durable.Tree

/-!
# The mailbox of a run

The copies of events a run accepted are its `event` rows; everything else the store keeps about them
derives from these rows. `Mail` says so for one run: the pending, live, published, live published and
expiry tables list its unconsumed copies, the identity and type rows are those of its stored copies,
and the counters in the run row count the unconsumed copies.

A push adds one copy (`Mail.push`), a consumption takes one (`Mail.consume`), an answer offered to
wildcard listens moves one into the published rows (`Mail.offer`), and `forget` empties all of them
(`Vacant.forget`). What a move does not touch is framed by `SameMail`.
-/

namespace Ouro

open Lib Engine

variable {env : Env} {now : Int}

/-! ### Unconsumed copies -/

/-- Copy `n` of the run is stored and not consumed. -/
def Pend (c : Core) (run : String) (n : Nat) (e : StoredEvent) : Prop :=
  (c.event run).get n = some e ∧ e.consumedKey = none

theorem Pend.unique {c : Core} {run : String} {n : Nat} {e e' : StoredEvent} (h : Pend c run n e)
    (h' : Pend c run n e') : e' = e :=
  Option.some.inj (h'.1.symm.trans h.1)

/-- How many unconsumed copies below `bound` satisfy `p`. -/
def count (c : Core) (run : String) (bound : Nat) (p : StoredEvent → Bool) : Nat :=
  ((Finset.range bound).filter fun n =>
    ((c.event run).get n).any fun e => e.consumedKey.isNone && p e).card

/-- A counter as the run row keeps it: a type without copies has none. -/
def packed (copies cloud : Nat) : Option Pending :=
  if copies = 0 then none else some { copies, cloud }

/-! ### The rows of a copy -/

/-- Its row among the copies of a type. -/
def pendingRow (t : String) (n : Nat) (e : StoredEvent) : Option (Nat × Nat) :=
  if e.type_ = t then some (n, n) else none

/-- Its row among the copies of a type, by expiry. -/
def liveRow (t : String) (n : Nat) (e : StoredEvent) : Option (Expiry × Bool) :=
  if e.type_ = t then some (liveKey e n, e.envelope.isSome) else none

/-- Its row among the published copies. -/
def publishedRow (n : Nat) (e : StoredEvent) : Option (Nat × Nat) :=
  if published e then some (n, n) else none

/-- Its row among the published copies, by expiry. -/
def livePublishedRow (n : Nat) (e : StoredEvent) : Option (Expiry × Nat) :=
  if published e then some (liveKey e n, n) else none

/-- Its row among the mailbox copies, by expiry. -/
def expiryRow (n : Nat) (e : StoredEvent) : Option ((Int ×ₗ Nat) × (Int × Nat)) :=
  e.expiresAtMs.map fun at_ => (toLex (at_, n), (at_, n))

theorem pendingRow_tagged (t : String) : Tagged (pendingRow t) id := by
  intro n e k v h
  simp only [pendingRow, Option.ite_none_right_eq_some, Option.some.injEq, Prod.mk.injEq] at h
  exact h.2.1.symm

theorem liveRow_tagged (t : String) : Tagged (liveRow t) fun k => (ofLex k).2 := by
  intro n e k v h
  simp only [liveRow, Option.ite_none_right_eq_some, Option.some.injEq, Prod.mk.injEq] at h
  rw [← h.2.1]
  rfl

theorem publishedRow_tagged : Tagged publishedRow id := by
  intro n e k v h
  simp only [publishedRow, Option.ite_none_right_eq_some, Option.some.injEq, Prod.mk.injEq] at h
  exact h.2.1.symm

theorem livePublishedRow_tagged : Tagged livePublishedRow fun k => (ofLex k).2 := by
  intro n e k v h
  simp only [livePublishedRow, Option.ite_none_right_eq_some, Option.some.injEq,
    Prod.mk.injEq] at h
  rw [← h.2.1]
  rfl

theorem expiryRow_tagged : Tagged expiryRow fun k => (ofLex k).2 := by
  intro n e k v h
  simp only [expiryRow, Option.map_eq_some_iff, Prod.mk.injEq] at h
  obtain ⟨at_, -, rfl, -⟩ := h
  rfl

/-! ### The invariant -/

/-- The mailbox rows of a run are those of its stored copies. -/
structure Mail (c : Core) (s : StoredRun) : Prop where
  /-- Copies are numbered below the run's counter. -/
  event_lt : ∀ n e, (c.event s.id).get n = some e → n < s.accepted
  pending : ∀ t, Lists (Pend c s.id) (pendingRow t) (c.pending (s.id, t))
  live : ∀ t, Lists (Pend c s.id) (liveRow t) (c.live (s.id, t))
  published : Lists (Pend c s.id) publishedRow (c.published s.id)
  livePublished : Lists (Pend c s.id) livePublishedRow (c.livePublished s.id)
  expiry : Lists (Pend c s.id) expiryRow (c.expiry s.id)
  eventId : ∀ i n, (c.eventId s.id).get i = some n ↔
    ∃ e, (c.event s.id).get n = some e ∧ identityOf e = some i
  eventType : ∀ t, ((c.eventType s.id).get t).isSome = true ↔
    ∃ n e, (c.event s.id).get n = some e ∧ e.type_ = t
  /-- The counters count the unconsumed copies. -/
  counts : ∀ t, s.pending.get t = packed (count c s.id s.accepted fun e => e.type_ == t)
    (count c s.id s.accepted fun e => e.type_ == t && e.envelope.isSome)
  publishedCount : s.published = count c s.id s.accepted Engine.published
  mailbox : s.mailbox = earliest c s.id
  /-- Only a CloudEvent is delivered, and only a CloudEvent expires. -/
  cloud : ∀ n e, (c.event s.id).get n = some e → e.envelope = none →
    e.delivered = false ∧ e.expiresAtMs = none
  /-- A type has at most one unconsumed notice. -/
  notice_once : ∀ n n' e e', Pend c s.id n e → Pend c s.id n' e' → e.envelope = none →
    e'.envelope = none → e.type_ = e'.type_ → n = n'

/-- The run has no mailbox rows at all. -/
structure Vacant (c : Core) (run : String) : Prop where
  event : c.event run = .empty
  eventId : c.eventId run = .empty
  eventType : c.eventType run = .empty
  pending : ∀ t, c.pending (run, t) = .empty
  live : ∀ t, c.live (run, t) = .empty
  published : c.published run = .empty
  livePublished : c.livePublished run = .empty
  expiry : c.expiry run = .empty

/-- Two states have the same mailbox rows for a run. -/
structure SameMail (c c' : Core) (run : String) : Prop where
  event : c'.event run = c.event run
  eventId : c'.eventId run = c.eventId run
  eventType : c'.eventType run = c.eventType run
  pending : ∀ t, c'.pending (run, t) = c.pending (run, t)
  live : ∀ t, c'.live (run, t) = c.live (run, t)
  published : c'.published run = c.published run
  livePublished : c'.livePublished run = c.livePublished run
  expiry : c'.expiry run = c.expiry run

theorem SameMail.refl (c : Core) (run : String) : SameMail c c run :=
  ⟨rfl, rfl, rfl, fun _ => rfl, fun _ => rfl, rfl, rfl, rfl⟩

/-- Moves that write only run rows, records or budgets keep every mailbox row. -/
theorem SameMail.of_eq {c c' : Core} (run : String) (hevent : c'.event = c.event)
    (heventId : c'.eventId = c.eventId) (heventType : c'.eventType = c.eventType)
    (hpending : c'.pending = c.pending) (hlive : c'.live = c.live)
    (hpublished : c'.published = c.published) (hlp : c'.livePublished = c.livePublished)
    (hexpiry : c'.expiry = c.expiry) : SameMail c c' run :=
  ⟨by rw [hevent], by rw [heventId], by rw [heventType], by simp [hpending], by simp [hlive],
    by rw [hpublished], by rw [hlp], by rw [hexpiry]⟩

theorem Vacant.of_same {c c' : Core} {run : String} (h : Vacant c run) (hsame : SameMail c c' run) :
    Vacant c' run :=
  ⟨hsame.event.trans h.event, hsame.eventId.trans h.eventId, hsame.eventType.trans h.eventType,
    fun t => (hsame.pending t).trans (h.pending t), fun t => (hsame.live t).trans (h.live t),
    hsame.published.trans h.published, hsame.livePublished.trans h.livePublished,
    hsame.expiry.trans h.expiry⟩

/-- The row fields a mailbox is counted in. -/
structure SameCounters (s s' : StoredRun) : Prop where
  id : s'.id = s.id
  accepted : s'.accepted = s.accepted
  pending : s'.pending = s.pending
  published : s'.published = s.published
  mailbox : s'.mailbox = s.mailbox

theorem SameCounters.refl (s : StoredRun) : SameCounters s s := ⟨rfl, rfl, rfl, rfl, rfl⟩

theorem Mail.congr {c c' : Core} {s s' : StoredRun} (h : Mail c s) (hsame : SameMail c c' s.id)
    (hrow : SameCounters s s') : Mail c' s' := by
  have hpend : Pend c' s.id = Pend c s.id := by
    funext n e
    unfold Pend; rw [hsame.event]
  have hcount : ∀ bound p, count c' s.id bound p = count c s.id bound p := fun bound p => by
    unfold count; rw [hsame.event]
  exact
    { event_lt := by rw [hrow.id, hrow.accepted, hsame.event]; exact h.event_lt
      pending := by simp only [hrow.id, hsame.pending, hpend]; exact h.pending
      live := by simp only [hrow.id, hsame.live, hpend]; exact h.live
      published := by rw [hrow.id, hsame.published, hpend]; exact h.published
      livePublished := by rw [hrow.id, hsame.livePublished, hpend]; exact h.livePublished
      expiry := by rw [hrow.id, hsame.expiry, hpend]; exact h.expiry
      eventId := by rw [hrow.id, hsame.eventId, hsame.event]; exact h.eventId
      eventType := by rw [hrow.id, hsame.eventType, hsame.event]; exact h.eventType
      counts := by simp only [hrow.id, hrow.accepted, hrow.pending, hcount]; exact h.counts
      publishedCount := by
        rw [hrow.id, hrow.accepted, hrow.published, hcount]; exact h.publishedCount
      mailbox := by
        rw [hrow.mailbox, h.mailbox, hrow.id]
        unfold earliest
        rw [hsame.expiry]
      cloud := by rw [hrow.id, hsame.event]; exact h.cloud
      notice_once := by rw [hrow.id, hpend]; exact h.notice_once }

/-- A run without mailbox rows and with empty counters. -/
theorem Mail.of_vacant {c : Core} {s : StoredRun} (h : Vacant c s.id) (hpending : s.pending = .empty)
    (hpublished : s.published = 0) (hmailbox : s.mailbox = none) : Mail c s := by
  have hpend : ∀ n e, ¬Pend c s.id n e := fun n e hp => by
    simp [Pend, h.event] at hp
  have hcount : ∀ bound p, count c s.id bound p = 0 := fun bound p => by
    simp [count, h.event]
  exact
    { event_lt := by simp [h.event]
      pending := fun t => by rw [h.pending]; exact .empty hpend
      live := fun t => by rw [h.live]; exact .empty hpend
      published := by rw [h.published]; exact .empty hpend
      livePublished := by rw [h.livePublished]; exact .empty hpend
      expiry := by rw [h.expiry]; exact .empty hpend
      eventId := by simp [h.eventId, h.event]
      eventType := by simp [h.eventType, h.event]
      counts := by simp [hpending, hcount, packed]
      publishedCount := by rw [hpublished, hcount]
      mailbox := by
        rw [hmailbox]
        simp only [earliest, h.expiry]
        rcases (Table.empty : Table (Int ×ₗ Nat) (Int × Nat)).scan_one Table.all with
          ⟨hnil, -⟩ | ⟨k, v, -, hget, -⟩
        · rw [hnil]; rfl
        · simp at hget
      cloud := by simp [h.event]
      notice_once := fun n n' e e' hp => absurd hp (hpend n e) }

/-! ### Reading the tables -/

namespace Mail

variable {c : Core} {s : StoredRun}

theorem get_pending (h : Mail c s) {t : String} {n m : Nat} :
    (c.pending (s.id, t)).get n = some m ↔ m = n ∧ ∃ e, Pend c s.id n e ∧ e.type_ = t := by
  rw [h.pending t]
  simp only [pendingRow, Option.ite_none_right_eq_some, Option.some.injEq, Prod.mk.injEq]
  constructor
  · rintro ⟨n', e, hp, ht, rfl, rfl⟩
    exact ⟨rfl, e, hp, ht⟩
  · rintro ⟨rfl, e, hp, ht⟩
    exact ⟨_, e, hp, ht, rfl, rfl⟩

theorem get_published (h : Mail c s) {n m : Nat} :
    (c.published s.id).get n = some m ↔ m = n ∧ ∃ e, Pend c s.id n e ∧ Engine.published e = true := by
  rw [h.published]
  simp only [publishedRow, Option.ite_none_right_eq_some, Option.some.injEq, Prod.mk.injEq]
  constructor
  · rintro ⟨n', e, hp, ht, rfl, rfl⟩
    exact ⟨rfl, e, hp, ht⟩
  · rintro ⟨rfl, e, hp, ht⟩
    exact ⟨_, e, hp, ht, rfl, rfl⟩

theorem get_live (h : Mail c s) {t : String} {k : Expiry} {b : Bool} :
    (c.live (s.id, t)).get k = some b ↔
      ∃ n e, Pend c s.id n e ∧ e.type_ = t ∧ k = liveKey e n ∧ b = e.envelope.isSome := by
  rw [h.live t]
  simp only [liveRow, Option.ite_none_right_eq_some, Option.some.injEq, Prod.mk.injEq]
  constructor
  · rintro ⟨n, e, hp, ht, rfl, rfl⟩
    exact ⟨n, e, hp, ht, rfl, rfl⟩
  · rintro ⟨n, e, hp, ht, rfl, rfl⟩
    exact ⟨n, e, hp, ht, rfl, rfl⟩

theorem get_livePublished (h : Mail c s) {k : Expiry} {m : Nat} :
    (c.livePublished s.id).get k = some m ↔
      ∃ e, Pend c s.id m e ∧ Engine.published e = true ∧ k = liveKey e m := by
  rw [h.livePublished]
  simp only [livePublishedRow, Option.ite_none_right_eq_some, Option.some.injEq, Prod.mk.injEq]
  constructor
  · rintro ⟨n, e, hp, ht, rfl, rfl⟩
    exact ⟨e, hp, ht, rfl⟩
  · rintro ⟨e, hp, ht, rfl⟩
    exact ⟨_, e, hp, ht, rfl, rfl⟩

theorem get_expiry (h : Mail c s) {k : Int ×ₗ Nat} {v : Int × Nat} :
    (c.expiry s.id).get k = some v ↔
      ∃ n e at_, Pend c s.id n e ∧ e.expiresAtMs = some at_ ∧ k = toLex (at_, n) ∧
        v = (at_, n) := by
  rw [h.expiry]
  simp only [expiryRow, Option.map_eq_some_iff, Prod.mk.injEq]
  constructor
  · rintro ⟨n, e, hp, at_, hat, rfl, rfl⟩
    exact ⟨n, e, at_, hp, hat, rfl, rfl⟩
  · rintro ⟨n, e, at_, hp, hat, rfl, rfl⟩
    exact ⟨n, e, hp, at_, hat, rfl, rfl⟩

end Mail

/-! ### Counting -/

theorem count_congr {c c' : Core} {run : String} {bound : Nat} {p : StoredEvent → Bool}
    (h : ∀ n < bound, ∀ e, Pend c' run n e ↔ Pend c run n e) :
    count c' run bound p = count c run bound p := by
  unfold count
  congr 1
  refine Finset.filter_congr fun n hn => ?_
  have h := h n (Finset.mem_range.mp hn)
  simp only [Option.any_eq_true, Bool.and_eq_true, Option.isNone_iff_eq_none]
  constructor
  · rintro ⟨e, he, hc, hp⟩
    obtain ⟨he', hc'⟩ := (h e).mp ⟨he, hc⟩
    exact ⟨e, he', hc', hp⟩
  · rintro ⟨e, he, hc, hp⟩
    obtain ⟨he', hc'⟩ := (h e).mpr ⟨he, hc⟩
    exact ⟨e, he', hc', hp⟩

theorem count_succ (c : Core) (run : String) (n : Nat) (p : StoredEvent → Bool) :
    count c run (n + 1) p = count c run n p +
      (((c.event run).get n).any fun e => e.consumedKey.isNone && p e).toNat := by
  unfold count
  rw [Finset.range_add_one, Finset.filter_insert]
  split
  · next hn => rw [Finset.card_insert_of_notMem (by simp), hn]; rfl
  · next hn => rw [Bool.not_eq_true] at hn; rw [hn]; rfl

/-- One copy less. -/
theorem count_remove {c c' : Core} {run : String} {bound n : Nat} {e : StoredEvent}
    (hn : n < bound) (he : Pend c run n e)
    (h : ∀ m e', Pend c' run m e' ↔ m ≠ n ∧ Pend c run m e') (p : StoredEvent → Bool) :
    count c' run bound p + (p e).toNat = count c run bound p := by
  -- the pending copies that are counted, without the one
  have hset : ((Finset.range bound).filter fun m =>
      ((c'.event run).get m).any fun e => e.consumedKey.isNone && p e) =
      ((Finset.range bound).filter fun m =>
        ((c.event run).get m).any fun e => e.consumedKey.isNone && p e).erase n := by
    ext m
    simp only [Finset.mem_filter, Finset.mem_erase, Option.any_eq_true, Bool.and_eq_true,
      Option.isNone_iff_eq_none]
    constructor
    · rintro ⟨hm, e', he', hc', hp'⟩
      obtain ⟨hne, he'', hc''⟩ := (h m e').mp ⟨he', hc'⟩
      exact ⟨hne, hm, e', he'', hc'', hp'⟩
    · rintro ⟨hne, hm, e', he', hc', hp'⟩
      obtain ⟨he'', hc''⟩ := (h m e').mpr ⟨hne, he', hc'⟩
      exact ⟨hm, e', he'', hc'', hp'⟩
  unfold count
  rw [hset]
  -- the copy was counted, or it was not
  cases hp : p e with
  | true =>
    refine Finset.card_erase_add_one ?_
    simp only [Finset.mem_filter, Finset.mem_range, Option.any_eq_true, Bool.and_eq_true,
      Option.isNone_iff_eq_none]
    exact ⟨hn, e, he.1, he.2, hp⟩
  | false =>
    rw [Finset.erase_eq_of_notMem]
    · rfl
    · simp only [Finset.mem_filter, Option.any_eq_true, not_and, Bool.and_eq_true, not_exists]
      rintro - e' he'
      obtain rfl : e = e' := Option.some.inj (he.1.symm.trans he')
      simp [hp]

theorem count_pos_iff {c : Core} {run : String} {bound : Nat} {p : StoredEvent → Bool} :
    0 < count c run bound p ↔ ∃ n < bound, ∃ e, Pend c run n e ∧ p e = true := by
  unfold count
  rw [Finset.card_pos]
  simp only [Finset.Nonempty, Finset.mem_filter, Finset.mem_range, Option.any_eq_true,
    Bool.and_eq_true, Option.isNone_iff_eq_none, Pend]
  constructor
  · rintro ⟨n, hn, e, he, hc, hp⟩
    exact ⟨n, hn, e, ⟨he, hc⟩, hp⟩
  · rintro ⟨n, hn, e, ⟨he, hc⟩, hp⟩
    exact ⟨n, hn, e, he, hc, hp⟩

/-- A type has a counter exactly when it has an unconsumed copy. -/
theorem Mail.contains_pending {c : Core} {s : StoredRun} (h : Mail c s) {t : String} :
    s.pending.contains t = true ↔ ∃ n e, Pend c s.id n e ∧ e.type_ = t := by
  unfold Table.contains
  rw [h.counts t, packed]
  have hpos : 0 < count c s.id s.accepted (fun e => e.type_ == t) ↔
      ∃ n < s.accepted, ∃ e, Pend c s.id n e ∧ (e.type_ == t) = true := count_pos_iff
  constructor
  · intro hsome
    have hne : count c s.id s.accepted (fun e => e.type_ == t) ≠ 0 := by
      intro h0
      simp [h0] at hsome
    obtain ⟨n, -, e, hp, ht⟩ := hpos.mp (Nat.pos_of_ne_zero hne)
    exact ⟨n, e, hp, by simpa using ht⟩
  · rintro ⟨n, e, hp, ht⟩
    have := hpos.mpr ⟨n, h.event_lt n e hp.1, e, hp, by simpa using ht⟩
    simp [Nat.pos_iff_ne_zero.mp this]

/-! ### The earliest expiry -/

/-- The instants at which unconsumed copies of a run expire. -/
def expiries (c : Core) (run : String) : Set Int :=
  {at_ | ∃ n e, Pend c run n e ∧ e.expiresAtMs = some at_}

theorem least_earliest {c : Core} {run : String}
    (h : Lists (Pend c run) expiryRow (c.expiry run)) :
    Table.Least (expiries c run) (earliest c run) := by
  have hrow : ∀ {n e at_}, Pend c run n e → e.expiresAtMs = some at_ →
      (c.expiry run).get (toLex (at_, n)) = some (at_, n) := fun hp hat =>
    (h _ _).mpr ⟨_, _, hp, by simp [expiryRow, hat]⟩
  unfold earliest
  rcases (c.expiry run).scan_one Table.all with ⟨hnil, hnone⟩ | ⟨k, v, hone, hget, -, hleast⟩
  · rw [hnil]
    refine Set.eq_empty_of_forall_notMem ?_
    rintro at_ ⟨n, e, hp, hat⟩
    have := hnone _ _ (hrow hp hat)
    simp [Table.all] at this
  · rw [hone]
    obtain ⟨n, e, hp, hr⟩ := (h k v).mp hget
    simp only [expiryRow, Option.map_eq_some_iff, Prod.mk.injEq] at hr
    obtain ⟨at_, hat, rfl, rfl⟩ := hr
    refine ⟨⟨n, e, hp, hat⟩, ?_⟩
    rintro at' ⟨n', e', hp', hat'⟩
    rcases Prod.Lex.le_iff.mp (hleast _ _ (hrow hp' hat') rfl) with hlt | ⟨heq, -⟩
    · exact le_of_lt hlt
    · exact le_of_eq heq

theorem Mail.least_mailbox {c : Core} {s : StoredRun} (h : Mail c s) :
    Table.Least (expiries c s.id) s.mailbox := by
  rw [h.mailbox]
  exact least_earliest h.expiry

/-- Nothing of the mailbox has expired while its earliest expiry is ahead. -/
theorem Mail.unexpired {c : Core} {s : StoredRun} (h : Mail c s)
    (hm : s.mailbox.all (fun at_ => decide (now < at_)) = true) {n : Nat} {e : StoredEvent}
    (he : Pend c s.id n e) : expired e now = false := by
  unfold expired
  cases hat : e.expiresAtMs with
  | none => rfl
  | some at_ =>
    have hleast := h.least_mailbox
    have hmem : at_ ∈ expiries c s.id := ⟨n, e, he, hat⟩
    cases hbox : s.mailbox with
    | none =>
      rw [hbox] at hleast
      exact absurd (hleast ▸ hmem) (Set.notMem_empty at_)
    | some a =>
      rw [hbox] at hleast hm
      have hle := hleast.2 hmem
      simp only [Option.all_some, decide_eq_true_eq] at hm
      simpa using lt_of_lt_of_le hm hle

/-! ### A new copy -/

/-- The rows after a new copy is stored. -/
def pushed (c : Core) (run : String) (n : Nat) (e : StoredEvent) : Core :=
  putPendingRows (putCopy c run n e) run n e

section Push

variable {c : Core} {run : String} {n : Nat} {e : StoredEvent}

theorem pushed_event (m : Nat) :
    ((pushed c run n e).event run).get m = if n = m then some e else (c.event run).get m := by
  change (Table.putAt c.event run n e run).get m = _
  rw [Table.get_putAt]
  simp

theorem pushed_pending (t : String) :
    (pushed c run n e).pending (run, t) =
      (pendingRow t n e).elim (c.pending (run, t)) fun r => (c.pending (run, t)).put r.1 r.2 := by
  change Table.putAt c.pending (run, e.type_) n n (run, t) = _
  by_cases ht : e.type_ = t
  · subst ht; simp [pendingRow, Table.putAt]
  · simp [pendingRow, ht, Table.putAt_ne _ _ _ (show (run, t) ≠ (run, e.type_) by simp [Ne.symm ht])]

theorem pushed_live (t : String) :
    (pushed c run n e).live (run, t) =
      (liveRow t n e).elim (c.live (run, t)) fun r => (c.live (run, t)).put r.1 r.2 := by
  change Table.putAt c.live (run, e.type_) (liveKey e n) e.envelope.isSome (run, t) = _
  by_cases ht : e.type_ = t
  · subst ht; simp [liveRow, Table.putAt]
  · simp [liveRow, ht, Table.putAt_ne _ _ _ (show (run, t) ≠ (run, e.type_) by simp [Ne.symm ht])]

theorem pushed_published :
    (pushed c run n e).published run =
      (publishedRow n e).elim (c.published run) fun r => (c.published run).put r.1 r.2 := by
  change (if published e then Table.putAt c.published run n n else c.published) run = _
  by_cases hp : published e = true <;> simp [publishedRow, hp, Table.putAt]

theorem pushed_livePublished :
    (pushed c run n e).livePublished run =
      (livePublishedRow n e).elim (c.livePublished run) fun r =>
        (c.livePublished run).put r.1 r.2 := by
  change (if published e then Table.putAt c.livePublished run (liveKey e n) n
    else c.livePublished) run = _
  by_cases hp : published e = true <;> simp [livePublishedRow, hp, Table.putAt]

theorem pushed_expiry :
    (pushed c run n e).expiry run =
      (expiryRow n e).elim (c.expiry run) fun r => (c.expiry run).put r.1 r.2 := by
  change (e.expiresAtMs.elim c.expiry fun at_ =>
    Table.putAt c.expiry run (toLex (at_, n)) (at_, n)) run = _
  cases hat : e.expiresAtMs <;> simp [expiryRow, hat, Table.putAt]

theorem pushed_eventId :
    (pushed c run n e).eventId run =
      (identityOf e).elim (c.eventId run) fun i => (c.eventId run).put i n := by
  change ((identityOf e).elim c.eventId fun i => Table.putAt c.eventId run i n) run = _
  cases hi : identityOf e <;> simp [Table.putAt]

theorem pushed_eventType (t : String) :
    (((pushed c run n e).eventType run).get t).isSome =
      (((c.eventType run).get t).isSome || decide (e.type_ = t)) := by
  change ((((if ((c.eventType run).get e.type_).isNone then Table.putAt c.eventType run e.type_ n
    else c.eventType) run).get t).isSome) = _
  split
  · simp only [Table.putAt, Function.update_self, Table.get_put]
    by_cases ht : e.type_ = t <;> simp [ht]
  · next hsome =>
    by_cases ht : e.type_ = t
    · subst ht
      simpa [Option.isSome_iff_ne_none] using hsome
    · simp [ht]

/-- A push leaves the mailboxes of the other runs as they are. -/
theorem pushed_same {run' : String} (h : run' ≠ run) : SameMail c (pushed c run n e) run' where
  event := Table.putAt_ne _ _ _ h
  eventId := by
    -- each table is put under `run`, or not at all
    change ((identityOf e).elim c.eventId fun i => Table.putAt c.eventId run i n) run' = _
    cases identityOf e with
    | none => rfl
    | some i => exact Table.putAt_ne _ _ _ h
  eventType := by
    change (if _ then Table.putAt c.eventType run e.type_ n else c.eventType) run' = _
    split
    · exact Table.putAt_ne _ _ _ h
    · rfl
  pending t := Table.putAt_ne _ _ _ (by simp [h])
  live t := Table.putAt_ne _ _ _ (by simp [h])
  published := by
    change (if Engine.published e then Table.putAt c.published run n n else c.published) run' = _
    split
    · exact Table.putAt_ne _ _ _ h
    · rfl
  livePublished := by
    change (if Engine.published e then Table.putAt c.livePublished run (liveKey e n) n
      else c.livePublished) run' = _
    split
    · exact Table.putAt_ne _ _ _ h
    · rfl
  expiry := by
    change (e.expiresAtMs.elim c.expiry fun at_ =>
      Table.putAt c.expiry run (toLex (at_, n)) (at_, n)) run' = _
    cases e.expiresAtMs with
    | none => rfl
    | some at_ => exact Table.putAt_ne _ _ _ h

/-- Unconsumed copies after a push. -/
theorem pend_pushed (hn : (c.event run).get n = none) (hp : e.consumedKey = none) (m : Nat)
    (e' : StoredEvent) :
    Pend (pushed c run n e) run m e' ↔ m = n ∧ e' = e ∨ Pend c run m e' := by
  unfold Pend
  rw [pushed_event]
  split
  · next heq =>
    subst heq
    simp only [Option.some.injEq, true_and]
    constructor
    · rintro ⟨rfl, -⟩
      exact .inl rfl
    · rintro (rfl | ⟨he', -⟩)
      · exact ⟨rfl, hp⟩
      · simp [hn] at he'
  · next hne =>
    simp [Ne.symm hne]

theorem count_pushed (hn : (c.event run).get n = none) (hp : e.consumedKey = none)
    (p : StoredEvent → Bool) :
    count (pushed c run n e) run (n + 1) p = count c run n p + (p e).toNat := by
  rw [count_succ, pushed_event, if_pos rfl]
  simp only [Option.any_some, hp, Option.isNone_none, Bool.true_and, Nat.add_right_cancel_iff]
  refine count_congr fun m hm e' => ?_
  rw [pend_pushed hn hp]
  constructor
  · rintro (⟨rfl, rfl⟩ | hpend)
    · exact absurd hm (lt_irrefl _)
    · exact hpend
  · exact .inr

end Push

/-- A push keeps the mailbox exact. -/
theorem Mail.push {c : Core} {s : StoredRun} {e : StoredEvent} (h : Mail c s)
    (hp : e.consumedKey = none)
    (hi : ∀ i, identityOf e = some i → (c.eventId s.id).get i = none)
    (hcloud : e.envelope = none → e.delivered = false ∧ e.expiresAtMs = none)
    (honce : e.envelope = none → s.pending.contains e.type_ = false) :
    Mail (pushed c s.id s.accepted e) (counted s e) := by
  -- the new number is free: numbers are counted up
  have hn : (c.event s.id).get s.accepted = none := by
    by_contra hne
    obtain ⟨e', he'⟩ := Option.ne_none_iff_exists'.mp hne
    exact lt_irrefl _ (h.event_lt _ _ he')
  have hnp : ∀ e', ¬Pend c s.id s.accepted e' := fun e' hp' => by simp [Pend, hn] at hp'
  -- the pending copies after the push are those before and this one
  have hpend : ∀ m e', Pend (pushed c s.id s.accepted e) s.id m e' ↔
      m = s.accepted ∧ e' = e ∨ Pend c s.id m e' := pend_pushed hn hp
  -- and its expiry row is put when it has a deadline
  have hexpiry : Lists (Pend (pushed c s.id s.accepted e) s.id) expiryRow
      ((pushed c s.id s.accepted e).expiry s.id) := by
    rw [pushed_expiry]; exact h.expiry.insert expiryRow_tagged hnp hpend
  exact
    { event_lt := by
        intro m e' he'
        change m < s.accepted + 1
        rw [counted_id, pushed_event] at he'
        split at he'
        · omega
        · exact Nat.lt_succ_of_lt (h.event_lt m e' he')
      pending := fun t => by
        rw [counted_id, pushed_pending]; exact (h.pending t).insert (pendingRow_tagged t) hnp hpend
      live := fun t => by
        rw [counted_id, pushed_live]; exact (h.live t).insert (liveRow_tagged t) hnp hpend
      published := by
        rw [counted_id, pushed_published]; exact h.published.insert publishedRow_tagged hnp hpend
      livePublished := by
        rw [counted_id, pushed_livePublished]
        exact h.livePublished.insert livePublishedRow_tagged hnp hpend
      expiry := hexpiry
      -- its identity is new, so the row that is put replaces none
      eventId := by
        intro i m
        rw [counted_id, pushed_eventId]
        simp only [pushed_event]
        -- an event without an identity writes no row
        cases hid : identityOf e with
        | none =>
          rw [Option.elim_none, h.eventId]
          refine exists_congr fun e' => ?_
          split
          · next heq => subst heq; simp [hn]; rintro rfl; simp [hid]
          · rfl
        -- an event with one: its own row, and those of the others
        | some j =>
          rw [Option.elim_some, Table.get_put]
          split
          · next heq =>
            subst heq
            constructor
            · intro hm
              obtain rfl := Option.some.inj hm
              exact ⟨e, by simp, hid⟩
            · rintro ⟨e', he', hid'⟩
              split at he'
              · next heq => rw [heq]
              · next hne =>
                have := (h.eventId j m).mpr ⟨e', he', hid'⟩
                simp [hi j hid] at this
          · next hne =>
            rw [h.eventId]
            refine exists_congr fun e' => ?_
            split
            · next heq =>
              subst heq
              simp only [hn, reduceCtorEq, false_and, Option.some.injEq, false_iff, not_and]
              rintro rfl hid'
              exact hne (Option.some.inj (hid.symm.trans hid'))
            · rfl
      -- a type has a row when a copy of it was ever stored
      eventType := by
        intro t
        rw [counted_id, pushed_eventType, Bool.or_eq_true, h.eventType, decide_eq_true_eq]
        simp only [pushed_event]
        constructor
        · rintro (⟨m, e', he', ht⟩ | ht)
          · refine ⟨m, e', ?_, ht⟩
            rw [if_neg]
            · exact he'
            · rintro rfl; simp [hn] at he'
          · exact ⟨s.accepted, e, by simp, ht⟩
        · rintro ⟨m, e', he', ht⟩
          split at he'
          · exact .inr (by rw [Option.some.inj he', ht])
          · exact .inl ⟨m, e', he', ht⟩
      -- one more copy of its type
      counts := by
        intro t
        change ((s.pending.put e.type_ _).get t) = packed (count _ _ (s.accepted + 1) _)
          (count _ _ (s.accepted + 1) _)
        rw [counted_id, count_pushed hn hp, count_pushed hn hp, Table.get_put]
        have hold := h.counts t
        split
        · next heq =>
          subst heq
          -- the type's counter before, read from the row or zero
          have hp' : (s.pending.get e.type_).getD { copies := 0, cloud := 0 } =
              { copies := count c s.id s.accepted fun e' => e'.type_ == e.type_
                cloud := count c s.id s.accepted fun e' =>
                  e'.type_ == e.type_ && e'.envelope.isSome } := by
            rw [hold, packed]
            split
            · next hzero =>
              have hle : (count c s.id s.accepted fun e' =>
                  e'.type_ == e.type_ && e'.envelope.isSome) = 0 := by
                by_contra hne
                obtain ⟨m, hm, e', hpe, hpt⟩ := count_pos_iff.mp (Nat.pos_of_ne_zero hne)
                have := count_pos_iff (p := fun e' => e'.type_ == e.type_) |>.mpr
                  ⟨m, hm, e', hpe, (Bool.and_eq_true_iff.mp hpt).1⟩
                omega
              simp [hzero, hle]
            · rfl
          rw [hp']
          simp [packed]
        -- another type
        · next hne =>
          have hf : (e.type_ == t) = false := by simpa using hne
          simp [hf, hold]
      publishedCount := by
        change s.published + _ = count _ _ (s.accepted + 1) _
        rw [counted_id, count_pushed hn hp, h.publishedCount]
      -- the mailbox's next expiry is the least of the old ones and the new one
      mailbox := by
        have hleast := least_earliest hexpiry
        have hset : expiries (pushed c s.id s.accepted e) s.id =
            {at_ | e.expiresAtMs = some at_} ∪ expiries c s.id := by
          ext at_
          simp only [expiries, Set.mem_ofPred_eq, Set.mem_union, hpend]
          constructor
          · rintro ⟨m, e', ⟨rfl, rfl⟩ | hm, hat⟩
            · exact .inl hat
            · exact .inr ⟨m, e', hm, hat⟩
          · rintro (hat | ⟨m, e', hm, hat⟩)
            · exact ⟨_, e, .inl ⟨rfl, rfl⟩, hat⟩
            · exact ⟨m, e', .inr hm, hat⟩
        refine Table.Least.unique ?_ hleast
        rw [hset]
        change Table.Least _ (e.expiresAtMs.elim s.mailbox fun at_ =>
          some (s.mailbox.elim at_ (min · at_)))
        cases hat : e.expiresAtMs with
        | none => simpa using h.least_mailbox
        | some at_ =>
          have hone : {a | some at_ = some a} = ({at_} : Set Int) := by
            ext a
            simp [eq_comm]
          rw [hone, Set.singleton_union]
          exact h.least_mailbox.insert at_
      cloud := by
        intro m e' he' hnone
        rw [counted_id, pushed_event] at he'
        split at he'
        · obtain rfl := Option.some.inj he'
          exact hcloud hnone
        · exact h.cloud m e' he' hnone
      notice_once := by
        intro m m' e₁ e₂ h₁ h₂ hn₁ hn₂ ht
        rw [counted_id, hpend] at h₁ h₂
        -- a new notice finds no unconsumed copy of its type
        have hfresh : ∀ {m e'}, e.envelope = none → Pend c s.id m e' → e'.type_ ≠ e.type_ := by
          intro m e' hnone hp' ht'
          have := h.contains_pending.mpr ⟨m, e', hp', ht'⟩
          simp [honce hnone] at this
        rcases h₁ with ⟨rfl, rfl⟩ | h₁ <;> rcases h₂ with ⟨rfl, rfl⟩ | h₂
        · rfl
        · exact absurd ht.symm (hfresh hn₁ h₂)
        · exact absurd ht (hfresh hn₂ h₁)
        · exact h.notice_once m m' e₁ e₂ h₁ h₂ hn₁ hn₂ ht }

end Ouro
