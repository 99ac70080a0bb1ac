import Ouro.Durable.Mail

/-!
# Mailboxes under moves

The mailbox invariant through the moves that take copies out of a mailbox or change them: a
consumption (`Mail.consume`), an answer offered to wildcard listens (`Mail.offer`) and the removal of
a finished run's evidence (`Vacant.forget`); and, assembled from these, through every move
(`Mails.move`).
-/

namespace Ouro

open Lib Engine

variable {env : Env} {now : Int}

/-! ### Consumption -/

section Consume

variable {c : Core} {run : String} {n : Nat} {e : StoredEvent} {k : String}

theorem consumed_event :
    (consumeRows c run n e k).event run = (c.event run).put n (asConsumed e k) := by
  change Table.putAt c.event run n _ run = _
  simp [Table.putAt]

theorem consumed_pending (t : String) :
    (consumeRows c run n e k).pending (run, t) =
      (pendingRow t n e).elim (c.pending (run, t)) fun r => (c.pending (run, t)).delete r.1 := by
  change Table.deleteAt c.pending (run, e.type_) n (run, t) = _
  by_cases ht : e.type_ = t
  · subst ht; simp [pendingRow, Table.deleteAt]
  · simp [pendingRow, ht,
      Table.deleteAt_ne _ _ (show (run, t) ≠ (run, e.type_) by simp [Ne.symm ht])]

theorem consumed_live (t : String) :
    (consumeRows c run n e k).live (run, t) =
      (liveRow t n e).elim (c.live (run, t)) fun r => (c.live (run, t)).delete r.1 := by
  change Table.deleteAt c.live (run, e.type_) (liveKey e n) (run, t) = _
  by_cases ht : e.type_ = t
  · subst ht; simp [liveRow, Table.deleteAt]
  · simp [liveRow, ht,
      Table.deleteAt_ne _ _ (show (run, t) ≠ (run, e.type_) by simp [Ne.symm ht])]

theorem consumed_published :
    (consumeRows c run n e k).published run =
      (publishedRow n e).elim (c.published run) fun r => (c.published run).delete r.1 := by
  change (if published e then Table.deleteAt c.published run n else c.published) run = _
  by_cases hp : published e = true <;> simp [publishedRow, hp, Table.deleteAt]

theorem consumed_livePublished :
    (consumeRows c run n e k).livePublished run =
      (livePublishedRow n e).elim (c.livePublished run) fun r =>
        (c.livePublished run).delete r.1 := by
  change (if published e then Table.deleteAt c.livePublished run (liveKey e n)
    else c.livePublished) run = _
  by_cases hp : published e = true <;> simp [livePublishedRow, hp, Table.deleteAt]

theorem consumed_expiry :
    (consumeRows c run n e k).expiry run =
      (expiryRow n e).elim (c.expiry run) fun r => (c.expiry run).delete r.1 := by
  change (e.expiresAtMs.elim c.expiry fun at_ =>
    Table.deleteAt c.expiry run (toLex (at_, n))) run = _
  cases hat : e.expiresAtMs <;> simp [expiryRow, hat, Table.deleteAt]

/-- A consumption leaves the mailboxes of the other runs as they are. -/
theorem consumed_same {run' : String} (h : run' ≠ run) :
    SameMail c (consumeRows c run n e k) run' where
  event := Table.putAt_ne _ _ _ h
  eventId := rfl
  eventType := rfl
  pending t := Table.deleteAt_ne _ _ (by simp [h])
  live t := Table.deleteAt_ne _ _ (by simp [h])
  published := by
    change (if Engine.published e then Table.deleteAt c.published run n else c.published) run' = _
    split
    · exact Table.deleteAt_ne _ _ h
    · rfl
  livePublished := by
    change (if Engine.published e then Table.deleteAt c.livePublished run (liveKey e n)
      else c.livePublished) run' = _
    split
    · exact Table.deleteAt_ne _ _ h
    · rfl
  expiry := by
    change (e.expiresAtMs.elim c.expiry fun at_ =>
      Table.deleteAt c.expiry run (toLex (at_, n))) run' = _
    cases e.expiresAtMs with
    | none => rfl
    | some at_ => exact Table.deleteAt_ne _ _ h

/-- Unconsumed copies after a consumption. -/
theorem pend_consumed (m : Nat) (e' : StoredEvent) :
    Pend (consumeRows c run n e k) run m e' ↔ m ≠ n ∧ Pend c run m e' := by
  unfold Pend
  rw [consumed_event, Table.get_put]
  split
  · next heq =>
    subst heq
    simp only [Option.some.injEq, ne_eq, not_true_eq_false, false_and, iff_false, not_and]
    rintro rfl
    simp [asConsumed]
  · next hne => simp [Ne.symm hne]

end Consume

/-- The counter of the consumed copy's type. -/
private theorem uncounted_pending {c : Core} {s : StoredRun} {n : Nat} {e : StoredEvent} {k : String}
    (h : Mail c s) (he : Pend c s.id n e) (t : String) :
    (uncounted s e).pending.get t =
      packed (count (consumeRows c s.id n e k) s.id s.accepted fun e => e.type_ == t)
        (count (consumeRows c s.id n e k) s.id s.accepted
          fun e => e.type_ == t && e.envelope.isSome) := by
  -- one copy less of its type, and as many of the others
  have hlt := h.event_lt n e he.1
  have hremove := fun p => count_remove (p := p) hlt he (pend_consumed (e := e) (k := k))
  have hcopies := hremove fun e => e.type_ == t
  have hcloud := hremove fun e => e.type_ == t && e.envelope.isSome
  have hold := h.counts t
  change ((s.pending.get e.type_).elim s.pending _).get t = _
  -- its type: the row is deleted with the last copy
  by_cases ht : e.type_ = t
  · subst ht
    simp only [beq_self_eq_true, Bool.true_and, Bool.toNat_true] at hcopies hcloud
    have hne : count c s.id s.accepted (fun e' => e'.type_ == e.type_) ≠ 0 := by omega
    rw [packed, if_neg hne] at hold
    rw [hold, Option.elim_some]
    simp only
    by_cases hzero : count (consumeRows c s.id n e k) s.id s.accepted
        (fun e' => e'.type_ == e.type_) = 0
    · rw [if_pos (by omega), Table.get_delete_self, packed, if_pos hzero]
    · rw [if_neg (by omega), Table.get_put_self, packed, if_neg hzero]
      congr 2
      · omega
      · omega
  -- another type
  · have hf : (e.type_ == t) = false := by simpa using ht
    simp only [hf, Bool.false_and, Bool.toNat_false, Nat.add_zero] at hcopies hcloud
    rw [hcopies, hcloud, ← hold]
    cases s.pending.get e.type_ with
    | none => rfl
    | some p =>
      simp only [Option.elim_some]
      split
      · exact Table.get_delete_ne _ ht
      · exact Table.get_put_ne _ _ ht

/-- A consumption, with the earliest expiry read again, keeps the mailbox exact. -/
theorem Mail.consume {c : Core} {s : StoredRun} {n : Nat} {e : StoredEvent} {k : String}
    (h : Mail c s) (he : Pend c s.id n e) :
    Mail (consumeRows c s.id n e k) (refreshed (consumeRows c s.id n e k) (uncounted s e)) := by
  have hlt := h.event_lt n e he.1
  -- the pending copies are those before without this one
  have hpend : ∀ m e', Pend (consumeRows c s.id n e k) s.id m e' ↔ m ≠ n ∧ Pend c s.id m e' :=
    pend_consumed
  have hfun : ∀ e', Pend c s.id n e' → e' = e := fun e' => he.unique
  exact
    { event_lt := by
        intro m e' he'
        change m < s.accepted
        rw [refreshed_id, uncounted_id, consumed_event, Table.get_put] at he'
        split at he'
        · next heq => rw [← heq]; exact hlt
        · exact h.event_lt m e' he'
      pending := fun t => by
        rw [refreshed_id, uncounted_id, consumed_pending]
        exact (h.pending t).erase (pendingRow_tagged t) hfun hpend
      live := fun t => by
        rw [refreshed_id, uncounted_id, consumed_live]
        exact (h.live t).erase (liveRow_tagged t) hfun hpend
      published := by
        rw [refreshed_id, uncounted_id, consumed_published]
        exact h.published.erase publishedRow_tagged hfun hpend
      livePublished := by
        rw [refreshed_id, uncounted_id, consumed_livePublished]
        exact h.livePublished.erase livePublishedRow_tagged hfun hpend
      expiry := by
        rw [refreshed_id, uncounted_id, consumed_expiry]
        exact h.expiry.erase expiryRow_tagged hfun hpend
      -- the rows by identity and by type are about stored copies, consumed or not
      eventId := by
        intro i m
        rw [refreshed_id, uncounted_id, consumed_event,
          Table.exists_get_put _ he.1 (w := asConsumed e k) (P := fun e => identityOf e = some i)
            Iff.rfl]
        exact h.eventId i m
      eventType := by
        intro t
        simp only [refreshed_id, uncounted_id, consumed_event,
          Table.exists_get_put _ he.1 (w := asConsumed e k) (P := fun e => e.type_ = t) Iff.rfl]
        exact h.eventType t
      counts := uncounted_pending h he
      -- one published copy less, when it was published
      publishedCount := by
        have hremove := count_remove (p := Engine.published) hlt he (pend_consumed (e := e) (k := k))
        have hold := h.publishedCount
        change s.published - _ = count _ _ s.accepted _
        rw [refreshed_id, uncounted_id]
        omega
      mailbox := rfl
      cloud := by
        intro m e' he' hnone
        rw [refreshed_id, uncounted_id, consumed_event, Table.get_put] at he'
        split at he'
        · obtain rfl := Option.some.inj he'
          exact h.cloud n e he.1 hnone
        · exact h.cloud m e' he' hnone
      notice_once := by
        intro m m' e₁ e₂ h₁ h₂
        rw [refreshed_id, uncounted_id, hpend] at h₁ h₂
        exact h.notice_once m m' e₁ e₂ h₁.2 h₂.2 }

/-! ### An answer offered to wildcard listens -/

section Offer

variable {c : Core} {run : String} {n : Nat} {e : StoredEvent}

theorem offered_event :
    (offerCopy c run n e).event run = (c.event run).put n (asPublished e) := by
  change Table.putAt c.event run n _ run = _
  simp [Table.putAt]

theorem offered_same {run' : String} (h : run' ≠ run) : SameMail c (offerCopy c run n e) run' where
  event := Table.putAt_ne _ _ _ h
  eventId := rfl
  eventType := rfl
  pending _ := rfl
  live _ := rfl
  published := Table.putAt_ne _ _ _ h
  livePublished := Table.putAt_ne _ _ _ h
  expiry := rfl

theorem pend_offered (he : Pend c run n e) (m : Nat) (e' : StoredEvent) :
    Pend (offerCopy c run n e) run m e' ↔
      m = n ∧ e' = asPublished e ∨ m ≠ n ∧ Pend c run m e' := by
  unfold Pend
  rw [offered_event, Table.get_put]
  split
  · next heq =>
    subst heq
    simp only [Option.some.injEq, true_and, ne_eq, not_true_eq_false, false_and, or_false]
    constructor
    · rintro ⟨rfl, -⟩
      rfl
    · rintro rfl
      exact ⟨rfl, he.2⟩
  · next hne => simp [Ne.symm hne]

end Offer

/-- An unconsumed delivered CloudEvent moves into the published rows. -/
theorem Mail.offer {c : Core} {s : StoredRun} {n : Nat} {e : StoredEvent} (h : Mail c s)
    (he : Pend c s.id n e) (hd : e.delivered = true) :
    Mail (offerCopy c s.id n e) (offering s now) := by
  have hlt := h.event_lt n e he.1
  -- a copy without an envelope is not delivered
  have hcloud : e.envelope.isSome = true := by
    rw [Option.isSome_iff_ne_none]
    intro hnone
    simp [(h.cloud n e he.1 hnone).1] at hd
  have hpend := pend_offered he
  have hfun : ∀ e', Pend c s.id n e' → e' = e := fun e' => he.unique
  have hpub : Engine.published (asPublished e) = true := by
    simp [Engine.published, asPublished, hcloud]
  have hnpub : Engine.published e = false := by simp [Engine.published, hd]
  -- the copy leaves the rows as `e` and comes back as published
  have hless : Lists (fun m f => m ≠ n ∧ Pend c s.id m f) publishedRow (c.published s.id) := by
    have := h.published.erase publishedRow_tagged hfun fun m f => Iff.rfl
    simpa [publishedRow, hnpub] using this
  have hlive : Lists (fun m f => m ≠ n ∧ Pend c s.id m f) livePublishedRow
      (c.livePublished s.id) := by
    have := h.livePublished.erase livePublishedRow_tagged hfun fun m f => Iff.rfl
    simpa [livePublishedRow, hnpub] using this
  -- what is counted of an unconsumed copy, its publication apart, is unchanged
  have hcount : ∀ p : StoredEvent → Bool, p (asPublished e) = p e →
      count (offerCopy c s.id n e) s.id s.accepted p = count c s.id s.accepted p := by
    intro p hpe
    unfold count
    congr 1
    refine Finset.filter_congr fun m _ => ?_
    rw [offered_event, Table.get_put]
    split
    · next heq => subst heq; rw [he.1, Option.any_some, Option.any_some, hpe]; rfl
    · rfl
  exact
    { event_lt := by
        intro m e' he'
        change m < s.accepted
        rw [offering_id, offered_event, Table.get_put] at he'
        split at he'
        · next heq => rw [← heq]; exact hlt
        · exact h.event_lt m e' he'
      pending := fun t => (h.pending t).replace (f := asPublished e) he hfun rfl hpend
      live := fun t => (h.live t).replace (f := asPublished e) he hfun rfl hpend
      published := by
        rw [offering_id]
        change Lists _ _ (Table.putAt c.published s.id n n s.id)
        have := hless.insert (e := asPublished e) publishedRow_tagged
          (fun e' hne => hne.1 rfl) hpend
        simpa [publishedRow, hpub, Table.putAt] using this
      livePublished := by
        rw [offering_id]
        change Lists _ _ (Table.putAt c.livePublished s.id (liveKey e n) n s.id)
        have hrow : livePublishedRow n (asPublished e) = some (liveKey e n, n) := by
          rw [livePublishedRow, if_pos hpub]
          rfl
        have := hlive.insert (e := asPublished e) livePublishedRow_tagged
          (fun e' hne => hne.1 rfl) hpend
        rw [hrow] at this
        simpa [Table.putAt] using this
      expiry := h.expiry.replace (f := asPublished e) he hfun rfl hpend
      -- the mark of publication is no part of identity or type
      eventId := by
        intro i m
        change (c.eventId s.id).get i = some m ↔
          ∃ e', ((offerCopy c s.id n e).event s.id).get m = some e' ∧ _
        rw [offered_event, Table.exists_get_put _ he.1 (w := asPublished e)
          (P := fun e => identityOf e = some i) Iff.rfl]
        exact h.eventId i m
      eventType := by
        intro t
        change ((c.eventType s.id).get t).isSome = true ↔
          ∃ m e', ((offerCopy c s.id n e).event s.id).get m = some e' ∧ _
        simp only [offered_event,
          Table.exists_get_put _ he.1 (w := asPublished e) (P := fun e => e.type_ = t) Iff.rfl]
        exact h.eventType t
      counts := by
        intro t
        change s.pending.get t = packed (count _ s.id s.accepted _) (count _ s.id s.accepted _)
        rw [hcount _ rfl, hcount _ rfl]
        exact h.counts t
      -- one published copy more
      publishedCount := by
        change s.published + 1 = count _ s.id s.accepted _
        rw [h.publishedCount]
        unfold count
        have hset : ((Finset.range s.accepted).filter fun m =>
            (((offerCopy c s.id n e).event s.id).get m).any fun e =>
              e.consumedKey.isNone && Engine.published e) =
            Insert.insert n ((Finset.range s.accepted).filter fun m =>
              ((c.event s.id).get m).any fun e =>
                e.consumedKey.isNone && Engine.published e) := by
          ext m
          simp only [Finset.mem_filter, Finset.mem_insert, Finset.mem_range, offered_event,
            Table.get_put]
          by_cases hnm : n = m
          · subst hnm
            have hnone : (asPublished e).consumedKey.isNone = true := by simp [asPublished, he.2]
            simp [hlt, hnone, hpub]
          · simp [hnm, Ne.symm hnm]
        rw [hset, Finset.card_insert_of_notMem]
        simp [he.1, hnpub]
      mailbox := h.mailbox
      cloud := by
        intro m e' he' hnone
        rw [offering_id, offered_event, Table.get_put] at he'
        split at he'
        · obtain rfl := Option.some.inj he'
          exact ⟨rfl, (h.cloud n e he.1 hnone).2⟩
        · exact h.cloud m e' he' hnone
      -- the copy that changed is no notice
      notice_once := by
        intro m m' e₁ e₂ h₁ h₂ hn₁ hn₂ ht
        have hnotice : ∀ {m f}, Pend (offerCopy c s.id n e) s.id m f → f.envelope = none →
            Pend c s.id m f := by
          intro m f hf hnone
          rcases (hpend m f).mp hf with ⟨rfl, rfl⟩ | ⟨-, hf⟩
          · simp only [asPublished] at hnone
            simp [hnone] at hcloud
          · exact hf
        exact h.notice_once m m' e₁ e₂ (hnotice h₁ hn₁) (hnotice h₂ hn₂) hn₁ hn₂ ht }

/-! ### Forgetting -/

section Forget

variable {run : String}

/-- A fact that forgetting a copy keeps holds once the listed copies are forgotten, if it held before
or forgetting one of them gives it. -/
private theorem forgetCopies_all {Q : Core → Prop}
    (hkeep : ∀ c n e, Q c → Q (forgetCopy c run n e)) {rows : List (Nat × StoredEvent)} {c : Core}
    (h : Q c ∨ ∃ n e, (n, e) ∈ rows ∧ ∀ c, Q (forgetCopy c run n e)) :
    Q (rows.foldl (fun c row => forgetCopy c run row.1 row.2) c) := by
  induction rows generalizing c with
  | nil => simpa using h
  | cons row rows ih =>
    refine ih ?_
    rcases h with h | ⟨n, e, hmem, hgive⟩
    · exact .inl (hkeep c row.1 row.2 h)
    · rcases List.mem_cons.mp hmem with rfl | hmem
      · exact .inl (hgive c)
      · exact .inr ⟨n, e, hmem, hgive⟩

/-- Forgetting the copies that a table's rows derive from empties it. -/
private theorem forgetCopies_empty {K V : Type} [LinearOrder K] {t : Core → Table K V}
    (hkeep : ∀ c n e k, (t c).get k = none → (t (forgetCopy c run n e)).get k = none)
    {rows : List (Nat × StoredEvent)} {c : Core}
    (h : ∀ k v, (t c).get k = some v → ∃ n e, (n, e) ∈ rows ∧
      ∀ c, (t (forgetCopy c run n e)).get k = none) :
    t (rows.foldl (fun c row => forgetCopy c run row.1 row.2) c) = .empty := by
  refine Table.ext_get fun k => ?_
  rw [Table.get_empty]
  refine forgetCopies_all (Q := fun c => (t c).get k = none) (fun c n e => hkeep c n e k) ?_
  cases hk : (t c).get k with
  | none => exact .inl rfl
  | some v => exact .inr (h k v hk)

variable {c : Core} {n : Nat} {e : StoredEvent}

theorem forgetCopy_event :
    (forgetCopy c run n e).event = Table.deleteAt c.event run n := by
  unfold forgetCopy
  split <;> rfl

theorem forgetCopy_eventId :
    (forgetCopy c run n e).eventId =
      (identityOf e).elim c.eventId fun i => Table.deleteAt c.eventId run i := by
  unfold forgetCopy
  split <;> rfl

theorem forgetCopy_eventType : (forgetCopy c run n e).eventType = c.eventType := by
  unfold forgetCopy
  split <;> rfl

theorem forgetCopy_pending :
    (forgetCopy c run n e).pending =
      if e.consumedKey.isNone then Table.deleteAt c.pending (run, e.type_) n else c.pending := by
  unfold forgetCopy
  split <;> rfl

theorem forgetCopy_live :
    (forgetCopy c run n e).live =
      if e.consumedKey.isNone then Table.deleteAt c.live (run, e.type_) (liveKey e n)
      else c.live := by
  unfold forgetCopy
  split <;> rfl

theorem forgetCopy_published :
    (forgetCopy c run n e).published =
      if e.consumedKey.isNone && Engine.published e then Table.deleteAt c.published run n
      else c.published := by
  unfold forgetCopy
  cases e.consumedKey.isNone <;> rfl

theorem forgetCopy_livePublished :
    (forgetCopy c run n e).livePublished =
      if e.consumedKey.isNone && Engine.published e then
        Table.deleteAt c.livePublished run (liveKey e n)
      else c.livePublished := by
  unfold forgetCopy
  cases e.consumedKey.isNone <;> rfl

theorem forgetCopy_expiry :
    (forgetCopy c run n e).expiry =
      if e.consumedKey.isNone then
        e.expiresAtMs.elim c.expiry fun at_ => Table.deleteAt c.expiry run (toLex (at_, n))
      else c.expiry := by
  unfold forgetCopy
  split <;> rfl

/-- A copy that is forgotten takes the routing row of its identity with it, if it is delivered. -/
theorem forgetCopy_delivered (id i : String) :
    ((forgetCopy c run n e).delivered id).get i =
      if (identityOf e = some id ∧ e.delivered = true) ∧ run = i then none
      else (c.delivered id).get i := by
  have hdelivered : (forgetCopy c run n e).delivered = (identityOf e).elim c.delivered fun id =>
      if e.delivered then Table.deleteAt c.delivered id run else c.delivered := by
    unfold forgetCopy
    split <;> rfl
  rw [hdelivered]
  cases identityOf e with
  | none => simp
  | some id' =>
    cases e.delivered with
    | false => simp
    | true => simp [Table.get_deleteAt]

/-- Forgetting a copy leaves the mailboxes of the other runs as they are. -/
theorem forgetCopy_same {run' : String} (h : run' ≠ run) :
    SameMail c (forgetCopy c run n e) run' where
  event := by rw [forgetCopy_event]; exact Table.deleteAt_ne _ _ h
  -- each table loses what the copy put there, or nothing
  eventId := by
    rw [forgetCopy_eventId]
    cases identityOf e with
    | none => rfl
    | some i => exact Table.deleteAt_ne _ _ h
  eventType := by rw [forgetCopy_eventType]
  pending t := by
    rw [forgetCopy_pending]
    split
    · exact Table.deleteAt_ne _ _ (by simp [h])
    · rfl
  live t := by
    rw [forgetCopy_live]
    split
    · exact Table.deleteAt_ne _ _ (by simp [h])
    · rfl
  published := by
    rw [forgetCopy_published]
    split
    · exact Table.deleteAt_ne _ _ h
    · rfl
  livePublished := by
    rw [forgetCopy_livePublished]
    split
    · exact Table.deleteAt_ne _ _ h
    · rfl
  expiry := by
    rw [forgetCopy_expiry]
    split
    · cases e.expiresAtMs with
      | none => rfl
      | some at_ => exact Table.deleteAt_ne _ _ h
    · rfl

theorem SameMail.trans {c c' c'' : Core} (h : SameMail c c' run) (h' : SameMail c' c'' run) :
    SameMail c c'' run :=
  ⟨h'.event.trans h.event, h'.eventId.trans h.eventId, h'.eventType.trans h.eventType,
    fun t => (h'.pending t).trans (h.pending t), fun t => (h'.live t).trans (h.live t),
    h'.published.trans h.published, h'.livePublished.trans h.livePublished,
    h'.expiry.trans h.expiry⟩

theorem forgetRows_same {run' : String} (h : run' ≠ run) : SameMail c (forgetRows c run) run' := by
  have hcopies : ∀ (rows : List (Nat × StoredEvent)) (c : Core),
      SameMail c (rows.foldl (fun c row => forgetCopy c run row.1 row.2) c) run' := by
    intro rows
    induction rows with
    | nil => exact fun c => .refl c run'
    | cons row rows ih => exact fun c => (forgetCopy_same h).trans (ih _)
  have hsame := hcopies (c.event run).rows { c with record := Function.update c.record run .empty }
  exact
    { event := hsame.event
      eventId := hsame.eventId
      eventType := (Function.update_of_ne h _ _).trans hsame.eventType
      pending := hsame.pending
      live := hsame.live
      published := hsame.published
      livePublished := hsame.livePublished
      expiry := hsame.expiry }

/-- Forgetting a run leaves the routing rows of the others. -/
theorem forgetRows_delivered_ne {i : String} (h : i ≠ run) (id : String) :
    ((forgetRows c run).delivered id).get i = (c.delivered id).get i := by
  refine forgetCopies_all (Q := fun c' => (c'.delivered id).get i = (c.delivered id).get i)
    (fun c' n e hc' => ?_) (.inl rfl)
  rw [forgetCopy_delivered, if_neg fun heq => h heq.2.symm]
  exact hc'

/-- Forgetting a run writes no routing row. -/
theorem of_forgetRows_delivered {id i r : String}
    (h : ((forgetRows c run).delivered id).get i = some r) : (c.delivered id).get i = some r := by
  have hold : ∀ r, ((forgetRows c run).delivered id).get i = some r →
      (c.delivered id).get i = some r := by
    refine forgetCopies_all (Q := fun c' => ∀ r, (c'.delivered id).get i = some r →
      (c.delivered id).get i = some r) (fun c' n e hc' r hr => ?_) (.inl fun _ hr => hr)
    rw [forgetCopy_delivered] at hr
    split at hr
    · simp at hr
    · exact hc' r hr
  exact hold r h

/-- Forgetting a run deletes the routing rows of its delivered copies. -/
theorem forgetRows_delivered {id : String} (h : (c.delivered id).get run = none ∨
    ∃ n e, (c.event run).get n = some e ∧ identityOf e = some id ∧ e.delivered = true) :
    ((forgetRows c run).delivered id).get run = none := by
  refine forgetCopies_all (Q := fun c => (c.delivered id).get run = none) (fun c n e hc => ?_)
    (h.imp (fun h => h) ?_)
  · rw [forgetCopy_delivered]
    split
    · rfl
    · exact hc
  · rintro ⟨n, e, he, hid, hd⟩
    refine ⟨n, e, (Table.mem_rows _).mpr he, fun c => ?_⟩
    rw [forgetCopy_delivered, if_pos ⟨⟨hid, hd⟩, rfl⟩]

end Forget

/-- Forgetting leaves no mailbox row of the run. -/
theorem Vacant.forget {c : Core} {s : StoredRun} (h : Mail c s) : Vacant (forgetRows c s.id) s.id := by
  -- every row is that of a copy, and is deleted with it; a table loses rows only
  have hrow : ∀ {n e}, Pend c s.id n e → (n, e) ∈ (c.event s.id).rows := fun hp =>
    (Table.mem_rows _).mpr hp.1
  have hnone : ∀ {n e}, Pend c s.id n e → e.consumedKey.isNone = true := fun hp => by simp [hp.2]
  exact
    { eventType := Function.update_self ..
      event := by
        refine forgetCopies_empty (t := fun c => c.event s.id) (fun c n e k hk => ?_)
          fun k e hk => ⟨k, e, (Table.mem_rows _).mpr hk, fun c => ?_⟩
        · rw [forgetCopy_event, Table.get_deleteAt]; simp [hk]
        · rw [forgetCopy_event, Table.get_deleteAt]; simp
      -- an identity's row is that of a copy that has it
      eventId := by
        refine forgetCopies_empty (t := fun c => c.eventId s.id) (fun c n e k hk => ?_)
          fun i n hi => ?_
        · rw [forgetCopy_eventId]
          cases identityOf e with
          | none => exact hk
          | some i => simp [Table.get_deleteAt, hk]
        · obtain ⟨e, he, hid⟩ := (h.eventId i n).mp hi
          refine ⟨n, e, (Table.mem_rows _).mpr he, fun c => ?_⟩
          rw [forgetCopy_eventId, hid]
          simp [Table.get_deleteAt]
      -- the other tables hold rows of unconsumed copies
      pending := fun t => by
        refine forgetCopies_empty (t := fun c => c.pending (s.id, t)) (fun c n e k hk => ?_)
          fun n m hn => ?_
        · rw [forgetCopy_pending]
          split
          · simp [Table.get_deleteAt, hk]
          · exact hk
        · obtain ⟨-, e, hp, ht⟩ := h.get_pending.mp hn
          refine ⟨n, e, hrow hp, fun c => ?_⟩
          rw [forgetCopy_pending, if_pos (hnone hp)]
          simp [Table.get_deleteAt, ht]
      live := fun t => by
        refine forgetCopies_empty (t := fun c => c.live (s.id, t)) (fun c n e k hk => ?_)
          fun k b hk => ?_
        · rw [forgetCopy_live]
          split
          · simp [Table.get_deleteAt, hk]
          · exact hk
        · obtain ⟨n, e, hp, ht, rfl, -⟩ := h.get_live.mp hk
          refine ⟨n, e, hrow hp, fun c => ?_⟩
          rw [forgetCopy_live, if_pos (hnone hp)]
          simp [Table.get_deleteAt, ht]
      published := by
        refine forgetCopies_empty (t := fun c => c.published s.id) (fun c n e k hk => ?_)
          fun n m hn => ?_
        · rw [forgetCopy_published]
          split
          · simp [Table.get_deleteAt, hk]
          · exact hk
        · obtain ⟨-, e, hp, hpub⟩ := h.get_published.mp hn
          refine ⟨n, e, hrow hp, fun c => ?_⟩
          rw [forgetCopy_published, if_pos (by simp [hnone hp, hpub])]
          simp [Table.get_deleteAt]
      livePublished := by
        refine forgetCopies_empty (t := fun c => c.livePublished s.id) (fun c n e k hk => ?_)
          fun k n hk => ?_
        · rw [forgetCopy_livePublished]
          split
          · simp [Table.get_deleteAt, hk]
          · exact hk
        · obtain ⟨e, hp, hpub, rfl⟩ := h.get_livePublished.mp hk
          refine ⟨n, e, hrow hp, fun c => ?_⟩
          rw [forgetCopy_livePublished, if_pos (by simp [hnone hp, hpub])]
          simp [Table.get_deleteAt]
      expiry := by
        refine forgetCopies_empty (t := fun c => c.expiry s.id) (fun c n e k hk => ?_)
          fun k v hk => ?_
        · rw [forgetCopy_expiry]
          split
          · cases e.expiresAtMs with
            | none => exact hk
            | some at_ => simp [Table.get_deleteAt, hk]
          · exact hk
        · obtain ⟨n, e, at_, hp, hat, rfl, -⟩ := h.get_expiry.mp hk
          refine ⟨n, e, hrow hp, fun c => ?_⟩
          rw [forgetCopy_expiry, if_pos (hnone hp), hat]
          simp [Table.get_deleteAt] }

end Ouro
