import Ouro.Durable.Routing

/-!
# What is stored of a run's evidence

A run's evidence is its journal and the copies of events it accepted. The row of a run says whether
there is any (`Evidenced`), the sweep of an ended run leaves none (`sweep_bare`), and until then the
rows and counters kept about the copies are exact (`mailbox_exact`).
-/

namespace Ouro

open Lib Engine Tx

variable {env : Env} {now : Int} {may : String → Act → Prop}

/-! ### Runs that are marked -/

/-- Nothing of a run's evidence is stored: no record, no copy and no row of a copy. -/
structure Bare (c : Core) (i : String) : Prop extends Vacant c i where
  record : c.record i = .empty

/-- A run with records or copies is marked to have them. -/
structure Evidenced (c : Core) : Prop where
  marked : ∀ i s, c.run.get i = some s → s.evidence = false →
    c.event i = .empty ∧ c.record i = .empty
  absent : ∀ i, c.run.get i = none → c.record i = .empty

theorem Evidenced.empty : Evidenced Rows.empty.toCore where
  marked i s h := by simp [Rows.empty] at h
  absent i _ := rfl

/-- A mailbox without copies has no rows. -/
theorem Mail.vacant {c : Core} {s : StoredRun} (h : Mail c s) (hempty : c.event s.id = .empty) :
    Vacant c s.id := by
  have hpend : ∀ n e, ¬Pend c s.id n e := by
    intro n e hp
    have := hp.1
    simp [hempty] at this
  -- a table whose rows are those of the unconsumed copies has none
  have hlists : ∀ {K V : Type} [LinearOrder K] {row : Nat → StoredEvent → Option (K × V)}
      {t : Table K V}, Lists (Pend c s.id) row t → t = .empty := by
    intro K V _ row t hl
    refine Table.ext_get fun k => ?_
    cases hk : t.get k with
    | none => simp
    | some v =>
      obtain ⟨n, e, hp, -⟩ := (hl k v).mp hk
      exact absurd hp (hpend n e)
  refine ⟨hempty, Table.ext_get fun i => ?_, Table.ext_get fun t => ?_, fun t => hlists (h.pending t),
    fun t => hlists (h.live t), hlists h.published, hlists h.livePublished, hlists h.expiry⟩
  · cases hi : (c.eventId s.id).get i with
    | none => simp
    | some n =>
      obtain ⟨e, he, -⟩ := (h.eventId i n).mp hi
      simp [hempty] at he
  · cases ht : (c.eventType s.id).get t with
    | none => simp
    | some n =>
      obtain ⟨m, e, he, -⟩ := (h.eventType t).mp (by simp [ht])
      simp [hempty] at he

/-- A run that is not marked has no evidence. -/
theorem Evidenced.bare {c : Core} (h : Evidenced c) (hinv : Inv c) {i : String} {s : StoredRun}
    (hs : c.run.get i = some s) (hev : s.evidence = false) : Bare c i := by
  obtain ⟨hevent, hrecord⟩ := h.marked i s hs hev
  obtain rfl := hinv.tree.keyed i s hs
  exact ⟨(hinv.mails.mail _ _ hs).vacant hevent, hrecord⟩

/-- The marks of a run's row are not taken back by a rewrite. -/
theorem Rewrite.evidence {c : Core} {s s' : StoredRun} (h : Rewrite c now may s s')
    (hev : s'.evidence = false) : s.evidence = false := by
  have hclose : ∀ {s : StoredRun} {types : List String}, (close s types).evidence = s.evidence := by
    intro s types
    rw [close_eq]
  cases h with
  | park outcome =>
    obtain ⟨state, wakeAtMs, interruptions, heq⟩ := finished_eq c s outcome now
    rw [heq] at hev
    exact hev
  | register types =>
    rw [registered_eq] at hev
    exact hev
  | unregister k types => rwa [hclose] at hev
  | settle child => rwa [hclose] at hev
  | mark => simp at hev
  | _ => exact hev

/-- A change of one stored run with its records and copies. -/
theorem Evidenced.write {c d : Core} {s s' : StoredRun} (h : Evidenced c) (hd : d.run = c.run) (hid : s'.id = s.id)
    (hother : ∀ r, r ≠ s.id → d.event r = c.event r ∧ d.record r = c.record r)
    (hself : s'.evidence = false → d.event s.id = .empty ∧ d.record s.id = .empty) :
    Evidenced (d.set s') where
  marked i t ht hev := by
    rw [Core.get_set, hd, hid] at ht
    split at ht
    · next hi =>
      subst hi
      obtain rfl := Option.some.inj ht
      exact hself hev
    · next hne =>
      obtain ⟨hevent, hrecord⟩ := hother i (Ne.symm hne)
      change d.event i = .empty ∧ d.record i = .empty
      rw [hevent, hrecord]
      exact h.marked i t ht hev
  absent i hi := by
    rw [Core.get_set, hd, hid] at hi
    split at hi
    · simp at hi
    · next hne =>
      change d.record i = .empty
      rw [(hother i (Ne.symm hne)).2]
      exact h.absent i hi

/-- A first row: nothing was stored of its run. -/
theorem Evidenced.insert {c : Core} {s' : StoredRun} (h : Evidenced c) (hinv : Inv c)
    (hs : c.run.get s'.id = none) : Evidenced (c.set s') where
  marked i t ht hev := by
    rw [Core.get_set] at ht
    split at ht
    · next hi =>
      subst hi
      exact ⟨(hinv.mails.vacant _ hs).event, h.absent _ hs⟩
    · exact h.marked i t ht hev
  absent i hi := by
    rw [Core.get_set] at hi
    split at hi
    · simp at hi
    · exact h.absent i hi

theorem Evidenced.move {c c' : Core} (h : Evidenced c) (hinv : Inv c)
    (hmove : Move env now may c c') : Evidenced c' := by
  -- a run that stores a copy is marked
  have hmarked : ∀ {s : StoredRun} {n e}, c.run.get s.id = some s → (c.event s.id).get n = some e →
      s.evidence ≠ false := by
    intro s n e hs he hev
    simp [(h.marked _ _ hs hev).1] at he
  -- a table of another run is not touched
  have hputAt : ∀ {K V : Type} [LinearOrder K] (f : String → Table K V) (run : String) (k : K)
      (v : V) (r : String), r ≠ run → Table.putAt f run k v r = f r :=
    fun f run k v r hr => Table.putAt_ne f k v hr
  -- moves that insert a row, that write one, and the sweep and the end, which are about more
  cases hmove with
  | admission a digest epoch trigger rearm ha => exact h.insert hinv ha
  | refuse a digest epoch error ha => exact h.insert hinv ha
  | bear a digest epoch link ha => exact h.insert hinv ha
  | spend | dropBudget => exact ⟨h.marked, h.absent⟩
  | @rewrite s s' hs hrw =>
    exact h.write rfl hrw.id_eq (fun _ _ => ⟨rfl, rfl⟩)
      fun hev => h.marked _ _ hs (hrw.evidence hev)
  -- a record is saved only with the mark set
  | @record s k r hs hr hev hk =>
    have hset : (c.setRecord s.id k r).set s = c.setRecord s.id k r := Core.set_self hs
    rw [← hset]
    exact h.write rfl rfl (fun r hr => ⟨rfl, hputAt _ _ _ _ r hr⟩) (fun hnot => by simp [hev] at hnot)
  -- an accepted copy sets the mark
  | @accept s e hs hl he hi =>
    refine h.write rfl ?_ (fun r hr => ⟨hputAt _ _ _ _ r hr, rfl⟩) (fun hnot => by simp [counted] at hnot)
    rw [counted_id]
    split <;> rfl
  | @notify s t data hs =>
    refine h.write rfl ?_ (fun r hr => ⟨hputAt _ _ _ _ r hr, rfl⟩) (fun hnot => by simp [counted] at hnot)
    rw [counted_id]
    split <;> rfl
  -- an expiry and a take find a copy there, so the run is marked already
  | @expire s n e at_ taken hs hl hx hat he =>
    exact h.write rfl rfl (fun r hr => ⟨hputAt _ _ _ _ r hr, hputAt _ _ _ _ r hr⟩)
      fun hev => absurd hev (show s.evidence ≠ false from hmarked hs he)
  | @take s k types n e event hs hr hm hk hn he =>
    refine h.write rfl (by simp) (fun r hr => ⟨hputAt _ _ _ _ r hr, hputAt _ _ _ _ r hr⟩)
      fun hev => absurd ?_ (hmarked hs he)
    rw [tookEvent, close_eq, joined_eq] at hev
    exact hev
  | @offer s n e hs hl he =>
    exact h.write rfl rfl (fun r hr => ⟨hputAt _ _ _ _ r hr, rfl⟩)
      fun hev => absurd hev (show s.evidence ≠ false from hmarked hs he)
  -- the sweep takes the mark away together with all it stands for
  | @forget s at_ hs hl =>
    refine h.write (s := s) (run_forgetRows c s.id) rfl (fun r hr => ⟨(forgetRows_same hr).event, ?_⟩)
      fun _ => ⟨(Vacant.forget (hinv.mails.mail _ _ hs)).event, ?_⟩
    · rw [record_forgetRows, Function.update_of_ne hr]
    · rw [record_forgetRows, Function.update_self]
  | @finish s status spent ids hs hl ht hids =>
    -- an end leaves the mark of a row, and every record and copy
    refine ⟨fun i t ht hev => ?_, fun i hi => ?_⟩
    · obtain ⟨s₀, hs₀, rfl | ⟨o, rfl⟩⟩ := Core.get_finished hs hids.nodup ht
      · exact h.marked i _ hs₀ hev
      · exact h.marked i s₀ hs₀ hev
    · refine h.absent i ?_
      by_contra hne
      obtain ⟨s₀, hs₀⟩ := Option.ne_none_iff_exists'.mp hne
      have hmove : Move env now (fun _ _ => True) c _ := .finish status spent ids hs hl ht hids trivial
      obtain ⟨s', hs', -⟩ := hmove.stored hs₀
      rw [hi] at hs'
      simp at hs'

theorem evidenced_after (env : Env) (history : List Op) : Evidenced (after env history).toCore :=
  runs_core (fun _ _ _ _ hinv hmove h => h.move hinv hmove) .empty .empty history

/-! ### Sweeps -/

/-- The run has ended and is not marked. -/
def Unmarked (c : Core) (i : String) : Prop :=
  ∃ s, c.run.get i = some s ∧ s.run.endedMs ≠ none ∧ s.evidence = false

/-- An ended run without a mark gets none. -/
theorem Path.unmarked {c c' : Core} (h : Path env now may c c') (hinv : Inv c) {i : String}
    (hi : Unmarked c i) : Unmarked c' i := by
  refine h.keep hinv (P := fun c => Unmarked c i) ?_ hi
  rintro c c' hinv hmove ⟨s, hs, hended, hev⟩
  obtain ⟨s', hs', rfl | hchange⟩ := hmove.stored hs
  · exact ⟨_, hs', hended, hev⟩
  · rw [hchange.eq_forgotten (hinv.sane i s hs) hended] at hs'
    exact ⟨_, hs', hended, rfl⟩

/-- One pass of the loop over finished runs. -/
theorem sweepFinished_unmarked {horizon : Int} {s : StoredRun} {n n' : Nat} {σ σ' : Rows}
    (hl : s.run.endedMs ≠ none) (h : sweepFinished horizon n s σ = .ok (n', σ')) :
    (s.run.endedMs.any (fun at_ => decide (at_ ≤ horizon)) = true → Unmarked σ'.toCore s.id) ∧
      ∀ i, Unmarked σ.toCore i → Unmarked σ'.toCore i := by
  unfold sweepFinished at h
  split at h
  · simp only [forget, bind_ok, read_ok, write_ok, pure_ok] at h
    obtain ⟨⟨s', m⟩, σ₁, ⟨rows, σ₂, ⟨-, rfl⟩, u, σ₃, hσ₃, hs', rfl⟩, u₁, σ₄, hstore, -, rfl⟩ := h
    obtain ⟨rfl, -⟩ : s' = forgotten s ∧ _ := Prod.mk.inj hs'
    have hget : ∀ i, σ'.run.get i = if s.id = i then some (forgotten s) else σ₂.run.get i := by
      intro i
      rw [show σ'.run = _ from congrArg Core.run (storeRun_core hstore), Core.get_set, hσ₃]
      change (if s.id = i then _ else (forgetRows σ₂.toCore s.id).run.get i) = _
      rw [run_forgetRows]
    have hself : Unmarked σ'.toCore s.id := ⟨forgotten s, by rw [hget, if_pos rfl], hl, rfl⟩
    refine ⟨fun _ => hself, ?_⟩
    rintro i ⟨t, ht, hended, hev⟩
    by_cases hi : s.id = i
    · exact hi ▸ hself
    · exact ⟨t, by rw [hget, if_neg hi, ht], hended, hev⟩
  · next hdue =>
    obtain ⟨-, rfl⟩ := pure_ok.mp h
    exact ⟨fun h => absurd h hdue, fun _ h => h⟩

/-- What a loop does for each element and keeps afterwards holds of all of them. -/
private theorem fold_all {α β : Type} {f : β → α → Txn β} {Q : α → Rows → Prop} {l : List α}
    (hf : ∀ a ∈ l, ∀ b σ b' σ', f b a σ = .ok (b', σ') → Q a σ' ∧ ∀ a', Q a' σ → Q a' σ')
    {b b' : β} {σ σ' : Rows} (h : Tx.fold f b l σ = .ok (b', σ')) {a : α} (ha : a ∈ l ∨ Q a σ) :
    Q a σ' := by
  induction l generalizing b σ with
  | nil =>
    obtain ⟨-, rfl⟩ := pure_ok.mp h
    simpa using ha
  | cons x l ih =>
    obtain ⟨b₁, σ₁, h₁, h₂⟩ := bind_ok.mp h
    obtain ⟨hx, hkeep⟩ := hf x List.mem_cons_self b σ b₁ σ₁ h₁
    refine ih (fun a ha => hf a (List.mem_cons_of_mem _ ha)) h₂ ?_
    rcases ha with hmem | hQ
    · rcases List.mem_cons.mp hmem with rfl | hmem
      · exact .inr hx
      · exact .inl hmem
    · exact .inr (hkeep a hQ)

/-- A sweep takes the mark of every run that ended by its horizon. -/
theorem sweep_unmarked {kept : Int} {σ σ' : Rows} {r : Swept} (hσ : Good σ)
    (h : sweep env now kept σ = .ok (r, σ')) {i : String} {s : StoredRun} {at_ : Int}
    (hs : σ.run.get i = some s) (hl : s.run.endedMs = some at_) (hat : at_ ≤ satSub now kept) :
    Unmarked σ'.toCore i := by
  obtain ⟨ended, records, σ₁, hended, hfold, hforgets, hexpires⟩ :=
    @sweep_cases env now (fun _ _ => True) kept σ σ' r hσ (fun _ _ _ => trivial) h
  obtain ⟨-, hall⟩ := indexedRuns_ok hσ.indexed hended
  obtain rfl := hσ.indexed.keyed i s hs
  have hσ₁ := hforgets.good hσ
  -- the expiries after the loop keep what it left
  refine (hexpires hσ₁).2.unmarked hσ₁.inv ?_
  by_cases hev : s.evidence = false
  · exact (hforgets hσ).2.unmarked hσ.inv ⟨s, hs, by simp [hl], hev⟩
  -- the index lists the run, so the loop comes to it
  have hmem : s ∈ ended := by
    have hentry : (indexKey .finished (.timed at_ s.id), IndexValue.run s.id) ∈ entries s :=
      mem_entries_finished.mpr ⟨at_, hl, by simpa using hev, rfl, rfl⟩
    have hrow : (indexKey .finished (.timed at_ s.id), IndexValue.run s.id) ∈
        scanIndex σ .finished (untilId (satSub now kept)) none := by
      refine hσ.indexed.mem_scanIndex.mpr ⟨rfl, by simpa [indexKey, untilId] using hat, s, ?_, hentry⟩
      rw [owner_of_mem_entries hentry]
      exact hs
    obtain ⟨s', hs', hget, hid, -⟩ := Tx.exists_of_mem_left hall hrow
    have hid : s'.id = s.id := by simpa using hid.symm
    rw [hid, hs] at hget
    rwa [Option.some.inj hget]
  -- an iteration of the loop clears its run and leaves the others cleared
  refine fold_all (Q := fun s σ => Unmarked σ.toCore s.id) (fun t ht b σ b' σ' h => ?_) hfold
    (.inl hmem)
  obtain ⟨-, j, hj, hentry⟩ := mem_indexedRuns hσ.indexed hended ht
  obtain ⟨at', hat', -, rfl, -⟩ := mem_entries_finished.mp hentry
  obtain ⟨hself, hkeep⟩ := sweepFinished_unmarked (by simp [hat']) h
  exact ⟨hself (by simpa [hat', untilId] using hj), fun a => hkeep a.id⟩

/-- After a sweep nothing is stored of the evidence of a run that ended by its horizon. -/
theorem sweep_bare {σ : Rows} (hσ : Good σ) (hev : Evidenced σ.toCore) {kept : Int} {r : Result}
    (h : (call env σ (.sweep now kept)).1 = .ok r) {i : String} {s : StoredRun} {at_ : Int}
    (hs : σ.run.get i = some s) (hl : s.run.endedMs = some at_) (hat : at_ ≤ satSub now kept) :
    Bare (step env σ (.sweep now kept)).toCore i := by
  have hgood := step_good env hσ (.sweep now kept)
  have hev' := (step_path env hσ (.sweep now kept)).keep hσ.inv (P := Evidenced)
    (fun _ _ hinv hmove h => h.move hinv hmove) hev
  obtain ⟨swept, hsweep, -⟩ := map_ok.mp (tx_of_call h)
  obtain ⟨s', hs', -, hunmarked⟩ := sweep_unmarked hσ hsweep hs hl hat
  exact hev'.bare hgood.inv hs' hunmarked

/-! ### The mailbox -/

/-- How many unconsumed copies of a run satisfy `p`. -/
noncomputable def copies (c : Core) (i : String) (p : StoredEvent → Bool) : Nat :=
  Set.ncard {n | ∃ e, Pend c i n e ∧ p e = true}

/-- What the store keeps about the copies of a run is what its unconsumed copies yield. -/
structure Booked (c : Core) (s : StoredRun) : Prop where
  pending : ∀ t n m, (c.pending (s.id, t)).get n = some m ↔
    m = n ∧ ∃ e, Pend c s.id n e ∧ e.type_ = t
  live : ∀ t k cloud, (c.live (s.id, t)).get k = some cloud ↔
    ∃ n e, Pend c s.id n e ∧ e.type_ = t ∧ k = liveKey e n ∧ cloud = e.envelope.isSome
  published : ∀ n m, (c.published s.id).get n = some m ↔
    m = n ∧ ∃ e, Pend c s.id n e ∧ Engine.published e = true
  livePublished : ∀ k n, (c.livePublished s.id).get k = some n ↔
    ∃ e, Pend c s.id n e ∧ Engine.published e = true ∧ k = liveKey e n
  expiry : ∀ k v, (c.expiry s.id).get k = some v ↔
    ∃ n e at_, Pend c s.id n e ∧ e.expiresAtMs = some at_ ∧ k = toLex (at_, n) ∧ v = (at_, n)
  /-- The counters by type; a type without pending copies has none. -/
  counts : ∀ t, s.pending.get t = packed (copies c s.id fun e => e.type_ == t)
    (copies c s.id fun e => e.type_ == t && e.envelope.isSome)
  publishedCount : s.published = copies c s.id Engine.published
  /-- The least expiry of a pending copy; none without one. -/
  mailbox : Table.Least {at_ | ∃ n e, Pend c s.id n e ∧ e.expiresAtMs = some at_} s.mailbox
  accepted : ∀ n e, (c.event s.id).get n = some e → n < s.accepted

theorem Mail.booked {c : Core} {s : StoredRun} (h : Mail c s) : Booked c s := by
  -- every copy is numbered below the counter, so the bound of the count leaves none out
  have hcopies : ∀ p, count c s.id s.accepted p = copies c s.id p := by
    intro p
    unfold copies count
    rw [← Set.ncard_coe_finset]
    congr 1
    ext n
    simp only [Finset.coe_filter, Finset.mem_range, Set.mem_ofPred_eq, Option.any_eq_true,
      Bool.and_eq_true, Option.isNone_iff_eq_none]
    constructor
    · rintro ⟨-, e, he, hc, hp⟩
      exact ⟨e, ⟨he, hc⟩, hp⟩
    · rintro ⟨e, ⟨he, hc⟩, hp⟩
      exact ⟨h.event_lt n e he, e, he, hc, hp⟩
  exact
    { pending := fun t n m => h.get_pending
      live := fun t k cloud => h.get_live
      published := fun n m => h.get_published
      livePublished := fun k n => h.get_livePublished
      expiry := fun k v => h.get_expiry
      counts := fun t => by rw [h.counts, hcopies, hcopies]
      publishedCount := by rw [h.publishedCount, hcopies]
      mailbox := h.least_mailbox
      accepted := h.event_lt }

/-- The mailbox is exact. In every store that a history leads to, the rows and counters that are kept of a
run's copies (pending ones by type, published ones, identities) are those of the copies that are stored,
and a run that is not stored has none of them. A sweep leaves nothing of the runs that ended by its
horizon. -/
theorem mailbox_exact (env : Env) (history : List Op) (i : String) :
    (∀ s, (after env history).run.get i = some s → s.id = i ∧ Booked (after env history).toCore s) ∧
    ((after env history).run.get i = none → Bare (after env history).toCore i) ∧
    ∀ now kept r s at_, (call env (after env history) (.sweep now kept)).1 = .ok r →
      (after env history).run.get i = some s → s.run.endedMs = some at_ → at_ ≤ satSub now kept →
      Bare (step env (after env history) (.sweep now kept)).toCore i := by
  have hσ := good_after env history
  have hev := evidenced_after env history
  refine ⟨fun s hs => ⟨hσ.indexed.keyed i s hs, (hσ.inv.mails.mail i s hs).booked⟩,
    fun hnone => ⟨hσ.inv.mails.vacant i hnone, hev.absent i hnone⟩, ?_⟩
  intro now kept r s at_ hcall hs hl hat
  exact sweep_bare hσ hev hcall hs hl hat

end Ouro
