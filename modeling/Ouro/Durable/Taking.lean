import Ouro.Durable.Delivery

/-!
# Calls as paths of moves: expiry, takes and answers

`expire` consumes the due mailbox copies one by one while the run row is only in memory; each pass is
a move on the rows with that row overlaid (`Expired`). `takeEvent` and `sweep` start from there.
-/

namespace Ouro

open Lib Engine Tx

variable {env : Env} {now : Int} {may : String → Act → Prop}

namespace Engine

/-! ### Overlays -/

theorem setRecord_set (c : Core) (s : StoredRun) (run k : String) (r : Record) :
    (c.set s).setRecord run k r = (c.setRecord run k r).set s := rfl

theorem consumeRows_set (c : Core) (s : StoredRun) (run : String) (n : Nat) (e : StoredEvent)
    (k : String) : consumeRows (c.set s) run n e k = (consumeRows c run n e k).set s := rfl

theorem refreshed_set (c : Core) (s t : StoredRun) : refreshed (c.set s) t = refreshed c t := rfl

/-- The mailbox is read again, whatever the row said. -/
theorem refreshed_uncounted (c c' : Core) (s : StoredRun) (e : StoredEvent) :
    refreshed c (uncounted (refreshed c' s) e) = refreshed c (uncounted s e) := rfl

/-! ### Expiry -/

/-- A copy of the run is as it was, or it was due and its expiry consumed it. -/
def Lapsed (σ : Rows) (run : String) (now : Int) (σ' : Rows) : Prop :=
  ∀ n, (σ'.event run).get n = (σ.event run).get n ∨
    ∃ e, Pend σ.toCore run n e ∧ expired e now = true ∧
      (σ'.event run).get n = some (asConsumed e (expiredKey n))

/-- What an expiry of `s` leaves: a path to the rows with the new row overlaid, nothing due, and in
the journal nothing new but records of expiries. -/
structure Expired (env : Env) (now : Int) (may : String → Act → Prop) (σ : Rows) (s : StoredRun)
    (σ' : Rows) (s' : StoredRun) : Prop where
  run : σ'.run = σ.run
  index : σ'.index = σ.index
  path : Path env now may σ.toCore (σ'.toCore.set s')
  row : s'.run = s.run
  unexpired : s'.mailbox.all (fun at_ => decide (now < at_)) = true
  record : ∀ k, (σ'.record s.id).get k = (σ.record s.id).get k ∨
    ∃ n taken, k = expiredKey n ∧ (σ'.record s.id).get k = some (.expired taken)
  copies : Lapsed σ s.id now σ'

theorem Expired.id_eq {σ σ' : Rows} {s s' : StoredRun} (h : Expired env now may σ s σ' s') :
    s'.id = s.id := by
  unfold StoredRun.id
  rw [h.row]

/-- The state of the expiry loop: `due` is what is left to expire. -/
private structure Expiring (env : Env) (now : Int) (may : String → Act → Prop) (σ₀ : Rows) (s₀ : StoredRun) (σ : Rows)
    (s : StoredRun) (due : List ((Int ×ₗ Nat) × (Int × Nat))) : Prop where
  run : σ.run = σ₀.run
  index : σ.index = σ₀.index
  path : Path env now may σ₀.toCore (σ.toCore.set (refreshed σ.toCore s))
  row : s.run = s₀.run
  record : ∀ k, (σ.record s₀.id).get k = (σ₀.record s₀.id).get k ∨
    ∃ n taken, k = expiredKey n ∧ (σ.record s₀.id).get k = some (.expired taken)
  listed : ∀ row ∈ due, (σ.expiry s₀.id).get row.1 = some row.2 ∧ (ofLex row.1).1 ≤ now
  left : ∀ k v, (σ.expiry s₀.id).get k = some v → (ofLex k).1 ≤ now → (k, v) ∈ due
  distinct : due.Pairwise fun a b => a.1 ≠ b.1
  copies : Lapsed σ₀ s₀.id now σ

private theorem expireOne_ok {s s' : StoredRun} {n : Nat} {σ σ' : Rows}
    (h : expireOne env s n σ = .ok (s', σ')) :
    ∃ e taken, (σ.event s.id).get n = some e ∧ s' = uncounted s e ∧ σ' = { σ with
      toCore := consumeRows (σ.toCore.setRecord s.id (expiredKey n) (.expired taken)) s.id n e
        (expiredKey n) } := by
  simp only [expireOne, bind_ok, copy_ok, write_ok] at h
  obtain ⟨e, σ₁, ⟨he, rfl⟩, taken, σ₂, htaken, u, σ₃, rfl, hconsume⟩ := h
  obtain rfl := envelope_ok htaken
  obtain ⟨rfl, rfl⟩ := consume_ok hconsume
  exact ⟨e, taken, he, rfl, rfl⟩

/-- One pass of the loop is one move on the overlaid rows. -/
private theorem Expiring.pass {σ₀ σ σ' : Rows} {s₀ s s' : StoredRun}
    {row : (Int ×ₗ Nat) × (Int × Nat)} {due : List ((Int ×ₗ Nat) × (Int × Nat))} (hσ₀ : Good σ₀)
    (hl : s₀.run.endedMs = none) (h : Expiring env now may σ₀ s₀ σ s (row :: due))
    (hpass : expireOne env s row.2.2 σ = .ok (s', σ')) : Expiring env now may σ₀ s₀ σ' s' due := by
  -- `s` is the row in memory, `row` the next expiry row that was scanned
  have hid : s.id = s₀.id := by unfold StoredRun.id; rw [h.row]
  -- the pass reads the copy and consumes it under its own reserved key
  obtain ⟨e, taken, he, rfl, rfl⟩ := expireOne_ok hpass
  rw [hid] at he
  -- the overlaid rows satisfy the invariant, so the row's copy is unconsumed
  have hinv := hσ₀.inv.path h.path
  have hget : (σ.toCore.set (refreshed σ.toCore s)).run.get s₀.id =
      some (refreshed σ.toCore s) := by
    rw [Core.get_set, refreshed_id, hid, if_pos rfl]
  have hmail := hinv.mails.mail _ _ hget
  obtain ⟨hlisted, hdue⟩ := h.listed row List.mem_cons_self
  have hrow : ((σ.toCore.set (refreshed σ.toCore s)).expiry (refreshed σ.toCore s).id).get row.1 =
      some row.2 := by
    rw [refreshed_id, hid]
    exact hlisted
  obtain ⟨n, e', at_, hp, hat, hkey, hval⟩ := hmail.get_expiry.mp hrow
  rw [refreshed_id, hid] at hp
  rw [hval] at he
  obtain rfl : e' = e := Option.some.inj (hp.1.symm.trans he)
  rw [hkey, hval] at hlisted
  rw [hkey] at hdue
  -- the expiry rows lose this one
  have hexpiry : ∀ k v, ((σ.expiry s₀.id).delete row.1).get k = some v ↔
      k ≠ row.1 ∧ (σ.expiry s₀.id).get k = some v := by
    intro k v
    rw [Table.get_delete]
    split
    · next heq => simp [heq]
    · next hne => simp [Ne.symm hne]
  have hexpiry' : (consumeRows (σ.toCore.setRecord s.id (expiredKey row.2.2) (.expired taken)) s.id
      row.2.2 e' (expiredKey row.2.2)).expiry s₀.id = (σ.expiry s₀.id).delete row.1 := by
    rw [hid, consumed_expiry, hval, hkey]
    simp only [expiryRow, hat, Option.map_some, Option.elim_some]
    rfl
  refine
    { run := h.run
      index := h.index
      row := h.row
      path := h.path.tail ?_
      record := fun k => ?_
      listed := fun r hr => ?_
      left := fun k v hk hnow => ?_
      distinct := (List.pairwise_cons.mp h.distinct).2
      copies := fun m => ?_ }
  -- the pass as a move on the rows with the row overlaid
  · have hmove : Move env now may (σ.toCore.set (refreshed σ.toCore s)) _ :=
      .expire (s := refreshed σ.toCore s) n e' at_ taken
        (by rw [refreshed_id, hid]; exact hget) (by rw [refreshed_run, h.row]; exact hl)
        (by rw [refreshed_id, hid]; exact hlisted) hdue
        (by rw [refreshed_id, hid]; exact hp.1)
    rw [setRecord_set, consumeRows_set, consumeRows_set, refreshed_set, refreshed_uncounted,
      Core.set_set] at hmove
    · rw [hval]
      exact hmove
    · rfl
  -- the records: as before, or of an expiry
  · change (Table.putAt σ.record s.id (expiredKey row.2.2) (.expired taken) s₀.id).get k = _ ∨ _
    rw [Table.get_putAt]
    split
    · next heq => exact .inr ⟨row.2.2, taken, heq.2.symm, by
        change (Table.putAt σ.record s.id (expiredKey row.2.2) (.expired taken) s₀.id).get k = _
        rw [Table.get_putAt, if_pos heq]⟩
    · next hne =>
      refine (h.record k).imp id ?_
      rintro ⟨n', taken', hk, hget⟩
      refine ⟨n', taken', hk, ?_⟩
      change (Table.putAt σ.record s.id (expiredKey row.2.2) (.expired taken) s₀.id).get k = _
      rw [Table.get_putAt, if_neg hne]
      exact hget
  -- the rows still to come are other rows
  · obtain ⟨hr₁, hr₂⟩ := h.listed r (List.mem_cons_of_mem _ hr)
    refine ⟨?_, hr₂⟩
    change ((consumeRows _ _ _ _ _).expiry s₀.id).get r.1 = _
    rw [hexpiry', hexpiry]
    exact ⟨Ne.symm ((List.pairwise_cons.mp h.distinct).1 r hr), hr₁⟩
  -- and the due rows that are left are among them
  · change ((consumeRows _ _ _ _ _).expiry s₀.id).get k = _ at hk
    rw [hexpiry', hexpiry] at hk
    rcases List.mem_cons.mp (h.left k v hk.2 hnow) with heq | hmem
    · exact absurd (congrArg Prod.fst heq) hk.1
    · exact hmem
  -- the copies: as at the start, or consumed by the loop
  · change (Table.putAt σ.event s.id row.2.2 (asConsumed e' (expiredKey row.2.2)) s₀.id).get m = _ ∨
      ∃ e, _ ∧ _ ∧ (Table.putAt σ.event s.id row.2.2 (asConsumed e' (expiredKey row.2.2)) s₀.id).get m = _
    rw [Table.get_putAt, hval]
    split
    · next heq =>
      obtain ⟨-, rfl⟩ := heq
      -- a copy the loop consumed before is not pending
      rcases h.copies n with hsame | ⟨e₀, -, -, hconsumed⟩
      · exact .inr ⟨e', ⟨hsame.symm.trans hp.1, hp.2⟩, by simpa [expired, hat] using hdue, rfl⟩
      · have := hp.2
        simp [← Option.some.inj (hconsumed.symm.trans hp.1), asConsumed] at this
    · exact h.copies m

private theorem Expiring.loop {σ₀ : Rows} {s₀ : StoredRun} (hσ₀ : Good σ₀)
    (hl : s₀.run.endedMs = none) {due : List ((Int ×ₗ Nat) × (Int × Nat))} :
    ∀ {σ σ' : Rows} {s s' : StoredRun}, Expiring env now may σ₀ s₀ σ s due →
      fold (fun s row => expireOne env s row.2.2) s due σ = .ok (s', σ') →
        Expiring env now may σ₀ s₀ σ' s' [] := by
  induction due with
  | nil =>
    intro σ σ' s s' h hfold
    obtain ⟨rfl, rfl⟩ := pure_ok.mp hfold
    exact h
  | cons row due ih =>
    intro σ σ' s s' h hfold
    obtain ⟨s₁, σ₁, hpass, hrest⟩ := bind_ok.mp hfold
    exact ih (h.pass hσ₀ hl hpass) hrest

theorem expire_ok {σ σ' : Rows} {s s' : StoredRun} {k : Nat} (hσ : Good σ)
    (hs : σ.run.get s.id = some s) (hl : s.run.endedMs = none)
    (h : expire env s now σ = .ok ((s', k), σ')) : Expired env now may σ s σ' s' := by
  have hmail := hσ.inv.mails.mail _ _ hs
  unfold expire at h
  split at h
  -- nothing is due
  · next hfresh =>
    simp only [pure_ok, Prod.mk.injEq] at h
    obtain ⟨⟨rfl, -⟩, rfl⟩ := h
    exact
      { run := rfl, index := rfl, row := rfl, unexpired := hfresh, record := fun _ => .inl rfl
        copies := fun _ => .inl rfl
        path := by rw [Core.set_self hs] }
  -- the scan found the due rows, each once
  · simp only [bind_ok, read_ok, pure_ok, Prod.mk.injEq] at h
    obtain ⟨due, σ₁, ⟨rfl, rfl⟩, s₁, σ₂, hfold, s₂, σ₃, hrefresh, ⟨rfl, -⟩, rfl⟩ := h
    obtain ⟨rfl, rfl⟩ := refreshMailbox_ok hrefresh
    have hstart : Expiring env now may σ₁ s σ₁ s
        ((σ₁.expiry s.id).scan (fun k => decide ((ofLex k).1 ≤ now)) none) :=
      { run := rfl, index := rfl, row := rfl, record := fun _ => .inl rfl, copies := fun _ => .inl rfl
        path := by
          rw [show refreshed σ₁.toCore s = s by unfold refreshed; rw [← hmail.mailbox],
            Core.set_self hs]
        listed := by
          rintro ⟨k, v⟩ hrow
          simpa using (Table.mem_scan _ _).mp hrow
        left := fun k v hk hnow => (Table.mem_scan _ _).mpr ⟨hk, by simpa using hnow⟩
        distinct := ((σ₁.expiry s.id).scan_sorted _).imp fun hlt => hlt.ne }
    -- after the loop none of them is left
    have hend := hstart.loop hσ hl hfold
    have hid : s₁.id = s.id := by unfold StoredRun.id; rw [hend.row]
    refine
      { run := hend.run, index := hend.index, path := hend.path, row := hend.row
        record := hend.record, copies := hend.copies, unexpired := ?_ }
    -- the earliest expiry left is not due
    have hinv := hσ.inv.path hend.path
    have hget : (σ'.toCore.set (refreshed σ'.toCore s₁)).run.get s.id =
        some (refreshed σ'.toCore s₁) := by
      rw [Core.get_set, refreshed_id, hid, if_pos rfl]
    have hleast := (hinv.mails.mail _ _ hget).least_mailbox
    cases hbox : (refreshed σ'.toCore s₁).mailbox with
    | none => rfl
    | some at_ =>
      rw [hbox] at hleast
      obtain ⟨n, e, hp, hat⟩ := hleast.1
      rw [refreshed_id, hid] at hp
      have hrow := (hinv.mails.mail _ _ hget).get_expiry (k := toLex (at_, n)) (v := (at_, n)) |>.mpr
        ⟨n, e, at_, by rw [refreshed_id, hid]; exact hp, hat, rfl, rfl⟩
      rw [refreshed_id, hid] at hrow
      simp only [Option.all_some, decide_eq_true_eq]
      by_contra hle
      have := hend.left _ _ hrow (not_lt.mp hle)
      simp at this

/-! ### Fenced calls -/

/-- An authority is the stored row of a running run under its own id. -/
theorem authority_ok {f : Fence} {skew : Int} {σ σ' : Rows} {s : StoredRun}
    (h : authority f now skew σ = .ok (s, σ')) :
    σ' = σ ∧ σ.run.get f.runId = some s ∧ s.run.state = .running ∧ s.run.fence = some f ∧
      ∃ until_, s.run.leaseUntilMs = some until_ ∧ satAdd now skew < until_ := by
  simp only [authority, bind_ok, run_ok, ensure_ok, pure_ok] at h
  obtain ⟨s', σ₁, ⟨hs, rfl⟩, u, σ₂, ⟨hc, rfl⟩, rfl, rfl⟩ := h
  rw [Bool.and_eq_true, decide_eq_true_eq, Option.any_eq_true] at hc
  obtain ⟨⟨hrun, hf⟩, until_, hu, hlt⟩ := hc
  exact ⟨rfl, hs, hrun, hf, until_, hu, by simpa using hlt⟩

theorem checked_ok {f : Fence} {skew : Int} {σ σ' : Rows} {s : StoredRun}
    (h : checked f now skew σ = .ok (s, σ')) :
    σ' = σ ∧ σ.run.get f.runId = some s ∧ s.run.state = .running := by
  simp only [checked, bind_ok, ofExcept_ok, pure_ok] at h
  obtain ⟨u, σ₁, hrun, s', σ₂, hauth, u', σ₃, ⟨-, rfl⟩, rfl, rfl⟩ := h
  obtain rfl := running_ok hrun
  obtain ⟨rfl, hs, hr, -⟩ := authority_ok hauth
  exact ⟨rfl, hs, hr⟩

/-! ### Takes -/

theorem takeCopy_indexed {s : StoredRun} {k : String} {types : List String} {n : Nat} {event : Json}
    {σ σ' : Rows} (hσ : Indexed σ) (h : takeCopy env s k types n σ = .ok (event, σ')) :
    Indexed σ' := by
  simp only [takeCopy, bind_ok, copy_ok] at h
  obtain ⟨e, σ₁, ⟨he, rfl⟩, taken, σ₂, htaken, s₁, σ₃, hconsume, h⟩ := h
  obtain rfl := envelope_ok htaken
  obtain ⟨rfl, rfl⟩ := consume_ok hconsume
  have hσ₃ : Indexed { σ₂ with toCore := consumeRows σ₂.toCore (joined s e.type_).id n e k } :=
    hσ.of_eq rfl rfl
  split at h
  · simp only [bind_ok, write_ok, pure_ok] at h
    obtain ⟨s₂, σ₄, hrefresh, u, σ₅, hwrite, u', σ₆, hstore, -, rfl⟩ := h
    obtain ⟨-, rfl⟩ := refreshMailbox_ok hrefresh
    refine Indexed.storeRun ?_ hstore
    rw [hwrite]
    exact hσ₃.of_eq rfl rfl
  · simp only [bind_ok, write_ok, pure_ok] at h
    obtain ⟨s₂, σ₄, ⟨-, rfl⟩, u, σ₅, hwrite, u', σ₆, hstore, -, rfl⟩ := h
    refine Indexed.storeRun ?_ hstore
    rw [hwrite]
    exact hσ₃.of_eq rfl rfl

/-- The rows after a copy is taken from a run whose row is overlaid. -/
theorem takeCopy_core {s : StoredRun} {k : String} {types : List String} {n : Nat} {event : Json}
    {σ σ' : Rows} (hinv : Inv (σ.toCore.set s))
    (h : takeCopy env s k types n σ = .ok (event, σ')) :
    ∃ e, ((σ.toCore.set s).event s.id).get n = some e ∧
      σ'.toCore = (((consumeRows (σ.toCore.set s) s.id n e k).setRecord s.id k (.event event)).set
        (tookEvent (refreshed (consumeRows (σ.toCore.set s) s.id n e k)
          (uncounted (joined s e.type_) e)) k types)) := by
  have hget : (σ.toCore.set s).run.get s.id = some s := by simp
  have hmail := hinv.mails.mail _ _ hget
  -- the copy is consumed, its event saved under the key, and the listen closed
  simp only [takeCopy, bind_ok, copy_ok] at h
  obtain ⟨e, σ₁, ⟨he, rfl⟩, taken, σ₂, htaken, s₁, σ₃, hconsume, h⟩ := h
  obtain rfl := envelope_ok htaken
  obtain ⟨rfl, hσ₃⟩ := consume_ok hconsume
  rw [joined_id] at hσ₃
  -- the earliest expiry is read again only when the copy had one; otherwise it stands
  obtain ⟨s₂, σ₄, hs₂, hσ₄, hrest⟩ : ∃ s₂ σ₄,
      s₂ = refreshed (consumeRows σ₂.toCore s.id n e k) (uncounted (joined s e.type_) e) ∧ σ₄ = σ₃ ∧
      ∃ u σ₅, (Tx.write fun rows : Rows =>
          { rows with record := Table.putAt rows.record s₂.id k (.event taken) } : Txn Unit) σ₄ =
            .ok (u, σ₅) ∧
        ∃ u' σ₆, storeRun (tookEvent s₂ k types) σ₅ = .ok (u', σ₆) ∧ event = taken ∧ σ' = σ₆ := by
    -- it had one: the row is refreshed
    split at h
    · simp only [bind_ok, pure_ok] at h
      obtain ⟨s₂, σ₄, hrefresh, hrest⟩ := h
      obtain ⟨rfl, rfl⟩ := refreshMailbox_ok hrefresh
      exact ⟨_, _, by rw [hσ₃], rfl, hrest⟩
    · next hnone =>
      have hexp : e.expiresAtMs = none := by simpa using hnone
      simp only [bind_ok, pure_ok] at h
      obtain ⟨s₂, σ₄, ⟨rfl, rfl⟩, hrest⟩ := h
      refine ⟨_, _, ?_, rfl, hrest⟩
      -- it had none: the earliest expiry of the rows is the one in the row
      have hbox : earliest (consumeRows σ₂.toCore s.id n e k) s.id = s.mailbox := by
        rw [hmail.mailbox]
        unfold earliest
        rw [consumed_expiry]
        simp only [expiryRow, hexp, Option.map_none, Option.elim_none]
        rfl
      unfold refreshed
      rw [uncounted_id, joined_id, hbox, joined_eq]
      rfl
  obtain ⟨u, σ₅, hwrite, u', σ₆, hstore, rfl, rfl⟩ := hrest
  rw [write_ok] at hwrite
  have hid : s₂.id = s.id := by rw [hs₂]; simp
  have hcore₅ : σ₅.toCore = (consumeRows σ₂.toCore s.id n e k).setRecord s.id k (.event event) := by
    rw [hwrite, hσ₄, hσ₃, hid]
    rfl
  refine ⟨e, he, ?_⟩
  rw [storeRun_core hstore, hcore₅, hs₂, consumeRows_set, setRecord_set, refreshed_set, Core.set_set]
  simp

/-- A call of `takeEvent` that commits returns what its key holds already, takes the first copy it
may, or leaves its listener; the copies that are due expire before. -/
theorem takeEvent_cases (may : String → Act → Prop) {f : Fence} {k : String} {types : List String}
    {r : Option Json} {σ σ' : Rows} (hσ : Good σ)
    (h : takeEvent env f k types now σ = .ok (r, σ')) :
    ∃ s, s.id = f.runId ∧ σ.run.get s.id = some s ∧ s.run.state = .running ∧
      ((∃ event, (σ.record s.id).get k = some (.event event) ∧ r = some event ∧ σ' = σ) ∨
        (σ.record s.id).get k = none ∧ ∃ s' σ₁, Expired env now may σ s σ₁ s' ∧
          Free σ₁.toCore s.id k ∧ Indexed σ' ∧
          ((∃ n event, candidate σ₁.toCore s.id types = some n ∧ r = some event ∧
              takeCopy env s' k types n σ₁ = .ok (event, σ')) ∨
            candidate σ₁.toCore s.id types = none ∧ r = none ∧
              σ'.toCore = σ₁.toCore.set { s' with listeners := s'.listeners.put k types })) := by
  -- the guard of the fence, and then what the key holds
  simp only [takeEvent, bind_ok, read_ok] at h
  obtain ⟨s, σ₁, hchecked, found, σ₂, ⟨hfound, rfl⟩, h⟩ := h
  obtain ⟨rfl, hs, hr⟩ := checked_ok hchecked
  have hid := hσ.indexed.keyed _ _ hs
  rw [← hid] at hs hfound
  refine ⟨s, hid, hs, hr, ?_⟩
  cases found with
  -- an event that was taken before is returned again
  | some record =>
    cases record with
    | event event =>
      obtain ⟨rfl, rfl⟩ := pure_ok.mp h
      exact .inl ⟨event, hfound.symm, rfl, rfl⟩
    | _ => simp at h
  -- a free key: the due copies expire first
  | none =>
    simp only [bind_ok, read_ok] at h
    obtain ⟨⟨s', m⟩, σ₃, hexpire, found, σ₄, ⟨hcand, rfl⟩, h⟩ := h
    have hexp : Expired env now may _ s σ₄ s' :=
      expire_ok hσ hs ((hσ.inv.sane _ _ hs).live_of_running hr) hexpire
    have hindexed : Indexed σ₄ := hσ.indexed.of_eq hexp.run hexp.index
    rw [← hid] at hcand
    -- an expiry in this call may have written under this very key
    have hfree : Free σ₄.toCore s.id k := by
      rcases hexp.record k with heq | ⟨n, taken, hk, heq⟩
      · exact .inl (heq.trans hfound.symm)
      · exact .inr ⟨n, taken, hk, heq⟩
    refine .inr ⟨hfound.symm, s', σ₄, hexp, hfree, ?_⟩
    -- a copy is taken
    cases found with
    | some n =>
      simp only [map_ok] at h
      obtain ⟨event, htake, rfl⟩ := h
      exact ⟨takeCopy_indexed hindexed htake, .inl ⟨n, event, hcand.symm, rfl, htake⟩⟩
    -- there is none: the listener is stored
    | none =>
      simp only [bind_ok, pure_ok] at h
      obtain ⟨u, σ₅, hstore, rfl, rfl⟩ := h
      exact ⟨hindexed.storeRun hstore, .inr ⟨hcand.symm, rfl, storeRun_core hstore⟩⟩

theorem takeEvent_reaches (f : Fence) (k : String) (types : List String)
    (htake : may f.runId (.take k types)) (hlisten : may f.runId (.listen k types)) :
    Steps (Reaches env now may) (takeEvent env f k types now) := by
  intro σ r σ' h hσ
  obtain ⟨s, hid, hs, hr, ⟨event, -, -, rfl⟩ | ⟨-, s', σ₁, hexp, hfree, hindexed, hrest⟩⟩ :=
    takeEvent_cases may hσ h
  -- the record is there, and nothing is written
  · exact ⟨hσ.indexed, .refl⟩
  have hinv := hσ.inv.path hexp.path
  have hid' := hexp.id_eq
  have hr' : s'.run.state = .running := by rw [hexp.row]; exact hr
  rw [← hid'] at hfree
  rw [← hid, ← hid'] at htake hlisten
  -- a copy was taken
  obtain ⟨n, event, hcand, -, htaken⟩ | ⟨hcand, -, hcore⟩ := hrest
  · rw [← hid'] at hcand
    obtain ⟨e, he, hcore⟩ := takeCopy_core hinv htaken
    have hmove : Move env now may (σ₁.toCore.set s') _ :=
      .take k types n e event (by simp) hr' hexp.unexpired hfree hcand he htake
    rw [← hcore] at hmove
    exact ⟨hindexed, hexp.path.tail hmove⟩
  -- none was there, and the run waits from now on
  · rw [← hid'] at hcand
    refine ⟨hindexed, ?_⟩
    have hmove : Move env now may (σ₁.toCore.set s') _ :=
      .rewrite (s := s') (by simp) (.listen k types hr' hcand hlisten)
    rw [Core.set_set] at hmove
    · rw [hcore]
      exact hexp.path.tail hmove
    · rfl

/-! ### Answers -/

theorem offerWildcard_path {id : String} {n : Nat} {σ σ' : Rows} {u : Unit} (hσ : Good σ)
    (hlive : ∀ s, σ.run.get id = some s → s.run.endedMs = none)
    (h : offerWildcard id n now σ = .ok (u, σ')) : Indexed σ' ∧ Path env now may σ.toCore σ'.toCore := by
  simp only [offerWildcard, bind_ok, copy_ok, ensure_ok, Option.isNone_iff_eq_none] at h
  obtain ⟨e, σ₁, ⟨he, rfl⟩, u₁, σ₂, ⟨hpend, rfl⟩, h⟩ := h
  split at h
  · next hd =>
    simp only [bind_ok, run_ok, ensure_ok, decide_eq_true_eq, write_ok] at h
    obtain ⟨s, σ₃, ⟨hs, rfl⟩, u₂, σ₄, ⟨hlt, rfl⟩, u₃, σ₅, hwrite, hstore⟩ := h
    have hid := hσ.indexed.keyed _ _ hs
    have hindexed : Indexed σ₅ := by
      rw [hwrite]
      exact hσ.indexed.of_eq rfl rfl
    refine ⟨hindexed.storeRun hstore, ?_⟩
    rw [storeRun_core hstore, hwrite]
    rw [← hid] at hs he ⊢
    exact .single (.offer n e hs (hlive s (by rw [← hid]; exact hs)) he hpend hd hlt)
  · obtain ⟨-, rfl⟩ := pure_ok.mp h
    exact ⟨hσ.indexed, .refl⟩

theorem responseEvent_quiet (event : Json) : Steps Quiet (responseEvent env event now) := by
  unfold responseEvent
  split
  · exact .bind .orFail fun _ => .pure
  · exact .pure

/-- A delivery ends no run. -/
theorem deliver_ended {event : Json} {target r : Option String} {σ σ' : Rows} (hσ : Good σ)
    (h : deliver env event target now σ = .ok (r, σ')) {i : String} {s s' : StoredRun}
    (hs : σ.run.get i = some s) (hs' : σ'.run.get i = some s') :
    s'.run.endedMs = s.run.endedMs := by
  obtain ⟨-, hcore | ⟨s₀, t, -, -, -, hg, hcore⟩⟩ := deliver_cases hσ h
  · rw [show σ'.run = σ.run from congrArg Core.run hcore, hs] at hs'
    rw [Option.some.inj hs']
  · rw [show σ'.run = _ from congrArg Core.run hcore] at hs'
    by_cases hi : i = s₀.id
    · subst hi
      unfold accepting at hs'
      rw [Core.get_set, if_pos] at hs'
      · rw [← Option.some.inj hs', Option.some.inj (hs.symm.trans hg.stored), counted_run]
        split <;> rfl
      · rw [counted_id]
        split <;> rfl
    · rw [get_accepting_ne _ _ _ hi] at hs'
      rw [Option.some.inj (hs.symm.trans hs')]

/-- An answer keeps the type of its event. -/
theorem responseEvent_type {event ev : Json} {σ σ' : Rows}
    (h : responseEvent env event now σ = .ok (ev, σ')) : typeOf ev = typeOf event := by
  cases event with
  | obj members =>
    simp only [responseEvent, bind_ok, pure_ok] at h
    obtain ⟨time, σ₁, -, rfl, rfl⟩ := h
    unfold typeOf
    rw [Json.text_entry (by decide), Json.text_entry (by decide)]
  | _ =>
    obtain ⟨rfl, -⟩ := pure_ok.mp h
    rfl

theorem answerWait_reaches (id key identity : String) (event : Json)
    (hmay : ∀ t, typeOf event = some t → may id (.accept t true)) :
    Steps (Reaches env now may) (answerWait env id key identity event now) := by
  intro σ r σ' h hσ
  simp only [answerWait, bind_ok, findRun_ok, orFail_ok, ensure_ok, ofExcept_ok, read_ok,
    Bool.and_eq_true, Option.isNone_iff_eq_none] at h
  obtain ⟨found, σ₁, ⟨rfl, rfl⟩, s, σ₂, ⟨hs, rfl⟩, w, σ₃, ⟨-, rfl⟩, u, σ₄, ⟨⟨hlive, -⟩, rfl⟩, ev, σ₅,
    hev, m, σ₆, ⟨-, rfl⟩, u', σ₇, ⟨-, rfl⟩, rcpt, σ₈, hdel, acc, σ₉, ⟨-, rfl⟩, n, σ₁₀, ⟨-, rfl⟩,
    h⟩ := h
  have hquiet := responseEvent_quiet _ hev
  have hdeliver := deliver_reaches ev (some id)
    (fun i t ht hi => by
      obtain rfl := hi id rfl
      exact hmay t (by rw [← responseEvent_type hev]; exact ht)) hdel
  have hσ₇ := hquiet.good hσ
  have hreach : Reaches env now may _ _ := trans_of (Reaches env now may) hquiet.reaches hdeliver
  split at h
  · simp only [bind_ok, pure_ok] at h
    obtain ⟨u₂, σ₁₁, hoffer, -, rfl⟩ := h
    refine trans_of (Reaches env now may) hreach (fun hσ₁₀ => ?_) hσ
    refine offerWildcard_path hσ₁₀ (fun s' hs' => ?_) hoffer
    rw [← show σ₇.run = _ from congrArg Core.run hquiet.1] at hs
    rw [deliver_ended hσ₇ hdel hs hs', hlive]
  · obtain ⟨-, rfl⟩ := pure_ok.mp h
    exact hreach hσ

theorem respond_reaches (request : Request) (canonical : Command) (id key : String) (event : Json)
    (hmay : ∀ t, typeOf event = some t → may id (.accept t true)) :
    Steps (Reaches env now may) (respond env request canonical id key event now) := by
  refine .bind .orFail fun identity => .bind .read fun found => ?_
  split
  · exact .bind .ensure fun _ => .pure
  · exact .bind (answerWait_reaches _ _ _ _ hmay) fun _ =>
      .bind (.write fun _ => Quiet.reaches ⟨rfl, rfl⟩) fun _ => .pure

end Engine

end Ouro
