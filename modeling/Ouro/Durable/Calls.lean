import Ouro.Durable.Termination

/-!
# Every call is a path of moves

The operations of the store, each on a good store, lead along moves at the instant of the call to a
good store (`step_good`, `step_path`). So the invariant holds of every store reachable by any history
of calls (`good_after`).

An operation is a transaction, and each has one lemma `…_reaches` that follows its steps: what it reads, the
moves that its writes come to, and the index it leaves. A move names what it may do (`Act`), so that a path of
moves tells the calls apart: what an operation may do is a hypothesis of its lemma, and what a call may do is
`Op.may`. `Op.tx_reaches` puts the operations together, and every later result about histories goes by the
moves of a path and not by the calls.
-/

namespace Ouro

open Lib Engine Tx

variable {env : Env} {now : Int} {may : String → Act → Prop}

namespace Engine

/-! ### Admission and leases -/

theorem admitRun_reaches (hbook : ∀ i, may i .book) (a : Admission) :
    Steps (Reaches env now may) (admitRun env a now) := by
  refine .bind ((drainMarked_fills hbook _).mono fun _ _ => Fills.reaches) fun drained =>
    .bind (drainedRefusal_reads _ _).of_eq fun refusal => ?_
  split
  · exact .pure
  · exact .map ((insert_fills a).mono fun _ _ => Fills.reaches)

theorem claimRun_ok {s : StoredRun} {owner : String} {r : StoredRun × Fence}
    (h : claimRun s now owner = .ok r) :
    s.run.generation < u64Max ∧ r = (claimed s now owner,
      { runId := s.id, owner, generation := s.run.generation + 1 }) := by
  unfold claimRun at h
  split at h
  · next hlt => exact ⟨hlt, (Except.ok.inj h).symm⟩
  · simp at h

/-- A first row may be claimed at once. -/
theorem claimable_fresh (a : Admission) (digest : String) (epoch : Option Nat) :
    claimable (fresh a digest epoch now).run now = true := by
  simp [claimable, fresh]

/-- What a start does after its drain: it joins, or it stores a claimed first row. -/
theorem start_ok {a : Admission} {owner : String} {σ σ' : Rows} {r : Except Error (Option Fence)}
    (h : start env a now owner σ = .ok (r, σ')) :
    ∃ b σ₁, drainMarked env a.name now σ = .ok (b, σ₁) ∧ ((∀ f, r ≠ .ok (some f)) ∧ σ' = σ₁ ∨
      ∃ digest epoch u, σ₁.run.get a.id = none ∧
        storeRun (claimed (fresh a digest epoch now) now owner) σ₁ = .ok (u, σ') ∧
        r = .ok (some { runId := a.id, owner, generation := 1 })) := by
  simp only [start, bind_ok] at h
  obtain ⟨drained, σ₁, hdrain, refusal, σ₂, hrefusal, h⟩ := h
  obtain rfl := drainedRefusal_reads _ _ hrefusal
  refine ⟨drained, σ₁, hdrain, ?_⟩
  -- the drain tripped the definition and the start is refused, or it goes on
  cases refusal with
  | some refusal =>
    obtain ⟨rfl, rfl⟩ := pure_ok.mp h
    exact .inl ⟨by simp, rfl⟩
  | none =>
    simp only [bind_ok] at h
    obtain ⟨found, σ₃, hadm, h⟩ := h
    -- the run is there, and the start joins it; or its first row is stored, claimed
    obtain ⟨rfl, ⟨s, hs, rfl⟩ | ⟨hnone, digest, epoch, rfl⟩⟩ := admitted_ok hadm
    · obtain ⟨rfl, rfl⟩ := pure_ok.mp h
      exact .inl ⟨by simp, rfl⟩
    · simp only [bind_ok, ofExcept_ok, pure_ok] at h
      obtain ⟨claim, σ₄, ⟨hclaim, rfl⟩, u, σ₅, hstore, rfl, rfl⟩ := h
      obtain ⟨-, rfl⟩ := claimRun_ok hclaim
      exact .inr ⟨digest, epoch, u, hnone, hstore, rfl⟩

/-- A first row stored claimed. -/
theorem started_reaches {a : Admission} {digest owner : String} {epoch : Option Nat} {σ σ' : Rows}
    {u : Unit} (hnone : σ.run.get a.id = none)
    (h : storeRun (claimed (fresh a digest epoch now) now owner) σ = .ok (u, σ')) :
    Reaches env now may σ σ' := by
  refine fun hσ => hσ.store h ?_
  have hfirst : Move env now may σ.toCore _ := .admission a digest epoch none none hnone (.inl ⟨rfl, rfl⟩)
  have hclaim : Move env now may (σ.toCore.set (fresh a digest epoch now)) _ :=
    .rewrite (by simp) (.claim owner (claimable_fresh a digest epoch)
      (by simp [fresh, u64Max]))
  rw [Core.set_set] at hclaim
  · exact .head hfirst (.single hclaim)
  · rfl

theorem start_reaches (hbook : ∀ i, may i .book) (a : Admission) (owner : String) :
    Steps (Reaches env now may) (start env a now owner) := by
  intro σ r σ' h
  obtain ⟨b, σ₁, hdrain, hrest⟩ := start_ok h
  have hfill : Fills env now may σ σ₁ := drainMarked_fills hbook _ hdrain
  rcases hrest with ⟨-, rfl⟩ | ⟨digest, epoch, u, hnone, hstore, -⟩
  · exact hfill.reaches
  · exact trans_of (Reaches env now may) hfill.reaches (started_reaches hnone hstore)

theorem claimAs_reaches (id : String) (worker : Compatibility) (owner : String) :
    Steps (Reaches env now may) (claimAs id now worker owner) := by
  intro σ r σ' h hσ
  simp only [claimAs, isStopped, bind_ok, read_ok] at h
  obtain ⟨stopped, σ₁, ⟨-, rfl⟩, h⟩ := h
  -- while the operator has stopped all work nothing is claimed
  cases stopped with
  | true =>
    obtain ⟨-, rfl⟩ := pure_ok.mp h
    exact ⟨hσ.indexed, .refl⟩
  | false =>
    simp only [Bool.false_eq_true, if_false, bind_ok, findRun_ok] at h
    obtain ⟨found, σ₂, ⟨hfound, rfl⟩, h⟩ := h
    cases found with
    | none =>
      obtain ⟨-, rfl⟩ := pure_ok.mp h
      exact ⟨hσ.indexed, .refl⟩
    | some s =>
      simp only at h
      -- a run that is not claimable is left
      split at h
      · obtain ⟨-, rfl⟩ := pure_ok.mp h
        exact ⟨hσ.indexed, .refl⟩
      · next hc =>
        simp only [bind_ok, ofExcept_ok, pure_ok] at h
        obtain ⟨claim, σ₃, ⟨hclaim, rfl⟩, u, σ₄, hstore, -, rfl⟩ := h
        obtain ⟨hgen, rfl⟩ := claimRun_ok hclaim
        simp only [Bool.or_eq_true, Bool.not_eq_true', not_or, Bool.not_eq_false] at hc
        exact hσ.rewrite hfound.symm (.claim owner hc.1 hgen) hstore

theorem checkLease_quiet (f : Fence) : Steps Quiet (checkLease env f now) := by
  intro σ u σ' h
  simp only [checkLease, bind_ok, pure_ok] at h
  obtain ⟨s, σ₁, hchecked, -, rfl⟩ := h
  obtain ⟨rfl, -⟩ := checked_ok hchecked
  exact ⟨rfl, rfl⟩

theorem renew_reaches (f : Fence) : Steps (Reaches env now may) (renew env f now) := by
  intro σ r σ' h hσ
  simp only [renew, bind_ok, pure_ok] at h
  obtain ⟨u, σ₁, hrun, s, σ₂, hauth, u', σ₃, hstore, -, rfl⟩ := h
  obtain rfl := running_ok hrun
  obtain ⟨rfl, hs, hr, -⟩ := authority_ok hauth
  exact hσ.rewrite hs (.renew hr) hstore

theorem release_reaches (f : Fence) : Steps (Reaches env now may) (release env f now) := by
  intro σ r σ' h hσ
  simp only [release, bind_ok] at h
  obtain ⟨s, σ₂, hauth, hstore⟩ := h
  obtain ⟨rfl, hs, hr, -⟩ := authority_ok hauth
  exact hσ.rewrite hs (.release hr) hstore

/-! ### Records -/

theorem loadRecords_quiet (f : Fence) : Steps Quiet (loadRecords env f now) := by
  intro σ u σ' h
  simp only [loadRecords, bind_ok, read_ok] at h
  obtain ⟨s, σ₁, hchecked, -, rfl⟩ := h
  obtain ⟨rfl, -⟩ := checked_ok hchecked
  exact ⟨rfl, rfl⟩

/-- The row of a run that is marked to have evidence. -/
def marked (s : StoredRun) (annotations : Totals) : StoredRun :=
  { s with evidence := true, run := { s.run with annotations } }

theorem get_marked (c : Core) (s : StoredRun) (a : Totals) :
    (c.set (marked s a)).run.get s.id = some (marked s a) := by
  rw [Core.get_set]
  exact if_pos rfl

/-- A record written for a running run that is marked: what is written and the mark commute, so the
mark goes first. -/
theorem record_path {c : Core} {s : StoredRun} {a : Totals} {k : String} {r : Record}
    (hr : s.run.state = .running) (hk : Recorded ((c.record s.id).get k) r)
    (hkey : may s.id (.record k r))
    (hmay : committedElsewhere r = none ∨ (c.record s.id).get k = some r ∨ may s.id .spend) :
    Path env now may (c.set (marked s a)) ((c.setRecord s.id k r).set (marked s a)) :=
  .single (.record (s := marked s a) k r (get_marked c s a) hr rfl hk hkey hmay)

/-- A row is marked where that changes it. -/
theorem marked_core {s : StoredRun} {a : Totals} {σ σ' : Rows} {u : Unit} (hσ : Indexed σ)
    (hs : σ.run.get s.id = some s)
    (h : (if s.evidence && decide (a = s.run.annotations) then pure ()
      else storeRun (marked s a) : Txn Unit) σ = .ok (u, σ')) :
    Indexed σ' ∧ σ'.toCore = σ.toCore.set (marked s a) := by
  split at h
  · next hmarked =>
    obtain ⟨-, rfl⟩ := pure_ok.mp h
    simp only [Bool.and_eq_true, decide_eq_true_eq] at hmarked
    have hself : marked s a = s := by
      unfold marked
      rw [hmarked.2, ← hmarked.1]
    rw [hself, Core.set_self hs]
    exact ⟨hσ, rfl⟩
  · exact ⟨hσ.storeRun h, storeRun_core h⟩

theorem savable_ok {s : StoredRun} {old : Option Record} {r : Record} {σ σ' : Rows} {u : Unit}
    (h : savable s old r σ = .ok (u, σ')) : σ' = σ ∧ Recorded old r ∧
      (committedElsewhere r = none ∨ old = some r) := by
  unfold savable at h
  cases helse : committedElsewhere r with
  | none =>
    -- whichever way the hold check goes, the transition is checked next
    simp only [helse] at h
    split at h
    · rw [ensure_ok] at h
      exact ⟨h.2, .saved helse h.1, .inl rfl⟩
    · simp only [bind_ok, ofExcept_ok, ensure_ok] at h
      obtain ⟨u₁, σ₁, ⟨-, rfl⟩, htrans, rfl⟩ := h
      exact ⟨rfl, .saved helse htrans, .inl rfl⟩
  | some message =>
    -- such a record is only saved again as it is
    simp only [helse] at h
    split at h
    · simp only [bind_ok, ensure_ok, decide_eq_true_eq] at h
      obtain ⟨u₁, σ₁, ⟨rfl, rfl⟩, -, rfl⟩ := h
      exact ⟨rfl, .same r, .inr rfl⟩
    · simp only [bind_ok, ofExcept_ok, ensure_ok, decide_eq_true_eq] at h
      obtain ⟨u₁, σ₁, ⟨-, rfl⟩, u₂, σ₂, ⟨rfl, rfl⟩, -, rfl⟩ := h
      exact ⟨rfl, .same r, .inr rfl⟩

/-- A save writes its record and marks the run, with the annotations of a new answer added. -/
theorem saveRecord_ok {f : Fence} {k : String} {r : Record} {σ σ' : Rows} {u : Unit} (hσ : Good σ)
    (h : saveRecord env f k r now σ = .ok (u, σ')) :
    ∃ s, σ.run.get s.id = some s ∧ s.id = f.runId ∧ s.run.state = .running ∧
      Recorded ((σ.record s.id).get k) r ∧
      (committedElsewhere r = none ∨ (σ.record s.id).get k = some r) ∧ Indexed σ' ∧
      σ'.toCore = (σ.toCore.setRecord s.id k r).set (marked s
        (accumulate env.addFloat s.run.annotations (newAnnotations ((σ.record s.id).get k) r))) := by
  simp only [saveRecord, bind_ok, read_ok, write_ok] at h
  -- what the transaction reads, and the one record and the mark it writes
  obtain ⟨u₁, σ₁, hrun, s, σ₂, hauth, old, σ₃, ⟨hold, rfl⟩, u₂, σ₄, hsave, u₃, σ₅, hσ₅, h⟩ := h
  obtain rfl := running_ok hrun
  obtain ⟨rfl, hs, hr, -⟩ := authority_ok hauth
  obtain ⟨rfl, hrec, hkind⟩ := savable_ok hsave
  have hid := hσ.indexed.keyed _ _ hs
  rw [← hid] at hs hold hσ₅
  rw [hold] at hrec hkind h
  have hindexed₅ : Indexed σ₅ := by
    rw [hσ₅]
    exact hσ.indexed.of_eq rfl rfl
  obtain ⟨hindexed, hcore⟩ := marked_core hindexed₅ (by rw [hσ₅]; exact hs) h
  rw [hσ₅] at hcore
  exact ⟨s, hs, hid, hr, hrec, hkind, hindexed, hcore⟩

theorem saveRecord_reaches (f : Fence) (k : String) (r : Record) (hmay : may f.runId .annotate)
    (hkey : may f.runId (.record k r)) : Steps (Reaches env now may) (saveRecord env f k r now) := by
  intro σ u σ' h hσ
  obtain ⟨s, hs, hid, hr, hrec, hkind, hindexed, hcore⟩ := saveRecord_ok hσ h
  rw [← hid] at hmay hkey
  refine ⟨hindexed, ?_⟩
  rw [hcore]
  exact .head (.rewrite hs (.mark _ hr (.inr hmay)))
    (record_path hr hrec hkey (hkind.imp id .inl))

theorem firstRefused_ok {run k first : String} {σ σ' : Rows}
    (h : firstRefused run k σ = .ok (first, σ')) :
    σ' = σ ∨ (σ.record run).get exceededKey = none ∧
      σ' = { σ with record := Table.putAt σ.record run exceededKey (.exceeded k) } := by
  simp only [firstRefused, bind_ok, read_ok] at h
  obtain ⟨found, σ₁, ⟨hfound, rfl⟩, h⟩ := h
  cases found with
  | none =>
    simp only [bind_ok, write_ok, pure_ok] at h
    obtain ⟨u, σ₂, rfl, -, rfl⟩ := h
    exact .inr ⟨hfound.symm, rfl⟩
  | some r =>
    cases r with
    | exceeded by_ => exact .inl (pure_ok.mp h).2
    | _ => simp at h

theorem spend_reaches (f : Fence) (k : String) (limit : Nat) (hmay : may f.runId .spend)
    (hkey : ∀ granted n first, may f.runId (.record k (.budget granted n first)))
    (hrefuse : may f.runId (.record exceededKey (.exceeded k))) :
    Steps (Reaches env now may) (spend env f k limit now) := by
  -- the run is checked, and its journal is read at the key
  intro σ r σ' h hσ
  simp only [spend, bind_ok, read_ok] at h
  obtain ⟨s, σ₁, hchecked, found, σ₂, ⟨hfound, rfl⟩, h⟩ := h
  obtain ⟨rfl, hs, hr⟩ := checked_ok hchecked
  have hid := hσ.indexed.keyed _ _ hs
  rw [← hid] at hs hfound hmay hkey hrefuse
  -- a decision that is there is given back, and nothing is written
  cases found with
  | some record =>
    cases record with
    | budget granted spent first =>
      obtain ⟨-, rfl⟩ := pure_ok.mp h
      exact ⟨hσ.indexed, .refl⟩
    | _ => simp at h
  | none =>
    simp only [bind_ok, write_ok] at h
    obtain ⟨record, σ₃, hunit, u, σ₄, hσ₄, h⟩ := h
    rw [← hid] at hunit hσ₄
    -- the unit is spent, or the first refusal is recorded
    obtain ⟨hindexed₃, hrun₃, hpath, hrec, granted, n, first, rfl⟩ : Indexed σ₃ ∧ σ₃.run = σ₂.run ∧
        Path env now may (σ₂.toCore.set (marked s s.run.annotations))
          (σ₃.toCore.set (marked s s.run.annotations)) ∧
        Recorded ((σ₃.record s.id).get k) record ∧
        ∃ granted n first, record = .budget granted n first := by
      simp only [spendUnit, bind_ok, read_ok] at hunit
      obtain ⟨spent, σ₅, ⟨hspent, rfl⟩, hunit⟩ := hunit
      split at hunit
      -- room for a unit: the counter of the tree grows
      · next hlt =>
        simp only [bind_ok, write_ok, pure_ok] at hunit
        obtain ⟨u₁, σ₆, rfl, rfl, rfl⟩ := hunit
        rw [hspent] at hlt ⊢
        refine ⟨hσ.indexed.of_eq rfl rfl, rfl, .single
          (.spend (s := marked s s.run.annotations) limit (get_marked _ _ _) hr hlt hmay), ?_, _, _, _, rfl⟩
        change Recorded ((σ₅.record s.id).get k) _
        rw [← hfound]
        exact .spent _ _ _
      -- no room: the first refusal is recorded, if there is none yet
      · simp only [bind_ok, pure_ok] at hunit
        obtain ⟨first, σ₆, hfirst, rfl, rfl⟩ := hunit
        rcases firstRefused_ok hfirst with rfl | ⟨hnone, rfl⟩
        · refine ⟨hσ.indexed, rfl, .refl, ?_, _, _, _, rfl⟩
          rw [← hfound]
          exact .spent _ _ _
        · refine ⟨hσ.indexed.of_eq rfl rfl, rfl, ?_, ?_, _, _, _, rfl⟩
          · exact record_path hr (by rw [hnone]; exact .refused k) hrefuse (.inr (.inr hmay))
          · change Recorded ((Table.putAt σ₅.record s.id exceededKey (.exceeded k) s.id).get k) _
            rw [Table.get_putAt]
            split
            · exact .overwritten _ _ _ _
            · rw [← hfound]
              exact .spent _ _ _
    -- the decision itself is a record of the journal, which the run's mark goes ahead of
    have hindexed₄ : Indexed σ₄ := by
      rw [hσ₄]
      exact hindexed₃.of_eq rfl rfl
    have hs₄ : σ₄.run.get s.id = some s := by
      rw [hσ₄]
      change σ₃.run.get s.id = some s
      rw [hrun₃]
      exact hs
    -- the mark is the last write, and the first move
    obtain ⟨hindexed, hcore⟩ : Indexed σ' ∧ σ'.toCore = σ₄.toCore.set (marked s s.run.annotations) := by
      refine marked_core (u := ()) hindexed₄ hs₄ ?_
      simp only [decide_true, Bool.and_true]
      split at h
      · next hev =>
        obtain ⟨-, rfl⟩ := pure_ok.mp h
        rw [if_pos hev]
        rfl
      · next hev =>
        simp only [bind_ok, pure_ok] at h
        obtain ⟨u₁, σ₅, hstore, -, rfl⟩ := h
        rw [if_neg hev]
        exact hstore
    refine ⟨hindexed, ?_⟩
    rw [hcore, hσ₄]
    exact .head (.rewrite hs (.mark _ hr (.inl rfl)))
      (hpath.trans (record_path hr hrec (hkey _ _ _) (.inr (.inr hmay))))

/-! ### Listens -/

/-- A checked call that rewrites the row it read. -/
theorem checked_rewrite {f : Fence} {σ σ' : Rows} {g : StoredRun → StoredRun} {u : Unit}
    (hσ : Good σ)
    (hrw : ∀ s, s.id = f.runId → s.run.state = .running → Rewrite σ.toCore now may s (g s))
    (h : (do let s ← checked f now env.policy.skewMs
             storeRun (g s) : Txn Unit) σ = .ok (u, σ')) :
    Indexed σ' ∧ Path env now may σ.toCore σ'.toCore := by
  simp only [bind_ok] at h
  obtain ⟨s, σ₁, hchecked, hstore⟩ := h
  obtain ⟨rfl, hs, hr⟩ := checked_ok hchecked
  exact hσ.rewrite hs (hrw s (hσ.indexed.keyed _ _ hs) hr) hstore

theorem registerWait_reaches (f : Fence) (types : List String)
    (hmay : may f.runId (.register types)) :
    Steps (Reaches env now may) (registerWait env f types now) :=
  fun _ _ _ h hσ => checked_rewrite hσ (fun _ hid hr => .register types hr (hid ▸ hmay)) h

theorem unregisterWait_reaches (f : Fence) (k : String) (types : List String)
    (hmay : may f.runId (.unregister k types)) :
    Steps (Reaches env now may) (unregisterWait env f k types now) :=
  fun _ _ _ h hσ => checked_rewrite (g := fun s =>
    close { s with listeners := s.listeners.delete k } types) hσ
    (fun _ hid hr => .unregister k types hr (hid ▸ hmay)) h

theorem subscribe_reaches (f : Fence) (k : String) (types : List String) :
    Steps (Reaches env now may) (subscribe env f k types now) :=
  fun _ _ _ h hσ => checked_rewrite (g := fun s =>
    { s with subscriptions := s.subscriptions.put k types }) hσ
    (fun _ _ hr => .subscribe k types hr) h

theorem unsubscribe_reaches (f : Fence) (k : String) :
    Steps (Reaches env now may) (unsubscribe env f k now) :=
  fun _ _ _ h hσ => checked_rewrite (g := fun s =>
    { s with subscriptions := s.subscriptions.delete k, waits := s.waits.delete k }) hσ
    (fun _ _ hr => .unsubscribe k hr) h

theorem describeWait_reaches (f : Fence) (k : String) (wait : PendingWait) :
    Steps (Reaches env now may) (describeWait env f k wait now) := by
  intro σ u σ' h hσ
  simp only [describeWait, bind_ok] at h
  obtain ⟨s, σ₁, hchecked, h⟩ := h
  obtain ⟨rfl, hs, hr⟩ := checked_ok hchecked
  split at h
  · obtain ⟨-, rfl⟩ := pure_ok.mp h
    exact ⟨hσ.indexed, .refl⟩
  · exact hσ.rewrite hs (.describe k _ hr) h

/-! ### The end of an execution -/

/-- An execution that ends its run settles its count of interruptions and nothing else. -/
theorem finished_terminal {c : Core} {s : StoredRun} {outcome : Status}
    (h : (finished c s outcome now).2.terminal = true) :
    ∃ n, (finished c s outcome now).1 = { s with run := { s.run with interruptions := n } } := by
  cases outcome with
  | waiting wakeAtMs => simp [finished, Status.terminal] at h
  | interrupted error =>
    simp only [finished] at h ⊢
    split
    · exact ⟨_, rfl⟩
    · next hn => simp [hn, Status.terminal] at h
  | completed | faulted | cancelled => exact ⟨_, rfl⟩

/-- A finish that ends its run settles the count of interruptions first; the row it stores meanwhile
differs in what the end overwrites. -/
theorem finish_limbo (env : Env) {s : StoredRun} {outcome : Status} {σ σ₁ σ₂ : Rows} {u : Unit} (hσ : Good σ)
    (hs : σ.run.get s.id = some s) (hr : s.run.state = .running)
    (hterm : (finished σ.toCore s outcome now).2.terminal = true)
    (hstore : storeRun (disowned (finished σ.toCore s outcome now).1) σ = .ok (u, σ₁))
    (hquiet : Quiet σ₁ σ₂) :
    ∃ n, Limbo (σ.toCore.set { s with run := { s.run with interruptions := n } })
      { s with run := { s.run with interruptions := n } } σ₂
      (disowned (finished σ.toCore s outcome now).1) := by
  obtain ⟨n, hfin⟩ := finished_terminal hterm
  have hcount : Move env now (fun _ _ => True) σ.toCore _ := .rewrite hs (.count n hr)
  exact ⟨n,
    { inv := hσ.inv.move hcount
      stored := by simp
      live := (hσ.inv.sane _ _ hs).live_of_running hr
      indexed := hquiet.indexed (hσ.indexed.storeRun hstore)
      core := by
        rw [hquiet.1, storeRun_core hstore, Core.set_set]
        rw [hfin]
        rfl
      id := by rw [hfin]; rfl
      root := by rw [hfin]; rfl
      ending := fun _ _ _ => by rw [hfin]; rfl }⟩

/-- A call on the rows of the store ends the run `s`, in the rows `σ'`. -/
inductive Terminates (env : Env) (now : Int) (σ : Rows) (s : StoredRun) : Status → Rows → Prop
  /-- A cancel finds the run live. -/
  | cancel (hs : findRun s.id σ = .ok (some s, σ)) (hl : s.run.endedMs.isSome = false) :
      Terminates env now σ s .cancelled σ
  /-- A finish whose status is terminal has given the run back and told the breaker. -/
  | finish {f : Fence} {outcome : Status} {threshold : Nat} {success : Bool} {σ₁ σ₂ : Rows}
      (hs : checked f now env.policy.skewMs σ = .ok (s, σ))
      (ht : (finished σ.toCore s outcome now).2.terminal = true)
      (hstore : storeRun (disowned (finished σ.toCore s outcome now).1) σ = .ok ((), σ₁))
      (hb : breaker env (disowned (finished σ.toCore s outcome now).1).run
        (faultOf outcome (finished σ.toCore s outcome now).2) success threshold now σ₁ = .ok ((), σ₂)) :
      Terminates env now σ s (finished σ.toCore s outcome now).2 σ₂

theorem Terminates.terminal {σ σ' : Rows} {s : StoredRun} {status : Status}
    (h : Terminates env now σ s status σ') : status.terminal = true := by
  cases h with
  | cancel => rfl
  | finish hs ht => exact ht

/-- Up to what the end overwrites, and the count of interruptions, they are the rows of the store. -/
theorem Terminates.limbo {σ σ' : Rows} {s : StoredRun} {status : Status} (hσ : Good σ)
    (h : Terminates env now σ s status σ') :
    σ.run.get s.id = some s ∧ s.run.endedMs = none ∧
      ∃ n s', Limbo (σ.toCore.set { s with run := { s.run with interruptions := n } })
        { s with run := { s.run with interruptions := n } } σ' s' ∧
        (n = s.run.interruptions ∨ s.run.state = .running) := by
  cases h with
  -- a cancel ends the stored run as it is
  | cancel hs hl =>
    have hget := (findRun_ok.mp hs).1.symm
    have hlive : s.run.endedMs = none := by simpa using hl
    refine ⟨hget, hlive, s.run.interruptions, s, ?_, .inl rfl⟩
    rw [show { s with run := { s.run with interruptions := s.run.interruptions } } = s from rfl,
      Core.set_self hget]
    exact Good.limbo hσ hget hlive
  -- a finish has counted interruptions first
  | @finish f outcome threshold success σ₁ σ₂ hs ht hstore hb =>
    obtain ⟨-, hget, hr⟩ := checked_ok hs
    have hget := hσ.get_id hget
    obtain ⟨n, hlimbo⟩ := finish_limbo env hσ hget hr ht hstore (breaker_quiet _ _ _ _ _ hb)
    exact ⟨hget, (hσ.inv.sane _ _ hget).live_of_running hr, n, _, hlimbo, .inr hr⟩

/-- A call ends the live run `id`. -/
def Ends (env : Env) (now : Int) (id : String) (σ σ' : Rows) : Prop :=
  ∃ s status σ₁, s.id = id ∧ Terminates env now σ s status σ₁ ∧
    terminate env id status now σ₁ = .ok ((), σ')

theorem Ends.reaches {id : String} {σ σ' : Rows} (h : Ends env now id σ σ') (hmay : may id .finish)
    (hbook : ∀ i, may i .book) : Reaches env now may σ σ' := by
  intro hσ
  obtain ⟨s, status, σ₁, rfl, hterm, hend⟩ := h
  obtain ⟨hs, -, n, s', hlimbo, hn⟩ := hterm.limbo hσ
  obtain ⟨hindexed, hpath⟩ := terminate_path hlimbo hterm.terminal hmay hbook hend
  refine ⟨hindexed, ?_⟩
  rcases hn with rfl | hr
  · rwa [show { s with run := { s.run with interruptions := s.run.interruptions } } = s from rfl,
      Core.set_self hs] at hpath
  · exact .head (.rewrite hs (.count n hr)) hpath

/-- A finish parks its run and reports it, or ends it. -/
theorem finish_cases (may : String → Act → Prop) {f : Fence} {outcome r : Status} {threshold : Nat}
    {σ σ' : Rows} (hσ : Good σ) (h : finish env f outcome now threshold σ = .ok (r, σ')) :
    (Reaches env now may σ σ' ∧ ∃ s u σ₁ u', storeRun s σ = .ok (u, σ₁) ∧
      lifecycle f.runId r now σ₁ = .ok (u', σ')) ∨ Ends env now f.runId σ σ' := by
  simp only [finish, bind_ok, read_ok] at h
  obtain ⟨s, σ₁, hchecked, ⟨s', status⟩, σ₂, ⟨hfin, rfl⟩, u, σ₃, hstore, h⟩ := h
  obtain ⟨rfl, hs, hr⟩ := checked_ok hchecked
  obtain ⟨rfl, rfl⟩ : s' = (finished σ₂.toCore s outcome now).1 ∧
      status = (finished σ₂.toCore s outcome now).2 := ⟨congrArg Prod.fst hfin, congrArg Prod.snd hfin⟩
  simp only at hstore h
  -- a final status ends the run; another one parks it
  cases hterm : (finished σ₂.toCore s outcome now).2.terminal with
  | true =>
    simp only [hterm, if_true, bind_ok, pure_ok] at h
    obtain ⟨u₁, σ₄, hbreaker, u₂, σ₅, hend, -, rfl⟩ := h
    exact .inr ⟨s, _, σ₄, hσ.indexed.keyed _ _ hs, .finish hchecked hterm hstore hbreaker, hend⟩
  | false =>
    simp only [hterm, Bool.false_eq_true, if_false, bind_ok, pure_ok] at h
    obtain ⟨u₁, σ₄, hlife, rfl, rfl⟩ := h
    -- the parent hears of a run that waits, not of one that is to go on
    have hpark : Reaches env now may σ₂ σ₃ := fun hσ => hσ.rewrite hs (.park outcome hr hterm) hstore
    refine .inl ⟨trans_of (Reaches env now may) hpark fun hσ₃ => lifecycle_path env hσ₃ ?_ ?_ hlife,
      _, _, σ₃, _, hstore, hlife⟩
    · intro t _ _ _ hnotice
      simp [lifecycleNotice_done hnotice] at hterm
    · intro ht
      simp [ht] at hterm

theorem finish_reaches (f : Fence) (outcome : Status) (threshold : Nat)
    (hmay : may f.runId .finish) (hbook : ∀ i, may i .book) :
    Steps (Reaches env now may) (finish env f outcome now threshold) := by
  intro σ r σ' h hσ
  rcases finish_cases may hσ h with ⟨hreach, -⟩ | hend
  · exact hreach hσ
  · exact hend.reaches hmay hbook hσ

/-- A cancel changes nothing, or ends its run. -/
theorem cancelRun_cases {id : String} {r : Bool} {σ σ' : Rows} (hσ : Good σ)
    (h : cancelRun env id now σ = .ok (r, σ')) : σ' = σ ∨ Ends env now id σ σ' := by
  simp only [cancelRun, bind_ok, findRun_ok] at h
  -- no run, or one that has ended, or one to be ended
  obtain ⟨found, σ₁, ⟨hfound, rfl⟩, h⟩ := h
  cases found with
  | none => exact .inl (pure_ok.mp h).2
  | some s =>
    simp only at h
    split at h
    · exact .inl (pure_ok.mp h).2
    · next hl =>
      simp only [bind_ok, pure_ok] at h
      obtain ⟨u, σ₂, hterm, -, rfl⟩ := h
      have hid := hσ.indexed.keyed _ _ hfound.symm
      refine .inr ⟨s, .cancelled, _, hid, .cancel ?_ (by simpa using hl), hterm⟩
      exact findRun_ok.mpr ⟨by rw [hid]; exact hfound, rfl⟩

theorem cancelRun_reaches (id : String) (hmay : may id .finish) (hbook : ∀ i, may i .book) :
    Steps (Reaches env now may) (cancelRun env id now) := by
  intro σ r σ' h hσ
  rcases cancelRun_cases hσ h with rfl | hend
  · exact ⟨hσ.indexed, .refl⟩
  · exact hend.reaches hmay hbook hσ

/-! ### Children -/

theorem rejoin_reaches (c : StoredRun) {σ σ' : Rows} {u : Unit} (hc : σ.run.get c.id = some c)
    (hmay : may c.id .report) (h : rejoin c now σ = .ok (u, σ')) : Reaches env now may σ σ' := by
  simp only [rejoin, bind_ok] at h
  obtain ⟨u₁, σ₁, hstore, h⟩ := h
  have hsame : σ₁.toCore = σ.toCore := by rw [storeRun_core hstore, Core.set_self hc]
  -- the child is stored as it is, and reported again
  have hreach : Reaches env now may σ σ₁ := fun hσ =>
    ⟨hσ.indexed.storeRun hstore, by rw [hsame]⟩
  have hc₁ : σ₁.run.get c.id = some c := by
    rw [show σ₁.run = σ.run from congrArg Core.run hsame]; exact hc
  cases hout : c.run.outcome with
  | some outcome =>
    rw [hout] at h
    -- it has ended, and its outcome is what its parent hears
    refine trans_of (Reaches env now may) hreach fun hσ₁ => lifecycle_path env hσ₁ ?_ (fun _ => .inr hmay) h
    intro t _ _ ht _
    rw [← Option.some.inj (hc₁.symm.trans ht), hout]
  | none =>
    simp only [hout] at h
    -- it waits, or it runs on and nothing is reported
    split at h
    · refine trans_of (Reaches env now may) hreach fun hσ₁ =>
        lifecycle_path env hσ₁ ?_ (fun _ => .inr hmay) h
      intro t _ _ _ hnotice
      simp [lifecycleNotice] at hnotice
    · obtain ⟨-, rfl⟩ := pure_ok.mp h
      exact hreach

/-- What the start of a child does after its drain: nothing, or its parent registers and the child is
born claimed, or joined. -/
theorem startChild_ok {parent : Fence} {a : Admission} {link : ChildLink} {owner : String}
    {σ σ' : Rows} {r : Except Error (Option Fence)}
    (h : startChild env parent a link now owner σ = .ok (r, σ')) :
    ∃ p b σ₁, σ.run.get parent.runId = some p ∧ p.run.state = .running ∧
      drainMarked env a.name now σ = .ok (b, σ₁) ∧
      (σ' = σ₁ ∧ (∀ f, r ≠ .ok (some f)) ∨
        link.parent = parent.runId ∧ a.id ≠ parent.runId ∧
        ∃ u σ₂, storeRun (adopting p a.id now) σ₁ = .ok (u, σ₂) ∧
          ((∃ digest epoch u, σ₂.run.get a.id = none ∧
              storeRun (claimed (linked (fresh a digest epoch now) link
                (p.run.root.getD parent.runId)) now owner) σ₂ = .ok (u, σ') ∧
              r = .ok (some { runId := a.id, owner, generation := 1 })) ∨
            ∃ c u, σ₂.run.get a.id = some c ∧ c.run.child = some link ∧
              rejoin c now σ₂ = .ok (u, σ') ∧ r = .ok none)) := by
  simp only [startChild, bind_ok, ensure_ok, decide_eq_true_eq] at h
  obtain ⟨p, σ₁, hchecked, u, σ₂, ⟨⟨hlink, hne⟩, rfl⟩, drained, σ₃, hdrain, refusal, σ₄, hrefusal, h⟩ := h
  obtain ⟨rfl, hp, hr⟩ := checked_ok hchecked
  obtain rfl := drainedRefusal_reads _ _ hrefusal
  refine ⟨p, drained, σ₃, hp, hr, hdrain, ?_⟩
  -- the drain tripped the definition and the child is refused, or it is not
  cases refusal with
  | some refusal =>
    obtain ⟨rfl, rfl⟩ := pure_ok.mp h
    exact .inl ⟨rfl, by simp⟩
  | none =>
    simp only [bind_ok] at h
    obtain ⟨u₁, σ₅, hstore, found, σ₆, hadm, h⟩ := h
    refine .inr ⟨hlink, hne, u₁, σ₅, hstore, ?_⟩
    -- the child is there and must be this parent's, or it is born
    obtain ⟨rfl, ⟨c, hc, rfl⟩ | ⟨hnone, digest, epoch, rfl⟩⟩ := admitted_ok hadm
    · simp only [bind_ok, run_ok, ensure_ok, decide_eq_true_eq, pure_ok] at h
      obtain ⟨c', σ₇, ⟨hc', rfl⟩, u₂, σ₈, ⟨hclink, rfl⟩, u₃, σ₉, hrejoin, rfl, rfl⟩ := h
      exact .inr ⟨c', u₃, hc', hclink, hrejoin, rfl⟩
    · simp only [bind_ok, ofExcept_ok, pure_ok] at h
      obtain ⟨claim, σ₇, ⟨hclaim, rfl⟩, u₂, σ₈, hstore₂, rfl, rfl⟩ := h
      obtain ⟨-, rfl⟩ := claimRun_ok hclaim
      exact .inl ⟨digest, epoch, u₂, hnone, hstore₂, rfl⟩

/-- A child of the run `p`, born claimed or joined. -/
theorem adopted_reaches {parent : Fence} {a : Admission} {link : ChildLink} {p : StoredRun}
    {σ σ₁ σ' : Rows} {u : Unit} (owner : String) (hmay : may a.id .report)
    (hadopts : may parent.runId (.adopt a.id))
    (hp : σ.run.get parent.runId = some p) (hr : p.run.state = .running)
    (hlink : link.parent = parent.runId)
    (hadopt : storeRun (adopting p a.id now) σ = .ok (u, σ₁))
    (h : (∃ digest epoch u, σ₁.run.get a.id = none ∧
        storeRun (claimed (linked (fresh a digest epoch now) link
          (p.run.root.getD parent.runId)) now owner) σ₁ = .ok (u, σ')) ∨
      ∃ c u, σ₁.run.get a.id = some c ∧ rejoin c now σ₁ = .ok (u, σ')) :
    Reaches env now may σ σ' := by
  intro hσ
  have hpid := hσ.indexed.keyed _ _ hp
  have hreach : Reaches env now may σ σ₁ := fun hσ =>
    hσ.rewrite hp (.adopt a.id hr (hpid.symm ▸ hadopts)) hadopt
  refine trans_of (Reaches env now may) hreach ?_ hσ
  -- born: the parent waits for it already when its first row is stored
  rcases h with ⟨digest, epoch, u₂, hnone, hstore⟩ | ⟨c, u₂, hc, hrejoin⟩
  · intro hσ₁
    refine hσ₁.store hstore ?_
    have hpstored : σ₁.run.get (adopting p a.id now).id = some (adopting p a.id now) := by
      rw [show σ₁.run = _ from congrArg Core.run (storeRun_core hadopt)]
      simp
    have hbirth : Move env now may σ₁.toCore _ :=
      .bear (p := adopting p a.id now) a digest epoch link hnone hpstored
        (hlink.trans hpid.symm) hr (adopting_awaits.mpr (.inr (.inl rfl)))
        (Table.get_put_self p.listeners ("child:" ++ a.id) ["done:" ++ a.id])
    rw [adopting_run, show (adopting p a.id now).id = parent.runId from hpid] at hbirth
    obtain ⟨first, hfirst⟩ : ∃ first, first =
      linked (fresh a digest epoch now) link (p.run.root.getD parent.runId) := ⟨_, rfl⟩
    rw [← hfirst] at hbirth ⊢
    have hclaim : Move env now may (σ₁.toCore.set first) _ :=
      .rewrite (s := first) (by simp)
        (.claim owner (by rw [hfirst]; exact claimable_fresh a digest epoch)
          (by simp [hfirst, linked, fresh, u64Max]))
    rw [Core.set_set] at hclaim
    · exact .head hbirth (.single hclaim)
    · rfl
  -- joined: it is reported again
  · intro hσ₁
    refine rejoin_reaches c (hσ₁.get_id hc) ?_ hrejoin hσ₁
    rw [hσ₁.indexed.keyed _ _ hc]
    exact hmay

theorem startChild_reaches (parent : Fence) (a : Admission) (link : ChildLink) (owner : String)
    (hmay : may a.id .report) (hadopts : may parent.runId (.adopt a.id)) (hbook : ∀ i, may i .book) :
    Steps (Reaches env now may) (startChild env parent a link now owner) := by
  intro σ r σ' h hσ
  obtain ⟨p, b, σ₁, hp, hr, hdrain, hrest⟩ := startChild_ok h
  have hfill : Fills env now may σ σ₁ := drainMarked_fills hbook _ hdrain
  rcases hrest with ⟨rfl, -⟩ | ⟨hlink, -, u, σ₂, hadopt, hrest⟩
  · exact hfill.reaches hσ
  · have hp₁ := (hfill hσ).2 _ _ hp
    refine trans_of (Reaches env now may) hfill.reaches
      (adopted_reaches owner hmay hadopts hp₁ hr hlink hadopt ?_) hσ
    rcases hrest with ⟨digest, epoch, u₂, hnone, hstore, -⟩ | ⟨c, u₂, hc, -, hrejoin, -⟩
    · exact .inl ⟨digest, epoch, u₂, hnone, hstore⟩
    · exact .inr ⟨c, u₂, hc, hrejoin⟩

/-! ### Scheduling and sweeping -/

theorem dueRun_quiet (row : IndexKey × IndexValue) : Steps Quiet (dueRun row) := by
  unfold dueRun
  split
  · exact .pure
  · exact .fail

/-- A worker's due page promotes deferred slots and changes no stored run. -/
theorem dueAs_fills (hbook : ∀ i, may i .book) (limit : Nat) (worker : Compatibility) :
    Steps (Fills env now may) (dueAs env now limit worker) := by
  have hcollect : ∀ l, Steps (Fills env now may) (Tx.collect dueRun l) := fun l =>
    (Steps.collect dueRun_quiet l).mono fun _ _ => Quiet.fills
  refine .bind .read fun stopped => ?_
  split
  · exact .pure
  · refine .bind (drainPending_fills hbook limit) fun _ => ?_
    split
    · exact .bind .read fun found => hcollect found
    · exact .bind .read fun found => .bind (hcollect found) fun _ => .pure

theorem sweepFinished_runs {horizon at_ : Int} {s : StoredRun} {n n' : Nat} {σ σ' : Rows}
    (hσ : Good σ) (hs : σ.run.get s.id = some s) (hl : s.run.endedMs = some at_)
    (hmay : at_ ≤ horizon → may s.id (.forget at_)) (h : sweepFinished horizon n s σ = .ok (n', σ')) :
    (Indexed σ' ∧ Path env now may σ.toCore σ'.toCore) ∧
      ∀ i, i ≠ s.id → σ'.run.get i = σ.run.get i := by
  unfold sweepFinished at h
  split at h
  -- it ended by the horizon, and its rows are dropped
  · next hdue =>
    rw [hl] at hdue
    have hmay := hmay (by simpa using hdue)
    simp only [forget, bind_ok, read_ok, write_ok, pure_ok] at h
    obtain ⟨⟨s', m⟩, σ₁, ⟨rows, σ₂, ⟨-, rfl⟩, u, σ₃, hσ₃, hs', rfl⟩, u₁, σ₄, hstore, -, rfl⟩ := h
    obtain ⟨rfl, -⟩ : s' = forgotten s ∧ _ := Prod.mk.inj hs'
    have hrun : σ₁.run = σ₂.run := by
      rw [hσ₃]
      exact run_forgetRows _ _
    have hindexed : Indexed σ₁ := hσ.indexed.of_eq hrun (by rw [hσ₃])
    have hcore : σ'.toCore = (forgetRows σ₂.toCore s.id).set (forgotten s) := by
      rw [storeRun_core hstore, hσ₃]
    refine ⟨⟨hindexed.storeRun hstore, ?_⟩, fun i hi => ?_⟩
    · rw [hcore]
      exact .single (.forget at_ hs hl hmay)
    · rw [show σ'.run = _ from congrArg Core.run hcore, Core.get_set,
        if_neg (show (forgotten s).id ≠ i from Ne.symm hi), run_forgetRows]
  -- it is kept
  · obtain ⟨-, rfl⟩ := pure_ok.mp h
    exact ⟨⟨hσ.indexed, .refl⟩, fun _ _ => rfl⟩

theorem sweepMailbox_runs {s : StoredRun} {n n' : Nat} {σ σ' : Rows} (hσ : Good σ)
    (hs : σ.run.get s.id = some s) (hl : s.run.endedMs = none)
    (h : sweepMailbox env now n s σ = .ok (n', σ')) :
    (Indexed σ' ∧ Path env now may σ.toCore σ'.toCore) ∧
      ∀ i, i ≠ s.id → σ'.run.get i = σ.run.get i := by
  simp only [sweepMailbox, bind_ok, pure_ok] at h
  obtain ⟨⟨s', m⟩, σ₁, hexpire, u, σ₂, hstore, -, rfl⟩ := h
  have hexp : Expired env now may _ s _ s' := expire_ok hσ hs hl hexpire
  have hcore := storeRun_core hstore
  refine ⟨⟨(hσ.indexed.of_eq hexp.run hexp.index).storeRun hstore, ?_⟩, fun i hi => ?_⟩
  · rw [hcore]
    exact hexp.path
  · rw [show σ'.run = _ from congrArg Core.run hcore, Core.get_set,
      if_neg (show s'.id ≠ i by rw [hexp.id_eq]; exact Ne.symm hi)]
    exact congrArg (·.get i) hexp.run

/-- A sweep forgets what ended by its horizon and then expires what is due. -/
theorem sweep_cases {kept : Int} {σ σ' : Rows} {r : Swept} (hσ : Good σ)
    (hmay : ∀ i at_, at_ ≤ satSub now kept → may i (.forget at_))
    (h : sweep env now kept σ = .ok (r, σ')) :
    ∃ ended records σ₁,
      indexedRuns .finished (untilId (satSub now kept)) none σ = .ok (ended, σ) ∧
      Tx.fold (sweepFinished (satSub now kept)) 0 ended σ = .ok (records, σ₁) ∧
      Reaches env now may σ σ₁ ∧ Reaches env now may σ₁ σ' := by
  simp only [sweep, bind_ok, ensure_ok, read_ok, write_ok, pure_ok] at h
  obtain ⟨u, σ₁, ⟨-, rfl⟩, ended, σ₂, hended, records, σ₃, hforget, boxes, σ₄, hboxes, expired, σ₅,
    hexpire, ⟨_, _, _⟩, σ₆, ⟨-, rfl⟩, u₁, σ₇, hσ₇, ⟨_, _, _⟩, σ₈, ⟨-, rfl⟩, u₂, σ₉, hσ₉, -, rfl⟩ := h
  obtain ⟨rfl, -⟩ := indexedRuns_ok hσ.indexed hended
  -- each run that ended by the horizon is looked at once
  have hforgets : Reaches env now may σ₂ σ₃ := by
    intro _
    refine fold_runs (fun s hs b σ b' σ' hσ' hs' h => ?_)
      (indexedRuns_nodup hσ.indexed (fun s i j v w hi hj => ?_) hended) hσ
      (fun s hs => (mem_indexedRuns hσ.indexed hended hs).1) hforget
    · obtain ⟨-, i, -, hentry⟩ := mem_indexedRuns hσ.indexed hended hs
      obtain ⟨at_, hat, -⟩ := mem_entries_finished.mp hentry
      exact sweepFinished_runs hσ' hs' hat (hmay _ _) h
    · obtain ⟨at_, hat, -, rfl, -⟩ := mem_entries_finished.mp hi
      obtain ⟨at', hat', -, rfl, -⟩ := mem_entries_finished.mp hj
      rw [Option.some.inj (hat.symm.trans hat')]
  have hσ₃ := hforgets.good hσ
  obtain ⟨rfl, -⟩ := indexedRuns_ok hσ₃.indexed hboxes
  -- each mailbox that is due is looked at once
  have hexpires : Reaches env now may σ₄ σ₆ := by
    intro _
    refine fold_runs (fun s hs b σ b' σ' hσ' hs' h => ?_)
      (indexedRuns_nodup hσ₃.indexed (fun s i j v w hi hj => ?_) hboxes) hσ₃
      (fun s hs => (mem_indexedRuns hσ₃.indexed hboxes hs).1) hexpire
    · obtain ⟨-, i, -, hentry⟩ := mem_indexedRuns hσ₃.indexed hboxes hs
      exact sweepMailbox_runs hσ' hs' (mem_entries_mailbox.mp hentry).1 h
    · obtain ⟨-, at_, hat, rfl, -⟩ := mem_entries_mailbox.mp hi
      obtain ⟨-, at', hat', rfl, -⟩ := mem_entries_mailbox.mp hj
      rw [Option.some.inj (hat.symm.trans hat')]
  have hquiet : Quiet σ₆ σ' := by
    rw [hσ₉, hσ₇]
    exact ⟨rfl, rfl⟩
  exact ⟨ended, records, _, hended, hforget, hforgets,
    trans_of (Reaches env now may) hexpires hquiet.reaches⟩

theorem sweep_reaches (kept : Int)
    (hmay : ∀ i at_, at_ ≤ satSub now kept → may i (.forget at_)) :
    Steps (Reaches env now may) (sweep env now kept) := by
  intro σ r σ' h hσ
  obtain ⟨ended, records, σ₁, -, -, hforgets, hexpires⟩ := sweep_cases hσ hmay h
  exact trans_of (Reaches env now may) hforgets hexpires hσ

/-! ### Holds -/

/-- The live runs found below a run, each once: those off `next` had their children read. -/
private structure Found (σ : Rows) (root : StoredRun) (read next rest : List StoredRun) : Prop where
  split : root :: rest = read ++ next
  nodup : ((root :: rest).map StoredRun.id).Nodup
  stored : ∀ s ∈ root :: rest, σ.run.get s.id = some s ∧ s.run.endedMs = none
  below : ∀ s ∈ root :: rest, Relation.ReflTransGen (Owns σ.toCore) root.id s.id
  owned : ∀ s ∈ rest, ∃ link, s.run.child = some link ∧ link.parent ∈ read.map StoredRun.id
  closed : ∀ s link, σ.run.get s.id = some s → s.run.endedMs = none → s.run.child = some link →
    link.parent ∈ read.map StoredRun.id → s ∈ root :: rest

private theorem Found.pass {σ : Rows} {root s : StoredRun} {read next rest children : List StoredRun}
    (hσ : Good σ) (h : Found σ root read (s :: next) rest)
    (hchildren : indexedRuns (.children s.id) anyId none σ = .ok (children, σ)) :
    Found σ root (read ++ [s]) (next ++ children) (rest ++ children) := by
  have hs : s ∈ root :: rest := by rw [h.split]; simp
  have hall : ∀ t ∈ children, σ.run.get t.id = some t ∧ t.run.endedMs = none ∧
      ∃ link, t.run.child = some link ∧ link.parent = s.id := by
    -- what the index yields for the parent is its live children, each once
    intro t ht
    obtain ⟨hget, i, -, hentry⟩ := mem_indexedRuns hσ.indexed hchildren ht
    obtain ⟨hl, hlink, -⟩ := mem_entries_children.mp hentry
    exact ⟨hget, hl, hlink⟩
  have hnodup := indexedRuns_nodup hσ.indexed (fun s i j v w hi hj => by
    rw [(mem_entries_children.mp hi).2.2.1, (mem_entries_children.mp hj).2.2.1]) hchildren
  have howns : ∀ t ∈ children, Owns σ.toCore s.id t.id := fun t ht => by
    obtain ⟨hget, -, link, hlink, hparent⟩ := hall t ht
    exact ⟨t, link, hget, hlink, hparent⟩
  exact
    { split := by
        rw [← List.cons_append, h.split]
        simp
      nodup := by
        rw [← List.cons_append, List.map_append]
        refine h.nodup.append hnodup ?_
        -- a child already found would have its parent read, or be the root below itself
        intro i hi hi'
        obtain ⟨t, ht, rfl⟩ := List.mem_map.mp hi'
        obtain ⟨t', ht', hid⟩ := List.mem_map.mp hi
        obtain ⟨hget, -, link, hlink, hparent⟩ := hall t ht
        obtain rfl : t' = t := by
          have := (h.stored t' ht').1
          rw [hid] at this
          exact Option.some.inj (this.symm.trans hget)
        rcases List.mem_cons.mp ht' with heq | hrest
        · have hcycle : Relation.TransGen (Owns σ.toCore) root.id root.id :=
            Relation.TransGen.tail' (h.below s hs) (heq ▸ howns t' ht)
          exact hσ.inv.tree.acyclic _ hcycle
        · obtain ⟨link', hlink', hread⟩ := h.owned t' hrest
          rw [Option.some.inj (hlink'.symm.trans hlink), hparent] at hread
          have hdis := h.nodup
          rw [h.split, List.map_append, List.map_cons] at hdis
          exact (List.disjoint_of_nodup_append hdis) hread List.mem_cons_self
      -- the other clauses are about what is found: of each run it was known before, or the run is a new child
      stored := by
        intro t ht
        rw [← List.cons_append] at ht
        rcases List.mem_append.mp ht with ht | ht
        · exact h.stored t ht
        · exact ⟨(hall t ht).1, (hall t ht).2.1⟩
      below := by
        intro t ht
        rw [← List.cons_append] at ht
        rcases List.mem_append.mp ht with ht | ht
        · exact h.below t ht
        · exact (h.below s hs).tail (howns t ht)
      owned := by
        intro t ht
        rw [List.map_append]
        rcases List.mem_append.mp ht with ht | ht
        · obtain ⟨link, hlink, hread⟩ := h.owned t ht
          exact ⟨link, hlink, List.mem_append_left _ hread⟩
        · obtain ⟨-, -, link, hlink, hparent⟩ := hall t ht
          exact ⟨link, hlink, by simp [hparent]⟩
      -- the children of the run that is read now are all found, by the completeness of the index
      closed := by
        intro t link ht hl hlink hparent
        rw [← List.cons_append]
        rw [List.map_append] at hparent
        rcases List.mem_append.mp hparent with hread | hnew
        · exact List.mem_append_left _ (h.closed t link ht hl hlink hread)
        · have hp : link.parent = s.id := by simpa using hnew
          exact List.mem_append_right _ (indexedRuns_complete hσ.indexed hchildren ht rfl
            (mem_entries_children.mpr ⟨hl, ⟨link, hlink, hp⟩, rfl, rfl⟩)) }

/-- Once every run found had its children read, the live subtree is complete. -/
private theorem Found.complete {σ : Rows} {root : StoredRun} {read rest : List StoredRun}
    (h : Found σ root read [] rest) : Subtree σ.toCore root.id (rest.map StoredRun.id) := by
  have hread : read = root :: rest := by simpa using h.split.symm
  have hids : read.map StoredRun.id = root.id :: rest.map StoredRun.id := by rw [hread, List.map_cons]
  exact
    { nodup := h.nodup
      owned := by
        intro i hi
        obtain ⟨s, hs, rfl⟩ := List.mem_map.mp hi
        obtain ⟨hget, hl⟩ := h.stored s (List.mem_cons_of_mem _ hs)
        obtain ⟨link, hlink, hparent⟩ := h.owned s hs
        exact ⟨s, link, rfl, hget, hl, hlink, hids ▸ hparent⟩
      closed := fun s link hs hl hlink hparent =>
        List.mem_map_of_mem (h.closed s link hs hl hlink (hids ▸ hparent)) }

/-- The subtree of a live run is found within as many passes as there are runs. -/
private theorem Found.total {σ : Rows} {root : StoredRun} (hσ : Good σ) {ids : List String}
    (hids : ∀ i s, σ.run.get i = some s → i ∈ ids) :
    ∀ {fuel : Nat} {read next rest : List StoredRun}, Found σ root read next rest →
      next.length + (ids.length - (root :: rest).length) ≤ fuel →
      ∃ rest', subtree fuel next (root :: rest) σ = .ok (root :: rest', σ) ∧
        Subtree σ.toCore root.id (rest'.map StoredRun.id) ∧
        ∀ s ∈ root :: rest', σ.run.get s.id = some s ∧ s.run.endedMs = none := by
  intro fuel
  induction fuel with
  | zero =>
    intro read next rest h hfuel
    obtain rfl : next = [] := List.length_eq_zero_iff.mp (by omega)
    exact ⟨rest, rfl, h.complete, h.stored⟩
  | succ fuel ih =>
    intro read next rest h hfuel
    cases next with
    | nil => exact ⟨rest, rfl, h.complete, h.stored⟩
    | cons s next =>
      obtain ⟨children, hchildren⟩ := indexedRuns_total (.children s.id) anyId none hσ.indexed
        fun s i v hv => (mem_entries_children.mp hv).2.2.2
      have hnext := h.pass hσ hchildren
      have hlength : (root :: (rest ++ children)).length ≤ ids.length := by
        rw [← List.length_map StoredRun.id]
        refine (List.subperm_of_subset hnext.nodup fun i hi => ?_).length_le
        obtain ⟨t, ht, rfl⟩ := List.mem_map.mp hi
        exact hids _ _ (hnext.stored t ht).1
      obtain ⟨rest', hrest, hresult⟩ := ih hnext (by
        simp only [List.length_append, List.length_cons] at *
        omega)
      exact ⟨rest', bind_ok.mpr ⟨children, σ, hchildren, hrest⟩, hresult⟩

/-- The tree `setHold` works on: a live run and its live owned descendants. -/
theorem subtree_total {σ : Rows} {root : StoredRun} (hσ : Good σ)
    (hroot : σ.run.get root.id = some root) (hl : root.run.endedMs = none) :
    ∃ rest, subtree (σ.run.rows.length + 1) [root] [root] σ = .ok (root :: rest, σ) ∧
      Subtree σ.toCore root.id (rest.map StoredRun.id) ∧
      ∀ s ∈ root :: rest, σ.run.get s.id = some s ∧ s.run.endedMs = none := by
  have hstart : Found σ root [] [root] [] :=
    { split := rfl
      nodup := List.nodup_singleton _
      stored := by
        intro s hs
        obtain rfl := List.mem_singleton.mp hs
        exact ⟨hroot, hl⟩
      below := by
        intro s hs
        obtain rfl := List.mem_singleton.mp hs
        exact .refl
      owned := by simp
      closed := by simp }
  refine Found.total hσ (fun i s hs => (Table.mem_keys _).mpr ⟨s, hs⟩) hstart ?_
  simp only [Table.keys, List.length_map, List.length_singleton]
  omega

theorem setHold_reaches (id : String) (hold : Option Hold) :
    Steps (Reaches env now may) (setHold id hold) := by
  intro σ r σ' h hσ
  simp only [setHold, bind_ok, findRun_ok, orFail_ok] at h
  obtain ⟨found, σ₁, ⟨hfound, rfl⟩, root, σ₂, ⟨hroot, rfl⟩, h⟩ := h
  rw [hfound] at hroot
  have hget := hσ.get_id hroot
  -- a run that has ended is not held
  split at h
  · obtain ⟨-, rfl⟩ := pure_ok.mp h
    exact ⟨hσ.indexed, .refl⟩
  -- every run of the live subtree is flagged, each once
  · next hl =>
    simp only [bind_ok, read_ok] at h
    obtain ⟨bound, σ₃, ⟨rfl, rfl⟩, tree, σ₄, htree, hfold⟩ := h
    obtain ⟨rest, hrest, hsub, hstored⟩ := subtree_total hσ hget (by simpa using hl)
    obtain ⟨rfl, rfl⟩ : tree = root :: rest ∧ σ₄ = σ₃ := by
      rw [htree] at hrest
      simpa using hrest
    have hnodup : ((root :: rest).map StoredRun.id).Nodup := hsub.nodup
    refine fold_runs (fun s hs b σ b' σ' hσ hs' h => ?_) hnodup hσ (fun s hs => (hstored s hs).1) hfold
    unfold holdOne at h
    -- a flag that is there already is not written again
    split at h
    · obtain ⟨-, rfl⟩ := pure_ok.mp h
      exact ⟨⟨hσ.indexed, .refl⟩, fun _ _ => rfl⟩
    · simp only [bind_ok, pure_ok] at h
      obtain ⟨u, σ₅, hstore, -, rfl⟩ := h
      have hcore : σ'.toCore = σ.toCore.set { s with run := { s.run with held := hold } } := by
        rw [storeRunIndexed_ok hstore]
        rfl
      refine ⟨⟨hσ.indexed.storeRunIndexed (s := { s with run := { s.run with held := hold } }) hs'
        hstore, ?_⟩, fun i hi => ?_⟩
      · rw [hcore]
        exact .single (.rewrite hs' (.hold hold (hstored s hs).2))
      · rw [show σ'.run = _ from congrArg Core.run hcore, Core.get_set, if_neg]
        exact Ne.symm hi

/-! ### Firings -/

theorem slotOutcome_quiet (f : Firing) (guard_ : OverlapGuard) (a : Admission)
    (live : List (IndexKey × IndexValue)) : Steps Quiet (slotOutcome f guard_ a live) := by
  refine .bind .read fun room => .bind .read fun queued => ?_
  split
  · exact .pure
  · split
    · split
      · exact .bind (.write fun _ => ⟨rfl, rfl⟩) fun _ => .pure
      · exact .pure
    · exact .pure

theorem commitFiring_reaches (hbook : ∀ i, may i .book) (f : Firing) (current : Option Trigger)
    (outcome : Outcome) : Steps (Reaches env now may) (commitFiring env f current outcome now) := by
  have hrefuse : ∀ r, Steps (Reaches env now may) (refuse env r now) := fun r =>
    (refuse_fills r).mono fun _ _ => Fills.reaches
  unfold commitFiring
  split
  refine .bind ((storeTrigger_quiet _ _ _).mono fun _ _ => Quiet.reaches) fun _ => ?_
  simp only
  split
  · refine .bind ((Steps.each (fun a => admitFiring_fills hbook _ a _ _) _).mono fun _ _ => Fills.reaches)
      fun _ => ?_
    split
    · exact .pure
    · exact .bind (hrefuse _) fun _ => .bind (.write fun _ => Quiet.reaches ⟨rfl, rfl⟩) fun _ => .pure
  · exact .pure

theorem ingested_reads (f : Firing) : Steps (· = ·) (ingested f now) := by
  unfold ingested
  split
  · exact .pure
  · exact .map (tombstone_reads _ _)

theorem ingestFiring_quiet (f : Firing) : Steps Quiet (ingestFiring env f now) := by
  unfold ingestFiring
  split
  · exact .pure
  · exact ingest_quiet _ _

theorem drainFor_fills (hbook : ∀ i, may i .book) (f : Firing) :
    Steps (Fills env now may) (drainFor env f now) := by
  unfold drainFor
  split
  · exact .pure
  · exact drainMarked_fills hbook _

section Fire

-- a firing leads along moves, apart from the runs it replaces
variable {R : Rows → Rows → Prop} [IsPreorder Rows R]
  (hreach : ∀ σ σ', Reaches env now Books σ σ' → R σ σ')
  (hcancel : ∀ id, Steps R (cancelRun env id now))

include hcancel in
theorem replaceLive_steps (live : List (IndexKey × IndexValue)) :
    Steps R (replaceLive env live now) := by
  refine .each (fun row => ?_) live
  split
  · exact .map (hcancel _)
  · exact .fail

include hreach hcancel

theorem overlapped_steps (f : Firing) (guard_ : OverlapGuard) (a : Admission) :
    Steps R (overlapped env f guard_ a now) := by
  have hslot : ∀ live, Steps R (slotOutcome f guard_ a live) := fun live =>
    (slotOutcome_quiet f guard_ a live).mono fun _ _ h => hreach _ _ h.reaches
  refine .bind .read fun live => ?_
  simp only
  split
  · exact .bind (replaceLive_steps hcancel live) fun _ => hslot live
  · exact hslot live

theorem disposition_steps (f : Firing) : Steps R (disposition env f now) := by
  unfold disposition
  split
  · refine .bind .ensure fun _ => .bind .ensure fun _ => .bind .ensure fun _ =>
      .bind .read fun found => ?_
    split
    · exact .pure
    · exact overlapped_steps hreach hcancel _ _ _
  · exact .pure
  · split
    · exact .pure
    · split
      · exact .pure
      · refine .bind .read fun last => ?_
        split
        · exact .pure
        · refine .bind .read fun found => ?_
          split <;> exact .pure

theorem fireChecked_steps (f : Firing) (current : Option Trigger) :
    Steps R (fireChecked env f current now) := by
  refine .bind (ingested_reads f).of_eq fun used => ?_
  split
  · exact .pure
  · refine .bind (disposition_steps hreach hcancel f) fun outcome =>
      .bind ((ingestFiring_quiet f).mono fun _ _ h => hreach _ _ h.reaches) fun used => ?_
    split
    · exact .pure
    · exact (commitFiring_reaches books _ _ _).mono hreach

theorem fire_steps (f : Firing) : Steps R (fire env f now) := by
  refine .bind .read fun stopped => ?_
  split
  · exact .pure
  · refine .bind .ensure fun _ => .bind ((drainFor_fills books f).mono fun _ _ h => hreach _ _ h.reaches)
      fun drained => .bind .read fun current => ?_
    split
    · exact .pure
    · refine .bind (firstRefusal_reads _ _).of_eq fun refusal => ?_
      split
      · exact .pure
      · exact .map (fireChecked_steps hreach hcancel _ _)

end Fire

theorem fire_reaches (f : Firing) (hmay : ∀ i, may i .finish) (hbook : ∀ i, may i .book) :
    Steps (Reaches env now may) (fire env f now) := by
  refine fire_steps (fun _ _ h => h.mono ?_) (fun id => cancelRun_reaches id (hmay id) hbook) f
  rintro i a rfl
  exact hbook i

/-! ### Commands -/

theorem stop_reaches (hbook : ∀ i, may i .book) (enabled : Bool) :
    Steps (Reaches env now may) (stop env enabled now) := by
  refine .bind .read fun stopped => ?_
  split
  · exact .pure
  · split
    · exact .bind (.write fun _ => Quiet.reaches ⟨rfl, rfl⟩) fun _ => .pure
    · exact .bind (.write fun _ => Quiet.reaches ⟨rfl, rfl⟩) fun _ =>
        .bind ((drainPending_fills hbook _).mono fun _ _ => Fills.reaches) fun _ => .pure

theorem perform_reaches (request : Request) (command canonical : Command)
    (hmay : ∀ i a, command.may i a → may i a) :
    Steps (Reaches env now may) (perform env request command canonical now) := by
  cases command with
  | cancel run => exact .map (cancelRun_reaches run (hmay _ _ rfl) fun i => hmay i _ trivial)
  | pause name note =>
    exact .map ((pause_quiet request name note now).mono fun _ _ => Quiet.reaches)
  | resume name => exact .map ((resume_fills (fun i => hmay i _ trivial) name).mono fun _ _ => Fills.reaches)
  | hold run note => exact .map (setHold_reaches run _)
  | release run => exact .map (setHold_reaches run none)
  | stop enabled => exact .map (stop_reaches (fun i => hmay i _ trivial) enabled)
  | respond run key event =>
    exact respond_reaches request canonical run key event fun t ht =>
      hmay run _ ⟨ht, rfl, rfl⟩

theorem applyControl_reaches (request : Request) (command : Command)
    (hmay : ∀ i a, command.may i a → may i a) :
    Steps (Reaches env now may) (applyControl env request command now) := by
  refine .bind .ensure fun _ => .bind .read fun found => ?_
  split
  · exact .bind .ensure fun _ => .pure
  · exact .bind (perform_reaches _ _ _ hmay) fun reply =>
      .bind ((audit_quiet _).mono fun _ _ => Quiet.reaches) fun _ => .pure

end Engine

/-! ### The store as a state machine -/

theorem returning_steps {R : Rows → Rows → Prop} [IsPreorder Rows R] {α : Type} {f : α → Result}
    {m : Txn α} (h : Steps R m) : Steps R (returning f m) := .map h

theorem reporting_steps {R : Rows → Rows → Prop} [IsPreorder Rows R] {α : Type} {f : α → Result}
    {m : Txn (Except Error α)} (h : Steps R m) : Steps R (reporting f m) := .map h

/-- The transaction of every call leads along moves at its instant. -/
theorem Op.tx_reaches (op : Op) (hnow : op.instant.all (fun s => decide (s = now)) = true)
    (hmay : ∀ i a, op.may i a → may i a) :
    Steps (Reaches env now may) (op.tx env) := by
  have hq : ∀ {σ σ' : Rows}, Quiet σ σ' → Reaches env now may σ σ' := Quiet.reaches
  have heq : ∀ {t : Int}, (some t).all (fun s => decide (s = now)) = true → t = now := by simp
  -- one line a call: the operation reaches a good store by what the call may do
  cases op with
  | admitRun a t =>
    obtain rfl := heq hnow
    exact reporting_steps (admitRun_reaches (fun i => hmay i _ trivial) a)
  | start a t owner =>
    obtain rfl := heq hnow
    exact reporting_steps (start_reaches (fun i => hmay i _ trivial) a owner)
  | claimAs id t worker owner =>
    obtain rfl := heq hnow
    exact returning_steps (claimAs_reaches id worker owner)
  | checkLease f t =>
    obtain rfl := heq hnow
    exact returning_steps ((checkLease_quiet f).mono fun _ _ => hq)
  | renew f t =>
    obtain rfl := heq hnow
    exact reporting_steps (renew_reaches f)
  | release f t =>
    obtain rfl := heq hnow
    exact returning_steps (release_reaches f)
  | loadRecords f t =>
    obtain rfl := heq hnow
    exact returning_steps ((loadRecords_quiet f).mono fun _ _ => hq)
  | saveRecord f k r t =>
    obtain rfl := heq hnow
    exact returning_steps (saveRecord_reaches f k r (hmay _ _ rfl) (hmay _ _ ⟨rfl, rfl, rfl⟩))
  | registerWait f types t =>
    obtain rfl := heq hnow
    exact returning_steps (registerWait_reaches f types (hmay _ _ ⟨rfl, rfl⟩))
  | unregisterWait f k types t =>
    obtain rfl := heq hnow
    exact returning_steps (unregisterWait_reaches f k types (hmay _ _ ⟨rfl, rfl, rfl⟩))
  | describeWait f k wait t =>
    obtain rfl := heq hnow
    exact returning_steps (describeWait_reaches f k wait)
  -- a delivery and a publication may accept a copy of the event wherever it goes
  | deliver event target t =>
    obtain rfl := heq hnow
    exact returning_steps (deliver_reaches event target
      fun i t ht htarget => hmay i _ ⟨ht, htarget, rfl⟩)
  | takeEvent f k types t =>
    obtain rfl := heq hnow
    exact returning_steps (takeEvent_reaches f k types
      (hmay _ _ ⟨rfl, rfl, rfl⟩) (hmay _ _ ⟨rfl, rfl, rfl⟩))
  | subscribe f k types t =>
    obtain rfl := heq hnow
    exact returning_steps (subscribe_reaches f k types)
  | unsubscribe f k t =>
    obtain rfl := heq hnow
    exact returning_steps (unsubscribe_reaches f k)
  | publish event target t =>
    obtain rfl := heq hnow
    exact returning_steps (publish_reaches event target
      fun i t ht htarget => hmay i _ ⟨ht, htarget, rfl⟩)
  -- a firing, an end and the calls that drain first may also admit runs and end trees
  | fire f t =>
    obtain rfl := heq hnow
    exact reporting_steps (fire_reaches f (fun i => hmay i _ trivial) fun i => hmay i _ trivial)
  | finish f outcome t threshold =>
    obtain rfl := heq hnow
    exact returning_steps (finish_reaches f outcome threshold (hmay _ _ rfl) fun i => hmay i _ trivial)
  | startChild p a link t owner =>
    obtain rfl := heq hnow
    exact reporting_steps (startChild_reaches p a link owner (hmay _ _ rfl)
      (hmay _ _ ⟨rfl, rfl⟩) fun i => hmay i _ trivial)
  | spend f k limit t =>
    obtain rfl := heq hnow
    exact returning_steps (spend_reaches f k limit (hmay _ _ rfl)
      (fun granted n first => hmay _ _ ⟨rfl, .inl ⟨rfl, granted, n, first, rfl⟩⟩)
      (hmay _ _ ⟨rfl, .inr ⟨rfl, rfl⟩⟩))
  | dueAs t limit worker =>
    obtain rfl := heq hnow
    exact returning_steps ((dueAs_fills (fun i => hmay i _ trivial) limit worker).mono fun _ _ => Fills.reaches)
  | cancel id t =>
    obtain rfl := heq hnow
    exact returning_steps (cancelRun_reaches id (hmay _ _ rfl) fun i => hmay i _ trivial)
  | sweep t kept =>
    obtain rfl := heq hnow
    exact returning_steps (sweep_reaches kept fun _ _ h => hmay _ _ h)
  | applyControl request command t =>
    obtain rfl := heq hnow
    exact returning_steps (applyControl_reaches request command hmay)
  -- the rest changes no run
  | saveDefinition name yaml breaker =>
    exact returning_steps ((saveDefinition_quiet name yaml breaker).mono fun _ _ => hq)
  | activate name version t => exact returning_steps ((activate_quiet _ _ _ _ _).mono fun _ _ => hq)
  | activateWith name version epoch arming activation =>
    exact returning_steps ((activate_quiet _ _ _ _ _).mono fun _ _ => hq)
  | acknowledge key => exact returning_steps ((acknowledge_quiet key).mono fun _ _ => hq)
  | beat worker => exact returning_steps ((beat_quiet worker).mono fun _ _ => hq)

/-- The rows a call stores: those it found, or those its transaction computed. -/
theorem step_cases (env : Env) (σ : Rows) (op : Op) :
    (step env σ op = σ ∧ ∃ e, call env σ op = (.error e, σ)) ∨
      ∃ r, op.tx env σ = .ok (r, step env σ op) ∧ call env σ op = (r, step env σ op) := by
  unfold step call
  cases h : op.tx env σ with
  | error e =>
    rw [Tx.commit_error h]
    exact .inl ⟨rfl, e, rfl⟩
  | ok p =>
    obtain ⟨r, σ'⟩ := p
    rw [Tx.commit_ok h]
    exact .inr ⟨r, rfl, rfl⟩

theorem call_of_tx {op : Op} {σ σ' : Rows} {r : Except Error Result}
    (h : op.tx env σ = .ok (r, σ')) : call env σ op = (r, σ') := by
  unfold call
  rw [Tx.commit_ok h]

theorem call_of_error {op : Op} {σ : Rows} {e : Error} (h : op.tx env σ = .error e) :
    call env σ op = (.error e, σ) := by
  unfold call
  rw [Tx.commit_error h]

theorem step_of_tx {op : Op} {σ σ' : Rows} {r : Except Error Result}
    (h : op.tx env σ = .ok (r, σ')) : step env σ op = σ' := by
  rw [step, call_of_tx h]

/-- A call on a good store leads along moves at its instant to a good store. -/
theorem step_reaches (env : Env) (σ : Rows) (op : Op) :
    Reaches env (op.instant.getD 0) op.may σ (step env σ op) := by
  rcases step_cases env σ op with ⟨heq, -⟩ | ⟨r, h, -⟩
  · rw [heq]
    exact refl_of (Reaches env _ op.may) σ
  · exact op.tx_reaches (by cases op.instant <;> simp) (fun _ _ h => h) h

theorem step_path (env : Env) {σ : Rows} (hσ : Good σ) (op : Op) :
    Path env (op.instant.getD 0) op.may σ.toCore (step env σ op).toCore :=
  (step_reaches env σ op hσ).2

theorem step_good (env : Env) {σ : Rows} (hσ : Good σ) (op : Op) : Good (step env σ op) :=
  (step_reaches env σ op).good hσ

/-- Every store reachable by calls is good. -/
theorem good_after (env : Env) (history : List Op) : Good (after env history) :=
  runs_keep Good.empty (fun _ op h => step_good env h op) history

theorem good_runs (env : Env) {σ : Rows} (hσ : Good σ) (later : List Op) :
    Good (runs (step env) σ later) :=
  runs_keep hσ (fun _ op h => step_good env h op) later

/-- What every move keeps, a path keeps. -/
theorem Path.keep {c c' : Core} (h : Path env now may c c') (hinv : Inv c) {P : Core → Prop}
    (hmove : ∀ c c', Inv c → Move env now may c c' → P c → P c') (hP : P c) : P c' := by
  induction h with
  | refl => exact hP
  | tail hpath hm ih => exact hmove _ _ (hinv.path hpath) hm ih

/-- What every move keeps, a history of calls keeps. -/
theorem runs_core {P : Core → Prop}
    (hmove : ∀ now may c c', Inv c → Move env now may c c' → P c → P c') {σ : Rows} (hσ : Good σ)
    (hP : P σ.toCore) (later : List Op) : P (runs (step env) σ later).toCore :=
  (runs_keep (I := fun σ => Good σ ∧ P σ.toCore) ⟨hσ, hP⟩ (fun _ op h =>
    ⟨step_good env h.1 op, (step_path env h.1 op).keep h.1.inv (hmove _ _) h.2⟩) later).2

/-- A call that says no instant touches no runs. -/
theorem step_core_of_instant (env : Env) (σ : Rows) {op : Op} (h : op.instant = none) :
    (step env σ op).toCore = σ.toCore := by
  have hquiet : ∀ {m : Txn (Except Error Result)}, Steps Quiet m → op.tx env = m →
      (step env σ op).toCore = σ.toCore := by
    intro m hm htx
    rcases step_cases env σ op with ⟨heq, -⟩ | ⟨r, hok, -⟩
    · rw [heq]
    · rw [htx] at hok
      exact (hm hok).1
  cases op with
  | saveDefinition name yaml breaker =>
    exact hquiet (returning_steps (saveDefinition_quiet name yaml breaker)) rfl
  | activateWith name version epoch arming activation =>
    exact hquiet (returning_steps (activate_quiet _ _ _ _ _)) rfl
  | acknowledge key => exact hquiet (returning_steps (acknowledge_quiet key)) rfl
  | beat worker => exact hquiet (returning_steps (beat_quiet worker)) rfl
  | _ => simp [Op.instant] at h

end Ouro
