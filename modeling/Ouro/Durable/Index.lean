import Ouro.Durable.Frames

/-!
# The run index

The index rows derive from the run rows: `Indexed` says that each run is stored under its own id and
that the index holds exactly the rows that `indexes` yields for the stored runs. `storeRun` keeps it
(`Indexed.storeRun`); `storeRunIndexed` keeps it when its `before` image is that of the stored row.

For an indexed store the scans mean what they are for: `mem_scanIndex` reads an index row back to the
run it derives from, and `indexedRuns_ok` says that a scan leads to stored runs, in index order.
-/

namespace Ouro

open Lib

/-! ### Index rows and their run -/

/-- The form of an index row: a run's own row leads to it, a wait's row lists the wait. -/
theorem entry_cases {s : StoredRun} {k : IndexKey} {v : IndexValue} (h : (k, v) ∈ entries s) :
    (v = .run s.id ∧ ((ofLex k).2 = .run s.id ∨ ∃ at_, (ofLex k).2 = .timed at_ s.id)) ∨
      ∃ key w, s.waits.get key = some w ∧ (ofLex k).2 = .wait w.sinceMs s.id key ∧
        v = .wait { run := s.id, definition := s.run.admission.name, key, waiting := w } := by
  unfold entries liveEntries at h
  cases hended : s.run.endedMs with
  | none =>
    simp only [hended, runKinds, Bool.false_eq_true, if_false, List.mem_append, List.mem_cons,
      List.mem_map, List.mem_flatMap, Option.mem_toList, Prod.mk.injEq, Table.mem_rows,
      Prod.exists] at h
    aesop
  | some ended =>
    simp only [hended, runKinds, Bool.false_eq_true, if_false, if_true, List.mem_append,
      List.mem_cons, List.mem_map, List.mem_flatMap, Option.mem_toList, Prod.mk.injEq,
      Table.mem_rows, Prod.exists] at h
    aesop

theorem owner_of_mem_entries {s : StoredRun} {k : IndexKey} {v : IndexValue}
    (h : (k, v) ∈ entries s) : (ofLex k).2.owner = s.id := by
  rcases entry_cases h with ⟨-, hid | ⟨at_, hid⟩⟩ | ⟨key, w, -, hid, -⟩ <;>
    rw [hid] <;> rfl

private theorem entries_functional {s : StoredRun} (k : IndexKey) (v w : IndexValue)
    (hv : (k, v) ∈ entries s) (hw : (k, w) ∈ entries s) : v = w := by
  rcases entry_cases hv with ⟨rfl, hid | ⟨at_, hid⟩⟩ | ⟨key, wait, hget, hid, rfl⟩ <;>
    rcases entry_cases hw with ⟨rfl, hid' | ⟨at', hid'⟩⟩ | ⟨key', wait', hget', hid', rfl⟩ <;>
      rw [hid] at hid' <;> simp_all

/-- The index rows of a run are those its row yields. -/
theorem mem_indexes {s : StoredRun} {k : IndexKey} {v : IndexValue} :
    (indexes s).get k = some v ↔ (k, v) ∈ entries s :=
  Table.get_ofList entries_functional

/-! ### Membership by kind -/

theorem mem_entries_children {s : StoredRun} {p : String} {i : IndexId} {v : IndexValue} :
    (indexKey (.children p) i, v) ∈ entries s ↔
      s.run.endedMs = none ∧ (∃ link, s.run.child = some link ∧ link.parent = p) ∧
        i = .run s.id ∧ v = .run s.id := by
  unfold entries liveEntries
  cases s.run.endedMs with
  | none =>
    simp [runKinds, waitKinds]
    aesop
  | some ended => cases s.evidence <;> simp [runKinds, waitKinds]

theorem mem_entries_due {s : StoredRun} {i : IndexId} {v : IndexValue} :
    (indexKey .due i, v) ∈ entries s ↔
      s.run.endedMs = none ∧ ∃ at_, dueAt s = some at_ ∧ i = .timed at_ s.id ∧ v = .run s.id := by
  unfold entries liveEntries
  cases s.run.endedMs with
  | none => simp [runKinds, waitKinds]
  | some ended => cases s.evidence <;> simp [runKinds, waitKinds]

theorem mem_entries_dueApp {s : StoredRun} {app : String} {i : IndexId} {v : IndexValue} :
    (indexKey (.dueApp app) i, v) ∈ entries s ↔
      s.run.endedMs = none ∧ s.run.admission.applicationVersion.getD "" = app ∧
        ∃ at_, dueAt s = some at_ ∧ i = .timed at_ s.id ∧ v = .run s.id := by
  unfold entries liveEntries
  cases s.run.endedMs with
  | none =>
    simp [runKinds, waitKinds]
    aesop
  | some ended => cases s.evidence <;> simp [runKinds, waitKinds]

theorem mem_entries_wait {s : StoredRun} {t : String} {i : IndexId} {v : IndexValue} :
    (indexKey (.wait t) i, v) ∈ entries s ↔
      s.run.endedMs = none ∧ ∃ at_, (t, at_) ∈ offered s ∧ i = .timed at_ s.id ∧ v = .run s.id := by
  unfold entries liveEntries
  cases s.run.endedMs with
  | none =>
    simp [runKinds, waitKinds]
    aesop
  | some ended => cases s.evidence <;> simp [runKinds, waitKinds]

theorem mem_entries_finished {s : StoredRun} {i : IndexId} {v : IndexValue} :
    (indexKey .finished i, v) ∈ entries s ↔
      ∃ at_, s.run.endedMs = some at_ ∧ s.evidence = true ∧ i = .timed at_ s.id ∧
        v = .run s.id := by
  unfold entries liveEntries
  cases s.run.endedMs with
  | none => simp [runKinds, waitKinds]
  | some ended =>
    cases s.evidence <;> simp [runKinds, waitKinds]

theorem mem_entries_mailbox {s : StoredRun} {i : IndexId} {v : IndexValue} :
    (indexKey .mailbox i, v) ∈ entries s ↔
      s.run.endedMs = none ∧ ∃ at_, s.mailbox = some at_ ∧ i = .timed at_ s.id ∧ v = .run s.id := by
  unfold entries liveEntries
  cases s.run.endedMs with
  | none =>
    simp [runKinds, waitKinds]
    aesop
  | some ended => cases s.evidence <;> simp [runKinds, waitKinds]

theorem mem_entries_subs {s : StoredRun} {t : String} {i : IndexId} {v : IndexValue} :
    (indexKey (.subs t) i, v) ∈ entries s ↔
      s.run.endedMs = none ∧ (∃ types, types ∈ s.subscriptions.values ∧ t ∈ types) ∧
        i = .run s.id ∧ v = .run s.id := by
  unfold entries liveEntries
  cases s.run.endedMs with
  | none =>
    simp [runKinds, waitKinds]
    aesop
  | some ended => cases s.evidence <;> simp [runKinds, waitKinds]

theorem mem_entries_liveName {s : StoredRun} {name : String} {i : IndexId} {v : IndexValue} :
    (indexKey (.liveName name) i, v) ∈ entries s ↔
      s.run.endedMs = none ∧ s.run.admission.name = name ∧ i = .run s.id ∧ v = .run s.id := by
  unfold entries liveEntries
  cases s.run.endedMs with
  | none =>
    simp [runKinds, waitKinds]
    aesop
  | some ended => cases s.evidence <;> simp [runKinds, waitKinds]

theorem mem_entries_triggerLive {s : StoredRun} {trigger : String} {i : IndexId} {v : IndexValue} :
    (indexKey (.triggerLive trigger) i, v) ∈ entries s ↔
      s.run.endedMs = none ∧ s.trigger = some trigger ∧ i = .run s.id ∧ v = .run s.id := by
  unfold entries liveEntries
  cases s.run.endedMs with
  | none =>
    simp [runKinds, waitKinds]
    aesop
  | some ended => cases s.evidence <;> simp [runKinds, waitKinds]

/-! ### Consistency -/

/-- Each run is stored under its own id, and the index holds exactly what the stored runs yield. -/
structure Indexed (rows : Rows) : Prop where
  keyed : ∀ k s, rows.run.get k = some s → s.id = k
  index : Consistent (fun k : IndexKey => (ofLex k).2.owner) indexes rows.run rows.index

theorem Indexed.empty : Indexed .empty where
  keyed k s h := by simp [Rows.empty] at h
  index := Consistent.empty

/-- Writes that touch neither run rows nor the index keep it. -/
theorem Indexed.of_eq {rows rows' : Rows} (h : Indexed rows) (hrun : rows'.run = rows.run)
    (hindex : rows'.index = rows.index) : Indexed rows' where
  keyed := by rw [hrun]; exact h.keyed
  index := by rw [hrun, hindex]; exact h.index

namespace Engine

/-- The rows after a run row is stored with its index rows. -/
theorem storeRunIndexed_ok {s : StoredRun} {before : Table IndexKey IndexValue} {σ σ' : Rows}
    {u : Unit} (h : storeRunIndexed s before σ = .ok (u, σ')) :
    σ' = { σ with
      index := σ.index.apply (Table.changes before (indexes s)), run := σ.run.put s.id s } := by
  simpa [storeRunIndexed] using h

/-- The rows after a run row is stored. -/
theorem storeRun_total (s : StoredRun) (σ : Rows) : ∃ σ', storeRun s σ = .ok ((), σ') := ⟨_, rfl⟩

theorem storeRun_ok {s : StoredRun} {σ σ' : Rows} {u : Unit} (h : storeRun s σ = .ok (u, σ')) :
    σ' = { σ with
      index := σ.index.apply (Table.changes ((σ.run.get s.id).elim .empty indexes) (indexes s))
      run := σ.run.put s.id s } := by
  simp only [storeRun, findRun, Tx.bind_ok, Tx.read_ok] at h
  obtain ⟨old, σ₁, ⟨rfl, rfl⟩, h⟩ := h
  exact storeRunIndexed_ok h

end Engine

/-- Storing a run row with the image of the stored one keeps the index consistent. -/
theorem Indexed.put {rows : Rows} (h : Indexed rows) (s : StoredRun)
    {before : Table IndexKey IndexValue}
    (hbefore : before = (rows.run.get s.id).elim .empty indexes) :
    Indexed { rows with
      index := rows.index.apply (Table.changes before (indexes s)), run := rows.run.put s.id s } where
  keyed k t hk := by
    simp only [Table.get_put] at hk
    split at hk
    · next heq => rw [← heq, ← Option.some.inj hk]
    · exact h.keyed k t hk
  index := by
    refine h.index.put (fun k v hk => owner_of_mem_entries (mem_indexes.mp hk)) hbefore ?_
    intro s' hs' k v hk
    rw [owner_of_mem_entries (mem_indexes.mp hk), h.keyed _ _ hs']

theorem Indexed.storeRun {σ σ' : Rows} {s : StoredRun} {u : Unit} (h : Indexed σ)
    (hstore : Engine.storeRun s σ = .ok (u, σ')) : Indexed σ' := by
  rw [Engine.storeRun_ok hstore]
  exact h.put s rfl

theorem Indexed.storeRunIndexed {σ σ' : Rows} {s s₀ : StoredRun} {u : Unit} (h : Indexed σ)
    (hs₀ : σ.run.get s.id = some s₀)
    (hstore : Engine.storeRunIndexed s (indexes s₀) σ = .ok (u, σ')) : Indexed σ' := by
  rw [Engine.storeRunIndexed_ok hstore]
  exact h.put s (by rw [hs₀]; rfl)

/-- An index row belongs to a stored run that yields it. -/
theorem Indexed.get_index_iff {rows : Rows} (h : Indexed rows) {k : IndexKey} {v : IndexValue} :
    rows.index.get k = some v ↔
      ∃ s, rows.run.get (ofLex k).2.owner = some s ∧ (k, v) ∈ entries s := by
  rw [h.index.get_iff]
  simp only [mem_indexes]

/-- An unlimited scan of a kind lists the rows the stored runs yield there. -/
theorem Indexed.mem_scanIndex {rows : Rows} (h : Indexed rows) {kind : IndexKind}
    {range : IndexId → Bool} {k : IndexKey} {v : IndexValue} :
    (k, v) ∈ Engine.scanIndex rows kind range none ↔
      (ofLex k).1 = kind ∧ range (ofLex k).2 = true ∧
        ∃ s, rows.run.get (ofLex k).2.owner = some s ∧ (k, v) ∈ entries s := by
  unfold Engine.scanIndex
  rw [Table.mem_scan, h.get_index_iff]
  simp only [Bool.and_eq_true, decide_eq_true_eq]
  tauto

/-- A scan of a whole kind lists what the stored runs yield under it. -/
theorem Indexed.mem_scan_kind {rows : Rows} (h : Indexed rows) {kind : IndexKind}
    {row : IndexKey × IndexValue} :
    row ∈ Engine.scanIndex rows kind Engine.anyId none ↔
      ∃ s i, rows.run.get s.id = some s ∧ row.1 = indexKey kind i ∧
        (indexKey kind i, row.2) ∈ entries s := by
  rw [show row = (row.1, row.2) from rfl, h.mem_scanIndex]
  constructor
  · rintro ⟨hkind, -, s, hs, hentry⟩
    have hkey : row.1 = indexKey kind (ofLex row.1).2 := by
      rw [← hkind]
      rfl
    refine ⟨s, (ofLex row.1).2, ?_, hkey, by rw [← hkey]; exact hentry⟩
    rw [h.keyed _ _ hs]
    exact hs
  · rintro ⟨s, i, hs, hkey, hentry⟩
    refine ⟨by rw [hkey]; rfl, rfl, s, ?_, by rw [hkey]; exact hentry⟩
    rw [hkey, owner_of_mem_entries hentry]
    exact hs

/-- A row of the live runs of a trigger leads to one. -/
theorem Indexed.of_triggerLive {rows : Rows} (h : Indexed rows) {trigger id : String}
    {range : IndexId → Bool} {row : IndexKey × IndexValue}
    (hrow : row ∈ Engine.scanIndex rows (.triggerLive trigger) range none)
    (hvalue : row.2 = .run id) :
    ∃ s, rows.run.get id = some s ∧ s.run.endedMs = none ∧ s.trigger = some trigger := by
  obtain ⟨hkind, -, s, hs, hentry⟩ := h.mem_scanIndex.mp (show (row.1, row.2) ∈ _ from hrow)
  have hkey : row.1 = indexKey (.triggerLive trigger) (ofLex row.1).2 := by
    rw [← hkind]
    rfl
  rw [hkey] at hentry
  obtain ⟨hlive, htrigger, -, hv⟩ := mem_entries_triggerLive.mp hentry
  have hid : (ofLex row.1).2.owner = id := by
    rw [← h.keyed _ _ hs]
    exact IndexValue.run.inj (hv.symm.trans hvalue)
  rw [hid] at hs
  exact ⟨s, hs, hlive, htrigger⟩

/-! ### Reading runs through the index -/

namespace Engine

theorem findRun_ok {id : String} {σ σ' : Rows} {r : Option StoredRun} :
    findRun id σ = .ok (r, σ') ↔ r = σ.run.get id ∧ σ' = σ := by
  simp [findRun]

theorem run_ok {id : String} {σ σ' : Rows} {s : StoredRun} :
    run id σ = .ok (s, σ') ↔ σ.run.get id = some s ∧ σ' = σ := by
  simp only [run, Tx.bind_ok, findRun_ok, Tx.orFail_ok]
  constructor
  · rintro ⟨r, σ₁, ⟨rfl, rfl⟩, hs, rfl⟩
    exact ⟨hs, rfl⟩
  · rintro ⟨hs, rfl⟩
    exact ⟨_, _, ⟨rfl, rfl⟩, hs, rfl⟩

theorem indexedRun_ok {row : IndexKey × IndexValue} {σ σ' : Rows} {s : StoredRun} :
    indexedRun row σ = .ok (s, σ') ↔
      (∃ id, row.2 = .run id ∧ σ.run.get id = some s) ∧ σ' = σ := by
  obtain ⟨k, v⟩ := row
  cases v with
  | run id => simp [indexedRun, run_ok]
  | wait entry => simp [indexedRun]

/-- Runs read through the index are stored, and each has an index row of the kind in the range. -/
theorem indexedRuns_ok {kind : IndexKind} {range : IndexId → Bool} {limit : Option Nat}
    {σ σ' : Rows} {l : List StoredRun} (hσ : Indexed σ)
    (h : indexedRuns kind range limit σ = .ok (l, σ')) :
    σ' = σ ∧ List.Forall₂ (fun row s => σ.run.get s.id = some s ∧ row.2 = .run s.id ∧
      ∃ i, row.1 = indexKey kind i ∧ range i = true ∧ (indexKey kind i, row.2) ∈ entries s)
      (scanIndex σ kind range limit) l := by
  simp only [indexedRuns, Tx.bind_ok, Tx.read_ok] at h
  obtain ⟨found, σ₁, ⟨rfl, rfl⟩, h⟩ := h
  obtain ⟨rfl, hall⟩ := Tx.collect_read (fun row s σ' h => (indexedRun_ok.mp h).2) h
  -- row by row: the run that a row names is the one it derives from
  refine ⟨rfl, ?_⟩
  have hmem : ∀ row ∈ scanIndex σ' kind range limit,
      σ'.index.get row.1 = some row.2 ∧ (ofLex row.1).1 = kind ∧ range (ofLex row.1).2 = true := by
    rintro ⟨k, v⟩ hrow
    obtain ⟨hget, hrange⟩ := Table.of_mem_scan hrow
    simp only [Bool.and_eq_true, decide_eq_true_eq] at hrange
    exact ⟨hget, hrange⟩
  clear h
  revert hmem hall
  -- induction on the scanned rows
  generalize scanIndex σ' kind range limit = found
  intro hall hmem
  induction hall with
  | nil => exact .nil
  | @cons row s rows runs hrow _ ih =>
    refine .cons ?_ (ih fun row hrow => hmem row (List.mem_cons_of_mem _ hrow))
    obtain ⟨⟨id, hid, hget⟩, -⟩ := indexedRun_ok.mp hrow
    obtain ⟨hindex, hkind, hrange⟩ := hmem row List.mem_cons_self
    obtain ⟨s', hs', hentry⟩ := hσ.get_index_iff.mp hindex
    -- the row leads to its own run
    have hown := owner_of_mem_entries hentry
    -- the value of a row is a run, or a wait of one
    rcases entry_cases hentry with ⟨hv, -⟩ | ⟨key, w, -, -, hv⟩
    · rw [hid] at hv
      obtain rfl : id = s'.id := by simpa using hv
      rw [hown] at hs'
      obtain rfl : s' = s := Option.some.inj (hs'.symm.trans hget)
      exact ⟨hget, hid, (ofLex row.1).2, by rw [← hkind]; rfl, hrange, by rw [← hkind]; exact hentry⟩
    · rw [hid] at hv
      exact absurd hv (by simp)

/-- A read through the index of a kind whose rows lead to runs succeeds. -/
theorem indexedRuns_total (kind : IndexKind) (range : IndexId → Bool) (limit : Option Nat)
    {σ : Rows} (hσ : Indexed σ)
    (hkind : ∀ (s : StoredRun) i v, (indexKey kind i, v) ∈ entries s → v = .run s.id) :
    ∃ l, indexedRuns kind range limit σ = .ok (l, σ) := by
  -- each row of the range is that of a stored run
  have hrow : ∀ row ∈ scanIndex σ kind range limit, ∃ s, indexedRun row σ = .ok (s, σ) := by
    rintro ⟨k, v⟩ hrow
    obtain ⟨hget, hrange⟩ := Table.of_mem_scan hrow
    simp only [Bool.and_eq_true, decide_eq_true_eq] at hrange
    obtain ⟨s, hs, hentry⟩ := hσ.get_index_iff.mp hget
    have hv : v = .run s.id := hkind s (ofLex k).2 v (by rw [← hrange.1]; exact hentry)
    rw [owner_of_mem_entries hentry] at hs
    exact ⟨s, indexedRun_ok.mpr ⟨⟨s.id, hv, hs⟩, rfl⟩⟩
  have hcollect : ∀ rows : List (IndexKey × IndexValue),
      (∀ row ∈ rows, ∃ s, indexedRun row σ = .ok (s, σ)) →
        ∃ l, Tx.collect indexedRun rows σ = .ok (l, σ) := by
    intro rows
    -- so the rows are read one after the other
    induction rows with
    | nil => exact fun _ => ⟨[], rfl⟩
    | cons row rows ih =>
      intro hall
      obtain ⟨s, hs⟩ := hall row List.mem_cons_self
      obtain ⟨l, hl⟩ := ih fun row hrow => hall row (List.mem_cons_of_mem _ hrow)
      refine ⟨s :: l, ?_⟩
      simp only [Tx.collect, Tx.bind_ok, Tx.pure_ok]
      exact ⟨s, σ, hs, l, σ, hl, rfl, rfl⟩
  obtain ⟨l, hl⟩ := hcollect _ hrow
  refine ⟨l, ?_⟩
  simp only [indexedRuns, Tx.bind_ok, Tx.read_ok]
  exact ⟨_, σ, ⟨rfl, rfl⟩, hl⟩

/-- Runs read through the index of one kind. -/
theorem mem_indexedRuns {kind : IndexKind} {range : IndexId → Bool} {limit : Option Nat}
    {σ σ' : Rows} {l : List StoredRun} (hσ : Indexed σ)
    (h : indexedRuns kind range limit σ = .ok (l, σ')) {s : StoredRun} (hs : s ∈ l) :
    σ.run.get s.id = some s ∧ ∃ i, range i = true ∧ (indexKey kind i, .run s.id) ∈ entries s := by
  obtain ⟨rfl, hall⟩ := indexedRuns_ok hσ h
  obtain ⟨row, -, hget, hrow, i, -, hrange, hentry⟩ := Tx.exists_of_mem_right hall hs
  rw [hrow] at hentry
  exact ⟨hget, i, hrange, hentry⟩

/-- An unlimited read through the index of a kind misses no run with a row there. -/
theorem indexedRuns_complete {kind : IndexKind} {range : IndexId → Bool} {σ σ' : Rows}
    {l : List StoredRun} (hσ : Indexed σ) (h : indexedRuns kind range none σ = .ok (l, σ'))
    {s : StoredRun} {i : IndexId} (hs : σ.run.get s.id = some s) (hrange : range i = true)
    (hentry : (indexKey kind i, .run s.id) ∈ entries s) : s ∈ l := by
  obtain ⟨-, hall⟩ := indexedRuns_ok hσ h
  have hrow : (indexKey kind i, .run s.id) ∈ scanIndex σ kind range none :=
    hσ.mem_scanIndex.mpr ⟨rfl, hrange, s, by rw [owner_of_mem_entries hentry]; exact hs, hentry⟩
  obtain ⟨s', hs', hget, hid, -⟩ := Tx.exists_of_mem_left hall hrow
  have hid : s'.id = s.id := by simpa using hid.symm
  rw [hid, hs] at hget
  rwa [Option.some.inj hget]

end Engine

end Ouro
