import Ouro.Lib.Table

/-!
# Tables under pending writes

A transaction keeps its writes aside: a table of values to put and of rows to delete. `overlay t w` is
the table with the writes applied. A scan of it needs only a few rows of `t` more than it returns: as
many as there are writes (`scan_overlay`), since each write removes one row of the range at most.
-/

namespace Lib

namespace Table

variable {K V W : Type} [LinearOrder K]

/-! ### Rows in order -/

/-- The rows of a table are the only sorted list of them. -/
theorem rows_eq_of_sorted {t : Table K V} {l : List (K × V)} (hsorted : l.Pairwise fun a b => a.1 < b.1)
    (hmem : ∀ k v, (k, v) ∈ l ↔ t.get k = some v) : t.rows = l := by
  have hnodup : ∀ {l : List (K × V)}, (l.Pairwise fun a b => a.1 < b.1) → l.Nodup := by
    intro l h
    refine h.imp fun hab heq => ?_
    subst heq
    exact lt_irrefl _ hab
  have hperm : t.rows.Perm l := by
    rw [List.perm_ext_iff_of_nodup (hnodup t.rows_sorted) (hnodup hsorted)]
    rintro ⟨k, v⟩
    rw [mem_rows, hmem]
  exact hperm.eq_of_pairwise (fun a b _ _ hab hba => absurd hab (lt_asymm hba)) t.rows_sorted hsorted

/-- The rows with every value mapped. -/
def mapValues (f : V → W) (t : Table K V) : Table K W :=
  ofList (t.rows.map fun row => (row.1, f row.2))

@[simp] theorem get_mapValues (f : V → W) (t : Table K V) (k : K) :
    (t.mapValues f).get k = (t.get k).map f := by
  have hmem : ∀ k w, (k, w) ∈ (t.rows.map fun row => (row.1, f row.2)) ↔
      ∃ v, t.get k = some v ∧ f v = w := by
    intro k w
    simp only [List.mem_map, Prod.exists, Prod.mk.injEq]
    constructor
    · rintro ⟨k, v, hv, rfl, rfl⟩
      exact ⟨v, t.mem_rows.mp hv, rfl⟩
    · rintro ⟨v, hv, rfl⟩
      exact ⟨k, v, t.mem_rows.mpr hv, rfl, rfl⟩
  refine Option.ext fun w => ?_
  unfold mapValues
  rw [get_ofList, hmem, Option.map_eq_some_iff]
  intro k v w hv hw
  obtain ⟨x, hx, rfl⟩ := (hmem k v).mp hv
  obtain ⟨y, hy, rfl⟩ := (hmem k w).mp hw
  rw [Option.some.inj (hx.symm.trans hy)]

theorem rows_mapValues (f : V → W) (t : Table K V) :
    (t.mapValues f).rows = t.rows.map fun row => (row.1, f row.2) := by
  refine rows_eq_of_sorted (List.pairwise_map.mpr t.rows_sorted) fun k w => ?_
  rw [get_mapValues, Option.map_eq_some_iff]
  simp only [List.mem_map, Prod.exists, Prod.mk.injEq]
  constructor
  · rintro ⟨k, v, hv, rfl, rfl⟩
    exact ⟨v, t.mem_rows.mp hv, rfl⟩
  · rintro ⟨v, hv, rfl⟩
    exact ⟨k, v, t.mem_rows.mpr hv, rfl, rfl⟩

theorem scan_mapValues (f : V → W) (t : Table K V) (range : K → Bool) (limit : Nat) :
    (t.mapValues f).scan range (some limit) =
      (t.scan range (some limit)).map fun row => (row.1, f row.2) := by
  unfold scan
  simp only [rows_mapValues, List.filter_map, List.map_take]
  rfl

/-! ### Pending writes -/

/-- One pending write applied: a value is put, no value deletes the row. -/
def written (t : Table K V) (k : K) (value : Option V) : Table K V :=
  value.elim (t.delete k) (t.put k)

theorem get_written (t : Table K V) (k k' : K) (value : Option V) :
    (t.written k value).get k' = if k = k' then value else t.get k' := by
  cases value with
  | none => exact get_delete t k k'
  | some v => exact get_put t k k' v

/-- The table with pending writes applied. -/
def overlay (t : Table K V) (w : Table K (Option V)) : Table K V :=
  w.rows.foldl (fun t row => t.written row.1 row.2) t

/-- Sorted writes, one after the other: a row reads as written, or as before. -/
theorem get_foldl_written {l : List (K × Option V)} (hsorted : l.Pairwise fun a b => a.1 < b.1)
    (t : Table K V) (k : K) :
    (∀ value, (k, value) ∈ l → (l.foldl (fun t row => t.written row.1 row.2) t).get k = value) ∧
      ((∀ value, (k, value) ∉ l) →
        (l.foldl (fun t row => t.written row.1 row.2) t).get k = t.get k) := by
  induction l generalizing t with
  | nil => exact ⟨fun value hmem => by simp at hmem, fun _ => rfl⟩
  | cons row l ih =>
    obtain ⟨hlt, hsorted⟩ := List.pairwise_cons.mp hsorted
    obtain ⟨ihmem, ihnot⟩ := ih hsorted (t.written row.1 row.2)
    refine ⟨fun value hmem => ?_, fun hnot => ?_⟩
    · rcases List.mem_cons.mp hmem with rfl | hmem
      · -- no later write is at the same key
        rw [List.foldl_cons, ihnot fun value' hmem' => lt_irrefl k (hlt (k, value') hmem'), get_written,
          if_pos rfl]
      · exact ihmem value hmem
    · rw [List.foldl_cons, ihnot fun value hmem => hnot value (List.mem_cons_of_mem _ hmem),
        get_written, if_neg]
      intro heq
      exact hnot row.2 (by simp [← heq])

theorem get_overlay (t : Table K V) (w : Table K (Option V)) (k : K) :
    (t.overlay w).get k = (w.get k).getD (t.get k) := by
  obtain ⟨hmem, hnot⟩ := get_foldl_written w.rows_sorted t k
  cases hw : w.get k with
  | none =>
    refine hnot fun value hvalue => ?_
    rw [w.mem_rows, hw] at hvalue
    simp at hvalue
  | some value => exact hmem value (w.mem_rows.mpr hw)

@[simp] theorem overlay_empty (t : Table K V) : t.overlay .empty = t := by
  refine ext_get fun k => ?_
  rw [get_overlay, get_empty, Option.getD_none]

/-- A further write is a write on top. -/
theorem overlay_put (t : Table K V) (w : Table K (Option V)) (k : K) (value : Option V) :
    t.overlay (w.put k value) = (t.overlay w).written k value := by
  refine ext_get fun k' => ?_
  rw [get_overlay, get_put, get_written, get_overlay]
  split <;> rfl

/-! ### Scans under pending writes -/

/-- The keys up to a bound come first in a sorted list. -/
theorem take_filter_le {l : List (K × V)} (hsorted : l.Pairwise fun a b => a.1 < b.1) (c : K) {n : Nat}
    (hn : n ≤ (l.filter fun row => decide (row.1 ≤ c)).length) :
    l.take n = (l.filter fun row => decide (row.1 ≤ c)).take n := by
  induction l generalizing n with
  | nil => rfl
  | cons row l ih =>
    obtain ⟨hlt, hsorted⟩ := List.pairwise_cons.mp hsorted
    by_cases hrow : row.1 ≤ c
    · rw [List.filter_cons_of_pos (by simpa using hrow)] at hn ⊢
      cases n with
      | zero => rfl
      | succ n =>
        rw [List.take_succ_cons, List.take_succ_cons, ih hsorted (by simpa using hn)]
    · -- the first key is past the bound, and so are all
      have hnil : ((row :: l).filter fun row => decide (row.1 ≤ c)) = [] := by
        rw [List.filter_eq_nil_iff]
        intro other hmem
        rcases List.mem_cons.mp hmem with rfl | hmem
        · simpa using hrow
        · simpa using lt_trans (not_le.mp hrow) (hlt _ hmem)
      rw [hnil] at hn ⊢
      rw [List.length_nil, Nat.le_zero] at hn
      rw [hn, List.take_zero, List.take_zero]

/-- The keys of a sorted list do not repeat. -/
theorem keys_nodup {l : List (K × V)} (hsorted : l.Pairwise fun a b => a.1 < b.1) :
    (l.map Prod.fst).Nodup :=
  List.pairwise_map.mpr (hsorted.imp fun hab => ne_of_lt hab)

/-- The last key of a sorted list is its greatest. -/
theorem last_le {l : List (K × V)} (hsorted : l.Pairwise fun a b => a.1 < b.1) (hne : l ≠ [])
    {row : K × V} (hrow : row ∈ l) : row.1 ≤ (l.getLast hne).1 := by
  rw [← List.dropLast_append_getLast hne] at hsorted hrow
  -- before the last one, or the last one itself
  rcases List.mem_append.mp hrow with hmem | hmem
  · exact le_of_lt ((List.pairwise_append.mp hsorted).2.2 row hmem _ (List.mem_singleton_self _))
  · rw [List.mem_singleton.mp hmem]

/-- Tables that agree on the keys of `p` scan to the same rows there. -/
theorem scan_filter_eq {t₁ t₂ : Table K V} {range p : K → Bool}
    (hget : ∀ k, p k = true → t₁.get k = if range k then t₂.get k else none) :
    ((t₁.scan all none).filter fun row => p row.1) =
      (t₂.scan range none).filter fun row => p row.1 := by
  -- sorted lists with the same elements are the same
  refine List.Perm.eq_of_pairwise (fun a b _ _ hab hba => absurd hab (lt_asymm hba))
    ((t₁.scan_sorted all).filter _) ((t₂.scan_sorted range).filter _) ?_
  rw [List.perm_ext_iff_of_nodup ((t₁.scan_nodup all).filter _) ((t₂.scan_nodup range).filter _)]
  rintro ⟨k, v⟩
  simp only [List.mem_filter, mem_scan, all, and_true]
  refine and_congr_left fun hk => ?_
  rw [hget k hk]
  cases hr : range k <;> simp

/-- A scan of the first rows is decided by the rows up to a bound, if there are enough of them. -/
theorem scan_eq_of_le {t₁ t₂ : Table K V} {range : K → Bool} {c : K} {n : Nat}
    (hget : ∀ k, k ≤ c → t₁.get k = if range k then t₂.get k else none) {keys : List K}
    (hnodup : keys.Nodup) (hkeys : ∀ k ∈ keys, k ≤ c ∧ ∃ v, t₁.get k = some v)
    (hn : n ≤ keys.length) : t₁.scan all (some n) = t₂.scan range (some n) := by
  have hsorted₁ : (t₁.scan all none).Pairwise fun a b => a.1 < b.1 := t₁.scan_sorted all
  have hsorted₂ : (t₂.scan range none).Pairwise fun a b => a.1 < b.1 := t₂.scan_sorted range
  have hsame : ((t₁.scan all none).filter fun row => decide (row.1 ≤ c)) =
      (t₂.scan range none).filter fun row => decide (row.1 ≤ c) :=
    scan_filter_eq (p := fun k => decide (k ≤ c)) fun k hk => hget k (decide_eq_true_eq.mp hk)
  -- the given keys are among those up to the bound, so there are enough
  have hlength : keys.length ≤ ((t₁.scan all none).filter fun row => decide (row.1 ≤ c)).length := by
    rw [← List.length_map (f := Prod.fst)]
    refine (List.subperm_of_subset hnodup fun k hk => ?_).length_le
    obtain ⟨hle, v, hv⟩ := hkeys k hk
    refine List.mem_map.mpr ⟨(k, v), ?_, rfl⟩
    simp only [List.mem_filter, mem_scan, all, and_true, decide_eq_true_eq]
    exact ⟨hv, hle⟩
  rw [scan_some, scan_some, take_filter_le hsorted₁ c (hn.trans hlength),
    take_filter_le hsorted₂ c (hn.trans (hlength.trans_eq (congrArg List.length hsame))), hsame]

/-- A scan under pending writes, from the first rows of the range without them: as many more as there
are writes. -/
theorem scan_overlay (t : Table K V) (w : Table K (Option V)) (range : K → Bool) (n : Nat) :
    ((w.rows.filter fun row => range row.1).foldl (fun t row => t.written row.1 row.2)
        (ofList (t.scan range (some (n + w.rows.length))))).scan all (some n) =
      (t.overlay w).scan range (some n) := by
  generalize hobs : t.scan range (some (n + w.rows.length)) = observed
  rw [scan_some] at hobs
  have hobsorted : observed.Pairwise fun a b => a.1 < b.1 := by
    rw [← hobs]
    exact (t.scan_sorted range).take
  have hfound : ∀ k v, (ofList observed).get k = some v ↔ (k, v) ∈ observed := fun k v =>
    get_ofList fun k v v' hv hv' => by
      rw [← hobs] at hv hv'
      have h := ((t.mem_scan range).mp (List.mem_of_mem_take hv)).1
      have h' := ((t.mem_scan range).mp (List.mem_of_mem_take hv')).1
      exact Option.some.inj (h.symm.trans h')
  set merged := (w.rows.filter fun row => range row.1).foldl (fun t row => t.written row.1 row.2)
    (ofList observed) with hmerged
  -- what the merged table reads
  have hget : ∀ k, merged.get k =
      if range k then (w.get k).getD ((ofList observed).get k) else (ofList observed).get k := by
    intro k
    obtain ⟨hmem, hnot⟩ := get_foldl_written (w.rows_sorted.filter fun row => range row.1)
      (ofList observed) k
    cases hr : range k with
    | false =>
      -- writes outside the range are not made
      refine hnot fun value hvalue => ?_
      simp [hr] at hvalue
    | true =>
      cases hw : w.get k with
      | none =>
        -- no write, so the row that was read
        refine hnot fun value hvalue => ?_
        rw [List.mem_filter, w.mem_rows, hw] at hvalue
        simp at hvalue
      | some value => exact hmem value (List.mem_filter.mpr ⟨w.mem_rows.mpr hw, hr⟩)
  by_cases hshort : (t.scan range none).length ≤ n + w.rows.length
  · -- the whole range was read
    rw [List.take_of_length_le hshort] at hobs
    have hwhole : ∀ k, merged.get k = if range k then (t.overlay w).get k else none := by
      intro k
      have hread : (ofList observed).get k = if range k then t.get k else none := by
        refine Option.ext fun v => ?_
        rw [hfound, ← hobs, mem_scan]
        cases hr : range k <;> simp
      rw [hget, hread, get_overlay]
      cases hr : range k <;> simp
    have hsame := scan_filter_eq (p := all) fun k _ => hwhole k
    simp only [all, List.filter_true] at hsame
    rw [scan_some, scan_some]
    exact congrArg (List.take n) hsame
  · -- the range was cut after its first rows: what is left of them under the writes is enough
    rw [not_le] at hshort
    have hlength : observed.length = n + w.rows.length := by
      rw [← hobs, List.length_take_of_le hshort.le]
    cases n with
    | zero => rfl
    | succ n =>
      have hne : observed ≠ [] := by
        intro hnil
        rw [hnil, List.length_nil] at hlength
        omega
      have hlast : ∀ row ∈ observed, row.1 ≤ (observed.getLast hne).1 :=
        fun row hrow => last_le hobsorted hne hrow
      have hcut : ∀ k, k ≤ (observed.getLast hne).1 →
          (ofList observed).get k = if range k then t.get k else none := by
        intro k hk
        refine Option.ext fun v => ?_
        rw [hfound]
        have hmem : (k, v) ∈ observed ↔ t.get k = some v ∧ range k = true := by
          rw [← t.mem_scan range, ← List.take_append_drop (n + 1 + w.rows.length) (t.scan range none),
            hobs, List.mem_append, or_iff_left]
          -- a row that was cut off lies past the last one read
          intro hdrop
          have hsorted := t.scan_sorted range
          rw [← List.take_append_drop (n + 1 + w.rows.length) (t.scan range none), hobs] at hsorted
          exact absurd hk (not_le.mpr ((List.pairwise_append.mp hsorted).2.2 _
            (List.getLast_mem hne) _ hdrop))
        rw [hmem]
        cases hr : range k <;> simp
      have hrange : ∀ k v, (k, v) ∈ observed → range k = true := by
        intro k v hkv
        rw [← hobs] at hkv
        exact ((t.mem_scan range).mp (List.mem_of_mem_take hkv)).2
      -- the bound is the last row read; up to it both read the same, and the rows without a write are enough
      refine scan_eq_of_le (c := (observed.getLast hne).1) (fun k hk => ?_)
        (keys_nodup (hobsorted.filter fun row => (w.get row.1).isNone)) (fun k hk => ?_) ?_
      · rw [hget, hcut k hk, get_overlay]
        cases hr : range k <;> simp
      · obtain ⟨⟨k, v⟩, hmem, rfl⟩ := List.mem_map.mp hk
        obtain ⟨hobserved, hnone⟩ := List.mem_filter.mp hmem
        refine ⟨hlast _ hobserved, v, ?_⟩
        rw [hget, hrange k v hobserved, if_pos rfl, Option.isNone_iff_eq_none.mp hnone,
          Option.getD_none]
        exact (hfound k v).mpr hobserved
      -- each write takes at most one of the rows that were read
      · have hwritten : (observed.filter fun row => !(w.get row.1).isNone).length ≤ w.rows.length := by
          have hsubset : ((observed.filter fun row => !(w.get row.1).isNone).map Prod.fst) ⊆
              w.rows.map Prod.fst := by
            intro k hk
            obtain ⟨⟨k, v⟩, hmem, rfl⟩ := List.mem_map.mp hk
            obtain ⟨-, hsome⟩ := List.mem_filter.mp hmem
            obtain ⟨value, hvalue⟩ := Option.isSome_iff_exists.mp
              (by simpa using hsome : (w.get k).isSome = true)
            exact List.mem_map.mpr ⟨(k, value), w.mem_rows.mpr hvalue, rfl⟩
          have hle := (List.subperm_of_subset (keys_nodup (hobsorted.filter _)) hsubset).length_le
          rwa [List.length_map, List.length_map] at hle
        have hsplit := List.length_eq_length_filter_add (l := observed) fun row => (w.get row.1).isNone
        rw [List.length_map]
        omega

end Table

end Lib
