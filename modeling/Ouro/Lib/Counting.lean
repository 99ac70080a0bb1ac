import Ouro.Lib.Table

/-!
# Counting the rows of a table

How many rows of a table satisfy a predicate, followed through writes: rows that come to satisfy it are
counted once each (`countRows_add`). Rows grouped by a key are each in one group, so the groups add up to
all of them (`sum_groups`).
-/

namespace Lib

namespace Table

variable {K V : Type} [LinearOrder K]

/-- The rows that satisfy a predicate. -/
def rowsOf (t : Table K V) (p : V → Bool) : List (K × V) := t.rows.filter fun row => p row.2

theorem mem_rowsOf {t : Table K V} {p : V → Bool} {k : K} {v : V} :
    (k, v) ∈ t.rowsOf p ↔ t.get k = some v ∧ p v = true := by
  rw [rowsOf, List.mem_filter, mem_rows]

theorem keys_rowsOf_nodup (t : Table K V) (p : V → Bool) : ((t.rowsOf p).map Prod.fst).Nodup := by
  have hsorted : (t.rowsOf p).Pairwise fun a b => a.1 < b.1 := t.rows_sorted.filter _
  exact (List.pairwise_map.mpr hsorted).imp ne_of_lt

theorem mem_keys_rowsOf {t : Table K V} {p : V → Bool} {k : K} :
    k ∈ (t.rowsOf p).map Prod.fst ↔ (t.get k).any p = true := by
  rw [List.mem_map]
  constructor
  · rintro ⟨⟨k', v⟩, hmem, rfl⟩
    obtain ⟨hget, hp⟩ := mem_rowsOf.mp hmem
    simp [hget, hp]
  · intro hany
    cases hget : t.get k with
    | none => simp [hget] at hany
    | some v =>
      rw [hget, Option.any_some] at hany
      exact ⟨(k, v), mem_rowsOf.mpr ⟨hget, hany⟩, rfl⟩

/-- Where the rows of `l` come to satisfy the predicate and no other changes that, they are counted on
top. -/
theorem countRows_add {t t' : Table K V} {p : V → Bool} {l : List K} (hl : l.Nodup)
    (h : ∀ k, (t'.get k).any p = true ↔ (t.get k).any p = true ∨ k ∈ l)
    (hnew : ∀ k ∈ l, (t.get k).any p = false) :
    (t'.rowsOf p).length = (t.rowsOf p).length + l.length := by
  have hperm : ((t'.rowsOf p).map Prod.fst).Perm ((t.rowsOf p).map Prod.fst ++ l) := by
    have happend : ((t.rowsOf p).map Prod.fst ++ l).Nodup := by
      refine (keys_rowsOf_nodup t p).append hl fun k hk hkl => ?_
      rw [mem_keys_rowsOf, hnew k hkl] at hk
      exact absurd hk (by decide)
    rw [List.perm_ext_iff_of_nodup (keys_rowsOf_nodup t' p) happend]
    intro k
    rw [List.mem_append, mem_keys_rowsOf, mem_keys_rowsOf, h]
  simpa using hperm.length_eq

/-- Where no row changes whether it satisfies the predicate, as many do. -/
theorem countRows_eq {t t' : Table K V} {p : V → Bool} (h : ∀ k, (t'.get k).any p = (t.get k).any p) :
    (t'.rowsOf p).length = (t.rowsOf p).length :=
  countRows_add (l := []) List.nodup_nil (by simp [h]) (by simp)

/-- A row that satisfies the predicate is counted when none at its key did. -/
theorem countRows_put {t : Table K V} {p : V → Bool} {k : K} {v : V} (hv : p v = true)
    (hk : (t.get k).any p = false) : ((t.put k v).rowsOf p).length = (t.rowsOf p).length + 1 := by
  refine countRows_add (l := [k]) (List.nodup_singleton k) (fun k' => ?_) fun k' hk' => ?_
  · rw [get_put, List.mem_singleton]
    split
    · next h => simp [h, hv]
    · next h => simp [Ne.symm h]
  · rw [List.mem_singleton.mp hk']
    exact hk

/-- A row in the place of one that satisfied the predicate as it does changes no count. -/
theorem countRows_put_same {t : Table K V} {p : V → Bool} {k : K} {v : V} (h : (t.get k).any p = p v) :
    ((t.put k v).rowsOf p).length = (t.rowsOf p).length := by
  refine countRows_eq fun k' => ?_
  rw [get_put]
  split
  · next hk => rw [← hk, h, Option.any_some]
  · rfl

/-- Rows that have come to satisfy the predicate are counted on top of those that still do. -/
theorem countRows_le {t t' : Table K V} {p : V → Bool} {l : List K} (hl : l.Nodup)
    (hkeep : ∀ k, (t.get k).any p = true → (t'.get k).any p = true)
    (hnew : ∀ k ∈ l, (t'.get k).any p = true ∧ (t.get k).any p = false) :
    l.length + (t.rowsOf p).length ≤ (t'.rowsOf p).length := by
  have happend : (l ++ (t.rowsOf p).map Prod.fst).Nodup := by
    refine hl.append (keys_rowsOf_nodup t p) fun k hkl hk => ?_
    rw [mem_keys_rowsOf, (hnew k hkl).2] at hk
    exact absurd hk (by decide)
  have hsubset : l ++ (t.rowsOf p).map Prod.fst ⊆ (t'.rowsOf p).map Prod.fst := by
    intro k hk
    rw [mem_keys_rowsOf]
    rcases List.mem_append.mp hk with hk | hk
    · exact (hnew k hk).1
    · exact hkeep k (mem_keys_rowsOf.mp hk)
  have hlength := (List.subperm_of_subset happend hsubset).length_le
  simpa using hlength

end Table

theorem sum_indicator {K : Type} [DecidableEq K] (keys : List K) (k : K) :
    (keys.map fun k' => if k = k' then 1 else 0).sum = keys.count k := by
  induction keys with
  | nil => rfl
  | cons k' keys ih =>
    rw [List.map_cons, List.sum_cons, ih, List.count_cons, Nat.add_comm]
    by_cases hk : k = k' <;> simp [hk, Ne.symm]

/-- Elements grouped by a key: the groups of keys that are all of theirs, each once, add up. -/
theorem sum_groups {α K : Type} [DecidableEq K] {keys : List K} (hkeys : keys.Nodup) (f : α → K)
    {l : List α} (h : ∀ x ∈ l, f x ∈ keys) :
    (keys.map fun k => (l.filter fun x => f x = k).length).sum = l.length := by
  induction l with
  | nil => simp
  | cons x l ih =>
    have hx : (keys.map fun k => if f x = k then 1 else 0).sum = 1 := by
      rw [sum_indicator, List.count_eq_one_of_mem hkeys (h x List.mem_cons_self)]
    have hsplit : (keys.map fun k => ((x :: l).filter fun y => f y = k).length) =
        keys.map fun k => (if f x = k then 1 else 0) + (l.filter fun y => f y = k).length := by
      refine List.map_congr_left fun k _ => ?_
      by_cases hk : f x = k <;> simp [hk, Nat.add_comm]
    rw [hsplit, List.sum_map_add, hx, ih fun y hy => h y (List.mem_cons_of_mem _ hy), List.length_cons,
      Nat.add_comm]

end Lib
