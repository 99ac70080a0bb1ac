import Mathlib.Order.Std
import Mathlib.Data.Prod.Lex
import Mathlib.Tactic

/-!
# Ordered tables

A `Table K V` is a finite map read by key and by ordered scan. It is the standard library's
extensional tree map at the comparison of a linear order, under the four operations a row store
offers: `get`, `put`, `delete` and `scan`.

The lemmas below are the whole interface the proofs use:

* `get_put`, `get_delete`, `get_empty`: what a read sees after a write;
* `ext_get`: a table is determined by its reads;
* `mem_scan`: an unlimited scan lists exactly the rows whose key lies in the range;
* `scan_one`: a scan limited to one row lists the least row of the range, if there is one.

A family of tables indexed by a partition is a function into tables; `putAt` and `deleteAt` write one
row of one partition.
-/

namespace Lib

/-- A finite map from `K` to `V`, kept in key order. -/
structure Table (K V : Type) [LinearOrder K] where
  /-- The underlying tree map, compared by the linear order. -/
  map : Std.ExtTreeMap K V compare

namespace Table

variable {K V : Type} [LinearOrder K]

/-- The table without rows. -/
def empty : Table K V := ⟨∅⟩

/-- The row at `k`. -/
def get (t : Table K V) (k : K) : Option V := t.map[k]?

/-- The table with the row at `k` written. -/
def put (t : Table K V) (k : K) (v : V) : Table K V := ⟨t.map.insert k v⟩

/-- The table without a row at `k`. -/
def delete (t : Table K V) (k : K) : Table K V := ⟨t.map.erase k⟩

/-- The rows in key order. -/
def rows (t : Table K V) : List (K × V) := t.map.toList

/-- The keys in order. -/
def keys (t : Table K V) : List K := t.rows.map Prod.fst

/-- The values in key order. -/
def values (t : Table K V) : List V := t.rows.map Prod.snd

/-- Whether there is a row at `k`. -/
def contains (t : Table K V) (k : K) : Bool := (t.get k).isSome

/-- Whether there is no row. -/
def isEmpty (t : Table K V) : Bool := t.rows.isEmpty

/-- The first `limit` rows whose key lies in `range`, in key order (`none`: all of them). -/
def scan (t : Table K V) (range : K → Bool) (limit : Option Nat) : List (K × V) :=
  let found := t.rows.filter fun row => range row.1
  match limit with
  | none => found
  | some n => found.take n

/-- The whole key range. -/
def all : K → Bool := fun _ => true

/-- The table of a list of rows; a later row replaces an earlier one at its key. -/
def ofList (l : List (K × V)) : Table K V := l.foldl (fun t row => t.put row.1 row.2) empty

/-- The rows that `f` keeps. -/
def retain (t : Table K V) (f : K → V → Bool) : Table K V :=
  ofList (t.rows.filter fun row => f row.1 row.2)

/-! ### Reads after writes -/

@[simp] theorem get_empty (k : K) : (empty : Table K V).get k = none := by
  simp [get, empty]

theorem get_put (t : Table K V) (k k' : K) (v : V) :
    (t.put k v).get k' = if k = k' then some v else t.get k' := by
  unfold get put
  rw [Std.ExtTreeMap.getElem?_insert]
  simp only [compare_eq_iff_eq]

@[simp] theorem get_put_self (t : Table K V) (k : K) (v : V) : (t.put k v).get k = some v := by
  rw [get_put, if_pos rfl]

theorem get_put_ne (t : Table K V) {k k' : K} (v : V) (h : k ≠ k') :
    (t.put k v).get k' = t.get k' := by
  rw [get_put, if_neg h]

theorem get_delete (t : Table K V) (k k' : K) :
    (t.delete k).get k' = if k = k' then none else t.get k' := by
  unfold get delete
  rw [Std.ExtTreeMap.getElem?_erase]
  simp only [compare_eq_iff_eq]

@[simp] theorem get_delete_self (t : Table K V) (k : K) : (t.delete k).get k = none := by
  rw [get_delete, if_pos rfl]

theorem get_delete_ne (t : Table K V) {k k' : K} (h : k ≠ k') :
    (t.delete k).get k' = t.get k' := by
  rw [get_delete, if_neg h]

/-- What is left after a deletion was there before. -/
theorem of_get_delete {t : Table K V} {k l : K} {v : V} (h : (t.delete k).get l = some v) :
    t.get l = some v := by
  rw [get_delete] at h
  split at h
  · simp at h
  · exact h

/-- A table is determined by its reads. -/
theorem ext_get {t₁ t₂ : Table K V} (h : ∀ k, t₁.get k = t₂.get k) : t₁ = t₂ := by
  cases t₁
  cases t₂
  congr 1
  exact Std.ExtTreeMap.ext_getElem? h

/-- A second write of a row leaves nothing of the first. -/
theorem put_put (t : Table K V) (k : K) (v w : V) : (t.put k v).put k w = t.put k w := by
  refine ext_get fun k' => ?_
  rw [get_put, get_put, get_put]
  split <;> rfl

/-- Writing the row that is there changes nothing. -/
theorem put_get (t : Table K V) {k : K} {v : V} (h : t.get k = some v) : t.put k v = t := by
  refine ext_get fun k' => ?_
  rw [get_put]
  split
  · next hk => rw [← hk, h]
  · rfl

/-- Replacing a row by one that agrees on `P` changes nothing that `P` says of the rows. -/
theorem exists_get_put (t : Table K V) {k : K} {v w : V} {P : V → Prop} (h : t.get k = some v)
    (hP : P w ↔ P v) (k' : K) :
    (∃ x, (t.put k w).get k' = some x ∧ P x) ↔ ∃ x, t.get k' = some x ∧ P x := by
  rw [get_put]
  split
  · next heq =>
    subst heq
    simp [h, hP]
  · rfl

theorem contains_iff (t : Table K V) (k : K) : t.contains k = true ↔ ∃ v, t.get k = some v := by
  unfold contains
  exact Option.isSome_iff_exists

theorem contains_eq_false_iff (t : Table K V) (k : K) : t.contains k = false ↔ t.get k = none := by
  unfold contains
  simp

/-! ### Scans -/

theorem mem_rows (t : Table K V) {k : K} {v : V} : (k, v) ∈ t.rows ↔ t.get k = some v :=
  Std.ExtTreeMap.mem_toList_iff_getElem?_eq_some

theorem rows_sorted (t : Table K V) : t.rows.Pairwise fun a b => a.1 < b.1 := by
  have h := Std.ExtTreeMap.ordered_keys_toList (t := t.map)
  exact h.imp fun hab => compare_lt_iff_lt.mp hab

theorem mem_keys (t : Table K V) {k : K} : k ∈ t.keys ↔ ∃ v, t.get k = some v := by
  unfold keys
  simp only [List.mem_map, Prod.exists, exists_and_right, exists_eq_right]
  exact ⟨fun ⟨v, h⟩ => ⟨v, t.mem_rows.mp h⟩, fun ⟨v, h⟩ => ⟨v, t.mem_rows.mpr h⟩⟩

theorem mem_values (t : Table K V) {v : V} : v ∈ t.values ↔ ∃ k, t.get k = some v := by
  unfold values
  simp only [List.mem_map, Prod.exists, exists_eq_right]
  exact ⟨fun ⟨k, h⟩ => ⟨k, t.mem_rows.mp h⟩, fun ⟨k, h⟩ => ⟨k, t.mem_rows.mpr h⟩⟩

/-- An unlimited scan lists exactly the rows of the range. -/
theorem mem_scan (t : Table K V) (range : K → Bool) {k : K} {v : V} :
    (k, v) ∈ t.scan range none ↔ t.get k = some v ∧ range k = true := by
  unfold scan
  simp only [List.mem_filter, mem_rows]

/-- A limited scan lists rows of the range only. -/
theorem of_mem_scan {t : Table K V} {range : K → Bool} {limit : Option Nat} {k : K} {v : V}
    (h : (k, v) ∈ t.scan range limit) : t.get k = some v ∧ range k = true := by
  cases limit with
  | none => exact (t.mem_scan range).mp h
  | some n => exact (t.mem_scan range).mp (List.mem_of_mem_take h)

theorem scan_sorted (t : Table K V) (range : K → Bool) :
    (t.scan range none).Pairwise fun a b => a.1 < b.1 :=
  t.rows_sorted.filter _

theorem scan_nodup (t : Table K V) (range : K → Bool) : (t.scan range none).Nodup :=
  (t.scan_sorted range).imp fun hab heq => by
    subst heq
    exact lt_irrefl _ hab

theorem scan_some (t : Table K V) (range : K → Bool) (n : Nat) :
    t.scan range (some n) = (t.scan range none).take n := rfl

/-- The head of a scan is the least row of the range. -/
theorem scan_cons {t : Table K V} {range : K → Bool} {k : K} {v : V} {rest : List (K × V)}
    (h : t.scan range none = (k, v) :: rest) :
    t.get k = some v ∧ range k = true ∧
      ∀ k' v', t.get k' = some v' → range k' = true → k ≤ k' := by
  have hmem : (k, v) ∈ t.scan range none := by rw [h]; exact List.mem_cons_self
  obtain ⟨hget, hrange⟩ := (t.mem_scan range).mp hmem
  refine ⟨hget, hrange, fun k' v' hget' hrange' => ?_⟩
  have hmem' : (k', v') ∈ t.scan range none := (t.mem_scan range).mpr ⟨hget', hrange'⟩
  have hsorted := t.scan_sorted range
  rw [h] at hmem' hsorted
  -- the rows come in the order of their keys
  rcases List.mem_cons.mp hmem' with heq | hrest
  · rw [(Prod.mk.inj heq).1]
  · exact le_of_lt ((List.pairwise_cons.mp hsorted).1 _ hrest)

/-- An empty scan: the range holds no row. -/
theorem scan_eq_nil_iff (t : Table K V) (range : K → Bool) :
    t.scan range none = [] ↔ ∀ k v, t.get k = some v → range k = false := by
  rw [List.eq_nil_iff_forall_not_mem]
  constructor
  · intro h k v hget
    by_contra hne
    exact h (k, v) ((t.mem_scan range).mpr ⟨hget, by simpa using hne⟩)
  · rintro h ⟨k, v⟩ hmem
    obtain ⟨hget, hrange⟩ := (t.mem_scan range).mp hmem
    rw [h k v hget] at hrange
    exact absurd hrange (by simp)

/-- A scan limited to one row: the least row of the range, or none. -/
theorem scan_one (t : Table K V) (range : K → Bool) :
    (t.scan range (some 1) = [] ∧ ∀ k v, t.get k = some v → range k = false) ∨
      ∃ k v, t.scan range (some 1) = [(k, v)] ∧ t.get k = some v ∧ range k = true ∧
        ∀ k' v', t.get k' = some v' → range k' = true → k ≤ k' := by
  rw [scan_some]
  cases h : t.scan range none with
  | nil => exact .inl ⟨rfl, (t.scan_eq_nil_iff range).mp h⟩
  | cons row rest =>
    obtain ⟨k, v⟩ := row
    exact .inr ⟨k, v, rfl, scan_cons h⟩

/-! ### Tables of lists -/

/-- A list in which equal keys have equal values lists the rows of its table. -/
theorem get_ofList {l : List (K × V)}
    (h : ∀ k v w, (k, v) ∈ l → (k, w) ∈ l → v = w) {k : K} {v : V} :
    (ofList l).get k = some v ↔ (k, v) ∈ l := by
  induction l using List.reverseRecOn generalizing v with
  | nil => simp [ofList]
  | append_singleton l row ih =>
    obtain ⟨k', v'⟩ := row
    have ih := @ih fun k v w hv hw =>
      h k v w (List.mem_append_left _ hv) (List.mem_append_left _ hw)
    have hput : ofList (l ++ [(k', v')]) = (ofList l).put k' v' := by
      simp [ofList, List.foldl_append]
    rw [hput, get_put, List.mem_append, List.mem_singleton, Prod.mk.injEq]
    split
    -- the last row is the one that is read
    · next heq =>
      subst heq
      constructor
      · rintro hv
        exact .inr ⟨rfl, (Option.some.inj hv).symm⟩
      -- an earlier row of the key has the same value
      · rintro (hmem | ⟨-, rfl⟩)
        · exact congrArg some (h k' v' v (by simp) (List.mem_append_left _ hmem))
        · rfl
    · next hne =>
      rw [ih]
      constructor
      · exact .inl
      · rintro (hmem | ⟨rfl, -⟩)
        · exact hmem
        · exact absurd rfl hne

/-- Two lists of the same rows in the order of their keys are the same. -/
theorem eq_of_keys {l m : List (K × V)} (hl : l.Pairwise fun a b => a.1 < b.1)
    (hm : m.Pairwise fun a b => a.1 < b.1) (h : ∀ row, row ∈ l ↔ row ∈ m) : l = m := by
  have hne {a b : K × V} (hlt : a.1 < b.1) : a ≠ b := fun heq => (heq ▸ hlt).false
  have hperm : l.Perm m := (List.perm_ext_iff_of_nodup (hl.imp hne) (hm.imp hne)).mpr h
  exact hperm.eq_of_pairwise (fun a b _ _ hab hba => absurd (hab.trans hba) (lt_irrefl _)) hl hm

/-- A list in the order of its keys is the rows of its table. -/
theorem rows_ofList {l : List (K × V)} (h : l.Pairwise fun a b => a.1 < b.1) : (ofList l).rows = l := by
  have hnodup : (l.map Prod.fst).Nodup := (List.pairwise_map.mpr h).imp ne_of_lt
  have hkeys : ∀ k v w, (k, v) ∈ l → (k, w) ∈ l → v = w := by
    intro k v w hv hw
    exact (Prod.mk.inj (List.inj_on_of_nodup_map hnodup hv hw rfl)).2
  refine eq_of_keys (rows_sorted _) h fun row => ?_
  obtain ⟨k, v⟩ := row
  rw [mem_rows, get_ofList hkeys]

/-! ### Least elements -/

/-- `o` is the least element of `s`, or nothing when `s` is empty. -/
def Least {α : Type} [LinearOrder α] (s : Set α) : Option α → Prop
  | none => s = ∅
  | some a => IsLeast s a

theorem Least.unique {α : Type} [LinearOrder α] {s : Set α} {o o' : Option α} (h : Least s o)
    (h' : Least s o') : o = o' := by
  cases o with
  | none =>
    cases o' with
    | none => rfl
    | some a => exact absurd (h ▸ h'.1) (Set.notMem_empty a)
  | some a =>
    cases o' with
    | none => exact absurd (h' ▸ h.1) (Set.notMem_empty a)
    | some b => rw [IsLeast.unique h h']

/-- The least element of a part is that of the whole when nothing in the whole is below the part. -/
theorem Least.iff_of_subset {α : Type} [LinearOrder α] {s t : Set α} {o : Option α} (h : Least s o)
    (hst : s ⊆ t) : Least t o ↔ ∀ a ∈ t, ∃ b ∈ s, b ≤ a := by
  -- of the empty part, of a part with a least element
  cases o with
  | none =>
    obtain rfl : s = ∅ := h
    constructor
    · rintro (rfl : t = ∅) a ha
      exact absurd ha (Set.notMem_empty a)
    · intro ht
      refine Set.eq_empty_of_forall_notMem fun a ha => ?_
      obtain ⟨b, hb, -⟩ := ht a ha
      exact absurd hb (Set.notMem_empty b)
  | some b =>
    have hb : IsLeast s b := h
    refine ⟨fun hleast a ha => ⟨b, hb.1, hleast.2 ha⟩, fun ht => ⟨hst hb.1, fun a ha => ?_⟩⟩
    obtain ⟨c, hc, hca⟩ := ht a ha
    exact (hb.2 hc).trans hca

/-- The least element of a list. -/
theorem least_min? {α : Type} [LinearOrder α] (l : List α) : Least {a | a ∈ l} l.min? := by
  cases h : l.min? with
  | none =>
    rw [List.min?_eq_none_iff.mp h]
    exact Set.eq_empty_of_forall_notMem fun a => List.not_mem_nil
  | some a =>
    obtain ⟨hmem, hle⟩ := List.min?_eq_some_iff.mp h
    exact ⟨hmem, fun b hb => hle b hb⟩

/-- One more element. -/
theorem Least.insert {α : Type} [LinearOrder α] {s : Set α} {o : Option α} (h : Least s o) (b : α) :
    Least (Insert.insert b s) (some (o.elim b (min · b))) := by
  cases o with
  | none =>
    obtain rfl : s = ∅ := h
    simp [Least]
  | some a =>
    have := (IsLeast.insert b h)
    rw [min_comm] at this
    exact this

/-- The key of a scan's first row is the least key of the range. -/
theorem least_scan (t : Table K V) (range : K → Bool) :
    Least {k | (∃ v, t.get k = some v) ∧ range k = true}
      ((t.scan range (some 1)).head?.map Prod.fst) := by
  rcases t.scan_one range with ⟨hnil, hnone⟩ | ⟨k, v, hone, hget, hrange, hleast⟩
  · rw [hnil]
    refine Set.eq_empty_of_forall_notMem ?_
    rintro k ⟨⟨v, hget⟩, hrange⟩
    simp [hnone k v hget] at hrange
  · rw [hone]
    exact ⟨⟨⟨v, hget⟩, hrange⟩, fun k' ⟨⟨v', hget'⟩, hrange'⟩ => hleast k' v' hget' hrange'⟩

/-! ### Equality -/

theorem rows_injective : Function.Injective (rows : Table K V → List (K × V)) := by
  intro t₁ t₂ h
  refine ext_get fun k => Option.ext fun v => ?_
  rw [← mem_rows, ← mem_rows, h]

instance [DecidableEq V] : DecidableEq (Table K V) := fun _ _ =>
  decidable_of_iff _ rows_injective.eq_iff

/-! ### Partitioned tables -/

variable {P : Type} [DecidableEq P]

/-- Writes one row of one partition. -/
def putAt (f : P → Table K V) (p : P) (k : K) (v : V) : P → Table K V :=
  Function.update f p ((f p).put k v)

/-- Deletes one row of one partition. -/
def deleteAt (f : P → Table K V) (p : P) (k : K) : P → Table K V :=
  Function.update f p ((f p).delete k)

theorem get_putAt (f : P → Table K V) (p p' : P) (k k' : K) (v : V) :
    (putAt f p k v p').get k' = if p = p' ∧ k = k' then some v else (f p').get k' := by
  unfold putAt
  by_cases hp : p = p'
  · subst hp; simp [Function.update_self, get_put]
  · rw [Function.update_of_ne (Ne.symm hp)]; simp [hp]

theorem get_deleteAt (f : P → Table K V) (p p' : P) (k k' : K) :
    (deleteAt f p k p').get k' = if p = p' ∧ k = k' then none else (f p').get k' := by
  unfold deleteAt
  by_cases hp : p = p'
  · subst hp; simp [Function.update_self, get_delete]
  · rw [Function.update_of_ne (Ne.symm hp)]; simp [hp]

theorem putAt_ne (f : P → Table K V) {p p' : P} (k : K) (v : V) (h : p' ≠ p) :
    putAt f p k v p' = f p' := by
  unfold putAt
  rw [Function.update_of_ne h]

theorem deleteAt_ne (f : P → Table K V) {p p' : P} (k : K) (h : p' ≠ p) :
    deleteAt f p k p' = f p' := by
  unfold deleteAt
  rw [Function.update_of_ne h]

end Table

end Lib
