import Ouro.Lib.Table

/-!
# Derived index tables

A secondary table whose rows derive from the rows of a primary one: each primary row `r` yields the
index rows `image r`, and an index key tells which primary row it belongs to (`owner`). The index is
`Consistent` when it holds exactly what the primary rows yield.

A write of one primary row moves its index rows by the difference of two images (`changes`), applied
to the index (`apply`). `Consistent.put` says that this keeps the index consistent, provided the
difference was taken from the image of the row that is being replaced.

A listing is the other kind of derived table: it holds one row for each of a set of numbered items
(`Lists`), and an item is added, dropped or replaced with one write. A table that only grows holds a
list of values, each under its own key (`Listed`).
-/

namespace Lib

namespace Table

variable {K V : Type} [LinearOrder K]

/-- The writes that turn the rows `before` into `after`: a value to put, or nothing to delete. -/
def changes [DecidableEq V] (before after : Table K V) : List (K × Option V) :=
  (after.rows.filter fun row => before.get row.1 ≠ some row.2).map (fun row => (row.1, some row.2)) ++
    (before.keys.filter fun k => !after.contains k).map fun k => (k, none)

/-- The table after one write. -/
def write (t : Table K V) (w : K × Option V) : Table K V :=
  match w.2 with
  | some v => t.put w.1 v
  | none => t.delete w.1

/-- The table after a list of writes, in order. -/
def apply (t : Table K V) (writes : List (K × Option V)) : Table K V := writes.foldl write t

theorem get_write (t : Table K V) (w : K × Option V) (k : K) :
    (t.write w).get k = if w.1 = k then w.2 else t.get k := by
  obtain ⟨k', v⟩ := w
  cases v with
  | none => exact t.get_delete k' k
  | some v => exact t.get_put k' k v

/-- A key no write names keeps its row. -/
theorem get_apply_of_not_mem {writes : List (K × Option V)} {k : K}
    (h : ∀ w ∈ writes, w.1 ≠ k) (t : Table K V) : (t.apply writes).get k = t.get k := by
  unfold apply
  induction writes generalizing t with
  | nil => rfl
  | cons w writes ih =>
    rw [List.foldl_cons, ih fun w hw => h w (List.mem_cons_of_mem _ hw), get_write,
      if_neg (h w List.mem_cons_self)]

/-- A key all of whose writes agree gets the value they write. -/
theorem get_apply_of_mem {writes : List (K × Option V)} {k : K} {v : Option V}
    (hmem : (k, v) ∈ writes) (h : ∀ w ∈ writes, w.1 = k → w.2 = v) (t : Table K V) :
    (t.apply writes).get k = v := by
  unfold apply
  -- the last write under a key is the one that counts
  induction writes using List.reverseRecOn with
  | nil => simp at hmem
  | append_singleton writes w ih =>
    rw [List.foldl_append, List.foldl_cons, List.foldl_nil, get_write]
    split
    · next hk => exact h w (by simp) hk
    · next hk =>
      refine ih ?_ fun w hw => h w (List.mem_append_left _ hw)
      rcases List.mem_append.mp hmem with hmem | hmem
      · exact hmem
      · exact absurd (congrArg Prod.fst (List.mem_singleton.mp hmem)).symm hk

variable [DecidableEq V]

theorem mem_changes_some {before after : Table K V} {k : K} {v : V} :
    (k, some v) ∈ changes before after ↔ after.get k = some v ∧ before.get k ≠ some v := by
  unfold changes
  simp only [List.mem_append, List.mem_map, List.mem_filter, Prod.mk.injEq, reduceCtorEq,
    and_false, exists_false, or_false, Option.some.injEq, Prod.exists, mem_rows]
  constructor
  · rintro ⟨k', v', ⟨hget, hne⟩, rfl, rfl⟩
    exact ⟨hget, by simpa using hne⟩
  · rintro ⟨hget, hne⟩
    exact ⟨k, v, ⟨hget, by simpa using hne⟩, rfl, rfl⟩

theorem mem_changes_none {before after : Table K V} {k : K} :
    (k, none) ∈ changes before after ↔ after.get k = none ∧ ∃ v, before.get k = some v := by
  unfold changes
  simp only [List.mem_append, List.mem_map, List.mem_filter, Prod.mk.injEq, reduceCtorEq,
    and_false, exists_false, false_or, and_true, exists_eq_right, mem_keys, Bool.not_eq_true',
    contains_eq_false_iff]
  exact and_comm

/-- The difference of two tables moves a table that holds the first to one that holds the second in
its place. -/
theorem get_apply_changes {t before after : Table K V}
    (h : ∀ k v, before.get k = some v → t.get k = some v) (k : K) :
    (t.apply (changes before after)).get k =
      if (before.get k).isSome ∨ (after.get k).isSome then after.get k else t.get k := by
  cases ha : after.get k with
  | some v =>
    simp only [Option.isSome_some, or_true, if_true]
    by_cases hb : before.get k = some v
    · -- an equal row is not written
      rw [get_apply_of_not_mem, h k v hb]
      rintro ⟨k', w⟩ hw rfl
      cases w with
      | some w =>
        obtain ⟨hget, hne⟩ := mem_changes_some.mp hw
        exact hne (hb.trans (ha.symm.trans hget))
      -- a row that is written has the value it has afterwards
      | none => simp [(mem_changes_none.mp hw).1] at ha
    · refine get_apply_of_mem (mem_changes_some.mpr ⟨ha, hb⟩) ?_ t
      rintro ⟨k', w⟩ hw rfl
      cases w with
      | some w => exact (mem_changes_some.mp hw).1.symm.trans ha
      | none => simp [(mem_changes_none.mp hw).1] at ha
  | none =>
    simp only [Option.isSome_none, or_false, Bool.false_eq_true]
    -- the key has no row afterwards
    cases hb : before.get k with
    -- it had one, which is removed
    | some v =>
      rw [Option.isSome_some, if_pos rfl]
      refine get_apply_of_mem (mem_changes_none.mpr ⟨ha, v, hb⟩) ?_ t
      rintro ⟨k', w⟩ hw rfl
      cases w with
      | some w => simp [(mem_changes_some.mp hw).1] at ha
      | none => rfl
    -- nor before: there is nothing to write
    | none =>
      rw [Option.isSome_none, if_neg Bool.false_ne_true, get_apply_of_not_mem]
      rintro ⟨k', w⟩ hw rfl
      cases w with
      | some w => simp [(mem_changes_some.mp hw).1] at ha
      | none =>
        obtain ⟨v, hv⟩ := (mem_changes_none.mp hw).2
        simp [hv] at hb

end Table

/-! ### Consistency -/

section Consistency

variable {I R K V : Type} [LinearOrder I] [LinearOrder K]

/-- The index holds exactly what the primary rows yield. -/
def Consistent (owner : K → I) (image : R → Table K V) (primary : Table I R) (index : Table K V) :
    Prop :=
  ∀ k, index.get k = (primary.get (owner k)).bind fun r => (image r).get k

variable {owner : K → I} {image : R → Table K V} {primary : Table I R} {index : Table K V}

theorem Consistent.empty : Consistent owner image Table.empty Table.empty := by
  intro k
  simp

theorem Consistent.get_iff (h : Consistent owner image primary index) {k : K} {v : V} :
    index.get k = some v ↔ ∃ r, primary.get (owner k) = some r ∧ (image r).get k = some v := by
  rw [h k, Option.bind_eq_some_iff]

/-- Writing one primary row with the difference of its images keeps the index consistent. -/
theorem Consistent.put [DecidableEq V] (h : Consistent owner image primary index)
    {i : I} {r : R} (howner : ∀ k v, (image r).get k = some v → owner k = i)
    {before : Table K V} (hbefore : before = (primary.get i).elim .empty image)
    (hold : ∀ r', primary.get i = some r' → ∀ k v, (image r').get k = some v → owner k = i) :
    Consistent owner image (primary.put i r) (index.apply (Table.changes before (image r))) := by
  -- what the old image holds is in the index, under this owner
  have himage : ∀ k v, before.get k = some v → index.get k = some v ∧ owner k = i := by
    intro k v hk
    cases hp : primary.get i with
    | none => simp [hbefore, hp] at hk
    | some r' =>
      simp only [hbefore, hp, Option.elim_some] at hk
      have hi := hold r' hp k v hk
      exact ⟨h.get_iff.mpr ⟨r', by rw [hi]; exact hp, hk⟩, hi⟩
  intro k
  rw [Table.get_apply_changes fun k v hk => (himage k v hk).1, Table.get_put]
  split
  -- a key of either image is the owner's, and the difference leads from one image to the other
  · next hor =>
    have hi : owner k = i := by
      rcases hor with hb | ha
      · obtain ⟨v, hv⟩ := Option.isSome_iff_exists.mp hb
        exact (himage k v hv).2
      · obtain ⟨v, hv⟩ := Option.isSome_iff_exists.mp ha
        exact howner k v hv
    rw [if_pos hi.symm]
    rfl
  · next hnor =>
    simp only [not_or, Bool.not_eq_true, Option.isSome_eq_false_iff, Option.isNone_iff_eq_none]
      at hnor
    split
    · next hi =>
      -- neither image has the key, so the index had none either
      rw [h k, ← hi, Option.bind_some, hnor.2]
      cases hp : primary.get i with
      | none => rfl
      | some r' =>
        have hb := hnor.1
        rw [hbefore, hp] at hb
        exact hb
    -- another owner's keys are as they were
    · exact h k

end Consistency

/-! ### Listings

A table that lists numbered items: item `e` with number `n` has the row `row n e`, if any, and the
table holds the rows of the items that satisfy `P`. The number can be read off a row's key (`Tagged`),
so the rows of two numbers never collide. -/

section Listing

variable {N E K V : Type} [LinearOrder K]

/-- The table holds exactly the rows of the items. -/
def Lists (P : N → E → Prop) (row : N → E → Option (K × V)) (t : Table K V) : Prop :=
  ∀ k v, t.get k = some v ↔ ∃ n e, P n e ∧ row n e = some (k, v)

/-- The number of an item can be read off its key. -/
def Tagged (row : N → E → Option (K × V)) (tag : K → N) : Prop :=
  ∀ n e k v, row n e = some (k, v) → tag k = n

variable {P P' : N → E → Prop} {row : N → E → Option (K × V)} {tag : K → N} {t : Table K V}
  {n : N} {e : E}

theorem Lists.empty (h : ∀ n e, ¬P n e) : Lists P row Table.empty := by
  intro k v
  simp [h]

/-- One more item. -/
theorem Lists.insert (h : Lists P row t) (ht : Tagged row tag) (hn : ∀ e', ¬P n e')
    (hP : ∀ m e', P' m e' ↔ m = n ∧ e' = e ∨ P m e') :
    Lists P' row ((row n e).elim t fun r => t.put r.1 r.2) := by
  intro k v
  simp only [hP]
  cases hrow : row n e with
  -- an item without a row changes nothing
  | none =>
    rw [Option.elim_none, h k v]
    constructor
    · rintro ⟨m, e', hm, hr⟩
      exact ⟨m, e', .inr hm, hr⟩
    · rintro ⟨m, e', ⟨rfl, rfl⟩ | hm, hr⟩
      · simp [hrow] at hr
      · exact ⟨m, e', hm, hr⟩
  -- its row is written, under a key that tells its number
  | some r =>
    rw [Option.elim_some, Table.get_put]
    split
    -- a row under this key can only be the item's
    · next heq =>
      subst heq
      constructor
      · rintro hv
        exact ⟨n, e, .inl ⟨rfl, rfl⟩, by rw [hrow, ← Option.some.inj hv]⟩
      · rintro ⟨m, e', ⟨rfl, rfl⟩ | hm, hr⟩
        · rw [hrow] at hr
          rw [Option.some.inj hr]
        · obtain rfl : m = n := (ht _ _ _ _ hr).symm.trans (ht _ _ _ _ hrow)
          exact absurd hm (hn e')
    · next hne =>
      rw [h k v]
      constructor
      · rintro ⟨m, e', hm, hr⟩
        exact ⟨m, e', .inr hm, hr⟩
      · rintro ⟨m, e', ⟨rfl, rfl⟩ | hm, hr⟩
        · rw [hrow] at hr
          exact absurd (congrArg Prod.fst (Option.some.inj hr)) hne
        · exact ⟨m, e', hm, hr⟩

/-- One item less. -/
theorem Lists.erase (h : Lists P row t) (ht : Tagged row tag) (hn : ∀ e', P n e' → e' = e)
    (hP : ∀ m e', P' m e' ↔ m ≠ n ∧ P m e') :
    Lists P' row ((row n e).elim t fun r => t.delete r.1) := by
  intro k v
  simp only [hP]
  -- an item without a row leaves none behind
  cases hrow : row n e with
  | none =>
    rw [Option.elim_none, h k v]
    constructor
    · rintro ⟨m, e', hm, hr⟩
      refine ⟨m, e', ⟨?_, hm⟩, hr⟩
      rintro rfl
      obtain rfl := hn e' hm
      simp [hrow] at hr
    · rintro ⟨m, e', ⟨-, hm⟩, hr⟩
      exact ⟨m, e', hm, hr⟩
  | some r =>
    rw [Option.elim_some, Table.get_delete]
    split
    -- its key is free, and no other item has it
    · next heq =>
      subst heq
      constructor
      · rintro hv
        simp at hv
      · rintro ⟨m, e', ⟨hne, hm⟩, hr⟩
        exact absurd ((ht _ _ _ _ hr).symm.trans (ht _ _ _ _ hrow)) hne
    -- a row that stays is another item's
    · next hne =>
      rw [h k v]
      constructor
      · rintro ⟨m, e', hm, hr⟩
        refine ⟨m, e', ⟨?_, hm⟩, hr⟩
        rintro rfl
        obtain rfl := hn e' hm
        rw [hrow] at hr
        exact hne (congrArg Prod.fst (Option.some.inj hr))
      · rintro ⟨m, e', ⟨-, hm⟩, hr⟩
        exact ⟨m, e', hm, hr⟩

/-- An item replaced by one with the same row. -/
theorem Lists.replace {f : E} (h : Lists P row t) (he : P n e) (hn : ∀ e', P n e' → e' = e)
    (hrow : row n f = row n e) (hP : ∀ m g, P' m g ↔ m = n ∧ g = f ∨ m ≠ n ∧ P m g) :
    Lists P' row t := by
  intro k v
  simp only [hP]
  rw [h k v]
  constructor
  · rintro ⟨m, g, hm, hr⟩
    -- the item in question is replaced; the others stay
    by_cases hmn : m = n
    · subst hmn
      obtain rfl := hn g hm
      exact ⟨m, f, .inl ⟨rfl, rfl⟩, by rw [hrow, hr]⟩
    · exact ⟨m, g, .inr ⟨hmn, hm⟩, hr⟩
  · rintro ⟨m, g, ⟨rfl, rfl⟩ | ⟨-, hm⟩, hr⟩
    · exact ⟨m, e, he, by rw [← hrow, hr]⟩
    · exact ⟨m, g, hm, hr⟩

end Listing

/-! ### Values under their keys -/

namespace Table

variable {K V : Type} [LinearOrder K]

/-- The table holds the listed values, each under its key. -/
def Listed (t : Table K V) (key : V → K) (l : List V) : Prop :=
  ∀ k v, t.get k = some v ↔ v ∈ l ∧ k = key v

theorem Listed.empty (key : V → K) : (Table.empty : Table K V).Listed key [] := fun k v => by simp

/-- A value under a key of its own. -/
theorem Listed.concat {t : Table K V} {key : V → K} {l : List V} (h : t.Listed key l) {v : V}
    (hfresh : ∀ w ∈ l, key w ≠ key v) : (t.put (key v) v).Listed key (l ++ [v]) := by
  intro k w
  rw [Table.get_put, List.mem_append, List.mem_singleton]
  -- the key is the value's own
  split
  · next heq =>
    subst heq
    rw [Option.some.injEq]
    constructor
    · rintro rfl
      exact ⟨.inr rfl, rfl⟩
    · rintro ⟨hw | rfl, hkey⟩
      · exact absurd hkey.symm (hfresh w hw)
      · rfl
  -- under another key the values before it
  · next hne =>
    rw [h k w]
    constructor
    · rintro ⟨hw, hkey⟩
      exact ⟨.inl hw, hkey⟩
    · rintro ⟨hw | rfl, hkey⟩
      · exact ⟨hw, hkey⟩
      · exact absurd hkey.symm hne

end Table

end Lib
