import Mathlib.Data.List.Sort
import Mathlib.Tactic

/-!
# Pages of ordered listings

The first elements of an increasing listing. An element is on the first page exactly when fewer than a
page of elements is ahead of it (`mem_take_iff`), so a listing and a part of it have the same first page
exactly when the part misses none of those (`take_eq_take_iff`). A listing that is spread over several
ordered partitions is read by merging one page of each (`take_merge`).

A walk reads one page after the other while the listing changes: each page starts after the last
element of the one before (`walk`). It repeats nothing (`walk_increasing`), and once a page is short
it has read all that was listed throughout (`walk_complete`). A page whose cursor may still be listed
is read one element longer, and the cursor is dropped (`take_after_widened`).
-/

namespace Lib

variable {α : Type} [LinearOrder α]

/-- Two increasing listings of the same elements are the same. -/
theorem eq_of_increasing {l m : List α} (hl : l.Pairwise (· < ·)) (hm : m.Pairwise (· < ·))
    (h : ∀ x, x ∈ l ↔ x ∈ m) : l = m := by
  have hperm : l.Perm m :=
    (List.perm_ext_iff_of_nodup (hl.imp fun hlt => hlt.ne) (hm.imp fun hlt => hlt.ne)).mpr h
  exact hperm.eq_of_pairwise (fun _ _ _ _ hlt hgt => absurd hlt hgt.asymm) hl hm

/-- A sorted listing without repetitions increases. -/
theorem increasing_insertionSort {l : List α} (hl : l.Nodup) :
    (l.insertionSort (· ≤ ·)).Pairwise (· < ·) := by
  have hsorted := List.pairwise_insertionSort (· ≤ ·) l
  have hnodup : (l.insertionSort (· ≤ ·)).Nodup := (List.perm_insertionSort _ l).nodup_iff.mpr hl
  exact (hsorted.and hnodup).imp fun h => lt_of_le_of_ne h.1 h.2

/-- The first element with a property in an increasing listing is the least one. -/
theorem find?_eq_least {l : List α} (hl : l.Pairwise (· < ·)) {p : α → Bool} {x : α} (hx : x ∈ l)
    (hp : p x = true) (hleast : ∀ y ∈ l, p y = true → x ≤ y) : l.find? p = some x := by
  induction l with
  | nil => exact absurd hx (by simp)
  | cons y l ih =>
    obtain ⟨hy, hl⟩ := List.pairwise_cons.mp hl
    by_cases hpy : p y = true
    -- the first element satisfies it, and nothing satisfying it comes before
    · rw [List.find?_cons_of_pos hpy]
      rcases List.mem_cons.mp hx with rfl | hx
      · rfl
      · exact absurd (hleast y List.mem_cons_self hpy) (not_le.mpr (hy x hx))
    · rw [List.find?_cons_of_neg hpy]
      rcases List.mem_cons.mp hx with rfl | hx
      · exact absurd hp hpy
      · exact ih hl hx fun z hz => hleast z (List.mem_cons_of_mem _ hz)

/-- How many elements of a listing come before `x`. -/
def ahead (l : List α) (x : α) : Nat := (l.filter fun y => decide (y < x)).length

theorem ahead_cons {l : List α} {x y : α} (h : y < x) : ahead (y :: l) x = ahead l x + 1 := by
  simp [ahead, h]

theorem ahead_le_of_sublist {l m : List α} (h : l.Sublist m) (x : α) : ahead l x ≤ ahead m x :=
  (h.filter _).length_le

/-- A page that lies before `x` as a whole is ahead of it. -/
theorem length_le_ahead {page l : List α} {x : α} (h : page.Subperm l) (hlt : ∀ y ∈ page, y < x) :
    page.length ≤ ahead l x := by
  have hall : page.filter (fun y => decide (y < x)) = page :=
    List.filter_eq_self.mpr fun y hy => decide_eq_true (hlt y hy)
  rw [← hall]
  exact (h.filter _).length_le

/-- An element is on the first page exactly when less than a page is ahead of it. -/
theorem mem_take_iff {l : List α} (hl : l.Pairwise (· < ·)) {n : Nat} {x : α} :
    x ∈ l.take n ↔ x ∈ l ∧ ahead l x < n := by
  induction l generalizing n with
  | nil => simp
  | cons y l ih =>
    obtain ⟨hy, hl⟩ := List.pairwise_cons.mp hl
    cases n with
    | zero => simp
    | succ n =>
      rw [List.take_succ_cons, List.mem_cons, List.mem_cons, ih hl]
      by_cases hx : x = y
      · -- nothing is ahead of the first element
        subst hx
        have hnone : ahead (x :: l) x = 0 := by
          unfold ahead
          rw [List.length_eq_zero_iff, List.filter_eq_nil_iff]
          intro z hz
          rcases List.mem_cons.mp hz with rfl | hz
          · simp
          · simpa using (hy z hz).le
        simp [hnone]
      -- otherwise the first element is ahead of it and takes one place
      · refine ⟨?_, ?_⟩
        · rintro (heq | ⟨hmem, hlt⟩)
          · exact absurd heq hx
          · refine ⟨.inr hmem, ?_⟩
            rw [ahead_cons (hy x hmem)]
            omega
        · rintro ⟨heq | hmem, hlt⟩
          · exact absurd heq hx
          · refine .inr ⟨hmem, ?_⟩
            rw [ahead_cons (hy x hmem)] at hlt
            omega

/-- An element that is not on the first page has that whole page ahead of it. -/
theorem lt_of_not_mem_take {l : List α} (hl : l.Pairwise (· < ·)) {n : Nat} {x : α} (hx : x ∈ l)
    (hnot : x ∉ l.take n) : (l.take n).length = n ∧ ∀ y ∈ l.take n, y < x := by
  -- it comes after the page, which is then full
  have hdrop : x ∈ l.drop n := by
    rw [← List.take_append_drop n l, List.mem_append] at hx
    exact hx.resolve_left hnot
  refine ⟨?_, fun y hy => ?_⟩
  · rw [List.length_take]
    have : 0 < (l.drop n).length := List.length_pos_of_mem hdrop
    rw [List.length_drop] at this
    omega
  · rw [← List.take_append_drop n l] at hl
    exact (List.pairwise_append.mp hl).2.2 y hy x hdrop

omit [LinearOrder α] in
/-- A part of a listing that has its first page has the same first page. -/
theorem take_eq_of_sublist {m l : List α} (hl : l.Nodup) (h : m.Sublist l) {n : Nat}
    (hpage : ∀ x ∈ l.take n, x ∈ m) : m.take n = l.take n := by
  induction l generalizing m n with
  | nil => rw [List.sublist_nil.mp h]
  | cons a l ih =>
    obtain ⟨ha, hl⟩ := List.nodup_cons.mp hl
    cases n with
    | zero => simp
    | succ n =>
      have hmem : a ∈ m := hpage a (by simp)
      cases h with
      -- the first element is on the page, so it was not left out
      | cons _ h => exact absurd (h.subset hmem) ha
      | cons_cons _ h =>
        rw [List.take_succ_cons, List.take_succ_cons, ih hl h fun x hx => ?_]
        have hne : x ≠ a := fun heq => ha (heq ▸ List.mem_of_mem_take hx)
        exact (List.mem_cons.mp (hpage x (by simp [hx]))).resolve_left hne

/-- A listing and a part of it have the same first page exactly when no element outside the part has
less than a page of the part ahead of it. -/
theorem take_eq_take_iff {m l : List α} (hm : m.Pairwise (· < ·)) (hl : l.Pairwise (· < ·))
    (hsub : ∀ x ∈ m, x ∈ l) {n : Nat} :
    m.take n = l.take n ↔ ∀ x ∈ l, ahead m x < n → x ∈ m := by
  have hnodup : ∀ {k : List α}, k.Pairwise (· < ·) → k.Nodup := fun hk => hk.imp fun hlt => hlt.ne
  have hsublist : m.Sublist l := by
    have hsubperm : m.Subperm l := (List.subperm_ext_iff).mpr fun x hx => by
      rw [(List.nodup_iff_count_le_one.mp (hnodup hm) x |>.antisymm (List.one_le_count_iff.mpr hx))]
      exact List.one_le_count_iff.mpr (hsub x hx)
    exact List.sublist_of_subperm_of_pairwise hsubperm hm hl
  constructor
  -- an element left out of a full page has the page ahead of it
  · intro heq x hx hlt
    by_contra hnot
    have hout : x ∉ l.take n := fun hmem => hnot (List.mem_of_mem_take (heq ▸ hmem))
    obtain ⟨hlen, hall⟩ := lt_of_not_mem_take hl hx hout
    have hle := length_le_ahead (heq ▸ (List.take_sublist n m).subperm) hall
    omega
  · intro h
    refine take_eq_of_sublist (hnodup hl) hsublist fun x hx => ?_
    obtain ⟨hmem, hlt⟩ := (mem_take_iff hl).mp hx
    exact h x hmem ((ahead_le_of_sublist hsublist x).trans_lt hlt)

/-- The first page of a partitioned listing comes from the first pages of its partitions. -/
theorem take_merge {pages : List (List α)} (hpages : ∀ page ∈ pages, page.Pairwise (· < ·))
    (hnodup : pages.flatten.Nodup) (n : Nat) :
    ((pages.flatMap (·.take n)).insertionSort (· ≤ ·)).take n =
      (pages.flatten.insertionSort (· ≤ ·)).take n := by
  -- the first pages are part of the partitions
  have hsub : (pages.flatMap (·.take n)).Sublist pages.flatten := by
    clear hpages hnodup
    induction pages with
    | nil => simp
    | cons page pages ih =>
      rw [List.flatMap_cons, List.flatten_cons]
      exact (List.take_sublist n page).append ih
  refine (take_eq_take_iff (increasing_insertionSort (hnodup.sublist hsub))
    (increasing_insertionSort hnodup) fun x hx => ?_).mpr fun x hx hlt => ?_
  · rw [List.mem_insertionSort] at hx ⊢
    exact hsub.subset hx
  · rw [List.mem_insertionSort] at hx
    obtain ⟨page, hpage, hmem⟩ := List.mem_flatten.mp hx
    by_contra hnot
    -- a whole page of its own partition would be ahead
    have hout : x ∉ page.take n := fun hin =>
      hnot ((List.mem_insertionSort _).mpr (List.mem_flatMap.mpr ⟨page, hpage, hin⟩))
    obtain ⟨hlen, hall⟩ := lt_of_not_mem_take (hpages page hpage) hmem hout
    have hsubperm : (page.take n).Subperm ((pages.flatMap (·.take n)).insertionSort (· ≤ ·)) :=
      ((List.sublist_flatten_of_mem (List.mem_map_of_mem hpage)).subperm).trans
        (List.perm_insertionSort _ _).symm.subperm
    have hle := length_le_ahead hsubperm hall
    omega

/-! ### Walks over a changing listing -/

/-- What a listing holds after the cursor. -/
def after (c : Option α) (l : List α) : List α := l.filter fun x => c.all fun a => decide (a < x)

theorem mem_after {c : Option α} {l : List α} {x : α} : x ∈ after c l ↔ x ∈ l ∧ ∀ a ∈ c, a < x := by
  cases c <;> simp [after]

theorem after_increasing {c : Option α} {l : List α} (hl : l.Pairwise (· < ·)) :
    (after c l).Pairwise (· < ·) := hl.filter _

/-- Of a listing from the cursor on, at most the first element is the cursor itself: one more element
makes up for it. -/
theorem take_after_widened {l : List α} (hl : l.Pairwise (· < ·)) {a : α} (ha : ∀ x ∈ l, a ≤ x)
    (n : Nat) : (after (some a) (l.take (n + 1))).take n = (after (some a) l).take n := by
  have hkept : ∀ m : List α, (∀ x ∈ m, a < x) → after (some a) m = m := by
    intro m hm
    exact List.filter_eq_self.mpr fun x hx => decide_eq_true (hm x hx)
  cases l with
  | nil => rfl
  | cons x l =>
    obtain ⟨hx, hl⟩ := List.pairwise_cons.mp hl
    have hrest : ∀ y ∈ l, a < y := fun y hy => (ha x List.mem_cons_self).trans_lt (hx y hy)
    by_cases hax : a < x
    · -- The cursor is gone: what is read too much is cut off again.
      have hall : ∀ y ∈ x :: l, a < y := List.forall_mem_cons.mpr ⟨hax, hrest⟩
      rw [hkept _ hall, hkept _ fun y hy => hall y (List.mem_of_mem_take hy), List.take_take]
      congr 1
      omega
    -- the cursor is still listed, as the first element
    · have hdrop : ∀ m : List α, after (some a) (x :: m) = after (some a) m := fun m => by
        simp [after, hax]
      rw [List.take_succ_cons, hdrop, hdrop, hkept _ hrest,
        hkept _ fun y hy => hrest y (List.mem_of_mem_take hy), List.take_take, min_self]

/-- The pages of a walk, each read from the listing as it is at that time. A page that is not full is
the last. -/
def walk (n : Nat) : Option α → List (List α) → List (List α)
  | _, [] => []
  | c, l :: later =>
    let page := (after c l).take n
    page :: if page.length = n then walk n page.getLast? later else []

/-- The last element of an increasing page is its greatest. -/
theorem le_getLast {l : List α} (hl : l.Pairwise (· < ·)) {x last : α} (hx : x ∈ l)
    (hlast : l.getLast? = some last) : x ≤ last := by
  obtain ⟨init, rfl⟩ := List.getLast?_eq_some_iff.mp hlast
  rcases List.mem_append.mp hx with hx | hx
  · exact ((List.pairwise_append.mp hl).2.2 x hx last (by simp)).le
  · exact (List.mem_singleton.mp hx).le

omit [LinearOrder α] in
theorem getLast_of_full {l : List α} {n : Nat} (hn : 0 < n) (hfull : l.length = n) :
    ∃ last, l.getLast? = some last ∧ last ∈ l := by
  obtain ⟨last, hlast⟩ := List.getLast?_isSome.mpr (List.ne_nil_of_length_pos (hfull ▸ hn))
    |> Option.isSome_iff_exists.mp
  exact ⟨last, hlast, List.mem_of_getLast? hlast⟩

variable {n : Nat} (hn : 0 < n)
include hn

/-- What a walk reads was listed, after its cursor. -/
theorem mem_walk {c : Option α} {ls : List (List α)} {x : α} (hx : x ∈ (walk n c ls).flatten) :
    (∀ a ∈ c, a < x) ∧ ∃ l ∈ ls, x ∈ l := by
  induction ls generalizing c with
  | nil => exact absurd hx (by simp [walk])
  | cons l later ih =>
    unfold walk at hx
    rcases List.mem_append.mp hx with hx | hx
    -- on this page, or on one that follows
    · obtain ⟨hmem, hafter⟩ := mem_after.mp (List.mem_of_mem_take hx)
      exact ⟨hafter, l, List.mem_cons_self, hmem⟩
    · split at hx
      · next hfull =>
        obtain ⟨last, hlast, hmem⟩ := getLast_of_full hn hfull
        obtain ⟨hgt, m, hm, hxm⟩ := ih hx
        have hafter := (mem_after.mp (List.mem_of_mem_take hmem)).2
        exact ⟨fun a ha => (hafter a ha).trans (hgt last (by simp [hlast])), m,
          List.mem_cons_of_mem _ hm, hxm⟩
      · exact absurd hx (by simp)

/-- A walk goes forward only. -/
theorem walk_increasing {c : Option α} {ls : List (List α)} (hls : ∀ l ∈ ls, l.Pairwise (· < ·)) :
    (walk n c ls).flatten.Pairwise (· < ·) := by
  induction ls generalizing c with
  | nil => exact .nil
  | cons l later ih =>
    obtain ⟨hl, hlater⟩ := List.forall_mem_cons.mp hls
    have hpage : ((after c l).take n).Pairwise (· < ·) :=
      (after_increasing hl).sublist (List.take_sublist _ _)
    unfold walk
    rw [List.flatten_cons]
    -- the page is increasing, and what follows comes after its last element
    refine List.pairwise_append.mpr ⟨hpage, ?_, ?_⟩
    · split
      · exact ih hlater
      · exact .nil
    · intro x hx y hy
      split at hy
      · next hfull =>
        obtain ⟨last, hlast, _⟩ := getLast_of_full hn hfull
        exact (le_getLast hpage hx hlast).trans_lt ((mem_walk hn hy).1 last (by simp [hlast]))
      · exact absurd hy (by simp)

/-- A walk that has read a short page has read all that every listing it met holds. -/
theorem walk_complete {c : Option α} {ls : List (List α)} (hls : ∀ l ∈ ls, l.Pairwise (· < ·))
    {short : List α} (hshort : (walk n c ls).getLast? = some short) (hlt : short.length < n) {x : α}
    (hx : ∀ l ∈ ls.take (walk n c ls).length, x ∈ l) (hafter : ∀ a ∈ c, a < x) :
    x ∈ (walk n c ls).flatten := by
  induction ls generalizing c with
  | nil => exact absurd hshort (by simp [walk])
  | cons l later ih =>
    obtain ⟨hl, hlater⟩ := List.forall_mem_cons.mp hls
    unfold walk at hshort hx ⊢
    rw [List.flatten_cons, List.mem_append]
    rw [List.length_cons, List.take_succ_cons] at hx
    have hmem : x ∈ after c l := mem_after.mpr ⟨hx l List.mem_cons_self, hafter⟩
    by_cases hpage : x ∈ (after c l).take n
    · exact .inl hpage
    · -- A full page lies before `x`, and the walk goes on from there.
      obtain ⟨hfull, hbefore⟩ := lt_of_not_mem_take (after_increasing hl) hmem hpage
      obtain ⟨last, hlast, hin⟩ := getLast_of_full hn hfull
      simp only [hfull, if_true, hlast] at hshort hx ⊢
      refine .inr (ih hlater ?_ ?_ ?_)
      -- the short page is still to come: this one is full
      · cases hnext : walk n (some last) later with
        | nil =>
          rw [hnext, List.getLast?_singleton] at hshort
          cases hshort
          exact absurd hlt (not_lt.mpr hfull.ge)
        | cons page pages => rwa [hnext, List.getLast?_cons_cons] at hshort
      · exact fun m hm => hx m (List.mem_cons_of_mem _ hm)
      · intro a ha
        cases ha
        exact hbefore last hin

end Lib
