import Mathlib.Tactic

/-!
# Search and replacement in lists

A search from left to right takes the occurrences of a pattern one after the other, each after the end
of the one before (`Taken`), and `replaceAll` puts something else in their place.

Everything about a search goes by `search_induction`: what is left to search is nothing, starts with an
occurrence, or starts with an element at which none starts. The facts that later modules use are

* where no occurrence starts nothing changes (`replaceAll_append`, `replaceAll_eq_self`);
* the first occurrence is taken (`exists_taken`);
* what stands in place of the occurrences, when it is a new element, hides them: no occurrence is left,
  and none of anything else arises (`not_infix_replaceAll`, `infix_of_replaceAll`).
-/

namespace Lib

namespace Replace

variable {α : Type} [DecidableEq α]

/-! ### Replacing -/

/-- `l` with `pat` replaced by `rep`, from left to right; the first `skip` characters belong to a match
already replaced. The pattern is not empty. -/
def replaceFrom (pat rep : List α) : Nat → List α → List α
  | _, [] => []
  | skip + 1, _ :: l => replaceFrom pat rep skip l
  | 0, c :: l =>
    if pat.isPrefixOf (c :: l) then rep ++ replaceFrom pat rep (pat.length - 1) l
    else c :: replaceFrom pat rep 0 l

/-- `l` with every occurrence of `pat` replaced by `rep`. -/
def replaceAll (pat rep l : List α) : List α := replaceFrom pat rep 0 l

theorem replaceFrom_append (pat rep w l : List α) :
    replaceFrom pat rep w.length (w ++ l) = replaceFrom pat rep 0 l := by
  induction w with
  | nil => rfl
  | cons c w ih => exact ih

@[simp] theorem replaceAll_nil (pat rep : List α) : replaceAll pat rep [] = [] := rfl

/-- An occurrence at the front is replaced. -/
theorem replaceAll_found {pat : List α} (hne : pat ≠ []) (rep l : List α) :
    replaceAll pat rep (pat ++ l) = rep ++ replaceAll pat rep l := by
  obtain ⟨c, pat', rfl⟩ := List.exists_cons_of_ne_nil hne
  unfold replaceAll
  rw [List.cons_append, replaceFrom, if_pos]
  · rw [List.length_cons, Nat.add_sub_cancel, replaceFrom_append]
  · rw [← List.cons_append, List.isPrefixOf_iff_prefix]
    exact List.prefix_append _ _

/-- An element at which no occurrence starts is left. -/
theorem replaceAll_cons {pat : List α} (rep : List α) {c : α} {l : List α} (h : ¬pat <+: c :: l) :
    replaceAll pat rep (c :: l) = c :: replaceAll pat rep l := by
  unfold replaceAll
  rw [replaceFrom, if_neg]
  rwa [List.isPrefixOf_iff_prefix]

/-- What no occurrence starts in is left. -/
theorem replaceAll_append {pat : List α} (rep : List α) {w l : List α}
    (h : ∀ u v, w = u ++ v → v ≠ [] → ¬pat <+: v ++ l) :
    replaceAll pat rep (w ++ l) = w ++ replaceAll pat rep l := by
  induction w with
  | nil => rfl
  | cons c w ih =>
    have hfront : ¬pat <+: c :: (w ++ l) := h [] (c :: w) rfl (List.cons_ne_nil _ _)
    rw [List.cons_append, replaceAll_cons rep hfront,
      ih fun u v huv => h (c :: u) v (by rw [huv, List.cons_append]), List.cons_append]

omit [DecidableEq α] in
/-- A search for a pattern that is not empty ends. -/
theorem search_induction {pat : List α} (hne : pat ≠ []) {motive : List α → Prop}
    (nil : motive []) (taken : ∀ l, motive l → motive (pat ++ l))
    (next : ∀ c l, ¬pat <+: c :: l → motive l → motive (c :: l)) (l : List α) : motive l := by
  induction hn : l.length using Nat.strong_induction_on generalizing l with
  | _ n ih =>
    -- an occurrence at the front, or one element that is passed
    by_cases hpat : pat <+: l
    · obtain ⟨rest, rfl⟩ := hpat
      have hlen := List.length_pos_of_ne_nil hne
      rw [List.length_append] at hn
      exact taken rest (ih rest.length (by omega) rest rfl)
    · cases l with
      | nil => exact nil
      | cons c l => exact next c l hpat (ih l.length (by rw [← hn]; simp) l rfl)

/-- Without occurrences nothing changes. -/
theorem replaceAll_eq_self {pat : List α} (rep : List α) {l : List α} (h : ¬pat <:+: l) :
    replaceAll pat rep l = l := by
  have happend : replaceAll pat rep (l ++ []) = l ++ replaceAll pat rep [] := by
    -- an occurrence in the front part would be one in the whole
    refine replaceAll_append rep fun u v huv _ hprefix => ?_
    rw [List.append_nil] at hprefix
    exact h (huv ▸ hprefix.isInfix.trans (List.suffix_append u v).isInfix)
  rwa [List.append_nil, replaceAll_nil, List.append_nil] at happend

/-- A pattern replaced by itself changes nothing. -/
theorem replaceAll_self {pat : List α} (hne : pat ≠ []) (l : List α) : replaceAll pat pat l = l := by
  induction l using search_induction hne with
  | nil => rfl
  | taken l ih => rw [replaceAll_found hne, ih]
  | next c l hc ih => rw [replaceAll_cons pat hc, ih]

/-- What comes out was there, or was put there. -/
theorem mem_of_mem_replaceAll {pat rep l : List α} (hne : pat ≠ []) {a : α}
    (h : a ∈ replaceAll pat rep l) : a ∈ rep ∨ a ∈ l := by
  induction l using search_induction hne with
  | nil => exact absurd h List.not_mem_nil
  -- behind an occurrence; the replacement comes first
  | taken l ih =>
    rw [replaceAll_found hne] at h
    rcases List.mem_append.mp h with h | h
    · exact .inl h
    · exact (ih h).imp_right (List.mem_append_right _)
  -- behind an element that was kept
  | next c l hc ih =>
    rw [replaceAll_cons rep hc] at h
    rcases List.mem_cons.mp h with rfl | h
    · exact .inr List.mem_cons_self
    · exact (ih h).imp_right (List.mem_cons_of_mem _)

/-! ### The occurrences taken -/

/-- The places at which a search from left to right takes an occurrence. -/
inductive Taken (pat : List α) : List α → Nat → Prop where
  | here (l : List α) : Taken pat (pat ++ l) 0
  | past {l : List α} {i : Nat} : Taken pat l i → Taken pat (pat ++ l) (pat.length + i)
  | next {c : α} {l : List α} {i : Nat} : ¬pat <+: c :: l → Taken pat l i → Taken pat (c :: l) (i + 1)

section Taken

omit [DecidableEq α]

theorem Taken.at_front {pat l : List α} (h : pat <+: l) : Taken pat l 0 := by
  obtain ⟨rest, rfl⟩ := h
  exact .here rest

/-- What is taken is an occurrence. -/
theorem Taken.exists_eq {pat l : List α} {i : Nat} (h : Taken pat l i) :
    ∃ u v, l = u ++ pat ++ v ∧ u.length = i := by
  -- the text in front of it has the length of its place
  induction h with
  | here l => exact ⟨[], l, rfl, rfl⟩
  | @past l i _ ih =>
    obtain ⟨u, v, rfl, rfl⟩ := ih
    exact ⟨pat ++ u, v, by simp, List.length_append⟩
  | @next c l i _ _ ih =>
    obtain ⟨u, v, rfl, rfl⟩ := ih
    exact ⟨c :: u, v, rfl, rfl⟩

/-- A search goes on behind what no occurrence starts in. -/
theorem Taken.append {pat w l : List α} {i : Nat} (h : Taken pat l i)
    (hw : ∀ u v, w = u ++ v → v ≠ [] → ¬pat <+: v ++ l) : Taken pat (w ++ l) (w.length + i) := by
  induction w with
  | nil => rwa [List.nil_append, List.length_nil, Nat.zero_add]
  | cons c w ih =>
    -- without its first element the word is still free of occurrences
    have hrest := ih fun u v huv => hw (c :: u) v (by rw [huv, List.cons_append])
    have hplace : (c :: w).length + i = w.length + i + 1 := by
      rw [List.length_cons]
      omega
    rw [List.cons_append, hplace]
    exact .next (hw [] (c :: w) rfl (List.cons_ne_nil _ _)) hrest

/-- Where an occurrence starts, one has been taken by then. -/
theorem exists_taken {pat l : List α} {i : Nat} (h : pat <+: l.drop i) :
    ∃ j, j ≤ i ∧ Taken pat l j := by
  induction i generalizing l with
  | zero => exact ⟨0, le_refl 0, .at_front h⟩
  | succ i ih =>
    -- one at the front is taken at once; else the search goes on behind the first element
    by_cases hfront : pat <+: l
    · exact ⟨0, Nat.zero_le _, .at_front hfront⟩
    · cases l with
      | nil => exact absurd h hfront
      | cons c l =>
        obtain ⟨j, hj, htaken⟩ := ih h
        exact ⟨j + 1, Nat.succ_le_succ hj, .next hfront htaken⟩

end Taken

/-! ### Occurrences hidden by a new element -/

section Hidden

variable {pat : List α} {x : α} {w l : List α}

/-- What stands at the front without the new element stood there before. -/
theorem prefix_of_replaceAll (hne : pat ≠ []) (hw : x ∉ w) (h : w <+: replaceAll pat [x] l) :
    w <+: l := by
  induction l using search_induction hne generalizing w with
  | nil => exact h
  | taken l ih =>
    rw [replaceAll_found hne] at h
    -- the new element is not in the word
    cases w with
    | nil => exact List.nil_prefix
    | cons c w =>
      obtain ⟨rfl, -⟩ := List.cons_prefix_cons.mp h
      exact absurd List.mem_cons_self hw
  | next c l hc ih =>
    rw [replaceAll_cons [x] hc] at h
    cases w with
    | nil => exact List.nil_prefix
    | cons d w =>
      obtain ⟨rfl, hrest⟩ := List.cons_prefix_cons.mp h
      have hlater := ih (fun hmem => hw (List.mem_cons_of_mem _ hmem)) hrest
      exact List.cons_prefix_cons.mpr ⟨rfl, hlater⟩

/-- What occurs without the new element occurred before. -/
theorem infix_of_replaceAll (hne : pat ≠ []) (hw : x ∉ w) (h : w <:+: replaceAll pat [x] l) :
    w <:+: l := by
  induction l using search_induction hne with
  | nil => exact h
  | taken l ih =>
    rw [replaceAll_found hne, List.singleton_append] at h
    -- at the front stands the new element, which the word does not have
    rcases List.infix_cons_iff.mp h with hfront | hrest
    · cases w with
      | nil => exact List.nil_infix
      | cons c w =>
        obtain ⟨rfl, -⟩ := List.cons_prefix_cons.mp hfront
        exact absurd List.mem_cons_self hw
    · exact (ih hrest).trans (List.suffix_append _ _).isInfix
  | next c l hc ih =>
    rw [replaceAll_cons [x] hc] at h
    -- at the front it stood there before; further on by induction
    rcases List.infix_cons_iff.mp h with hfront | hrest
    · rw [← replaceAll_cons [x] hc] at hfront
      exact (prefix_of_replaceAll hne hw hfront).isInfix
    · exact List.infix_cons (ih hrest)

/-- No occurrence is left. -/
theorem not_infix_replaceAll (hne : pat ≠ []) (hpat : x ∉ pat) : ¬pat <:+: replaceAll pat [x] l := by
  induction l using search_induction hne with
  | nil =>
    intro h
    exact hne (List.eq_nil_of_infix_nil h)
  | taken l ih =>
    rw [replaceAll_found hne, List.singleton_append, List.infix_cons_iff, not_or]
    -- an occurrence at the front would begin with the new element
    refine ⟨fun hfront => ?_, ih⟩
    obtain ⟨c, pat', rfl⟩ := List.exists_cons_of_ne_nil hne
    obtain ⟨rfl, -⟩ := List.cons_prefix_cons.mp hfront
    exact hpat List.mem_cons_self
  | next c l hc ih =>
    rw [replaceAll_cons [x] hc, List.infix_cons_iff, not_or]
    -- an occurrence at the front would have been there before
    refine ⟨fun hfront => ?_, ih⟩
    rw [← replaceAll_cons [x] hc] at hfront
    exact hc (prefix_of_replaceAll hne hpat hfront)

end Hidden

end Replace

end Lib
