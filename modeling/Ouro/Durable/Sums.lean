import Mathlib.Data.List.Infix
import Ouro.Durable.Record

/-!
# Annotation totals

Numeric annotations are summed per name, over the calls of a run (`annotationTotals`) and, within
bounds, into the totals a store keeps (`accumulate`). The total of a name depends on its own values only
(`get_accumulate`).

* An integer total is exact as long as no addition mixes a negative operand with one that only an
  unsigned word holds (`integer_totals_exact_iff`): such a sum is tried in neither integer range.
* A name is admitted only within the bounds, but the names present keep summing. The names that enter,
  and where, can be read off the numbers (`enteredNames`), and the totals are the sums from there
  (`sums_accumulate`). So the totals stay bounded exactly as long as the names fit with their partial
  sums at every addition (`totals_bounded_iff`).
-/

namespace Ouro

open Lib

/-- The numeric annotations of calls, summed per name. -/
def annotationTotals (addFloat : Number → Number → Option Number)
    (calls : List (Table String Annotation)) : Totals :=
  (calls.flatMap numbers).foldl (fun totals (name, n) => addTo addFloat totals name n) .empty

/-! ### One name's total -/

/-- The values under a name. -/
def valuesOf (name : String) (l : List (String × Number)) : List Number :=
  l.filterMap fun x => if x.1 = name then some x.2 else none

section Sums

variable (addFloat : Number → Number → Option Number)

/-- One more value in a total. -/
def sumStep : Option Number → Number → Option Number
  | none, n => some n
  | some total, n => some ((Number.add addFloat total n).getD total)

variable {addFloat} {name : String}

theorem get_addTo (totals : Totals) (other : String) (n : Number) :
    (addTo addFloat totals other n).get name =
      if other = name then sumStep addFloat (totals.get name) n else totals.get name := by
  unfold addTo
  rw [Table.get_put]
  by_cases h : other = name
  · subst h
    rw [if_pos rfl, if_pos rfl]
    cases totals.get other <;> rfl
  · rw [if_neg h, if_neg h]

/-- The total of a name is the sum of its values. -/
theorem get_foldl_addTo (l : List (String × Number)) (totals : Totals) :
    (l.foldl (fun totals (name, n) => addTo addFloat totals name n) totals).get name =
      (valuesOf name l).foldl (sumStep addFloat) (totals.get name) := by
  induction l generalizing totals with
  | nil => rfl
  | cons x l ih =>
    obtain ⟨other, n⟩ := x
    rw [List.foldl_cons, ih, get_addTo]
    by_cases h : other = name
    · simp [valuesOf, h]
    · simp [valuesOf, h]

/-! ### What a store keeps -/

variable (addFloat) in
/-- One more number in the totals a store keeps. -/
abbrev keepOne (totals : Totals) (x : String × Number) : Totals := accumulate addFloat totals [x]

theorem accumulate_concat (totals : Totals) (l : List (String × Number)) (x : String × Number) :
    accumulate addFloat totals (l ++ [x]) = keepOne addFloat (accumulate addFloat totals l) x := by
  unfold keepOne accumulate
  rw [List.foldl_append]

variable (addFloat) in
/-- A number in the totals: summed under a name that is present, admitted under a new one, or left
out. -/
theorem keepOne_cases (totals : Totals) (other : String) (n : Number) :
    (totals.contains other = true ∧ keepOne addFloat totals (other, n) = addTo addFloat totals other n) ∨
      totals.contains other = false ∧
        ((totals.rows.length < maxAnnotations ∧
            Totals.bytes (totals.put other n) ≤ maxAnnotationBytes ∧
            keepOne addFloat totals (other, n) = totals.put other n) ∨
          keepOne addFloat totals (other, n) = totals) := by
  unfold keepOne accumulate
  simp only [List.foldl_cons, List.foldl_nil]
  by_cases hin : totals.contains other = true
  · exact .inl ⟨hin, if_pos hin⟩
  -- a new name is left out for either bound
  · refine .inr ⟨by simpa using hin, ?_⟩
    rw [if_neg hin]
    by_cases hfull : maxAnnotations ≤ totals.rows.length
    · exact .inr (if_pos hfull)
    · rw [if_neg hfull]
      by_cases hlong : maxAnnotationBytes < Totals.bytes (totals.put other n)
      · exact .inr (if_pos hlong)
      · exact .inl ⟨by omega, by omega, if_neg hlong⟩

/-- The name is admitted with its first value. -/
def FirstAdmitted (addFloat : Number → Number → Option Number) (name : String) (totals : Totals)
    (l : List (String × Number)) : Prop :=
  ∀ m, m <+: l → valuesOf name m ≠ [] → (accumulate addFloat totals m).contains name = true

theorem valuesOf_concat (l : List (String × Number)) (x : String × Number) :
    valuesOf name (l ++ [x]) = valuesOf name l ++ if x.1 = name then [x.2] else [] := by
  unfold valuesOf
  rw [List.filterMap_append, List.filterMap_cons]
  split <;> simp_all

/-- The total kept for a name that is admitted with its first value is the sum of its values. -/
theorem get_accumulate {totals : Totals} (hnew : totals.get name = none)
    (l : List (String × Number)) (hkept : FirstAdmitted addFloat name totals l) :
    (accumulate addFloat totals l).get name = (valuesOf name l).foldl (sumStep addFloat) none := by
  induction l using List.reverseRecOn with
  | nil => exact hnew
  | append_singleton l x ih =>
    have ih := ih fun m hm => hkept m (hm.trans (List.prefix_append l [x]))
    obtain ⟨other, n⟩ := x
    rw [valuesOf_concat, List.foldl_append, ← ih, accumulate_concat]
    -- the number is under the name, or under another one
    by_cases h : other = name
    · subst h
      simp only [if_true, List.foldl_cons, List.foldl_nil]
      rcases keepOne_cases addFloat (accumulate addFloat totals l) other n with
        ⟨_, hkeep⟩ | ⟨hout, ⟨_, _, hkeep⟩ | hkeep⟩
      · rw [hkeep, get_addTo, if_pos rfl]
      · rw [hkeep, Table.get_put_self, (Table.contains_eq_false_iff _ _).mp hout]
        rfl
      · -- The first value would have been left out.
        have hin := hkept (l ++ [(other, n)]) (List.prefix_refl _) (by simp [valuesOf_concat])
        rw [accumulate_concat, hkeep, hout] at hin
        exact absurd hin (by simp)
    -- another name leaves the total
    · simp only [if_neg h, List.foldl_nil]
      rcases keepOne_cases addFloat (accumulate addFloat totals l) other n with
        ⟨_, hkeep⟩ | ⟨_, ⟨_, _, hkeep⟩ | hkeep⟩
      · rw [hkeep, get_addTo, if_neg h]
      · rw [hkeep, Table.get_put_ne _ _ h]
      · rw [hkeep]

/-! ### Integer sums -/

/-- No addition mixes a negative operand with one that only an unsigned word holds. -/
def Unmixed (ints : List Int) : Prop :=
  ∀ p n, p ++ [n] <+: ints → ¬(p.sum < 0 ∧ 2 ^ 63 ≤ n) ∧ ¬(2 ^ 63 ≤ p.sum ∧ n < 0)

/-- The sum of two words in a range. -/
def fitSum (lo hi : Int) (x y : Option Int) : Option Number := do
  let sum := (← x) + (← y)
  if lo ≤ sum ∧ sum < hi then some (.int sum) else none

theorem fit_some {lo hi x y : Int} (h : lo ≤ x + y ∧ x + y < hi) :
    fitSum lo hi (some x) (some y) = some (.int (x + y)) := if_pos h

theorem fit_outside {lo hi x y : Int} (h : ¬(lo ≤ x + y ∧ x + y < hi)) :
    fitSum lo hi (some x) (some y) = none := if_neg h

theorem fit_none {lo hi : Int} {x y : Option Int} (h : x = none ∨ y = none) :
    fitSum lo hi x y = none := by
  rcases h with rfl | rfl
  · rfl
  · cases x <;> rfl

/-- Integers add up in one of the two ranges, if they are not mixed. -/
theorem add_int {s n : Int} (hs : -2 ^ 63 ≤ s ∧ s < 2 ^ 64) (hn : -2 ^ 63 ≤ n ∧ n < 2 ^ 64)
    (hsum : -2 ^ 63 ≤ s + n ∧ s + n < 2 ^ 64) :
    Number.add addFloat (.int s) (.int n) =
      if (s < 0 ∧ 2 ^ 63 ≤ n) ∨ (2 ^ 63 ≤ s ∧ n < 0) then addFloat (.int s) (.int n)
      else some (.int (s + n)) := by
  have hsigned : ∀ x : Int, Number.asI64 (.int x) = if -2 ^ 63 ≤ x ∧ x < 2 ^ 63 then some x else none :=
    fun _ => rfl
  have hunsigned : ∀ x : Int, Number.asU64 (.int x) = if 0 ≤ x ∧ x < 2 ^ 64 then some x else none :=
    fun _ => rfl
  have hadd : Number.add addFloat (.int s) (.int n) =
      (fitSum (-2 ^ 63) (2 ^ 63) (Number.asI64 (.int s)) (Number.asI64 (.int n))).orElse fun _ =>
        (fitSum 0 (2 ^ 64) (Number.asU64 (.int s)) (Number.asU64 (.int n))).orElse fun _ =>
          addFloat (.int s) (.int n) := rfl
  rw [hadd]
  by_cases hmixed : (s < 0 ∧ 2 ^ 63 ≤ n) ∨ (2 ^ 63 ≤ s ∧ n < 0)
  · -- One operand is no signed word, the other no unsigned one.
    rw [if_pos hmixed, hsigned s, hsigned n, hunsigned s, hunsigned n]
    rw [fit_none (hmixed.elim (fun h => .inr (if_neg (by omega))) fun h => .inl (if_neg (by omega))),
      fit_none (hmixed.elim (fun h => .inl (if_neg (by omega))) fun h => .inr (if_neg (by omega)))]
    rfl
  · rw [if_neg hmixed]
    -- Both are signed words, and so is their sum.
    by_cases hsmall : (s < 2 ^ 63 ∧ n < 2 ^ 63) ∧ s + n < 2 ^ 63
    · rw [hsigned s, hsigned n, if_pos (by omega), if_pos (by omega), fit_some (by omega)]
      rfl
    · -- Otherwise neither is negative, and the sum is an unsigned word.
      have hfirst : fitSum (-2 ^ 63) (2 ^ 63) (Number.asI64 (.int s)) (Number.asI64 (.int n)) = none := by
        rw [hsigned s, hsigned n]
        by_cases hs' : s < 2 ^ 63
        · by_cases hn' : n < 2 ^ 63
          · rw [if_pos (by omega), if_pos (by omega)]
            exact fit_outside (by omega)
          · exact fit_none (.inr (if_neg (by omega)))
        · exact fit_none (.inl (if_neg (by omega)))
      rw [hfirst, hunsigned s, hunsigned n, if_pos (by omega), if_pos (by omega), fit_some (by omega)]
      rfl

/-- Every total of integers is exact if and only if no addition mixes the ranges. -/
theorem foldl_sumStep_iff (hfloat : ∀ a b n, addFloat a b ≠ some (.int n)) {ints : List Int}
    (hrange : ∀ n ∈ ints, -2 ^ 63 ≤ n ∧ n < 2 ^ 64)
    (hsums : ∀ p, p <+: ints → -2 ^ 63 ≤ p.sum ∧ p.sum < 2 ^ 64) :
    (∀ p, p <+: ints → p ≠ [] →
        (p.map Number.int).foldl (sumStep addFloat) none = some (.int p.sum)) ↔ Unmixed ints := by
  -- One more integer, after a total that is exact.
  have hstep : ∀ p n, p ++ [n] <+: ints → sumStep addFloat (some (.int p.sum)) (.int n) =
      some (if (p.sum < 0 ∧ 2 ^ 63 ≤ n) ∨ (2 ^ 63 ≤ p.sum ∧ n < 0) then
        (addFloat (.int p.sum) (.int n)).getD (.int p.sum) else .int (p ++ [n]).sum) := by
    intro p n hp
    have hn := hrange n (hp.subset (by simp))
    have hbefore := hsums p ((List.prefix_append p [n]).trans hp)
    have hafter := hsums _ hp
    rw [List.sum_append, List.sum_singleton] at hafter ⊢
    unfold sumStep
    simp only [add_int hbefore hn hafter]
    split <;> rfl
  constructor
  -- An exact total at every point leaves no addition that is mixed: a mixed one is tried as floats.
  · intro hexact p n hp
    by_cases hnil : p = []
    · subst hnil
      simp
    · have hbefore := hexact p ((List.prefix_append p [n]).trans hp) hnil
      have hafter := hexact (p ++ [n]) hp (by simp)
      rw [List.map_append, List.foldl_append, hbefore] at hafter
      have hafter := (hstep p n hp).symm.trans hafter
      by_contra hmixed
      rw [if_pos (by tauto), Option.some.injEq, List.sum_append, List.sum_singleton] at hafter
      cases hsum : addFloat (.int p.sum) (.int n) with
      | some x =>
        rw [hsum, Option.getD_some] at hafter
        exact hfloat _ _ _ (hsum.trans (congrArg some hafter))
      | none =>
        rw [hsum, Option.getD_none, Number.int.injEq] at hafter
        omega
  -- Without mixed additions: induction on the numbers summed so far.
  · intro hunmixed p hp hne
    induction p using List.reverseRecOn with
    | nil => exact absurd rfl hne
    | append_singleton p n ih =>
      by_cases hnil : p = []
      · subst hnil
        simp [sumStep]
      · rw [List.map_append, List.foldl_append, ih ((List.prefix_append p [n]).trans hp) hnil]
        refine (hstep p n hp).trans ?_
        have ⟨hfirst, hsecond⟩ := hunmixed p n hp
        rw [if_neg (by tauto)]

/-! ### The totals of calls -/

/-- The number an answer annotates with a name. -/
def number? (name : String) (annotations : Table String Annotation) : Option Number :=
  (annotations.get name).bind fun
    | .number n => some n
    | .text _ => none

/-- Of rows in order, one is under the name at most. -/
theorem filterMap_rows_name {β : Type} {rows : List (String × Annotation)}
    (hrows : rows.Pairwise fun a b => a.1 < b.1) (f : Annotation → Option β) :
    rows.filterMap (fun row => if row.1 = name then f row.2 else none) =
      (((rows.find? fun row => row.1 = name).map Prod.snd).bind f).toList := by
  induction rows with
  | nil => rfl
  | cons row rows ih =>
    -- by the first row: its key is the name, or a smaller or a greater one
    obtain ⟨hrow, hrows⟩ := List.pairwise_cons.mp hrows
    by_cases h : row.1 = name
    -- later keys are greater
    · have hrest : rows.filterMap (fun row => if row.1 = name then f row.2 else none) = [] := by
        rw [List.filterMap_eq_nil_iff]
        intro other hother
        exact if_neg fun heq => absurd (hrow other hother) (by rw [h, heq]; exact lt_irrefl _)
      rw [List.filterMap_cons, List.find?_cons_of_pos (by simpa using h), hrest, if_pos h]
      cases hf : f row.2 <;> simp [hf]
    · rw [List.filterMap_cons, List.find?_cons_of_neg (by simpa using h), if_neg h]
      exact ih hrows

theorem find?_rows_name (annotations : Table String Annotation) :
    (annotations.rows.find? fun row => row.1 = name).map Prod.snd = annotations.get name := by
  cases hfind : annotations.rows.find? fun row => row.1 = name with
  | none =>
    cases hget : annotations.get name with
    | none => rfl
    | some a =>
      have hnot := List.find?_eq_none.mp hfind _ ((annotations.mem_rows).mpr hget)
      simp at hnot
  | some row =>
    obtain ⟨other, a⟩ := row
    have hname : other = name := by simpa using List.find?_some hfind
    exact (hname ▸ (annotations.mem_rows).mp (List.mem_of_find?_eq_some hfind)).symm

theorem valuesOf_numbers (annotations : Table String Annotation) :
    valuesOf name (numbers annotations) = (number? name annotations).toList := by
  have h := @filterMap_rows_name name _ _ annotations.rows_sorted fun
    | .number n => some n
    | .text _ => none
  rw [find?_rows_name] at h
  refine Eq.trans ?_ h
  unfold valuesOf numbers
  rw [List.filterMap_filterMap]
  congr 1
  funext row
  obtain ⟨other, a⟩ := row
  cases a with
  | number n => rfl
  | text t => simp

/-- The values under a name over calls, one from each call that has one. -/
theorem valuesOf_calls (calls : List (Table String Annotation)) :
    valuesOf name (calls.flatMap numbers) = calls.filterMap (number? name) := by
  induction calls with
  | nil => rfl
  | cons call calls ih =>
    have happend : valuesOf name (numbers call ++ calls.flatMap numbers) =
        valuesOf name (numbers call) ++ valuesOf name (calls.flatMap numbers) :=
      List.filterMap_append
    rw [List.flatMap_cons, happend, ih, valuesOf_numbers, List.filterMap_cons]
    cases number? name call <;> rfl

theorem get_annotationTotals (calls : List (Table String Annotation)) :
    (annotationTotals addFloat calls).get name =
      (calls.filterMap (number? name)).foldl (sumStep addFloat) none := by
  unfold annotationTotals
  rw [get_foldl_addTo, valuesOf_calls, Table.get_empty]

end Sums

/-! ### Exactness -/

/-- Integer totals are exact as long as no addition mixes a negative operand with one from `2 ^ 63` on.
The values under a name are integers of a signed or an unsigned word, and all their sums in order lie in
either range. Then the totals of the first calls, and those a store keeps of the first numbers when it
admits the name with its first value, are the sums of the values so far, if and only if no addition is
mixed. -/
theorem integer_totals_exact_iff (addFloat : Number → Number → Option Number)
    (hfloat : ∀ a b n, addFloat a b ≠ some (.int n)) (name : String) (ints : List Int)
    (hrange : ∀ n ∈ ints, -2 ^ 63 ≤ n ∧ n < 2 ^ 64)
    (hsums : ∀ p, p <+: ints → -2 ^ 63 ≤ p.sum ∧ p.sum < 2 ^ 64) :
    (∀ calls : List (Table String Annotation), calls.filterMap (number? name) = ints.map Number.int →
      ((∀ earlier, earlier <+: calls → ∀ p, p ≠ [] →
          earlier.filterMap (number? name) = p.map Number.int →
          (annotationTotals addFloat earlier).get name = some (.int p.sum)) ↔ Unmixed ints)) ∧
    ∀ (totals : Totals) (l : List (String × Number)), totals.get name = none →
      valuesOf name l = ints.map Number.int → FirstAdmitted addFloat name totals l →
      ((∀ m, m <+: l → ∀ p, p ≠ [] → valuesOf name m = p.map Number.int →
          (accumulate addFloat totals m).get name = some (.int p.sum)) ↔ Unmixed ints) := by
  -- The first values are those of the first calls, or of the first numbers.
  have hprefix : ∀ {α : Type} (f : α → Option Number) (l : List α),
      l.filterMap f = ints.map Number.int → ∀ total : List α → Option Number,
      (∀ m, m <+: l → total m = (m.filterMap f).foldl (sumStep addFloat) none) →
      ((∀ m, m <+: l → ∀ p, p ≠ [] → m.filterMap f = p.map Number.int →
          total m = some (.int p.sum)) ↔ Unmixed ints) := by
    intro α f l hl total htotal
    rw [← foldl_sumStep_iff hfloat hrange hsums]
    constructor
    -- What was summed of the values is an initial part of them, and every initial part is summed at some
    -- point.
    · intro h p hp hne
      obtain ⟨m, hm, heq⟩ := List.prefix_filterMap_iff.mp (hl ▸ hp.map Number.int)
      rw [heq, ← htotal m hm]
      exact h m hm p hne heq.symm
    · intro h m hm p hne heq
      have hp : p <+: ints := by
        have := hm.filterMap f
        rw [hl, heq] at this
        exact (List.prefix_map_iff_of_injective fun a b hab => Number.int.inj hab).mp this
      rw [htotal m hm, heq]
      exact h p hp hne
  refine ⟨fun calls hcalls => ?_, fun totals l hnew hl hkept => ?_⟩
  · exact hprefix (number? name) calls hcalls _ fun m _ => get_annotationTotals m
  · refine hprefix _ l hl _ fun m hm => ?_
    exact get_accumulate hnew m fun k hk => hkept k (hk.trans hm)

/-- The float sum of `2 ^ 63` and -1, as it is printed. -/
def largeFloat (_ _ : Number) : Option Number := some (.float "9.223372036854776e18")

/-- One annotation. -/
def annotated (n : Int) : Table String Annotation := Table.empty.put "tokens" (.number (.int n))

theorem prefix_pair {a b : Int} {p : List Int} (h : p <+: [a, b]) : p = [] ∨ p = [a] ∨ p = [a, b] := by
  rcases List.prefix_cons_iff.mp h with rfl | ⟨q, rfl, hq⟩
  · exact .inl rfl
  · rcases List.prefix_cons_iff.mp hq with rfl | ⟨r, rfl, hr⟩
    · exact .inr (.inl rfl)
    · exact .inr (.inr (by rw [List.prefix_nil.mp hr]))

/-- The numbers of two answers, as a store adds them. -/
def smallNumbers : List (String × Number) := [("tokens", .int 5), ("cost", .int 1), ("tokens", .int (-7))]

/-- Two small values of opposite signs, as the totals of two calls and among the numbers a store
accumulates. -/
theorem small_total_exact : Unmixed [5, -7] ∧
    (annotationTotals largeFloat [annotated 5, annotated (-7)]).get "tokens" = some (.int (-2)) ∧
      FirstAdmitted largeFloat "tokens" .empty smallNumbers ∧
      (accumulate largeFloat .empty smallNumbers).get "tokens" = some (.int (-2)) := by
  have hsums : ∀ p, p <+: [5, -7] → -2 ^ 63 ≤ p.sum ∧ p.sum < 2 ^ 64 := by
    intro p hp
    rcases prefix_pair hp with rfl | rfl | rfl <;> decide
  -- Nothing reaches the unsigned range.
  have hunmixed : Unmixed [5, -7] := by
    intro p n hp
    have hle : ∀ q, q <+: [5, -7] → q.sum < 2 ^ 63 := by
      intro q hq
      rcases prefix_pair hq with rfl | rfl | rfl <;> decide
    have hn : n ∈ [5, -7] := hp.subset (by simp)
    have hsum := hle p ((List.prefix_append p [n]).trans hp)
    rcases List.mem_cons.mp hn with rfl | hn
    · omega
    · have := List.mem_singleton.mp hn
      omega
  -- the totals have room for both names
  have hfirst : FirstAdmitted largeFloat "tokens" .empty smallNumbers := by
    intro m hm hvalues
    have htake := List.prefix_iff_eq_take.mp hm
    have hall : ∀ n ≤ 3, valuesOf "tokens" (smallNumbers.take n) ≠ [] →
        (accumulate largeFloat .empty (smallNumbers.take n)).contains "tokens" = true := by
      decide +kernel
    rw [htake] at hvalues ⊢
    exact hall _ hm.length_le hvalues
  obtain ⟨hcalls, hstore⟩ := integer_totals_exact_iff largeFloat (by simp [largeFloat]) "tokens" [5, -7]
    (by decide) hsums
  refine ⟨hunmixed, ?_, hfirst, ?_⟩
  -- The totals of two calls, and those a store keeps.
  · exact (hcalls [annotated 5, annotated (-7)] rfl).mpr hunmixed _ (List.prefix_refl _) [5, -7]
      (by simp) rfl
  · exact (hstore .empty smallNumbers rfl rfl hfirst).mpr hunmixed _ (List.prefix_refl _) [5, -7]
      (by simp) rfl

/-- The sum of an unsigned word and a negative number is itself in range, but it is kept as a float. -/
theorem mixed_total_float :
    (∀ p, p <+: [2 ^ 63, -1] → -2 ^ 63 ≤ p.sum ∧ p.sum < 2 ^ 64) ∧
    (annotationTotals largeFloat [annotated (2 ^ 63), annotated (-1)]).get "tokens" =
        some (.float "9.223372036854776e18") ∧
      (accumulate largeFloat .empty [("tokens", .int (2 ^ 63)), ("tokens", .int (-1))]).get "tokens" =
        some (.float "9.223372036854776e18") := by
  refine ⟨fun p hp => ?_, by decide +kernel, by decide +kernel⟩
  rcases prefix_pair hp with rfl | rfl | rfl <;> decide

/-! ### Bounds -/

section Rows

variable {K V : Type} [LinearOrder K]

theorem rows_nodup (t : Table K V) : t.rows.Nodup :=
  t.rows_sorted.imp fun hlt heq => by
    subst heq
    exact lt_irrefl _ hlt

/-- A row that is written stands beside the others. -/
theorem rows_put_perm (t : Table K V) (k : K) (v : V) :
    (t.put k v).rows.Perm ((k, v) :: t.rows.filter fun row => row.1 ≠ k) := by
  refine (List.perm_ext_iff_of_nodup (rows_nodup _) ?_).mpr fun row => ?_
  · exact List.nodup_cons.mpr ⟨by simp, (rows_nodup t).filter _⟩
  · obtain ⟨l, w⟩ := row
    rw [Table.mem_rows, List.mem_cons, List.mem_filter, Table.mem_rows]
    by_cases h : k = l
    · subst h
      simp [eq_comm]
    · simp [Table.get_put_ne _ _ h, Ne.symm h]

end Rows

/-- The totals are within the bounds of annotations. -/
structure Bounded (totals : Totals) : Prop where
  names : totals.rows.length ≤ maxAnnotations
  bytes : totals.bytes ≤ maxAnnotationBytes

/-- The bytes of one member of totals, its comma aside. -/
def memberBytes (m : String × Number) : Nat := (m.1.toList.map escapedBytes).sum + 3 + m.2.bytes

theorem bytes_eq (totals : Totals) :
    totals.bytes = 2 + (totals.rows.map memberBytes).sum + (totals.rows.length - 1) := rfl

theorem length_put_new {totals : Totals} {name : String} (h : totals.get name = none) (n : Number) :
    (totals.put name n).rows.length = totals.rows.length + 1 := by
  rw [(rows_put_perm totals name n).length_eq, List.length_cons, List.filter_eq_self.mpr]
  rintro ⟨other, v⟩ hrow
  have hget := (totals.mem_rows).mp hrow
  simp only [ne_eq, decide_eq_true_eq]
  rintro rfl
  exact absurd (h.symm.trans hget) (by simp)

section Bounds

variable (addFloat : Number → Number → Option Number)

/-- The sum of the values under a name, from a number of the list on. -/
def sumFrom (l : List (String × Number)) (name : String) (i : Nat) : Option Number :=
  (valuesOf name (l.drop i)).foldl (sumStep addFloat) none

/-- The sums of the names that have entered, each from the number it entered with. -/
def sums (entries : List (String × Nat)) (l : List (String × Number)) : List (String × Number) :=
  entries.map fun e => (e.1, (sumFrom addFloat l e.1 e.2).getD (.int 0))

/-- The bytes of members as JSON. -/
def printed (members : List (String × Number)) : Nat :=
  2 + (members.map memberBytes).sum + (members.length - 1)

/-- The names that have entered after `l` and one more number, which lets a new name in if there is room
for it beside the sums so far. -/
def enterName (l : List (String × Number)) (entries : List (String × Nat)) (x : String × Number) :
    List (String × Nat) :=
  if x.1 ∈ entries.map Prod.fst then entries
  else if entries.length < maxAnnotations ∧
      printed (sums addFloat ((x.1, l.length) :: entries) (l ++ [x])) ≤ maxAnnotationBytes then
    (x.1, l.length) :: entries
  else entries

/-- The names that have entered, each with the place of the number it entered with. -/
def enteredNames (l : List (String × Number)) : List (String × Nat) :=
  (l.foldl (fun (before : List (String × Number) × List (String × Nat)) x =>
    (before.1 ++ [x], enterName addFloat before.1 before.2 x)) ([], [])).2

/-- The names that have entered fit with their partial sums, at every addition under one of them. -/
def Roomy (l : List (String × Number)) : Prop :=
  ∀ m x, m ++ [x] <+: l → x.1 ∈ (enteredNames addFloat m).map Prod.fst →
    printed (sums addFloat (enteredNames addFloat m) (m ++ [x])) ≤ maxAnnotationBytes

variable {addFloat}

theorem enteredNames_concat (l : List (String × Number)) (x : String × Number) :
    enteredNames addFloat (l ++ [x]) = enterName addFloat l (enteredNames addFloat l) x := by
  have hfirst : ∀ l : List (String × Number), (l.foldl
      (fun (before : List (String × Number) × List (String × Nat)) x =>
        (before.1 ++ [x], enterName addFloat before.1 before.2 x)) ([], [])).1 = l := by
    intro l
    induction l using List.reverseRecOn with
    | nil => rfl
    | append_singleton l x ih => rw [List.foldl_append, List.foldl_cons, List.foldl_nil, ih]
  unfold enteredNames
  rw [List.foldl_append, List.foldl_cons, List.foldl_nil, hfirst]

/-- The totals after some numbers are the sums of the names that have entered. -/
structure Sums (addFloat : Number → Number → Option Number) (l : List (String × Number))
    (entries : List (String × Nat)) (totals : Totals) : Prop where
  nodup : (entries.map Prod.fst).Nodup
  behind : ∀ e ∈ entries, e.2 ≤ l.length
  present : ∀ name, totals.contains name = true ↔ name ∈ entries.map Prod.fst
  get : ∀ e ∈ entries, sumFrom addFloat l e.1 e.2 = totals.get e.1

namespace Sums

variable {l : List (String × Number)} {entries : List (String × Nat)} {totals : Totals}

theorem rows_perm (h : Sums addFloat l entries totals) : totals.rows.Perm (sums addFloat entries l) := by
  have hfst : (sums addFloat entries l).map Prod.fst = entries.map Prod.fst := by
    rw [sums, List.map_map]
    rfl
  -- both list each name that has entered once, with its total
  refine (List.perm_ext_iff_of_nodup (rows_nodup _) (List.Nodup.of_map Prod.fst (hfst ▸ h.nodup))).mpr
    fun row => ?_
  obtain ⟨name, n⟩ := row
  rw [Table.mem_rows, sums, List.mem_map]
  constructor
  · intro hget
    obtain ⟨e, he, rfl⟩ := List.mem_map.mp ((h.present name).mp ((Table.contains_iff _ _).mpr ⟨n, hget⟩))
    exact ⟨e, he, by rw [h.get e he, hget, Option.getD_some]⟩
  · rintro ⟨e, he, heq⟩
    obtain ⟨rfl, rfl⟩ := Prod.mk.inj heq
    obtain ⟨n, hget⟩ := (Table.contains_iff _ _).mp ((h.present e.1).mpr (List.mem_map_of_mem he))
    rw [h.get e he, hget, Option.getD_some]

theorem length_eq (h : Sums addFloat l entries totals) : totals.rows.length = entries.length := by
  rw [h.rows_perm.length_eq, sums, List.length_map]

theorem bytes_eq_printed (h : Sums addFloat l entries totals) :
    totals.bytes = printed (sums addFloat entries l) := by
  rw [bytes_eq, printed, (h.rows_perm.map memberBytes).sum_eq, h.rows_perm.length_eq]

/-- One more number counts toward the sum of its own name. -/
theorem sumFrom_concat {x : String × Number} {name : String} {i : Nat} (hi : i ≤ l.length) :
    sumFrom addFloat (l ++ [x]) name i =
      if x.1 = name then sumStep addFloat (sumFrom addFloat l name i) x.2 else sumFrom addFloat l name i := by
  unfold sumFrom
  rw [List.drop_append_of_le_length hi, valuesOf_concat, List.foldl_append]
  split <;> rfl

/-- A name that is new enters with its first value. -/
theorem enter (h : Sums addFloat l entries totals) {name : String} (hnew : totals.contains name = false)
    (n : Number) : Sums addFloat (l ++ [(name, n)]) ((name, l.length) :: entries) (totals.put name n) := by
  have hout : name ∉ entries.map Prod.fst := fun hin => by simp [(h.present name).mpr hin] at hnew
  -- no name twice; every place is behind; who is present; and their sums
  refine ⟨List.nodup_cons.mpr ⟨hout, h.nodup⟩, fun e he => ?_, fun other => ?_, fun e he => ?_⟩
  · rw [List.length_append, List.length_singleton]
    rcases List.mem_cons.mp he with rfl | he
    · exact Nat.le_succ _
    · exact Nat.le_succ_of_le (h.behind e he)
  · rw [List.map_cons, List.mem_cons, ← h.present, Table.contains_iff, Table.contains_iff, Table.get_put]
    split
    · next heq => simp [heq]
    · next hne => simp [Ne.symm hne]
  · rcases List.mem_cons.mp he with rfl | he
    -- from its own value on, the sum is that value
    · rw [sumFrom_concat le_rfl, if_pos rfl, Table.get_put_self, sumFrom, List.drop_length]
      rfl
    · have hne : name ≠ e.1 := fun heq => hout (heq ▸ List.mem_map_of_mem he)
      rw [sumFrom_concat (h.behind e he), if_neg hne, Table.get_put_ne _ _ hne, h.get e he]

/-- A value under a name that has entered is summed. -/
theorem add (h : Sums addFloat l entries totals) (name : String) (hin : totals.contains name = true)
    (n : Number) : Sums addFloat (l ++ [(name, n)]) entries (addTo addFloat totals name n) := by
  refine ⟨h.nodup, fun e he => ?_, fun other => ?_, fun e he => ?_⟩
  · rw [List.length_append]
    exact Nat.le_add_right_of_le (h.behind e he)
  · rw [← h.present, Table.contains_iff, get_addTo, Table.contains_iff]
    split
    · next heq =>
      subst heq
      obtain ⟨total, htotal⟩ := (Table.contains_iff _ _).mp hin
      simp [htotal, sumStep]
    · rfl
  · rw [sumFrom_concat (h.behind e he), get_addTo, h.get e he]

/-- A value of a name that stays out changes nothing. -/
theorem skip (h : Sums addFloat l entries totals) {name : String} (hnew : totals.contains name = false)
    (n : Number) : Sums addFloat (l ++ [(name, n)]) entries totals := by
  refine ⟨h.nodup, fun e he => ?_, h.present, fun e he => ?_⟩
  · rw [List.length_append]
    exact Nat.le_add_right_of_le (h.behind e he)
  · have hne : name ≠ e.1 := by
      rintro rfl
      simp [(h.present e.1).mpr (List.mem_map_of_mem he)] at hnew
    rw [sumFrom_concat (h.behind e he), if_neg hne, h.get e he]

end Sums

variable (addFloat) in
/-- A store admits the names that enter. -/
theorem sums_accumulate (l : List (String × Number)) :
    Sums addFloat l (enteredNames addFloat l) (accumulate addFloat .empty l) := by
  induction l using List.reverseRecOn with
  | nil =>
    refine ⟨List.nodup_nil, by simp [enteredNames], fun name => ?_, by simp [enteredNames]⟩
    simp [enteredNames, accumulate, Table.contains]
  -- the store looks at the same two bounds as the names
  | append_singleton l x ih =>
    obtain ⟨name, n⟩ := x
    rw [enteredNames_concat, accumulate_concat]
    generalize enteredNames addFloat l = entries at ih ⊢
    generalize accumulate addFloat .empty l = totals at ih ⊢
    unfold enterName keepOne accumulate
    simp only [List.foldl_cons, List.foldl_nil, ← ih.present]
    cases hin : totals.contains name with
    -- a name that is present
    | true =>
      rw [if_pos rfl, if_pos rfl]
      exact ih.add name hin n
    | false =>
      -- a new name: no room for it, or its value would be too long, or it enters
      have henter := ih.enter hin n
      rw [if_neg Bool.false_ne_true, if_neg Bool.false_ne_true, ← ih.length_eq, ← henter.bytes_eq_printed]
      by_cases hfull : maxAnnotations ≤ totals.rows.length
      · rw [if_neg (by omega), if_pos hfull]
        exact ih.skip hin n
      · rw [if_neg hfull]
        by_cases hlong : maxAnnotationBytes < Totals.bytes (totals.put name n)
        · rw [if_neg (by omega), if_pos hlong]
          exact ih.skip hin n
        · rw [if_pos (by omega), if_neg hlong]
          exact henter

theorem accumulate_append (totals : Totals) (l m : List (String × Number)) :
    accumulate addFloat totals (l ++ m) = accumulate addFloat (accumulate addFloat totals l) m := by
  unfold accumulate
  rw [List.foldl_append]

/-- Calls one after the other add their numbers one after the other. -/
theorem foldl_accumulate (calls : List (List (String × Number))) (totals : Totals) :
    calls.foldl (accumulate addFloat) totals = accumulate addFloat totals calls.flatten := by
  induction calls generalizing totals with
  | nil => rfl
  | cons l calls ih => rw [List.foldl_cons, ih, List.flatten_cons, accumulate_append]

/-- A number under a new name keeps the totals bounded; one under a name that has entered does if the
names fit with their sums. -/
theorem bounded_concat {m : List (String × Number)} {x : String × Number}
    (h : Bounded (accumulate addFloat .empty m))
    (hroom : x.1 ∈ (enteredNames addFloat m).map Prod.fst →
      printed (sums addFloat (enteredNames addFloat m) (m ++ [x])) ≤ maxAnnotationBytes) :
    Bounded (accumulate addFloat .empty (m ++ [x])) := by
  obtain ⟨name, n⟩ := x
  have hsums := sums_accumulate addFloat m
  have hsums' := sums_accumulate addFloat (m ++ [(name, n)])
  rcases keepOne_cases addFloat (accumulate addFloat .empty m) name n with
    ⟨hin, -⟩ | ⟨hout, ⟨hnames, hbytes, hkeep⟩ | hkeep⟩
  · -- no name enters, and the names fit
    have hname := (hsums.present name).mp hin
    have hsame : enteredNames addFloat (m ++ [(name, n)]) = enteredNames addFloat m := by
      rw [enteredNames_concat, enterName, if_pos hname]
    refine ⟨?_, ?_⟩
    · rw [hsums'.length_eq, hsame, ← hsums.length_eq]
      exact h.names
    · rw [hsums'.bytes_eq_printed, hsame]
      exact hroom hname
  · rw [accumulate_concat, hkeep]
    refine ⟨?_, hbytes⟩
    rw [length_put_new ((Table.contains_eq_false_iff _ _).mp hout)]
    exact hnames
  · rw [accumulate_concat, hkeep]
    exact h

variable (addFloat) in
/-- The totals that calls of `accumulate` keep are within the bounds at every number, if and only if at
each addition under a name that has entered, the names that have entered fit with their partial sums.
The names and sums are those of the numbers given, counted from where each name entered. After a call the
totals are those after its last number. -/
theorem totals_bounded_iff (calls : List (List (String × Number))) :
    ((∀ m, m <+: calls.flatten → Bounded (accumulate addFloat .empty m)) ↔ Roomy addFloat calls.flatten) ∧
    ∀ earlier, earlier <+: calls → earlier.flatten <+: calls.flatten ∧
      earlier.foldl (accumulate addFloat) .empty = accumulate addFloat .empty earlier.flatten := by
  refine ⟨⟨fun h m x hm hname => ?_, fun h m hm => ?_⟩, fun earlier hearlier => ⟨?_, foldl_accumulate _ _⟩⟩
  -- a number under a name that has entered lets no name enter
  · have hsame : enteredNames addFloat (m ++ [x]) = enteredNames addFloat m := by
      rw [enteredNames_concat, enterName, if_pos hname]
    have hbytes := (h _ hm).bytes
    rwa [(sums_accumulate addFloat (m ++ [x])).bytes_eq_printed, hsame] at hbytes
  · induction m using List.reverseRecOn with
    | nil =>
      have hempty : Totals.bytes .empty ≤ maxAnnotationBytes := by decide
      exact ⟨Nat.zero_le _, hempty⟩
    | append_singleton m x ih =>
      exact bounded_concat (ih ((List.prefix_append m [x]).trans hm)) (h m x hm)
  · obtain ⟨later, rfl⟩ := hearlier
    rw [List.flatten_append]
    exact List.prefix_append _ _

end Bounds

/-- A name of so many letters. -/
def longName (n : Nat) : String := String.ofList (List.replicate n 'a')

/-- The bytes of a long name's total. -/
theorem printed_long (k : Nat) (n : Number) : printed [(longName k, n)] = k + 5 + n.bytes := by
  have hname : ((longName k).toList.map escapedBytes).sum = k := by
    unfold longName
    rw [String.toList_ofList, List.map_replicate, List.sum_replicate, show escapedBytes 'a' = 1 by decide]
    simp
  simp only [printed, List.map_cons, List.map_nil, List.sum_cons, List.sum_nil, memberBytes, hname,
    List.length_singleton]
  omega

/-- A long name's first value enters if it fits. -/
theorem enteredNames_long {addFloat : Number → Number → Option Number} {k : Nat} {n : Number}
    (h : k + 5 + n.bytes ≤ maxAnnotationBytes) : enteredNames addFloat [(longName k, n)] = [(longName k, 0)] := by
  have hsum : sums addFloat [(longName k, 0)] [(longName k, n)] = [(longName k, n)] := by
    simp [sums, sumFrom, valuesOf, sumStep]
  have hroom : printed (sums addFloat [(longName k, 0)] [(longName k, n)]) ≤ maxAnnotationBytes := by
    rw [hsum, printed_long]
    exact h
  have hconcat : enteredNames addFloat [(longName k, n)] = enterName addFloat [] [] (longName k, n) :=
    enteredNames_concat [] (longName k, n)
  rw [hconcat, enterName, if_neg (by simp), if_pos ⟨by decide, hroom⟩]
  rfl

/-- The totals of one long name with two values. -/
theorem bytes_long {k : Nat} {n m sum : Number} (h : k + 5 + n.bytes ≤ maxAnnotationBytes)
    (hsum : Number.add largeFloat n m = some sum) :
    Totals.bytes (accumulate largeFloat .empty [(longName k, n)]) = k + 5 + n.bytes ∧
      printed (sums largeFloat [(longName k, 0)] [(longName k, n), (longName k, m)]) = k + 5 + sum.bytes ∧
      Totals.bytes (accumulate largeFloat .empty [(longName k, n), (longName k, m)]) = k + 5 + sum.bytes := by
  -- the sums counted from the first number
  have hone : sums largeFloat [(longName k, 0)] [(longName k, n)] = [(longName k, n)] := by
    simp [sums, sumFrom, valuesOf, sumStep]
  have htwo : sums largeFloat [(longName k, 0)] [(longName k, n), (longName k, m)] = [(longName k, sum)] := by
    simp [sums, sumFrom, valuesOf, sumStep, hsum]
  have hentered : enteredNames largeFloat [(longName k, n), (longName k, m)] = [(longName k, 0)] := by
    rw [← List.singleton_append, enteredNames_concat, enteredNames_long h, enterName, if_pos (by simp)]
  refine ⟨?_, ?_, ?_⟩
  · rw [(sums_accumulate _ _).bytes_eq_printed, enteredNames_long h, hone, printed_long]
  · rw [htwo, printed_long]
  · rw [(sums_accumulate _ _).bytes_eq_printed, hentered, htwo, printed_long]

/-- A second value makes the total of a long name longer, and a new name comes after it. -/
def filling (k : Nat) : List (String × Number) :=
  [(longName k, .int 9)] ++ [(longName k, .int 1)] ++ [("b", .int 5)]

/-- There is room for the longer total. -/
theorem filling_roomy {k : Nat} (hk : 1 < k) (hfits : k + 7 ≤ maxAnnotationBytes) :
    Roomy largeFloat (filling k) := by
  have hone : k + 5 + (Number.int 9).bytes ≤ maxAnnotationBytes := by
    have hnine : (Number.int 9).bytes = 1 := by decide
    omega
  have hsum : Number.add largeFloat (.int 9) (.int 1) = some (.int 10) := by decide
  obtain ⟨-, hprinted, -⟩ := bytes_long hone hsum
  intro m x hm hname
  rcases List.prefix_concat_iff.mp hm with heq | hm
  · -- the new name has not entered
    obtain ⟨rfl, heq⟩ := List.append_inj' heq rfl
    obtain rfl : x = ("b", .int 5) := by simpa using heq
    rw [enteredNames_concat, enteredNames_long hone, enterName, if_pos (by simp)] at hname
    have hb : "b" = longName k := by simpa using hname
    have hlength := congrArg (fun name => name.toList.length) hb
    simp only [longName, String.toList_ofList, List.length_replicate] at hlength
    have hletter : "b".toList.length = 1 := by decide
    omega
  rcases List.prefix_concat_iff.mp hm with heq | hm
  -- the second number makes the total longer by one digit
  · obtain ⟨rfl, heq⟩ := List.append_inj' heq rfl
    obtain rfl : x = (longName k, .int 1) := by simpa using heq
    have hten : (Number.int 10).bytes = 2 := by decide
    rw [enteredNames_long hone, List.singleton_append, hprinted, hten]
    exact hfits
  · -- nothing has entered before the first number
    have hlength := hm.length_le
    rw [List.length_append, List.length_singleton] at hlength
    obtain rfl : m = [] := List.length_eq_zero_iff.mp (by simpa using hlength)
    simp [enteredNames] at hname

/-- The total of a name that has entered fills the totals to the last byte. -/
theorem long_total_bounded :
    (∀ m, m <+: filling 4089 → Bounded (accumulate largeFloat .empty m)) ∧
      Totals.bytes (accumulate largeFloat .empty [(longName 4089, .int 9), (longName 4089, .int 1)]) =
        maxAnnotationBytes := by
  have hroomy : Roomy largeFloat (filling 4089) := filling_roomy (by decide) (by decide)
  have hfits : 4089 + 5 + (Number.int 9).bytes ≤ maxAnnotationBytes := by decide
  have hsum : Number.add largeFloat (.int 9) (.int 1) = some (.int 10) := by decide
  obtain ⟨-, -, hbytes⟩ := bytes_long hfits hsum
  have hcalls : [filling 4089].flatten = filling 4089 := List.flatten_singleton
  have hbounded := (totals_bounded_iff largeFloat [filling 4089]).1
  rw [hcalls] at hbounded
  refine ⟨hbounded.mpr hroomy, ?_⟩
  rw [hbytes]
  decide

/-- One more unit makes a digit more than there is room for. -/
theorem totals_outgrow_bound :
    Totals.bytes (accumulate largeFloat .empty [(longName 4090, .int 9)]) = maxAnnotationBytes ∧
      Totals.bytes (accumulate largeFloat .empty [(longName 4090, .int 9), (longName 4090, .int 1)]) =
        maxAnnotationBytes + 1 := by
  have hfits : 4090 + 5 + (Number.int 9).bytes ≤ maxAnnotationBytes := by decide
  have hsum : Number.add largeFloat (.int 9) (.int 1) = some (.int 10) := by decide
  obtain ⟨hone, -, htwo⟩ := bytes_long hfits hsum
  rw [hone, htwo]
  decide

end Ouro
