import Ouro.Backend.Paging
import Ouro.Durable.Tallies

/-!
# Totals of a definition over a window

The buckets of a definition are rows keyed by their starts, in texts whose order is that of the instants.
A query of a window rounds it out to whole buckets, reads the rows between its ends in one scan of
bounded length and reads each start back from its key.

Every bucket that is stored starts at a whole number of widths (`aligned_after`), so no more of them lie
in a window than its width allows, the scan leaves none out, and they are those that meet the window
(`totals_ok`).
-/

namespace Ouro

open Lib

namespace Backend

/-- The runs of one definition that ended within one bucket with annotation totals, and those totals
summed. -/
structure TotalsBucket where
  startMs : Int
  runs : Nat
  annotations : Totals
deriving DecidableEq

/-- One definition's annotation totals over a window. -/
structure DefinitionTotals where
  definition : String
  /-- The window rounded out to whole buckets. -/
  sinceMs : Int
  beforeMs : Int
  /-- The runs that ended in the window with annotation totals. -/
  runs : Nat
  annotations : Totals
  /-- The buckets that hold any, oldest first. -/
  buckets : List TotalsBucket
deriving DecidableEq

/-- Query at most this many buckets at once. -/
def maxTotalsBuckets : Nat := maxPage

/-! ### Keys -/

/-- `char::to_digit` in base sixteen. -/
def toDigit (c : Char) : Option Nat :=
  if '0' ≤ c ∧ c ≤ '9' then some (c.toNat - 48)
  else if 'a' ≤ c ∧ c ≤ 'f' then some (c.toNat - 87)
  else if 'A' ≤ c ∧ c ≤ 'F' then some (c.toNat - 55)
  else none

/-- One more digit of a number of 64 bits. -/
def readDigit (n : Nat) (c : Char) : Except String Nat :=
  match toDigit c with
  | none => .error "invalid digit found in string"
  | some d =>
    if u64Max < 16 * n + d then .error "number too large to fit in target type" else .ok (16 * n + d)

/-- `u64::from_str_radix` in base sixteen. -/
def fromHex (text : String) : Except String Nat :=
  match text.toList with
  | [] => .error "cannot parse integer from empty string"
  | '+' :: c :: digits => (c :: digits).foldlM readDigit 0
  | digits => digits.foldlM readDigit 0

/-- The instant a key was made of, with its sign bit flipped back. -/
def startOfKey (k : String) : Except String Int := (fun n : Nat => (n : Int) - 2 ^ 63) <$> fromHex k

/-! ### The query -/

/-- The buckets of a definition as they are stored. -/
def bucketRows (t : Table Int Bucket) : Table String Bucket :=
  .ofList (t.rows.map fun row => (Operation.timeKey row.1, row.2))

section Query

variable (env : Env)

/-- One more bucket of a window. -/
def addRow (totals : DefinitionTotals) (row : String × Bucket) : Except Error DefinitionTotals := do
  let startMs ← (startOfKey row.1).mapError .message
  pure { totals with
    runs := min (totals.runs + row.2.runs) u64Max
    annotations := accumulate env.addFloat totals.annotations row.2.annotations.rows
    buckets := totals.buckets ++
      [{ startMs, runs := row.2.runs, annotations := row.2.annotations }] }

/-- The totals of a definition over the window from `since` to before `before`. -/
def totals (rows : Rows) (name : String) (since before : Int) : Except Error DefinitionTotals :=
  if before < since then .error (.control (.invalidInput "invalid time window"))
  else
    let start := Engine.bucketStart since
    let end_ := max (satAdd (Engine.bucketStart (satSub before 1)) totalsBucketMs) start
    let buckets := (satSub end_ start / totalsBucketMs).toNat
    if maxTotalsBuckets < buckets then
      .error (.control (.invalidInput
        s!"a totals window covers at most {maxTotalsBuckets} buckets of {totalsBucketMs} ms"))
    else
      let found := (bucketRows (rows.totals name)).scan
        (fun k => decide (Operation.timeKey start ≤ k ∧ k < Operation.timeKey end_)) (some maxTotalsBuckets)
      found.foldlM (addRow env)
        { definition := name, sinceMs := start, beforeMs := end_, runs := 0, annotations := .empty
          buckets := [] }

end Query

/-! ### Reading a key back -/

theorem toDigit_hexDigit : ∀ d < 16, toDigit (hexDigit d) = some d := by decide

/-- The last digits of a number, read after the number that the others spell. -/
theorem foldlM_readDigit {w a m : Nat} (h : m * 16 ^ w + a % 16 ^ w ≤ u64Max) :
    ((List.range w).reverse.map fun i => hexDigit (a / 16 ^ i % 16)).foldlM readDigit m =
      .ok (m * 16 ^ w + a % 16 ^ w) := by
  induction w generalizing m with
  | zero =>
    rw [pow_zero, Nat.mod_one, Nat.mul_one]
    rfl
  | succ w ih =>
    -- the leading digit is read first
    have hdigit : a / 16 ^ w % 16 < 16 := Nat.mod_lt _ (by decide)
    have hsplit : m * 16 ^ (w + 1) + a % 16 ^ (w + 1) =
        (16 * m + a / 16 ^ w % 16) * 16 ^ w + a % 16 ^ w := by
      rw [Nat.mod_pow_succ]
      ring
    rw [hsplit] at h ⊢
    -- what is read so far is no greater than the whole
    have hle : 16 * m + a / 16 ^ w % 16 ≤ u64Max :=
      (Nat.le_mul_of_pos_right _ (by positivity)).trans (le_of_add_le_left h)
    have hread : readDigit m (hexDigit (a / 16 ^ w % 16)) = .ok (16 * m + a / 16 ^ w % 16) := by
      unfold readDigit
      rw [toDigit_hexDigit _ hdigit]
      exact if_neg (not_lt.mpr hle)
    rw [List.range_succ, List.reverse_append, List.reverse_singleton, List.map_append, List.foldlM_append]
    simp only [List.map_cons, List.map_nil, List.foldlM_cons, List.foldlM_nil, hread]
    exact ih h

theorem fromHex_digits {c : Char} {l : List Char} (hc : c ≠ '+') :
    fromHex (String.ofList (c :: l)) = (c :: l).foldlM readDigit 0 := by
  unfold fromHex
  rw [String.toList_ofList]
  split
  · next h => simp at h
  · next h => exact absurd (List.cons.inj h).1 hc
  · rfl

/-- An instant of 64 bits is read back from its key. -/
theorem startOfKey_timeKey {ms : Int} (hle : i64Min ≤ ms) (hge : ms ≤ i64Max) :
    startOfKey (Operation.timeKey ms) = .ok ms := by
  unfold i64Min at hle
  unfold i64Max at hge
  have hread := foldlM_readDigit (w := 16) (a := (ms + 2 ^ 63).toNat) (m := 0) (by
    unfold u64Max
    omega)
  rw [Nat.zero_mul, Nat.zero_add, Nat.mod_eq_of_lt (by omega)] at hread
  -- the first of the sixteen characters is a digit, not a sign
  have hsign : ∀ d < 16, hexDigit d ≠ '+' := by decide
  have hrange : (List.range 16).reverse = 15 :: (List.range 15).reverse := by decide
  have hhex : fromHex (Operation.timeKey ms) = .ok (ms + 2 ^ 63).toNat := by
    rw [← hread, Operation.timeKey, Engine.hex16, hrange, List.map_cons]
    exact fromHex_digits (hsign _ (Nat.mod_lt _ (by decide)))
  have hback : ((ms + 2 ^ 63).toNat : Int) - 2 ^ 63 = ms := by omega
  rw [startOfKey, hhex]
  exact congrArg Except.ok hback

/-- Keys are in the order of their instants. -/
theorem timeKey_lt_iff {a b : Int} (ha : i64Min ≤ a) (ha' : a ≤ i64Max) (hb : i64Min ≤ b) (hb' : b ≤ i64Max) :
    Operation.timeKey a < Operation.timeKey b ↔ a < b := by
  unfold i64Min at ha hb
  unfold i64Max at ha' hb'
  have h := digits_append_lt_iff (w := 16) (a := (a + 2 ^ 63).toNat) (b := (b + 2 ^ 63).toNat)
    (s := []) (t := [])
  rw [List.append_nil, List.append_nil, Nat.mod_eq_of_lt (by omega), Nat.mod_eq_of_lt (by omega)] at h
  have hnil : ¬([] : List Char) < [] := lt_irrefl _
  unfold Operation.timeKey Engine.hex16
  simp only [String.lt_iff_toList_lt, String.toList_ofList]
  rw [h]
  simp only [hnil, and_false, or_false]
  omega

/-! ### The rows of a window -/

/-- A start is a whole number of widths, or one of the ends of the range of instants. -/
theorem aligned_cases (ms : Int) : Engine.bucketStart ms % totalsBucketMs = 0 ∨
    Engine.bucketStart ms = i64Min ∨ Engine.bucketStart ms = i64Max := by
  unfold Engine.bucketStart satSub clamp i64Min i64Max totalsBucketMs
  omega

theorem bucketStart_range (ms : Int) :
    i64Min ≤ Engine.bucketStart ms ∧ Engine.bucketStart ms ≤ i64Max := by
  unfold Engine.bucketStart satSub clamp i64Min i64Max
  omega

theorem keys_range {σ : Rows} (hσ : Aligned σ) {name : String} {row : Int × Bucket}
    (h : row ∈ (σ.totals name).rows) : i64Min ≤ row.1 ∧ row.1 ≤ i64Max := by
  have hget : (σ.totals name).get row.1 = some row.2 := (Table.mem_rows _).mp h
  obtain ⟨ms, hms⟩ := hσ name row.1 ((Table.contains_iff _ _).mpr ⟨_, hget⟩)
  exact hms ▸ bucketStart_range ms

/-- The stored rows of a definition are its buckets, in order. -/
theorem rows_bucketRows {σ : Rows} (hσ : Aligned σ) (name : String) :
    (bucketRows (σ.totals name)).rows =
      (σ.totals name).rows.map fun row => (Operation.timeKey row.1, row.2) := by
  refine Table.rows_ofList (List.pairwise_map.mpr ?_)
  refine (Table.rows_sorted _).imp_of_mem fun ha hb hlt => ?_
  have ⟨ha₁, ha₂⟩ := keys_range hσ ha
  have ⟨hb₁, hb₂⟩ := keys_range hσ hb
  exact (timeKey_lt_iff ha₁ ha₂ hb₁ hb₂).mpr hlt

/-- Distinct multiples of a width in `n` widths are no more than `n`. -/
theorem length_le_of_multiples {l : List Int} {a w : Int} {n : Nat} (hw : 0 < w) (hl : l.Nodup)
    (ha : a % w = 0) (h : ∀ k ∈ l, k % w = 0 ∧ a ≤ k ∧ k < a + n * w) : l.length ≤ n := by
  have hsub : l ⊆ (List.range n).map fun i : Nat => a + i * w := by
    intro k hk
    obtain ⟨hkw, hak, hka⟩ := h k hk
    have hdvd : (k - a) / w * w = k - a :=
      Int.ediv_mul_cancel ((Int.dvd_of_emod_eq_zero hkw).sub (Int.dvd_of_emod_eq_zero ha))
    have hpos : 0 ≤ (k - a) / w := Int.ediv_nonneg (by omega) hw.le
    have hlt : (k - a) / w < n := Int.ediv_lt_of_lt_mul hw (by omega)
    refine List.mem_map.mpr ⟨((k - a) / w).toNat, List.mem_range.mpr (by omega), ?_⟩
    rw [Int.toNat_of_nonneg hpos, hdvd]
    omega
  simpa using (List.subperm_of_subset hl hsub).length_le

/-- The bucket meets the window from `since` to before `before`. -/
def Meets (since before start : Int) : Bool :=
  decide (start < before ∧ since < start + totalsBucketMs)

/-- The bucket as a query shows it. -/
def TotalsBucket.of (row : Int × Bucket) : TotalsBucket :=
  { startMs := row.1, runs := row.2.runs, annotations := row.2.annotations }

/-- The window in whole buckets. -/
def bucketsOf (since before : Int) : Nat :=
  ((Engine.bucketStart (before - 1) + totalsBucketMs - Engine.bucketStart since) / totalsBucketMs).toNat

theorem addRow_timeKey (env : Env) (acc : DefinitionTotals) {row : Int × Bucket} (hge : i64Min ≤ row.1)
    (hle : row.1 ≤ i64Max) :
    addRow env acc (Operation.timeKey row.1, row.2) = .ok { acc with
      runs := min (acc.runs + row.2.runs) u64Max
      annotations := accumulate env.addFloat acc.annotations row.2.annotations.rows
      buckets := acc.buckets ++ [.of row] } := by
  unfold addRow
  rw [startOfKey_timeKey hge hle]
  rfl

/-- Adding up rows shows their buckets and adds up their runs. -/
theorem foldlM_addRow (env : Env) {found : List (Int × Bucket)}
    (h : ∀ row ∈ found, i64Min ≤ row.1 ∧ row.1 ≤ i64Max) {acc : DefinitionTotals}
    (hacc : acc.runs ≤ u64Max) :
    (found.map fun row => (Operation.timeKey row.1, row.2)).foldlM (addRow env) acc = .ok { acc with
      runs := min (acc.runs + (found.map (·.2.runs)).sum) u64Max
      annotations := found.foldl (fun sums row => accumulate env.addFloat sums row.2.annotations.rows)
        acc.annotations
      buckets := acc.buckets ++ found.map TotalsBucket.of } := by
  induction found generalizing acc with
  | nil =>
    obtain ⟨definition, sinceMs, beforeMs, runs, annotations, buckets⟩ := acc
    have hruns : min runs u64Max = runs := min_eq_left hacc
    simp [hruns, pure, Except.pure]
  | cons row found ih =>
    obtain ⟨hrow, hfound⟩ := List.forall_mem_cons.mp h
    -- its start is read back, and the others are added to what it leaves
    rw [List.map_cons, List.foldlM_cons, addRow_timeKey env acc hrow.1 hrow.2]
    refine (ih hfound (min_le_right _ _)).trans (congrArg Except.ok ?_)
    simp only [List.map_cons, List.sum_cons, List.foldl_cons, List.append_assoc, List.singleton_append,
      DefinitionTotals.mk.injEq, true_and, and_true]
    omega

/-- A window that starts before its end, away from the ends of the range of instants. -/
structure Window (since before : Int) : Prop where
  lower : i64Min + totalsBucketMs ≤ since
  upper : before ≤ i64Max - totalsBucketMs
  order : since < before

namespace Window

variable {since before : Int}

/-- Rounding the window out saturates nowhere. -/
theorem rounded (h : Window since before) :
    Engine.bucketStart since = since - since % totalsBucketMs ∧
      Engine.bucketStart (satSub before 1) = Engine.bucketStart (before - 1) ∧
      Engine.bucketStart (before - 1) = before - 1 - (before - 1) % totalsBucketMs ∧
      max (satAdd (Engine.bucketStart (before - 1)) totalsBucketMs) (Engine.bucketStart since) =
        Engine.bucketStart (before - 1) + totalsBucketMs := by
  obtain ⟨hlower, hupper, horder⟩ := h
  unfold Engine.bucketStart satSub satAdd clamp totalsBucketMs i64Min i64Max at *
  omega

/-- A bucket lies between the rounded ends exactly when it meets the window. -/
theorem meets_iff (h : Window since before) (ms : Int) :
    Engine.bucketStart since ≤ Engine.bucketStart ms ∧
        Engine.bucketStart ms < Engine.bucketStart (before - 1) + totalsBucketMs ↔
      Meets since before (Engine.bucketStart ms) = true := by
  obtain ⟨hstart, -, hend, -⟩ := h.rounded
  obtain ⟨hlower, hupper, horder⟩ := h
  have hms := aligned_cases ms
  unfold Meets
  rw [hstart, hend, decide_eq_true_iff]
  unfold totalsBucketMs i64Min i64Max at *
  omega

/-- The buckets that meet a window start at multiples of the width. -/
theorem multiple (h : Window since before) {ms : Int}
    (hmeets : Meets since before (Engine.bucketStart ms) = true) :
    Engine.bucketStart ms % totalsBucketMs = 0 := by
  obtain ⟨hlower, hupper, horder⟩ := h
  have hms := aligned_cases ms
  have hmeets := of_decide_eq_true hmeets
  unfold totalsBucketMs i64Min i64Max at *
  omega

end Window

/-- The buckets of a definition that meet a window. -/
def meeting (σ : Rows) (name : String) (since before : Int) : List (Int × Bucket) :=
  (σ.totals name).rows.filter fun row => Meets since before row.1

section Reads

variable {σ : Rows} {name : String} {since before : Int}

/-- No more buckets meet a window than it has. -/
theorem meeting_length_le (hσ : Aligned σ) (hw : Window since before) :
    (meeting σ name since before).length ≤ bucketsOf since before := by
  -- The buckets have distinct starts.
  have hnodup : ((meeting σ name since before).map Prod.fst).Nodup := by
    have hsorted : (meeting σ name since before).Pairwise fun a b => a.1 < b.1 :=
      (Table.rows_sorted _).filter _
    exact (List.pairwise_map.mpr hsorted).imp ne_of_lt
  have hstart : Meets since before (Engine.bucketStart since) = true := by
    obtain ⟨hrounded, -⟩ := hw.rounded
    obtain ⟨hlower, hupper, horder⟩ := hw
    refine decide_eq_true ?_
    rw [hrounded]
    unfold totalsBucketMs
    omega
  -- Each start is a whole number of widths, from the one at or before the window to its last.
  have hlast := hw.rounded.2.2.1
  have hfirst := hw.rounded.1
  rw [← List.length_map (f := Prod.fst)]
  refine length_le_of_multiples (w := totalsBucketMs) (by decide) hnodup (hw.multiple hstart) ?_
  intro k hk
  obtain ⟨row, hrow, rfl⟩ := List.mem_map.mp hk
  obtain ⟨hmem, hmeets⟩ := List.mem_filter.mp hrow
  have hget : (σ.totals name).get row.1 = some row.2 := (Table.mem_rows _).mp hmem
  obtain ⟨ms, hms⟩ := hσ name row.1 ((Table.contains_iff _ _).mpr ⟨_, hget⟩)
  rw [hms] at hmeets ⊢
  obtain ⟨hge, hlt⟩ := (hw.meets_iff ms).mpr hmeets
  refine ⟨hw.multiple hmeets, hge, ?_⟩
  unfold bucketsOf
  have horder := hw.order
  rw [hfirst, hlast] at *
  unfold totalsBucketMs at *
  omega

/-- The scan of a window finds the buckets that meet it. -/
theorem scan_bucketRows (hσ : Aligned σ) (hw : Window since before)
    (hfew : bucketsOf since before ≤ maxTotalsBuckets) :
    (bucketRows (σ.totals name)).scan
        (fun k => decide (Operation.timeKey (Engine.bucketStart since) ≤ k ∧
          k < Operation.timeKey (Engine.bucketStart (before - 1) + totalsBucketMs)))
        (some maxTotalsBuckets) =
      (meeting σ name since before).map fun row => (Operation.timeKey row.1, row.2) := by
  rw [Table.scan_some]
  -- The ends of the window are instants, so their keys are in the order of the instants.
  have hend : i64Min ≤ Engine.bucketStart (before - 1) + totalsBucketMs ∧
      Engine.bucketStart (before - 1) + totalsBucketMs ≤ i64Max := by
    have hlast := hw.rounded.2.2.1
    obtain ⟨hlower, hupper, horder⟩ := hw
    rw [hlast]
    unfold totalsBucketMs i64Min i64Max at *
    omega
  -- Without a bound, the range of keys is the range of starts.
  have hstart := bucketStart_range since
  have hall : (bucketRows (σ.totals name)).scan
      (fun k => decide (Operation.timeKey (Engine.bucketStart since) ≤ k ∧
        k < Operation.timeKey (Engine.bucketStart (before - 1) + totalsBucketMs))) none =
      (meeting σ name since before).map fun row => (Operation.timeKey row.1, row.2) := by
    show ((bucketRows (σ.totals name)).rows.filter _) = _
    rw [rows_bucketRows hσ, List.filter_map]
    refine congrArg _ (List.filter_congr fun row hrow => ?_)
    have hget : (σ.totals name).get row.1 = some row.2 := (Table.mem_rows _).mp hrow
    obtain ⟨ms, hms⟩ := hσ name row.1 ((Table.contains_iff _ _).mpr ⟨_, hget⟩)
    have ⟨hge, hle⟩ := keys_range hσ hrow
    rw [Bool.eq_iff_iff, Function.comp_apply, decide_eq_true_iff, ← not_lt,
      timeKey_lt_iff hge hle hstart.1 hstart.2, timeKey_lt_iff hge hle hend.1 hend.2, not_lt, hms]
    exact hw.meets_iff ms
  -- And there are no more of them than the bound.
  rw [hall, List.take_of_length_le]
  rw [List.length_map]
  exact (meeting_length_le hσ hw).trans hfew

/-- The width of the window is compared without saturation where it matters. -/
theorem tooWide_iff (hw : Window since before) :
    maxTotalsBuckets < (satSub (Engine.bucketStart (before - 1) + totalsBucketMs)
        (Engine.bucketStart since) / totalsBucketMs).toNat ↔
      maxTotalsBuckets < bucketsOf since before := by
  obtain ⟨hfirst, -, hlast, -⟩ := hw.rounded
  obtain ⟨hlower, hupper, horder⟩ := hw
  unfold bucketsOf
  rw [hfirst, hlast]
  unfold satSub clamp maxTotalsBuckets maxPage totalsBucketMs i64Min i64Max at *
  omega

/-- A query of an allowed window returns the buckets that meet it, and what they add up to. -/
theorem totals_ok (env : Env) (hσ : Aligned σ) (hw : Window since before)
    (hfew : bucketsOf since before ≤ maxTotalsBuckets) :
    totals env σ name since before = .ok
      { definition := name
        sinceMs := Engine.bucketStart since
        beforeMs := Engine.bucketStart (before - 1) + totalsBucketMs
        runs := min ((meeting σ name since before).map (·.2.runs)).sum u64Max
        annotations := (meeting σ name since before).foldl
          (fun sums row => accumulate env.addFloat sums row.2.annotations.rows) .empty
        buckets := (meeting σ name since before).map .of } := by
  obtain ⟨-, hlast, -, hend⟩ := hw.rounded
  have horder : ¬before < since := not_lt.mpr hw.order.le
  have hcount := (tooWide_iff hw).not.mpr (not_lt.mpr hfew)
  unfold totals
  simp only [if_neg horder, hlast, hend, if_neg hcount, scan_bucketRows hσ hw hfew]
  refine (foldlM_addRow env (fun row hrow => keys_range hσ (List.mem_of_mem_filter hrow))
    (Nat.zero_le _)).trans ?_
  rw [Nat.zero_add, List.nil_append]
  rfl

/-- A wider window is refused. -/
theorem totals_refused (env : Env) (hw : Window since before)
    (hmany : maxTotalsBuckets < bucketsOf since before) :
    totals env σ name since before = .error (.control (.invalidInput
      s!"a totals window covers at most {maxTotalsBuckets} buckets of {totalsBucketMs} ms")) := by
  obtain ⟨-, hlast, -, hend⟩ := hw.rounded
  have horder : ¬before < since := not_lt.mpr hw.order.le
  unfold totals
  simp only [if_neg horder, hlast, hend, if_pos ((tooWide_iff hw).mpr hmany)]

end Reads

/-! ### Conservation -/

/-- In every store each ended run with annotation totals is counted in one bucket of its definition, the
one that contains its end, and no other run is; so the buckets count all of them. A query of a window
returns the buckets that meet it, each with its own start, and the sum of their runs, or refuses a window
that is too wide. -/
theorem totals_conserved (env : Env) (history : List Op) (name : String) :
    (∀ start, bucketRuns (after env history) name start =
      min (endedIn (after env history) name start).length u64Max) ∧
    (∀ start row, row ∈ endedIn (after env history) name start ↔
      row ∈ endedRuns (after env history) name ∧
        Engine.bucketStart (row.2.run.endedMs.getD 0) = start) ∧
    (∀ ms, i64Min ≤ ms → ms ≤ i64Max →
      Engine.bucketStart ms ≤ ms ∧ ms < Engine.bucketStart ms + totalsBucketMs) ∧
    ((endedRuns (after env history) name).length ≤ u64Max →
      (((after env history).totals name).values.map (·.runs)).sum =
        (endedRuns (after env history) name).length) ∧
    ∀ since before, Window since before →
      totals env (after env history) name since before =
        if maxTotalsBuckets < bucketsOf since before then
          .error (.control (.invalidInput
            s!"a totals window covers at most {maxTotalsBuckets} buckets of {totalsBucketMs} ms"))
        else .ok
          { definition := name
            sinceMs := Engine.bucketStart since
            beforeMs := Engine.bucketStart (before - 1) + totalsBucketMs
            runs := min ((meeting (after env history) name since before).map (·.2.runs)).sum u64Max
            annotations := (meeting (after env history) name since before).foldl
              (fun sums row => accumulate env.addFloat sums row.2.annotations.rows) .empty
            buckets := (meeting (after env history) name since before).map .of } := by
  have hcounted := counted_after env history
  have haligned := aligned_after env history
  -- The four facts about buckets hold in every store; the query is one scan, refused when it is too wide.
  refine ⟨hcounted name, fun _ _ => mem_endedIn, fun _ => bucketStart_contains, hcounted.sum, ?_⟩
  intro since before hw
  split
  · next hmany => exact totals_refused env hw hmany
  · next hfew => exact totals_ok env haligned hw (not_lt.mp hfew)

/-- A run and its child of another definition, each with an annotated answer, end in one transaction,
and another run of the first definition an hour later. -/
def twoHours : List Op :=
  let fence (id : String) : Fence := { runId := id, owner := "o", generation := 1 }
  let answer (id : String) (t : Int) : Op :=
    .saveRecord (fence id) "call" (.call "/do/0/a" "f" .null .atMostOnce (.done (.ok .null))
      (.ofList [("tokens", .number (.int 7))])) t
  let child : Admission := { Admission.plain "c" with name := "v" }
  [.start (.plain "r") 0 "o", .startChild (fence "r") child ⟨"r", "child", "/do/0/b"⟩ 1 "o",
    answer "r" 2, answer "c" 2, .cancel "r" 3, .start (.plain "s") 3600000 "o", answer "s" 3600001,
    .finish (fence "s") (.completed .null) 3600002 0, .start (.plain "u") 3600003 "o"]

/-- The two runs of the first definition are in a bucket each, and a query of one hour counts one. -/
theorem two_hours_counted :
    (((after .plain twoHours).totals "w").values.map (·.runs)).sum = 2 ∧
      (endedRuns (after .plain twoHours) "v").length = 1 ∧
      totals .plain (after .plain twoHours) "w" 7 3600000 = .ok
        { definition := "w", sinceMs := 0, beforeMs := 3600000, runs := 1
          annotations := .ofList [("tokens", .int 7)]
          buckets := [{ startMs := 0, runs := 1, annotations := .ofList [("tokens", .int 7)] }] } := by
  have hcount : (endedRuns (after .plain twoHours) "w").length = 2 := by decide +kernel
  have hmeeting : meeting (after .plain twoHours) "w" 7 3600000 =
      [(0, { runs := 1, annotations := .ofList [("tokens", .int 7)] })] := by decide +kernel
  have hfew : bucketsOf 7 3600000 = 1 := by decide +kernel
  obtain ⟨-, -, -, hsum, hread⟩ := totals_conserved .plain twoHours "w"
  refine ⟨?_, by decide +kernel, ?_⟩
  · rw [hsum (by rw [hcount]; decide), hcount]
  · have hwindow : Window 7 3600000 := ⟨by decide, by decide, by decide⟩
    rw [hread 7 3600000 hwindow, if_neg (by rw [hfew]; decide), hmeeting]
    decide +kernel

end Backend

end Ouro
