import Ouro.Backend.Totals
import Ouro.Lib.Utf8

/-!
# Keys of instants at their own widths

The keys that order rows by time, over the 64-bit words of the source: an instant with its sign bit
flipped, in sixteen hexadecimal digits. The queries write the same texts over unbounded integers
(`timeKey_eq`), and the store keeps the rows of a kind by instant and id.

Rows are compared by the bytes of their keys. `keys_in_time` says that this is the order of the instants,
over the whole of their range, and then of what stands behind them.
-/

namespace Ouro

open Lib

namespace Backend

namespace Keys

/-- Flips the sign bit so that the order of texts also covers negative instants. -/
def timeKey (ms : Int64) : String := Engine.hex16 (ms ^^^ Int64.minValue).toUInt64.toNat

def timed (ms : Int64) (id : String) : String := timeKey ms ++ ":" ++ id

/-- The exclusive end of a range of timed keys up to `ms` inclusive. -/
def until_ (ms : Int64) : String := timeKey ms ++ ";"

/-- Copies are keyed by their fixed-width sequence, so ranges keep arrival order. -/
def sequence (n : UInt64) : String := Engine.hex16 n.toNat

/-- The key of a pending copy by expiry. A copy that never expires sorts after every instant. -/
def live (expiresAtMs : Option Int64) (n : UInt64) : String :=
  expiresAtMs.elim ("~:" ++ sequence n) fun at_ => timed at_ (sequence n)

/-- The instant a key was made of, as a query of totals reads it. -/
def startOf (k : String) : Except String Int64 :=
  (fun n : Nat => (UInt64.ofNat n).toInt64 ^^^ Int64.minValue) <$> fromHex k

/-! ### The sign bit -/

theorem xor_two_pow_63 {x : Nat} (h : x < 2 ^ 64) :
    x ^^^ 2 ^ 63 = if x < 2 ^ 63 then x + 2 ^ 63 else x - 2 ^ 63 := by
  have hdiv : (x ^^^ 2 ^ 63) / 2 ^ 63 = x / 2 ^ 63 ^^^ 1 := Nat.xor_div_two_pow
  have hmod : (x ^^^ 2 ^ 63) % 2 ^ 63 = x % 2 ^ 63 := by
    rw [Nat.xor_mod_two_pow, Nat.mod_self, Nat.xor_zero]
  generalize x ^^^ 2 ^ 63 = y at *
  split
  · next hlt =>
    have hbit : x / 2 ^ 63 = 0 := by omega
    rw [hbit, Nat.zero_xor] at hdiv
    omega
  · next hge =>
    have hbit : x / 2 ^ 63 = 1 := by omega
    rw [hbit, Nat.xor_self] at hdiv
    omega

/-- Flipping the sign bit moves the range of instants to the one of unsigned words. -/
theorem flip_toNat (ms : Int64) :
    (ms ^^^ Int64.minValue).toUInt64.toNat = (ms.toInt + 2 ^ 63).toNat := by
  have hflip : (ms ^^^ Int64.minValue).toUInt64.toNat = ms.toBitVec.toNat ^^^ 2 ^ 63 := by
    rw [← Int64.toNat_toBitVec, Int64.toBitVec_xor, BitVec.toNat_xor]
    rfl
  have hlt := ms.toBitVec.isLt
  have hint : ms.toInt = (ms.toBitVec.toNat : Int).bmod (2 ^ 64) := by
    rw [← Int64.toInt_toBitVec, BitVec.toInt_eq_toNat_bmod]
  rw [hflip, xor_two_pow_63 hlt, hint, Int.bmod_def]
  split <;> omega

theorem timeKey_eq (ms : Int64) : timeKey ms = Operation.timeKey ms.toInt := by
  rw [timeKey, flip_toNat, Operation.timeKey]

/-- An instant is read back from its key. -/
theorem startOf_timeKey (ms : Int64) : startOf (timeKey ms) = .ok ms := by
  have hread : startOfKey (timeKey ms) = .ok ms.toInt := by
    rw [timeKey_eq]
    exact startOfKey_timeKey ms.le_toInt (Int.le_sub_one_of_lt ms.toInt_lt)
  unfold startOfKey at hread
  unfold startOf
  cases hhex : fromHex (timeKey ms) with
  | error e =>
    rw [hhex] at hread
    exact absurd hread (by simp)
  | ok n =>
    rw [hhex] at hread
    have hn : n = (ms ^^^ Int64.minValue).toUInt64.toNat := by
      have hsub : (n : Int) - 2 ^ 63 = ms.toInt := Except.ok.inj hread
      rw [flip_toNat]
      omega
    rw [hn]
    change Except.ok ((UInt64.ofNat _).toInt64 ^^^ Int64.minValue) = Except.ok ms
    rw [UInt64.ofNat_toNat, Int64.toInt64_toUInt64, Int64.xor_assoc, Int64.xor_self, Int64.xor_zero]

/-! ### The order of keys -/

/-- Keys compare by their instants, and then by what follows them. -/
theorem timeKey_append_lt_iff (a b : Int64) (s t : String) :
    timeKey a ++ s < timeKey b ++ t ↔ a < b ∨ a = b ∧ s < t := by
  have ha := a.toInt_lt
  have ha' := a.le_toInt
  have hb := b.toInt_lt
  have hb' := b.le_toInt
  have h := digits_append_lt_iff (w := 16) (a := (a.toInt + 2 ^ 63).toNat)
    (b := (b.toInt + 2 ^ 63).toNat) (s := s.toList) (t := t.toList)
  rw [Nat.mod_eq_of_lt (by omega), Nat.mod_eq_of_lt (by omega)] at h
  rw [timeKey_eq, timeKey_eq]
  unfold Operation.timeKey Engine.hex16
  simp only [String.lt_iff_toList_lt, String.toList_append, String.toList_ofList]
  rw [h, Int64.lt_iff_toInt_lt, ← Int64.toInt_inj]
  refine or_congr (by omega) (and_congr_left fun _ => by omega)

theorem timeKey_lt_iff (a b : Int64) : timeKey a < timeKey b ↔ a < b := by
  have h := timeKey_append_lt_iff a b "" ""
  simpa using h

/-- Timed keys compare by instant and then by id. -/
theorem timed_lt_iff (a b : Int64) (x y : String) :
    timed a x < timed b y ↔ a < b ∨ a = b ∧ x < y := by
  have hcolon : ":" ++ x < ":" ++ y ↔ x < y := by
    rw [String.lt_iff_toList_lt, String.lt_iff_toList_lt, String.toList_append, String.toList_append]
    change ':' :: x.toList < ':' :: y.toList ↔ x.toList < y.toList
    rw [List.cons_lt_cons_iff]
    simp
  unfold timed
  rw [String.append_assoc, String.append_assoc, timeKey_append_lt_iff, hcolon]

/-- The keys up to an instant are those of the instants up to it: the end of the range comes after
every separator. -/
theorem timed_lt_until_iff (a b : Int64) (x : String) : timed a x < until_ b ↔ a ≤ b := by
  have hcolon : ":" ++ x < ";" := by
    rw [String.lt_iff_toList_lt, String.toList_append]
    exact List.cons_lt_cons_iff.mpr (.inl (by decide))
  unfold timed until_
  rw [String.append_assoc, timeKey_append_lt_iff, Int64.le_iff_lt_or_eq]
  simp [hcolon]

/-- A copy that never expires comes after every timed key. -/
theorem timed_lt_live_none (a : Int64) (x : String) (n : UInt64) : timed a x < live none n := by
  have hdigit : ∀ d < 16, hexDigit d < '~' := by decide
  have hrange : (List.range 16).reverse = 15 :: (List.range 15).reverse := by decide
  unfold timed live timeKey Engine.hex16
  simp only [String.lt_iff_toList_lt, String.toList_append, String.toList_ofList, Option.elim_none,
    hrange, List.map_cons, List.cons_append]
  exact List.cons_lt_cons_iff.mpr (.inl (hdigit _ (Nat.mod_lt _ (by decide))))

/-- Rows are in the order of time, at every instant of 64 bits and for every text behind it: keys are in
the order of their instants, timed keys in the order of instants and then of ids, the range up to an
instant holds the timed keys of the instants up to it, a copy that never expires comes last, and an
instant is read back from its key. -/
theorem keys_in_time (a b : Int64) (x y : String) (n : UInt64) :
    (Utf8.octets (timeKey a) < Utf8.octets (timeKey b) ↔ a < b) ∧
      (Utf8.octets (timed a x) < Utf8.octets (timed b y) ↔ a < b ∨ a = b ∧ Utf8.octets x < Utf8.octets y) ∧
      (Utf8.octets "" ≤ Utf8.octets (timed a x) ∧ Utf8.octets (timed a x) < Utf8.octets (until_ b) ↔ a ≤ b) ∧
      Utf8.octets (timed a x) < Utf8.octets (live none n) ∧ startOf (timeKey a) = .ok a := by
  simp only [Utf8.octets_lt_iff]
  refine ⟨timeKey_lt_iff a b, timed_lt_iff a b x y, ?_, timed_lt_live_none a x n, startOf_timeKey a⟩
  rw [timed_lt_until_iff]
  exact and_iff_right (List.nil_le _)

end Keys

end Backend

end Ouro
