import Mathlib.Order.Basic
import Mathlib.Tactic

/-!
# Spans of time of bounded length

A `Duration` counts nanoseconds, up to as many as 64 bits of seconds and the nanoseconds of one more
hold. A product that does not fit is the longest duration (`saturatingMul`), a sum that does not fit is
none (`checkedAdd`).
-/

namespace Lib

/-- A span of time, in nanoseconds. -/
structure Duration where
  nanos : Nat
  fits : nanos < 2 ^ 64 * 10 ^ 9

namespace Duration

@[ext] theorem ext {a b : Duration} (h : a.nanos = b.nanos) : a = b := by
  cases a
  cases b
  congr

theorem nanos_injective : Function.Injective nanos := fun _ _ => ext

instance : LinearOrder Duration := LinearOrder.lift' nanos nanos_injective

theorem le_iff (a b : Duration) : a ≤ b ↔ a.nanos ≤ b.nanos := Iff.rfl

def zero : Duration := ⟨0, by decide⟩

/-- The longest duration. -/
def max : Duration := ⟨2 ^ 64 * 10 ^ 9 - 1, by decide⟩

theorem le_max (a : Duration) : a ≤ max := Nat.le_pred_of_lt a.fits

def ofMillis (ms : UInt64) : Duration :=
  ⟨ms.toNat * 10 ^ 6, by
    have hms := ms.toNat_lt
    omega⟩

/-- The multiple of a duration, or the longest one. -/
def saturatingMul (d : Duration) (k : UInt32) : Duration :=
  if h : d.nanos * k.toNat < 2 ^ 64 * 10 ^ 9 then ⟨d.nanos * k.toNat, h⟩ else max

/-- The sum of two durations, if it fits. -/
def checkedAdd (a b : Duration) : Option Duration :=
  if h : a.nanos + b.nanos < 2 ^ 64 * 10 ^ 9 then some ⟨a.nanos + b.nanos, h⟩ else none

def half (d : Duration) : Duration :=
  ⟨d.nanos / 2, by
    have hd := d.fits
    omega⟩

theorem nanos_saturatingMul (d : Duration) (k : UInt32) :
    (d.saturatingMul k).nanos = min (d.nanos * k.toNat) max.nanos := by
  unfold saturatingMul
  split
  · next h => exact (min_eq_left (Nat.le_pred_of_lt h)).symm
  · next h => exact (min_eq_right ((Nat.pred_le _).trans (not_lt.mp h))).symm

/-- A saturated multiple is no shorter, unless it is the multiple by zero. -/
theorem le_saturatingMul (d : Duration) {k : UInt32} (hk : 0 < k.toNat) : d ≤ d.saturatingMul k := by
  rw [le_iff, nanos_saturatingMul]
  exact le_min (Nat.le_mul_of_pos_right _ hk) (le_max d)

theorem checkedAdd_eq_none (a b : Duration) :
    a.checkedAdd b = none ↔ max.nanos < a.nanos + b.nanos := by
  unfold checkedAdd max
  split
  · next h => simp; omega
  · next h => simp; omega

theorem checkedAdd_eq_some (a b c : Duration) :
    a.checkedAdd b = some c ↔ c.nanos = a.nanos + b.nanos := by
  unfold checkedAdd
  have hc := c.fits
  split
  · next h =>
    rw [Option.some.injEq]
    exact ⟨fun heq => heq ▸ rfl, fun heq => ext heq.symm⟩
  · next h => simp; omega

end Duration

end Lib
