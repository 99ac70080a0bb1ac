import Mathlib.Data.String.Basic
import Mathlib.Tactic

/-!
# Text order is byte order

A store that compares the UTF-8 bytes of its keys and a program that compares their characters agree
on the order: the code of a character is not continued into the code of another one, and codes
compare as the characters do (`octets_lt_iff`).

The words that start with `q ++ [c]` are a range of the lexicographic order. It ends at `q ++ [d]` when
`d` comes next after `c` (`prefix_iff_of_next`), and with the words that start with `q` when nothing
comes after `c` (`prefix_iff_of_last`).
-/

namespace Lib

/-! ### Words that start alike -/

section Starts

variable {α : Type} [LinearOrder α]

theorem prefix_le {p s : List α} (h : p <+: s) : p ≤ s := by
  obtain ⟨t, rfl⟩ := h
  induction p with
  | nil => exact not_lt.mp (List.not_lt_nil _)
  | cons a p ih =>
    refine not_lt.mp fun hlt => ?_
    obtain ha | ⟨-, hlt⟩ := List.cons_lt_cons_iff.mp hlt
    · exact lt_irrefl a ha
    · exact ih.not_gt hlt

theorem cons_le_cons_iff (a b : α) (l m : List α) : a :: l ≤ b :: m ↔ a < b ∨ a = b ∧ l ≤ m := by
  rw [← not_lt, List.cons_lt_cons_iff, ← not_lt]
  obtain hlt | rfl | hgt := lt_trichotomy a b
  · simp [hlt, hlt.not_gt, hlt.ne']
  · simp
  · simp [hgt, hgt.not_gt, hgt.ne']

/-- What lies between two words lies below what they share. -/
theorem shared_of_between {q x y s : List α} (hle : q ++ x ≤ s) (hlt : s < q ++ y) :
    ∃ t, s = q ++ t ∧ x ≤ t ∧ t < y := by
  induction q generalizing s with
  | nil => exact ⟨s, rfl, hle, hlt⟩
  | cons a q ih =>
    cases s with
    | nil => exact absurd (List.nil_lt_cons _ _) hle.not_gt
    | cons b s =>
      rw [List.cons_append, cons_le_cons_iff] at hle
      rw [List.cons_append, List.cons_lt_cons_iff] at hlt
      -- the first letter cannot differ: it would leave the range on one side
      obtain hab | ⟨rfl, hle⟩ := hle
      · obtain hba | ⟨rfl, -⟩ := hlt
        · exact absurd hba hab.not_gt
        · exact absurd hab (lt_irrefl b)
      · obtain haa | ⟨-, hlt⟩ := hlt
        · exact absurd haa (lt_irrefl a)
        · obtain ⟨t, rfl, hx, hy⟩ := ih hle hlt
          exact ⟨t, rfl, hx, hy⟩

/-- The words that start with `q ++ [c]`, when `d` comes next after `c`. -/
theorem prefix_iff_of_next {q s : List α} {c d : α} (h : ∀ e, e < d ↔ e ≤ c) :
    q ++ [c] <+: s ↔ q ++ [c] ≤ s ∧ s < q ++ [d] := by
  constructor
  · intro hp
    refine ⟨prefix_le hp, ?_⟩
    obtain ⟨t, rfl⟩ := hp
    rw [List.append_assoc]
    exact List.append_left_lt (List.cons_lt_cons_iff.mpr (.inl ((h c).mpr le_rfl)))
  · rintro ⟨hle, hlt⟩
    obtain ⟨t, rfl, hc, hd⟩ := shared_of_between hle hlt
    cases t with
    | nil => exact absurd (List.nil_lt_cons _ _) hc.not_gt
    | cons e t =>
      have hce : c ≤ e := by
        obtain hce | ⟨rfl, -⟩ := (cons_le_cons_iff _ _ _ _).mp hc
        · exact hce.le
        · exact le_rfl
      have hed : e < d := by
        obtain hed | ⟨-, hnil⟩ := List.cons_lt_cons_iff.mp hd
        · exact hed
        · exact absurd hnil (List.not_lt_nil _)
      obtain rfl : c = e := le_antisymm hce ((h e).mp hed)
      exact ⟨t, by rw [List.append_assoc]; rfl⟩

/-- The words that start with `q ++ [c]`, when nothing comes after `c`. -/
theorem prefix_iff_of_last {q s : List α} {c : α} (h : ∀ e, e ≤ c) :
    q ++ [c] <+: s ↔ q ++ [c] ≤ s ∧ q <+: s := by
  constructor
  · intro hp
    exact ⟨prefix_le hp, (List.prefix_append q [c]).trans hp⟩
  · rintro ⟨hle, t, rfl⟩
    cases t with
    | nil =>
      refine absurd (List.append_left_lt ?_) hle.not_gt
      exact List.nil_lt_cons _ _
    | cons e t =>
      obtain hlt | rfl := (h e).lt_or_eq
      · refine absurd (List.append_left_lt ?_) hle.not_gt
        exact List.cons_lt_cons_iff.mpr (.inl hlt)
      · exact ⟨t, by rw [List.append_assoc]; rfl⟩

end Starts

namespace Utf8

/-- The UTF-8 bytes of a list of characters. -/
def encode (l : List Char) : List UInt8 := l.flatMap String.utf8EncodeChar

/-- The UTF-8 bytes of a text. -/
def octets (s : String) : List UInt8 := s.toByteArray.data.toList

@[simp] theorem encode_nil : encode [] = [] := rfl

@[simp] theorem encode_cons (c : Char) (l : List Char) :
    encode (c :: l) = String.utf8EncodeChar c ++ encode l := List.flatMap_cons

@[simp] theorem encode_append (l m : List Char) : encode (l ++ m) = encode l ++ encode m :=
  List.flatMap_append

/-- A text holds the codes of its characters. -/
theorem octets_eq (s : String) : octets s = encode s.toList := by
  rw [octets, ← String.utf8Encode_toList, List.utf8Encode, List.data_toByteArray]
  rfl

/-! ### The order of codes -/

/-- The digits of a four-byte code compare as the numbers do. -/
theorem digits_lt {m n : Nat} (h : m < n) (hn : n < 0x110000) :
    m / 262144 % 8 < n / 262144 % 8 ∨ m / 262144 % 8 = n / 262144 % 8 ∧
      (m / 4096 % 64 < n / 4096 % 64 ∨ m / 4096 % 64 = n / 4096 % 64 ∧
        (m / 64 % 64 < n / 64 % 64 ∨ m / 64 % 64 = n / 64 % 64 ∧ m % 64 < n % 64)) := by
  have hm8 : m / 262144 % 8 = m / 262144 := Nat.mod_eq_of_lt (by omega)
  have hn8 : n / 262144 % 8 = n / 262144 := Nat.mod_eq_of_lt (by omega)
  rw [hm8, hn8]
  omega

/-- A digit under its marker fits a byte. -/
theorem marked (k : Nat) {j l : Nat} (hj : 0 < j) (h : j + l ≤ 256) : (k % j + l) % 256 = k % j + l := by
  have hk := Nat.mod_lt k hj
  exact Nat.mod_eq_of_lt (by omega)

theorem toNat_lt (c : Char) : c.val.toNat < 0x110000 := by
  obtain h | h := c.valid
  · have h' : c.val.toNat < 0xd800 := h
    omega
  · exact h.2

/-- Codes compare as their characters, whatever follows them. -/
theorem code_lt {c d : Char} (h : c < d) (x y : List UInt8) :
    String.utf8EncodeChar c ++ x < String.utf8EncodeChar d ++ y := by
  have hlt : c.val.toNat < d.val.toNat := h
  have hd := toNat_lt d
  dsimp only [String.utf8EncodeChar]
  generalize c.val.toNat = m at *
  generalize d.val.toNat = n at *
  have hdigits := digits_lt hlt hd
  -- by the two lengths; at different lengths the first bytes decide
  split_ifs <;>
    simp only [List.cons_append, List.nil_append, List.cons_lt_cons_iff, UInt8.lt_iff_toNat_lt,
      ← UInt8.toNat_inj, UInt8.toNat_ofNat', Nat.reducePow, marked _ (show 0 < 64 by omega)
      (show 64 + 128 ≤ 256 by omega), marked _ (show 0 < 32 by omega) (show 32 + 192 ≤ 256 by omega),
      marked _ (show 0 < 16 by omega) (show 16 + 224 ≤ 256 by omega),
      marked _ (show 0 < 8 by omega) (show 8 + 240 ≤ 256 by omega)] <;>
    omega

theorem append_lt_append_iff (x y z : List UInt8) : x ++ y < x ++ z ↔ y < z := by
  induction x with
  | nil => rfl
  | cons b x ih =>
    rw [List.cons_append, List.cons_append, List.cons_lt_cons_iff, ih]
    have hb : ¬b < b := by simp
    simp [hb]

/-! ### The order of texts -/

theorem encode_lt {l m : List Char} (h : l < m) : encode l < encode m := by
  induction l generalizing m with
  | nil =>
    cases m with
    | nil => exact absurd h (List.lt_irrefl _)
    | cons d m =>
      rw [encode_cons, encode_nil]
      cases hd : String.utf8EncodeChar d with
      | nil => exact absurd hd String.utf8EncodeChar_ne_nil
      | cons b r => exact List.nil_lt_cons _ _
  | cons c l ih =>
    cases m with
    | nil => exact absurd h (List.not_lt_nil _)
    | cons d m =>
      rw [encode_cons, encode_cons]
      obtain hcd | ⟨rfl, hlm⟩ := List.cons_lt_cons_iff.mp h
      · exact code_lt hcd _ _
      · exact (append_lt_append_iff _ _ _).mpr (ih hlm)

theorem encode_lt_iff (l m : List Char) : encode l < encode m ↔ l < m := by
  constructor
  · intro h
    obtain hlt | rfl | hgt := lt_trichotomy l m
    · exact hlt
    · exact absurd h (List.lt_irrefl _)
    · exact absurd h (List.lt_asymm (encode_lt hgt))
  · exact encode_lt

/-- The order of texts is the order of their bytes. -/
theorem octets_lt_iff (s t : String) : octets s < octets t ↔ s < t := by
  rw [octets_eq, octets_eq, encode_lt_iff, String.lt_iff_toList_lt]

end Utf8

end Lib
