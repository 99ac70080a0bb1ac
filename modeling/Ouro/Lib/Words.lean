import Mathlib.Data.List.Basic
import Mathlib.Data.Set.Basic
import Mathlib.Tactic

/-!
# Words that end themselves

A text printed from parts can be taken apart again when no part can be continued into another one.
A word `Decodes` in a language when no other word of the language begins the same text, provided that
what follows each starts with a letter that ends a word (`Closes`).

Three ways to print keep this: words without the ending letters (`decodes_of_letters`), an escaped text
between quotes (`escaped_inj`), and a list of words with a separator and a closing letter
(`separated_inj`).
-/

namespace Lib

namespace Words

variable {α : Type}

/-- What follows a word: nothing, or a text whose first letter ends a word. -/
def Closes (stop : α → Prop) (r : List α) : Prop := ∀ c t, r = c :: t → stop c

/-- No other word of the language begins the same text as `x`, each followed by its own ending. -/
def Decodes (stop : α → Prop) (L : Set (List α)) (x : List α) : Prop :=
  ∀ y ∈ L, ∀ r s, Closes stop r → Closes stop s → x ++ r = y ++ s → x = y

theorem closes_nil (stop : α → Prop) : Closes stop [] := by
  intro c t h
  cases h

theorem closes_cons {stop : α → Prop} {c : α} (h : stop c) (t : List α) : Closes stop (c :: t) := by
  intro c' t' heq
  injection heq with hc _
  exact hc ▸ h

/-- A word that ends where its letters end: no letter of the words is one that ends them. -/
theorem decodes_of_letters {stop : α → Prop} {L : Set (List α)} {x : List α} (hx : ∀ c ∈ x, ¬stop c)
    (hL : ∀ y ∈ L, ∀ c ∈ y, ¬stop c) : Decodes stop L x := by
  intro y hy r s hr hs heq
  obtain ⟨t, hyt, hrt⟩ | ⟨t, hxt, hst⟩ := List.append_eq_append_iff.mp heq
  · cases t with
    | nil => simpa using hyt.symm
    | cons c t =>
      -- the next letter of `y` ends `x`
      refine absurd (hr c _ hrt) (hL y hy c ?_)
      rw [hyt]
      simp
  · cases t with
    | nil => simpa using hxt
    | cons c t =>
      refine absurd (hs c _ hst) (hx c ?_)
      rw [hxt]
      simp

/-! ### Escaped text -/

/-- An escaped text ends at its closing quote: the escapes of letters are told apart, and none starts
with the quote. -/
theorem escaped_inj {escape : α → List α} {quote : α}
    (hinj : ∀ a b r s, escape a ++ r = escape b ++ s → a = b)
    (hquote : ∀ a r s, escape a ++ r ≠ quote :: s) {x y r s : List α}
    (h : x.flatMap escape ++ quote :: r = y.flatMap escape ++ quote :: s) : x = y ∧ r = s := by
  induction x generalizing y with
  | nil =>
    cases y with
    | nil => simpa using h
    | cons b y =>
      rw [List.flatMap_cons, List.append_assoc] at h
      exact absurd h.symm (hquote b _ _)
  | cons a x ih =>
    rw [List.flatMap_cons, List.append_assoc] at h
    cases y with
    | nil => exact absurd h (hquote a _ _)
    | cons b y =>
      rw [List.flatMap_cons, List.append_assoc] at h
      have hab : a = b := hinj a b _ _ h
      subst hab
      obtain ⟨hxy, hrs⟩ := ih (List.append_cancel_left h)
      exact ⟨by rw [hxy], hrs⟩

/-! ### Lists with a separator -/

/-- The rest of a printed list: each word after its separator. -/
def following (sep : α) (xs : List (List α)) : List α := xs.flatMap (sep :: ·)

theorem intercalate_cons (sep : α) (x : List α) (xs : List (List α)) :
    [sep].intercalate (x :: xs) = x ++ following sep xs := by
  induction xs generalizing x with
  | nil => simp [following]
  | cons y xs ih =>
    rw [List.intercalate_cons_cons, ih]
    simp [following]

section Separated

variable {stop : α → Prop} {L : Set (List α)} {sep close : α} {xs ys : List (List α)} {r s : List α}

theorem closes_following (hsep : stop sep) (hclose : stop close) (xs : List (List α)) (r : List α) :
    Closes stop (following sep xs ++ close :: r) := by
  cases xs with
  | nil => exact closes_cons hclose r
  | cons x xs => exact closes_cons hsep _

theorem following_inj (hsep : stop sep) (hclose : stop close) (hne : sep ≠ close)
    (hxs : ∀ x ∈ xs, Decodes stop L x) (hys : ∀ y ∈ ys, y ∈ L)
    (h : following sep xs ++ close :: r = following sep ys ++ close :: s) : xs = ys ∧ r = s := by
  induction xs generalizing ys with
  | nil =>
    cases ys with
    | nil => simpa [following] using h
    | cons y ys =>
      simp only [following, List.flatMap_nil, List.nil_append, List.flatMap_cons, List.cons_append,
        List.cons.injEq] at h
      exact absurd h.1.symm hne
  | cons x xs ih =>
    cases ys with
    | nil =>
      simp only [following, List.flatMap_nil, List.nil_append, List.flatMap_cons, List.cons_append,
        List.cons.injEq] at h
      exact absurd h.1 hne
    | cons y ys =>
      have hrest : x ++ (following sep xs ++ close :: r) = y ++ (following sep ys ++ close :: s) := by
        simpa [following] using h
      have hxy : x = y := hxs x List.mem_cons_self y (hys y List.mem_cons_self) _ _
        (closes_following hsep hclose xs r) (closes_following hsep hclose ys s) hrest
      subst hxy
      obtain ⟨hlist, hrs⟩ := ih (fun x hx => hxs x (List.mem_cons_of_mem _ hx))
        (fun y hy => hys y (List.mem_cons_of_mem _ hy)) (List.append_cancel_left hrest)
      exact ⟨by rw [hlist], hrs⟩

/-- A printed list determines its words: each ends where the separator or the closing letter follows,
and none starts with the closing letter. -/
theorem separated_inj (hsep : stop sep) (hclose : stop close) (hne : sep ≠ close)
    (hstart : ∀ y ∈ L, ∀ t s, y ++ t ≠ close :: s) (hxs : ∀ x ∈ xs, x ∈ L ∧ Decodes stop L x)
    (hys : ∀ y ∈ ys, y ∈ L)
    (h : [sep].intercalate xs ++ close :: r = [sep].intercalate ys ++ close :: s) :
    xs = ys ∧ r = s := by
  cases xs with
  | nil =>
    cases ys with
    | nil => simpa using h
    | cons y ys =>
      rw [intercalate_cons, List.append_assoc] at h
      exact absurd h.symm (hstart y (hys y List.mem_cons_self) _ _)
  | cons x xs =>
    rw [intercalate_cons, List.append_assoc] at h
    cases ys with
    | nil => exact absurd h (hstart x (hxs x List.mem_cons_self).1 _ _)
    | cons y ys =>
      rw [intercalate_cons, List.append_assoc] at h
      have hxy : x = y := (hxs x List.mem_cons_self).2 y (hys y List.mem_cons_self) _ _
        (closes_following hsep hclose xs r) (closes_following hsep hclose ys s) h
      subst hxy
      obtain ⟨hlist, hrs⟩ := following_inj hsep hclose hne
        (fun x hx => (hxs x (List.mem_cons_of_mem _ hx)).2)
        (fun y hy => hys y (List.mem_cons_of_mem _ hy)) (List.append_cancel_left h)
      exact ⟨by rw [hlist], hrs⟩

end Separated

/-! ### Tags and numbers -/

/-- Texts that start with tags, none of which begins another, are told apart by them. -/
theorem tag_inj {ι : Type} {tag : ι → List α} (hfree : ∀ c d, tag c <+: tag d → c = d) {c d : ι}
    {r s : List α} (h : tag c ++ r = tag d ++ s) : c = d ∧ r = s := by
  have hcd : c = d := by
    rcases List.prefix_or_prefix_of_prefix ⟨r, h⟩ ⟨s, rfl⟩ with hpre | hpre
    · exact hfree c d hpre
    · exact (hfree d c hpre).symm
  subst hcd
  exact ⟨rfl, List.append_cancel_left h⟩

theorem toDigits_injective : Function.Injective (Nat.toDigits 10) := by
  intro a b h
  have hvalue := congrArg (Nat.ofDigitChars 10 · 0) h
  simpa only [Nat.ofDigitChars_toDigits (b := 10) (by decide) (by decide)] using hvalue

/-- A number ends at the first letter that is no digit. -/
theorem digits_inj {a b : Nat} {c d : Char} {r s : List Char} (hc : ¬c.isDigit) (hd : ¬d.isDigit)
    (h : Nat.toDigits 10 a ++ c :: r = Nat.toDigits 10 b ++ d :: s) : a = b ∧ c = d ∧ r = s := by
  have hletters : ∀ y ∈ Set.range (Nat.toDigits 10), ∀ c ∈ y, ¬¬(c.isDigit = true) := by
    rintro _ ⟨n, rfl⟩ c hc
    exact not_not.mpr (Nat.isDigit_of_mem_toDigits (by decide) (by decide) hc)
  have hdecodes : Decodes (fun c : Char => ¬(c.isDigit = true)) (Set.range (Nat.toDigits 10))
      (Nat.toDigits 10 a) := decodes_of_letters (hletters _ ⟨a, rfl⟩) hletters
  have hr : Closes (fun c : Char => ¬(c.isDigit = true)) (c :: r) := by
    refine closes_cons ?_ r
    exact hc
  have hs : Closes (fun c : Char => ¬(c.isDigit = true)) (d :: s) := by
    refine closes_cons ?_ s
    exact hd
  have heq : Nat.toDigits 10 a = Nat.toDigits 10 b := hdecodes _ ⟨b, rfl⟩ _ _ hr hs h
  rw [heq] at h
  exact ⟨toDigits_injective heq, List.cons.inj (List.append_cancel_left h)⟩

/-- The same, read from the end. -/
theorem digits_reverse_inj {a b : Nat} {c d : Char} {r s : List Char} (hc : ¬c.isDigit) (hd : ¬d.isDigit)
    (h : (Nat.toDigits 10 a).reverse ++ c :: r = (Nat.toDigits 10 b).reverse ++ d :: s) :
    a = b ∧ c = d ∧ r = s := by
  have hletters : ∀ y ∈ Set.range fun n => (Nat.toDigits 10 n).reverse, ∀ c ∈ y,
      ¬¬(c.isDigit = true) := by
    rintro _ ⟨n, rfl⟩ c hc
    exact not_not.mpr (Nat.isDigit_of_mem_toDigits (by decide) (by decide) (List.mem_reverse.mp hc))
  have hdecodes : Decodes (fun c : Char => ¬(c.isDigit = true))
      (Set.range fun n => (Nat.toDigits 10 n).reverse) (Nat.toDigits 10 a).reverse :=
    decodes_of_letters (hletters _ ⟨a, rfl⟩) hletters
  have hr : Closes (fun c : Char => ¬(c.isDigit = true)) (c :: r) := by
    refine closes_cons ?_ r
    exact hc
  have hs : Closes (fun c : Char => ¬(c.isDigit = true)) (d :: s) := by
    refine closes_cons ?_ s
    exact hd
  have heq : (Nat.toDigits 10 a).reverse = (Nat.toDigits 10 b).reverse :=
    hdecodes _ ⟨b, rfl⟩ _ _ hr hs h
  rw [heq] at h
  exact ⟨toDigits_injective (List.reverse_injective heq), List.cons.inj (List.append_cancel_left h)⟩

end Words

end Lib
