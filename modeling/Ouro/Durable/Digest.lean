import Ouro.Lib.Words
import Ouro.Durable.Admission

/-!
# The digest of a definition

The digest that identifies a definition's content: the SHA-256 of a canonical form of its text. A text
that parses is written as compact JSON with every object's keys sorted, under the prefix `yaml:`; any
other text is hashed as it is, under `raw:`.

The parser and the hash are parameters: `parse` is what the YAML parser yields for a text, and `sha256`
the hash of a text's bytes.
-/

namespace Ouro

open Lib Words

/-! ### Values with unordered objects -/

/-- A number as `serde_json` prints it. -/
def Number.token : Number → String
  | .int n => toString n
  | .float token => token

/-- A letter of a printed number. -/
def numeric (c : Char) : Bool := c.isDigit || c == '-' || c == '+' || c == '.' || c == 'e' || c == 'E'

/-- A floating point number's token is that of a printed number. -/
def Number.Printed (n : Number) : Prop := n.token ≠ "" ∧ ∀ c ∈ n.token.toList, numeric c = true

theorem Number.printed_nat (n : Nat) : toString n ≠ "" ∧ ∀ c ∈ (toString n).toList, numeric c = true := by
  have hdigits : (toString n).toList = Nat.toDigits 10 n := Nat.toList_repr
  constructor
  · intro h
    rw [h] at hdigits
    exact Nat.toDigits_ne_nil hdigits.symm
  · intro c hc
    rw [hdigits] at hc
    simp [numeric, Nat.isDigit_of_mem_toDigits (by decide) (by decide) hc]

/-- An integer is printed as a number. -/
theorem Number.printed_int (n : Int) : (Number.int n).Printed := by
  cases n with
  | ofNat n => exact Number.printed_nat n
  | negSucc n =>
    have htoken : (Number.int (Int.negSucc n)).token = "-" ++ toString n.succ := rfl
    obtain ⟨-, hnumeric⟩ := Number.printed_nat n.succ
    unfold Number.Printed
    rw [htoken]
    refine ⟨by simp, fun c hc => ?_⟩
    rw [String.toList_append, List.mem_append] at hc
    rcases hc with hc | hc
    · obtain rfl : c = '-' := by simpa using hc
      rfl
    · exact hnumeric c hc

namespace Json

/-- A document as the parser yields it: the keys of every object are distinct, in any order, and its
numbers have tokens. -/
inductive WellFormed : Json → Prop where
  | null : WellFormed .null
  | bool (b : Bool) : WellFormed (.bool b)
  | num {n : Number} (h : n.Printed) : WellFormed (.num n)
  | str (s : String) : WellFormed (.str s)
  | arr {items : List Json} (h : ∀ v ∈ items, WellFormed v) : WellFormed (.arr items)
  | obj {members : List (String × Json)} (hkeys : (members.map Prod.fst).Nodup)
      (h : ∀ m ∈ members, WellFormed m.2) : WellFormed (.obj members)

/-- Equality of values with objects as unordered maps and numbers by their tokens. -/
inductive Same : Json → Json → Prop where
  | null : Same .null .null
  | bool (b : Bool) : Same (.bool b) (.bool b)
  | num {n m : Number} (h : n.token = m.token) : Same (.num n) (.num m)
  | str (s : String) : Same (.str s) (.str s)
  | arr {items items' : List Json} (hlen : items.length = items'.length)
      (h : ∀ p ∈ items.zip items', Same p.1 p.2) : Same (.arr items) (.arr items')
  | obj {members members' : List (String × Json)}
      (hkeys : ∀ k, k ∈ members.map Prod.fst ↔ k ∈ members'.map Prod.fst)
      (h : ∀ (k : String) (v v' : Json), (k, v) ∈ members → (k, v') ∈ members' → Same v v') :
      Same (.obj members) (.obj members')

end Json

/-- A parsed document. -/
structure Document where
  value : Json
  wellFormed : value.WellFormed

/-! ### Writing -/

namespace Digest

/-- A hexadecimal digit, in lower case. -/
def hexDigit (n : Nat) : Char := if n < 10 then Char.ofNat (48 + n) else Char.ofNat (87 + n)

/-- A letter inside a JSON string. -/
def escape (c : Char) : List Char :=
  if c = '\x22' then ['\\', '\x22']
  else if c = '\\' then ['\\', '\\']
  else if c = '\x08' then ['\\', 'b']
  else if c = '\x09' then ['\\', 't']
  else if c = '\x0a' then ['\\', 'n']
  else if c = '\x0c' then ['\\', 'f']
  else if c = '\x0d' then ['\\', 'r']
  else if c.toNat < 32 then ['\\', 'u', '0', '0', hexDigit (c.toNat / 16), hexDigit (c.toNat % 16)]
  else [c]

/-- A JSON string (`Value::String(s).to_string()`). -/
def quoted (s : String) : String := String.ofList ('\x22' :: (s.toList.flatMap escape ++ ['\x22']))

/-- The members of an object in the order of their keys. -/
def sorted (members : List (String × String)) : List (String × String) :=
  members.insertionSort fun m m' => m.1 ≤ m'.1

mutual

/-- The canonical form: compact JSON with every object's keys sorted. -/
def canonical : Json → String
  | .null => "null"
  | .bool true => "true"
  | .bool false => "false"
  | .num n => n.token
  | .str s => quoted s
  | .arr items => "[" ++ ",".intercalate (canonicalItems items) ++ "]"
  | .obj members =>
    "\x7b" ++ ",".intercalate ((sorted (canonicalMembers members)).map fun m =>
      quoted m.1 ++ ":" ++ m.2) ++ "\x7d"

/-- The items of an array. -/
def canonicalItems : List Json → List String
  | [] => []
  | v :: items => canonical v :: canonicalItems items

/-- The members of an object, each value in canonical form. -/
def canonicalMembers : List (String × Json) → List (String × String)
  | [] => []
  | (k, v) :: members => (k, canonical v) :: canonicalMembers members

end

/-- The text that is hashed for a definition. -/
def hashed (parse : String → Option Document) (yaml : String) : String :=
  match parse yaml with
  | some document => "yaml:" ++ canonical document.value
  | none => "raw:" ++ yaml

/-- A byte in lower case hexadecimal. -/
def hex (b : UInt8) : List Char := [hexDigit (b.toNat / 16), hexDigit (b.toNat % 16)]

/-- The content digest of a definition. -/
def digestOf (parse : String → Option Document) (sha256 : ByteArray → List UInt8) (yaml : String) :
    String :=
  String.ofList ((sha256 (hashed parse yaml).toUTF8).flatMap hex)

/-! ### Strings -/

/-- The value of a hexadecimal digit in lower case. -/
def hexValue (c : Char) : Nat := if c.toNat < 58 then c.toNat - 48 else c.toNat - 87

/-- The letter an escape at the front of a text stands for. -/
def unescape : List Char → Char
  | '\\' :: 'u' :: _ :: _ :: a :: b :: _ => Char.ofNat (16 * hexValue a + hexValue b)
  | '\\' :: 'b' :: _ => '\x08'
  | '\\' :: 't' :: _ => '\x09'
  | '\\' :: 'n' :: _ => '\x0a'
  | '\\' :: 'f' :: _ => '\x0c'
  | '\\' :: 'r' :: _ => '\x0d'
  | '\\' :: c :: _ => c
  | c :: _ => c
  | [] => '\x00'

theorem hexValue_control (n : Fin 32) :
    16 * hexValue (hexDigit (n.val / 16)) + hexValue (hexDigit (n.val % 16)) = n.val := by
  revert n
  decide

theorem unescape_escape (c : Char) (r : List Char) : unescape (escape c ++ r) = c := by
  unfold escape
  split_ifs with h₁ h₂ h₃ h₄ h₅ h₆ h₇ h₈
  · exact h₁.symm
  · exact h₂.symm
  · exact h₃.symm
  · exact h₄.symm
  · exact h₅.symm
  · exact h₆.symm
  · exact h₇.symm
  · show Char.ofNat _ = c
    rw [hexValue_control ⟨c.toNat, h₈⟩, Char.ofNat_toNat]
  · unfold unescape
    split <;> simp_all

/-- The escapes of two letters are told apart. -/
theorem escape_inj (a b : Char) (r s : List Char) (h : escape a ++ r = escape b ++ s) : a = b := by
  rw [← unescape_escape a r, h, unescape_escape]

theorem escape_ne_quote (a : Char) (r s : List Char) : escape a ++ r ≠ '\x22' :: s := by
  unfold escape
  split_ifs with h₁ <;> simp
  exact fun heq => absurd heq h₁

theorem quoted_inj {k l : String} {r s : List Char}
    (h : (quoted k).toList ++ r = (quoted l).toList ++ s) : k = l ∧ r = s := by
  have hbody : k.toList.flatMap escape ++ '\x22' :: r = l.toList.flatMap escape ++ '\x22' :: s := by
    simpa [quoted] using h
  obtain ⟨hkl, hrs⟩ := escaped_inj escape_inj escape_ne_quote hbody
  exact ⟨String.toList_injective hkl, hrs⟩

/-! ### Values -/

/-- The kinds of values, which the first letter of their texts tells apart. -/
inductive Kind where
  | null | bool | num | str | arr | obj
deriving DecidableEq

def kind : Json → Kind
  | .null => .null
  | .bool _ => .bool
  | .num _ => .num
  | .str _ => .str
  | .arr _ => .arr
  | .obj _ => .obj

def kindOf (c : Char) : Kind :=
  if c = 'n' then .null
  else if c = 't' ∨ c = 'f' then .bool
  else if c = '\x22' then .str
  else if c = '[' then .arr
  else if c = '\x7b' then .obj
  else .num

theorem kindOf_numeric {c : Char} (h : numeric c = true) : kindOf c = .num := by
  have hne : ∀ d, numeric d = false → c ≠ d := by
    intro d hd heq
    rw [heq, hd] at h
    exact absurd h (by decide)
  simp [kindOf, hne 'n' (by decide), hne 't' (by decide), hne 'f' (by decide),
    hne '\x22' (by decide), hne '[' (by decide), hne '\x7b' (by decide)]

/-- The first letter of a canonical text is that of a value of its kind. -/
theorem canonical_head {v : Json} (h : v.WellFormed) :
    ∃ c t, (canonical v).toList = c :: t ∧ kindOf c = kind v := by
  cases h with
  | null => exact ⟨_, _, rfl, rfl⟩
  | bool b => cases b <;> exact ⟨_, _, rfl, rfl⟩
  | @num n h =>
    obtain ⟨hne, hnumeric⟩ := h
    obtain ⟨c, t, hct⟩ : ∃ c t, n.token.toList = c :: t := by
      apply List.exists_cons_of_ne_nil
      simpa using hne
    refine ⟨c, t, by simpa [canonical] using hct, kindOf_numeric (hnumeric c ?_)⟩
    rw [hct]
    exact List.mem_cons_self
  | str s => exact ⟨'\x22', _, by simp [canonical, quoted]; rfl, rfl⟩
  | arr => exact ⟨'[', _, by simp [canonical]; rfl, rfl⟩
  | obj => exact ⟨'\x7b', _, by simp [canonical]; rfl, rfl⟩

theorem map_eq_map_iff_zip {α β : Type} (f : α → β) {l l' : List α} (hlen : l.length = l'.length) :
    l.map f = l'.map f ↔ ∀ p ∈ l.zip l', f p.1 = f p.2 := by
  rw [← List.forall₂_eq_eq_eq, List.forall₂_map_left_iff, List.forall₂_map_right_iff,
    List.forall₂_iff_zip]
  simp [hlen]

theorem canonicalItems_eq (items : List Json) : canonicalItems items = items.map canonical := by
  induction items with
  | nil => rfl
  | cons v items ih => rw [canonicalItems, ih, List.map_cons]

theorem canonicalMembers_eq (members : List (String × Json)) :
    canonicalMembers members = members.map fun m => (m.1, canonical m.2) := by
  induction members with
  | nil => rfl
  | cons m members ih => rw [canonicalMembers, ih, List.map_cons]

theorem keys_canonicalMembers (members : List (String × Json)) :
    (canonicalMembers members).map Prod.fst = members.map Prod.fst := by
  rw [canonicalMembers_eq, List.map_map]
  rfl

theorem mem_canonicalMembers {members : List (String × Json)} {k w : String} :
    (k, w) ∈ canonicalMembers members ↔ ∃ v, (k, v) ∈ members ∧ canonical v = w := by
  rw [canonicalMembers_eq, List.mem_map]
  constructor
  · rintro ⟨⟨k', v⟩, hmem, heq⟩
    injection heq with hk hw
    exact ⟨v, hk ▸ hmem, hw⟩
  · rintro ⟨v, hmem, hw⟩
    exact ⟨(k, v), hmem, by rw [hw]⟩

/-- The order of the members does not matter where their keys are distinct. -/
theorem sorted_eq_of_perm {l l' : List (String × String)} (h : l.Perm l')
    (hkeys : (l.map Prod.fst).Nodup) : sorted l = sorted l' := by
  have hsorted : ∀ l, (sorted l).Pairwise fun m m' => m.1 ≤ m'.1 := by
    intro l
    have : Std.Total fun m m' : String × String => m.1 ≤ m'.1 := ⟨fun m m' => le_total m.1 m'.1⟩
    have : IsTrans (String × String) fun m m' => m.1 ≤ m'.1 := ⟨fun _ _ _ => le_trans⟩
    exact List.pairwise_insertionSort _ l
  have hperm : ∀ l, (sorted l).Perm l := fun l => List.perm_insertionSort _ l
  refine List.Perm.eq_of_pairwise ?_ (hsorted l) (hsorted l')
    ((hperm l).trans (h.trans (hperm l').symm))
  intro m m' hm hm' hle hle'
  -- two members with one key are one member
  have hmem : m ∈ l := (hperm l).mem_iff.mp hm
  have hmem' : m' ∈ l := h.mem_iff.mpr ((hperm l').mem_iff.mp hm')
  exact List.inj_on_of_nodup_map hkeys hmem hmem' (le_antisymm hle hle')

/-- Values equal up to the order of members have one canonical text. -/
theorem canonical_congr {a b : Json} (h : a.Same b) (ha : a.WellFormed) (hb : b.WellFormed) :
    canonical a = canonical b := by
  -- induction on the likeness of the values; arrays go element by element
  induction h with
  | null | bool | str => rfl
  | num h => simpa [canonical] using h
  | @arr items items' hlen h ih =>
    cases ha with
    | arr ha =>
      cases hb with
      | arr hb =>
        have hitems : items.map canonical = items'.map canonical := by
          rw [map_eq_map_iff_zip canonical hlen]
          intro p hp
          obtain ⟨hv, hv'⟩ := List.of_mem_zip hp
          exact ih p hp (ha _ hv) (hb _ hv')
        simp only [canonical, canonicalItems_eq, hitems]
  -- objects: the members are the same up to order, and the canonical form sorts them
  | @obj members members' hkeys h ih =>
    cases ha with
    | obj hnodup ha =>
      cases hb with
      | obj hnodup' hb =>
        have hmap : ∀ {l : List (String × Json)}, (l.map Prod.fst).Nodup →
            (canonicalMembers l).Nodup := by
          intro l hl
          rw [← keys_canonicalMembers] at hl
          exact hl.of_map _
        -- the members with their texts are a permutation of one another
        have hperm : (canonicalMembers members).Perm (canonicalMembers members') := by
          rw [List.perm_ext_iff_of_nodup (hmap hnodup) (hmap hnodup')]
          rintro ⟨k, w⟩
          simp only [mem_canonicalMembers]
          constructor
          · rintro ⟨v, hv, rfl⟩
            obtain ⟨⟨k', v'⟩, hv', rfl⟩ := List.mem_map.mp ((hkeys k).mp (List.mem_map_of_mem hv))
            exact ⟨v', hv', (ih _ v v' hv hv' (ha _ hv) (hb _ hv')).symm⟩
          · rintro ⟨v', hv', rfl⟩
            obtain ⟨⟨k', v⟩, hv, rfl⟩ := List.mem_map.mp ((hkeys k).mpr (List.mem_map_of_mem hv'))
            -- keys are distinct, so sorting makes the two lists one
            exact ⟨v, hv, ih _ v v' hv hv' (ha _ hv) (hb _ hv')⟩
        have hsorted := sorted_eq_of_perm hperm (by rwa [keys_canonicalMembers])
        simp only [canonical, hsorted]

/-! ### Reading back -/

/-- The letters that follow a value inside an array or an object. -/
def ending (c : Char) : Prop := c = ',' ∨ c = ']' ∨ c = '\x7d'

/-- The canonical texts. -/
def canonicals : Set (List Char) := {w | ∃ v : Json, v.WellFormed ∧ (canonical v).toList = w}

theorem not_ending_of_numeric {c : Char} (h : numeric c = true) : ¬ending c := by
  rintro (rfl | rfl | rfl) <;> exact absurd h (by decide)

/-- No value starts with a letter that follows one. -/
theorem canonicals_ne_ending {c : Char} (hc : ending c) {w : List Char} (hw : w ∈ canonicals)
    (t s : List Char) : w ++ t ≠ c :: s := by
  obtain ⟨v, hv, rfl⟩ := hw
  obtain ⟨c', t', hct, hkind⟩ := canonical_head hv
  intro heq
  rw [hct, List.cons_append] at heq
  injection heq with hcc _
  have hnum : kindOf c = .num := by
    rcases hc with rfl | rfl | rfl <;> rfl
  rw [hcc, hnum] at hkind
  cases hv with
  | num h =>
    rw [canonical] at hct
    refine not_ending_of_numeric (h.2 c ?_) hc
    rw [hct, hcc]
    exact List.mem_cons_self
  | _ => cases hkind

/-- Texts that begin alike are of values of one kind. -/
theorem kind_eq_of_prefix {a b : Json} (ha : a.WellFormed) (hb : b.WellFormed) {r s : List Char}
    (h : (canonical a).toList ++ r = (canonical b).toList ++ s) : kind a = kind b := by
  obtain ⟨c, t, hct, hc⟩ := canonical_head ha
  obtain ⟨c', t', hct', hc'⟩ := canonical_head hb
  rw [hct, hct'] at h
  injection h with heq _
  rw [← hc, ← hc', heq]

/-! ### Members -/

/-- The text of a member of an object. -/
def member (m : String × String) : String := quoted m.1 ++ ":" ++ m.2

/-- The texts of members. -/
def membersTexts : Set (List Char) :=
  {w | ∃ k v, v ∈ canonicals ∧ (quoted k).toList ++ ':' :: v = w}

theorem member_toList (m : String × String) :
    (member m).toList = (quoted m.1).toList ++ ':' :: m.2.toList := by
  simp [member]

theorem member_injective : Function.Injective member := by
  rintro ⟨k, w⟩ ⟨k', w'⟩ h
  have htext : (quoted k).toList ++ ':' :: w.toList = (quoted k').toList ++ ':' :: w'.toList := by
    rw [← member_toList (k, w), h, member_toList]
  obtain ⟨rfl, hrest⟩ := quoted_inj htext
  injection hrest with _ hw
  rw [String.toList_injective hw]

/-- No member starts with the closing brace. -/
theorem membersTexts_ne_brace : ∀ y ∈ membersTexts, ∀ t s, y ++ t ≠ '\x7d' :: s := by
  rintro _ ⟨k, v, -, rfl⟩ t s heq
  simp [quoted] at heq

theorem decodes_member {k v : String} (h : Decodes ending canonicals v.toList) :
    Decodes ending membersTexts (member (k, v)).toList := by
  rintro _ ⟨k', v', hv', rfl⟩ r s hr hs heq
  have htext : (quoted k).toList ++ ':' :: (v.toList ++ r) = (quoted k').toList ++ ':' :: (v' ++ s) := by
    simpa [member] using heq
  obtain ⟨hk, hrest⟩ := quoted_inj htext
  have hv : v.toList = v' := h v' hv' r s hr hs (List.cons_injective.eq_iff.mp hrest)
  rw [member_toList, hk, hv]

/-- What reading a value's text back gives: a value of that text, followed by an ending, is the same. -/
def ReadsBack (v : Json) : Prop :=
  ∀ b : Json, b.WellFormed → ∀ r s, Words.Closes ending r → Words.Closes ending s →
    (canonical v).toList ++ r = (canonical b).toList ++ s → v.Same b

/-- Where a value's text can be read back, no other text continues it. -/
theorem ReadsBack.decodes {v : Json} (hv : v.WellFormed) (h : ReadsBack v) :
    Decodes ending canonicals (canonical v).toList := by
  rintro _ ⟨b, hb, rfl⟩ r s hr hs heq
  rw [canonical_congr (h b hb r s hr hs heq) hv hb]

theorem ReadsBack.same {v b : Json} (h : ReadsBack v) (hb : b.WellFormed)
    (heq : canonical v = canonical b) : v.Same b :=
  h b hb [] [] (closes_nil _) (closes_nil _) (by rw [heq])

theorem readsBack_num {n : Number} (hn : n.Printed) : ReadsBack (.num n) := by
  intro b hb r s hr hs h
  have hkind := kind_eq_of_prefix (.num hn) hb h
  cases hb with
  | @num m hm =>
    rw [canonical, canonical] at h
    have hdecodes : Decodes ending {m.token.toList} n.token.toList :=
      decodes_of_letters (fun c hc => not_ending_of_numeric (hn.2 c hc)) <| by
        rintro _ rfl c hc
        exact not_ending_of_numeric (hm.2 c hc)
    exact .num (String.toList_injective (hdecodes _ rfl r s hr hs h))
  | _ => cases hkind

theorem readsBack_arr {items : List Json} (hitems : ∀ v ∈ items, v.WellFormed)
    (ih : ∀ v ∈ items, ReadsBack v) : ReadsBack (.arr items) := by
  intro b hb r s hr hs h
  -- the first character tells that the other value is an array too
  have hkind := kind_eq_of_prefix (.arr hitems) hb h
  cases hb with
  | @arr items' hitems' =>
    have hbody : [','].intercalate (items.map fun v => (canonical v).toList) ++ ']' :: r =
        [','].intercalate (items'.map fun v => (canonical v).toList) ++ ']' :: s := by
      simpa [canonical, canonicalItems_eq, Function.comp_def] using h
    have hclose : ending ']' := .inr (.inl rfl)
    -- both are lists of canonical texts, which are read one by one
    have hxs : ∀ x ∈ items.map fun v => (canonical v).toList,
        x ∈ canonicals ∧ Decodes ending canonicals x := by
      intro x hx
      obtain ⟨v, hv, rfl⟩ := List.mem_map.mp hx
      exact ⟨⟨v, hitems v hv, rfl⟩, (ih v hv).decodes (hitems v hv)⟩
    have hys : ∀ y ∈ items'.map fun v => (canonical v).toList, y ∈ canonicals := by
      intro y hy
      obtain ⟨v, hv, rfl⟩ := List.mem_map.mp hy
      exact ⟨v, hitems' v hv, rfl⟩
    obtain ⟨hwords, -⟩ := separated_inj (.inl rfl) hclose (by decide)
      (fun y hy => canonicals_ne_ending hclose hy) hxs hys hbody
    -- equal texts position by position
    have hlen : items.length = items'.length := by simpa using congrArg List.length hwords
    rw [map_eq_map_iff_zip _ hlen] at hwords
    refine .arr hlen fun p hp => ?_
    obtain ⟨hv, hv'⟩ := List.of_mem_zip hp
    exact (ih p.1 hv).same (hitems' _ hv') (String.toList_injective (hwords p hp))
  | _ => cases hkind

/-- The sorted members of well-formed objects have texts of members. -/
theorem member_mem_membersTexts {members : List (String × Json)} (h : ∀ m ∈ members, m.2.WellFormed)
    {m : String × String} (hm : m ∈ sorted (canonicalMembers members)) :
    ∃ v, (m.1, v) ∈ members ∧ canonical v = m.2 ∧ (member m).toList ∈ membersTexts := by
  have hm' : m ∈ canonicalMembers members := (List.perm_insertionSort _ _).mem_iff.mp hm
  obtain ⟨v, hv, hcanonical⟩ := mem_canonicalMembers.mp hm'
  exact ⟨v, hv, hcanonical, m.1, m.2.toList, ⟨v, h _ hv, by rw [hcanonical]⟩,
    (member_toList m).symm⟩

theorem readsBack_obj {members : List (String × Json)} (hnodup : (members.map Prod.fst).Nodup)
    (hmembers : ∀ m ∈ members, m.2.WellFormed) (ih : ∀ m ∈ members, ReadsBack m.2) :
    ReadsBack (.obj members) := by
  intro b hb r s hr hs h
  -- the first character tells an object from any other value
  have hkind := kind_eq_of_prefix (.obj hnodup hmembers) hb h
  cases hb with
  -- both texts are members joined by commas and closed by a brace
  | @obj members' hnodup' hmembers' =>
    have hbody : [','].intercalate ((sorted (canonicalMembers members)).map fun m =>
          (member m).toList) ++ '\x7d' :: r =
        [','].intercalate ((sorted (canonicalMembers members')).map fun m =>
          (member m).toList) ++ '\x7d' :: s := by
      simpa [canonical, member, Function.comp_def] using h
    have hclose : ending '\x7d' := .inr (.inr rfl)
    -- every member's text decodes, by the induction hypothesis for its value
    have hxs : ∀ x ∈ (sorted (canonicalMembers members)).map fun m => (member m).toList,
        x ∈ membersTexts ∧ Decodes ending membersTexts x := by
      intro x hx
      obtain ⟨m, hm, rfl⟩ := List.mem_map.mp hx
      obtain ⟨v, hv, hcanonical, hmem⟩ := member_mem_membersTexts hmembers hm
      refine ⟨hmem, decodes_member ?_⟩
      rw [← hcanonical]
      exact (ih _ hv).decodes (hmembers _ hv)
    have hys : ∀ y ∈ (sorted (canonicalMembers members')).map fun m => (member m).toList,
        y ∈ membersTexts := by
      intro y hy
      obtain ⟨m, hm, rfl⟩ := List.mem_map.mp hy
      obtain ⟨-, -, -, hmem⟩ := member_mem_membersTexts hmembers' hm
      exact hmem
    -- so the two lists of members are read off one after another
    obtain ⟨hwords, -⟩ := separated_inj (.inl rfl) hclose (by decide) membersTexts_ne_brace hxs hys hbody
    -- the sorted members are the same list of keys and texts
    have hsorted : sorted (canonicalMembers members) = sorted (canonicalMembers members') :=
      List.map_injective_iff.mpr (fun m m' h => member_injective (String.toList_injective h)) hwords
    have hperm : (canonicalMembers members).Perm (canonicalMembers members') :=
      (List.perm_insertionSort _ _).symm.trans
        (.trans (.of_eq hsorted) (List.perm_insertionSort _ _))
    refine .obj (fun k => ?_) fun k v v' hv hv' => ?_
    · rw [← keys_canonicalMembers members, ← keys_canonicalMembers members']
      exact (hperm.map Prod.fst).mem_iff
    · have hmem : (k, canonical v) ∈ canonicalMembers members' :=
        hperm.mem_iff.mp (mem_canonicalMembers.mpr ⟨v, hv, rfl⟩)
      obtain ⟨w, hw, hcanonical⟩ := mem_canonicalMembers.mp hmem
      -- the other object has one value under the key
      have hwv : (k, w) = (k, v') := List.inj_on_of_nodup_map hnodup' hw hv' rfl
      injection hwv with _ hwv
      subst hwv
      exact (ih (k, v) hv).same (hmembers' _ hv') hcanonical.symm
  | _ => cases hkind

/-- Every value's text can be read back. -/
theorem readsBack {a : Json} (ha : a.WellFormed) : ReadsBack a := by
  induction ha with
  | null =>
    intro b hb r s _ _ h
    have hkind := kind_eq_of_prefix .null hb h
    cases b with
    | null => exact .null
    | _ => cases hkind
  | bool x =>
    intro b hb r s _ _ h
    have hkind := kind_eq_of_prefix (.bool x) hb h
    cases b with
    | bool y =>
      -- the first letters tell the two apart
      cases x <;> cases y <;> first | exact .bool _ | simp [canonical] at h
    | _ => cases hkind
  | num hn => exact readsBack_num hn
  | str k =>
    intro b hb r s _ _ h
    have hkind := kind_eq_of_prefix (.str k) hb h
    cases b with
    | str l =>
      rw [canonical, canonical] at h
      obtain ⟨rfl, -⟩ := quoted_inj h
      exact .str k
    | _ => cases hkind
  | arr hitems ih => exact readsBack_arr hitems ih
  | obj hnodup hmembers ih => exact readsBack_obj hnodup hmembers ih

/-- The canonical form is faithful: two documents have one canonical text exactly when they are the
same value. -/
theorem canonical_eq_iff (a b : Document) :
    canonical a.value = canonical b.value ↔ a.value.Same b.value :=
  ⟨(readsBack a.wellFormed).same b.wellFormed, fun h => canonical_congr h a.wellFormed b.wellFormed⟩

end Digest

end Ouro
