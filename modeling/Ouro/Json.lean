import Mathlib.Data.String.Basic
import Mathlib.Tactic

/-!
# JSON values and text

The values the engine stores and compares without interpreting them (`serde_json::Value`), and the
few text operations it applies to ids, event types and keys.

An object is the list of its members in key order, so two objects are equal exactly when they have
the same members. `insert`, `remove` and `entry` keep that order. A number is an integer or a floating point token, which nothing here takes apart.
-/

namespace Ouro

/-- A JSON number: an integer, or a floating point number by its printed token. -/
inductive Number where
  | int (n : Int)
  | float (token : String)
deriving DecidableEq, Repr

/-- A JSON value. -/
inductive Json where
  | null
  | bool (b : Bool)
  | num (n : Number)
  | str (s : String)
  | arr (items : List Json)
  | obj (members : List (String × Json))

namespace Json

mutual

/-- Equality of values, by structure. -/
def decEq : (a b : Json) → Decidable (a = b)
  | .null, .null => .isTrue rfl
  | .bool a, .bool b => decidable_of_iff (a = b) (by simp)
  | .num a, .num b => decidable_of_iff (a = b) (by simp)
  | .str a, .str b => decidable_of_iff (a = b) (by simp)
  | .arr a, .arr b =>
    match decEqItems a b with
    | .isTrue h => .isTrue (by rw [h])
    | .isFalse h => .isFalse (by simpa using h)
  | .obj a, .obj b =>
    match decEqMembers a b with
    | .isTrue h => .isTrue (by rw [h])
    | .isFalse h => .isFalse (by simpa using h)
  | .null, .bool _ | .null, .num _ | .null, .str _ | .null, .arr _ | .null, .obj _
  | .bool _, .null | .bool _, .num _ | .bool _, .str _ | .bool _, .arr _ | .bool _, .obj _
  | .num _, .null | .num _, .bool _ | .num _, .str _ | .num _, .arr _ | .num _, .obj _
  | .str _, .null | .str _, .bool _ | .str _, .num _ | .str _, .arr _ | .str _, .obj _
  | .arr _, .null | .arr _, .bool _ | .arr _, .num _ | .arr _, .str _ | .arr _, .obj _
  | .obj _, .null | .obj _, .bool _ | .obj _, .num _ | .obj _, .str _ | .obj _, .arr _ =>
    .isFalse (by simp)

/-- Equality of lists of values. -/
def decEqItems : (a b : List Json) → Decidable (a = b)
  | [], [] => .isTrue rfl
  | [], _ :: _ => .isFalse (by simp)
  | _ :: _, [] => .isFalse (by simp)
  | a :: as, b :: bs =>
    match decEq a b, decEqItems as bs with
    | .isTrue h₁, .isTrue h₂ => .isTrue (by rw [h₁, h₂])
    | .isFalse h, _ => .isFalse (by simp [h])
    | _, .isFalse h => .isFalse (by simp [h])

/-- Equality of lists of members. -/
def decEqMembers : (a b : List (String × Json)) → Decidable (a = b)
  | [], [] => .isTrue rfl
  | [], _ :: _ => .isFalse (by simp)
  | _ :: _, [] => .isFalse (by simp)
  | (k, a) :: as, (l, b) :: bs =>
    match decEq a b, decEqMembers as bs with
    | .isTrue h₁, .isTrue h₂ =>
      if hk : k = l then .isTrue (by rw [h₁, h₂, hk]) else .isFalse (by simp [hk])
    | .isFalse h, _ => .isFalse (by simp [h])
    | _, .isFalse h => .isFalse (by simp [h])

end

instance : DecidableEq Json := decEq

instance : Inhabited Json := ⟨.null⟩

/-- The member `k` of an object (`Value::get`); nothing for any other value. -/
def get? (v : Json) (k : String) : Option Json :=
  match v with
  | .obj members => (members.find? fun m => m.1 == k).map Prod.snd
  | _ => none

/-- The text of a string value. -/
def asStr : Json → Option String
  | .str s => some s
  | _ => none

/-- A truth value. -/
def asBool : Json → Option Bool
  | .bool b => some b
  | _ => none

/-- The member `k` as text. -/
def text (v : Json) (k : String) : Option String := (v.get? k).bind asStr

/-- Writes the member `k` in key order: before the members whose keys are greater. -/
def insertMember (k : String) (v : Json) : List (String × Json) → List (String × Json)
  | [] => [(k, v)]
  | (l, w) :: rest =>
    if l = k then (k, v) :: rest
    else if ((l, w) :: rest).all fun m => decide (k < m.1) then (k, v) :: (l, w) :: rest
    else (l, w) :: insertMember k v rest

/-- An object with the member `k` written; any other value as it is. -/
def insert (v : Json) (k : String) (w : Json) : Json :=
  match v with
  | .obj members => .obj (insertMember k w members)
  | other => other

/-- An object with the member `k` written unless it has one. -/
def entry (v : Json) (k : String) (w : Json) : Json :=
  if (v.get? k).isSome then v else v.insert k w

theorem find_insertMember {k l : String} (h : k ≠ l) (v : Json) (members : List (String × Json)) :
    (insertMember k v members).find? (fun m => m.1 == l) = members.find? fun m => m.1 == l := by
  induction members with
  | nil => simp [insertMember, h]
  | cons m members ih =>
    obtain ⟨j, w⟩ := m
    simp only [insertMember]
    split
    · next hj => simp [hj, h]
    · split
      · simp [h]
      · simp only [List.find?_cons, ih]

/-- Writing one member leaves the others. -/
theorem text_entry {k l : String} (h : k ≠ l) (v w : Json) : (v.entry k w).text l = v.text l := by
  unfold entry
  split
  · rfl
  · cases v with
    | obj members => simp only [insert, text, get?, find_insertMember h]
    | _ => rfl

/-- An object without the member `k`; any other value as it is. -/
def remove (v : Json) (k : String) : Json :=
  match v with
  | .obj members => .obj (members.filter fun m => m.1 != k)
  | other => other

/-- Removing one member leaves the others. -/
theorem get?_remove {k l : String} (h : k ≠ l) (v : Json) : (v.remove l).get? k = v.get? k := by
  cases v with
  | obj members =>
    have hfind : (members.filter fun m => m.1 != l).find? (fun m => m.1 == k) =
        members.find? fun m => m.1 == k := by
      rw [List.find?_filter]
      congr 1
      funext m
      by_cases hm : m.1 = k
      · simp [hm, h]
      · simp [hm]
    simp only [remove, get?, hfind]
  | _ => rfl

theorem text_remove {k l : String} (h : k ≠ l) (v : Json) : (v.remove k).text l = v.text l := by
  unfold text
  rw [get?_remove (Ne.symm h)]

theorem filter_insertMember_self (k : String) (v : Json) (members : List (String × Json)) :
    (insertMember k v members).filter (fun m => m.1 != k) = members.filter fun m => m.1 != k := by
  induction members with
  | nil => simp [insertMember]
  | cons m members ih =>
    obtain ⟨l, w⟩ := m
    -- the member is there already, comes first, or comes later
    simp only [insertMember]
    split
    · next hl => simp [hl]
    · split
      · simp
      · simp only [List.filter_cons, ih]

/-- A member that is written and removed leaves the others. -/
theorem remove_entry_self (v : Json) (k : String) (w : Json) : (v.entry k w).remove k = v.remove k := by
  unfold entry
  split
  -- the key was there, and the value is as it was
  · rfl
  · cases v with
    | obj members => simp only [insert, remove, filter_insertMember_self]
    | _ => rfl

/-- Where every key is greater the member comes first. -/
theorem insertMember_of_all {k : String} (v : Json) {members : List (String × Json)}
    (h : members.all (fun m => decide (k < m.1)) = true) : insertMember k v members = (k, v) :: members := by
  cases members with
  | nil => rfl
  | cons m members =>
    obtain ⟨l, w⟩ := m
    have hl : k < l := by
      simp only [List.all_cons, Bool.and_eq_true, decide_eq_true_eq] at h
      exact h.1
    rw [insertMember, if_neg hl.ne', if_pos h]

theorem filter_insertMember {k l : String} (h : k < l) (v : Json) (members : List (String × Json)) :
    (insertMember k v members).filter (fun m => m.1 != l) =
      insertMember k v (members.filter fun m => m.1 != l) := by
  have hkl : (k != l) = true := by simpa using h.ne
  have hcons : ∀ {j : String} (w : Json) (rest : List (String × Json)), j ≠ l →
      ((j, w) :: rest).filter (fun m => m.1 != l) = (j, w) :: rest.filter fun m => m.1 != l :=
    fun w rest hj => List.filter_cons_of_pos (by simpa using hj)
  induction members with
  | nil => simp [insertMember, hkl]
  | cons m members ih =>
    obtain ⟨j, w⟩ := m
    -- a greater key that goes does not move the place of `k`
    have hall : (((j, w) :: members).filter fun m => m.1 != l).all (fun m => decide (k < m.1)) =
        ((j, w) :: members).all fun m => decide (k < m.1) := by
      rw [List.all_filter]
      congr 1
      funext m
      by_cases hm : m.1 = l
      · simp [hm, h]
      · simp [hm]
    simp only [insertMember]
    split
    -- the key is there, and stays
    · next hj => simp [hj, hkl, insertMember]
    · next hj =>
      split
      · next hgreater =>
        rw [hgreater] at hall
        rw [insertMember_of_all v hall, hcons v _ h.ne]
      · next hsmaller =>
        by_cases hjl : j = l
        -- the first member goes, and the place is behind it
        · rw [List.filter_cons_of_neg (by simp [hjl]), List.filter_cons_of_neg (by simp [hjl]), ih]
        -- the first member stays, before the key
        · rw [hcons w _ hjl] at hall
          rw [hcons w _ hjl, hcons w _ hjl, insertMember, if_neg hj,
            if_neg (by rw [hall]; exact hsmaller), ih]

/-- Writing a member and removing a greater one commute. -/
theorem remove_entry {k l : String} (h : k < l) (v w : Json) :
    (v.entry k w).remove l = (v.remove l).entry k w := by
  unfold entry
  rw [get?_remove h.ne]
  split
  · rfl
  · cases v with
    | obj members => simp only [insert, remove, filter_insertMember h]
    | _ => rfl

end Json

/-! ### Text -/

/-- Whether `s` starts with `pre`. -/
def startsWith (s pre : String) : Bool := pre.toList.isPrefixOf s.toList

/-- What follows `pre` in `s` (`str::strip_prefix`). -/
def stripPrefix (s pre : String) : Option String :=
  if startsWith s pre then some (String.ofList (s.toList.drop pre.toList.length)) else none

/-- The characters of Unicode's `White_Space`. -/
def whiteSpace (c : Char) : Bool :=
  let n := c.toNat
  (9 ≤ n && n ≤ 13) || n == 0x20 || n == 0x85 || n == 0xa0 || n == 0x1680 ||
    (0x2000 ≤ n && n ≤ 0x200a) || n == 0x2028 || n == 0x2029 || n == 0x202f || n == 0x205f ||
    n == 0x3000

/-- Whether trimming `s` leaves nothing. -/
def blank (s : String) : Bool := s.toList.all whiteSpace

/-- `s` with each NUL shown as a slash. -/
def shown (s : String) : String := s.map fun c => if c = '\x00' then '/' else c

theorem startsWith_append (pre s : String) : startsWith (pre ++ s) pre = true := by
  simp [startsWith]

theorem stripPrefix_append (pre s : String) : stripPrefix (pre ++ s) pre = some s := by
  unfold stripPrefix startsWith
  rw [String.toList_append, if_pos (by simp)]
  rw [List.drop_left, String.ofList_toList]

theorem stripPrefix_eq_some {s pre rest : String} (h : stripPrefix s pre = some rest) :
    s = pre ++ rest := by
  unfold stripPrefix startsWith at h
  split at h
  · next hp =>
    obtain ⟨t, ht⟩ := List.isPrefixOf_iff_prefix.mp hp
    simp only [Option.some.injEq] at h
    subst h
    -- what `startsWith` holds of is the prefix that was dropped
    apply String.toList_injective
    rw [String.toList_append, String.toList_ofList, ← ht, List.drop_left]
  · exact absurd h (by simp)

/-- A prefix determines what follows it. -/
theorem append_left_injective (pre : String) : Function.Injective (pre ++ ·) := by
  intro a b h
  apply String.toList_injective
  have h' := congrArg String.toList h
  simp only [String.toList_append] at h'
  exact List.append_cancel_left h'

end Ouro
