import Mathlib.Algebra.BigOperators.Group.Finset.Basic
import Mathlib.Algebra.Order.BigOperators.Group.Finset
import Mathlib.Logic.Relation
import Mathlib.Tactic

/-!
# Marking what a search reaches

A worklist search over a successor function: `mark` pops a node, and marks it and pushes its successors
when it is new. Its steps are bounded by the edges not followed yet (`edges`), so with that much fuel
it marks exactly the nodes reached from the stack (`mark_iff`), and started at the successors of a node,
those that one or more edges lead to (`reached_iff`).

In a finite graph every node leads to a recurrent one, which everything it leads to leads back to
(`exists_recurrent`).
-/

namespace Lib

variable {α : Type} [DecidableEq α] (succ : α → List α)

/-- An edge of the graph. -/
def Leads (x y : α) : Prop := y ∈ succ x

/-- The search: the top of the stack is its head, and a new node's successors are pushed in order. -/
def mark : Nat → List α → (α → Bool) → α → Bool
  | 0, _, seen => seen
  | _ + 1, [], seen => seen
  | n + 1, x :: stack, seen =>
    if seen x then mark n stack seen
    else mark n ((succ x).reverse ++ stack) (Function.update seen x true)

/-- The edges from nodes of `s` that are not marked. -/
def edges (s : Finset α) (seen : α → Bool) : Nat :=
  ∑ x ∈ s.filter fun x => seen x = false, (succ x).length

variable {succ}

/-- Marking a node follows its edges. -/
theorem edges_update {s : Finset α} {seen : α → Bool} {x : α} (hx : x ∈ s) (hnew : seen x = false) :
    edges succ s (Function.update seen x true) + (succ x).length = edges succ s seen := by
  have hfilter : (s.filter fun y => Function.update seen x true y = false)
      = (s.filter fun y => seen y = false).erase x := by
    ext y
    by_cases hy : y = x
    · simp [hy]
    · simp [hy]
  unfold edges
  rw [hfilter]
  exact Finset.sum_erase_add _ _ (by simp [hx, hnew])

/-- A mark stays. -/
theorem mark_mono {n : Nat} {stack : List α} {seen : α → Bool} {x : α} (h : seen x = true) :
    mark succ n stack seen x = true := by
  -- induction on the fuel
  induction n generalizing stack seen with
  | zero => exact h
  | succ n ih =>
    cases stack with
    | nil => exact h
    | cons y stack =>
      unfold mark
      split
      · exact ih h
      · apply ih
        by_cases hxy : x = y
        · simp [hxy]
        · simp [hxy, h]

/-- Only what the stack leads to is marked. -/
theorem mark_sound {n : Nat} {stack : List α} {seen : α → Bool} {x : α}
    (h : mark succ n stack seen x = true) :
    seen x = true ∨ ∃ y ∈ stack, Relation.ReflTransGen (Leads succ) y x := by
  induction n generalizing stack seen with
  | zero => exact .inl h
  | succ n ih =>
    cases stack with
    | nil => exact .inl h
    | cons y stack =>
      unfold mark at h
      -- a marked node is passed over
      split at h
      · rcases ih h with hseen | ⟨z, hz, hpath⟩
        · exact .inl hseen
        · exact .inr ⟨z, List.mem_cons_of_mem _ hz, hpath⟩
      -- a new one is marked, and its successors go on the stack
      · rcases ih h with hseen | ⟨z, hz, hpath⟩
        · by_cases hxy : x = y
          · exact .inr ⟨y, List.mem_cons_self, hxy ▸ .refl⟩
          · exact .inl (by simpa [hxy] using hseen)
        · rcases List.mem_append.mp hz with hz | hz
          · exact .inr ⟨y, List.mem_cons_self, .head (List.mem_reverse.mp hz) hpath⟩
          · exact .inr ⟨z, List.mem_cons_of_mem _ hz, hpath⟩

section Complete

variable {s : Finset α} (hclosed : ∀ x ∈ s, ∀ y ∈ succ x, y ∈ s)
include hclosed

/-- With fuel for every edge that is left, the stack is marked and the marks are closed under
successors, if what is marked already leads to marks or into the stack. -/
theorem mark_closed {n : Nat} {stack : List α} {seen : α → Bool} (hstack : ∀ x ∈ stack, x ∈ s)
    (hfuel : stack.length + edges succ s seen ≤ n)
    (hseen : ∀ x, seen x = true → ∀ y ∈ succ x, seen y = true ∨ y ∈ stack) :
    (∀ x ∈ stack, mark succ n stack seen x = true) ∧
      ∀ x, mark succ n stack seen x = true → ∀ y ∈ succ x, mark succ n stack seen y = true := by
  induction n generalizing stack seen with
  -- without fuel there is nothing on the stack
  | zero =>
    have hnil : stack = [] := List.length_eq_zero_iff.mp (by omega)
    subst hnil
    exact ⟨by simp, fun x hx y hy => (hseen x hx y hy).resolve_right (by simp)⟩
  | succ n ih =>
    cases stack with
    | nil => exact ⟨by simp, fun x hx y hy => (hseen x hx y hy).resolve_right (by simp)⟩
    | cons z stack =>
      have hrest : ∀ x ∈ stack, x ∈ s := fun x hx => hstack x (List.mem_cons_of_mem _ hx)
      rw [List.length_cons] at hfuel
      unfold mark
      split
      -- the node is marked already: one stack entry less
      case isTrue hz =>
        have hseen' : ∀ x, seen x = true → ∀ y ∈ succ x, seen y = true ∨ y ∈ stack := by
          intro x hx y hy
          rcases hseen x hx y hy with hy | hy
          · exact .inl hy
          · rcases List.mem_cons.mp hy with rfl | hy
            · exact .inl hz
            · exact .inr hy
        have ⟨hmarked, hsucc⟩ := ih hrest (by omega) hseen'
        exact ⟨List.forall_mem_cons.mpr ⟨mark_mono hz, hmarked⟩, hsucc⟩
      -- it is marked now: its edges move from those left to the stack
      case isFalse hz =>
        have hnew : seen z = false := by simpa using hz
        have hzs : z ∈ s := hstack z List.mem_cons_self
        have hedges : edges succ s (Function.update seen z true) + (succ z).length
            = edges succ s seen := edges_update hzs hnew
        have hpushed : ∀ x ∈ (succ z).reverse ++ stack, x ∈ s := fun x hx => by
          rcases List.mem_append.mp hx with hx | hx
          · exact hclosed z hzs x (List.mem_reverse.mp hx)
          · exact hrest x hx
        have hlength : ((succ z).reverse ++ stack).length
            + edges succ s (Function.update seen z true) ≤ n := by
          rw [List.length_append, List.length_reverse]
          omega
        -- The new mark's successors were pushed; an older one's are where they were, or are the new mark.
        have hseen' : ∀ x, Function.update seen z true x = true → ∀ y ∈ succ x,
            Function.update seen z true y = true ∨ y ∈ (succ z).reverse ++ stack := by
          intro x hx y hy
          by_cases hxz : x = z
          · exact .inr (List.mem_append_left _ (List.mem_reverse.mpr (hxz ▸ hy)))
          · rcases hseen x (by simpa [hxz] using hx) y hy with hy | hy
            · exact .inl (by by_cases hyz : y = z <;> simp [hyz, hy])
            · rcases List.mem_cons.mp hy with rfl | hy
              · exact .inl (by simp)
              · exact .inr (List.mem_append_right _ hy)
        have ⟨hmarked, hsucc⟩ := ih hpushed hlength hseen'
        have hmark : mark succ n ((succ z).reverse ++ stack) (Function.update seen z true) z = true :=
          mark_mono (by simp)
        exact ⟨List.forall_mem_cons.mpr ⟨hmark, fun x hx => hmarked x (List.mem_append_right _ hx)⟩,
          hsucc⟩

/-- A search with enough fuel marks exactly what its stack leads to. -/
theorem mark_iff {n : Nat} {stack : List α} (hstack : ∀ x ∈ stack, x ∈ s)
    (hfuel : stack.length + edges succ s (fun _ => false) ≤ n) {x : α} :
    mark succ n stack (fun _ => false) x = true ↔
      ∃ y ∈ stack, Relation.ReflTransGen (Leads succ) y x := by
  constructor
  · intro h
    exact (mark_sound h).resolve_left (by simp)
  · rintro ⟨y, hy, hpath⟩
    -- along the path, by the closure of the marks
    have ⟨hmarked, hsucc⟩ := mark_closed hclosed hstack hfuel (by simp)
    induction hpath with
    | refl => exact hmarked y hy
    | tail _ hedge ih => exact hsucc _ ih _ hedge

/-- From the successors of a node, what one or more edges lead to. -/
theorem reached_iff {n : Nat} {i x : α} (hi : i ∈ s)
    (hfuel : (succ i).length + edges succ s (fun _ => false) ≤ n) :
    mark succ n (succ i).reverse (fun _ => false) x = true ↔
      Relation.TransGen (Leads succ) i x := by
  rw [mark_iff hclosed (fun y hy => hclosed i hi y (List.mem_reverse.mp hy)) (by simpa using hfuel),
    Relation.TransGen.head'_iff]
  simp [Leads]

omit [DecidableEq α] in
theorem leads_mem {x y : α} (hx : x ∈ s) (hpath : Relation.ReflTransGen (Leads succ) x y) : y ∈ s := by
  induction hpath with
  | refl => exact hx
  | tail _ hedge ih => exact hclosed _ ih _ hedge

omit [DecidableEq α] in
/-- Every node leads to one that everything it leads to leads back to. -/
theorem exists_recurrent {x : α} (hx : x ∈ s) :
    ∃ y, Relation.ReflTransGen (Leads succ) x y ∧
      ∀ z, Relation.ReflTransGen (Leads succ) y z → Relation.ReflTransGen (Leads succ) z y := by
  classical
  -- By induction on how many nodes `x` leads to: a node that does not lead back to it leads to fewer.
  let ahead : α → Finset α := fun x => s.filter fun z => Relation.ReflTransGen (Leads succ) x z
  induction hcard : (ahead x).card using Nat.strong_induction_on generalizing x with
  | _ n ih =>
    by_cases hback : ∀ z, Relation.ReflTransGen (Leads succ) x z → Relation.ReflTransGen (Leads succ) z x
    · exact ⟨x, .refl, hback⟩
    · push Not at hback
      obtain ⟨z, hxz, hzx⟩ := hback
      have hfewer : ahead z ⊂ ahead x := by
        refine Finset.ssubset_iff_of_subset ?_ |>.mpr ⟨x, ?_, ?_⟩
        · intro w hw
          have ⟨hws, hzw⟩ := Finset.mem_filter.mp hw
          exact Finset.mem_filter.mpr ⟨hws, hxz.trans hzw⟩
        · exact Finset.mem_filter.mpr ⟨hx, .refl⟩
        · intro hw
          exact hzx (Finset.mem_filter.mp hw).2
      obtain ⟨y, hzy, hrecurrent⟩ :=
        ih _ (hcard ▸ Finset.card_lt_card hfewer) (leads_mem hclosed hx hxz) rfl
      exact ⟨y, hxz.trans hzy, hrecurrent⟩

end Complete

end Lib
