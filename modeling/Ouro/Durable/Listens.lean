import Ouro.Durable.Moves

/-!
# Registrations

What the engine's updates of a run's registrations do to its row: `close` and `registered` change
`awaits` and `addressedWaits` only, type by type; `adopting`, `joined` and `tookEvent` change the
listeners beside them. Everything else of the row is framed.
-/

namespace Ouro

open Lib

namespace Engine

/-! ### Closing -/

/-- Whether a listener of the run names the type. -/
def named (s : StoredRun) (t : String) : Bool := s.listeners.values.any (·.contains t)

theorem named_iff {s : StoredRun} {t : String} :
    named s t = true ↔ ∃ k types, s.listeners.get k = some types ∧ t ∈ types := by
  unfold named
  simp only [List.any_eq_true, Table.mem_values, List.contains_iff_mem]
  constructor
  · rintro ⟨types, ⟨k, hk⟩, ht⟩
    exact ⟨k, types, hk, ht⟩
  · rintro ⟨k, types, hk, ht⟩
    exact ⟨types, ⟨k, hk⟩, ht⟩

theorem close_nil (s : StoredRun) : close s [] = s := rfl

theorem close_cons (s : StoredRun) (t : String) (types : List String) :
    close s (t :: types) =
      close (if named s t then s
        else { s with awaits := s.awaits.delete t, addressedWaits := s.addressedWaits.erase t })
        types := rfl

/-- Closing changes the registrations only. -/
theorem close_eq (s : StoredRun) (types : List String) :
    close s types =
      { s with
        awaits := (close s types).awaits, addressedWaits := (close s types).addressedWaits } := by
  induction types generalizing s with
  | nil => rfl
  | cons t types ih =>
    rw [close_cons]
    split
    · exact ih s
    · rw [ih]

@[simp] theorem close_run (s : StoredRun) (types : List String) : (close s types).run = s.run := by
  rw [close_eq]

@[simp] theorem close_id (s : StoredRun) (types : List String) : (close s types).id = s.id := by
  simp [StoredRun.id]

@[simp] theorem close_listeners (s : StoredRun) (types : List String) :
    (close s types).listeners = s.listeners := by
  rw [close_eq]

@[simp] theorem close_subscriptions (s : StoredRun) (types : List String) :
    (close s types).subscriptions = s.subscriptions := by
  rw [close_eq]

@[simp] theorem close_waits (s : StoredRun) (types : List String) :
    (close s types).waits = s.waits := by
  rw [close_eq]

@[simp] theorem close_accepted (s : StoredRun) (types : List String) :
    (close s types).accepted = s.accepted := by
  rw [close_eq]

@[simp] theorem close_pending (s : StoredRun) (types : List String) :
    (close s types).pending = s.pending := by
  rw [close_eq]

@[simp] theorem close_published (s : StoredRun) (types : List String) :
    (close s types).published = s.published := by
  rw [close_eq]

@[simp] theorem close_mailbox (s : StoredRun) (types : List String) :
    (close s types).mailbox = s.mailbox := by
  rw [close_eq]

@[simp] theorem named_close (s : StoredRun) (types : List String) (t : String) :
    named (close s types) t = named s t := by
  unfold named
  rw [close_listeners]

/-- A registration is closed exactly when its type is listed and no listener names it. -/
theorem close_awaits (s : StoredRun) (types : List String) (t : String) :
    (close s types).awaits.get t =
      if t ∈ types ∧ named s t = false then none else s.awaits.get t := by
  induction types generalizing s with
  | nil => simp [close_nil]
  | cons t' types ih =>
    rw [close_cons]
    by_cases hn : named s t' = true
    · rw [if_pos hn, ih]
      by_cases ht : t = t'
      · subst ht; simp [hn]
      · simp [ht]
    · rw [if_neg hn, ih]
      change (if t ∈ types ∧ named s t = false then none else (s.awaits.delete t').get t) = _
      by_cases ht : t = t'
      · subst ht; simp [hn]
      · simp [ht, Table.get_delete_ne _ (Ne.symm ht)]

/-- The same for an addressed wait. -/
theorem mem_close_addressedWaits (s : StoredRun) (types : List String) (t : String) :
    t ∈ (close s types).addressedWaits ↔
      t ∈ s.addressedWaits ∧ ¬(t ∈ types ∧ named s t = false) := by
  induction types generalizing s with
  | nil => simp [close_nil]
  | cons t' types ih =>
    rw [close_cons]
    by_cases hn : named s t' = true
    · rw [if_pos hn, ih]
      by_cases ht : t = t'
      · subst ht; simp [hn]
      · simp [ht]
    · rw [if_neg hn, ih]
      change t ∈ s.addressedWaits.erase t' ∧ ¬(t ∈ types ∧ named s t = false) ↔ _
      by_cases ht : t = t'
      · subst ht; simp [hn]
      · simp [ht]

/-- A type without a registration has none after closing. -/
theorem contains_of_close {s : StoredRun} {types : List String} {t : String}
    (h : (close s types).awaits.contains t = true) : s.awaits.contains t = true := by
  obtain ⟨v, hv⟩ := (Table.contains_iff _ _).mp h
  rw [close_awaits] at hv
  split at hv
  · simp at hv
  · exact (Table.contains_iff _ _).mpr ⟨v, hv⟩

/-! ### Registering -/

theorem registered_cons (s : StoredRun) (t : String) (types : List String) (now : Int) :
    registered s (t :: types) now =
      registered
        { s with
          addressedWaits := Insert.insert t s.addressedWaits
          awaits := if s.awaits.contains t then s.awaits else s.awaits.put t now }
        types now := rfl

/-- Registering changes the registrations only. -/
theorem registered_eq (s : StoredRun) (types : List String) (now : Int) :
    registered s types now =
      { s with
        awaits := (registered s types now).awaits
        addressedWaits := (registered s types now).addressedWaits } := by
  induction types generalizing s with
  | nil => rfl
  | cons t types ih => rw [registered_cons, ih]

@[simp] theorem registered_run (s : StoredRun) (types : List String) (now : Int) :
    (registered s types now).run = s.run := by
  rw [registered_eq]

@[simp] theorem registered_id (s : StoredRun) (types : List String) (now : Int) :
    (registered s types now).id = s.id := by
  simp [StoredRun.id]

@[simp] theorem registered_listeners (s : StoredRun) (types : List String) (now : Int) :
    (registered s types now).listeners = s.listeners := by
  rw [registered_eq]

/-- A registration stands afterwards exactly when it did or its type is listed. -/
theorem registered_awaits (s : StoredRun) (types : List String) (now : Int) (t : String) :
    (registered s types now).awaits.contains t = (s.awaits.contains t || decide (t ∈ types)) := by
  induction types generalizing s with
  | nil => simp [registered]
  | cons t' types ih =>
    rw [registered_cons, ih]
    by_cases ht : t = t'
    · subst ht
      cases hc : s.awaits.contains t with
      | true => simp [hc]
      | false => simp [Table.contains]
    · cases hc : s.awaits.contains t' with
      | true => simp [ht]
      | false => simp [ht, Table.contains, Table.get_put_ne _ _ (Ne.symm ht)]

theorem mem_registered_addressedWaits (s : StoredRun) (types : List String) (now : Int)
    (t : String) :
    t ∈ (registered s types now).addressedWaits ↔ t ∈ s.addressedWaits ∨ t ∈ types := by
  induction types generalizing s with
  | nil => simp [registered]
  | cons t' types ih =>
    rw [registered_cons, ih]
    simp only [Finset.mem_insert, List.mem_cons]
    tauto

/-! ### Taking and adopting -/

@[simp] theorem joined_run (s : StoredRun) (t : String) : (joined s t).run = s.run := by
  unfold joined
  cases stripPrefix t "done:" <;> rfl

@[simp] theorem joined_id (s : StoredRun) (t : String) : (joined s t).id = s.id := by
  simp [StoredRun.id]

/-- Joining drops an internal listener and nothing else. -/
theorem joined_eq (s : StoredRun) (t : String) :
    joined s t = { s with listeners := (joined s t).listeners } := by
  unfold joined
  cases stripPrefix t "done:" <;> rfl

theorem joined_listeners {s : StoredRun} {t k : String} {types : List String}
    (h : (joined s t).listeners.get k = some types) : s.listeners.get k = some types := by
  unfold joined at h
  cases hstrip : stripPrefix t "done:" with
  | none => simpa [hstrip] using h
  | some child => exact Table.of_get_delete (by simpa [hstrip] using h)

@[simp] theorem tookEvent_run (s : StoredRun) (k : String) (types : List String) :
    (tookEvent s k types).run = s.run := by
  simp [tookEvent]

@[simp] theorem tookEvent_id (s : StoredRun) (k : String) (types : List String) :
    (tookEvent s k types).id = s.id := by
  simp [StoredRun.id]

/-- A registration that is added to those there are. -/
theorem contains_awaiting {awaits : Table String Int} {t t' : String} {now : Int} :
    (if awaits.contains t' then awaits else awaits.put t' now).contains t = true ↔
      awaits.contains t = true ∨ t = t' := by
  split
  · next h =>
    refine ⟨.inl, ?_⟩
    rintro (h' | rfl)
    · exact h'
    · exact h
  · unfold Table.contains
    rw [Table.get_put]
    split
    · next heq => simp [heq]
    · next hne => simp [Ne.symm hne]

/-- Adopting a child registers for its notices. -/
theorem adopting_awaits {s : StoredRun} {child : String} {now : Int} {t : String} :
    (adopting s child now).awaits.contains t = true ↔
      s.awaits.contains t = true ∨ t = "done:" ++ child ∨ t = "waiting:" ++ child := by
  unfold adopting
  refine contains_awaiting.trans ?_
  rw [contains_awaiting, or_assoc]

@[simp] theorem adopting_run (s : StoredRun) (child : String) (now : Int) :
    (adopting s child now).run = s.run := rfl

@[simp] theorem uncounted_run (s : StoredRun) (e : StoredEvent) : (uncounted s e).run = s.run := rfl

@[simp] theorem counted_run (s : StoredRun) (e : StoredEvent) : (counted s e).run = s.run := rfl

@[simp] theorem uncounted_id (s : StoredRun) (e : StoredEvent) : (uncounted s e).id = s.id := rfl

@[simp] theorem counted_id (s : StoredRun) (e : StoredEvent) : (counted s e).id = s.id := rfl

/-- The end of an execution settles the state, the wake-up and the interruptions only. -/
theorem finished_eq (c : Core) (s : StoredRun) (outcome : Status) (now : Int) :
    ∃ state wakeAtMs interruptions, (finished c s outcome now).1 =
      { s with run := { s.run with state, wakeAtMs, interruptions } } := by
  cases outcome with
  | waiting wakeAtMs =>
    simp only [finished]
    split <;> exact ⟨_, _, _, rfl⟩
  | interrupted error =>
    simp only [finished]
    split <;> exact ⟨_, _, _, rfl⟩
  | completed | faulted | cancelled => exact ⟨_, _, _, rfl⟩

@[simp] theorem ending_id (s : StoredRun) (status : Status) (spent : Nat) (now : Int) :
    (ending s status spent now).id = s.id := rfl

@[simp] theorem refreshed_run (c : Core) (s : StoredRun) : (refreshed c s).run = s.run := rfl

@[simp] theorem offering_id (s : StoredRun) (now : Int) : (offering s now).id = s.id := rfl

@[simp] theorem refreshed_id (c : Core) (s : StoredRun) : (refreshed c s).id = s.id := rfl

end Engine

end Ouro
