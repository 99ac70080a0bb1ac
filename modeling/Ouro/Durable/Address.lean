import Ouro.Durable.Types

/-!
# Addresses of index rows

The engine keeps, beside each run, index rows derived from its row. An index row is addressed by its
kind (`IndexKind`, with the value it is partitioned by) and its id (`IndexId`): the run, alone or
behind an instant, or a wait of the run behind the instant it was opened. Ids compare as the source's
texts do: an instant first, then the text behind it, where a wait's text joins the hexadecimal forms
of its run and key.
-/

namespace Ouro

open Lib

/-! ### Hexadecimal components -/

/-- A hexadecimal digit. -/
def hexDigit (n : Nat) : Char :=
  if n < 10 then Char.ofNat (0x30 + n) else Char.ofNat (0x57 + n)

/-- The two digits of a byte. -/
def hexByte (b : UInt8) : List Char := [hexDigit (b.toNat / 16), hexDigit (b.toNat % 16)]

/-- The bytes of a text in hexadecimal, which no separator can occur in. -/
def component (s : String) : String :=
  String.ofList (s.toByteArray.data.toList.flatMap hexByte)

private theorem hexDigit_injective : ∀ a < 16, ∀ b < 16, hexDigit a = hexDigit b → a = b := by
  decide

private theorem hexDigit_ne_colon : ∀ a < 16, hexDigit a ≠ ':' := by decide

private theorem hexByte_injective {a b : UInt8} (h : hexByte a = hexByte b) : a = b := by
  have ha := a.toNat_lt
  have hb := b.toNat_lt
  simp only [hexByte, List.cons.injEq, and_true] at h
  have h₁ := hexDigit_injective _ (by omega) _ (by omega) h.1
  have h₂ := hexDigit_injective _ (by omega) _ (by omega) h.2
  apply UInt8.toNat_inj.mp
  omega

private theorem flatMap_hexByte_injective :
    ∀ {as bs : List UInt8}, as.flatMap hexByte = bs.flatMap hexByte → as = bs
  | [], [], _ => rfl
  | [], _ :: _, h => by simp [hexByte] at h
  | _ :: _, [], h => by simp [hexByte] at h
  | a :: as, b :: bs, h => by
    rw [List.flatMap_cons, List.flatMap_cons] at h
    obtain ⟨h₁, h₂⟩ := List.append_inj h rfl
    rw [hexByte_injective h₁, flatMap_hexByte_injective h₂]

theorem component_injective : Function.Injective component := by
  intro a b h
  have h' := flatMap_hexByte_injective (String.ofList_injective h)
  exact String.toByteArray_inj.mp (ByteArray.ext (Array.toList_inj.mp h'))

theorem colon_not_mem_component (s : String) : ':' ∉ (component s).toList := by
  unfold component
  rw [String.toList_ofList, List.mem_flatMap]
  rintro ⟨b, -, hb⟩
  have hlt := b.toNat_lt
  simp only [hexByte, List.mem_cons, List.not_mem_nil, or_false] at hb
  rcases hb with hb | hb
  · exact hexDigit_ne_colon _ (by omega) hb.symm
  · exact hexDigit_ne_colon _ (by omega) hb.symm

/-- The first colon of a text ends the part before it. -/
theorem split_at_colon {u v x y : List Char} (hu : ':' ∉ u) (hv : ':' ∉ v)
    (h : u ++ ':' :: x = v ++ ':' :: y) : u = v ∧ x = y := by
  induction u generalizing v with
  | nil =>
    cases v with
    | nil => exact ⟨rfl, (List.cons.inj h).2⟩
    | cons c v => exact absurd ((List.cons.inj h).1 ▸ List.mem_cons_self) hv
  | cons d u ih =>
    cases v with
    | nil => exact absurd ((List.cons.inj h).1 ▸ List.mem_cons_self) hu
    | cons c v =>
      obtain ⟨rfl, htail⟩ := List.cons.inj h
      have ⟨huv, hxy⟩ := ih (fun hm => hu (List.mem_cons_of_mem _ hm))
        (fun hm => hv (List.mem_cons_of_mem _ hm)) htail
      exact ⟨congrArg (d :: ·) huv, hxy⟩

/-- The text of a wait's address. -/
def waitText (run key : String) : String := component run ++ ":" ++ component key

theorem waitText_injective {r k r' k' : String} (h : waitText r k = waitText r' k') :
    r = r' ∧ k = k' := by
  have h' := congrArg String.toList h
  simp only [waitText, String.toList_append, List.append_assoc] at h'
  obtain ⟨hr, hk⟩ := split_at_colon (colon_not_mem_component r) (colon_not_mem_component r') h'
  exact ⟨component_injective (String.toList_injective hr),
    component_injective (String.toList_injective hk)⟩

/-! ### Index addresses -/

/-- The families of index rows that derive from a run's row. -/
inductive IndexKind where
  | name (name : String)
  | controlRun
  | controlRunOf (name : String)
  | controlEnd
  | controlEndOf (name : String)
  | controlParent (parent : String)
  | controlWait
  | controlWaitDefinition (name : String)
  | controlWaitRun (run : String)
  | controlWaitType (type_ : String)
  | controlWaitDefinitionType (name type_ : String)
  | liveName (name : String)
  | triggerLive (trigger : String)
  | due
  | dueApp (version : String)
  | children (parent : String)
  | wait (type_ : String)
  | subs (type_ : String)
  | mailbox
  | finished
deriving DecidableEq, Repr

/-- The place of a kind and what it is partitioned by. -/
def IndexKind.code : IndexKind → Nat ×ₗ String ×ₗ String
  | .name n => toLex (0, toLex (n, ""))
  | .controlRun => toLex (1, toLex ("", ""))
  | .controlRunOf n => toLex (2, toLex (n, ""))
  | .controlEnd => toLex (3, toLex ("", ""))
  | .controlEndOf n => toLex (4, toLex (n, ""))
  | .controlParent p => toLex (5, toLex (p, ""))
  | .controlWait => toLex (6, toLex ("", ""))
  | .controlWaitDefinition n => toLex (7, toLex (n, ""))
  | .controlWaitRun r => toLex (8, toLex (r, ""))
  | .controlWaitType t => toLex (9, toLex (t, ""))
  | .controlWaitDefinitionType n t => toLex (10, toLex (n, t))
  | .liveName n => toLex (11, toLex (n, ""))
  | .triggerLive k => toLex (12, toLex (k, ""))
  | .due => toLex (13, toLex ("", ""))
  | .dueApp v => toLex (14, toLex (v, ""))
  | .children p => toLex (15, toLex (p, ""))
  | .wait t => toLex (16, toLex (t, ""))
  | .subs t => toLex (17, toLex (t, ""))
  | .mailbox => toLex (18, toLex ("", ""))
  | .finished => toLex (19, toLex ("", ""))

theorem IndexKind.code_injective : Function.Injective IndexKind.code := by
  intro a b h
  cases a <;> cases b <;> simp_all [IndexKind.code]

instance : LinearOrder IndexKind := LinearOrder.lift' _ IndexKind.code_injective

/-- What addresses an index row within its kind. -/
inductive IndexId where
  | run (id : String)
  | timed (at_ : Int) (id : String)
  | wait (since : Int) (id key : String)
deriving DecidableEq, Repr

/-- The run an index row belongs to. -/
def IndexId.owner : IndexId → String
  | .run id | .timed _ id | .wait _ id _ => id

/-- An id as it compares: the form, the instant, the text. -/
def IndexId.code : IndexId → Nat ×ₗ Int ×ₗ String
  | .run id => toLex (0, toLex (0, id))
  | .timed at_ id => toLex (1, toLex (at_, id))
  | .wait since id key => toLex (2, toLex (since, waitText id key))

theorem IndexId.code_injective : Function.Injective IndexId.code := by
  intro a b h
  cases a <;> cases b <;> simp [IndexId.code] at h ⊢ <;> try exact h
  exact ⟨h.1, waitText_injective h.2⟩

instance : LinearOrder IndexId := LinearOrder.lift' _ IndexId.code_injective

/-- Timed rows compare by instant, then by run. -/
theorem IndexId.timed_le_iff {a b : Int} {i j : String} :
    IndexId.timed a i ≤ IndexId.timed b j ↔ a < b ∨ a = b ∧ i ≤ j := by
  change IndexId.code _ ≤ IndexId.code _ ↔ _
  simp [IndexId.code, Prod.Lex.le_iff]

/-- Rows addressed by the run alone compare by it. -/
theorem IndexId.run_lt_iff {i j : String} : IndexId.run i < IndexId.run j ↔ i < j := by
  change IndexId.code _ < IndexId.code _ ↔ _
  simp [IndexId.code, Prod.Lex.lt_iff]

/-- The address of an index row. -/
abbrev IndexKey : Type := IndexKind ×ₗ IndexId

/-- An address of its kind and id. -/
def indexKey (kind : IndexKind) (id : IndexId) : IndexKey := toLex (kind, id)

@[simp] theorem indexKey_inj {k k' : IndexKind} {i i' : IndexId} :
    indexKey k i = indexKey k' i' ↔ k = k' ∧ i = i' := by
  simp [indexKey]

/-- What an index row holds: the run it leads to, or the wait it lists. -/
inductive IndexValue where
  | run (id : String)
  | wait (entry : Wait)
deriving DecidableEq

end Ouro
