import Ouro.Ows.Acts

/-!
# What no run does

Of every legal run: `Sound` says what its journal holds. An attempt after the first was decided on, and a
decision was made about an attempt that had failed (`Sound.begun`, `Sound.failed`), so by `Failed.excludes`
nothing happens in an attempt once it was decided on. A call of the first attempt can therefore not begin
after one of a later attempt, which is why the check of the later ones is enough: of the calls with one
logical identity, at most one stands (`Sound.single`).
-/

namespace Ouro.Interp

open Lib Ows

variable {w : Ows.Workflow} {ceiling : Nat} {log : List Act} {J : Table String Record} {l m : List Segment}

/-! ### The journal of a legal run -/

structure Sound (w : Ows.Workflow) (ceiling : Nat) (J : Table String Record) : Prop where
  /-- A call's record names its invocation and its logical identity. -/
  named : ∀ key logical name args delivery state ann, J.get key = some (.call logical name args delivery state ann) →
    ∃ m, (w.follow w.top m).isSome ∧ key = recordKey m .call ∧ logical = reference (firstAttempts m)
  begun : ∀ l k index name visit later kind,
    (w.follow w.top (l ++ .list (.attempt k) index name visit :: later)).isSome →
    (J.get (recordKey (l ++ .list (.attempt k) index name visit :: later) kind)).isSome → Begun J l (.attempt k)
  failed : ∀ l k r, (w.follow w.top l).isSome → J.get (recordKey l (.decision k)) = some r → Failed w J l k
  bounded : ∀ l k delay, (w.follow w.top l).isSome →
    J.get (recordKey l (.decision k)) = some (.retry (some delay)) → k < ceiling
  /-- Of the calls with one logical identity, one stands. -/
  single : ∀ key key' logical r r', J.get key = some r → J.get key' = some r' →
    Record.stands logical r = true → Record.stands logical r' = true → key = key'

theorem Failed.positive {k : Nat} (h : Failed w J l k) : 1 ≤ k := by
  obtain ⟨t, tasks, n, i, visits, name, -, htasks, -⟩ := h
  by_contra hk
  obtain rfl : k = 0 := by omega
  cases hkind : t.kind <;> simp [Task.nested, hkind] at htasks

/-- The task that an attempt has failed at is one of the definition. -/
theorem Failed.task {k : Nat} (h : Failed w J l k) : ∃ i name visit,
    (w.follow w.top (l ++ [.list (.attempt k) i name visit])).isSome ∧
      Faulted J (l ++ [.list (.attempt k) i name visit]) := by
  obtain ⟨t, tasks, n, i, visits, name, ht, htasks, -, hname, hfaulted⟩ := h
  refine ⟨i, name, visits i, ?_, hfaulted⟩
  rw [List.getElem?_map, Option.map_eq_some_iff] at hname
  obtain ⟨row, hrow, rfl⟩ := hname
  have htask : Segment.task w t (.list (.attempt k) i row.1 (visits i)) = some row.2 := by
    rw [Segment.task, htasks, Option.bind_some, taskAt, hrow, Option.bind_some, if_pos rfl]
  rw [follow_snoc ht htask]
  rfl

namespace Sound

variable (h : Sound w ceiling J)
include h

/-- With an attempt, every one before it has failed. -/
theorem failed_before {j k : Nat} (hl : (w.follow w.top l).isSome) (hk : Failed w J l k) (hj : 1 ≤ j)
    (hjk : j ≤ k) : Failed w J l j := by
  -- induction on the attempts behind the one in question; each was begun by a decision about the one before
  induction k with
  | zero => exact absurd hk.positive (by omega)
  | succ k ih =>
    rcases Nat.lt_or_ge k j with hlt | hle
    · obtain rfl : j = k + 1 := by omega
      exact hk
    · obtain ⟨i, name, visit, hvalid, ms, ctx, e, fatal, hget⟩ := hk.task
      obtain ⟨delay, hdecision⟩ := h.begun l (k + 1) i name visit [] .task hvalid (by rw [hget]; rfl) (by omega)
      exact ih (h.failed l k _ hl hdecision) hle

/-- With a record in a later attempt, every one before it has failed. -/
theorem failed_of_record {j k index visit : Nat} {name : String} {later : List Segment} {kind : RecordKind}
    (hvalid : (w.follow w.top (l ++ .list (.attempt k) index name visit :: later)).isSome)
    (hrecord : (J.get (recordKey (l ++ .list (.attempt k) index name visit :: later) kind)).isSome)
    (hj : 1 ≤ j) (hjk : j < k) : Failed w J l j := by
  obtain ⟨delay, hdecision⟩ := h.begun l k index name visit later kind hvalid hrecord (by omega)
  exact h.failed_before (follow_initial hvalid) (h.failed l (k - 1) _ (follow_initial hvalid) hdecision) hj
    (by omega)

end Sound

/-- Two invocations that are the same up to the attempts around them, one of them in first attempts only,
part at a later attempt. -/
theorem parts_at_attempt {m m' : List Segment} (h : firstAttempts m' = m) (hne : m' ≠ m) :
    ∃ first k index name visit later later', m' = first ++ .list (.attempt k) index name visit :: later' ∧
      m = first ++ .list (.attempt 1) index name visit :: later ∧ k ≠ 1 := by
  induction m' generalizing m with
  | nil =>
    subst h
    exact absurd rfl hne
  | cons s rest ih =>
    rw [firstAttempts, List.map_cons] at h
    subst h
    cases hs : s.later with
    | true =>
      -- this is the attempt that is not the first
      obtain ⟨k, index, name, visit, rfl, hk⟩ := Segment.later_eq_true hs
      exact ⟨[], k, index, name, visit, _, rest, rfl, rfl, hk⟩
    | false =>
      -- it is further in
      rw [Segment.toFirst_of_first hs] at hne ⊢
      have hrest : rest ≠ firstAttempts rest := fun heq => hne (congrArg (s :: ·) heq)
      obtain ⟨first, k, index, name, visit, later, later', hm', hm, hk⟩ := ih rfl hrest
      refine ⟨s :: first, k, index, name, visit, later, later', congrArg (s :: ·) hm', ?_, hk⟩
      exact congrArg (s :: ·) hm

theorem attempt_positive {k index visit : Nat} {name : String} {later : List Segment}
    (h : (w.follow w.top (l ++ .list (.attempt k) index name visit :: later)).isSome) : k ≠ 0 := by
  rintro rfl
  rw [follow_append] at h
  cases hl : w.follow w.top l with
  | none => rw [hl] at h; cases h
  | some t =>
    rw [hl, Option.bind_some] at h
    obtain ⟨t', htask, -⟩ := follow_cons h
    obtain ⟨tasks, htasks, -⟩ := Segment.task_list htask
    cases hkind : t.kind <;> simp [Task.nested, hkind] at htasks

/-- The first intent of a call: no call with its logical identity stands. -/
theorem Sound.none_stands (h : Sound w ceiling J) {t : Ows.Task} (hcurrent : Current w J m t)
    (hsafe : firstAttempts m ≠ m → ∀ k r, k ≠ recordKey m .call → J.get k = some r →
      Record.stands (reference (firstAttempts m)) r = false) {key : String} {r : Record}
    (hkey : key ≠ recordKey m .call) (hget : J.get key = some r) :
    Record.stands (reference (firstAttempts m)) r = false := by
  -- an attempt that is not the first checks its call; a first one has failed where a later one has a record
  by_cases hm : firstAttempts m = m
  · by_contra hstands
    rw [Bool.not_eq_false] at hstands
    obtain ⟨name, args, state, ann, rfl, -⟩ := stands_iff.mp hstands
    obtain ⟨m', hvalid', rfl, hlogical⟩ := h.named _ _ _ _ _ _ _ hget
    have hsame : firstAttempts m' = m := by
      rw [← hm]
      exact (reference_injective (follow_firstAttempts hcurrent.isSome) (follow_firstAttempts hvalid')
        hlogical).symm
    -- the call that stands is in a later attempt, so the first one has failed and this one is not current
    obtain ⟨first, k, index, name, visit, later, later', rfl, rfl, hk⟩ :=
      parts_at_attempt hsame (fun heq => hkey (by rw [heq]))
    have hk0 := attempt_positive hvalid'
    have hrecord : (J.get (recordKey (first ++ .list (.attempt k) index name visit :: later') .call)).isSome := by
      rw [hget]
      rfl
    exact (h.failed_of_record hvalid' hrecord (Nat.le_refl 1) (by omega)).excludes hcurrent
  · exact hsafe hm key r hkey hget

/-! ### What one save changes -/

/-- A save that is no call's leaves what the journal says of calls. -/
structure Plain (r : Record) : Prop where
  call : ∀ logical name args delivery state ann, r ≠ .call logical name args delivery state ann

theorem Plain.stands {r : Record} (h : Plain r) (logical : String) : Record.stands logical r = false := by
  by_contra hstands
  rw [Bool.not_eq_false] at hstands
  obtain ⟨name, args, state, ann, hr, -⟩ := stands_iff.mp hstands
  exact h.call _ _ _ _ _ _ hr

/-- One save under an invocation in progress keeps the journal sound. -/
theorem Sound.put (h : Sound w ceiling J) {t : Ows.Task} {kind : RecordKind} {r : Record}
    (hcurrent : Current w J m t) (htakes : takes J (recordKey m kind) r = true)
    (hrule : Rule w ceiling J m kind r) : Sound w ceiling (J.put (recordKey m kind) r) := by
  have hgrows := grows_put htakes
  have hvalid := hcurrent.isSome
  -- what a call's save may be, and that it stands only where the call stood, or where no other does
  have hcall : ∀ logical name args delivery state ann, r = .call logical name args delivery state ann →
      kind = .call ∧ logical = reference (firstAttempts m) := by
    rintro logical name args delivery state ann rfl
    cases hrule with
    | intent => exact ⟨rfl, rfl⟩
    | again hpending | answer hpending =>
      obtain ⟨m', hvalid', hkey, hlogical⟩ := h.named _ _ _ _ _ _ _ hpending
      exact ⟨rfl, by rw [hlogical, (recordKey_inj hvalid hvalid' hkey).1]⟩
  have hstands : ∀ logical, Record.stands logical r = true →
      (∃ old, J.get (recordKey m kind) = some old ∧ Record.stands logical old = true) ∨
      ∀ key old, key ≠ recordKey m kind → J.get key = some old → Record.stands logical old = false := by
    intro logical hr
    obtain ⟨name, args, state, ann, rfl, hstate⟩ := stands_iff.mp hr
    cases hrule with
    | intent hnone hsafe => exact .inr fun key old hkey => h.none_stands hcurrent (hsafe rfl) hkey
    | answer hpending => exact .inl ⟨_, hpending, stands_iff.mpr ⟨_, _, _, _, rfl, rfl⟩⟩
  refine ⟨?_, ?_, ?_, ?_, ?_⟩
  -- a call's record has its logical identity
  · intro key logical name args delivery state ann hget
    rw [Table.get_put] at hget
    split at hget
    · next hkey =>
      obtain ⟨rfl, rfl⟩ := hcall _ _ _ _ _ _ (Option.some.inj hget)
      exact ⟨m, hvalid, hkey.symm, rfl⟩
    · exact h.named _ _ _ _ _ _ _ hget
  -- a record in a later attempt: the save is made inside what is in progress
  · intro l k index name visit later kind' hvalid' hget
    rw [Table.get_put] at hget
    split at hget
    · next hkey =>
      obtain ⟨rfl, -⟩ := recordKey_inj hvalid hvalid' hkey
      obtain ⟨t₀, -, ⟨tasks, n, visits, -, -, -, hbegun⟩, -⟩ := hcurrent.around
      exact hbegun.grows hgrows
    · exact (h.begun l k index name visit later kind' hvalid' hget).grows hgrows
  -- a decision follows the failure of its attempt
  · intro l k r' hvalid' hget
    rw [Table.get_put] at hget
    split at hget
    · next hkey =>
      obtain ⟨rfl, rfl⟩ := recordKey_inj hvalid hvalid' hkey
      cases hrule with
      | decision hnone hfailed => exact hfailed.grows hgrows
    · exact (h.failed l k r' hvalid' hget).grows hgrows
  -- and its number is within the ceiling
  · intro l k delay hvalid' hget
    rw [Table.get_put] at hget
    split at hget
    · next hkey =>
      obtain ⟨rfl, rfl⟩ := recordKey_inj hvalid hvalid' hkey
      cases hrule with
      | decision hnone hfailed hceiling =>
        obtain rfl := Record.retry.inj (Option.some.inj hget)
        exact hceiling rfl
    · exact h.bounded l k delay hvalid' hget
  · -- a row that stands is one that stood, or that of the save
    have hone : ∀ key key' logical r₁ r₂, key = recordKey m kind → key' ≠ recordKey m kind → r₁ = r →
        J.get key' = some r₂ → Record.stands logical r₁ = true → Record.stands logical r₂ = true → False := by
      rintro key key' logical r₁ r₂ rfl hkey' rfl hget₂ h₁ h₂
      rcases hstands logical h₁ with ⟨old, hold, hs⟩ | hnone
      · exact hkey' (h.single _ _ _ _ _ hget₂ hold h₂ hs)
      · rw [hnone key' r₂ hkey' hget₂] at h₂
        cases h₂
    intro key key' logical r₁ r₂ hget₁ hget₂ h₁ h₂
    rw [Table.get_put] at hget₁ hget₂
    split at hget₁
    · next hkey =>
      split at hget₂
      · next hkey' => rw [← hkey, ← hkey']
      · next hkey' =>
        exact (hone key key' logical r₁ r₂ hkey.symm (Ne.symm hkey') (Option.some.inj hget₁).symm hget₂ h₁ h₂).elim
    · next hkey =>
      split at hget₂
      · next hkey' =>
        exact (hone key' key logical r₂ r₁ hkey'.symm (Ne.symm hkey) (Option.some.inj hget₂).symm hget₁ h₂ h₁).elim
      · exact h.single _ _ _ _ _ hget₁ hget₂ h₁ h₂

/-- So does a save of the run's own records. -/
theorem Sound.own (h : Sound w ceiling J) {key : String} {r : Record}
    (hkey : key = executionKey ∨ key = finishedKey) (htakes : takes J key r = true) (hplain : Plain r) :
    Sound w ceiling (J.put key r) := by
  have hgrows := grows_put htakes
  have hget : ∀ l kind, (J.put key r).get (recordKey l kind) = J.get (recordKey l kind) := fun l kind =>
    Table.get_put_ne _ _ (own_ne_recordKey hkey l kind)
  -- every other row is as it was
  have hrow : ∀ key' r', (J.put key r).get key' = some r' → J.get key' = some r' ∨ r' = r := by
    intro key' r' hr'
    rw [Table.get_put] at hr'
    split at hr'
    · exact .inr (Option.some.inj hr').symm
    · exact .inl hr'
  refine ⟨?_, ?_, ?_, ?_, ?_⟩
  · intro key' logical name args delivery state ann hr'
    rcases hrow _ _ hr' with hold | rfl
    · exact h.named _ _ _ _ _ _ _ hold
    · exact absurd rfl (hplain.call _ _ _ _ _ _)
  · intro l k index name visit later kind hvalid hsome
    rw [hget] at hsome
    exact (h.begun l k index name visit later kind hvalid hsome).grows hgrows
  · intro l k r' hvalid hr'
    rw [hget] at hr'
    exact (h.failed l k r' hvalid hr').grows hgrows
  · intro l k delay hvalid hr'
    rw [hget] at hr'
    exact h.bounded l k delay hvalid hr'
  · intro key' key'' logical r₁ r₂ h₁ h₂ hs₁ hs₂
    have hold : ∀ key' r', (J.put key r).get key' = some r' → Record.stands logical r' = true →
        J.get key' = some r' := by
      intro key' r' hr' hs
      rcases hrow _ _ hr' with hold | rfl
      · exact hold
      · rw [hplain.stands] at hs
        cases hs
    exact h.single _ _ _ _ _ (hold _ _ h₁ hs₁) (hold _ _ h₂ hs₂) hs₁ hs₂

theorem sound_empty : Sound w ceiling .empty where
  named _ _ _ _ _ _ _ h := by cases h
  begun _ _ _ _ _ _ _ _ h := by cases h
  failed _ _ _ _ h := by cases h
  bounded _ _ _ _ h := by cases h
  single _ _ _ _ _ h := by cases h

theorem Legal.sound (h : Legal w ceiling log) : Sound w ceiling (journalOf log) := by
  -- by what was done last
  induction h with
  | nil => exact sound_empty
  | begin_ _ ih => exact ih
  | own _ hkey htakes hown ih => exact ih.own hkey htakes ⟨hown⟩
  | act _ ha ih =>
    cases ha with
    | save _ hcurrent htakes hrule => exact ih.put hcurrent htakes hrule
    | send => exact ih

end Ouro.Interp
