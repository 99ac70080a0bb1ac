import Ouro.Durable.Fencing

/-!
# Owned trees

The parent links of stored runs form a forest that ends together. `Tree` holds of the rows when every
parent is stored, a child's root is that of its parent, a live run has a live parent, and links
descend (a rank on ids decreases towards the parent). A move keeps it (`Tree.move`): a child is born
under a running parent, and a run ends with the whole of its live subtree.

`Owns` is the parent relation of the stored runs; `Tree.acyclic` and `Tree.topmost` read the forest
off the invariant.
-/

namespace Ouro

open Lib Engine

variable {env : Env} {now : Int} {may : String → Act → Prop}

/-! ### What moves keep of a row -/

theorem Rewrite.lineage {c : Core} {s s' : StoredRun} (h : Rewrite c now may s s') :
    s'.run.child = s.run.child ∧ s'.run.root = s.run.root := by
  cases h with
  | park outcome =>
    obtain ⟨state, wakeAtMs, interruptions, heq⟩ := finished_eq c s outcome now
    rw [heq]
    exact ⟨rfl, rfl⟩
  | register | unregister | settle => simp
  | _ => exact ⟨rfl, rfl⟩

/-- A change keeps the parent link and the root of a run. -/
theorem RowChange.lineage {c : Core} {s s' : StoredRun} (h : RowChange env c now may s s') :
    s'.run.child = s.run.child ∧ s'.run.root = s.run.root := by
  cases h with
  | rewrite h => exact h.lineage
  | accept e => rw [counted_run]; split <;> exact ⟨rfl, rfl⟩
  | notify t => rw [counted_run]; split <;> exact ⟨rfl, rfl⟩
  | take => simp
  | _ => exact ⟨rfl, rfl⟩

/-- What a run is admitted with: its admission and epoch, its trigger and what it rearms. -/
structure SameBirth (s s' : StoredRun) : Prop where
  admission : s'.run.admission = s.run.admission
  epoch : s'.run.epoch = s.run.epoch
  trigger : s'.trigger = s.trigger
  rearm : s'.rearm = s.rearm

theorem SameBirth.refl (s : StoredRun) : SameBirth s s := ⟨rfl, rfl, rfl, rfl⟩

theorem SameBirth.trans {s s' s'' : StoredRun} (h : SameBirth s s') (h' : SameBirth s' s'') :
    SameBirth s s'' :=
  ⟨h'.admission.trans h.admission, h'.epoch.trans h.epoch, h'.trigger.trans h.trigger,
    h'.rearm.trans h.rearm⟩

theorem close_birth (s : StoredRun) (types : List String) : SameBirth s (close s types) := by
  rw [close_eq]
  exact ⟨rfl, rfl, rfl, rfl⟩

theorem Rewrite.birth {c : Core} {s s' : StoredRun} (h : Rewrite c now may s s') :
    SameBirth s s' := by
  cases h with
  | park outcome =>
    obtain ⟨state, wakeAtMs, interruptions, heq⟩ := finished_eq c s outcome now
    rw [heq]
    exact ⟨rfl, rfl, rfl, rfl⟩
  | register types =>
    rw [registered_eq]
    exact ⟨rfl, rfl, rfl, rfl⟩
  | unregister k types =>
    rw [close_eq]
    exact ⟨rfl, rfl, rfl, rfl⟩
  | settle child => exact close_birth s _
  | _ => exact ⟨rfl, rfl, rfl, rfl⟩

/-- No change touches what a run was admitted with. -/
theorem RowChange.birth {c : Core} {s s' : StoredRun} (h : RowChange env c now may s s') :
    SameBirth s s' := by
  cases h with
  | rewrite h => exact h.birth
  | accept e => unfold counted; split <;> exact ⟨rfl, rfl, rfl, rfl⟩
  | notify t => unfold counted; split <;> exact ⟨rfl, rfl, rfl, rfl⟩
  | take c' k types n e =>
    unfold tookEvent
    rw [close_eq, joined_eq]
    exact ⟨rfl, rfl, rfl, rfl⟩
  | _ => exact ⟨rfl, rfl, rfl, rfl⟩

theorem Rewrite.ended_eq {c : Core} {s s' : StoredRun} (h : Rewrite c now may s s') :
    s'.run.endedMs = s.run.endedMs := by
  cases h with
  | park outcome =>
    obtain ⟨state, wakeAtMs, interruptions, heq⟩ := finished_eq c s outcome now
    rw [heq]
    rfl
  | register | unregister | settle => simp
  | _ => rfl

/-- A change keeps the end of a run, unless it ends it. -/
theorem RowChange.ended_eq {c : Core} {s s' : StoredRun} (h : RowChange env c now may s s') :
    s'.run.endedMs = s.run.endedMs ∨
      s.run.endedMs = none ∧ ∃ status spent, s' = ending s status spent now := by
  cases h with
  | rewrite h => exact .inl h.ended_eq
  | accept e => rw [counted_run]; split <;> exact .inl rfl
  | notify t => rw [counted_run]; split <;> exact .inl rfl
  | take => simp
  | finish status spent hl => exact .inr ⟨hl, status, spent, rfl⟩
  | _ => exact .inl rfl

/-- No change revives a run. -/
theorem RowChange.live {c : Core} {s s' : StoredRun} (h : RowChange env c now may s s')
    (hl : s'.run.endedMs = none) : s.run.endedMs = none := by
  rcases h.ended_eq with heq | ⟨hlive, -⟩
  · rw [← heq, hl]
  · exact hlive

/-- A row stays under its id. -/
theorem Move.keyed {c c' : Core} (h : Move env now may c c')
    (hkeyed : ∀ k s, c.run.get k = some s → s.id = k) :
    ∀ k s, c'.run.get k = some s → s.id = k := by
  intro k s hk
  have hrow := h.row k
  rw [hk] at hrow
  generalize hold : c.run.get k = row at hrow
  cases hrow with
  | same => exact hkeyed k s hold
  | new hid => exact hid
  | change hid h => rw [h.id_eq, hid]

/-- A stored run stays stored. -/
theorem Move.stored {c c' : Core} (h : Move env now may c c') {i : String} {s : StoredRun}
    (hs : c.run.get i = some s) :
    ∃ s', c'.run.get i = some s' ∧ (s' = s ∨ RowChange env c now may s s') := by
  have hrow := h.row i
  rw [hs] at hrow
  generalize c'.run.get i = row at hrow
  cases hrow with
  | same => exact ⟨s, rfl, .inl rfl⟩
  | change hid h => exact ⟨_, rfl, .inr h⟩

/-- Either a move ends no run, or it ends a run with its live subtree and nothing else. -/
theorem Move.live_or_finish {c c' : Core} (h : Move env now may c c') :
    (∀ i s s', c.run.get i = some s → c'.run.get i = some s' →
      s'.run.endedMs = s.run.endedMs) ∨
    ∃ root ids, may root .finish ∧ Subtree c root ids ∧
      (∀ i, c.run.get i = none → c'.run.get i = none) ∧
      ∀ i s s', c.run.get i = some s → c'.run.get i = some s' → s.run.endedMs = none →
        (s'.run.endedMs = none ↔ i ∉ root :: ids) := by
  -- a move that writes one row and leaves its end as it was
  have hset : ∀ {d : Core} {s₀ s₁ : StoredRun}, d.run = c.run → c.run.get s₀.id = some s₀ →
      s₁.id = s₀.id → s₁.run.endedMs = s₀.run.endedMs →
      ∀ i s s', c.run.get i = some s → (d.set s₁).run.get i = some s' →
        s'.run.endedMs = s.run.endedMs := by
    intro d s₀ s₁ hd hs₀ hid hended i s s' hs hs'
    rw [Core.get_set, hd, hid] at hs'
    split at hs'
    · next hi =>
      subst hi
      rw [← Option.some.inj hs', ← Option.some.inj (hs₀.symm.trans hs), hended]
    · rw [Option.some.inj (hs.symm.trans hs')]
  -- a move that inserts a row: the row was not there before
  have hnew : ∀ {s₁ : StoredRun}, c.run.get s₁.id = none →
      ∀ i s s', c.run.get i = some s → (c.set s₁).run.get i = some s' →
        s'.run.endedMs = s.run.endedMs := by
    intro s₁ hnone i s s' hs hs'
    rw [Core.get_set] at hs'
    split at hs'
    · next hi => rw [hi, hs] at hnone; simp at hnone
    · rw [Option.some.inj (hs.symm.trans hs')]
  -- only an end writes the end of a run
  cases h with
  | admission a digest epoch trigger rearm ha => exact .inl (hnew ha)
  | refuse a digest epoch error ha => exact .inl (hnew ha)
  | bear a digest epoch link ha => exact .inl (hnew ha)
  | rewrite hs h => exact .inl (hset rfl hs h.id_eq h.ended_eq)
  | record | spend | dropBudget =>
    refine .inl fun i s s' hs hs' => ?_
    rw [Option.some.inj (hs.symm.trans hs')]
  -- an accepted event changes counters, not the end
  | accept e hs hl he =>
    have hchange : RowChange env c now may _ _ := .accept e hl he
    refine .inl (hset rfl hs hchange.id_eq ?_)
    rw [counted_run]; split <;> rfl
  | notify t data hs hl =>
    have hchange : RowChange env c now may _ _ := .notify t data hl
    refine .inl (hset rfl hs hchange.id_eq ?_)
    rw [counted_run]; split <;> rfl
  | expire n e at_ taken hs hl => exact .inl (hset rfl hs rfl rfl)
  | take k types n e event hs hr => exact .inl (hset rfl hs (by simp) (by simp))
  | offer n e hs hl => exact .inl (hset rfl hs rfl rfl)
  | @forget s at_ hs hl => exact .inl (hset (run_forgetRows c s.id) hs rfl rfl)
  | @finish s₀ status spent ids hs hl ht hids hmay =>
    -- the end of `s₀` and of the runs `ids` of its live subtree
    obtain ⟨hs', hnodup⟩ := List.nodup_cons.mp hids.nodup
    have hid : (ending s₀ status spent now).id = s₀.id := rfl
    refine .inr ⟨s₀.id, ids, hmay, hids, fun i hnone => ?_, fun i s s' hi hi' hlive => ?_⟩
    · have hne : s₀.id ≠ i := by rintro rfl; simp [hs] at hnone
      rw [Core.get_ended hnodup, Core.get_set, hid, if_neg hne, hnone]
      simp
    rw [Core.get_ended hnodup, Core.get_set, hid] at hi'
    -- `s₀` itself has ended now
    by_cases heq : s₀.id = i
    · subst heq
      rw [if_neg hs', if_pos rfl] at hi'
      simp [← Option.some.inj hi', ending]
    -- another run has ended exactly when it is one of `ids`
    · rw [if_neg heq, hi] at hi'
      by_cases hmem : i ∈ ids
      · rw [if_pos hmem] at hi'
        simp [← Option.some.inj hi', ending, hmem]
      · rw [if_neg hmem] at hi'
        simp [← Option.some.inj hi', hlive, hmem, Ne.symm heq]

/-! ### The invariant -/

/-- The parent links of the stored runs form a forest that ends together. -/
structure Tree (c : Core) : Prop where
  keyed : ∀ k s, c.run.get k = some s → s.id = k
  /-- A parent is stored, its root is the child's, and it is live while the child is. -/
  parent : ∀ i s link, c.run.get i = some s → s.run.child = some link →
    ∃ p, c.run.get link.parent = some p ∧ s.run.root = some (p.run.root.getD p.id) ∧
      (s.run.endedMs = none → p.run.endedMs = none)
  /-- A run without a parent is its own root. -/
  root : ∀ i s, c.run.get i = some s → s.run.child = none → s.run.root = none
  /-- Links descend. -/
  rank : ∃ rank : String → Nat, ∀ i s link, c.run.get i = some s → s.run.child = some link →
    rank link.parent < rank i

theorem Tree.empty : Tree Rows.empty.toCore where
  keyed k s h := by simp [Rows.empty] at h
  parent i s link h := by simp [Rows.empty] at h
  root i s h := by simp [Rows.empty] at h
  rank := ⟨fun _ => 0, fun i s link h => by simp [Rows.empty] at h⟩

/-- The row a stored run comes from: a stored one with the same lineage, or a first row. -/
theorem Move.origin {c c' : Core} (h : Move env now may c c') {i : String} {s' : StoredRun}
    (hs' : c'.run.get i = some s') :
    (∃ s, c.run.get i = some s ∧ s'.run.child = s.run.child ∧ s'.run.root = s.run.root ∧
        (s'.run.endedMs = none → s.run.endedMs = none)) ∨
      c.run.get i = none ∧ s'.id = i ∧ NewRow c now may s' := by
  have hrow := h.row i
  rw [hs'] at hrow
  generalize hold : c.run.get i = row at hrow
  cases hrow with
  | same => exact .inl ⟨s', rfl, rfl, rfl, fun h => h⟩
  | new hid h => exact .inr ⟨rfl, hid, h⟩
  | change hid h => exact .inl ⟨_, rfl, h.lineage.1, h.lineage.2, h.live⟩

/-- A move keeps the forest. -/
theorem Tree.move {c c' : Core} (h : Tree c) (hsane : ∀ i s, c.run.get i = some s → Sane s)
    (hmove : Move env now may c c') : Tree c' where
  keyed := hmove.keyed h.keyed
  parent i s' link hs' hlink := by
    -- the parent as it is stored after the move
    have hparent : ∀ p, c.run.get link.parent = some p → ∃ p', c'.run.get link.parent = some p' ∧
        p'.run.root.getD p'.id = p.run.root.getD p.id := by
      intro p hp
      obtain ⟨p', hp', rfl | hchange⟩ := hmove.stored hp
      · exact ⟨p', hp', rfl⟩
      · exact ⟨p', hp', by rw [hchange.lineage.2, hchange.id_eq]⟩
    -- a link is that of a row stored before, or that of a child born by this move
    rcases hmove.origin hs' with ⟨s, hs, hchild, hroot, hlive⟩ | ⟨hnone, hid, hnew⟩
    · obtain ⟨p, hp, hproot, hplive⟩ := h.parent i s link hs (by rw [← hchild, hlink])
      obtain ⟨p', hp', hroot'⟩ := hparent p hp
      refine ⟨p', hp', by rw [hroot, hproot, hroot'], fun hl' => ?_⟩
      have hl := hlive hl'
      rcases hmove.live_or_finish with hkeep | ⟨root, ids, -, hsub, hnone, hfinish⟩
      · rw [hkeep _ p p' hp hp', hplive hl]
      · -- an ended parent would have ended its live child with it
        refine (hfinish _ p p' hp hp' (hplive hl)).mpr fun hmem => ?_
        have hsid := h.keyed i s hs
        have hclosed := hsub.closed s link (by rw [hsid]; exact hs) hl (by rw [← hchild, hlink]) hmem
        rw [hsid] at hclosed
        exact (hfinish i s s' hs hs' hl).mp hl' hclosed
    -- a child is born under a running parent
    · cases hnew with
      | admission | refuse => simp [fresh, stillborn] at hlink
      | @bear p a digest epoch link' hp hlink' hr =>
        obtain rfl : link' = link := by simpa [linked] using hlink
        rw [← hlink'] at hp
        have hplive : p.run.endedMs = none := (hsane _ _ hp).live_of_running hr
        obtain ⟨p', hp', hroot'⟩ := hparent p hp
        refine ⟨p', hp', by rw [hroot']; rfl, fun _ => ?_⟩
        rcases hmove.live_or_finish with hkeep | ⟨root, ids, -, hsub, hstored, hfinish⟩
        · rw [hkeep _ p p' hp hp', hplive]
        · -- a move that ends runs stores no first row
          simp [hstored i hnone] at hs'
  -- the root of a run without a parent is itself, before as after
  root i s' hs' hchild' := by
    rcases hmove.origin hs' with ⟨s, hs, hchild, hroot, -⟩ | ⟨-, -, hnew⟩
    · rw [hroot]
      exact h.root i s hs (by rw [← hchild, hchild'])
    · cases hnew with
      | admission | refuse => rfl
      | bear => simp [linked] at hchild'
  rank := by
    obtain ⟨rank, hrank⟩ := h.rank
    -- a first row ranks just above its parent
    refine ⟨fun j => if c.run.get j = none then
      ((c'.run.get j).bind (·.run.child)).elim 0 fun link => rank link.parent + 1 else rank j, ?_⟩
    intro i s' link hs' hlink
    rcases hmove.origin hs' with ⟨s, hs, hchild, -, -⟩ | ⟨hnone, hid, hnew⟩
    · obtain ⟨p, hp, -, -⟩ := h.parent i s link hs (by rw [← hchild, hlink])
      simp only [hs, hp, reduceCtorEq, if_false]
      -- ranks of rows that were stored stay, and their links with them
      exact hrank i s link hs (by rw [← hchild, hlink])
    -- the child of this move
    · cases hnew with
      | admission | refuse => simp [fresh, stillborn] at hlink
      | @bear p a digest epoch link' hp hlink' hr =>
        obtain rfl : link' = link := by simpa [linked] using hlink
        rw [← hlink'] at hp
        simp only [hp, hnone, hs', reduceCtorEq, if_false, if_true]
        simp [linked]

/-! ### The forest -/

/-- `i` is the parent of `j` among the stored runs. -/
def Owns (c : Core) (i j : String) : Prop :=
  ∃ s link, c.run.get j = some s ∧ s.run.child = some link ∧ link.parent = i

/-- No run is its own ancestor. -/
theorem Tree.acyclic {c : Core} (h : Tree c) (i : String) : ¬Relation.TransGen (Owns c) i i := by
  obtain ⟨rank, hrank⟩ := h.rank
  have hlt : ∀ {j k}, Relation.TransGen (Owns c) j k → rank j < rank k := by
    intro j k hjk
    induction hjk with
    | single hown =>
      obtain ⟨s, link, hs, hlink, rfl⟩ := hown
      exact hrank _ s link hs hlink
    | tail _ hown ih =>
      obtain ⟨s, link, hs, hlink, rfl⟩ := hown
      exact ih.trans (hrank _ s link hs hlink)
  exact fun hii => lt_irrefl _ (hlt hii)

/-- The root of a run is its topmost ancestor: it is reached along parent links and has no parent. -/
theorem Tree.topmost {c : Core} (h : Tree c) {i : String} {s : StoredRun}
    (hs : c.run.get i = some s) :
    Relation.ReflTransGen (Owns c) (s.run.root.getD s.id) i ∧
      ∃ r, c.run.get (s.run.root.getD s.id) = some r ∧ r.run.child = none := by
  obtain ⟨rank, hrank⟩ := h.rank
  induction hn : rank i using Nat.strong_induction_on generalizing i s with
  | _ n ih =>
    cases hchild : s.run.child with
    | none =>
      rw [h.root i s hs hchild, Option.getD_none, h.keyed i s hs]
      exact ⟨.refl, s, hs, hchild⟩
    | some link =>
      obtain ⟨p, hp, hroot, -⟩ := h.parent i s link hs hchild
      obtain ⟨hreach, r, hr, hrchild⟩ := ih _ (hn ▸ hrank i s link hs hchild) hp rfl
      rw [hroot, Option.getD_some]
      exact ⟨hreach.tail ⟨s, link, hs, hchild, rfl⟩, r, hr, hrchild⟩

end Ouro
