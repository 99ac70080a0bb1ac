import Ouro.Durable.Openness

/-!
# A child's end and its parent

A parent registers for the end of a child when it starts it, and the end is stored in the parent's
mailbox as a notice without an envelope. `child_end_reported` says that this happens exactly once and
that the notice stays until a listen of the parent takes it.

Two things can stand in the way. The test for a notice that is there already reads the row of the
first copy of the type, which any CloudEvent of that type writes too: a CloudEvent of type
`done:<child>` that reaches the parent first takes the notice's place (`Displaced`). And a call of the
parent under the internal key `child:<child>` drops the registration (`Unawaited`). Without them the
registration stands as long as both runs live (`Registered.move`), the termination of the child finds
it (`terminate_accounts`), and every later move keeps the notice (`Move.reported`). So the end reaches
the parent exactly when neither came first (`child_end_noticed`).
-/

namespace Ouro

open Lib Engine Tx

variable {env : Env} {now : Int} {may : String → Act → Prop} {pid cid : String}

/-! ### The registration of a parent -/

/-- The run is registered for the end of the child, and its internal listener keeps the
registration. -/
def Expects (s : StoredRun) (cid : String) : Prop :=
  s.awaits.contains ("done:" ++ cid) = true ∧ s.listeners.get ("child:" ++ cid) = some ["done:" ++ cid]

/-- Closing spares what a listener names. -/
theorem Expects.close {s : StoredRun} (h : Expects s cid) (types : List String) :
    Expects (close s types) cid := by
  have hnamed : named s ("done:" ++ cid) = true :=
    named_iff.mpr ⟨_, _, h.2, List.mem_singleton_self _⟩
  refine ⟨?_, by rw [close_listeners]; exact h.2⟩
  rw [Table.contains_iff, close_awaits, if_neg (by simp [hnamed])]
  exact (Table.contains_iff _ _).mp h.1

theorem Expects.delete {s : StoredRun} (h : Expects s cid) {k : String} (hk : k ≠ "child:" ++ cid) :
    Expects { s with listeners := s.listeners.delete k } cid :=
  ⟨h.1, (Table.get_delete_ne _ hk).trans h.2⟩

theorem Rewrite.expects {c : Core} {s s' : StoredRun} (h : Rewrite c now may s s')
    (hsilent : Silent may s.id ("child:" ++ cid)) (hs : Expects s cid) : Expects s' cid := by
  cases h with
  | register types =>
    exact ⟨by rw [registered_awaits, hs.1, Bool.true_or], by rw [registered_listeners]; exact hs.2⟩
  | unregister k types hr hmay =>
    exact (hs.delete fun hk => (hsilent types).1 (hk ▸ hmay)).close types
  | listen k types hr hn hmay =>
    have hk : k ≠ "child:" ++ cid := fun hk => (hsilent types).2.1 (hk ▸ hmay)
    exact ⟨hs.1, (Table.get_put_ne _ _ hk).trans hs.2⟩
  | adopt child =>
    refine ⟨adopting_awaits.mpr (.inl hs.1), ?_⟩
    -- the internal listener of a child names its own end
    change (s.listeners.put ("child:" ++ child) ["done:" ++ child]).get _ = _
    rw [Table.get_put]
    split
    · next heq => rw [(String.append_right_inj _).mp heq]
    · exact hs.2
  | settle child => exact hs.close _
  | park outcome =>
    obtain ⟨state, wakeAtMs, interruptions, heq⟩ := finished_eq c s outcome now
    rw [heq]
    exact hs
  | _ => exact hs

/-- No copy of the type of the child's end is in the parent's mailbox. -/
def Unseen (c : Core) (pid cid : String) : Prop :=
  ∀ n e, (c.event pid).get n = some e → e.type_ ≠ "done:" ++ cid

/-- A registration stands as long as the run lives, no copy of the child's end came and no call uses
the internal key. -/
theorem RowChange.expects {c : Core} {s s' : StoredRun} (h : RowChange env c now may s s')
    (hsilent : Silent may s.id ("child:" ++ cid)) (hunseen : Unseen c s.id cid) (hs : Expects s cid) :
    s'.run.endedMs ≠ none ∨ Expects s' cid := by
  cases h with
  | rewrite h => exact .inr (h.expects hsilent hs)
  | finish => exact .inl (by simp [ending])
  | accept e =>
    refine .inr ?_
    split <;> exact hs
  | notify t =>
    refine .inr ?_
    split <;> exact hs
  | expire | offer | forget => exact .inr hs
  | take c' k types n e hr hn he hmay =>
    have hk : k ≠ "child:" ++ cid := fun hk => (hsilent types).2.2 (hk ▸ hmay)
    have hjoined : Expects (joined s e.type_) cid := by
      unfold joined
      cases hstrip : stripPrefix e.type_ "done:" with
      | none => exact hs
      | some child =>
        -- the copy is of another child's end
        refine hs.delete fun heq => hunseen n e he ?_
        rw [stripPrefix_eq_some hstrip, (String.append_right_inj _).mp heq]
    have hdropped : Expects
        { refreshed c' (uncounted (joined s e.type_) e) with
          listeners := (joined s e.type_).listeners.delete k
          waits := (joined s e.type_).waits.retain fun _ w => decide (w.position ≠ k) } cid :=
      hjoined.delete hk
    exact .inr (hdropped.close types)

/-- The first row of a child is stored under a registered parent. -/
theorem Move.born {c c' : Core} (h : Move env now may c c') {s' : StoredRun} {link : ChildLink}
    (hnone : c.run.get cid = none) (hs' : c'.run.get cid = some s') (hlink : s'.run.child = some link) :
    ∃ p, c'.run.get link.parent = some p ∧ Expects p cid := by
  -- a move that rewrites a stored row stores no first one
  have hset : ∀ {d : Core} {s₀ s₁ : StoredRun}, d.run = c.run → c.run.get s₀.id = some s₀ →
      s₁.id = s₀.id → (d.set s₁).run.get cid ≠ some s' := by
    intro d s₀ s₁ hd hs₀ hid hget
    rw [Core.get_set, hd, hid] at hget
    split at hget
    · next hi => simp [← hi, hs₀] at hnone
    · simp [hnone] at hget
  -- a first row without a parent is not that of a child
  have hfirst : ∀ {s₁ : StoredRun}, s₁.run.child = none → (c.set s₁).run.get cid ≠ some s' := by
    intro s₁ hchild hget
    rw [Core.get_set] at hget
    split at hget
    · rw [← Option.some.inj hget, hchild] at hlink
      simp at hlink
    · simp [hnone] at hget
  cases h with
  | admission => exact absurd hs' (hfirst rfl)
  | refuse => exact absurd hs' (hfirst rfl)
  -- a child is born under a parent that awaits its end and listens for it
  | @bear p a digest epoch link' ha hp hlink' hr hawaits hlistener =>
    rw [Core.get_set] at hs'
    split at hs'
    · next hi =>
      have hi : a.id = cid := hi
      obtain rfl : link' = link := by
        rw [← Option.some.inj hs'] at hlink
        simpa [linked] using hlink
      refine ⟨p, ?_, hi ▸ hawaits, hi ▸ hlistener⟩
      have hne : a.id ≠ p.id := fun heq => by simp [heq, hp] at ha
      rw [hlink', Core.get_set]
      exact (if_neg hne).trans hp
    · simp [hnone] at hs'
  | rewrite hs h => exact absurd hs' (hset rfl hs h.id_eq)
  | record | spend | dropBudget => simp [Core.setRecord, hnone] at hs'
  | accept e hs hl he =>
    have hchange : RowChange env c now may _ _ := .accept e hl he
    exact absurd hs' (hset rfl hs hchange.id_eq)
  | notify t data hs hl =>
    have hchange : RowChange env c now may _ _ := .notify t data hl
    exact absurd hs' (hset rfl hs hchange.id_eq)
  | expire n e at_ taken hs => exact absurd hs' (hset rfl hs rfl)
  | take k types n e event hs => exact absurd hs' (hset rfl hs (by simp))
  | offer n e hs => exact absurd hs' (hset rfl hs rfl)
  | @forget s at_ hs => exact absurd hs' (hset (run_forgetRows c s.id) hs rfl)
  -- an end writes rows that were stored
  | @finish s status spent ids hs hl ht hids =>
    obtain ⟨s₀, hs₀, -⟩ := Core.get_finished hs hids.nodup hs'
    simp [hs₀] at hnone

/-- A live child's parent is registered for its end, unless a copy of that type came before. -/
def Registered (c : Core) (pid cid : String) : Prop :=
  Owns c pid cid → Live c cid → Unseen c pid cid → ∃ p, c.run.get pid = some p ∧ Expects p cid

/-- A copy in the mailbox of a live run stays there. -/
theorem Move.unseen {c c' : Core} (h : Move env now may c c') (hinv : Inv c) (hl : Live c pid)
    (hunseen : Unseen c' pid cid) : Unseen c pid cid := by
  intro n e he heq
  have hcopy := h.copy hinv pid n
  rw [he] at hcopy
  generalize hnew : (c'.event pid).get n = o at hcopy
  cases hcopy with
  | same => exact hunseen n e hnew heq
  | forgotten _ hs hended =>
    obtain ⟨s', hs', hlive⟩ := hl
    rw [Option.some.inj (hs'.symm.trans hs)] at hlive
    exact hended hlive
  | expired => exact hunseen n _ hnew heq
  | taken => exact hunseen n _ hnew heq
  | offered => exact hunseen n _ hnew heq

theorem Registered.move {c c' : Core} (h : Registered c pid cid) (hinv : Inv c)
    (hmove : Move env now may c c') (hsilent : Silent may pid ("child:" ++ cid)) :
    Registered c' pid cid := by
  intro howns hlive hunseen
  obtain ⟨s', link, hs', hlink, rfl⟩ := howns
  have hlive' := (hinv.move hmove).tree.live_parent ⟨s', link, hs', hlink, rfl⟩ hlive
  obtain ⟨t, ht, hl'⟩ := hlive
  obtain rfl := Option.some.inj (ht.symm.trans hs')
  rcases hmove.origin hs' with ⟨s, hs, hchild, -, hl⟩ | ⟨hnone, -, -⟩
  · -- the child was there before
    have howns : Owns c link.parent cid := ⟨s, link, hs, by rw [← hchild, hlink], rfl⟩
    have hlive : Live c cid := ⟨s, hs, hl hl'⟩
    have hbefore := hmove.unseen hinv (hinv.tree.live_parent howns hlive) hunseen
    obtain ⟨p, hp, hexpects⟩ := h howns hlive hbefore
    have hid := hinv.tree.keyed _ _ hp
    obtain ⟨p', hp', rfl | hchange⟩ := hmove.stored hp
    · exact ⟨_, hp', hexpects⟩
    · rcases hchange.expects (hid.symm ▸ hsilent) (hid.symm ▸ hbefore) hexpects with hended | hexpects'
      · obtain ⟨q, hq, hlq⟩ := hlive'
        rw [Option.some.inj (hq.symm.trans hp')] at hlq
        exact absurd hlq hended
      · exact ⟨p', hp', hexpects'⟩
  · exact hmove.born hnone hs' hlink

/-- The registration stands over every history without a call under the internal key. -/
theorem registered_after (env : Env) {history : List Op}
    (hkey : ∀ op ∈ history, ¬op.ofListen pid ("child:" ++ cid)) :
    Registered (after env history).toCore pid cid := by
  induction history using List.reverseRecOn with
  | nil =>
    rintro ⟨s, link, hs, -⟩
    simp [after, runs, Rows.empty] at hs
  | append_singleton history op ih =>
    have hσ := good_after env history
    have hbefore := ih fun op hop => hkey op (List.mem_append_left _ hop)
    have hsilent := Op.silent (hkey op (List.mem_append_right _ (List.mem_singleton_self _)))
    rw [after_concat]
    exact (step_path env hσ op).keep hσ.inv (P := fun c => Registered c pid cid)
      (fun _ _ hinv hmove h => h.move hinv hmove hsilent) hbefore

/-! ### Notices in a mailbox -/

/-- A status is reported as an end under the type of the child's end. -/
theorem lifecycleNotice_type {id t : String} {status : Status} {done : Bool} {data : Json}
    (h : lifecycleNotice id status = some (done, t, data)) (ht : t = "done:" ++ cid) :
    done = true ∧ id = cid := by
  subst ht
  cases status with
  | waiting wakeAtMs =>
    simp only [lifecycleNotice, Option.some.injEq, Prod.mk.injEq] at h
    exact absurd h.2.1 (waiting_ne_done id)
  | interrupted error => simp [lifecycleNotice] at h
  | completed | faulted | cancelled =>
    simp only [lifecycleNotice, Option.some.injEq, Prod.mk.injEq] at h
    exact ⟨h.1.symm, (String.append_right_inj _).mp h.2.1⟩

/-- Who reports the end of a child is the child, it has ended, and no copy of the type was there. -/
theorem Reports.ended {c : Core} {data : Json} (h : Reports c pid ("done:" ++ cid) data)
    (hinv : Inv c) :
    ∃ s status, c.run.get cid = some s ∧ s.run.endedMs ≠ none ∧ s.run.outcome = some status ∧
      lifecycleNotice cid status = some (true, "done:" ++ cid, data) ∧
      (c.eventType pid).get ("done:" ++ cid) = none := by
  obtain ⟨child, link, status, done, hchild, hlink, hparent, hnotice, hdone⟩ := h
  obtain ⟨rfl, rfl⟩ := lifecycleNotice_type hnotice rfl
  obtain ⟨houtcome, hnone⟩ := hdone rfl
  refine ⟨child, status, hchild, fun hl => ?_, houtcome, hnotice, hnone⟩
  rw [((hinv.sane _ _ hchild).live hl).2] at houtcome
  simp at houtcome

/-- Only a run that has ended is reported as ended. -/
def Sincere (c : Core) : Prop :=
  ∀ i n e id, (c.event i).get n = some e → e.envelope = none → e.type_ = "done:" ++ id → Ended c id

theorem Sincere.move {c c' : Core} (h : Sincere c) (hinv : Inv c) (hmove : Move env now may c c') :
    Sincere c' := by
  intro i n e id he hnone ht
  have hkept : Ended c id → Ended c' id := by
    rintro ⟨s, hs, hended⟩
    obtain ⟨s', hs', hended'⟩ := Path.ended_stored (.single hmove) hinv hs
      (Option.isSome_iff_ne_none.mp hended)
    exact ⟨s', hs', Option.isSome_iff_ne_none.mpr hended'⟩
  have hcopy := hmove.copy hinv i n
  rw [he] at hcopy
  generalize hold : (c.event i).get n = o at hcopy
  cases hcopy with
  | same => exact hkept (h i n e id hold hnone ht)
  | accepted _ _ hacc =>
    have hcloud := hacc.cloud
    simp [hnone] at hcloud
  | @notified s t data hs hn hr =>
    have ht : t = "done:" ++ id := ht
    rw [ht] at hr
    obtain ⟨s, -, hs, hended, -⟩ := hr.ended hinv
    exact hkept ⟨s, hs, Option.isSome_iff_ne_none.mpr hended⟩
  | expired => exact hkept (h i n _ id hold hnone ht)
  | taken => exact hkept (h i n _ id hold hnone ht)
  | offered => exact hkept (h i n _ id hold hnone ht)

theorem sincere_after (env : Env) (history : List Op) : Sincere (after env history).toCore :=
  runs_core (fun _ _ _ _ hinv hmove h => h.move hinv hmove) Good.empty
    (fun i n e id he => by simp [Rows.empty] at he) history

/-- Copy `n` of the parent is the notice that the child ended so, and the only one. -/
structure Reported (c : Core) (pid cid : String) (status : Status) (n : Nat) (e : StoredEvent) :
    Prop where
  stored : (c.event pid).get n = some e
  notice : e.envelope = none
  outcome : lifecycleNotice cid status = some (true, e.type_, e.data)
  only : ∀ m x, (c.event pid).get m = some x → x.envelope = none → x.type_ = e.type_ → m = n

theorem Reported.type {c : Core} {status : Status} {n : Nat} {e : StoredEvent}
    (h : Reported c pid cid status n e) : e.type_ = "done:" ++ cid := by
  have houtcome := h.outcome
  cases status with
  | completed | faulted | cancelled =>
    simp only [lifecycleNotice, Option.some.injEq, Prod.mk.injEq] at houtcome
    exact houtcome.2.1.symm
  | waiting | interrupted => simp [lifecycleNotice] at houtcome

/-- What a move does to a notice of a child's end: it stays the only one, until a listen of its type
takes it or the evidence of the ended parent goes. -/
theorem Move.reported {c c' : Core} (h : Move env now may c c') (hinv : Inv c) {status : Status} {n : Nat}
    {e : StoredEvent} (hr : Reported c pid cid status n e) :
    Cleared c' pid ∨ Reported c' pid cid status n e ∨
      e.consumedKey = none ∧ ∃ k types, may pid (.take k types) ∧ e.type_ ∈ types ∧
        Reported c' pid cid status n (asConsumed e k) := by
  -- a run that is not stored has no copies, so the parent is stored
  obtain ⟨s, hs, hid⟩ : ∃ s, c.run.get pid = some s ∧ s.id = pid := by
    by_contra hno
    have hvacant := hinv.mails.vacant pid (Option.eq_none_iff_forall_ne_some.mpr fun s hs =>
      hno ⟨s, hs, hinv.tree.keyed _ _ hs⟩)
    have hstored := hr.stored
    simp [hvacant.event] at hstored
  have hmail : Mail c s := hinv.mails.mail _ _ (hid.symm ▸ hs)
  -- no other notice of the type arrives, for the first copy of the type is there
  have honly : ∀ m x, (c'.event pid).get m = some x → x.envelope = none → x.type_ = e.type_ → m = n := by
    intro m x hx hnone ht
    have hcopy := h.copy hinv pid m
    rw [hx] at hcopy
    generalize hold : (c.event pid).get m = o at hcopy
    cases hcopy with
    | same => exact hr.only m x hold hnone ht
    | accepted _ _ hacc =>
      have hcloud := hacc.cloud
      simp [hnone] at hcloud
    -- a second notice of this child would have to find no copy of its type
    | @notified s' t data _ _ hreports =>
      have ht : t = "done:" ++ cid := ht.trans hr.type
      rw [ht] at hreports
      obtain ⟨-, -, -, -, -, -, hfirst⟩ := hreports.ended hinv
      have hfound := (hmail.eventType ("done:" ++ cid)).mpr
        ⟨n, e, by rw [hid]; exact hr.stored, hr.type⟩
      rw [hid, hfirst] at hfound
      simp at hfound
    | expired => exact hr.only m _ hold hnone ht
    | taken => exact hr.only m _ hold hnone ht
    | offered => exact hr.only m _ hold hnone ht
  -- what the move did to the notice itself
  have hcopy := h.copy hinv pid n
  rw [hr.stored] at hcopy
  generalize hnew : (c'.event pid).get n = o at hcopy
  obtain ⟨hdelivered, hexpiry⟩ := hmail.cloud n e (by rw [hid]; exact hr.stored) hr.notice
  cases hcopy with
  | same => exact .inr (.inl ⟨hnew, hr.notice, hr.outcome, honly⟩)
  -- a sweep: the parent had ended, and all of its copies are gone
  | forgotten _ hs' hended hempty =>
    obtain ⟨s'', hs'', hended'⟩ := Path.ended_stored (.single h) hinv hs' hended
    exact .inl ⟨s'', hs'', hended', hempty⟩
  -- a notice does not expire
  | expired _ hx => simp [Engine.expired, hexpiry] at hx
  | @taken _ k types event hp _ htake _ hmay =>
    -- a notice is not published, so the listen names its type
    have hlisted : e.type_ ∈ types := by
      refine htake.2.resolve_right fun hwild => ?_
      have hpublished := hwild.2
      simp [Engine.published, hr.notice] at hpublished
    exact .inr (.inr ⟨hp, k, types, hmay, hlisted, ⟨hnew, hr.notice, hr.outcome, honly⟩⟩)
  -- and it is not offered to wildcard listens, being undelivered
  | offered _ hd => simp [hdelivered] at hd

/-! ### Until the child ends -/

/-- The child lives, its parent is registered for its end, and no copy of that type came. -/
structure Awaiting (c : Core) (pid cid : String) : Prop where
  owned : Owns c pid cid
  live : Live c cid
  unseen : Unseen c pid cid
  registered : ∃ p, c.run.get pid = some p ∧ p.awaits.contains ("done:" ++ cid) = true

/-- The child has ended, and its parent holds the one notice of it, unconsumed. -/
def Told (c : Core) (pid cid : String) : Prop :=
  ∃ s status n e, c.run.get cid = some s ∧ s.run.outcome = some status ∧ e.consumedKey = none ∧
    Reported c pid cid status n e

/-- The end of the child is awaited, or reported, or the parent has ended. -/
def Accounted (c : Core) (pid cid : String) : Prop :=
  Awaiting c pid cid ∨ Told c pid cid ∨ Ended c pid

/-- Words under which children are reported and runs admitted for triggers. -/
def Tells (_ : String) (a : Act) : Prop := a = .report ∨ a = .book

/-- The same, and runs end. -/
def Terminating (_ : String) (a : Act) : Prop := a = .finish ∨ a = .report ∨ a = .book

theorem Rewrite.awaited {c : Core} {s s' : StoredRun} (h : Rewrite c now Tells s s')
    (ha : s.awaits.contains ("done:" ++ cid) = true) : s'.awaits.contains ("done:" ++ cid) = true := by
  cases h with
  | register types => rw [registered_awaits, ha, Bool.true_or]
  | unregister k types hr hmay => simp [Tells] at hmay
  | adopt child => exact adopting_awaits.mpr (.inl ha)
  | settle child =>
    rw [Table.contains_iff, close_awaits, if_neg]
    · exact (Table.contains_iff _ _).mp ha
    · rintro ⟨hmem, -⟩
      exact waiting_ne_done child (List.mem_singleton.mp hmem).symm
  | park outcome =>
    obtain ⟨state, wakeAtMs, interruptions, heq⟩ := finished_eq c s outcome now
    rw [heq]
    exact ha
  | _ => exact ha

theorem RowChange.awaited {c : Core} {s s' : StoredRun} (h : RowChange env c now Tells s s')
    (ha : s.awaits.contains ("done:" ++ cid) = true) :
    s'.run.endedMs ≠ none ∨ s'.awaits.contains ("done:" ++ cid) = true := by
  cases h with
  | rewrite h => exact .inr (h.awaited ha)
  | accept e =>
    refine .inr ?_
    split <;> exact ha
  | notify t =>
    refine .inr ?_
    split <;> exact ha
  | expire | offer | forget => exact .inr ha
  | take c' k types n e hr hn he hmay => simp [Tells] at hmay
  | finish => exact .inl (by simp [ending])

/-- A live child's end stays awaited while no run ends. -/
theorem Awaiting.move {c c' : Core} (h : Awaiting c pid cid) (hinv : Inv c)
    (hmove : Move env now Tells c c') : Awaiting c' pid cid := by
  obtain ⟨⟨s, link, hs, hlink, rfl⟩, ⟨t, ht, hl⟩, hunseen, p, hp, ha⟩ := h
  obtain rfl := Option.some.inj (ht.symm.trans hs)
  -- the child stays owned
  have howns' : ∃ s', c'.run.get cid = some s' ∧ s'.run.child = some link := by
    obtain ⟨s', hs', rfl | hchange⟩ := hmove.stored hs
    · exact ⟨_, hs', hlink⟩
    · exact ⟨s', hs', by rw [hchange.lineage.1, hlink]⟩
  obtain ⟨s', hs', hlink'⟩ := howns'
  -- and lives, for no end is among these moves
  have hl' : s'.run.endedMs = none := by
    rcases hmove.live_or_finish with hkeep | ⟨root, ids, hmay, -⟩
    · rw [hkeep cid _ _ hs hs', hl]
    · simp [Tells] at hmay
  have howns : Owns c' link.parent cid := ⟨s', link, hs', hlink', rfl⟩
  have hlive : Live c' cid := ⟨s', hs', hl'⟩
  -- nothing of its type arrives
  refine ⟨howns, hlive, fun n e he ht => ?_, ?_⟩
  · have hcopy := hmove.copy hinv link.parent n
    rw [he] at hcopy
    generalize hold : (c.event link.parent).get n = o at hcopy
    cases hcopy with
    | same => exact hunseen n e hold ht
    | accepted _ _ _ hmay => simp [Tells] at hmay
    | @notified _ t data _ _ hr =>
      -- a live child reports no end
      have ht : t = "done:" ++ cid := ht
      rw [ht] at hr
      obtain ⟨s₁, -, hs₁, hended, -⟩ := hr.ended hinv
      rw [Option.some.inj (hs₁.symm.trans hs)] at hended
      exact hended hl
    | expired => exact hunseen n _ hold ht
    | taken => exact hunseen n _ hold ht
    | offered => exact hunseen n _ hold ht
  -- the parent's registration is dropped only when the parent ends, and then the child would have
  · obtain ⟨p', hp', rfl | hchange⟩ := hmove.stored hp
    · exact ⟨_, hp', ha⟩
    · refine ⟨p', hp', (hchange.awaited ha).resolve_left fun hended => ?_⟩
      obtain ⟨q, hq, hlq⟩ := (hinv.move hmove).tree.live_parent howns hlive
      rw [Option.some.inj (hq.symm.trans hp')] at hlq
      exact hended hlq

theorem Ended.path {c c' : Core} (h : Ended c pid) (hinv : Inv c) (hpath : Path env now may c c') :
    Ended c' pid := by
  obtain ⟨s, hs, hended⟩ := h
  obtain ⟨s', hs', hended'⟩ := hpath.ended_stored hinv hs (Option.isSome_iff_ne_none.mp hended)
  exact ⟨s', hs', Option.isSome_iff_ne_none.mpr hended'⟩

/-- A notice stays while nothing is taken, or the parent ends. -/
theorem Told.path {c c' : Core} (h : Told c pid cid) (hinv : Inv c) (hpath : Path env now may c c')
    (hmay : ∀ k types, ¬may pid (.take k types)) : Told c' pid cid ∨ Ended c' pid := by
  refine hpath.keep hinv (P := fun c => Told c pid cid ∨ Ended c pid) ?_ (.inl h)
  rintro c c' hinv hmove (⟨s, status, n, e, hs, houtcome, hpending, hr⟩ | hended)
  · rcases hmove.reported hinv hr with ⟨p, hp, hended, -⟩ | hr' | ⟨-, k, types, htake, -⟩
    · exact .inr ⟨p, hp, Option.isSome_iff_ne_none.mpr hended⟩
    · refine .inl ?_
      have hne : s.run.endedMs ≠ none := fun hl => by
        rw [((hinv.sane _ _ hs).live hl).2] at houtcome
        simp at houtcome
      obtain ⟨s', hs', rfl | hchange⟩ := hmove.stored hs
      · exact ⟨_, status, n, e, hs', houtcome, hpending, hr'⟩
      · have hfrozen := hchange.frozen (hinv.sane _ _ hs) hne
        exact ⟨s', status, n, e, hs', by rw [hfrozen.outcome, houtcome], hpending, hr'⟩
    · exact absurd htake (hmay k types)
  · exact .inr (hended.path hinv (.single hmove))

theorem Accounted.path {c c' : Core} (h : Accounted c pid cid) (hinv : Inv c)
    (hpath : Path env now Tells c c') : Accounted c' pid cid := by
  refine hpath.keep hinv (P := fun c => Accounted c pid cid) ?_ h
  rintro c c' hinv hmove (hawaiting | htold | hended)
  · exact .inl (hawaiting.move hinv hmove)
  · exact .inr (htold.path hinv (.single hmove) fun k types h => by simp [Tells] at h)
  · exact .inr (.inr (hended.path hinv (.single hmove)))

/-! ### The end of the child -/

namespace Engine

/-- The report of an end reaches a live parent that awaits it and has no copy of the type. -/
theorem lifecycle_told (env : Env) {status : Status} {σ σ' : Rows} {s p : StoredRun} {link : ChildLink}
    {u : Unit} (hσ : Good σ) (hs : σ.run.get cid = some s) (hlink : s.run.child = some link)
    (houtcome : s.run.outcome = some status) (ht : status.terminal = true)
    (hp : σ.run.get link.parent = some p) (hl : p.run.endedMs = none)
    (ha : p.awaits.contains ("done:" ++ cid) = true) (hunseen : Unseen σ.toCore link.parent cid)
    (h : lifecycle cid status now σ = .ok (u, σ')) : Told σ'.toCore link.parent cid := by
  -- the status has a notice, which says that it is the end
  obtain ⟨data, hnotice⟩ : ∃ data, lifecycleNotice cid status = some (true, "done:" ++ cid, data) := by
    cases status with
    | completed | faulted | cancelled => exact ⟨_, rfl⟩
    | waiting | interrupted => simp [Status.terminal] at ht
  have hid := hσ.indexed.keyed _ _ hp
  -- the parent lives and the child has its outcome, so they are two runs
  have hne : link.parent ≠ cid := by
    rintro heq
    rw [heq, hs] at hp
    rw [← Option.some.inj hp] at hl
    simp [((hσ.inv.sane _ _ hs).live hl).2] at houtcome
  -- no copy of the type, so the operation takes this for the first notice
  have hfirst : (σ.eventType link.parent).get ("done:" ++ cid) = none := by
    by_contra hsome
    obtain ⟨n, e, he, htype⟩ := ((hσ.inv.mails.mail p.id p (hid.symm ▸ hp)).eventType ("done:" ++ cid)).mp
      (by rw [hid]; exact Option.isSome_iff_ne_none.mpr hsome)
    exact hunseen n e (hid ▸ he) htype
  simp only [lifecycle, bind_ok, run_ok] at h
  obtain ⟨s', σ₁, ⟨hs', rfl⟩, h⟩ := h
  obtain rfl := Option.some.inj (hs'.symm.trans hs)
  simp only [hlink, hnotice, bind_ok, read_ok] at h
  obtain ⟨first, σ₂, ⟨rfl, rfl⟩, h⟩ := h
  rw [hfirst] at h
  simp only [Option.isSome_none, Bool.and_false, Bool.false_eq_true, if_false, if_true, bind_ok] at h
  obtain ⟨u₁, σ₃, hclose, hnotify⟩ := h
  obtain ⟨p', hp', hindexed, hcore⟩ := closeWaiting_cases hσ hclose
  obtain rfl := Option.some.inj (hp'.symm.trans hp)
  -- settling the call that waits for the child is one move
  have hpath : Path env now Tells σ₂.toCore σ₃.toCore := by
    rcases hcore with rfl | ⟨hwaits, hcore⟩
    · exact .refl
    · rw [hcore]
      exact .single (.rewrite (hσ.get_id hp) (.settle cid hwaits (.inr (.inl rfl))))
  have hσ₃ : Good σ₃ := ⟨hindexed, hσ.inv.path hpath⟩
  -- closing the other registration leaves the mailbox, the child's row and this registration
  obtain ⟨hevent, hchild, hparent⟩ : σ₃.event = σ₂.event ∧ σ₃.run.get cid = some s' ∧
      ∃ q, σ₃.run.get link.parent = some q ∧ q.run.endedMs = none ∧
        q.awaits.contains ("done:" ++ cid) = true := by
    rcases hcore with rfl | ⟨-, hcore⟩
    · exact ⟨rfl, hs, p', hp, hl, ha⟩
    · have hrun : σ₃.run = _ := congrArg Core.run hcore
      refine ⟨(congrArg Core.event hcore).trans rfl, ?_, close p' ["waiting:" ++ cid], ?_, by rw [close_run, hl], ?_⟩
      · rw [hrun, Core.get_set, close_id, if_neg (by rw [hid]; exact hne), hs]
      · rw [hrun, Core.get_set, close_id, if_pos hid]
      · rw [Table.contains_iff, close_awaits, if_neg]
        · exact (Table.contains_iff _ _).mp ha
        · rintro ⟨hmem, -⟩
          exact waiting_ne_done cid (List.mem_singleton.mp hmem).symm
  obtain ⟨q, hq, hlq, haq⟩ := hparent
  have hqid := hσ₃.indexed.keyed _ _ hq
  have hunseen₃ : Unseen σ₃.toCore link.parent cid := fun n e he => by
    rw [hevent] at he
    exact hunseen n e he
  -- the notice: pushed, since none of the reasons to skip it holds
  obtain ⟨q', hq', -, ⟨hskip, -⟩ | ⟨-, hcore'⟩⟩ := notify_cases hσ₃ hnotify
  · obtain rfl := Option.some.inj (hq'.symm.trans hq)
    rcases hskip with hended | hsilent | hpending
    · exact absurd hlq hended
    · simp [haq] at hsilent
    · obtain ⟨n, e, hpend, htype⟩ :=
        (hσ₃.inv.mails.mail q'.id q' (hqid.symm ▸ hq)).contains_pending.mp hpending
      exact absurd htype (hunseen₃ n e (hqid ▸ hpend.1))
  -- it is the only copy without an envelope under its type
  · obtain rfl := Option.some.inj (hq'.symm.trans hq)
    have hstored : ∀ m, (σ'.event link.parent).get m =
        if q'.accepted = m then some (notice ("done:" ++ cid) data now)
        else (σ₃.event link.parent).get m := by
      intro m
      rw [show σ'.event = _ from congrArg Core.event hcore', ← hqid]
      exact pushed_event m
    refine ⟨s', status, q'.accepted, notice ("done:" ++ cid) data now, ?_, houtcome, rfl, ?_, rfl, hnotice, ?_⟩
    · rw [show σ'.run = _ from congrArg Core.run hcore']
      change ((pushed _ _ _ _).set _).run.get cid = _
      rw [Core.get_set, if_neg]
      · exact hchild
      · rw [counted_id, apply_ite StoredRun.id]
        change (if _ then q'.id else q'.id) ≠ cid
        rw [ite_self, hqid]
        exact hne
    · rw [hstored, if_pos rfl]
    · intro m x hx _ htype
      rw [hstored] at hx
      split at hx
      · next hm => exact hm.symm
      · exact absurd htype (hunseen₃ m x hx)

/-- A termination leaves the end of every child awaited, reported, or due to nobody. -/
theorem terminate_accounts {c : Core} {s₀ s : StoredRun} {σ σ' : Rows} {status : Status} {u : Unit}
    (h : Limbo c s₀ σ s) (ht : status.terminal = true) (hc : Accounted c pid cid)
    (hterm : terminate env s₀.id status now σ = .ok (u, σ')) : Accounted σ'.toCore pid cid := by
  rcases hc with hawaiting | hrest
  swap
  -- told already, or nobody is to be told
  · -- nothing is taken in it
    have hpath : Path env now Terminating c σ'.toCore :=
      (terminate_path h ht (.inl rfl) (fun _ => .inr (.inr rfl)) hterm).2
    refine .inr (hrest.elim (fun htold => ?_) fun hended => .inr (hended.path h.inv hpath))
    exact htold.path h.inv hpath fun k types hmay => by simp [Terminating] at hmay
  -- the cascade, the notice of the root, and the drains
  obtain ⟨ids, σ₁, σ₂, hsub, hσ₁, hcore, hlife, hrest⟩ :=
    terminate_cases Tells (fun _ => .inr rfl) h ht hterm
  have hlifecycle : Indexed σ₂ ∧ Path env now Tells σ₁.toCore σ₂.toCore := by
    refine lifecycle_path env hσ₁ (fun t _ _ hget _ => ?_) (fun _ => .inr (.inl rfl)) hlife
    rw [show σ₁.run = _ from congrArg Core.run hcore, get_endedRows_root hsub.nodup] at hget
    rw [← Option.some.inj hget]
    rfl
  obtain ⟨hindexed₂, hpath₂⟩ := hlifecycle
  have hσ₂ : Good σ₂ := ⟨hindexed₂, hσ₁.inv.path hpath₂⟩
  -- the drains keep what holds after the notice
  suffices haccounted : Accounted σ₂.toCore pid cid from haccounted.path hσ₂.inv (hrest hσ₂).2
  obtain ⟨⟨t, link, hs, hlink, rfl⟩, ⟨t', ht', hl⟩, hunseen, p, hp, ha⟩ := hawaiting
  obtain rfl := Option.some.inj (ht'.symm.trans hs)
  -- what the cascade left of parent and child
  have hending : Ending c s₀ status (spentBy c s₀) (budgetAfter c s₀) now σ₁ ids :=
    { indexed := hσ₁.indexed, core := hcore, nodup := hsub.nodup, owned := hsub.owned }
  have hunseen₁ : Unseen σ₁.toCore link.parent cid := fun n e he => by
    rw [show σ₁.event = c.event from (congrArg Core.event hcore).trans rfl] at he
    exact hunseen n e he
  by_cases hparent : link.parent ∈ s₀.id :: ids
  · -- the parent ends with it
    obtain ⟨q, status', hq, -⟩ := hending.get_visited hparent
    have hended : Ouro.Ended σ₁.toCore link.parent := ⟨_, hq, rfl⟩
    exact .inr (.inr (hended.path hσ₁.inv hpath₂))
  have hp₁ : σ₁.run.get link.parent = some p := (hending.get_other hparent).trans hp
  by_cases hchild : cid ∈ s₀.id :: ids
  · rcases List.mem_cons.mp hchild with rfl | hmem
    · -- the child is the root of what ends: its parent is told
      have hroot : (endedRows c s₀ status (spentBy c s₀) (budgetAfter c s₀) now ids).run.get s₀.id =
          some (ending s₀ status (spentBy c s₀) now) := get_endedRows_root hsub.nodup
      obtain rfl := Option.some.inj (h.stored.symm.trans hs)
      have hlp : p.run.endedMs = none := by
        obtain ⟨q, hq, hlq⟩ := h.inv.tree.live_parent ⟨s₀, link, hs, hlink, rfl⟩ ⟨s₀, hs, hl⟩
        rw [← Option.some.inj (hq.symm.trans hp)]
        exact hlq
      refine .inr (.inl (lifecycle_told (s := ending s₀ status (spentBy c s₀) now) env hσ₁ ?_ hlink rfl ht
        hp₁ hlp ha hunseen₁ hlife))
      rw [show σ₁.run = _ from congrArg Core.run hcore]
      exact hroot
    · -- a descendant's parent ends too
      obtain ⟨t, link', -, ht, -, hlink', hmem'⟩ := hsub.owned cid hmem
      obtain rfl := Option.some.inj (ht.symm.trans hs)
      obtain rfl := Option.some.inj (hlink'.symm.trans hlink)
      exact absurd hmem' hparent
  -- neither of them belongs to the tree that ends
  · have hs₁ := (hending.get_other hchild).trans hs
    have hawaiting : Awaiting σ₁.toCore link.parent cid :=
      ⟨⟨t', link, hs₁, hlink, rfl⟩, ⟨t', hs₁, hl⟩, hunseen₁, p, hp₁, ha⟩
    exact Accounted.path (.inl hawaiting) hσ₁.inv hpath₂

/-- A call that ends a run leaves the end of every child awaited, reported, or due to nobody. -/
theorem Ends.accounts {id : String} {σ σ' : Rows} (h : Ends env now id σ σ') (hσ : Good σ)
    (hc : Accounted σ.toCore pid cid) : Accounted σ'.toCore pid cid := by
  obtain ⟨s, status, σ₁, rfl, hterm, hend⟩ := h
  obtain ⟨hs, -, n, s', hlimbo, hn⟩ := hterm.limbo hσ
  refine terminate_accounts hlimbo hterm.terminal ?_ hend
  rcases hn with rfl | hr
  · rwa [show { s with run := { s.run with interruptions := s.run.interruptions } } = s from rfl,
      Core.set_self hs]
  · have hcount : Path env now Tells σ.toCore _ := .single (.rewrite hs (.count n hr))
    exact hc.path hσ.inv hcount

/-- The store is good, and the end of the child is awaited, reported, or due to nobody. -/
def Accounts (pid cid : String) (σ : Rows) : Prop := Good σ ∧ Accounted σ.toCore pid cid

theorem accounts_of_reaches {σ σ' : Rows} (h : Reaches env now Tells σ σ') :
    Tx.Keeps (Accounts pid cid) σ σ' :=
  fun hσ => ⟨h.good hσ.1, hσ.2.path hσ.1.inv (h hσ.1).2⟩

theorem cancelRun_accounts (id : String) :
    Steps (Tx.Keeps (Accounts pid cid)) (cancelRun env id now) := by
  intro σ r σ' h hσ
  rcases cancelRun_cases hσ.1 h with rfl | hend
  · exact hσ
  · have hreach : Reaches env now Terminating σ σ' :=
      hend.reaches (.inl rfl) fun _ => .inr (.inr rfl)
    exact ⟨hreach.good hσ.1, hend.accounts hσ.1 hσ.2⟩

theorem finish_accounts (f : Fence) (outcome : Status) (threshold : Nat) :
    Steps (Tx.Keeps (Accounts pid cid)) (finish env f outcome now threshold) := by
  intro σ r σ' h hσ
  rcases finish_cases Tells hσ.1 h with ⟨hreach, -⟩ | hend
  · exact accounts_of_reaches hreach hσ
  · have hreach : Reaches env now Terminating σ σ' :=
      hend.reaches (.inl rfl) fun _ => .inr (.inr rfl)
    exact ⟨hreach.good hσ.1, hend.accounts hσ.1 hσ.2⟩

theorem fire_accounts (f : Firing) : Steps (Tx.Keeps (Accounts pid cid)) (fire env f now) :=
  fire_steps (fun _ _ h => accounts_of_reaches (h.mono fun _ _ hbook => .inr hbook))
    cancelRun_accounts f

theorem applyControl_accounts (request : Request) (run : String) :
    Steps (Tx.Keeps (Accounts pid cid)) (applyControl env request (.cancel run) now) := by
  refine .bind .ensure fun _ => .bind .read fun found => ?_
  split
  · exact .bind .ensure fun _ => .pure
  · refine .bind (.map (cancelRun_accounts run)) fun reply => .bind ?_ fun _ => .pure
    exact (audit_quiet _).mono fun _ _ h => accounts_of_reaches (h.reaches : Reaches env now Tells _ _)

end Engine

/-- A call that ends a run gives its word to end one. -/
theorem step_finishes {σ : Rows} (hσ : Good σ) {op : Op} (hlive : Live σ.toCore cid)
    (hended : Ended (step env σ op).toCore cid) : ∃ i, op.may i .finish := by
  by_contra hnone
  refine hended.not_live ((step_path env hσ op).keep hσ.inv (P := fun c => Live c cid) ?_ hlive)
  rintro c c' - hmove ⟨s, hs, hl⟩
  obtain ⟨s', hs', -⟩ := hmove.stored hs
  rcases hmove.live_or_finish with hkeep | ⟨root, ids, hfinish, -⟩
  · exact ⟨s', hs', by rw [hkeep cid s s' hs hs', hl]⟩
  · exact absurd ⟨root, hfinish⟩ hnone

/-- A call after which the child has ended leaves its end reported, or its parent ended too. -/
theorem step_accounts {σ : Rows} (hσ : Good σ) {op : Op} (hc : Awaiting σ.toCore pid cid)
    (hended : Ended (step env σ op).toCore cid) :
    Told (step env σ op).toCore pid cid ∨ Ended (step env σ op).toCore pid := by
  have hlive : ¬Live (step env σ op).toCore cid := hended.not_live
  obtain ⟨i, hfinish⟩ := step_finishes hσ hc.live hended
  have hsteps : Steps (Tx.Keeps (Accounts pid cid)) (op.tx env) →
      Told (step env σ op).toCore pid cid ∨ Ended (step env σ op).toCore pid := by
    intro h
    rcases step_cases env σ op with ⟨heq, -⟩ | ⟨r, htx, -⟩
    · rw [heq] at hlive
      exact absurd hc.live hlive
    · rcases (h htx ⟨hσ, .inl hc⟩).2 with hawaiting | hrest
      · exact absurd hawaiting.live hlive
      · exact hrest
  cases op with
  | fire f t => exact hsteps (reporting_steps (fire_accounts f))
  | finish f outcome t threshold => exact hsteps (returning_steps (finish_accounts f outcome threshold))
  | cancel id t => exact hsteps (returning_steps (cancelRun_accounts id))
  | applyControl request command t =>
    cases command with
    | cancel run => exact hsteps (returning_steps (applyControl_accounts request run))
    | _ => simp [Op.may, Command.may] at hfinish
  | _ => exact hfinish.elim

/-! ### Once it is reported -/

theorem Path.reported {c c' : Core} (h : Path env now may c c') (hinv : Inv c) {status : Status}
    {n : Nat} {e : StoredEvent} (hr : Reported c pid cid status n e) :
    Cleared c' pid ∨ Reported c' pid cid status n e ∨
      e.consumedKey = none ∧ ∃ k types, may pid (.take k types) ∧ e.type_ ∈ types ∧
        Reported c' pid cid status n (asConsumed e k) := by
  refine h.keep hinv (P := fun c' => Cleared c' pid ∨ Reported c' pid cid status n e ∨
    e.consumedKey = none ∧ ∃ k types, may pid (.take k types) ∧ e.type_ ∈ types ∧
      Reported c' pid cid status n (asConsumed e k)) ?_ (.inr (.inl hr))
  rintro c c' hinv hmove (hcleared | hr | ⟨hpending, k, types, hmay, hlisted, hr⟩)
  · exact .inl (hmove.cleared hinv hcleared)
  · exact hmove.reported hinv hr
  · rcases hmove.reported hinv hr with hcleared | hr' | ⟨hconsumed, -⟩
    · exact .inl hcleared
    · exact .inr (.inr ⟨hpending, k, types, hmay, hlisted, hr'⟩)
    · simp [asConsumed] at hconsumed

/-- Only a listen of the run takes from its mailbox. -/
theorem Op.takes {op : Op} {i k : String} {types : List String} (h : op.may i (.take k types)) :
    ∃ f now, op = .takeEvent f k types now ∧ f.runId = i := by
  cases op with
  | takeEvent f k' types' now =>
    obtain ⟨rfl, rfl, rfl⟩ := h
    exact ⟨f, now, rfl, rfl⟩
  | applyControl request command now => cases command <;> exact h.elim
  | _ => exact h.elim

/-- Over a history the notice of a child's end stays in the mailbox until a listen of its type takes
it, or the evidence of the ended parent is swept. -/
theorem runs_reported (env : Env) {σ : Rows} (hσ : Good σ) (later : List Op) {status : Status} {n : Nat}
    {e : StoredEvent} (hr : Reported σ.toCore pid cid status n e) :
    Cleared (runs (step env) σ later).toCore pid ∨
      Reported (runs (step env) σ later).toCore pid cid status n e ∨
      ∃ before f k types now rest, later = before ++ .takeEvent f k types now :: rest ∧
        f.runId = pid ∧ "done:" ++ cid ∈ types ∧
        Reported (runs (step env) σ later).toCore pid cid status n (asConsumed e k) := by
  induction later using List.reverseRecOn with
  | nil => exact .inr (.inl hr)
  | append_singleton later op ih =>
    have hσ₁ := good_runs env hσ later
    have hpath := step_path env hσ₁ op
    rw [runs_concat]
    rcases ih with hcleared | hr₁ | ⟨before, f, k, types, now, rest, rfl, hrun, hlisted, hr₁⟩
    · exact .inl (hpath.keep hσ₁.inv (P := (Cleared · pid))
        (fun _ _ hinv hmove h => hmove.cleared hinv h) hcleared)
    · rcases hpath.reported hσ₁.inv hr₁ with hcleared | hr' | ⟨-, k, types, hmay, hlisted, hr'⟩
      · exact .inl hcleared
      · exact .inr (.inl hr')
      · obtain ⟨f, now, rfl, hrun⟩ := Op.takes hmay
        exact .inr (.inr ⟨later, f, k, types, now, [], rfl, hrun, hr.type ▸ hlisted, hr'⟩)
    · rcases hpath.reported hσ₁.inv hr₁ with hcleared | hr' | ⟨hconsumed, -⟩
      · exact .inl hcleared
      · exact .inr (.inr ⟨before, f, k, types, now, rest ++ [op], by simp, hrun, hlisted, hr'⟩)
      · simp [asConsumed] at hconsumed

/-! ### A CloudEvent in its place -/

/-- The mailbox holds a CloudEvent of the type of the child's end, and no notice of it. -/
structure Displaced (c : Core) (pid cid : String) : Prop where
  cloud : ∃ n e, (c.event pid).get n = some e ∧ e.envelope.isSome = true ∧ e.type_ = "done:" ++ cid
  unnoticed : ∀ n e, (c.event pid).get n = some e → e.envelope = none → e.type_ ≠ "done:" ++ cid

/-- A notice never joins a CloudEvent of its type. -/
theorem Displaced.move {c c' : Core} (h : Displaced c pid cid) (hinv : Inv c)
    (hmove : Move env now may c c') : Cleared c' pid ∨ Displaced c' pid cid := by
  obtain ⟨⟨n, e, he, hcloud, ht⟩, hunnoticed⟩ := h
  have hkept : Cleared c' pid ∨ ∃ n e, (c'.event pid).get n = some e ∧ e.envelope.isSome = true ∧
      -- the CloudEvent of the type stays, consumed or not, until the parent's evidence goes
      e.type_ = "done:" ++ cid := by
    have hcopy := hmove.copy hinv pid n
    rw [he] at hcopy
    generalize hnew : (c'.event pid).get n = o at hcopy
    cases hcopy with
    | same => exact .inr ⟨n, e, hnew, hcloud, ht⟩
    | forgotten _ hs hended hempty =>
      obtain ⟨s', hs', hended'⟩ := Path.ended_stored (.single hmove) hinv hs hended
      exact .inl ⟨s', hs', hended', hempty⟩
    | expired => exact .inr ⟨n, _, hnew, hcloud, ht⟩
    | taken => exact .inr ⟨n, _, hnew, hcloud, ht⟩
    | offered => exact .inr ⟨n, _, hnew, hcloud, ht⟩
  refine hkept.imp id fun hcloud' => ⟨hcloud', fun m x hx hnone htype => ?_⟩
  -- and no notice joins it
  have hcopy := hmove.copy hinv pid m
  rw [hx] at hcopy
  generalize hold : (c.event pid).get m = o at hcopy
  cases hcopy with
  | same => exact hunnoticed m x hold hnone htype
  | accepted _ _ hacc =>
    have hsome := hacc.cloud
    simp [hnone] at hsome
  -- a notice is pushed as the first copy of its type only
  | @notified s t data hs _ hr =>
    have htype : t = "done:" ++ cid := htype
    rw [htype] at hr
    obtain ⟨-, -, -, -, -, -, hfirst⟩ := hr.ended hinv
    have hid := hinv.tree.keyed _ _ hs
    have hfound := ((hinv.mails.mail s.id s (hid.symm ▸ hs)).eventType ("done:" ++ cid)).mpr
      ⟨n, e, by rw [hid]; exact he, ht⟩
    rw [hid, hfirst] at hfound
    simp at hfound
  | expired => exact hunnoticed m _ hold hnone htype
  | taken => exact hunnoticed m _ hold hnone htype
  | offered => exact hunnoticed m _ hold hnone htype

theorem Displaced.path {c c' : Core} (h : Displaced c pid cid) (hinv : Inv c)
    (hpath : Path env now may c c') : Cleared c' pid ∨ Displaced c' pid cid := by
  refine hpath.keep hinv (P := fun c => Cleared c pid ∨ Displaced c pid cid) ?_ (.inr h)
  rintro c c' hinv hmove (hcleared | h)
  · exact .inl (hmove.cleared hinv hcleared)
  · exact h.move hinv hmove

/-! ### A registration that is gone -/

/-- The parent is not registered for the child's end, and its mailbox holds no notice of it. -/
structure Unawaited (c : Core) (pid cid : String) : Prop where
  unregistered : ∃ p, c.run.get pid = some p ∧ p.awaits.get ("done:" ++ cid) = none
  unnoticed : ∀ n e, (c.event pid).get n = some e → e.envelope = none → e.type_ ≠ "done:" ++ cid

/-- A call that ends runs registers none and starts no child. -/
theorem Op.terminating {op : Op} {i : String} (h : op.may i .finish) (j : String) (a : Act)
    (hmay : op.may j a) : Terminating j a := by
  cases op with
  | fire f t => cases a <;> simp [Op.may, Terminating] at hmay ⊢
  | finish f outcome t threshold => cases a <;> simp [Op.may, Terminating] at hmay ⊢
  | cancel id t => cases a <;> simp [Op.may, Terminating] at hmay ⊢
  | applyControl request command t =>
    cases command with
    | cancel run => cases a <;> simp [Op.may, Command.may, Terminating] at hmay ⊢
    | _ => simp [Op.may, Command.may] at h
  | _ => exact h.elim

theorem Rewrite.unawaited {c : Core} {s s' : StoredRun} {t : String}
    (h : Rewrite c now Terminating s s') (ha : s.awaits.get t = none) : s'.awaits.get t = none := by
  cases h with
  | register types hr hmay => simp [Terminating] at hmay
  | adopt child hr hmay => simp [Terminating] at hmay
  | unregister k types hr hmay => simp [Terminating] at hmay
  | settle child =>
    rw [close_awaits]
    split
    · rfl
    · exact ha
  | park outcome =>
    obtain ⟨state, wakeAtMs, interruptions, heq⟩ := finished_eq c s outcome now
    rw [heq]
    exact ha
  | _ => exact ha

theorem RowChange.unawaited {c : Core} {s s' : StoredRun} {t : String}
    (h : RowChange env c now Terminating s s') (ha : s.awaits.get t = none) :
    s'.awaits.get t = none := by
  cases h with
  | rewrite h => exact h.unawaited ha
  | accept e => split <;> exact ha
  | notify t => split <;> exact ha
  | take c' k types n e hr hn he hmay => simp [Terminating] at hmay
  | finish => rfl
  | expire | offer | forget => exact ha

/-- Where no registration stands, no notice arrives while runs end. -/
theorem Unawaited.move {c c' : Core} (h : Unawaited c pid cid) (hinv : Inv c)
    (hmove : Move env now Terminating c c') : Unawaited c' pid cid := by
  obtain ⟨⟨p, hp, ha⟩, hunnoticed⟩ := h
  refine ⟨?_, fun n e he hnone ht => ?_⟩
  · obtain ⟨p', hp', rfl | hchange⟩ := hmove.stored hp
    · exact ⟨_, hp', ha⟩
    · exact ⟨p', hp', hchange.unawaited ha⟩
  · have hcopy := hmove.copy hinv pid n
    rw [he] at hcopy
    generalize hold : (c.event pid).get n = o at hcopy
    cases hcopy with
    | same => exact hunnoticed n e hold hnone ht
    | accepted _ _ hacc =>
      have hcloud := hacc.cloud
      simp [hnone] at hcloud
    -- a notice is stored for a registered run only
    | @notified s t data hs _ _ hawaits =>
      have ht : t = "done:" ++ cid := ht
      obtain rfl := Option.some.inj (hs.symm.trans hp)
      obtain ⟨at_, hat⟩ := (Table.contains_iff _ _).mp hawaits
      rw [ht, ha] at hat
      simp at hat
    | expired => exact hunnoticed n _ hold hnone ht
    | taken => exact hunnoticed n _ hold hnone ht
    | offered => exact hunnoticed n _ hold hnone ht

/-! ### When the parent is told -/

/-- The parent is registered for the child's end. -/
def Awaits (c : Core) (pid cid : String) : Prop :=
  ∃ p, c.run.get pid = some p ∧ p.awaits.contains ("done:" ++ cid) = true

/-- A CloudEvent of the type of the child's end is in the parent's mailbox. -/
def Forged (c : Core) (pid cid : String) : Prop :=
  ∃ n e, (c.event pid).get n = some e ∧ e.envelope.isSome = true ∧ e.type_ = "done:" ++ cid

variable {history : List Op} {op : Op}

/-- A child that lives has no notice of its end. -/
theorem unnoticed_after (hlive : Live (after env history).toCore cid) (n : Nat) (e : StoredEvent)
    (he : ((after env history).event pid).get n = some e) (hnone : e.envelope = none) :
    e.type_ ≠ "done:" ++ cid :=
  fun ht => (sincere_after env history pid n e cid he hnone ht).not_live hlive

/-- Without an event of its type, nothing of the type came at all. -/
theorem unseen_after (hlive : Live (after env history).toCore cid)
    (hforged : ¬Forged (after env history).toCore pid cid) : Unseen (after env history).toCore pid cid := by
  intro n e he
  cases hnone : e.envelope with
  | none => exact unnoticed_after hlive n e he hnone
  | some event => exact fun ht => hforged ⟨n, e, he, by rw [hnone]; rfl, ht⟩

/-- Where an event of its type was there first, the child is not reported. -/
theorem forged_untold (hlive : Live (after env history).toCore cid)
    (hforged : Forged (after env history).toCore pid cid) :
    ¬Told (step env (after env history) op).toCore pid cid := by
  have hσ := good_after env history
  rintro ⟨s, status, n, e, -, -, -, hr⟩
  have hdisplaced : Displaced (after env history).toCore pid cid := ⟨hforged, unnoticed_after hlive⟩
  rcases hdisplaced.path hσ.inv (step_path env hσ op) with ⟨-, -, -, hempty⟩ | hdisplaced'
  · have hstored := hr.stored
    simp [hempty] at hstored
  · exact hdisplaced'.unnoticed n e hr.stored hr.notice hr.type

/-- Where no registration stands, the child is not reported. -/
theorem unawaited_untold (howns : Owns (after env history).toCore pid cid)
    (hlive : Live (after env history).toCore cid)
    (hended : Ended (step env (after env history) op).toCore cid)
    (hawaits : ¬Awaits (after env history).toCore pid cid) :
    ¬Told (step env (after env history) op).toCore pid cid := by
  have hσ := good_after env history
  obtain ⟨p, hp, -⟩ := hσ.inv.tree.live_parent howns hlive
  have hunawaited : Unawaited (after env history).toCore pid cid := by
    refine ⟨⟨p, hp, ?_⟩, unnoticed_after hlive⟩
    rw [← Table.contains_eq_false_iff, ← Bool.not_eq_true]
    exact fun ha => hawaits ⟨p, hp, ha⟩
  -- the call ends a run, so it registers none
  obtain ⟨i, hfinish⟩ := step_finishes hσ hlive hended
  have hpath := (step_path env hσ op).mono (Op.terminating hfinish)
  have hunawaited' := hpath.keep hσ.inv (P := (Unawaited · pid cid))
    (fun _ _ hinv hmove h => h.move hinv hmove) hunawaited
  rintro ⟨s, status, n, e, -, -, -, hr⟩
  exact hunawaited'.unnoticed n e hr.stored hr.notice hr.type

/-- The registration stands while no call of the parent uses the child's internal key. -/
theorem awaits_after (hkey : ∀ op ∈ history, ¬op.ofListen pid ("child:" ++ cid))
    (howns : Owns (after env history).toCore pid cid) (hlive : Live (after env history).toCore cid)
    (hforged : ¬Forged (after env history).toCore pid cid) : Awaits (after env history).toCore pid cid := by
  obtain ⟨p, hp, hexpects⟩ := registered_after env hkey howns hlive (unseen_after hlive hforged)
  exact ⟨p, hp, hexpects.1⟩

/-- A registered parent that no event of the type reached is told, if it lives. -/
theorem awaits_told (howns : Owns (after env history).toCore pid cid)
    (hlive : Live (after env history).toCore cid)
    (hended : Ended (step env (after env history) op).toCore cid)
    (hparent : Live (step env (after env history) op).toCore pid)
    (hawaits : Awaits (after env history).toCore pid cid)
    (hforged : ¬Forged (after env history).toCore pid cid) :
    Told (step env (after env history) op).toCore pid cid := by
  -- the end is accounted for, and a live parent leaves only that it is told
  refine (step_accounts (good_after env history)
    ⟨howns, hlive, unseen_after hlive hforged, hawaits⟩ hended).resolve_right ?_
  exact fun hends => hends.not_live hparent

/-! ### Histories -/

/-- The end of a child is reported once to a live parent that is registered for it. The call that ends the
child leaves exactly one notice of its outcome with the parent, unless an event of that type was there
before; and the notice stays, until a listen of the parent for its type takes it, or the ended parent is
swept. -/
theorem child_end_reported (env : Env) (history : List Op) (op : Op) {pid cid : String}
    (howns : Owns (after env history).toCore pid cid) (hlive : Live (after env history).toCore cid)
    (hended : Ended (step env (after env history) op).toCore cid)
    (hparent : Live (step env (after env history) op).toCore pid)
    (hheld : (∀ op ∈ history, ¬op.ofListen pid ("child:" ++ cid)) ∨
      ∃ p, (after env history).run.get pid = some p ∧ p.awaits.contains ("done:" ++ cid) = true) :
    (Told (step env (after env history) op).toCore pid cid ↔
      ∀ n e, ((after env history).event pid).get n = some e → e.envelope.isSome = true →
        e.type_ ≠ "done:" ++ cid) ∧
    ∀ status n e, Reported (step env (after env history) op).toCore pid cid status n e →
      ∀ later σ, σ = runs (step env) (step env (after env history) op) later →
      Cleared σ.toCore pid ∨ Reported σ.toCore pid cid status n e ∨
        ∃ before f k types now rest, later = before ++ .takeEvent f k types now :: rest ∧
          f.runId = pid ∧ "done:" ++ cid ∈ types ∧
          Reported σ.toCore pid cid status n (asConsumed e k) := by
  refine ⟨⟨fun htold n e he hcloud ht => ?_, fun hcloud => ?_⟩, fun status n e hr later σ hσ => ?_⟩
  -- an event of its type was there first, so the child is not reported
  · exact forged_untold hlive ⟨n, e, he, hcloud, ht⟩ htold
  -- no event of its type: the parent's registration stands, and it is told
  · have hforged : ¬Forged (after env history).toCore pid cid :=
      fun ⟨n, e, he, hsome, ht⟩ => hcloud n e he hsome ht
    have hawaits : Awaits (after env history).toCore pid cid :=
      hheld.elim (fun hkey => awaits_after hkey howns hlive hforged) id
    exact awaits_told howns hlive hended hparent hawaits hforged
  -- and the notice stays, by induction on the calls that follow
  · subst hσ
    exact runs_reported env (step_good env (good_after env history) op) later hr

instance (c : Core) (i : String) : Decidable (Live c i) :=
  decidable_of_iff ((c.run.get i).any (fun s => decide (s.run.endedMs = none)) = true)
    (by simp [Live, Option.any_eq_true])

instance (c : Core) (i : String) : Decidable (Ended c i) :=
  decidable_of_iff ((c.run.get i).any (fun s => s.run.endedMs.isSome) = true)
    (by simp [Ended, Option.any_eq_true])

instance (c : Core) (i j : String) : Decidable (Owns c i j) :=
  decidable_of_iff ((c.run.get j).any
    (fun s => s.run.child.any fun link => decide (link.parent = i)) = true)
    (by simp [Owns, Option.any_eq_true])

instance (c : Core) (i j : String) : Decidable (Awaits c i j) :=
  decidable_of_iff ((c.run.get i).any (fun s => s.awaits.contains ("done:" ++ j)) = true)
    (by simp [Awaits, Option.any_eq_true])

instance (c : Core) (i j : String) : Decidable (Forged c i j) :=
  decidable_of_iff ((c.event i).rows.any
    (fun row => row.2.envelope.isSome && decide (row.2.type_ = "done:" ++ j)) = true)
    (by simp [Forged, List.any_eq_true, Table.mem_rows])

/-- A run starts a child. -/
def childStarted : List Op :=
  [.start (.plain "p") 0 "o",
    .startChild (.plain "p" 1) (.plain "c") { parent := "p", key := "call", reference := "/" } 1 "o"]

/-- The child completes. -/
def childCompletes : Op := .finish (.plain "c" 1) (.completed .null) 2 3

/-- A child is started, completes, and its parent is told. -/
theorem completed_child_reported :
    Told (step .plain (after .plain childStarted) childCompletes).toCore "p" "c" := by
  have hempty : (after .plain childStarted).event "p" = .empty := by decide +kernel
  -- no call of the history listens under the key of the child
  refine (child_end_reported .plain childStarted childCompletes (by decide +kernel) (by decide +kernel)
    (by decide +kernel) (by decide +kernel) (.inl ?_)).1.mpr fun n e he => ?_
  · intro op hop
    simp only [childStarted, List.mem_cons, List.not_mem_nil, or_false] at hop
    rcases hop with rfl | rfl <;> simp [Op.ofListen]
  · simp [hempty] at he

/-! ### For good -/

/-- Copy `n` is still the one notice of the child's end, pending or taken by a listen of the parent that
names its type; or the parent has ended and its evidence was swept. -/
def Remains (env : Env) (σ : Rows) (later : List Op) (pid cid : String) (status : Status) (n : Nat)
    (e : StoredEvent) : Prop :=
  Cleared (runs (step env) σ later).toCore pid ∨
    Reported (runs (step env) σ later).toCore pid cid status n e ∨
    ∃ before f k types now rest, later = before ++ .takeEvent f k types now :: rest ∧
      f.runId = pid ∧ "done:" ++ cid ∈ types ∧
      Reported (runs (step env) σ later).toCore pid cid status n (asConsumed e k)

/-- The end of the child has reached the parent: one notice of its outcome is pending there, and it
remains, whatever is called later. -/
def Noticed (env : Env) (σ : Rows) (pid cid : String) : Prop :=
  ∃ s status n e, σ.run.get cid = some s ∧ s.run.outcome = some status ∧ e.consumedKey = none ∧
    Reported σ.toCore pid cid status n e ∧ ∀ later, Remains env σ later pid cid status n e

/-- A notice that is there remains. -/
theorem noticed_iff_told {σ : Rows} (hσ : Good σ) : Noticed env σ pid cid ↔ Told σ.toCore pid cid := by
  constructor
  · rintro ⟨s, status, n, e, hs, houtcome, hpending, hr, -⟩
    exact ⟨s, status, n, e, hs, houtcome, hpending, hr⟩
  · rintro ⟨s, status, n, e, hs, houtcome, hpending, hr⟩
    exact ⟨s, status, n, e, hs, houtcome, hpending, hr, fun later => runs_reported env hσ later hr⟩

/-- The end of an owned child reaches its live parent exactly when, just before the call that ends the
child, the parent is registered for it and no CloudEvent of its type has come. And the parent is
registered, as long as none of its calls used the child's internal key. -/
theorem child_end_noticed (env : Env) (history : List Op) (op : Op) {pid cid : String}
    (howns : Owns (after env history).toCore pid cid) (hlive : Live (after env history).toCore cid)
    (hended : Ended (step env (after env history) op).toCore cid)
    (hparent : Live (step env (after env history) op).toCore pid) :
    (Noticed env (step env (after env history) op) pid cid ↔
      Awaits (after env history).toCore pid cid ∧ ¬Forged (after env history).toCore pid cid) ∧
    ((∀ op ∈ history, ¬op.ofListen pid ("child:" ++ cid)) →
      ¬Forged (after env history).toCore pid cid → Awaits (after env history).toCore pid cid) := by
  have hσ := step_good env (good_after env history) op
  refine ⟨⟨fun hnoticed => ?_, fun ⟨hawaits, hforged⟩ => ?_⟩, fun hkey => awaits_after hkey howns hlive⟩
  -- told, so neither of the two kept the notice away
  · have htold := (noticed_iff_told hσ).mp hnoticed
    constructor
    · by_contra hawaits
      exact unawaited_untold howns hlive hended hawaits htold
    · exact fun hforged => forged_untold hlive hforged htold
  -- and neither of the two does
  · exact (noticed_iff_told hσ).mpr (awaits_told howns hlive hended hparent hawaits hforged)

/-- The parent hears of something else, and the child parks, before it completes. -/
def childWorks : List Op :=
  childStarted ++
    [.deliver (.plainEvent "1" "order") (some "p") 2, .finish (.plain "c" 1) (.waiting 3) 3 3,
      .claimAs "c" 4 { version := none, accepts := [] } "o"]

/-- The end is noticed then, beside the event and the notice of the child's waiting. -/
theorem completed_child_noticed :
    Noticed .plain (step .plain (after .plain childWorks) (.finish (.plain "c" 2) (.completed .null) 5 3))
      "p" "c" :=
  (child_end_noticed .plain childWorks _ (by decide +kernel) (by decide +kernel)
    (by decide +kernel) (by decide +kernel)).1.mpr ⟨by decide +kernel, by decide +kernel⟩

/-- A CloudEvent of the type of the end reaches the parent before the child completes. -/
def endForged : List Op :=
  childStarted ++ [.deliver (.plainEvent "1" "done:c") (some "p") 2]

/-- The parent, registered and alive, never learns of the end then. -/
theorem forged_end_unnoticed :
    Owns (after .plain endForged).toCore "p" "c" ∧ Live (after .plain endForged).toCore "c" ∧
      Ended (step .plain (after .plain endForged) childCompletes).toCore "c" ∧
      Live (step .plain (after .plain endForged) childCompletes).toCore "p" ∧
      Awaits (after .plain endForged).toCore "p" "c" ∧
      ¬Noticed .plain (step .plain (after .plain endForged) childCompletes) "p" "c" := by
  refine ⟨by decide +kernel, by decide +kernel, by decide +kernel, by decide +kernel,
    by decide +kernel, fun hnoticed => ?_⟩
  have hforged : Forged (after .plain endForged).toCore "p" "c" := by decide +kernel
  exact forged_untold (by decide +kernel) hforged
    ((noticed_iff_told (step_good _ (good_after _ _) _)).mp hnoticed)

end Ouro
