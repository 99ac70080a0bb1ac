import Ouro.Durable.Evidence

/-!
# The identities of delivered events

A delivered identity leads a redelivery back to its recipient: `push` writes a routing row for it,
and `forget` deletes the row with the copy. `forget` reads from the copy whether it was delivered,
and an answer offered to wildcard listens is marked published since (`asPublished`): the routing row
of such a copy outlives it. `identity_rows_exact` says that the rows are exact in every history whose
sweeps remove no such copy (`Keeps`), and `dangling_route` shows what remains of one that does.
-/

namespace Ouro

open Lib Engine Tx

variable {env : Env} {now : Int} {may : String → Act → Prop}

/-! ### Accepted through a delivery -/

/-- The calls that deliver: a delivery, and the answer to a wait. -/
def Op.delivers : Op → Bool
  | .deliver _ _ _ => true
  | .applyControl _ (.respond _ _ _) _ => true
  | _ => false

/-- Copy `n` of the run was accepted through a delivery of the history. -/
def Delivered (env : Env) (history : List Op) (i : String) (n : Nat) : Prop :=
  ∃ earlier op later, history = earlier ++ op :: later ∧ op.delivers = true ∧
    ((after env earlier).event i).get n = none ∧
    ((step env (after env earlier) op).event i).get n ≠ none

/-- What a call accepts it accepts as delivered exactly when it delivers. -/
theorem Op.may_accept {op : Op} {i t : String} {d : Bool} (h : op.may i (.accept t d)) :
    d = op.delivers := by
  cases op with
  | deliver event target now => exact h.2.2
  | publish event target now => exact h.2.2
  | applyControl request command now =>
    cases command with
    | respond run wait event => exact h.2.2
    | _ => exact h.elim
  | _ => exact h.elim

/-- A call that sweeps ends no run. -/
theorem Op.may_forget {op : Op} {i : String} {at_ : Int} (h : op.may i (.forget at_)) :
    ∃ now kept, op = .sweep now kept ∧ at_ ≤ satSub now kept := by
  cases op with
  | sweep now kept => exact ⟨now, kept, rfl, h⟩
  | applyControl request command now => cases command <;> exact h.elim
  | _ => exact h.elim

/-! ### The routing rows -/

/-- The routing rows are those of the copies in `D`. -/
def Routed (c : Core) (D : String → Nat → Prop) : Prop :=
  ∀ id i r, (c.delivered id).get i = some r ↔
    r = i ∧ ∃ n e, (c.event i).get n = some e ∧ identityOf e = some id ∧ D i n

theorem Routed.congr {c : Core} {D D' : String → Nat → Prop} (h : Routed c D)
    (hD : ∀ i n e, (c.event i).get n = some e → (D i n ↔ D' i n)) : Routed c D' := by
  intro id i r
  rw [h id i r]
  constructor
  · rintro ⟨hr, n, e, he, hid, hn⟩
    exact ⟨hr, n, e, he, hid, (hD i n e he).mp hn⟩
  · rintro ⟨hr, n, e, he, hid, hn⟩
    exact ⟨hr, n, e, he, hid, (hD i n e he).mpr hn⟩

/-- A change that leaves the routing rows, and the identities of the copies. -/
theorem Routed.of_same {c c' : Core} {D : String → Nat → Prop} (h : Routed c D)
    (hdelivered : c'.delivered = c.delivered)
    (hevent : ∀ i n id, (∃ e, (c'.event i).get n = some e ∧ identityOf e = some id) ↔
      ∃ e, (c.event i).get n = some e ∧ identityOf e = some id) : Routed c' D := by
  intro id i r
  rw [hdelivered, h id i r]
  refine and_congr_right fun _ => exists_congr fun n => ?_
  have := hevent i n id
  simp only [← and_assoc] at this ⊢
  rw [exists_and_right, exists_and_right, this]

/-- A copy written over another of the same identity. -/
theorem Routed.putAt {c c' : Core} {D : String → Nat → Prop} (h : Routed c D) {run : String}
    {m : Nat} {e e' : StoredEvent} (hdelivered : c'.delivered = c.delivered)
    (he : (c.event run).get m = some e) (hevent : c'.event = Table.putAt c.event run m e')
    (hid : identityOf e' = identityOf e) : Routed c' D := by
  refine h.of_same hdelivered fun i n id => ?_
  rw [hevent, Table.get_putAt]
  split
  · next heq =>
    obtain ⟨rfl, rfl⟩ := heq
    simp [he, hid]
  · rfl

theorem Move.routed {c c' : Core} {D : String → Nat → Prop} (hmove : Move env now may c c')
    (hinv : Inv c)
    (hD : ∀ i s t d, c.run.get i = some s → may i (.accept t d) → (D i s.accepted ↔ d = true))
    (hK : ∀ i s at_, c.run.get i = some s → s.run.endedMs = some at_ → may i (.forget at_) →
      ∀ n e id, (c.event i).get n = some e → identityOf e = some id → D i n → e.delivered = true)
    (h : Routed c D) : Routed c' D := by
  -- a copy is stored under a number the run has not used
  have hnone : ∀ {s : StoredRun}, c.run.get s.id = some s → (c.event s.id).get s.accepted = none := by
    intro s hs
    by_contra hne
    obtain ⟨e, he⟩ := Option.ne_none_iff_exists'.mp hne
    exact lt_irrefl _ ((hinv.mails.mail _ _ hs).event_lt _ _ he)
  -- so a copy under the new number is the one that was pushed, or an old one
  have hnew : ∀ {s : StoredRun} {e : StoredEvent}, c.run.get s.id = some s →
      ∀ i n e', (Table.putAt c.event s.id s.accepted e i).get n = some e' ↔
        (i = s.id ∧ n = s.accepted ∧ e' = e) ∨ (c.event i).get n = some e' := by
    intro s e hs i n e'
    rw [Table.get_putAt]
    split
    · next heq =>
      obtain ⟨rfl, rfl⟩ := heq
      simp [hnone hs, eq_comm]
    · next hne =>
      constructor
      · exact .inr
      · rintro (⟨rfl, rfl, -⟩ | he)
        · exact absurd ⟨rfl, rfl⟩ hne
        · exact he
  cases hmove with
  | admission | refuse | bear | rewrite | record | finish | spend | dropBudget => exact h
  -- a notice of a status
  | @notify s t data hs hl ha hp hr hn =>
    refine h.of_same rfl fun i n id => exists_congr fun e => ?_
    refine (and_congr_left fun hid => ?_)
    change (Table.putAt c.event s.id s.accepted (notice t data now) i).get n = some e ↔ _
    rw [hnew hs]
    refine ⟨fun he => he.elim (fun heq => ?_) fun he => he, .inr⟩
    -- a notice has no identity
    rw [heq.2.2] at hid
    simp [identityOf, notice] at hid
  -- moves that rewrite a copy in place: neither its identity nor its mark as delivered counts
  | @expire s n e at_ taken hs hl hx hat he => exact h.putAt rfl he rfl rfl
  | @take s k types n e event hs hr hm hk hn he => exact h.putAt rfl he rfl rfl
  | @offer s n e hs hl he => exact h.putAt rfl he rfl rfl
  -- an accepted event: a routing row is written for a delivered one
  | @accept s e hs hl he hi hn hmay =>
    have hDn := hD _ _ _ _ hs hmay
    have hrow : ∀ id i, (((identityOf e).elim c.delivered fun id =>
        if e.delivered then Table.putAt c.delivered id s.id s.id else c.delivered) id).get i =
        if (identityOf e = some id ∧ e.delivered = true) ∧ s.id = i then some s.id
        else (c.delivered id).get i := by
      intro id i
      cases identityOf e with
      | none => simp
      | some id' =>
        cases e.delivered with
        | false => simp
        | true => simp [Table.get_putAt]
    intro id i r
    refine Eq.to_iff (congrArg (· = some r) (hrow id i)) |>.trans ?_
    change _ ↔ r = i ∧ ∃ n e', (Table.putAt c.event s.id s.accepted e i).get n = some e' ∧ _
    simp only [hnew hs]
    -- the row of this identity
    split
    · next heq =>
      obtain ⟨⟨hid, hd⟩, rfl⟩ := heq
      constructor
      · intro hr
        exact ⟨(Option.some.inj hr).symm, _, e, .inl ⟨rfl, rfl, rfl⟩, hid, hDn.mpr hd⟩
      · rintro ⟨rfl, -⟩
        rfl
    -- another row
    · next hne =>
      rw [h id i r]
      refine and_congr_right fun _ => exists_congr fun n => exists_congr fun e' => ?_
      refine ⟨fun hold => ⟨.inr hold.1, hold.2⟩, ?_⟩
      rintro ⟨⟨rfl, rfl, rfl⟩ | he', hid, hn⟩
      · exact absurd ⟨⟨hid, hDn.mp hn⟩, rfl⟩ hne
      · exact ⟨he', hid, hn⟩
  -- a sweep: the rows of its run go, and the others stay
  | @forget s at_ hs hl hmay =>
    intro id i r
    change ((forgetRows c s.id).delivered id).get i = some r ↔
      r = i ∧ ∃ n e, ((forgetRows c s.id).event i).get n = some e ∧ _
    by_cases hi : i = s.id
    · subst hi
      have hempty := (Vacant.forget (hinv.mails.mail _ _ hs)).event
      -- no delivered copy of this run has lost its mark, so every row is deleted
      have hgone : ((forgetRows c s.id).delivered id).get s.id = none := by
        refine forgetRows_delivered ?_
        cases hrow : (c.delivered id).get s.id with
        | none => exact .inl rfl
        | some r =>
          obtain ⟨-, n, e, he, hid, hn⟩ := (h id s.id r).mp hrow
          exact .inr ⟨n, e, he, hid, hK _ s at_ hs hl hmay n e id he hid hn⟩
      simp [hgone, hempty]
    · rw [forgetRows_delivered_ne hi, (forgetRows_same hi).event]
      exact h id i r

/-! ### Calls -/

/-- The step removes no copy whose routing row it would leave: one that was delivered and that an
answer to a wildcard wait marked published since. -/
def Keeps (σ : Rows) : Op → Prop
  | .sweep now kept => ∀ i s at_, σ.run.get i = some s → s.run.endedMs = some at_ →
      at_ ≤ satSub now kept → ∀ n e id, (σ.event i).get n = some e → identityOf e = some id →
        (σ.delivered id).contains i = true → e.delivered = true
  | _ => True

/-- Numbers of copies are not used again. -/
theorem RowChange.accepted_le {c : Core} {s s' : StoredRun} (h : RowChange env c now may s s') :
    s.accepted ≤ s'.accepted := by
  cases h with
  | rewrite h => exact le_of_eq h.counters.accepted.symm
  | accept e =>
    unfold counted
    split <;> exact Nat.le_succ _
  | notify t data =>
    unfold counted
    split <;> exact Nat.le_succ _
  | take c' k types n e =>
    refine le_of_eq ?_
    rw [(tookEvent_counters _ k types).accepted, joined_eq]
    rfl
  | _ => exact le_rfl

theorem Path.accepted_le {c c' : Core} (h : Path env now may c c') (hinv : Inv c) {i : String}
    {s s' : StoredRun} (hs : c.run.get i = some s) (hs' : c'.run.get i = some s') :
    s.accepted ≤ s'.accepted := by
  obtain ⟨t, ht, hle⟩ := h.stored hinv (R := fun s s' => s.accepted ≤ s'.accepted)
    (fun _ => le_rfl) (fun _ _ _ => le_trans) (fun _ _ _ _ _ h => h.accepted_le) hs
  rwa [← Option.some.inj (ht.symm.trans hs')]

/-- A run that is stored for the first time has no copies yet. -/
theorem Move.event_of_new {c c' : Core} (h : Move env now may c c') (hinv : Inv c) {i : String}
    (hi : c.run.get i = none) (n : Nat) : (c'.event i).get n = none := by
  have hcopy := h.copy hinv i n
  rw [(hinv.mails.vacant i hi).event, Table.get_empty] at hcopy
  generalize (c'.event i).get n = o at hcopy
  cases hcopy with
  | same => rfl
  | forgotten => rfl
  | accepted hs => simp [hi] at hs
  | notified hs => simp [hi] at hs

/-- A call keeps the routing rows those of the copies delivered so far. -/
theorem step_routed {σ : Rows} (hσ : Good σ) {op : Op} {D : String → Nat → Prop}
    (hbound : ∀ i n, D i n → ∃ s, σ.run.get i = some s ∧ n < s.accepted) (hkeeps : Keeps σ op)
    (h : Routed σ.toCore D) :
    Routed (step env σ op).toCore fun i n => D i n ∨ op.delivers = true ∧
      (σ.event i).get n = none ∧ ((step env σ op).event i).get n ≠ none := by
  -- along the call, every number that is free before it counts as delivered by it
  let D' : String → Nat → Prop := fun i n => D i n ∨ op.delivers = true ∧ (σ.event i).get n = none
  have hstart : Routed σ.toCore D' := h.congr fun i n e he => by simp [D', he]
  have hpath := step_path env hσ op
  -- what is carried along: the path so far, the rows, and that copies that are swept kept their marks
  suffices hend : Path env (op.instant.getD 0) op.may σ.toCore (step env σ op).toCore ∧
      Routed (step env σ op).toCore D' ∧
      ∀ i s at_, (step env σ op).run.get i = some s → s.run.endedMs = some at_ →
        op.may i (.forget at_) → ∀ n e id, ((step env σ op).event i).get n = some e →
          identityOf e = some id → D' i n → e.delivered = true from
    hend.2.1.congr fun i n e he => by simp [D', he]
  refine hpath.keep hσ.inv (P := fun c => Path env (op.instant.getD 0) op.may σ.toCore c ∧
    Routed c D' ∧ ∀ i s at_, c.run.get i = some s → s.run.endedMs = some at_ →
      op.may i (.forget at_) → ∀ n e id, (c.event i).get n = some e → identityOf e = some id →
        D' i n → e.delivered = true) ?_ ⟨.refl, hstart, ?_⟩
  · rintro c c' hinv hmove ⟨hsince, hrouted, hmarks⟩
    refine ⟨hsince.tail hmove, hmove.routed hinv ?_ hmarks hrouted, ?_⟩
    · -- the number an acceptance uses is beyond those of the copies there were
      intro i s t d hs hmay
      have hd := Op.may_accept hmay
      constructor
      · rintro (hD | ⟨hdel, -⟩)
        · obtain ⟨s₀, hs₀, hlt⟩ := hbound i _ hD
          exact absurd (Path.accepted_le hsince hσ.inv hs₀ hs) (not_le.mpr hlt)
        · rw [hd, hdel]
      · intro hdel
        refine .inr ⟨by rw [← hd, hdel], ?_⟩
        by_contra hne
        obtain ⟨e, he⟩ := Option.ne_none_iff_exists'.mp hne
        cases hrow : σ.run.get i with
        | none => simp [(hσ.inv.mails.vacant i hrow).event] at he
        | some s₀ =>
          have hlt := (hσ.inv.mails.mail i s₀ hrow).event_lt s.accepted e
          rw [hσ.indexed.keyed i s₀ hrow] at hlt
          exact absurd (Path.accepted_le hsince hσ.inv hrow hs) (not_le.mpr (hlt he))
    · -- a sweep ends no run, and changes no copy of an ended one
      intro i s' at_ hs' hended hmay n e id he hid hD
      obtain ⟨t, kept, rfl, -⟩ := Op.may_forget hmay
      cases hrow : c.run.get i with
      | none => simp [hmove.event_of_new hinv hrow] at he
      | some s =>
        have hended' : s.run.endedMs = some at_ := by
          rcases hmove.live_or_finish with hkeep | ⟨root, ids, hfinish, -⟩
          · rw [← hkeep i s s' hrow hs', hended]
          · exact hfinish.elim
        exact hmarks i s at_ hrow hended' hmay n e id
          (hmove.event_of_ended hinv hrow (by simp [hended']) he) hid hD
  -- at the start the marks are those the history's condition speaks of
  · intro i s at_ hs hended hmay n e id he hid hD
    obtain ⟨t, kept, rfl, hat⟩ := Op.may_forget hmay
    refine hkeeps i s at_ hs hended hat n e id he hid ?_
    rw [Table.contains_iff]
    exact ⟨i, (hstart id i i).mpr ⟨rfl, n, e, he, hid, hD⟩⟩

/-! ### Histories -/

/-- Every step of the history removes only copies whose routing rows it finds. -/
def KeepsRoutes (env : Env) (history : List Op) : Prop :=
  ∀ earlier op later, history = earlier ++ op :: later → Keeps (after env earlier) op

theorem delivered_concat {history : List Op} {op : Op} {i : String} {n : Nat} :
    Delivered env (history ++ [op]) i n ↔ Delivered env history i n ∨ op.delivers = true ∧
      ((after env history).event i).get n = none ∧
      ((step env (after env history) op).event i).get n ≠ none := by
  constructor
  · rintro ⟨earlier, op', later, heq, hnew⟩
    rcases List.eq_nil_or_concat later with rfl | ⟨later, last, rfl⟩
    · obtain ⟨rfl, rfl⟩ : history = earlier ∧ op = op' := by simpa using heq
      exact .inr hnew
    · refine .inl ⟨earlier, op', later, ?_, hnew⟩
      rw [List.concat_eq_append, ← List.cons_append, ← List.append_assoc] at heq
      exact (List.append_inj' heq rfl).1
  · rintro (⟨earlier, op', later, rfl, hnew⟩ | hnew)
    · exact ⟨earlier, op', later ++ [op], by simp, hnew⟩
    · exact ⟨history, op, [], rfl, hnew⟩

theorem routed_after {history : List Op} (h : KeepsRoutes env history) :
    Routed (after env history).toCore (Delivered env history) ∧
      ∀ i n, Delivered env history i n →
        ∃ s, (after env history).run.get i = some s ∧ n < s.accepted := by
  -- induction on the history, call by call at its end
  induction history using List.reverseRecOn with
  | nil =>
    have hnot : ∀ i n, ¬Delivered env [] i n := by
      rintro i n ⟨earlier, op, later, heq, -⟩
      simp at heq
    refine ⟨fun id i r => ?_, fun i n hn => absurd hn (hnot i n)⟩
    simp [after, runs, Rows.empty]
  | append_singleton history op ih =>
    obtain ⟨hrouted, hbound⟩ := ih fun earlier op' later heq =>
      h earlier op' (later ++ [op]) (by simp [heq])
    have hσ := good_after env history
    have hstep : Routed (step env (after env history) op).toCore _ :=
      step_routed hσ hbound (h history op [] rfl) hrouted
    rw [after_concat]
    refine ⟨hstep.congr fun i n e he => delivered_concat.symm, fun i n hn => ?_⟩
    -- a number delivered by this call is below the counter the call leaves
    rcases delivered_concat.mp hn with hold | ⟨-, -, hnew⟩
    · obtain ⟨s, hs, hlt⟩ := hbound i n hold
      obtain ⟨s', hs', hle⟩ := (step_path env hσ op).stored hσ.inv
        (R := fun s s' => s.accepted ≤ s'.accepted) (fun _ => le_rfl) (fun _ _ _ => le_trans)
        (fun _ _ _ _ _ h => h.accepted_le) hs
      exact ⟨s', hs', lt_of_lt_of_le hlt hle⟩
    · -- a stored copy is numbered below the counter of its run
      have hσ' := step_good env hσ op
      obtain ⟨e, he⟩ := Option.ne_none_iff_exists'.mp hnew
      cases hrow : (step env (after env history) op).run.get i with
      | none => simp [(hσ'.inv.mails.vacant i hrow).event] at he
      | some s =>
        have hlt := (hσ'.inv.mails.mail i s hrow).event_lt n e
        rw [hσ'.indexed.keyed i s hrow] at hlt
        exact ⟨s, rfl, hlt he⟩

/-- The rows of identities are exact in every history whose sweeps find the delivered copies marked. A
routing row leads to the runs that hold a delivered copy of the event and to no others, a run's own row
leads to its copy, and once the copies are gone an event with the identity is delivered as a new one. -/
theorem identity_rows_exact (env : Env) (history : List Op) (h : KeepsRoutes env history) :
    -- a routing row leads to a stored copy that was delivered
    (∀ id i r, ((after env history).delivered id).get i = some r ↔
      r = i ∧ ∃ n e, ((after env history).event i).get n = some e ∧ identityOf e = some id ∧
        Delivered env history i n) ∧
    -- the identity row of a run leads to the copy that has it
    (∀ id i n, ((after env history).eventId i).get id = some n ↔
      ∃ e, ((after env history).event i).get n = some e ∧ identityOf e = some id) ∧
    -- a new identity goes where its type is eligible, or nowhere
    ∀ event t id now, typeOf event = some t → identity event = some id →
      (∀ i n e, ((after env history).event i).get n = some e → identityOf e = some id →
        ¬Delivered env history i n) →
      ((∀ at_ i, ¬Eligible (after env history).toCore t at_ i) →
        call env (after env history) (.deliver event none now) =
          (.ok (.recipient none), after env history)) ∧
      ∀ at_ i s, Oldest (after env history).toCore t at_ i → (after env history).run.get i = some s →
        ((after env history).eventId i).get id = none → s.accepted < u64Max →
        (call env (after env history) (.deliver event none now)).1 = .ok (.recipient (some i)) ∧
        ((step env (after env history) (.deliver event none now)).event i).get s.accepted =
          some (cloudEvent event t now true (some (satAdd now env.policy.mailboxMs))) := by
  have hσ := good_after env history
  obtain ⟨hrouted, -⟩ := routed_after h
  refine ⟨hrouted, fun id i n => ?_, fun event t id now ht hid hgone => ?_⟩
  · cases hrow : (after env history).run.get i with
    | none =>
      have hvacant := hσ.inv.mails.vacant i hrow
      simp [hvacant.event, hvacant.eventId]
    | some s =>
      have hiff := (hσ.inv.mails.mail i s hrow).eventId id n
      rwa [hσ.indexed.keyed i s hrow] at hiff
  -- no row leads the event back, so it is routed as a new one
  · have hrow : ∀ i, ((after env history).delivered id).get i = none := by
      intro i
      by_contra hne
      obtain ⟨r, hr⟩ := Option.ne_none_iff_exists'.mp hne
      obtain ⟨-, n, e, he, hident, hn⟩ := (hrouted id i r).mp hr
      exact hgone i n e he hident hn
    obtain ⟨hnone, hsome⟩ := deliver_new env hσ ht hid hrow now
    refine ⟨hnone, fun at_ i s hold hs hfresh hroom => ?_⟩
    obtain ⟨hcall, hcore⟩ := hsome at_ i s hold hs hfresh hroom
    obtain rfl := hσ.indexed.keyed i s hs
    refine ⟨hcall, ?_⟩
    rw [hcore, event_accepting, Table.get_putAt, if_pos ⟨rfl, rfl⟩]

/-- While no stored copy is marked published, every step keeps the routes. -/
theorem keeps_of_rows {σ : Rows}
    (h : (σ.run.rows.all fun row => (σ.event row.1).rows.all fun copy => copy.2.delivered) = true)
    (op : Op) : Keeps σ op := by
  cases op with
  | sweep now kept =>
    intro i s at_ hs _ _ n e id he _ _
    have hcopies := List.all_eq_true.mp h (i, s) ((Table.mem_rows _).mpr hs)
    exact List.all_eq_true.mp hcopies (n, e) ((Table.mem_rows _).mpr he)
  | _ => trivial

/-- A run takes a delivery, ends and is swept. -/
def deliveredThenSwept : List Op :=
  [.start (.plain "r") 0 "o", .deliver (.plainEvent "1" "t") (some "r") 1, .cancel "r" 2, .sweep 3 0]

/-- A run takes a delivered event, ends and is swept: no row of the event's identity is left. -/
theorem swept_identity_gone :
    ((after .plain deliveredThenSwept).delivered "s\x001").get "r" = none := by
  have hkeeps : KeepsRoutes .plain deliveredThenSwept := by
    intro earlier op later heq
    refine keeps_of_rows ?_ op
    have hlength : earlier.length < 4 := by
      have := congrArg List.length heq
      simp only [deliveredThenSwept, List.length_cons, List.length_nil, List.length_append] at this
      omega
    -- the states before the steps are those after the first few calls
    have htake : earlier = deliveredThenSwept.take earlier.length := by simp [heq]
    rw [htake]
    generalize earlier.length = n at hlength ⊢
    revert n
    decide +kernel
  have hempty : (after .plain deliveredThenSwept).event "r" = .empty := by decide +kernel
  obtain ⟨hrows, -⟩ := identity_rows_exact .plain deliveredThenSwept hkeeps
  by_contra hne
  obtain ⟨r, hr⟩ := Option.ne_none_iff_exists'.mp hne
  obtain ⟨-, n, e, he, -⟩ := (hrows _ _ r).mp hr
  simp [hempty] at he

/-! ### A copy that is no longer marked -/

/-- A wait for every type. -/
def PendingWait.wildcard : PendingWait :=
  { types := ["*"], strategy := .obj [("Any", .obj [("filters", .arr []), ("until", .null)])],
    input := .null, args := .obj [("names", .arr []), ("values", .arr [])],
    progress := .obj
      [("done", .bool false), ("expectations", .obj []), ("filled", .arr []), ("until", .null)],
    position := "k", sinceMs := 0, timeoutMs := none, redacted := false }

/-- A wildcard wait is answered; then its run ends and is swept, and another waits for the type. -/
def answeredThenSwept : List Op :=
  [.start (.plain "r") 0 "o", .describeWait (.plain "r" 1) "k" .wildcard 1,
    .applyControl { id := "c", actor := "a", reason := "b" }
      (.respond "r" "k" (.plainEvent "1" "t")) 2,
    .cancel "r" 3, .sweep 4 0, .start (.plain "q") 5 "o", .registerWait (.plain "q" 1) ["t"] 6]

/-- The delivered copy was offered to wildcard listens before the sweep: the routing row stays, and a
redelivery finds no run behind it. -/
theorem dangling_route :
    ((after .plain answeredThenSwept).delivered "s\x001").get "r" = some "r" ∧
      (after .plain answeredThenSwept).event "r" = .empty ∧
      (call .plain (after .plain answeredThenSwept) (.deliver (.plainEvent "1" "t") none 7)).1 =
        .ok (.recipient none) ∧
      (call .plain (after .plain answeredThenSwept) (.deliver (.plainEvent "2" "t") none 7)).1 =
        .ok (.recipient (some "q")) := by
  decide +kernel

end Ouro
