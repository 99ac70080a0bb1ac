import Ouro.Durable.Forest

/-!
# Copies of events over histories

What a move does to one copy of an event (`Move.copy`) and to the record a listen keeps
(`Move.event_record`), and from that, over every history of calls, `copies_consumed_once`: a consumed
copy stays as it was consumed; a listen takes the first copy it may; a key of a listen takes one copy
and returns it ever after.

An expiry keeps its record under a key of its own (`expiredKey`). A listen under such a key would
share it, so what is said about the keys of listens is said about the others (`Reserved`).
-/

namespace Ouro

open Lib Engine Tx

variable {env : Env} {now : Int} {may : String → Act → Prop}

/-! ### One copy -/

/-- The record of an expiry is kept under this key. -/
def Reserved (k : String) : Prop := ∃ n, k = expiredKey n

/-- What a move from `c` to `c'` does to copy `n` of run `i`. -/
inductive CopyStep (env : Env) (c c' : Core) (now : Int) (may : String → Act → Prop) (i : String)
    (n : Nat) : Option StoredEvent → Option StoredEvent → Prop
  | same (o : Option StoredEvent) : CopyStep env c c' now may i n o o
  /-- The evidence of an ended run goes as a whole. -/
  | forgotten {s : StoredRun} (o : Option StoredEvent) (hs : c.run.get i = some s)
      (hl : s.run.endedMs ≠ none) (hempty : c'.event i = .empty) :
      CopyStep env c c' now may i n o none
  | accepted {s : StoredRun} {e : StoredEvent} (hs : c.run.get i = some s) (hn : n = s.accepted)
      (he : Acceptable env now e) (hmay : may i (.accept e.type_ e.delivered)) :
      CopyStep env c c' now may i n none (some e)
  | notified {s : StoredRun} {t : String} {data : Json} (hs : c.run.get i = some s)
      (hn : n = s.accepted) (hr : Reports c i t data) (ha : s.awaits.contains t = true)
      (hp : s.pending.contains t = false) :
      CopyStep env c c' now may i n none (some (notice t data now))
  | expired {e : StoredEvent} {taken : Json} (hp : e.consumedKey = none)
      (hx : expired e now = true)
      (hrecord : (c'.record i).get (expiredKey n) = some (.expired taken)) :
      CopyStep env c c' now may i n (some e) (some (asConsumed e (expiredKey n)))
  | taken {e : StoredEvent} {k : String} {types : List String} {event : Json}
      (hp : e.consumedKey = none) (hfree : Free c i k) (htake : Takeable c i types n e)
      (hrecord : (c'.record i).get k = some (.event event)) (hmay : may i (.take k types))
      (hothers : ∀ m, m ≠ n → (c'.event i).get m = (c.event i).get m) :
      CopyStep env c c' now may i n (some e) (some (asConsumed e k))
  | offered {e : StoredEvent} (hp : e.consumedKey = none) (hd : e.delivered = true) :
      CopyStep env c c' now may i n (some e) (some (asPublished e))

/-- A write of one copy leaves the others. -/
private theorem CopyStep.putAt {c c' : Core} {run : String} {m : Nat} {o : Option StoredEvent}
    {x : StoredEvent} (hevent : c'.event = Table.putAt c.event run m x) (ho : (c.event run).get m = o)
    (h : CopyStep env c c' now may run m o (some x)) (i : String) (n : Nat) :
    CopyStep env c c' now may i n ((c.event i).get n) ((c'.event i).get n) := by
  rw [hevent, Table.get_putAt]
  split
  · next heq =>
    obtain ⟨rfl, rfl⟩ := heq
    rw [ho]
    exact h
  · exact .same _

theorem Move.copy {c c' : Core} (h : Move env now may c c') (hinv : Inv c) (i : String) (n : Nat) :
    CopyStep env c c' now may i n ((c.event i).get n) ((c'.event i).get n) := by
  -- a copy is stored under a number the run has not used
  have hnone : ∀ {s : StoredRun}, c.run.get s.id = some s → (c.event s.id).get s.accepted = none := by
    intro s hs
    by_contra hne
    obtain ⟨e, he⟩ := Option.ne_none_iff_exists'.mp hne
    exact lt_irrefl _ ((hinv.mails.mail _ _ hs).event_lt _ _ he)
  cases h with
  -- moves that touch no copy
  | admission | refuse | bear | rewrite | record | finish | spend | dropBudget => exact .same _
  | @accept s e hs hl he hi hn hmay => exact .putAt rfl (hnone hs) (.accepted hs rfl he hmay) i n
  | @notify s t data hs hl ha hp hr hn => exact .putAt rfl (hnone hs) (.notified hs rfl hr ha hp) i n
  -- the expiry row leads to the copy that expires
  | @expire s m e at_ taken hs hl hx hat he =>
    obtain ⟨m', e', at', hp, hexp, hk, -⟩ := (hinv.mails.mail _ _ hs).get_expiry.mp hx
    obtain ⟨rfl, rfl⟩ : at_ = at' ∧ m = m' := by simpa using hk
    obtain rfl : e' = e := Option.some.inj (hp.1.symm.trans he)
    have hrecord : (Table.putAt c.record s.id (expiredKey m) (.expired taken) s.id).get (expiredKey m) =
        some (.expired taken) := by rw [Table.get_putAt, if_pos ⟨rfl, rfl⟩]
    exact .putAt rfl he (.expired hp.2 (by simpa [Engine.expired, hexp] using hat) hrecord) i n
  -- what is taken is the first copy that the listen may take
  | @take s k types m e event hs hr hm hk hn he hmay =>
    have htake := (hinv.mails.mail _ _ hs).takeable hn he
    have hrecord : (Table.putAt c.record s.id k (.event event) s.id).get k = some (.event event) := by
      rw [Table.get_putAt, if_pos ⟨rfl, rfl⟩]
    have hothers : ∀ m', m' ≠ m →
        (Table.putAt c.event s.id m (asConsumed e k) s.id).get m' = (c.event s.id).get m' := by
      intro m' hne
      rw [Table.get_putAt, if_neg fun heq => hne heq.2.symm]
    exact .putAt rfl he (.taken htake.1.2 hk htake hrecord hmay hothers) i n
  | @offer s m e hs hl he hp hd hn => exact .putAt rfl he (.offered hp hd) i n
  -- a sweep empties the mailbox of its run and leaves the others
  | @forget s at_ hs hl =>
    change CopyStep env c _ now may i n _ (((forgetRows c s.id).event i).get n)
    by_cases hrun : i = s.id
    · subst hrun
      have hempty := (Vacant.forget (hinv.mails.mail _ _ hs)).event
      rw [hempty, Table.get_empty]
      exact .forgotten _ hs (by simp [hl]) hempty
    · rw [(forgetRows_same hrun).event]
      exact .same _

/-! ### One record of a listen -/

/-- The evidence of an ended run is gone. -/
def Cleared (c : Core) (i : String) : Prop :=
  ∃ s, c.run.get i = some s ∧ s.run.endedMs ≠ none ∧ c.event i = .empty

theorem Move.cleared {c c' : Core} (h : Move env now may c c') (hinv : Inv c) {i : String}
    (hcleared : Cleared c i) : Cleared c' i := by
  obtain ⟨s, hs, hended, hempty⟩ := hcleared
  have hpath : Path env now may c c' := .single h
  obtain ⟨s', hs', hended'⟩ := hpath.ended_stored hinv hs hended
  refine ⟨s', hs', hended', Table.ext_get fun n => ?_⟩
  cases he : (c'.event i).get n with
  | none => simp
  | some e =>
    have := h.event_of_ended hinv hs hended he
    simp [hempty] at this

/-- The records a move may write over one that is settled. -/
theorem Move.settled_record {c c' : Core} (h : Move env now may c c') (hinv : Inv c) {i k : String}
    {r : Record} (hsettled : ∀ r', checkTransition r r' = true → r' = r)
    (hex : ∀ k', r ≠ .exceeded k') (hrecord : (c.record i).get k = some r) :
    (c'.record i).get k = some r ∨ Cleared c' i ∨
      (∃ n taken, k = expiredKey n ∧ (c'.record i).get k = some (.expired taken)) ∨
      ∃ types, may i (.take k types) ∧ ∃ n taken, k = expiredKey n ∧ r = .expired taken := by
  -- a move that puts a record leaves this one, or puts it under the same key of the same run
  have hput : ∀ (run k' : String) (r' : Record), (Table.putAt c.record run k' r' i).get k = some r ∨
      run = i ∧ k' = k ∧ (Table.putAt c.record run k' r' i).get k = some r' := by
    intro run k' r'
    rw [Table.get_putAt]
    split
    · next heq => exact .inr ⟨heq.1, heq.2, rfl⟩
    · exact .inl hrecord
  cases h with
  | admission | refuse | bear | rewrite | accept | notify | offer | finish | spend | dropBudget =>
    exact .inl hrecord
  -- a record that is settled is only saved again as it is
  | @record s k' r' hs hr hev hnew =>
    rcases hput s.id k' r' with hsame | ⟨rfl, rfl, hget⟩
    · exact .inl hsame
    · refine .inl (hget.trans ?_)
      rw [hrecord] at hnew
      cases hnew with
      | saved hr ht => rw [hsettled r' (by simpa using ht)]
      | same => rfl
      | overwritten k'' => exact absurd rfl (hex k'')
  -- an expiry writes under its own reserved key
  | @expire s m e at_ taken =>
    rcases hput s.id (expiredKey m) (.expired taken) with hsame | ⟨-, rfl, hget⟩
    · exact .inl hsame
    · exact .inr (.inr (.inl ⟨m, taken, rfl, hget⟩))
  -- a take writes over the record of an expiry only
  | @take s k' types m e event hs hr hm hfree hn he hmay =>
    rcases hput s.id k' (.event event) with hsame | ⟨rfl, rfl, hget⟩
    · exact .inl hsame
    · rcases hfree with hnone | ⟨m', taken, hk, hold⟩
      · rw [hrecord] at hnone
        simp at hnone
      · exact .inr (.inr (.inr ⟨types, hmay, m', taken, hk, Option.some.inj (hrecord.symm.trans hold)⟩))
  | @forget s at_ hs hl =>
    by_cases hrun : i = s.id
    · subst hrun
      refine .inr (.inl ⟨forgotten s, ?_, by simp [forgotten, hl], (Vacant.forget (hinv.mails.mail _ _ hs)).event⟩)
      rw [Core.get_set]
      exact if_pos rfl
    · refine .inl ?_
      change ((forgetRows c s.id).record i).get k = _
      rw [record_forgetRows, Function.update_of_ne hrun]
      exact hrecord

/-- A settled record stays, outside the keys of expiries, until the evidence of the ended run goes. -/
theorem Move.unreserved_record {c c' : Core} (h : Move env now may c c') (hinv : Inv c) {i k : String}
    {r : Record} (hk : ¬Reserved k) (hsettled : ∀ r', checkTransition r r' = true → r' = r)
    (hex : ∀ k', r ≠ .exceeded k') (hrecord : (c.record i).get k = some r) :
    (c'.record i).get k = some r ∨ Cleared c' i := by
  rcases h.settled_record hinv hsettled hex hrecord with
    hsame | hcleared | ⟨n, taken, hr, -⟩ | ⟨types, -, n, taken, hr, -⟩
  · exact .inl hsame
  · exact .inr hcleared
  · exact absurd ⟨n, hr⟩ hk
  · exact absurd ⟨n, hr⟩ hk

/-- The record of a listen. -/
theorem Move.event_record {c c' : Core} (h : Move env now may c c') (hinv : Inv c) {i k : String}
    {event : Json} (hk : ¬Reserved k) (hrecord : (c.record i).get k = some (.event event)) :
    (c'.record i).get k = some (.event event) ∨ Cleared c' i :=
  h.unreserved_record hinv hk (fun r' h => by simpa [checkTransition, eq_comm] using h) (by simp) hrecord

/-! ### A consumed copy -/

/-- A consumed copy stays as it is, until the evidence of the ended run goes. -/
theorem Move.consumed {c c' : Core} (h : Move env now may c c') (hinv : Inv c) {i : String} {n : Nat}
    {e : StoredEvent} (he : (c.event i).get n = some e) (hc : e.consumedKey ≠ none) :
    (c'.event i).get n = some e ∨ Cleared c' i := by
  have hcopy := h.copy hinv i n
  rw [he] at hcopy
  generalize hnew : (c'.event i).get n = o at hcopy
  cases hcopy with
  | same => exact .inl rfl
  | forgotten _ hs hl hempty =>
    have hpath : Path env now may c c' := .single h
    obtain ⟨s', hs', hended'⟩ := hpath.ended_stored hinv hs hl
    exact .inr ⟨s', hs', hended', hempty⟩
  | expired hp => exact absurd hp hc
  | taken hp => exact absurd hp hc
  | offered hp => exact absurd hp hc

/-- What becomes of an unconsumed copy: it stays, it is taken, or it expires under its record. -/
theorem Path.unconsumed {c c' : Core} (h : Path env now may c c') (hinv : Inv c) {i : String} {n : Nat}
    {e : StoredEvent} (hp : Pend c i n e) (hk : ∀ types, ¬may i (.take (expiredKey n) types)) :
    Cleared c' i ∨ ∃ e', (c'.event i).get n = some e' ∧
      (e'.consumedKey = none ∧ e'.expiresAtMs = e.expiresAtMs ∨
        (∃ k types, e'.consumedKey = some k ∧ may i (.take k types)) ∨
        e'.consumedKey = some (expiredKey n) ∧ expired e now = true ∧
          ∃ taken, (c'.record i).get (expiredKey n) = some (.expired taken)) := by
  -- along the moves of the path: an unconsumed copy as above, a consumed one as it was consumed
  refine h.keep hinv (P := fun c' => Cleared c' i ∨ ∃ e', (c'.event i).get n = some e' ∧
      (e'.consumedKey = none ∧ e'.expiresAtMs = e.expiresAtMs ∨
        (∃ k types, e'.consumedKey = some k ∧ may i (.take k types)) ∨
        e'.consumedKey = some (expiredKey n) ∧ expired e now = true ∧
          ∃ taken, (c'.record i).get (expiredKey n) = some (.expired taken))) ?_
    (.inr ⟨e, hp.1, .inl ⟨hp.2, rfl⟩⟩)
  rintro c₁ c₂ hinv₁ hmove (hcleared | ⟨e₁, he₁, hcase⟩)
  · exact .inl (hmove.cleared hinv₁ hcleared)
  rcases hcase with ⟨hpend, hexp⟩ | ⟨k, types, hkey, hmay⟩ | ⟨hkey, hx, taken, hrecord⟩
  · have hcopy := hmove.copy hinv₁ i n
    rw [he₁] at hcopy
    generalize hnew : (c₂.event i).get n = o at hcopy
    cases hcopy with
    | same => exact .inr ⟨e₁, rfl, .inl ⟨hpend, hexp⟩⟩
    | forgotten _ hs hl hempty =>
      have hpath : Path env now may c₁ c₂ := .single hmove
      obtain ⟨s', hs', hended'⟩ := hpath.ended_stored hinv₁ hs hl
      exact .inl ⟨s', hs', hended', hempty⟩
    | @expired _ taken _ hx hrecord =>
      refine .inr ⟨_, rfl, .inr (.inr ⟨rfl, ?_, taken, hrecord⟩)⟩
      simpa [Engine.expired, hexp] using hx
    | @taken _ k types event _ _ _ _ hmay => exact .inr ⟨_, rfl, .inr (.inl ⟨k, types, rfl, hmay⟩)⟩
    | offered => exact .inr ⟨_, rfl, .inl ⟨hpend, hexp⟩⟩
  -- a copy that was taken stays so
  · rcases hmove.consumed hinv₁ he₁ (by simp [hkey]) with hsame | hcleared
    · exact .inr ⟨e₁, hsame, .inr (.inl ⟨k, types, hkey, hmay⟩)⟩
    · exact .inl hcleared
  -- and so does one that expired, with its record
  · rcases hmove.consumed hinv₁ he₁ (by simp [hkey]) with hsame | hcleared
    · rcases hmove.settled_record hinv₁ (fun r' h => by simpa [checkTransition, eq_comm] using h)
        (by simp) hrecord with hr | hcleared | ⟨m, taken', -, hr⟩ | ⟨types, hmay, -⟩
      · exact .inr ⟨e₁, hsame, .inr (.inr ⟨hkey, hx, taken, hr⟩)⟩
      · exact .inl hcleared
      · exact .inr ⟨e₁, hsame, .inr (.inr ⟨hkey, hx, taken', hr⟩)⟩
      · exact absurd hmay (hk types)
    · exact .inl hcleared

/-! ### One copy a key -/

/-- A copy that a listen consumed has its record, and each key has one copy. -/
structure Taken (c : Core) : Prop where
  record : ∀ i n e k, (c.event i).get n = some e → e.consumedKey = some k → ¬Reserved k →
    ∃ event, (c.record i).get k = some (.event event)
  once : ∀ i n n' e e' k, (c.event i).get n = some e → e.consumedKey = some k →
    (c.event i).get n' = some e' → e'.consumedKey = some k → ¬Reserved k → n = n'

/-- A copy that is consumed after a move was so before, or the move takes it. -/
theorem Move.was_consumed {c c' : Core} (h : Move env now may c c') (hinv : Inv c) {i : String}
    {n : Nat} {e : StoredEvent} {k : String} (he : (c'.event i).get n = some e)
    (hc : e.consumedKey = some k) (hk : ¬Reserved k) :
    (c.event i).get n = some e ∨ (c.record i).get k = none ∧
      (∃ event, (c'.record i).get k = some (.event event)) ∧
      ∀ m, m ≠ n → (c'.event i).get m = (c.event i).get m := by
  have hcopy := h.copy hinv i n
  rw [he] at hcopy
  generalize (c.event i).get n = o at hcopy
  cases hcopy with
  | same => exact .inl rfl
  | accepted _ _ hacc => simp [hacc.pending] at hc
  | notified => simp [notice] at hc
  | expired => exact absurd ⟨n, (Option.some.inj hc).symm⟩ hk
  | @taken e₀ k' types event hp hfree htake hrecord hmay hothers =>
    obtain rfl : k' = k := Option.some.inj hc
    refine .inr ⟨?_, ⟨event, hrecord⟩, hothers⟩
    rcases hfree with hnone | ⟨m, taken, hm, -⟩
    · exact hnone
    · exact absurd ⟨m, hm⟩ hk
  | offered hp => simp [asPublished, hp] at hc

theorem Taken.move {c c' : Core} (h : Taken c) (hinv : Inv c) (hmove : Move env now may c c') :
    Taken c' where
  record i n e k he hc hk := by
    rcases hmove.was_consumed hinv he hc hk with hold | ⟨-, hrecord, -⟩
    · obtain ⟨event, hrecord⟩ := h.record i n e k hold hc hk
      rcases hmove.event_record hinv hk hrecord with hsame | ⟨s, -, -, hempty⟩
      · exact ⟨event, hsame⟩
      · simp [hempty] at he
    · exact hrecord
  once i n n' e e' k he hc he' hc' hk := by
    -- the key of the copy taken by this move had no record, so no copy either
    have hfirst : ∀ {n n' e e'}, (c'.event i).get n = some e → e.consumedKey = some k →
        (c'.event i).get n' = some e' → e'.consumedKey = some k → (c.record i).get k = none →
        (∀ m, m ≠ n → (c'.event i).get m = (c.event i).get m) → n = n' := by
      intro n n' e e' he hc he' hc' hnone hothers
      by_contra hne
      rw [hothers n' (Ne.symm hne)] at he'
      obtain ⟨event, hrecord⟩ := h.record i n' e' k he' hc' hk
      simp [hnone] at hrecord
    rcases hmove.was_consumed hinv he hc hk with hold | ⟨hnone, -, hothers⟩
    · rcases hmove.was_consumed hinv he' hc' hk with hold' | ⟨hnone, -, hothers⟩
      · exact h.once i n n' e e' k hold hc hold' hc' hk
      · exact (hfirst he' hc' he hc hnone hothers).symm
    · exact hfirst he hc he' hc' hnone hothers

theorem taken_after (env : Env) (history : List Op) : Taken (after env history).toCore :=
  runs_core (P := Taken) (fun _ _ _ _ hinv hmove h => h.move hinv hmove) Good.empty
    ⟨fun i n e k he => by simp [Rows.empty] at he, fun i n n' e e' k he => by simp [Rows.empty] at he⟩
    history

/-! ### The first copy -/

/-- A call that is no listen under the key of an expiry. -/
def Op.Ordinary : Op → Prop
  | .takeEvent _ k _ _ => ¬Reserved k
  | _ => True

theorem Op.Ordinary.not_reserved {op : Op} (h : op.Ordinary) {i k : String} {types : List String}
    (hmay : op.may i (.take k types)) :
    ¬Reserved k ∧ ∃ f now, op = .takeEvent f k types now ∧ f.runId = i := by
  cases op with
  | takeEvent f k' types' now =>
    obtain ⟨rfl, rfl, rfl⟩ := hmay
    exact ⟨h, f, now, rfl, rfl⟩
  | applyControl request command now => cases command <;> exact hmay.elim
  | _ => exact hmay.elim

/-- What a listen may take once the copies that are due have expired, it might take before. -/
theorem Engine.Lapsed.takeable {σ σ₁ : Rows} {s : StoredRun} (h : Lapsed σ s.id now σ₁)
    (hmail : Mail σ₁.toCore s) (hm : s.mailbox.all (fun at_ => decide (now < at_)) = true)
    {types : List String} {n : Nat} {e : StoredEvent} :
    Takeable σ₁.toCore s.id types n e ↔ Takeable σ.toCore s.id types n e ∧ expired e now = false := by
  constructor
  · rintro ⟨hp, htype⟩
    refine ⟨⟨?_, htype⟩, hmail.unexpired hm hp⟩
    rcases h n with hsame | ⟨e', -, -, hconsumed⟩
    · exact ⟨hsame.symm.trans hp.1, hp.2⟩
    · have := hp.2
      simp [← Option.some.inj (hconsumed.symm.trans hp.1), asConsumed] at this
  · rintro ⟨⟨hp, htype⟩, hx⟩
    refine ⟨⟨?_, hp.2⟩, htype⟩
    rcases h n with hsame | ⟨e', hp', hx', -⟩
    · exact hsame.trans hp.1
    · rw [hp'.unique hp, hx'] at hx
      simp at hx

/-- A copy that a listen consumes under its own key is the first it may take, and is returned. -/
theorem takeEvent_least {f : Fence} {k : String} {types : List String} {r : Option Json} {σ σ' : Rows}
    (hσ : Good σ) (h : takeEvent env f k types now σ = .ok (r, σ')) (hk : ¬Reserved k) {n : Nat}
    {e e' : StoredEvent} (hp : Pend σ.toCore f.runId n e) (he' : (σ'.event f.runId).get n = some e')
    (hc : e'.consumedKey = some k) :
    IsLeast {m | ∃ x, Takeable σ.toCore f.runId types m x ∧ expired x now = false} n ∧
      ∃ event, r = some event ∧ (σ'.record f.runId).get k = some (.event event) := by
  obtain ⟨s, hid, hs, hr, ⟨event, -, -, rfl⟩ | ⟨-, s', σ₁, hexp, hfree, -, hrest⟩⟩ :=
    takeEvent_cases (fun _ _ => False) hσ h
  · -- nothing changed
    rw [hp.1] at he'
    rw [← Option.some.inj he', hp.2] at hc
    simp at hc
  have hid' := hexp.id_eq
  have hinv := hσ.inv.path hexp.path
  -- the run's mailbox after the expiries before the take
  have hmail : Mail (σ₁.toCore.set s') s' := hinv.mails.mail s'.id s' (by simp)
  have hmail₁ : Mail σ₁.toCore s' := hmail.congr (.of_eq _ rfl rfl rfl rfl rfl rfl rfl rfl) (.refl _)
  rw [← hid, ← hid'] at hp he' ⊢
  -- before the copy was taken it had not expired, for its key is another
  have hkept : (σ₁.event s'.id).get n ≠ some e' := by
    intro heq
    rcases hexp.copies n with hsame | ⟨e₀, -, -, hconsumed⟩
    · rw [← hid'] at hsame
      rw [← Option.some.inj ((hp.1.symm.trans hsame.symm).trans heq), hp.2] at hc
      simp at hc
    · rw [← hid'] at hconsumed
      rw [← Option.some.inj (hconsumed.symm.trans heq)] at hc
      exact hk ⟨n, (Option.some.inj hc).symm⟩
  obtain ⟨m, event, hcand, rfl, htaken⟩ | ⟨-, -, hcore⟩ := hrest
  · obtain ⟨e₁, he₁, hcore⟩ := takeCopy_core hinv htaken
    have hevent : σ'.event = Table.putAt σ₁.event s'.id m (asConsumed e₁ k) :=
      (congrArg Core.event hcore).trans rfl
    have hrecord : σ'.record = Table.putAt σ₁.record s'.id k (.event event) :=
      (congrArg Core.record hcore).trans rfl
    -- the copy is the one that was taken now, and the first that the listen may take
    rw [hevent, Table.get_putAt] at he'
    split at he'
    · next heq =>
      obtain ⟨-, rfl⟩ := heq
      have hleast := hmail₁.least_candidate types
      rw [← hid'] at hcand
      rw [hcand] at hleast
      have hlapsed : Lapsed σ s'.id now σ₁ := by rw [hid']; exact hexp.copies
      simp only [hlapsed.takeable hmail₁ hexp.unexpired] at hleast
      refine ⟨hleast, event, rfl, ?_⟩
      rw [hrecord, Table.get_putAt, if_pos ⟨rfl, rfl⟩]
    · exact absurd he' hkept
  · rw [show σ'.event = σ₁.event from (congrArg Core.event hcore).trans rfl] at he'
    exact absurd he' hkept

/-- What a listen returns is kept under its key. -/
theorem takeEvent_saves {f : Fence} {k : String} {types : List String} {event : Json} {σ σ' : Rows}
    (hσ : Good σ) (h : takeEvent env f k types now σ = .ok (some event, σ')) :
    (σ'.record f.runId).get k = some (.event event) := by
  obtain ⟨s, hid, hs, hr, ⟨event', hrecord, heq, rfl⟩ | ⟨-, s', σ₁, hexp, hfree, -, hrest⟩⟩ :=
    takeEvent_cases (fun _ _ => False) hσ h
  · obtain rfl := Option.some.inj heq
    rw [← hid]
    exact hrecord
  obtain ⟨m, event', -, heq, htaken⟩ | ⟨-, heq, -⟩ := hrest
  · obtain rfl := Option.some.inj heq
    obtain ⟨e₁, -, hcore⟩ := takeCopy_core (hσ.inv.path hexp.path) htaken
    rw [show σ'.record = Table.putAt σ₁.record s'.id k (.event event) from
      (congrArg Core.record hcore).trans rfl, Table.get_putAt, if_pos ⟨hexp.id_eq.trans hid, rfl⟩]
  · simp at heq

/-- A listen whose key holds an event returns it. -/
theorem takeEvent_again {f : Fence} {k : String} (types : List String) {event : Json} {σ : Rows}
    {s : StoredRun} (hchecked : checked f now env.policy.skewMs σ = .ok (s, σ))
    (hrecord : (σ.record f.runId).get k = some (.event event)) :
    takeEvent env f k types now σ = .ok (some event, σ) := by
  refine bind_ok.mpr ⟨s, σ, hchecked, bind_ok.mpr ⟨_, σ, read_ok.mpr ⟨hrecord.symm, rfl⟩, ?_⟩⟩
  rfl

/-! ### Histories -/

/-- The transaction of a call that returns. -/
theorem tx_of_call {op : Op} {σ : Rows} {r : Result} (h : (call env σ op).1 = .ok r) :
    op.tx env σ = .ok (.ok r, step env σ op) := by
  rcases step_cases env σ op with ⟨-, e, he⟩ | ⟨r', htx, hcall⟩
  · rw [he] at h
    simp at h
  · rw [hcall] at h
    simp only at h
    rw [← h]
    exact htx

/-- What a call consumes it takes, as the first it may, or lets expire. -/
theorem step_consumes {σ : Rows} (hσ : Good σ) {op : Op} (hop : op.Ordinary) {i : String} {n : Nat}
    {e e' : StoredEvent} {k : String} (hp : Pend σ.toCore i n e)
    (he' : ((step env σ op).event i).get n = some e') (hc : e'.consumedKey = some k) :
    (∃ f types now event, op = .takeEvent f k types now ∧ f.runId = i ∧
        IsLeast {m | ∃ x, Takeable σ.toCore i types m x ∧ expired x now = false} n ∧
        (call env σ op).1 = .ok (.event (some event)) ∧
        ((step env σ op).record i).get k = some (.event event)) ∨
      k = expiredKey n ∧ (∃ now, op.instant = some now ∧ expired e now = true) ∧
        ∃ taken, ((step env σ op).record i).get k = some (.expired taken) := by
  cases hinstant : op.instant with
  | none =>
    -- a call without an instant changes no copy
    rw [show (step env σ op).event = σ.event from congrArg Core.event (step_core_of_instant env σ hinstant),
      hp.1] at he'
    rw [← Option.some.inj he', hp.2] at hc
    simp at hc
  | some t =>
    -- otherwise the call is a path of moves, and one of them consumed the copy
    have hpath := step_path env hσ op
    rw [hinstant] at hpath
    have hkey : ∀ types, ¬op.may i (.take (expiredKey n) types) := fun types hmay =>
      (hop.not_reserved hmay).1 ⟨n, rfl⟩
    rcases hpath.unconsumed hσ.inv hp hkey with ⟨-, -, -, hempty⟩ | ⟨e₁, he₁, hcase⟩
    · simp [hempty] at he'
    obtain rfl := Option.some.inj (he₁.symm.trans he')
    rcases hcase with ⟨hnone, -⟩ | ⟨k', types, hk', hmay⟩ | ⟨hk', hx, taken, hrecord⟩
    · simp [hnone] at hc
    -- a take of this call, which only `takeEvent` makes
    · obtain rfl : k' = k := Option.some.inj (hk'.symm.trans hc)
      obtain ⟨hk, f, now, rfl, rfl⟩ := hop.not_reserved hmay
      rcases step_cases env σ (.takeEvent f k' types now) with ⟨heq, -⟩ | ⟨r, htx, hcall⟩
      · rw [heq, hp.1] at he'
        rw [← Option.some.inj he', hp.2] at hc
        simp at hc
      · obtain ⟨r', htake, rfl⟩ := map_ok.mp htx
        obtain ⟨hleast, event, rfl, hrecord⟩ := takeEvent_least hσ htake hk hp he' hc
        exact .inl ⟨f, types, now, event, rfl, rfl, hleast, by rw [hcall], hrecord⟩
    -- an expiry of this call
    · obtain rfl : expiredKey n = k := Option.some.inj (hk'.symm.trans hc)
      exact .inr ⟨rfl, ⟨t, rfl, hx⟩, taken, hrecord⟩

/-- A consumed copy over a history: as it is, or gone with the evidence of its run. -/
theorem runs_consumed (env : Env) {σ : Rows} (hσ : Good σ) (later : List Op) {i : String} {n : Nat}
    {e : StoredEvent} (he : (σ.event i).get n = some e) (hc : e.consumedKey ≠ none) :
    ((runs (step env) σ later).event i).get n = some e ∨ Cleared (runs (step env) σ later).toCore i :=
  runs_core (P := fun c => (c.event i).get n = some e ∨ Cleared c i)
    (fun _ _ _ _ hinv hmove h => h.elim (fun he => hmove.consumed hinv he hc)
      fun hcleared => .inr (hmove.cleared hinv hcleared)) hσ (.inl he) later

/-- What a run keeps under a key of its own is there as long as the run is executed. -/
theorem record_rests {σ σ' : Rows} (hσ : Good σ) (later : List Op) {f : Fence} {k : String} {r : Record}
    (hk : ¬Reserved k) (hsettled : ∀ r', checkTransition r r' = true → r' = r)
    (hex : ∀ k', r ≠ .exceeded k') (hrecord : (σ.record f.runId).get k = some r)
    (hσ' : σ' = runs (step env) σ later) {s : StoredRun}
    (hchecked : checked f now env.policy.skewMs σ' = .ok (s, σ')) :
    (σ'.record f.runId).get k = some r := by
  subst hσ'
  have hkept := @runs_core env (fun c => (c.record f.runId).get k = some r ∨ Cleared c f.runId)
    (fun _ _ _ _ hinv hmove h => h.elim
      (fun hrecord => hmove.unreserved_record hinv hk hsettled hex hrecord)
      fun hcleared => .inr (hmove.cleared hinv hcleared)) σ hσ (.inl hrecord) later
  refine hkept.resolve_right ?_
  rintro ⟨s', hs', hended, -⟩
  obtain ⟨-, hs, hrunning⟩ := checked_ok hchecked
  rw [hs] at hs'
  rw [← Option.some.inj hs', ((good_runs env hσ later).inv.sane _ _ hs).live_of_running hrunning] at hended
  simp at hended

/-- Copies are consumed once. A consumed copy stays as it was consumed, until it is swept. A call that
consumes a copy either takes it for a listen, which the copy is then returned to and which it was the first
unexpired one to suit, or lets it expire under its own record. A key of a listen consumes at most one copy,
and whoever holds the run later gets the same event for that key again. -/
theorem copies_consumed_once (env : Env) (history : List Op) :
    (∀ later i n e e' k, ((after env history).event i).get n = some e → e.consumedKey = some k →
      ((after env (history ++ later)).event i).get n = some e' → e' = e) ∧
    (∀ op i n e e' k, op.Ordinary → ((after env history).event i).get n = some e →
      e.consumedKey = none → ((step env (after env history) op).event i).get n = some e' →
      e'.consumedKey = some k →
      (∃ f types now event, op = .takeEvent f k types now ∧ f.runId = i ∧
          IsLeast {m | ∃ x, Takeable (after env history).toCore i types m x ∧ expired x now = false} n ∧
          (call env (after env history) op).1 = .ok (.event (some event)) ∧
          ((step env (after env history) op).record i).get k = some (.event event)) ∨
        k = expiredKey n ∧ (∃ now, op.instant = some now ∧ expired e now = true) ∧
          ∃ taken, ((step env (after env history) op).record i).get k = some (.expired taken)) ∧
    (∀ later i n n' e e' k, ¬Reserved k → ((after env history).event i).get n = some e →
      e.consumedKey = some k → ((after env (history ++ later)).event i).get n' = some e' →
      e'.consumedKey = some k → n = n') ∧
    (∀ f k types now event later f' types' now', ¬Reserved k →
      (call env (after env history) (.takeEvent f k types now)).1 = .ok (.event (some event)) →
      f'.runId = f.runId →
      ∀ s σ, σ = after env (history ++ [.takeEvent f k types now] ++ later) →
        checked f' now' env.policy.skewMs σ = .ok (s, σ) →
        call env σ (.takeEvent f' k types' now') = (.ok (.event (some event)), σ)) := by
  have hσ := good_after env history
  -- stays as consumed; consumed by one call; one copy a key; one answer a key
  refine ⟨fun later i n e e' k he hc he' => ?_,
    fun op i n e e' k hop he hp he' hc => step_consumes hσ hop ⟨he, hp⟩ he' hc,
    fun later i n n' e e' k hk he hc he' hc' => ?_,
    fun f k types now event later f' types' now' hk hcall hrun s σ hσ' hchecked => ?_⟩
  · rw [after_append] at he'
    rcases runs_consumed env hσ later he (by simp [hc]) with hsame | ⟨-, -, -, hempty⟩
    · exact Option.some.inj (he'.symm.trans hsame)
    · simp [hempty] at he'
  -- an invariant of the store after all calls (`Taken`)
  · have htaken := taken_after env (history ++ later)
    rcases runs_consumed env hσ later he (by simp [hc]) with hsame | ⟨-, -, -, hempty⟩
    · rw [← after_append] at hsame
      exact htaken.once i n n' e e' k hsame hc he' hc' hk
    · rw [← after_append] at hempty
      simp [hempty] at he'
  -- the taken event is saved under the key, and what is saved there is given back
  · obtain ⟨r, htake, hr⟩ := map_ok.mp (tx_of_call hcall)
    obtain rfl : some event = r := by simpa using hr
    have hsaved := takeEvent_saves hσ htake
    rw [← hrun] at hsaved
    rw [after_append, after_concat] at hσ'
    have hrecord := record_rests (step_good env hσ _) later hk
      (fun r' h => by simpa [checkTransition, eq_comm] using h) (by simp) hsaved hσ' hchecked
    have htx : (Op.takeEvent f' k types' now').tx env σ = .ok (.ok (.event (some event)), σ) :=
      map_ok.mpr ⟨_, takeEvent_again types' hchecked hrecord, rfl⟩
    unfold call
    rw [Tx.commit_ok htx]

/-! ### A listen under the key of an expiry -/

def Fence.plain (id : String) (generation : Nat) : Fence := { runId := id, owner := "o", generation }

/-- An event with an identity and a type. -/
def Json.plainEvent (id type_ : String) : Json :=
  .obj [("id", .str id), ("source", .str "s"), ("type", .str type_)]

/-- Two copies wait in a mailbox. -/
def twoCopies : List Op :=
  [.start (.plain "r") 0 "o", .deliver (.plainEvent "1" "t") (some "r") 1,
    .deliver (.plainEvent "2" "u") (some "r") 2]

/-- A listen takes the first of them under the key that is kept for the expiry of the second. -/
def firstListen : Op := .takeEvent (.plain "r" 1) "mailbox#expired[1]" ["t"] 3

/-- A day later the second copy expires, and another worker resumes the run. -/
def dayLater : List Op :=
  [.release (.plain "r" 1) 4, .sweep (10 + 24 * 3600000) 0,
    .claimAs "r" (11 + 24 * 3600000) { version := none, accepts := [] } "o"]

/-- A listen under the key of an expiry: the copy it took is lost when another copy expires there. -/
theorem reserved_key_overwritten :
    (call .plain (after .plain twoCopies) firstListen).1 =
        .ok (.event (some ((Json.plainEvent "1" "t").entry "time" (.str "1")))) ∧
      ((after .plain (twoCopies ++ [firstListen] ++ dayLater)).run.get "r").any
        (fun s => decide (s.run.fence = some (.plain "r" 2))) = true ∧
      (call .plain (after .plain (twoCopies ++ [firstListen] ++ dayLater))
        (.takeEvent (.plain "r" 2) "mailbox#expired[1]" ["t"] (12 + 24 * 3600000))).1 =
          .error (.message "invalid event checkpoint") := by
  decide +kernel

end Ouro
