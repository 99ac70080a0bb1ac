import Ouro.Durable.Answers

/-!
# Events with an identity

A run stores one copy for each identity it accepts, and keeps it, pending, taken or expired, until its
evidence goes. What a delivery, a publication or an answer does with an identity the run holds
(`Holds`) depends on the payload alone: the same payload changes nothing of that run, another one
fails the whole call. The result is `events_deduplicated`.

An answer is completed before it is compared: it gets the default `specversion` when it has none, so
its payload is that of the event as it is audited (`normalEvent`).
-/

namespace Ouro

open Lib Engine Tx

variable {env : Env} {now : Int} {may : String → Act → Prop}

/-! ### Held identities -/

/-- The run keeps copy `n` of the identity. -/
structure Holds (c : Core) (i id : String) (n : Nat) (e : StoredEvent) : Prop where
  copy : (c.event i).get n = some e
  identity : identityOf e = some id

theorem Mail.holds {c : Core} {s : StoredRun} (h : Mail c s) {id : String} {n : Nat} {e : StoredEvent}
    (hh : Holds c s.id id n e) : (c.eventId s.id).get id = some n :=
  (h.eventId id n).mpr ⟨e, hh.copy, hh.identity⟩

/-- A run holds an identity with one copy. -/
theorem Inv.holds_unique {c : Core} (h : Inv c) {i id : String} {n n' : Nat} {e e' : StoredEvent}
    (hh : Holds c i id n e) (hh' : Holds c i id n' e') : n = n' ∧ e = e' := by
  cases hs : c.run.get i with
  | none =>
    have hcopy := hh.copy
    simp [(h.mails.vacant i hs).event] at hcopy
  | some s =>
    obtain rfl := h.tree.keyed i s hs
    have hmail := h.mails.mail _ s hs
    have hn := (hmail.holds hh).symm.trans (hmail.holds hh')
    obtain rfl := Option.some.inj hn
    exact ⟨rfl, Option.some.inj (hh.copy.symm.trans hh'.copy)⟩

/-- A copy keeps its envelope until the evidence of the ended run goes. -/
theorem Move.envelope {c c' : Core} (h : Move env now may c c') (hinv : Inv c) {i : String} {n : Nat}
    {e : StoredEvent} (he : (c.event i).get n = some e) :
    (∃ e', (c'.event i).get n = some e' ∧ e'.envelope = e.envelope) ∨ Cleared c' i := by
  have hcopy := h.copy hinv i n
  rw [he] at hcopy
  generalize hnew : (c'.event i).get n = o at hcopy
  cases hcopy with
  | same => exact .inl ⟨e, rfl, rfl⟩
  | forgotten _ hs hl hempty =>
    have hpath : Path env now may c c' := .single h
    obtain ⟨s', hs', hended'⟩ := hpath.ended_stored hinv hs hl
    exact .inr ⟨s', hs', hended', hempty⟩
  | expired => exact .inl ⟨_, rfl, rfl⟩
  | taken => exact .inl ⟨_, rfl, rfl⟩
  | offered => exact .inl ⟨_, rfl, rfl⟩

/-- The run keeps a copy of the identity with this payload, or its evidence is gone. -/
def Keeping (c : Core) (i id : String) (event : Option Json) : Prop :=
  Cleared c i ∨ ∃ n e, Holds c i id n e ∧ e.envelope.map payload = event

theorem Move.keeping {c c' : Core} (h : Move env now may c c') (hinv : Inv c) {i id : String}
    {event : Option Json} (hi : Keeping c i id event) : Keeping c' i id event := by
  rcases hi with hcleared | ⟨n, e, hholds, hpayload⟩
  · exact .inl (h.cleared hinv hcleared)
  · rcases h.envelope hinv hholds.copy with ⟨e', he', henv⟩ | hcleared
    · refine .inr ⟨n, e', ⟨he', ?_⟩, by rw [henv]; exact hpayload⟩
      have hident := hholds.identity
      unfold identityOf at hident ⊢
      rwa [henv]
    · exact .inl hcleared

/-! ### Acceptance of a held identity -/

namespace Engine

theorem accept_same {s : StoredRun} {e held : StoredEvent} {id : String} {n : Nat} {σ : Rows}
    (hid : identityOf e = some id) (hn : (σ.eventId s.id).get id = some n)
    (hheld : (σ.event s.id).get n = some held)
    (hpayload : e.envelope.map payload = held.envelope.map payload) :
    accept s e now σ = .ok (none, σ) := by
  simp only [accept, hid, bind_ok, read_ok]
  refine ⟨_, σ, ⟨rfl, rfl⟩, ?_⟩
  simp only [hn, bind_ok, copy_ok, ensure_ok, decide_eq_true_eq, pure_ok]
  exact ⟨held, σ, ⟨hheld, rfl⟩, (), σ, ⟨hpayload, rfl⟩, trivial, rfl⟩

theorem accept_conflict {s : StoredRun} {e held : StoredEvent} {id : String} {n : Nat} {σ : Rows}
    (hid : identityOf e = some id) (hn : (σ.eventId s.id).get id = some n)
    (hheld : (σ.event s.id).get n = some held)
    (hpayload : e.envelope.map payload ≠ held.envelope.map payload) :
    accept s e now σ = .error (.identityConflict (shown id)) := by
  simp only [accept, hid, bind_error, read_ok]
  refine .inr ⟨_, σ, ⟨rfl, rfl⟩, ?_⟩
  simp only [hn, bind_error, copy_ok, ensure_error, decide_eq_false_iff_not]
  exact .inr ⟨held, σ, ⟨hheld, rfl⟩, .inl ⟨hpayload, trivial⟩⟩

/-- An acceptance fails for a conflict or an exhausted counter. -/
theorem accept_error {s : StoredRun} {e : StoredEvent} {σ : Rows} {err : Error} (hmail : Mail σ.toCore s)
    (h : accept s e now σ = .error err) :
    (∃ id, identityOf e = some id ∧ err = .identityConflict (shown id)) ∨ u64Max ≤ s.accepted := by
  -- without an identity to look up, only a used up counter can stop the copy
  have hreceive : receive s e now σ = .error err → u64Max ≤ s.accepted := by
    intro h
    have hsame : (if wanted s e now then wakeBy s now else s).accepted = s.accepted := by
      split <;> rfl
    simp only [receive, push, bind_error, ensure_error, write_error, pure_error, and_false,
      decide_eq_false_iff_not, not_lt, hsame] at h
    simpa using h.imp And.left id
  unfold accept at h
  cases hid : identityOf e with
  | none =>
    simp only [hid, map_error] at h
    exact .inr (hreceive h)
  -- with an identity: a copy that is held is compared, otherwise the event is new
  | some id =>
    simp only [hid, bind_error, read_error, read_ok, false_or] at h
    obtain ⟨found, σ₁, ⟨hfound, rfl⟩, h⟩ := h
    cases found with
    | none =>
      simp only [map_error] at h
      exact .inr (hreceive h)
    | some n =>
      obtain ⟨held, hheld, -⟩ := (hmail.eventId id n).mp hfound.symm
      simp only [bind_error, ensure_error, pure_error, copy_ok] at h
      rcases h with hcopy | ⟨e', σ₂, ⟨-, rfl⟩, ⟨-, rfl⟩ | h⟩
      · -- an identity leads to its copy
        simp [copy, hheld, bind_error, read_error, orFail_error] at hcopy
      · exact .inl ⟨id, rfl, rfl⟩
      · obtain ⟨-, -, -, hfalse⟩ := h
        exact hfalse.elim

/-! ### Deliveries -/

/-- The run a delivery finds, by its target or by its identity and type, is stored. -/
theorem addressee_stored {σ σ' : Rows} (hσ : Good σ) {target : Option String} {id t : String}
    {s : StoredRun} (h : addressee target id t σ = .ok (some s, σ')) :
    σ' = σ ∧ σ.run.get s.id = some s := by
  cases target with
  | some target =>
    simp only [addressee, findRun_ok] at h
    obtain ⟨hs, rfl⟩ := h
    exact ⟨rfl, hσ.get_id hs.symm⟩
  | none =>
    simp only [addressee, recipient, bind_ok, read_ok] at h
    obtain ⟨first, σ₁, ⟨-, rfl⟩, h⟩ := h
    cases first with
    | cons row rest =>
      simp only [map_ok, run_ok] at h
      obtain ⟨s', ⟨hs, rfl⟩, heq⟩ := h
      obtain rfl := Option.some.inj heq
      exact ⟨rfl, hσ.get_id hs⟩
    | nil =>
      simp only [bind_ok, pure_ok] at h
      obtain ⟨runs, σ₂, hruns, hs, rfl⟩ := h
      obtain ⟨rfl, -⟩ := indexedRuns_ok hσ.indexed hruns
      exact ⟨rfl, (mem_indexedRuns hσ.indexed hruns (List.mem_of_mem_head? hs.symm)).1⟩

/-- A delivery of an identity its run holds. -/
theorem deliver_held (env : Env) (now : Int) {σ : Rows} (hσ : Good σ) {event : Json} {target : Option String} {t id : String}
    {s : StoredRun} {n : Nat} {held : StoredEvent} (ht : typeOf event = some t)
    (hid : identity event = some id) (hs : addressee target id t σ = .ok (some s, σ))
    (hheld : Holds σ.toCore s.id id n held) :
    (some (payload event) = held.envelope.map payload →
      deliver env event target now σ = .ok (some s.id, σ)) ∧
    (some (payload event) ≠ held.envelope.map payload →
      deliver env event target now σ = .error (.identityConflict (shown id))) := by
  obtain ⟨-, hstored⟩ := addressee_stored hσ hs
  have hn := (hσ.inv.mails.mail _ _ hstored).holds hheld
  have hident : identityOf (cloudEvent event t now true (some (satAdd now env.policy.mailboxMs))) =
      some id := hid
  -- the held copy has the event's payload, or another one
  refine ⟨fun hsame => ?_, fun hother => ?_⟩
  · simp only [deliver, ht, hid, bind_ok, orFail_ok]
    refine ⟨t, σ, ⟨rfl, rfl⟩, id, σ, ⟨rfl, rfl⟩, some s, σ, hs, ?_⟩
    simp only [bind_ok, read_ok]
    refine ⟨_, σ, ⟨rfl, rfl⟩, ?_⟩
    rw [if_neg (by simp [hn])]
    simp only [bind_ok]
    refine ⟨none, σ, accept_same hident hn hheld.copy hsame, ?_⟩
    simp
  · simp only [deliver, ht, hid, bind_error]
    refine .inr ⟨t, σ, rfl, .inr ⟨id, σ, rfl, .inr ⟨some s, σ, hs, ?_⟩⟩⟩
    simp only [bind_error]
    refine .inr ⟨_, σ, read_ok.mpr ⟨rfl, rfl⟩, ?_⟩
    rw [if_neg (by simp [hn])]
    simp only [bind_error]
    exact .inl (accept_conflict hident hn hheld.copy hother)

end Engine

/-! ### Publications -/

/-- The rows of one run are the same in both. -/
structure SameRun (c c' : Core) (i : String) : Prop where
  run : c'.run.get i = c.run.get i
  record : c'.record i = c.record i
  mail : SameMail c c' i
  delivered : ∀ id, (c'.delivered id).get i = (c.delivered id).get i
  budget : c'.budget.get i = c.budget.get i

theorem SameRun.refl (c : Core) (i : String) : SameRun c c i :=
  ⟨rfl, rfl, .refl c i, fun _ => rfl, rfl⟩

theorem SameRun.trans {c c' c'' : Core} {i : String} (h : SameRun c c' i) (h' : SameRun c' c'' i) :
    SameRun c c'' i where
  run := h'.run.trans h.run
  record := h'.record.trans h.record
  mail := ⟨h'.mail.event.trans h.mail.event, h'.mail.eventId.trans h.mail.eventId,
    h'.mail.eventType.trans h.mail.eventType, fun t => (h'.mail.pending t).trans (h.mail.pending t),
    fun t => (h'.mail.live t).trans (h.mail.live t), h'.mail.published.trans h.mail.published,
    h'.mail.livePublished.trans h.mail.livePublished, h'.mail.expiry.trans h.mail.expiry⟩
  delivered id := (h'.delivered id).trans (h.delivered id)
  budget := h'.budget.trans h.budget

/-- The index rows of a run are those its own row yields. -/
theorem SameRun.index {σ σ' : Rows} {i : String} (h : SameRun σ.toCore σ'.toCore i) (hσ : Indexed σ)
    (hσ' : Indexed σ') {k : IndexKey} {v : IndexValue} (hk : (ofLex k).2.owner = i) :
    σ'.index.get k = some v ↔ σ.index.get k = some v := by
  rw [hσ.get_index_iff, hσ'.get_index_iff, hk, h.run]

theorem SameRun.holds {c c' : Core} {i id : String} {n : Nat} {e : StoredEvent} (h : SameRun c c' i)
    (hh : Holds c i id n e) : Holds c' i id n e :=
  ⟨by rw [h.mail.event]; exact hh.copy, hh.identity⟩

namespace Engine

/-- An acceptance touches the rows of its own run only. -/
theorem accepting_same (c : Core) (s : StoredRun) (e : StoredEvent) {i : String} (h : i ≠ s.id) :
    SameRun c (accepting c s e now) i where
  run := get_accepting_ne c s e h
  record := rfl
  mail := by
    obtain ⟨hevent, heventId, heventType, hpending, hlive, hpublished, hlivePublished, hexpiry⟩ :=
      pushed_same (c := c) (n := s.accepted) (e := e) h
    exact ⟨hevent, heventId, heventType, hpending, hlive, hpublished, hlivePublished, hexpiry⟩
  delivered id := by
    change (((identityOf e).elim c.delivered fun i =>
      if e.delivered then Table.putAt c.delivered i s.id s.id else c.delivered) id).get i = _
    cases identityOf e with
    | none => rfl
    | some j =>
      simp only [Option.elim_some]
      split
      · rw [Table.get_putAt, if_neg fun heq => h heq.2.symm]
      · rfl
  budget := rfl

/-- A publication passes each run over or stores its event there; a run that holds the identity is
passed over. -/
theorem publish_same {target : Option String} {e : StoredEvent} {id i : String} {n : Nat}
    {held : StoredEvent} (he : Acceptable env now e) (hid : identityOf e = some id)
    {l : List StoredRun} {b b' : List String} {σ σ' : Rows} (hσ : Good σ)
    (hnodup : (l.map StoredRun.id).Nodup) (hstored : ∀ s ∈ l, σ.run.get s.id = some s)
    (hheld : Holds σ.toCore i id n held) (h : Tx.fold (publishTo target e now) b l σ = .ok (b', σ')) :
    SameRun σ.toCore σ'.toCore i := by
  -- by induction on the runs that are left; the copies of the run itself never change on the way
  induction l generalizing b σ with
  | nil =>
    obtain ⟨-, rfl⟩ := pure_ok.mp h
    exact .refl _ _
  | cons s l ih =>
    obtain ⟨b₁, σ₁, h₁, h₂⟩ := bind_ok.mp h
    obtain ⟨hs, hnodup⟩ := List.nodup_cons.mp hnodup
    have hget := hstored s List.mem_cons_self
    obtain ⟨hindexed, hcore | ⟨hacc, hcore⟩⟩ := publishTo_cases hσ hget he h₁
    · -- the run was passed over
      have hσ₁ : Good σ₁ := ⟨hindexed, by rw [hcore]; exact hσ.inv⟩
      rw [← hcore] at hheld ⊢
      refine ih hσ₁ hnodup (fun t ht => ?_) hheld h₂
      rw [show σ₁.run = σ.run from congrArg Core.run hcore]
      exact hstored t (List.mem_cons_of_mem _ ht)
    -- the event is stored, so the run did not hold the identity: it is another one
    · have hne : i ≠ s.id := by
        rintro rfl
        have hn := (hσ.inv.mails.mail _ _ hget).holds hheld
        rw [hacc.fresh id hid] at hn
        simp at hn
      have hmove : Move env now (fun _ _ => True) σ.toCore σ₁.toCore := by
        rw [hcore]
        exact hacc.move trivial
      have hσ₁ : Good σ₁ := ⟨hindexed, hσ.inv.path (.single hmove)⟩
      have hsame : SameRun σ.toCore σ₁.toCore i := by
        rw [hcore]
        exact accepting_same _ _ _ hne
      refine hsame.trans (ih hσ₁ hnodup (fun t ht => ?_) (hsame.holds hheld) h₂)
      have hother : t.id ≠ s.id := fun heq => hs (heq ▸ List.mem_map_of_mem ht)
      rw [show σ₁.run = _ from congrArg Core.run hcore, get_accepting_ne _ _ _ hother]
      exact hstored t (List.mem_cons_of_mem _ ht)

/-- A publication that comes to a run which holds its identity with another payload fails. -/
theorem publish_conflict {target : Option String} {e : StoredEvent} {id : String} {n : Nat}
    {held : StoredEvent} (he : Acceptable env now e) (hid : identityOf e = some id)
    {l : List StoredRun} {b : List String} {σ : Rows} (hσ : Good σ)
    (hnodup : (l.map StoredRun.id).Nodup) (hstored : ∀ s ∈ l, σ.run.get s.id = some s)
    {s : StoredRun} (hs : s ∈ l) (hl : s.run.endedMs = none)
    (hfor : (target.isSome || subscribed s e) = true) (hheld : Holds σ.toCore s.id id n held)
    (hpayload : e.envelope.map payload ≠ held.envelope.map payload) :
    ∃ err, Tx.fold (publishTo target e now) b l σ = .error err ∧
      (err = .identityConflict (shown id) ∨ ∃ t ∈ l, u64Max ≤ t.accepted) := by
  -- the pass stops at the run itself, or before it at another run that fails
  induction l generalizing b σ with
  | nil => simp at hs
  | cons t l ih =>
    obtain ⟨ht, hnodup⟩ := List.nodup_cons.mp hnodup
    have hget := hstored t List.mem_cons_self
    cases hpass : publishTo target e now b t σ with
    | error err =>
      refine ⟨err, bind_error.mpr (.inl hpass), ?_⟩
      -- an earlier run that fails does so at its own copy or for want of a number
      unfold publishTo at hpass
      split at hpass
      · rcases bind_error.mp hpass with haccept | ⟨r, σ₁, -, hrest⟩
        · rcases accept_error (hσ.inv.mails.mail _ _ hget) haccept with ⟨i, hi, rfl⟩ | hfull
          · obtain rfl := Option.some.inj (hid.symm.trans hi)
            exact .inl rfl
          · exact .inr ⟨t, List.mem_cons_self, hfull⟩
        · cases r with
          | none => exact (pure_error.mp hrest).elim
          | some s' =>
            rcases bind_error.mp hrest with hstore | ⟨u, σ₂, -, hpure⟩
            · obtain ⟨σ₂, htotal⟩ := storeRun_total s' σ₁
              rw [htotal] at hstore
              simp at hstore
            · exact (pure_error.mp hpure).elim
      · exact (pure_error.mp hpass).elim
    -- an earlier run that passes changes no run but itself
    | ok p =>
      obtain ⟨b₁, σ₁⟩ := p
      obtain ⟨hindexed, hcase⟩ := publishTo_cases hσ hget he hpass
      have hσ₁ : Good σ₁ := by
        rcases hcase with hcore | ⟨hacc, hcore⟩
        · exact ⟨hindexed, by rw [hcore]; exact hσ.inv⟩
        · have hmove : Move env now (fun _ _ => True) σ.toCore σ₁.toCore := by
            rw [hcore]
            exact hacc.move trivial
          exact ⟨hindexed, hσ.inv.path (.single hmove)⟩
      have hsame : ∀ i, i ≠ t.id → SameRun σ.toCore σ₁.toCore i := by
        intro i hi
        rcases hcase with hcore | ⟨-, hcore⟩
        · rw [hcore]
          exact .refl _ _
        · rw [hcore]
          exact accepting_same _ _ _ hi
      rcases List.mem_cons.mp hs with rfl | hmem
      · -- the pass of the run itself cannot succeed
        have hn := (hσ.inv.mails.mail _ _ hget).holds hheld
        unfold publishTo at hpass
        rw [if_pos (by simp only [hl, Option.isNone_none, Bool.true_and]; exact hfor)] at hpass
        obtain ⟨r, σ₂, haccept, -⟩ := bind_ok.mp hpass
        rw [accept_conflict hid hn hheld.copy hpayload] at haccept
        simp at haccept
      · have hne : ∀ t' ∈ l, t'.id ≠ t.id := fun t' ht' heq => ht (heq ▸ List.mem_map_of_mem ht')
        obtain ⟨err, hfold, hcause⟩ := ih (b := b₁) hσ₁ hnodup (fun t' ht' => by
          rw [(hsame t'.id (hne t' ht')).run]
          exact hstored t' (List.mem_cons_of_mem _ ht')) hmem ((hsame s.id (hne s hmem)).holds hheld)
        refine ⟨err, bind_error.mpr (.inr ⟨b₁, σ₁, hpass, hfold⟩), hcause.imp (fun heq => heq) ?_⟩
        rintro ⟨t', ht', hfull⟩
        exact ⟨t', List.mem_cons_of_mem _ ht', hfull⟩

/-- A merge keeps every run of both lists, by its id. -/
private theorem exists_mem_merged {typed wild : List StoredRun} {i : String}
    (h : ∃ s, (s ∈ typed ∨ s ∈ wild) ∧ s.id = i) :
    ∃ s ∈ wild.foldl (fun runs s => if runs.any (·.id == s.id) then runs else runs ++ [s]) typed,
      s.id = i := by
  -- by induction on the second list
  induction wild generalizing typed with
  | nil =>
    obtain ⟨s, hs, hid⟩ := h
    exact ⟨s, by simpa using hs, hid⟩
  | cons t wild ih =>
    obtain ⟨s, hs, hid⟩ := h
    rw [List.foldl_cons]
    refine ih ?_
    -- `t` is in the list afterwards, or another run of its id was there
    split
    · next hany =>
      obtain ⟨t', ht', heq⟩ : ∃ t' ∈ typed, t'.id = t.id := by simpa using hany
      rcases hs with htyped | hwild
      · exact ⟨s, .inl htyped, hid⟩
      · rcases List.mem_cons.mp hwild with rfl | hwild
        · exact ⟨t', .inl ht', heq.trans hid⟩
        · exact ⟨s, .inr hwild, hid⟩
    · rcases hs with htyped | hwild
      · exact ⟨s, .inl (List.mem_append_left _ htyped), hid⟩
      · rcases List.mem_cons.mp hwild with rfl | hwild
        · exact ⟨s, .inl (by simp), hid⟩
        · exact ⟨s, .inr hwild, hid⟩

/-- The runs a publication is for are read, and a run it is for is one of them. -/
theorem audience_total {σ : Rows} (hσ : Good σ) (target : Option String) (t : String) :
    ∃ l, audience target t σ = .ok (l, σ) := by
  cases target with
  | some i => exact ⟨_, map_ok.mpr ⟨_, findRun_ok.mpr ⟨rfl, rfl⟩, rfl⟩⟩
  | none =>
    have hsubs : ∀ t : String, ∃ l, indexedRuns (.subs t) anyId none σ = .ok (l, σ) := fun t =>
      indexedRuns_total _ _ _ hσ.indexed fun s i v h => (mem_entries_subs.mp h).2.2.2
    obtain ⟨typed, htyped⟩ := hsubs t
    obtain ⟨wild, hwild⟩ := hsubs "*"
    simp only [audience, subscribers, bind_ok, pure_ok]
    exact ⟨_, typed, σ, htyped, wild, σ, hwild, rfl, rfl⟩

theorem mem_audience {σ σ' : Rows} (hσ : Good σ) {target : Option String} {t : String}
    {l : List StoredRun} (h : audience target t σ = .ok (l, σ')) {s : StoredRun}
    (hs : σ.run.get s.id = some s) (hl : s.run.endedMs = none)
    (hfor : target = some s.id ∨ target = none ∧ ∃ types ∈ s.subscriptions.values, t ∈ types ∨ "*" ∈ types) :
    s ∈ l := by
  rcases hfor with rfl | ⟨rfl, types, htypes, hmem⟩
  · simp only [audience, map_ok, findRun_ok] at h
    obtain ⟨found, ⟨rfl, -⟩, rfl⟩ := h
    simpa using hs
  · obtain ⟨-, -, hstored⟩ := subscribers_ok hσ h
    simp only [audience, subscribers, bind_ok, pure_ok] at h
    obtain ⟨typed, σ₁, htyped, wild, σ₂, hwild, rfl, rfl⟩ := h
    -- the index lists the run under the name it subscribed to
    have hindexed : ∀ {t : String} {l : List StoredRun} {σ' : Rows},
        indexedRuns (.subs t) anyId none σ = .ok (l, σ') → t ∈ types → s ∈ l := by
      intro t l σ' hread ht
      exact indexedRuns_complete hσ.indexed hread hs rfl
        (mem_entries_subs.mpr ⟨hl, ⟨types, htypes, ht⟩, rfl, rfl⟩)
    obtain ⟨rfl, -⟩ := indexedRuns_ok hσ.indexed htyped
    have hread : s ∈ typed ∨ s ∈ wild := hmem.imp (hindexed htyped) (hindexed hwild)
    obtain ⟨s', hs', hid⟩ := exists_mem_merged ⟨s, hread, rfl⟩
    have hin := (List.perm_insertionSort (fun a b : StoredRun => a.id ≤ b.id) _).mem_iff.mpr hs'
    have hget := hstored s' hin
    rw [hid, hs] at hget
    rwa [Option.some.inj hget]

end Engine

/-! ### Answers -/

/-- The event of an answer as it is audited: without its time and with its version. -/
def normalEvent (event : Json) : Json := (payload event).entry "specversion" (.str "1.0")

namespace Engine

/-- What an answer delivers has the payload it is audited with. -/
theorem responseEvent_payload {event ev : Json} {id : String} {σ σ' : Rows}
    (hid : identity event = some id) (h : responseEvent env event now σ = .ok (ev, σ')) :
    payload ev = normalEvent event := by
  cases event with
  | obj members =>
    simp only [responseEvent, bind_ok, pure_ok] at h
    obtain ⟨time, σ₁, -, rfl, rfl⟩ := h
    unfold payload normalEvent payload
    rw [Json.remove_entry_self, Json.remove_entry (by decide)]
  | _ => simp [identity, Json.text, Json.get?] at hid

/-- An accepted answer leads to a copy with its payload: a new one, or the one the run holds. -/
theorem answerWait_keeps {σ σ' : Rows} (hσ : Good σ) {id key i : String} {event : Json}
    {r : Option String} (hi : identity event = some i)
    (h : answerWait env id key i event now σ = .ok (r, σ')) :
    Keeping σ'.toCore id i (some (normalEvent event)) ∧
      ∀ n held, Holds σ.toCore id i n held → some (normalEvent event) = held.envelope.map payload := by
  -- an answer checks the wait and its event, delivers the event to the run and looks for the copy
  simp only [answerWait, bind_ok, findRun_ok, orFail_ok, ensure_ok, ofExcept_ok, read_ok] at h
  obtain ⟨found, σ₁, ⟨rfl, rfl⟩, s, σ₂, ⟨hs, rfl⟩, w, σ₃, ⟨hw, rfl⟩, u, σ₄, ⟨-, rfl⟩, ev, σ₅,
    hev, m, σ₆, ⟨-, rfl⟩, u', σ₇, ⟨-, rfl⟩, rcpt, σ₈, hdel, acc, σ₉, ⟨rfl, rfl⟩, n, σ₁₀, ⟨hn, rfl⟩,
    h⟩ := h
  have hquiet := responseEvent_quiet _ hev
  have hgood := hquiet.good hσ
  have hident : identity ev = some i := (responseEvent_identity hev).trans hi
  have hpayload := responseEvent_payload hi hev
  obtain ⟨t, ht⟩ : ∃ t, typeOf ev = some t := by
    simp only [deliver, bind_ok, orFail_ok] at hdel
    obtain ⟨t, -, ⟨ht, -⟩, -⟩ := hdel
    exact ⟨t, ht⟩
  have hs₇ : σ₇.run.get id = some s := by
    rw [show σ₇.run = _ from congrArg Core.run hquiet.1]
    exact hs
  obtain rfl := hgood.indexed.keyed id s hs₇
  -- a held copy of another payload fails the delivery
  have hheld : ∀ n held, Holds σ₇.toCore s.id i n held →
      some (normalEvent event) = held.envelope.map payload := by
    intro n held hholds
    rw [← hpayload]
    by_contra hne
    have hto : addressee (some s.id) i t σ₇ = .ok (some s, σ₇) :=
      findRun_ok.mpr ⟨hs₇.symm, rfl⟩
    rw [(deliver_held env now hgood ht hident hto hholds).2 hne] at hdel
    simp at hdel
  refine ⟨?_, fun n held hholds => hheld n held ⟨by rw [hquiet.1]; exact hholds.copy, hholds.identity⟩⟩
  obtain ⟨e, s₁, hreached, hid, hrun, hcopy⟩ := deliver_reached hgood hs₇ ht hident hdel hn
  have hholds := hreached.identity (hgood.inv.mails.mail _ _ hs₇) hident
  -- the copy that the delivery left has the payload that was sent
  have hsame : e.envelope.map payload = some (normalEvent event) := by
    cases hreached with
    | fresh hnone e he =>
      rw [he, ← hpayload]
      rfl
    | held n e hn he => exact (hheld n e ⟨he, hholds⟩).symm
  -- offering the copy to wildcard subscriptions changes its marks only
  split at h
  · simp only [bind_ok, pure_ok] at h
    obtain ⟨u₂, σ₁₁, hoffer, -, rfl⟩ := h
    obtain ⟨e', s', hoffered, -, hcopy'⟩ := offerWildcard_ok hid hrun hcopy hoffer
    refine .inr ⟨n, e', ⟨hcopy', hoffered.identity.trans hholds⟩, ?_⟩
    rw [hoffered.copy]
    split <;> exact hsame
  · obtain ⟨-, rfl⟩ := pure_ok.mp h
    exact .inr ⟨n, e, ⟨hcopy, hholds⟩, hsame⟩

end Engine

/-! ### Entries of answers -/

/-- Every entry of an answer has its event's payload as long as the run keeps the identity. -/
def Responded (σ : Rows) : Prop :=
  ∀ run id entry, (σ.controlResponse run).get id = some entry →
    ∃ wait event, entry.command = .respond run wait event ∧ Keeping σ.toCore run id (some event)

theorem Responded.empty : Responded .empty := fun run id entry h => by simp [Rows.empty] at h

/-- A call adds no entry, or that of the answer it gives. -/
theorem step_response {σ : Rows} (hσ : Good σ) (op : Op) {run id : String} {entry : Entry}
    (h : ((step env σ op).controlResponse run).get id = some entry) :
    (σ.controlResponse run).get id = some entry ∨
      ∃ wait event, entry.command = .respond run wait (normalEvent event) ∧
        Keeping (step env σ op).toCore run id (some (normalEvent event)) := by
  -- only a command of an operator writes an entry
  by_cases hop : ∃ request command now, op = .applyControl request command now
  · obtain ⟨request, command, now, rfl⟩ := hop
    rcases step_cases env σ (.applyControl request command now) with ⟨heq, -⟩ | ⟨r, htx, -⟩
    · rw [heq] at h
      exact .inl h
    generalize step env σ (.applyControl request command now) = σ' at htx h
    obtain ⟨a, happly, -⟩ := map_ok.mp htx
    obtain ⟨-, -, -, -, -, rfl⟩ | ⟨hnew, reply, σ₁, hperform, -, haudit⟩ := applyControl_ok happly
    · exact .inl h
    obtain rfl := write_ok.mp haudit
    -- the entry under the request is another row
    change (σ₁.controlResponse run).get id = some entry at h
    change _ ∨ ∃ wait event, _ ∧ Keeping σ₁.toCore run id (some (normalEvent event))
    have hframe : Unaudited σ σ₁ → (σ.controlResponse run).get id = some entry := fun hsame => by
      rw [← hsame.response]
      exact h
    -- of the commands only an answer does, and under its own identity
    cases command with
    | cancel run => exact .inl (hframe ((cancelRun_catalog run).map hperform))
    | pause name note => exact .inl (hframe ((pause_catalog request name note).map hperform))
    | resume name => exact .inl (hframe ((resume_catalog name).map hperform))
    | hold run note => exact .inl (hframe ((setHold_frame run _).map hperform))
    | release run => exact .inl (hframe ((setHold_frame run none).map hperform))
    | stop enabled => exact .inl (hframe ((stop_catalog enabled).map hperform))
    | respond run' key event =>
      obtain ⟨i, hi, ⟨-, -, -, -, rfl⟩ | ⟨-, recipient, σ₂, hanswer, -, rfl⟩⟩ := respond_ok hperform
      · exact .inl h
      · have hsame : Unaudited σ σ₂ := answerWait_frame run' key i event hanswer
        change (Table.putAt σ₂.controlResponse run' i _ run).get id = _ at h
        rw [Table.get_putAt, hsame.response] at h
        split at h
        · next heq =>
          obtain ⟨rfl, rfl⟩ := heq
          obtain rfl := Option.some.inj h
          exact .inr ⟨key, event, rfl, (answerWait_keeps hσ hi hanswer).1⟩
        · exact .inl h
  · have hsame : Unaudited σ (step env σ op) :=
      step_unaudited (fun request command now heq => hop ⟨request, command, now, heq⟩) σ
    rw [hsame.response] at h
    exact .inl h

theorem Responded.step {σ : Rows} (h : Responded σ) (hσ : Good σ) (op : Op) :
    Responded (Ouro.step env σ op) := by
  intro run id entry hentry
  rcases step_response hσ op hentry with hold | ⟨wait, event, hcommand, hkeeping⟩
  · obtain ⟨wait, event, hcommand, hkeeping⟩ := h run id entry hold
    refine ⟨wait, event, hcommand, ?_⟩
    exact (step_path env hσ op).keep hσ.inv (P := fun c => Keeping c run id (some event))
      (fun _ _ hinv hmove => hmove.keeping hinv) hkeeping
  · exact ⟨wait, _, hcommand, hkeeping⟩

theorem responded_after (env : Env) (history : List Op) : Responded (after env history) :=
  (runs_keep (I := fun σ => Good σ ∧ Responded σ) ⟨.empty, .empty⟩
    (fun _ op h => ⟨step_good env h.1 op, h.2.step h.1 op⟩) history).2

/-- An answer with another payload under an identity the run holds fails, whichever entry it finds. -/
theorem respond_conflict {σ : Rows} (hσ : Good σ) (haudited : Audited σ) (hresponded : Responded σ)
    {run wait id : String} {event : Json} {n : Nat} {held : StoredEvent}
    (hid : identity event = some id) (hholds : Holds σ.toCore run id n held)
    (hpayload : some (normalEvent event) ≠ held.envelope.map payload) (request : Request) (now : Int) :
    ∃ err, call env σ (.applyControl request (.respond run wait event) now) = (.error err, σ) := by
  -- an entry of this answer would have the payload of the copy
  have hentry : ∀ entry, (σ.controlResponse run).get id = some entry →
      entry.command ≠ .respond run wait (normalEvent event) := by
    intro entry hget hcommand
    obtain ⟨wait', event', hcommand', hcleared | ⟨n', e', hholds', hpayload'⟩⟩ :=
      hresponded run id entry hget
    · obtain ⟨s, -, -, hempty⟩ := hcleared
      have hcopy := hholds.copy
      simp [hempty] at hcopy
    · rw [hcommand] at hcommand'
      obtain ⟨-, -, rfl⟩ := Command.respond.inj hcommand'
      rw [← (hσ.inv.holds_unique hholds hholds').2] at hpayload'
      exact hpayload hpayload'.symm
  rcases step_cases env σ (.applyControl request (.respond run wait event) now) with
    ⟨-, err, hcall⟩ | ⟨r, htx, -⟩
  · exact ⟨err, hcall⟩
  -- were the answer accepted, its entry or its copy would have the payload after all
  exfalso
  obtain ⟨a, happly, -⟩ := map_ok.mp htx
  obtain ⟨entry, hget, -, hcommand, -⟩ | ⟨-, reply, σ₁, hperform, -⟩ := applyControl_ok happly
  · obtain ⟨i, first, hi, hfirst, hsame, -⟩ := haudited _ entry run wait _ hget hcommand
    rw [identity_normal, hid] at hi
    obtain rfl := Option.some.inj hi
    exact hentry first hfirst (hsame.trans hcommand)
  · obtain ⟨i, hi, ⟨entry, hget, hcommand, -⟩ | ⟨-, recipient, σ₂, hanswer, -⟩⟩ := respond_ok hperform
    · obtain rfl := Option.some.inj (hid.symm.trans hi)
      exact hentry entry hget hcommand
    · obtain rfl := Option.some.inj (hid.symm.trans hi)
      exact hpayload ((answerWait_keeps hσ hid hanswer).2 n held hholds)

/-! ### The result -/

/-- A publication is for a run: a live target, or a live subscriber of its type or of every type. -/
def PublishedTo (σ : Rows) (event : Json) (target : Option String) (s : StoredRun) : Prop :=
  σ.run.get s.id = some s ∧ s.run.endedMs = none ∧ ∃ t, typeOf event = some t ∧
    (target = some s.id ∨
      target = none ∧ ∃ types ∈ s.subscriptions.values, t ∈ types ∨ "*" ∈ types)

/-- A delivery is for a run: its target, or the recipient of an untargeted one. -/
def DeliveredTo (σ : Rows) (event : Json) (target : Option String) (s : StoredRun) : Prop :=
  ∃ t id, typeOf event = some t ∧ identity event = some id ∧
    addressee target id t σ = .ok (some s, σ)

theorem publish_held (env : Env) {σ : Rows} (hσ : Good σ) {event : Json} {target : Option String} {s : StoredRun}
    {id : String} {n : Nat} {held : StoredEvent} (hto : PublishedTo σ event target s)
    (hid : identity event = some id) (hholds : Holds σ.toCore s.id id n held) (now : Int) :
    (some (payload event) = held.envelope.map payload →
      SameRun σ.toCore (step env σ (.publish event target now)).toCore s.id) ∧
    (some (payload event) ≠ held.envelope.map payload →
      ∃ err, call env σ (.publish event target now) = (.error err, σ) ∧
        (err = .identityConflict (shown id) ∨ ∃ j t, σ.run.get j = some t ∧ u64Max ≤ t.accepted)) := by
  obtain ⟨hs, hl, t, ht, hfor⟩ := hto
  obtain ⟨l, haud⟩ := audience_total hσ target t
  obtain ⟨-, hnodup, hstored, -⟩ := audience_ok hσ haud
  have hacc : Acceptable env now (cloudEvent event t now false
      (target.map fun _ => satAdd now env.policy.mailboxMs)) :=
    cloudEvent_acceptable env event t now false (by cases target <;> simp)
  -- equal payload: the publication passes the run over
  refine ⟨fun _ => ?_, fun hpayload => ?_⟩
  · rcases step_cases env σ (.publish event target now) with ⟨heq, -⟩ | ⟨r, htx, -⟩
    · rw [heq]
      exact .refl _ _
    · obtain ⟨ids, hpublish, -⟩ := map_ok.mp htx
      simp only [publish, bind_ok, orFail_ok] at hpublish
      obtain ⟨t', σ₁, ⟨ht', rfl⟩, l', σ₂, haud', hfold⟩ := hpublish
      obtain rfl := Option.some.inj (ht.symm.trans ht')
      rw [haud] at haud'
      obtain ⟨rfl, rfl⟩ := Prod.mk.inj (Except.ok.inj haud')
      exact publish_same hacc hid hσ hnodup hstored hholds hfold
  -- another payload: the publication reaches the run and fails there, if it has not failed before
  · have hsub : (target.isSome || subscribed s (cloudEvent event t now false
        (target.map fun _ => satAdd now env.policy.mailboxMs))) = true := by
      rcases hfor with rfl | ⟨rfl, types, htypes, hmem⟩
      · rfl
      · simp only [subscribed, Option.isSome_none, Bool.false_or, Bool.and_eq_true, List.any_eq_true,
          Bool.or_eq_true, List.contains_iff_mem]
        exact ⟨rfl, types, htypes, hmem.imp (fun h => h) fun h => ⟨rfl, h⟩⟩
    obtain ⟨err, hfold, hcause⟩ := publish_conflict (b := []) hacc hid hσ hnodup hstored
      (mem_audience hσ haud hs hl hfor) hl hsub hholds hpayload
    refine ⟨err, ?_, hcause.imp (fun h => h) fun ⟨t', ht', hfull⟩ => ⟨t'.id, t', hstored t' ht', hfull⟩⟩
    have hpublish : publish env event target now σ = .error err := by
      simp only [publish, bind_error]
      exact .inr ⟨t, σ, orFail_ok.mpr ⟨ht, rfl⟩, .inr ⟨l, σ, haud, hfold⟩⟩
    exact call_of_error (map_error.mpr hpublish)

/-- Events are deduplicated. A run holds at most one copy of an identity, and keeps it with its envelope
until it is swept. A delivery or publication of an identity that the run holds changes nothing of the run
when the payload is the same; with another payload it fails, for the conflict itself unless a publication
has met a run without a copy number left. And an operator's answer whose identity the run holds with
another payload is refused. -/
theorem events_deduplicated (env : Env) (history : List Op) :
    (∀ i id n n' e e', Holds (after env history).toCore i id n e →
      Holds (after env history).toCore i id n' e' → n = n') ∧
    (∀ later i id n e, Holds (after env history).toCore i id n e →
      (∃ e', Holds (after env (history ++ later)).toCore i id n e' ∧ e'.envelope = e.envelope) ∨
        Cleared (after env (history ++ later)).toCore i) ∧
    (∀ event target now s id n held, DeliveredTo (after env history) event target s →
      identity event = some id → Holds (after env history).toCore s.id id n held →
      call env (after env history) (.deliver event target now) =
        if some (payload event) = held.envelope.map payload then
          (.ok (.recipient (some s.id)), after env history)
        else (.error (.identityConflict (shown id)), after env history)) ∧
    (∀ event target now s id n held, PublishedTo (after env history) event target s →
      identity event = some id → Holds (after env history).toCore s.id id n held →
      (some (payload event) = held.envelope.map payload →
        SameRun (after env history).toCore
            (step env (after env history) (.publish event target now)).toCore s.id ∧
          ∀ k v, (ofLex k).2.owner = s.id →
            ((step env (after env history) (.publish event target now)).index.get k = some v ↔
              (after env history).index.get k = some v)) ∧
      (some (payload event) ≠ held.envelope.map payload →
        (∃ err, call env (after env history) (.publish event target now) =
          (.error err, after env history)) ∧
        ((∀ j t, (after env history).run.get j = some t → t.accepted < u64Max) →
          call env (after env history) (.publish event target now) =
            (.error (.identityConflict (shown id)), after env history)))) ∧
    ∀ request run wait event now id n held, identity event = some id →
      Holds (after env history).toCore run id n held →
      some (normalEvent event) ≠ held.envelope.map payload →
      ∃ err, call env (after env history) (.applyControl request (.respond run wait event) now) =
        (.error err, after env history) := by
  have hσ := good_after env history
  -- one copy by `holds_unique`; the copy stays, by induction over the later calls; the rest is one call each
  refine ⟨fun i id n n' e e' hh hh' => (hσ.inv.holds_unique hh hh').1, fun later i id n e hh => ?_,
    fun event target now s id n held hto hid hh => ?_,
    fun event target now s id n held hto hid hh => ⟨fun hsame => ?_, fun hother => ⟨?_, fun hroom => ?_⟩⟩,
    fun request run wait event now id n held hid hh hne => ?_⟩
  -- a copy keeps its envelope through every move, until a sweep clears the whole run
  · rw [after_append]
    refine (runs_core (P := fun c => (∃ e', Holds c i id n e' ∧ e'.envelope = e.envelope) ∨ Cleared c i)
      ?_ hσ (.inl ⟨e, hh, rfl⟩) later)
    rintro now may c c' hinv hmove (⟨e', hh', henv⟩ | hcleared)
    · rcases hmove.envelope hinv hh'.copy with ⟨e'', he'', henv'⟩ | hcleared
      · refine .inl ⟨e'', ⟨he'', ?_⟩, henv'.trans henv⟩
        unfold identityOf
        rw [henv']
        exact hh'.identity
      · exact .inr hcleared
    · exact .inr (hmove.cleared hinv hcleared)
  · obtain ⟨t, id', ht, hid', hs⟩ := hto
    obtain rfl := Option.some.inj (hid.symm.trans hid')
    obtain ⟨hsame, hother⟩ := deliver_held env now hσ ht hid hs hh
    split
    · next heq =>
      unfold call
      rw [commit_ok (show (Op.deliver event target now).tx env (after env history) =
        .ok (.ok (.recipient (some s.id)), after env history) from map_ok.mpr ⟨_, hsame heq, rfl⟩)]
    · next hne =>
      unfold call
      rw [commit_error (show (Op.deliver event target now).tx env (after env history) =
        .error (.identityConflict (shown id)) from map_error.mpr (hother hne))]
  · have hrows := (publish_held env hσ hto hid hh now).1 hsame
    exact ⟨hrows, fun k v hk => hrows.index hσ.indexed (step_good env hσ _).indexed hk⟩
  · obtain ⟨err, hcall, -⟩ := (publish_held env hσ hto hid hh now).2 hother
    exact ⟨err, hcall⟩
  · obtain ⟨err, hcall, rfl | ⟨j, t, ht, hfull⟩⟩ := (publish_held env hσ hto hid hh now).2 hother
    · exact hcall
    · exact absurd (hroom j t ht) (not_lt.mpr hfull)
  · exact respond_conflict hσ (audited_after env history) (responded_after env history) hid hh hne
      request now

/-- The run holds the event with its version. -/
def versionedHeld : List Op := waitingForType ++ [.deliver .versioned (some "r") 2]

/-- The run holds the event with a `specversion`, and an answer without one is accepted: the payload that
differs only by the default is compared after the default is filled in. -/
theorem unversioned_answer_accepted :
    (∃ held, Holds (after .plain versionedHeld).toCore "r" "s\x001" 0 held ∧
      some (payload (.plainEvent "1" "t")) ≠ held.envelope.map payload) ∧
    identity (.plainEvent "1" "t") = some "s\x001" ∧
    (call .plain (after .plain versionedHeld) (.applyControl { id := "c", actor := "a", reason := "b" }
      (.respond "r" "k" (.plainEvent "1" "t")) 5)).1 =
        .ok (.applied { reply := .responded (some "r"), repeated := false }) := by
  refine ⟨?_, by decide +kernel, by decide +kernel⟩
  have hcopy : (((after .plain versionedHeld).event "r").get 0).any (fun held =>
      decide (identityOf held = some "s\x001") &&
        decide (some (payload (.plainEvent "1" "t")) ≠ held.envelope.map payload)) = true := by
    decide +kernel
  obtain ⟨held, hget, hheld⟩ := (Option.any_eq_true _ _).mp hcopy
  simp only [Bool.and_eq_true, decide_eq_true_eq] at hheld
  exact ⟨held, ⟨hget, hheld.1⟩, hheld.2⟩

end Ouro
