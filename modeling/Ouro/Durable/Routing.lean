import Ouro.Durable.Copies

/-!
# Where an untargeted delivery goes

The registrations that compete for an untargeted delivery are rows of the run index. A delivery whose
identity has no recipient yet goes to the oldest of them (`recipient_new`), which accepts it unless it
holds the identity already (`deliver_new`).
-/

namespace Ouro

open Lib Engine Tx

variable {env : Env} {now : Int}

/-- The run is registered for the type from `at_` on, and open for another copy of it. -/
def Eligible (c : Core) (t : String) (at_ : Int) (i : String) : Prop :=
  ∃ s, c.run.get i = some s ∧ s.run.endedMs = none ∧ (t, at_) ∈ offered s

/-- The registration is the oldest eligible one, in the order of instants and then of ids. -/
def Oldest (c : Core) (t : String) (at_ : Int) (i : String) : Prop :=
  Eligible c t at_ i ∧ ∀ at' j, Eligible c t at' j → at_ < at' ∨ at_ = at' ∧ i ≤ j

theorem Indexed.get_wait {σ : Rows} (hσ : Indexed σ) {t : String} {k : IndexId} {v : IndexValue} :
    σ.index.get (indexKey (.wait t) k) = some v ↔
      ∃ at_ i, k = .timed at_ i ∧ v = .run i ∧ Eligible σ.toCore t at_ i := by
  rw [hσ.get_index_iff]
  constructor
  · rintro ⟨s, hs, hentry⟩
    obtain ⟨hlive, at_, hoffered, rfl, rfl⟩ := mem_entries_wait.mp hentry
    exact ⟨at_, s.id, rfl, rfl, s, hs, hlive, hoffered⟩
  · rintro ⟨at_, i, rfl, rfl, s, hs, hlive, hoffered⟩
    obtain rfl := hσ.keyed i s hs
    exact ⟨s, hs, mem_entries_wait.mpr ⟨hlive, at_, hoffered, rfl, rfl⟩⟩

theorem Oldest.unique {c : Core} {t : String} {a b : Int} {i j : String} (h : Oldest c t a i)
    (h' : Oldest c t b j) : i = j := by
  rcases h.2 b j h'.1 with hlt | ⟨heq, hle⟩
  · rcases h'.2 a i h.1 with hlt' | ⟨heq', -⟩
    · exact absurd hlt (lt_asymm hlt')
    · exact absurd hlt (heq' ▸ lt_irrefl _)
  · rcases h'.2 a i h.1 with hlt' | ⟨-, hle'⟩
    · exact absurd hlt' (heq ▸ lt_irrefl _)
    · exact le_antisymm hle hle'

namespace Engine

/-- An identity without a recipient goes to the oldest eligible registration, if there is one. -/
theorem recipient_new {σ : Rows} (hσ : Good σ) {id : String} (t : String)
    (hrow : ∀ i, (σ.delivered id).get i = none) :
    (recipient id t σ = .ok (none, σ) ∧ ∀ at_ i, ¬Eligible σ.toCore t at_ i) ∨
      ∃ s at_, recipient id t σ = .ok (some s, σ) ∧ σ.run.get s.id = some s ∧
        Oldest σ.toCore t at_ s.id := by
  -- no routing row: the scan of the identity finds nothing
  have hempty : (σ.delivered id).scan Table.all (some 1) = [] := by
    rcases (σ.delivered id).scan_one Table.all with ⟨hnil, -⟩ | ⟨k, v, -, hget, -⟩
    · exact hnil
    · simp [hrow] at hget
  -- so the registrations of the type decide, of which the first is read
  obtain ⟨l, hl⟩ := indexedRuns_total (.wait t) anyId (some 1) hσ.indexed
    fun s i v hentry => by
      obtain ⟨-, at_, -, -, hv⟩ := mem_entries_wait.mp hentry
      exact hv
  have hrecipient : recipient id t σ = .ok (l.head?, σ) := by
    simp only [recipient, bind_ok, read_ok]
    refine ⟨_, σ, ⟨rfl, rfl⟩, ?_⟩
    simp only [hempty, bind_ok, pure_ok]
    exact ⟨l, σ, hl, rfl, rfl⟩
  obtain ⟨-, hall⟩ := indexedRuns_ok hσ.indexed hl
  -- rows of this kind are the eligible registrations
  have hget : ∀ {k v}, σ.index.get k = some v → (ofLex k).1 = .wait t →
      ∃ at_ i, (ofLex k).2 = .timed at_ i ∧ v = .run i ∧ Eligible σ.toCore t at_ i := by
    intro k v hk hkind
    refine hσ.indexed.get_wait.mp ?_
    rw [← hkind]
    exact hk
  unfold scanIndex at hall
  rcases σ.index.scan_one (fun k => decide ((ofLex k).1 = .wait t) && anyId (ofLex k).2) with
    ⟨hnil, hnone⟩ | ⟨k, v, hone, hk, hrange, hleast⟩
  -- there is none
  · rw [hnil] at hall
    cases hall
    refine .inl ⟨hrecipient, fun at_ i heligible => ?_⟩
    have := hnone _ _ (hσ.indexed.get_wait.mpr ⟨at_, i, rfl, rfl, heligible⟩)
    simp [indexKey, anyId] at this
  · rw [hone] at hall
    obtain ⟨s, l', ⟨hs, hv, -⟩, hnil, rfl⟩ := List.forall₂_cons_left_iff.mp hall
    simp only [Bool.and_eq_true, decide_eq_true_eq] at hrange
    obtain ⟨at_, i, hki, rfl, heligible⟩ := hget hk hrange.1
    obtain rfl : i = s.id := by simpa using hv
    refine .inr ⟨s, at_, hrecipient, hs, heligible, fun at' j hj => ?_⟩
    -- the first row of the range is the least
    have hle := hleast _ _ (hσ.indexed.get_wait.mpr ⟨at', j, rfl, rfl, hj⟩)
      (by simp [indexKey, anyId])
    rcases Prod.Lex.le_iff.mp hle with hlt | ⟨-, hle⟩
    · rw [hrange.1] at hlt
      exact absurd hlt (lt_irrefl _)
    · rw [hki] at hle
      exact IndexId.timed_le_iff.mp hle

/-- A run that does not hold the identity takes the event in. -/
theorem accept_new {σ : Rows} {s : StoredRun} {e : StoredEvent}
    (hfree : ∀ id, identityOf e = some id → (σ.eventId s.id).get id = none)
    (hroom : s.accepted < u64Max) :
    accept s e now σ = .ok (some (counted (if wanted s e now then wakeBy s now else s) e),
      { σ with toCore := pushed σ.toCore s.id s.accepted e }) := by
  have hpush : ∀ s' : StoredRun, SameCounters s s' → push s' e σ =
      .ok (counted s' e, { σ with toCore := pushed σ.toCore s.id s.accepted e }) := by
    intro s' hsame
    simp only [push, bind_ok, ensure_ok, write_ok, pure_ok, decide_eq_true_eq]
    exact ⟨(), σ, ⟨by rw [hsame.accepted]; exact hroom, rfl⟩, (), _, rfl, trivial,
      by rw [hsame.accepted, hsame.id]; rfl⟩
  have hreceive : receive s e now σ = .ok (counted (if wanted s e now then wakeBy s now else s) e,
      { σ with toCore := pushed σ.toCore s.id s.accepted e }) := by
    refine hpush _ ?_
    split
    · exact ⟨rfl, rfl, rfl, rfl, rfl⟩
    · exact .refl s
  unfold accept
  cases hid : identityOf e with
  | none => exact map_ok.mpr ⟨_, hreceive, rfl⟩
  | some id =>
    simp only [bind_ok, read_ok]
    refine ⟨_, σ, ⟨rfl, rfl⟩, ?_⟩
    simp only [hfree id hid, map_ok]
    exact ⟨_, hreceive, rfl⟩

/-- An untargeted delivery to a live run that does not hold the identity is accepted there. -/
theorem deliver_to (env : Env) {σ : Rows} (now : Int) {event : Json} {t id : String} {s : StoredRun}
    (ht : typeOf event = some t) (hid : identity event = some id)
    (hrecipient : recipient id t σ = .ok (some s, σ)) (hlive : s.run.endedMs = none)
    (hfresh : (σ.eventId s.id).get id = none) (hroom : s.accepted < u64Max) :
    ∃ σ', deliver env event none now σ = .ok (some s.id, σ') ∧
      σ'.toCore = accepting σ.toCore s
        (cloudEvent event t now true (some (satAdd now env.policy.mailboxMs))) now := by
  generalize he : cloudEvent event t now true (some (satAdd now env.policy.mailboxMs)) = e
  have haccept : accept s e now σ = _ :=
    accept_new (fun j hj => by
      rw [← he] at hj
      rw [← Option.some.inj (hid.symm.trans hj)]
      exact hfresh) hroom
  -- the copy is put, and the run is stored with its counts
  obtain ⟨σ', hstore⟩ := storeRun_total
    (counted (if wanted s e now then wakeBy s now else s) e)
    { σ with toCore := pushed σ.toCore s.id s.accepted e }
  refine ⟨σ', ?_, storeRun_core hstore⟩
  simp only [deliver, ht, hid, bind_ok, orFail_ok]
  refine ⟨t, σ, ⟨rfl, rfl⟩, id, σ, ⟨rfl, rfl⟩, some s, σ, hrecipient, ?_⟩
  simp only [bind_ok, read_ok]
  refine ⟨_, σ, ⟨rfl, rfl⟩, ?_⟩
  rw [if_neg (by simp [hlive])]
  simp only [bind_ok, he]
  refine ⟨_, _, haccept, ?_⟩
  simp only [bind_ok, pure_ok]
  exact ⟨(), σ', hstore, trivial, rfl⟩

/-- The copies after an acceptance. -/
theorem event_accepting (c : Core) (s : StoredRun) (e : StoredEvent) (now : Int) :
    (accepting c s e now).event = Table.putAt c.event s.id s.accepted e := rfl

/-- An untargeted delivery of an identity without a recipient is routed by the registrations alone. -/
theorem deliver_new (env : Env) {σ : Rows} (hσ : Good σ) {event : Json} {t id : String}
    (ht : typeOf event = some t) (hid : identity event = some id)
    (hrow : ∀ i, (σ.delivered id).get i = none) (now : Int) :
    ((∀ at_ i, ¬Eligible σ.toCore t at_ i) →
      call env σ (.deliver event none now) = (.ok (.recipient none), σ)) ∧
    ∀ at_ i s, Oldest σ.toCore t at_ i → σ.run.get i = some s → (σ.eventId i).get id = none →
      s.accepted < u64Max →
      (call env σ (.deliver event none now)).1 = .ok (.recipient (some i)) ∧
      (step env σ (.deliver event none now)).toCore = accepting σ.toCore s
        (cloudEvent event t now true (some (satAdd now env.policy.mailboxMs))) now := by
  have hcall : ∀ {r σ'}, deliver env event none now σ = .ok (r, σ') →
      call env σ (.deliver event none now) = (.ok (.recipient r), σ') := fun h =>
    call_of_tx (map_ok.mpr ⟨_, h, rfl⟩)
  -- no run is eligible, or the oldest one is the recipient
  rcases recipient_new hσ t hrow with ⟨hrecipient, hnone⟩ | ⟨s, at_, hrecipient, hs, hold⟩
  · refine ⟨fun _ => hcall ?_, fun at_ i s hold => absurd hold.1 (hnone at_ i)⟩
    simp only [deliver, ht, hid, bind_ok, orFail_ok]
    exact ⟨t, σ, ⟨rfl, rfl⟩, id, σ, ⟨rfl, rfl⟩, none, σ, hrecipient, rfl⟩
  · refine ⟨fun hnone => absurd hold.1 (hnone at_ s.id), ?_⟩
    intro at' i s' hold' hs' hfresh hroom
    obtain rfl := hold.unique hold'
    obtain rfl := Option.some.inj (hs.symm.trans hs')
    have hlive : s.run.endedMs = none := by
      obtain ⟨s', hs', hlive, -⟩ := hold.1
      rwa [Option.some.inj (hs.symm.trans hs')]
    obtain ⟨σ', hdeliver, hcore⟩ := deliver_to env now ht hid hrecipient hlive hfresh hroom
    rw [step, hcall hdeliver]
    exact ⟨rfl, hcore⟩

end Engine

end Ouro
