import Ouro.Durable.Dedup

/-!
# The recipients of an untargeted event

Deliveries and publications find their recipients in the run index. Here the same recipients are
described by a search of all runs: the runs that compete for a delivery (`Competes`), and those a
publication is for and that do not hold its identity yet (`Receives`). `routing_exact` says that in
every reachable store the two agree.
-/

namespace Ouro

open Lib Engine Tx

variable {env : Env} {now : Int}

/-! ### Deliveries -/

/-- The run competes for an untargeted delivery of the type: it is live and not held, awaits the type
from `at_` on, keeps no unconsumed copy of it, and its registration is not the internal one for a
child's notices. -/
structure Competes (c : Core) (t : String) (at_ : Int) (i : String) : Prop where
  stored : ∃ s, c.run.get i = some s ∧ s.run.endedMs = none ∧ s.run.held = none ∧
    s.awaits.get t = some at_ ∧
    ∀ child, t = "waiting:" ++ child → s.listeners.contains ("child:" ++ child) = true →
      t ∈ s.addressedWaits
  clear : ∀ n e, (c.event i).get n = some e → e.consumedKey = none → e.type_ ≠ t

/-- The registration comes first among the competing ones, by its instant and then by the run's id. -/
def First (c : Core) (t : String) (at_ : Int) (i : String) : Prop :=
  Competes c t at_ i ∧ ∀ at' j, Competes c t at' j → at_ < at' ∨ at_ = at' ∧ i ≤ j

theorem internal_iff {s : StoredRun} {t : String} :
    internal s t = true ↔ ∃ child, t = "waiting:" ++ child ∧
      s.listeners.contains ("child:" ++ child) = true := by
  unfold internal
  rw [Option.any_eq_true]
  constructor
  · rintro ⟨child, hstrip, hlistens⟩
    exact ⟨child, stripPrefix_eq_some hstrip, hlistens⟩
  · rintro ⟨child, rfl, hlistens⟩
    exact ⟨child, stripPrefix_append _ _, hlistens⟩

/-- The registrations that the index offers are those that compete. -/
theorem eligible_iff {c : Core} (hinv : Inv c) {t : String} {at_ : Int} {i : String} :
    Eligible c t at_ i ↔ Competes c t at_ i := by
  -- nothing pending of the type: no unconsumed copy of it
  have hpending : ∀ s, c.run.get i = some s → (s.pending.contains t = false ↔
      ∀ n e, (c.event i).get n = some e → e.consumedKey = none → e.type_ ≠ t) := by
    intro s hs
    obtain rfl := hinv.tree.keyed i s hs
    rw [← Bool.not_eq_true, (hinv.mails.mail _ s hs).contains_pending]
    constructor
    · intro hno n e he hc ht
      exact hno ⟨n, e, ⟨he, hc⟩, ht⟩
    · rintro hclear ⟨n, e, hp, ht⟩
      exact hclear n e hp.1 hp.2 ht
  -- an internal type is open to the waits it is addressed to
  have hopen : ∀ s : StoredRun, (!internal s t || decide (t ∈ s.addressedWaits)) = true ↔
      ∀ child, t = "waiting:" ++ child → s.listeners.contains ("child:" ++ child) = true →
        t ∈ s.addressedWaits := by
    intro s
    rw [Bool.or_eq_true, Bool.not_eq_true', ← Bool.not_eq_true, internal_iff, decide_eq_true_eq]
    constructor
    · rintro (hno | hmem) child heq hlistens
      · exact absurd ⟨child, heq, hlistens⟩ hno
      · exact hmem
    · intro h
      by_cases hint : ∃ child, t = "waiting:" ++ child ∧ s.listeners.contains ("child:" ++ child) = true
      · obtain ⟨child, heq, hlistens⟩ := hint
        exact .inr (h child heq hlistens)
      · exact .inl hint
  constructor
  -- the rows offered by the index satisfy what the search asks for
  · rintro ⟨s, hs, hlive, hoffered⟩
    unfold offered at hoffered
    split at hoffered
    · simp at hoffered
    · next hheld =>
      simp only [List.mem_filter, Table.mem_rows, Bool.and_eq_true, Bool.not_eq_true'] at hoffered
      obtain ⟨hawaits, hclear, hint⟩ := hoffered
      exact ⟨⟨s, hs, hlive, by simpa using hheld, hawaits, (hopen s).mp hint⟩, (hpending s hs).mp hclear⟩
  -- and a run found by the search has its row
  · rintro ⟨⟨s, hs, hlive, hheld, hawaits, hint⟩, hclear⟩
    refine ⟨s, hs, hlive, ?_⟩
    unfold offered
    rw [if_neg (by simp [hheld])]
    simp only [List.mem_filter, Table.mem_rows, Bool.and_eq_true, Bool.not_eq_true']
    exact ⟨hawaits, (hpending s hs).mpr hclear, (hopen s).mpr hint⟩

theorem oldest_iff {c : Core} (hinv : Inv c) {t : String} {at_ : Int} {i : String} :
    Oldest c t at_ i ↔ First c t at_ i := by
  unfold Oldest First
  simp only [eligible_iff hinv]

/-! ### Publications -/

/-- A publication of the type is for the run: it is live and a subscription of it lists the type or
every type. -/
def Subscribes (c : Core) (t i : String) : Prop :=
  ∃ s, c.run.get i = some s ∧ s.run.endedMs = none ∧
    ∃ types ∈ s.subscriptions.values, t ∈ types ∨ "*" ∈ types

/-- The run keeps a copy of the event's identity. -/
def Keeper (c : Core) (event : Json) (i : String) : Prop :=
  ∃ id n e, identity event = some id ∧ Holds c i id n e

/-- The run receives the publication. -/
def Receives (c : Core) (event : Json) (t i : String) : Prop :=
  Subscribes c t i ∧ ¬Keeper c event i

/-- The publication is refused at the run: a subscriber keeps its identity with another payload, or one
that receives it has no number left for its copy. -/
def Refuses (c : Core) (event : Json) (t i : String) : Prop :=
  Subscribes c t i ∧
    ((∃ id n e, identity event = some id ∧ Holds c i id n e ∧
        some (payload event) ≠ e.envelope.map payload) ∨
      ¬Keeper c event i ∧ ∃ s, c.run.get i = some s ∧ u64Max ≤ s.accepted)

section Rows

variable {c c' : Core} {event : Json} {t i : String}

/-- Who receives a publication is a matter of the run's own row and copies. -/
theorem keeper_congr (hevent : c'.event i = c.event i) : Keeper c' event i ↔ Keeper c event i := by
  constructor
  · rintro ⟨id, n, e, hid, hcopy, hident⟩
    exact ⟨id, n, e, hid, hevent ▸ hcopy, hident⟩
  · rintro ⟨id, n, e, hid, hcopy, hident⟩
    exact ⟨id, n, e, hid, hevent.symm ▸ hcopy, hident⟩

theorem subscribes_congr (hrun : c'.run.get i = c.run.get i) : Subscribes c' t i ↔ Subscribes c t i := by
  unfold Subscribes
  rw [hrun]

theorem Refuses.congr (hrun : c'.run.get i = c.run.get i) (hevent : c'.event i = c.event i)
    (h : Refuses c' event t i) : Refuses c event t i := by
  obtain ⟨hsub, hcase⟩ := h
  refine ⟨(subscribes_congr hrun).mp hsub, ?_⟩
  rcases hcase with ⟨id, n, e, hid, ⟨hcopy, hident⟩, hpayload⟩ | ⟨hnot, s, hs, hfull⟩
  · exact .inl ⟨id, n, e, hid, ⟨hevent ▸ hcopy, hident⟩, hpayload⟩
  · exact .inr ⟨fun hkeeper => hnot ((keeper_congr hevent).mpr hkeeper), s, hrun ▸ hs, hfull⟩

end Rows

/-- An event as a publication stores it. -/
def publication (event : Json) (t : String) (now : Int) : StoredEvent :=
  cloudEvent event t now false none

theorem subscribed_publication {s : StoredRun} {event : Json} {t : String} :
    subscribed s (publication event t now) = true ↔
      ∃ types ∈ s.subscriptions.values, t ∈ types ∨ "*" ∈ types := by
  simp only [subscribed, publication, cloudEvent, published, Option.isSome_some, Bool.true_and,
    Bool.not_false, List.any_eq_true, Bool.or_eq_true, List.contains_iff_mem]

/-- A run that does not keep the identity has no row for it. -/
theorem Inv.fresh_of_not_keeper {c : Core} (h : Inv c) {s : StoredRun} (hs : c.run.get s.id = some s)
    {event : Json} (hnot : ¬Keeper c event s.id) {id : String} (hid : identity event = some id) :
    (c.eventId s.id).get id = none := by
  rw [Option.eq_none_iff_forall_ne_some]
  intro n hn
  obtain ⟨e, he, hident⟩ := ((h.mails.mail _ _ hs).eventId id n).mp hn
  exact hnot ⟨id, n, e, hid, he, hident⟩

namespace Engine

section Pass

variable {σ : Rows} {s : StoredRun} {event : Json} {t : String} {b : List String}

theorem publishTo_open (hs : σ.run.get s.id = some s) (hsub : Subscribes σ.toCore t s.id) :
    (s.run.endedMs.isNone &&
      ((none : Option String).isSome || subscribed s (publication event t now))) = true := by
  obtain ⟨s', hs', hlive, htypes⟩ := hsub
  obtain rfl := Option.some.inj (hs.symm.trans hs')
  rw [hlive, subscribed_publication.mpr htypes]
  rfl

/-- A run that receives the publication. -/
theorem publishTo_receives (env : Env) (now : Int) (hσ : Good σ) (hs : σ.run.get s.id = some s)
    (hsub : Subscribes σ.toCore t s.id) (hnot : ¬Keeper σ.toCore event s.id)
    (hroom : s.accepted < u64Max) :
    ∃ σ', publishTo none (publication event t now) now b s σ = .ok (b ++ [s.id], σ') ∧ Good σ' ∧
      σ'.toCore = accepting σ.toCore s (publication event t now) now := by
  have hlive : s.run.endedMs = none := by
    obtain ⟨s', hs', hlive, -⟩ := hsub
    rwa [Option.some.inj (hs.symm.trans hs')]
  have haccept : accept s (publication event t now) now σ = _ :=
    accept_new (fun id hid => hσ.inv.fresh_of_not_keeper hs hnot hid) hroom
  obtain ⟨σ', hstore⟩ := storeRun_total
    (counted (if wanted s (publication event t now) now then wakeBy s now else s) (publication event t now))
    { σ with toCore := pushed σ.toCore s.id s.accepted (publication event t now) }
  have hpass : publishTo none (publication event t now) now b s σ = .ok (b ++ [s.id], σ') := by
    unfold publishTo
    rw [if_pos (publishTo_open hs hsub), bind_ok]
    refine ⟨_, _, haccept, ?_⟩
    simp only [bind_ok, pure_ok]
    exact ⟨(), σ', hstore, trivial, rfl⟩
  obtain ⟨hindexed, haccepts, hcore⟩ := accept_store hσ hs hlive
    (cloudEvent_acceptable env event t now false (.inl rfl)) haccept hstore
  have hmove : Move env now (fun _ _ => True) σ.toCore σ'.toCore := by
    rw [hcore]
    exact haccepts.move trivial
  exact ⟨σ', hpass, ⟨hindexed, hσ.inv.path (.single hmove)⟩, hcore⟩

/-- A run that keeps the identity with the same payload is passed over. -/
theorem publishTo_keeper (hσ : Good σ) (hs : σ.run.get s.id = some s)
    (hsub : Subscribes σ.toCore t s.id) (hkeeper : Keeper σ.toCore event s.id)
    (hno : ¬Refuses σ.toCore event t s.id) :
    publishTo none (publication event t now) now b s σ = .ok (b, σ) := by
  obtain ⟨id, n, e, hid, hholds⟩ := hkeeper
  have hpayload : (publication event t now).envelope.map payload = e.envelope.map payload := by
    by_contra hne
    exact hno ⟨hsub, .inl ⟨id, n, e, hid, hholds, hne⟩⟩
  have haccept : accept s (publication event t now) now σ = .ok (none, σ) :=
    accept_same hid ((hσ.inv.mails.mail _ _ hs).holds hholds) hholds.copy hpayload
  unfold publishTo
  rw [if_pos (publishTo_open hs hsub), bind_ok]
  exact ⟨none, σ, haccept, rfl⟩

/-- A run at which the publication is refused. -/
theorem publishTo_refuses (hσ : Good σ) (hs : σ.run.get s.id = some s)
    (h : Refuses σ.toCore event t s.id) :
    ∃ err, publishTo none (publication event t now) now b s σ = .error err := by
  obtain ⟨hsub, hcase⟩ := h
  unfold publishTo
  rw [if_pos (publishTo_open hs hsub)]
  rcases hcase with ⟨id, n, e, hid, hholds, hpayload⟩ | ⟨hnot, s', hs', hfull⟩
  · refine ⟨_, bind_error.mpr (.inl (accept_conflict hid ?_ hholds.copy hpayload))⟩
    exact (hσ.inv.mails.mail _ _ hs).holds hholds
  · obtain rfl := Option.some.inj (hs.symm.trans hs')
    cases haccept : accept s (publication event t now) now σ with
    | error err => exact ⟨err, bind_error.mpr (.inl haccept)⟩
    | ok p =>
      obtain ⟨r, σ'⟩ := p
      obtain ⟨-, -, id, n, hid, hn⟩ | ⟨hlt, -⟩ := accept_ok haccept
      · rw [hσ.inv.fresh_of_not_keeper hs hnot hid] at hn
        simp at hn
      · omega

end Pass

/-- What a publication stores: one copy in each receiver, under its next number. -/
structure Spread (c c' : Core) (e : StoredEvent) (receivers : List String) : Prop where
  copy : ∀ i ∈ receivers, ∀ s, c.run.get i = some s → c'.event i = (c.event i).put s.accepted e
  other : ∀ i, i ∉ receivers → c'.event i = c.event i

/-- The rows and copies of the other runs after an acceptance. -/
theorem accepting_other (c : Core) (s : StoredRun) (e : StoredEvent) (now : Int) {i : String}
    (h : i ≠ s.id) :
    (accepting c s e now).run.get i = c.run.get i ∧ (accepting c s e now).event i = c.event i :=
  ⟨(accepting_same c s e h).run, (accepting_same c s e h).mail.event⟩

/-- A publication that is refused nowhere reaches, in order, the subscribers that do not keep it. -/
theorem publish_fold (env : Env) (event : Json) (now : Int) {t : String} {l : List StoredRun} {b : List String}
    {σ : Rows} (hσ : Good σ) (hnodup : (l.map StoredRun.id).Nodup)
    (hstored : ∀ s ∈ l, σ.run.get s.id = some s) (hsubs : ∀ s ∈ l, Subscribes σ.toCore t s.id)
    (hno : ∀ s ∈ l, ¬Refuses σ.toCore event t s.id) :
    ∃ b' σ', Tx.fold (publishTo none (publication event t now) now) b l σ = .ok (b ++ b', σ') ∧
      b'.Sublist (l.map StoredRun.id) ∧
      (∀ i, i ∈ b' ↔ i ∈ l.map StoredRun.id ∧ ¬Keeper σ.toCore event i) ∧
      Spread σ.toCore σ'.toCore (publication event t now) b' := by
  -- along the audience; `b` are those that received before
  induction l generalizing b σ with
  | nil => exact ⟨[], σ, by simp [Tx.fold, pure_ok], .slnil, by simp, by simp, fun i _ => rfl⟩
  | cons s l ih =>
    obtain ⟨hnew, hnodup⟩ := List.nodup_cons.mp hnodup
    have hs := hstored s List.mem_cons_self
    have hsub := hsubs s List.mem_cons_self
    have hne : ∀ t ∈ l, t.id ≠ s.id := fun t ht heq => hnew (heq ▸ List.mem_map_of_mem ht)
    by_cases hkeeper : Keeper σ.toCore event s.id
    · -- the run is passed over
      obtain ⟨b', σ', hfold, hsublist, hmem, hspread⟩ := ih (b := b) hσ hnodup
        (fun t ht => hstored t (List.mem_cons_of_mem _ ht))
        (fun t ht => hsubs t (List.mem_cons_of_mem _ ht)) fun t ht => hno t (List.mem_cons_of_mem _ ht)
      refine ⟨b', σ', bind_ok.mpr ⟨b, σ, ?_, hfold⟩, hsublist.cons _, fun i => ?_, hspread⟩
      · exact publishTo_keeper hσ hs hsub hkeeper (hno s List.mem_cons_self)
      · rw [hmem, List.map_cons, List.mem_cons]
        constructor
        · rintro ⟨hi, hnot⟩
          exact ⟨.inr hi, hnot⟩
        · rintro ⟨rfl | hi, hnot⟩
          · exact absurd hkeeper hnot
          · exact ⟨hi, hnot⟩
    -- the run receives: it is not refused, so it has room
    · have hroom : s.accepted < u64Max := by
        by_contra hfull
        exact hno s List.mem_cons_self ⟨hsub, .inr ⟨hkeeper, s, hs, not_lt.mp hfull⟩⟩
      obtain ⟨σ₁, hpass, hσ₁, hcore⟩ := publishTo_receives (b := b) env now hσ hs hsub hkeeper hroom
      -- the runs that follow are as they were
      have hother : ∀ i, i ≠ s.id → σ₁.run.get i = σ.run.get i ∧ σ₁.event i = σ.event i := by
        intro i hi
        have := accepting_other σ.toCore s (publication event t now) now hi
        rwa [← hcore] at this
      obtain ⟨b', σ', hfold, hsublist, hmem, hspread⟩ := ih (b := b ++ [s.id]) hσ₁ hnodup
        (fun t ht => by
          rw [(hother t.id (hne t ht)).1]
          exact hstored t (List.mem_cons_of_mem _ ht))
        (fun t ht => (subscribes_congr (hother t.id (hne t ht)).1).mpr
          (hsubs t (List.mem_cons_of_mem _ ht)))
        fun t ht h => hno t (List.mem_cons_of_mem _ ht)
          (h.congr (hother t.id (hne t ht)).1 (hother t.id (hne t ht)).2)
      -- it is one run, and appears once
      have hsnot : s.id ∉ b' := fun h => hnew (hsublist.subset h)
      refine ⟨s.id :: b', σ', bind_ok.mpr ⟨_, σ₁, hpass, ?_⟩, hsublist.cons_cons _, fun i => ?_, ?_, ?_⟩
      · rw [hfold, List.append_assoc]
        rfl
      · rw [List.mem_cons, List.map_cons, List.mem_cons, hmem]
        by_cases hi : i = s.id
        · subst hi
          simp [hkeeper]
        · rw [keeper_congr (hother i hi).2]
          simp [hi]
      -- the copy of the first run was pushed now; those of the others come from the rest
      · intro i hi r hr
        rcases List.mem_cons.mp hi with rfl | hi
        · obtain rfl := Option.some.inj (hs.symm.trans hr)
          rw [hspread.other _ hsnot, hcore, event_accepting]
          exact Function.update_self ..
        · have hine : i ≠ s.id := fun heq => hsnot (heq ▸ hi)
          rw [hspread.copy i hi r (by rw [(hother i hine).1]; exact hr), (hother i hine).2]
      · intro i hi
        obtain ⟨hine, hi⟩ := not_or.mp (fun h => hi (List.mem_cons.mpr h))
        rw [hspread.other i hi, (hother i hine).2]

/-- A publication that is refused at one run fails. -/
theorem publish_refused (env : Env) (now : Int) {event : Json} {t : String} {l : List StoredRun} {b : List String}
    {σ : Rows} (hσ : Good σ) (hnodup : (l.map StoredRun.id).Nodup)
    (hstored : ∀ s ∈ l, σ.run.get s.id = some s) {s : StoredRun} (hs : s ∈ l)
    (hrefuses : Refuses σ.toCore event t s.id) :
    ∃ err, Tx.fold (publishTo none (publication event t now) now) b l σ = .error err := by
  -- along the audience, up to the run that refuses
  induction l generalizing b σ with
  | nil => simp at hs
  | cons r l ih =>
    obtain ⟨hnew, hnodup⟩ := List.nodup_cons.mp hnodup
    have hr := hstored r List.mem_cons_self
    rcases List.mem_cons.mp hs with rfl | hs
    · obtain ⟨err, hpass⟩ := publishTo_refuses (b := b) hσ hr hrefuses
      exact ⟨err, bind_error.mpr (.inl hpass)⟩
    -- a run before it may refuse as well, and otherwise the pass went through
    · cases hpass : publishTo none (publication event t now) now b r σ with
      | error err => exact ⟨err, bind_error.mpr (.inl hpass)⟩
      | ok p =>
        obtain ⟨b₁, σ₁⟩ := p
        have hacc := cloudEvent_acceptable env event t now false (.inl rfl)
        obtain ⟨hindexed, hcase⟩ := publishTo_cases hσ hr hacc hpass
        -- whatever the pass did, the runs that follow are as they were
        have hother : ∀ i, i ≠ r.id → σ₁.run.get i = σ.run.get i ∧ σ₁.event i = σ.event i := by
          intro i hi
          rcases hcase with hcore | ⟨-, hcore⟩
          · rw [hcore]
            exact ⟨rfl, rfl⟩
          · rw [hcore]
            exact accepting_other σ.toCore r (publication event t now) now hi
        have hσ₁ : Good σ₁ := by
          refine ⟨hindexed, ?_⟩
          rcases hcase with hcore | ⟨hacc, hcore⟩
          · rw [hcore]
            exact hσ.inv
          · have hmove : Move env now (fun _ _ => True) σ.toCore σ₁.toCore := by
              rw [hcore]
              exact hacc.move trivial
            exact hσ.inv.path (.single hmove)
        have hne : ∀ t ∈ l, t.id ≠ r.id := fun t ht heq => hnew (heq ▸ List.mem_map_of_mem ht)
        have hsame := hother s.id (hne s hs)
        obtain ⟨err, hfold⟩ := ih (b := b₁) hσ₁ hnodup
          (fun t ht => by
            rw [(hother t.id (hne t ht)).1]
            exact hstored t (List.mem_cons_of_mem _ ht))
          hs (hrefuses.congr hsame.1.symm hsame.2.symm)
        exact ⟨err, bind_error.mpr (.inr ⟨b₁, σ₁, hpass, hfold⟩)⟩

end Engine

/-! ### The result -/

/-- A run without a number left for another copy refuses it. -/
theorem Engine.accept_full {σ : Rows} {s : StoredRun} {e : StoredEvent}
    (hfree : ∀ id, identityOf e = some id → (σ.eventId s.id).get id = none)
    (hfull : u64Max ≤ s.accepted) :
    accept s e now σ = .error (.message "event sequence overflow") := by
  have hreceive : receive s e now σ = .error (.message "event sequence overflow") := by
    have hsame : (if wanted s e now then wakeBy s now else s).accepted = s.accepted := by
      split <;> rfl
    simp only [receive, push, bind_error, ensure_error, decide_eq_false_iff_not, not_lt, hsame]
    exact .inl ⟨hfull, trivial⟩
  unfold accept
  cases hid : identityOf e with
  | none => exact map_error.mpr hreceive
  | some id =>
    simp only [bind_error, read_ok]
    refine .inr ⟨_, σ, ⟨rfl, rfl⟩, ?_⟩
    simp only [hfree id hid]
    exact map_error.mpr hreceive

/-- The delivery goes to the first run that competes for it, which stores one copy of it (or has no
number left for one), or to none if there is none. -/
def DeliveredFirst (env : Env) (σ : Rows) (event : Json) (t : String) (now : Int) : Prop :=
  ((∀ at_ i, ¬Competes σ.toCore t at_ i) ∧
    call env σ (.deliver event none now) = (.ok (.recipient none), σ)) ∨
  ∃ at_ i s, First σ.toCore t at_ i ∧ σ.run.get i = some s ∧
    if s.accepted < u64Max then
      (call env σ (.deliver event none now)).1 = .ok (.recipient (some i)) ∧
        Spread σ.toCore (step env σ (.deliver event none now)).toCore
          (cloudEvent event t now true (some (satAdd now env.policy.mailboxMs))) [i]
    else call env σ (.deliver event none now) = (.error (.message "event sequence overflow"), σ)

/-- The publication is refused at some run and changes nothing, or stores one copy in each run that
receives it and returns them in the order of their ids. -/
def PublishedAll (env : Env) (σ : Rows) (event : Json) (t : String) (now : Int) : Prop :=
  ((∃ i, Refuses σ.toCore event t i) ∧ ∃ err, call env σ (.publish event none now) = (.error err, σ)) ∨
  (∀ i, ¬Refuses σ.toCore event t i) ∧
    ∃ receivers, (call env σ (.publish event none now)).1 = .ok (.ids receivers) ∧
      receivers.Pairwise (· < ·) ∧ (∀ i, i ∈ receivers ↔ Receives σ.toCore event t i) ∧
      Spread σ.toCore (step env σ (.publish event none now)).toCore (publication event t now) receivers

theorem deliver_routed (env : Env) {σ : Rows} (hσ : Good σ) {event : Json} {t id : String}
    (ht : typeOf event = some t) (hid : identity event = some id)
    (hkept : ∀ i n e, ¬Holds σ.toCore i id n e) (hrow : ∀ i, (σ.delivered id).get i = none) (now : Int) :
    DeliveredFirst env σ event t now := by
  obtain ⟨hnone, hsome⟩ := deliver_new env hσ ht hid hrow now
  -- nobody is eligible, or the oldest registration
  rcases recipient_new hσ t hrow with ⟨-, hempty⟩ | ⟨s, at_, hrecipient, hs, hold⟩
  · refine .inl ⟨fun at_ i h => hempty at_ i ((eligible_iff hσ.inv).mpr h), hnone hempty⟩
  · refine .inr ⟨at_, s.id, s, (oldest_iff hσ.inv).mp hold, hs, ?_⟩
    -- it holds no copy of the event, by the premise
    have hfresh : (σ.eventId s.id).get id = none := by
      refine hσ.inv.fresh_of_not_keeper hs ?_ hid
      rintro ⟨id', n, e, hid', hholds⟩
      rw [← Option.some.inj (hid.symm.trans hid')] at hholds
      exact hkept s.id n e hholds
    have hlive : s.run.endedMs = none := by
      obtain ⟨s', hs', hlive, -⟩ := hold.1
      rwa [Option.some.inj (hs.symm.trans hs')]
    split
    -- with room, the copy is pushed on this run alone
    · next hroom =>
      obtain ⟨hcall, hcore⟩ := hsome at_ s.id s hold hs hfresh hroom
      refine ⟨hcall, ?_⟩
      rw [hcore]
      refine ⟨fun i hi r hr => ?_, fun i hi => ?_⟩
      · obtain rfl := List.mem_singleton.mp hi
        rw [← Option.some.inj (hs.symm.trans hr), event_accepting]
        exact Function.update_self ..
      · exact (accepting_other σ.toCore s _ now (by simpa using hi)).2
    -- without room the delivery fails with its cause
    · next hfull =>
      have haccept : accept s (cloudEvent event t now true (some (satAdd now env.policy.mailboxMs))) now σ =
          .error (.message "event sequence overflow") :=
        accept_full (fun id' hid' => by rwa [← Option.some.inj (hid.symm.trans hid')]) (not_lt.mp hfull)
      refine call_of_error (map_error.mpr ?_)
      simp only [deliver, bind_error]
      refine .inr ⟨t, σ, orFail_ok.mpr ⟨ht, rfl⟩, .inr ⟨id, σ, orFail_ok.mpr ⟨hid, rfl⟩,
        .inr ⟨some s, σ, hrecipient, ?_⟩⟩⟩
      simp only [bind_error, read_ok]
      refine .inr ⟨_, σ, ⟨rfl, rfl⟩, ?_⟩
      rw [if_neg (by simp [hlive])]
      exact bind_error.mpr (.inl haccept)

theorem publish_routed (env : Env) {σ : Rows} (hσ : Good σ) {event : Json} {t : String}
    (ht : typeOf event = some t) (now : Int) : PublishedAll env σ event t now := by
  obtain ⟨l, haud⟩ := audience_total hσ none t
  obtain ⟨-, hnodup, hstored, -⟩ := audience_ok hσ haud
  obtain ⟨hsorted, hsound⟩ := subscribers_sound hσ haud
  -- the audience is found by the index: the live subscribers, in order
  have hsubs : ∀ i, i ∈ l.map StoredRun.id ↔ Subscribes σ.toCore t i := by
    intro i
    rw [List.mem_map]
    constructor
    · rintro ⟨s, hs, rfl⟩
      obtain ⟨hlive, htypes⟩ := hsound s hs
      exact ⟨s, hstored s hs, hlive, htypes⟩
    · rintro ⟨s, hs, hlive, htypes⟩
      obtain rfl := hσ.indexed.keyed i s hs
      exact ⟨s, mem_audience hσ haud hs hlive (.inr ⟨rfl, htypes⟩), rfl⟩
  -- one refusal fails the publication; otherwise everyone in order receives it
  by_cases hrefused : ∃ i, Refuses σ.toCore event t i
  · obtain ⟨i, hi⟩ := hrefused
    refine .inl ⟨⟨i, hi⟩, ?_⟩
    obtain ⟨s, hs, rfl⟩ := List.mem_map.mp ((hsubs i).mpr hi.1)
    obtain ⟨err, hfold⟩ := publish_refused (b := []) env now hσ hnodup hstored hs hi
    refine ⟨err, call_of_error (map_error.mpr ?_)⟩
    simp only [publish, bind_error]
    exact .inr ⟨t, σ, orFail_ok.mpr ⟨ht, rfl⟩, .inr ⟨l, σ, haud, hfold⟩⟩
  · refine .inr ⟨fun i hi => hrefused ⟨i, hi⟩, ?_⟩
    obtain ⟨receivers, σ', hfold, hsublist, hmem, hspread⟩ :=
      publish_fold (b := []) env event now hσ hnodup hstored
      (fun s hs => (hsubs s.id).mp (List.mem_map_of_mem hs)) fun s _ hs => hrefused ⟨s.id, hs⟩
    have hcall : call env σ (.publish event none now) = (.ok (.ids receivers), σ') := by
      refine call_of_tx (map_ok.mpr ⟨receivers, ?_, rfl⟩)
      simp only [publish, bind_ok]
      exact ⟨t, σ, orFail_ok.mpr ⟨ht, rfl⟩, l, σ, haud, hfold⟩
    rw [step, hcall]
    refine ⟨receivers, rfl, ?_, fun i => ?_, hspread⟩
    -- in order and once each
    · have hincreasing := (hsorted.sublist hsublist).and (hnodup.sublist hsublist)
      exact hincreasing.imp fun h => lt_of_le_of_ne h.1 h.2
    · rw [hmem, hsubs]
      rfl

/-- Events reach whom a search of all runs finds. An untargeted delivery that leads back to nobody goes to
the first of the runs that compete for its type, by the times of their registrations, or fails on that
run's full counter, or reaches nobody when none competes. A publication reaches, in order and once, the
subscribers of its type that do not hold its identity, or fails when one of them must refuse it. -/
theorem routing_exact (env : Env) (history : List Op) (event : Json) (t : String)
    (ht : typeOf event = some t) (now : Int) :
    (∀ id, identity event = some id → (∀ i n e, ¬Holds (after env history).toCore i id n e) →
      (∀ i, ((after env history).delivered id).get i = none) →
      DeliveredFirst env (after env history) event t now) ∧
    PublishedAll env (after env history) event t now :=
  ⟨fun _ hid hkept hrow => deliver_routed env (good_after env history) ht hid hkept hrow now,
    publish_routed env (good_after env history) ht now⟩

/-- A run receives an event that another subscribes to later. -/
def subscribedLater : List Op :=
  [.start (.plain "a") 0 "o", .start (.plain "b") 0 "o", .subscribe (.plain "a" 1) "k" ["t"] 1,
    .publish (.plainEvent "1" "t") none 2, .subscribe (.plain "b" 1) "k" ["*"] 3]

/-- Both then wait for the same type, `b` since the earlier instant. -/
def awaitedTwice : List Op :=
  subscribedLater ++ [.registerWait (.plain "b" 1) ["u"] 4, .registerWait (.plain "a" 1) ["u"] 5]

/-- No run holds the identity that is then delivered. -/
theorem awaitedTwice_unheld (i : String) (n : Nat) (e : StoredEvent) :
    ¬Holds (after .plain awaitedTwice).toCore i "s\x002" n e := by
  rintro ⟨hcopy, hident⟩
  have hkeys : (after .plain awaitedTwice).run.keys = ["a", "b"] := by decide +kernel
  have hother : ∀ j ∈ ["a", "b"], ∀ row ∈ ((after .plain awaitedTwice).event j).rows,
      identityOf row.2 ≠ some "s\x002" := by decide +kernel
  cases hrow : (after .plain awaitedTwice).run.get i with
  | none =>
    -- no run, no copies
    have hempty := ((good_after .plain awaitedTwice).inv.mails.vacant i hrow).1
    rw [hempty] at hcopy
    exact absurd hcopy (by simp)
  | some s =>
    have hkey : i ∈ (after .plain awaitedTwice).run.keys := (Table.mem_keys _).mpr ⟨s, hrow⟩
    rw [hkeys] at hkey
    exact hother i hkey _ ((Table.mem_rows _).mpr hcopy) hident

theorem awaitedTwice_competes : Competes (after .plain awaitedTwice).toCore "u" 5 "a" := by
  have hrow : ((after .plain awaitedTwice).run.get "a").any (fun s =>
      s.run.endedMs.isNone && s.run.held.isNone && decide (s.awaits.get "u" = some 5)) = true := by
    decide +kernel
  have hclear : ∀ row ∈ ((after .plain awaitedTwice).event "a").rows, row.2.type_ ≠ "u" := by decide +kernel
  obtain ⟨s, hs, h⟩ := (Option.any_eq_true _ _).mp hrow
  simp only [Bool.and_eq_true, Option.isNone_iff_eq_none, decide_eq_true_eq] at h
  refine ⟨⟨s, hs, h.1.1, h.1.2, h.2, fun child hchild => ?_⟩, fun n e he _ => ?_⟩
  · exact absurd (congrArg (·.toList.head?) hchild) (by simp)
  · exact hclear _ ((Table.mem_rows _).mpr he)

/-- Of the two runs that compete for a delivery the one that waits longer gets it, and a publication
reaches the later subscriber. -/
theorem later_subscriber_receives :
    ((call .plain (after .plain awaitedTwice) (.deliver (.plainEvent "2" "u") none 6)).1 =
        .ok (.recipient (some "b")) ∧
      Competes (after .plain awaitedTwice).toCore "u" 5 "a" ∧
      ∃ at_, First (after .plain awaitedTwice).toCore "u" at_ "b") ∧
    ∃ receivers,
      (call .plain (after .plain awaitedTwice) (.publish (.plainEvent "1" "t") none 6)).1 =
        .ok (.ids receivers) ∧
      "b" ∈ receivers ∧
      ∀ i, i ∈ receivers ↔ Receives (after .plain awaitedTwice).toCore (.plainEvent "1" "t") "t" i := by
  constructor
  -- the delivery goes to the run that waits longer
  · have hcall : (call .plain (after .plain awaitedTwice) (.deliver (.plainEvent "2" "u") none 6)).1 =
        .ok (.recipient (some "b")) := by decide +kernel
    have hnew : ((after .plain awaitedTwice).delivered "s\x002").rows = [] := by decide +kernel
    have hfirst := (routing_exact .plain awaitedTwice (.plainEvent "2" "u") "u" (by decide +kernel) 6).1
      "s\x002" (by decide +kernel) awaitedTwice_unheld (fun i => by
        cases hget : ((after .plain awaitedTwice).delivered "s\x002").get i with
        | none => rfl
        | some u =>
          have hmem := (Table.mem_rows _).mpr hget
          rw [hnew] at hmem
          exact absurd hmem (by simp))
    refine ⟨hcall, awaitedTwice_competes, ?_⟩
    rcases hfirst with ⟨-, hnone⟩ | ⟨at_, i, s, hfirst, -, hsome⟩
    · rw [hnone] at hcall
      simp at hcall
    · split at hsome
      · rw [hsome.1] at hcall
        obtain rfl : i = "b" := by simpa using hcall
        exact ⟨at_, hfirst⟩
      · rw [hsome] at hcall
        simp at hcall
  -- and the publication to its subscriber, who is the only receiver
  · have hcall : (call .plain (after .plain awaitedTwice) (.publish (.plainEvent "1" "t") none 6)).1 =
        .ok (.ids ["b"]) := by decide +kernel
    rcases (routing_exact .plain awaitedTwice (.plainEvent "1" "t") "t" (by decide +kernel) 6).2 with
      ⟨-, err, herr⟩ | ⟨-, receivers, hok, -, hmem, -⟩
    · rw [herr] at hcall
      simp at hcall
    · rw [hok] at hcall
      obtain rfl : receivers = ["b"] := by simpa using hcall
      exact ⟨["b"], hok, List.mem_cons_self, hmem⟩

/-- The identity again with another payload: the run that does not hold it gets no copy either. -/
theorem conflict_reaches_nobody :
    Receives (after .plain subscribedLater).toCore ((Json.plainEvent "1" "t").entry "data" .null) "t" "b" ∧
      call .plain (after .plain subscribedLater)
          (.publish ((Json.plainEvent "1" "t").entry "data" .null) none 4) =
        (.error (.identityConflict "s/1"), after .plain subscribedLater) := by
  have hrow : ((after .plain subscribedLater).run.get "b").any (fun s =>
      s.run.endedMs.isNone && s.subscriptions.values.contains ["*"]) = true := by decide +kernel
  have hcopies : ((after .plain subscribedLater).event "b").rows = [] := by decide +kernel
  refine ⟨⟨?_, ?_⟩, ?_⟩
  · obtain ⟨s, hs, h⟩ := (Option.any_eq_true _ _).mp hrow
    rw [Bool.and_eq_true, Option.isNone_iff_eq_none, List.contains_iff_mem] at h
    exact ⟨s, hs, h.1, ["*"], h.2, .inr List.mem_cons_self⟩
  · rintro ⟨id, n, e, -, hcopy, -⟩
    have hmem := (Table.mem_rows _).mpr hcopy
    rw [hcopies] at hmem
    simp at hmem
  · have hcall : (call .plain (after .plain subscribedLater)
        (.publish ((Json.plainEvent "1" "t").entry "data" .null) none 4)).1 =
          .error (.identityConflict "s/1") := by decide +kernel
    rcases step_cases .plain (after .plain subscribedLater)
        (.publish ((Json.plainEvent "1" "t").entry "data" .null) none 4) with ⟨-, err, herr⟩ | ⟨r, htx, hr⟩
    · rw [herr] at hcall ⊢
      rw [show err = _ from Except.error.inj hcall]
    · rw [hr] at hcall
      obtain rfl : r = .error (.identityConflict "s/1") := hcall
      obtain ⟨ids, -, hids⟩ := map_ok.mp htx
      simp at hids

end Ouro
