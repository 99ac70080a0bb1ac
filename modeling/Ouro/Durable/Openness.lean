import Ouro.Durable.Recipients
import Ouro.Durable.Wake

/-!
# Listens that stay open

A listen registers the types it waits for, then polls, and is left a listener when nothing is there.
The registrations of a run are shared by its listens and closed by each of them on its own: a listen
that ends closes its types, those apart that another listener names. A listen that has registered and
not polled yet is no listener, so its registration may be closed under it; it then polls, is left a
listener, and no delivery finds it (`polled_unregistered`).

`open_listens_routable` says that nothing else is wrong: in every history in which each listen that
polls in vain finds its types registered still (`Standing`), the types of an open listen are
registered, and an untargeted delivery that no other run competes for earlier goes to its run. What a
step keeps of a registration is said once for each kind of change (`EarStep`), for the types a
listener names (`EarStep.listening`) and for those that only were registered (`EarStep.attends`).
-/

namespace Ouro

open Lib Engine Tx

variable {env : Env} {now : Int} {may : String → Act → Prop}

/-! ### Registrations by listens -/

/-- The run is registered for the type, by a listen. -/
def Attends (s : StoredRun) (t : String) : Prop := s.awaits.contains t = true ∧ t ∈ s.addressedWaits

/-- The listener `k` of the run is left with `types`. -/
def Listening (s : StoredRun) (k : String) (types : List String) : Prop :=
  s.listeners.get k = some types ∧ startsWith k "child:" = false

theorem SameEars.attends {s s' : StoredRun} (h : SameEars s s') {t : String} :
    Attends s' t ↔ Attends s t := by
  unfold Attends
  rw [h.awaits, h.addressed]

theorem SameEars.listening {s s' : StoredRun} (h : SameEars s s') {k : String} {types : List String} :
    Listening s' k types ↔ Listening s k types := by
  unfold Listening
  rw [h.listeners]

theorem attends_registered {s : StoredRun} {types : List String} {t : String} :
    Attends (registered s types now) t ↔ Attends s t ∨ t ∈ types := by
  unfold Attends
  rw [registered_awaits, mem_registered_addressedWaits]
  by_cases ht : t ∈ types <;> simp [ht]

theorem attends_close {s : StoredRun} {types : List String} {t : String} :
    Attends (close s types) t ↔ Attends s t ∧ (t ∈ types → named s t = true) := by
  unfold Attends
  rw [mem_close_addressedWaits, Table.contains_iff, Table.contains_iff, close_awaits]
  by_cases hclosed : t ∈ types ∧ named s t = false
  · rw [if_pos hclosed]
    simp [hclosed.1, hclosed.2]
  · rw [if_neg hclosed]
    have hnamed : t ∈ types → named s t = true := fun ht => by
      by_contra hnot
      exact hclosed ⟨ht, by simpa using hnot⟩
    rw [← Table.contains_iff]
    exact ⟨fun h => ⟨⟨h.1, h.2.1⟩, hnamed⟩, fun h => ⟨h.1.1, h.1.2, hclosed⟩⟩

theorem Listening.named {s : StoredRun} {k t : String} {types : List String} (h : Listening s k types)
    (ht : t ∈ types) : named s t = true :=
  named_iff.mpr ⟨k, types, h.1, ht⟩

/-- Words under which the listen `k` of run `i` neither polls nor ends. -/
def Silent (may : String → Act → Prop) (i k : String) : Prop :=
  ∀ types, ¬may i (.unregister k types) ∧ ¬may i (.listen k types) ∧ ¬may i (.take k types)

/-- What is closed at the end of a listen or of a child's notices: `s₀` is the row without the
listeners that end. -/
inductive Closer (may : String → Act → Prop) (s : StoredRun) : StoredRun → List String → Prop
  | unregister (k : String) (types : List String) (hmay : may s.id (.unregister k types)) :
      Closer may s { s with listeners := s.listeners.delete k } types
  | take (k : String) (types : List String) (e : StoredEvent) (hmay : may s.id (.take k types)) :
      Closer may s
        { joined s e.type_ with
          listeners := (joined s e.type_).listeners.delete k
          waits := (joined s e.type_).waits.retain fun _ w => decide (w.position ≠ k) } types
  | settle (child : String) (hmay : may child .finish ∨ may child .report) :
      Closer may s s ["waiting:" ++ child]

/-- What a change does to the registrations of a run: it ends the run, only adds to them, or closes
some. -/
inductive Hears (may : String → Act → Prop) (s s' : StoredRun) : Prop
  | ended (h : s'.run.endedMs ≠ none)
  | grows (hattends : ∀ t, Attends s t → Attends s' t)
      (hlistening : ∀ k types, Silent may s.id k → Listening s k types → Listening s' k types)
  | closes (s₀ : StoredRun) (types : List String) (hcloser : Closer may s s₀ types)
      (h : SameEars (close s₀ types) s')

theorem Hears.same {s s' : StoredRun} (h : SameEars s s') : Hears may s s' :=
  .grows (fun _ ht => h.attends.mpr ht) fun _ _ _ hk => h.listening.mpr hk

theorem not_child {k : String} (h : startsWith k "child:" = false) (child : String) :
    "child:" ++ child ≠ k := by
  rintro rfl
  rw [startsWith_append] at h
  simp at h

theorem Rewrite.hears {c : Core} {s s' : StoredRun} (h : Rewrite c now may s s') : Hears may s s' := by
  cases h with
  | register types hr hmay =>
    refine .grows (fun t ht => attends_registered.mpr (.inl ht)) fun k ts _ hk => ⟨?_, hk.2⟩
    rw [registered_listeners]
    exact hk.1
  | unregister k types hr hmay => exact .closes _ types (.unregister k types hmay) ⟨rfl, rfl, rfl⟩
  | listen k types hr hn hmay =>
    refine .grows (fun t ht => ht) fun k' ts hsilent hk => ⟨?_, hk.2⟩
    have hne : k ≠ k' := fun heq => (hsilent types).2.1 (heq ▸ hmay)
    exact (Table.get_put_ne _ _ hne).trans hk.1
  | adopt child hr =>
    refine .grows (fun t ht => ⟨adopting_awaits.mpr (.inl ht.1), ht.2⟩) fun k ts _ hk => ⟨?_, hk.2⟩
    exact (Table.get_put_ne _ _ (not_child hk.2 child)).trans hk.1
  | settle child ha hmay => exact .closes s _ (.settle child hmay) ⟨rfl, rfl, rfl⟩
  | park outcome =>
    obtain ⟨state, wakeAtMs, interruptions, heq⟩ := finished_eq c s outcome now
    rw [heq]
    exact .same ⟨rfl, rfl, rfl⟩
  | _ => exact .same ⟨rfl, rfl, rfl⟩

theorem RowChange.hears {c : Core} {s s' : StoredRun} (h : RowChange env c now may s s') :
    Hears may s s' := by
  cases h with
  | rewrite h => exact h.hears
  | accept e =>
    refine .same ?_
    split <;> exact ⟨rfl, rfl, rfl⟩
  | notify t =>
    refine .same ?_
    split <;> exact ⟨rfl, rfl, rfl⟩
  | expire | offer | forget => exact .same ⟨rfl, rfl, rfl⟩
  | take c' k types n e hr hn he hmay =>
    have hears : SameEars (joined s e.type_) (refreshed c' (uncounted (joined s e.type_) e)) :=
      ⟨rfl, rfl, rfl⟩
    exact .closes _ types (.take k types e hmay) (tookEvent_ears hears k types)
  | finish => exact .ended (by simp [ending])

/-- What ends leaves the registrations alone, and the listeners of the other listens. -/
theorem Closer.kept {s s₀ : StoredRun} {closed : List String} (h : Closer may s s₀ closed) :
    s₀.awaits = s.awaits ∧ s₀.addressedWaits = s.addressedWaits ∧
      ∀ k types, Silent may s.id k → Listening s k types → Listening s₀ k types := by
  cases h with
  | unregister k' closed hmay =>
    refine ⟨rfl, rfl, fun k types hsilent hk => ⟨?_, hk.2⟩⟩
    have hne : k' ≠ k := fun heq => (hsilent closed).1 (heq ▸ hmay)
    exact (Table.get_delete_ne _ hne).trans hk.1
  | take k' closed e hmay =>
    refine ⟨by rw [joined_eq], by rw [joined_eq], fun k types hsilent hk => ⟨?_, hk.2⟩⟩
    have hne : k' ≠ k := fun heq => (hsilent closed).2.2 (heq ▸ hmay)
    refine (Table.get_delete_ne _ hne).trans ?_
    -- taking a child's end drops an internal listener
    unfold joined
    cases hstrip : stripPrefix e.type_ "done:" with
    | none => exact hk.1
    | some child => exact (Table.get_delete_ne _ (not_child hk.2 child)).trans hk.1
  | settle child hmay => exact ⟨rfl, rfl, fun k types _ hk => hk⟩

/-- An open listen stays, with the registrations of its types, or the run ends. -/
theorem Hears.listening {s s' : StoredRun} (h : Hears may s s') {k : String} {types : List String}
    (hsilent : Silent may s.id k) (hk : Listening s k types) :
    s'.run.endedMs ≠ none ∨ Listening s' k types ∧ ∀ t ∈ types, Attends s t → Attends s' t := by
  cases h with
  | ended hended => exact .inl hended
  | grows hattends hlistening => exact .inr ⟨hlistening k types hsilent hk, fun t _ => hattends t⟩
  | closes s₀ closed hcloser hears =>
    obtain ⟨hawaits, haddressed, hkept⟩ := hcloser.kept
    have hk₀ := hkept k types hsilent hk
    refine .inr ⟨hears.listening.mpr ⟨?_, hk.2⟩, fun t ht hattends => hears.attends.mpr ?_⟩
    · rw [close_listeners]
      exact hk₀.1
    · -- closing spares what a listener names
      refine attends_close.mpr ⟨?_, fun _ => hk₀.named ht⟩
      unfold Attends
      rw [hawaits, haddressed]
      exact hattends

/-- A registration stays when no listen ends and no child of its notices does, or the run ends. -/
theorem Hears.attends {s s' : StoredRun} (h : Hears may s s') {t : String}
    (hunregister : ∀ k types, ¬may s.id (.unregister k types))
    (htake : ∀ k types, ¬may s.id (.take k types))
    (hsettle : ∀ child, t = "waiting:" ++ child → ¬(may child .finish ∨ may child .report))
    (ht : Attends s t) : s'.run.endedMs ≠ none ∨ Attends s' t := by
  cases h with
  | ended hended => exact .inl hended
  | grows hattends => exact .inr (hattends t ht)
  | closes s₀ closed hcloser hears =>
    cases hcloser with
    | unregister k _ hmay => exact absurd hmay (hunregister k _)
    | take k _ e hmay => exact absurd hmay (htake k _)
    | settle child hmay =>
      refine .inr (hears.attends.mpr (attends_close.mpr ⟨ht, fun hmem => ?_⟩))
      exact absurd hmay (hsettle child (List.mem_singleton.mp hmem))

/-- What every change of a row keeps or ends its run, a path does. -/
theorem Path.live_row {c c' : Core} (h : Path env now may c c') (hinv : Inv c) {i : String}
    {P : StoredRun → Prop}
    (hstep : ∀ s s', s.id = i → Hears may s s' → P s → s'.run.endedMs ≠ none ∨ P s') {s : StoredRun}
    (hs : c.run.get i = some s) (hP : P s) :
    ∃ s', c'.run.get i = some s' ∧ (s'.run.endedMs ≠ none ∨ P s') := by
  have hchange : ∀ c s s', Inv c → Sane s → RowChange env c now may s s' → s'.id = s.id ∧
      (s.id = i → s.run.endedMs ≠ none ∨ P s → s'.run.endedMs ≠ none ∨ P s') := by
    intro c s s' _ hsane hchange
    refine ⟨hchange.id_eq, fun hid hs => ?_⟩
    rcases hs with hended | hP
    · exact .inl (by rw [(hchange.frozen hsane hended).ended]; exact hended)
    · exact hstep s s' hid hchange.hears hP
  obtain ⟨s', hs', -, hkept⟩ := h.stored hinv (fun _ => ⟨rfl, fun _ h => h⟩)
    (fun s s' s'' h h' => ⟨h'.1.trans h.1, fun hid hs => h'.2 (h.1.trans hid) (h.2 hid hs)⟩) hchange hs
  exact ⟨s', hs', hkept (hinv.tree.keyed _ _ hs) (.inr hP)⟩

/-! ### What listens do to their row -/

namespace Engine

theorem expire_ears {s s' : StoredRun} {m : Nat} {σ σ' : Rows}
    (h : expire env s now σ = .ok ((s', m), σ')) : SameEars s s' := by
  simp only [expire] at h
  split at h
  · obtain ⟨heq, -⟩ := pure_ok.mp h
    rw [(Prod.mk.inj heq).1]
    exact ⟨rfl, rfl, rfl⟩
  · simp only [bind_ok, read_ok, pure_ok] at h
    obtain ⟨due, σ₁, ⟨-, rfl⟩, s₁, σ₂, hfold, s₂, σ₃, hrefresh, heq, -⟩ := h
    obtain ⟨rfl, -⟩ := refreshMailbox_ok hrefresh
    rw [(Prod.mk.inj heq).1]
    have hears : SameEars s s₁ := by
      refine fold_keeps (I := fun s' _ => SameEars s s') (fun row _ s' σ s'' σ' hears hone => ?_)
        ⟨rfl, rfl, rfl⟩ hfold
      simp only [expireOne, bind_ok, write_ok] at hone
      obtain ⟨e, σ₄, -, taken, σ₅, -, u, σ₆, -, hconsume⟩ := hone
      obtain ⟨rfl, -⟩ := consume_ok hconsume
      exact ⟨hears.awaits, hears.listeners, hears.addressed⟩
    exact ⟨hears.awaits, hears.listeners, hears.addressed⟩

theorem joined_ears {s s' : StoredRun} (h : SameEars s s') (t : String) :
    SameEars (joined s t) (joined s' t) := by
  unfold joined
  cases stripPrefix t "done:" with
  | none => exact h
  | some child => exact ⟨h.awaits, congrArg (·.delete ("child:" ++ child)) h.listeners, h.addressed⟩

/-- What a poll that commits does to the registrations of its run: nothing when its key holds an event
already, else it leaves a listener, or takes the first copy it may and closes. -/
theorem takeEvent_ears {f : Fence} {k : String} {types : List String} {r : Option Json} {σ σ' : Rows}
    (hσ : Good σ) (h : takeEvent env f k types now σ = .ok (r, σ')) :
    ∃ s s', σ.run.get f.runId = some s ∧ σ'.run.get f.runId = some s' ∧
      (SameEars s s' ∧ r.isSome = true ∨
        SameEars { s with listeners := s.listeners.put k types } s' ∧ r = none ∨
        ∃ n e, IsLeast {m | ∃ x, Takeable σ.toCore f.runId types m x ∧ expired x now = false} n ∧
          (σ.event f.runId).get n = some e ∧ SameEars (tookEvent (joined s e.type_) k types) s' ∧
          r.isSome = true) := by
  simp only [takeEvent, bind_ok, read_ok] at h
  obtain ⟨s, σ₁, hchecked, found, σ₂, ⟨hfound, rfl⟩, h⟩ := h
  -- past the guard of the fence, the key is read
  obtain ⟨rfl, hs, hr⟩ := checked_ok hchecked
  have hid := hσ.indexed.keyed _ _ hs
  -- an event under the key: nothing changes
  cases found with
  | some record =>
    cases record with
    | event event =>
      obtain ⟨rfl, rfl⟩ := pure_ok.mp h
      exact ⟨s, s, hs, hs, .inl ⟨⟨rfl, rfl, rfl⟩, rfl⟩⟩
    | _ => simp at h
  | none =>
    -- otherwise the mailbox is expired and the candidate read
    simp only [bind_ok, read_ok] at h
    obtain ⟨⟨s', m⟩, σ₃, hexpire, found, σ₄, ⟨hcand, rfl⟩, h⟩ := h
    have hears := expire_ears hexpire
    rw [← hid] at hs hcand ⊢
    have hexp : Expired env now (fun _ _ => False) _ s σ₄ s' :=
      expire_ok hσ hs ((hσ.inv.sane _ _ hs).live_of_running hr) hexpire
    have hid' := hexp.id_eq
    -- no candidate: the listen is left a listener
    cases found with
    | none =>
      simp only [bind_ok, pure_ok] at h
      obtain ⟨u, σ₅, hstore, rfl, rfl⟩ := h
      refine ⟨s, { s' with listeners := s'.listeners.put k types }, hs, ?_, .inr (.inl ⟨?_, rfl⟩)⟩
      · rw [storeRun_core hstore, Core.get_set]
        exact if_pos hid'
      · exact ⟨hears.awaits, congrArg (·.put k types) hears.listeners, hears.addressed⟩
    -- a candidate: it is taken, and the listen closed
    | some n =>
      simp only [map_ok] at h
      obtain ⟨event, htake, rfl⟩ := h
      have hinv := hσ.inv.path hexp.path
      have hmail : Mail (σ₄.toCore.set s') s' := hinv.mails.mail s'.id s' (by simp)
      have hmail₁ : Mail σ₄.toCore s' := hmail.congr (.of_eq _ rfl rfl rfl rfl rfl rfl rfl rfl) (.refl _)
      obtain ⟨e, he, hcore⟩ := takeCopy_core hinv htake
      have hlapsed := hexp.copies
      rw [← hid'] at hlapsed
      rw [← hid'] at hcand hs ⊢
      -- what it may take after the expiry is what it might take before and has not expired
      have hleast := hmail₁.least_candidate types
      rw [← hcand] at hleast
      simp only [hlapsed.takeable hmail₁ hexp.unexpired] at hleast
      have htakeable := (hlapsed.takeable hmail₁ hexp.unexpired).mp (hmail₁.takeable hcand.symm he)
      -- the row as it is stored in the end
      have hrow : σ'.run.get s'.id = some (tookEvent
          (refreshed (consumeRows (σ₄.toCore.set s') s'.id n e k) (uncounted (joined s' e.type_) e))
          k types) := by
        rw [hcore, Core.get_set, tookEvent_id, refreshed_id, uncounted_id, joined_id, if_pos rfl]
      refine ⟨s, _, hs, hrow, .inr (.inr ⟨n, e, hleast, htakeable.1.1.1, ?_, rfl⟩)⟩
      refine tookEvent_ears ?_ k types
      have hjoined := joined_ears hears e.type_
      exact ⟨hjoined.awaits, hjoined.listeners, hjoined.addressed⟩

theorem registerWait_attends {f : Fence} {types : List String} {u : Unit} {σ σ' : Rows} (hσ : Good σ)
    (h : registerWait env f types now σ = .ok (u, σ')) {t : String} (ht : t ∈ types) :
    ∃ s, σ'.run.get f.runId = some s ∧ Attends s t := by
  simp only [registerWait, bind_ok] at h
  obtain ⟨s, σ₁, hchecked, hstore⟩ := h
  obtain ⟨rfl, hs, -⟩ := checked_ok hchecked
  have hid := hσ.indexed.keyed _ _ hs
  refine ⟨registered s types now, ?_, attends_registered.mpr (.inr ht)⟩
  rw [storeRun_core hstore, Core.get_set, registered_id, if_pos hid]

theorem unregisterWait_ears {f : Fence} {k : String} {types : List String} {u : Unit} {σ σ' : Rows}
    (hσ : Good σ) (h : unregisterWait env f k types now σ = .ok (u, σ')) :
    ∃ s, σ.run.get f.runId = some s ∧
      σ'.run.get f.runId = some (close { s with listeners := s.listeners.delete k } types) := by
  simp only [unregisterWait, bind_ok] at h
  obtain ⟨s, σ₁, hchecked, hstore⟩ := h
  obtain ⟨rfl, hs, -⟩ := checked_ok hchecked
  have hid := hσ.indexed.keyed _ _ hs
  refine ⟨s, hs, ?_⟩
  rw [storeRun_core hstore, Core.get_set, close_id]
  exact if_pos hid

end Engine

/-! ### Calls -/

/-- The call is the listen's own: a poll under its key, or its unregistration. -/
def Op.ofListen : Op → String → String → Prop
  | .takeEvent f k _ _, i, k' | .unregisterWait f k _ _, i, k' => f.runId = i ∧ k = k'
  | _, _, _ => False

theorem Op.silent {op : Op} {i k : String} (h : ¬op.ofListen i k) : Silent op.may i k := by
  intro types
  cases op with
  | takeEvent f k' types' now =>
    exact ⟨fun hmay => hmay, fun hmay => h ⟨hmay.1, hmay.2.1⟩, fun hmay => h ⟨hmay.1, hmay.2.1⟩⟩
  | unregisterWait f k' types' now =>
    exact ⟨fun hmay => h ⟨hmay.1, hmay.2.1⟩, fun hmay => hmay, fun hmay => hmay⟩
  | applyControl request command now =>
    cases command <;> exact ⟨fun hmay => hmay, fun hmay => hmay, fun hmay => hmay⟩
  | _ => exact ⟨fun hmay => hmay, fun hmay => hmay, fun hmay => hmay⟩

/-- The call closes a registration of the run that no listener names once its own has gone: a listen
ends, by unregistering or with the first copy it may take, or a child ends or is reported. -/
inductive Closes (σ : Rows) (i t : String) : Op → Prop
  | unregister {f : Fence} {k : String} {types : List String} {now : Int} {s : StoredRun}
      (hrun : f.runId = i) (ht : t ∈ types) (hs : σ.run.get i = some s)
      (hnone : named { s with listeners := s.listeners.delete k } t = false) :
      Closes σ i t (.unregisterWait f k types now)
  | take {f : Fence} {k : String} {types : List String} {now : Int} {s : StoredRun} {n : Nat}
      {e : StoredEvent} (hrun : f.runId = i) (ht : t ∈ types) (hs : σ.run.get i = some s)
      (hfirst : IsLeast {m | ∃ x, Takeable σ.toCore i types m x ∧ expired x now = false} n)
      (he : (σ.event i).get n = some e)
      (hnone : named { joined s e.type_ with
        listeners := (joined s e.type_).listeners.delete k } t = false) :
      Closes σ i t (.takeEvent f k types now)
  | settle {op : Op} {child : String} {s : StoredRun} (ht : t = "waiting:" ++ child)
      (hmay : op.may child .finish ∨ op.may child .report) (hs : σ.run.get i = some s)
      (hnone : ∀ k types, Listening s k types → t ∉ types) : Closes σ i t op

section Step

variable {σ : Rows} {i : String} {s : StoredRun}

/-- A call that is not the listen's own leaves it open, with the registrations of its types. -/
theorem step_listening (env : Env) (hσ : Good σ) {op : Op} {k : String} {types : List String}
    (hop : ¬op.ofListen i k) (hs : σ.run.get i = some s) (hk : Listening s k types) :
    ∃ s', (step env σ op).run.get i = some s' ∧ (s'.run.endedMs ≠ none ∨
      Listening s' k types ∧ ∀ t ∈ types, Attends s t → Attends s' t) := by
  refine (step_path env hσ op).live_row hσ.inv
    (P := fun s' => Listening s' k types ∧ ∀ t ∈ types, Attends s t → Attends s' t) ?_ hs
    ⟨hk, fun _ _ h => h⟩
  intro s₁ s₂ hid hhears ⟨hk₁, hattends₁⟩
  rcases hhears.listening (hid ▸ op.silent hop) hk₁ with hended | ⟨hk₂, hattends₂⟩
  · exact .inl hended
  · exact .inr ⟨hk₂, fun t ht h => hattends₂ t ht (hattends₁ t ht h)⟩

/-- A registration stays under a call that does not close it. -/
theorem step_attends (env : Env) (hσ : Good σ) {op : Op} {t : String} (hop : ¬Closes σ i t op)
    (hs : σ.run.get i = some s) (ht : Attends s t) :
    ∃ s', (step env σ op).run.get i = some s' ∧ (s'.run.endedMs ≠ none ∨ Attends s' t) := by
  -- no listen ends: only a child's notices may be closed
  -- a call that is no listen's: only the types of a child may close
  have hother : (∀ k types, ¬op.may i (.unregister k types)) → (∀ k types, ¬op.may i (.take k types)) →
      (∀ k, ¬op.ofListen i k) → ∃ s', (step env σ op).run.get i = some s' ∧
        (s'.run.endedMs ≠ none ∨ Attends s' t) := by
    intro hunregister htake hlisten
    by_cases hnamed : ∃ k types, Listening s k types ∧ t ∈ types
    · obtain ⟨k, types, hk, hmem⟩ := hnamed
      obtain ⟨s', hs', hkept⟩ := step_listening env hσ (hlisten k) hs hk
      exact ⟨s', hs', hkept.imp id fun h => h.2 t hmem ht⟩
    · refine (step_path env hσ op).live_row hσ.inv (P := fun s' => Attends s' t) ?_ hs ht
      intro s₁ s₂ hid hhears h₁
      refine hhears.attends (hid ▸ hunregister) (hid ▸ htake) (fun child heq hmay => hop ?_) h₁
      exact .settle heq hmay hs fun k types hk hmem => hnamed ⟨k, types, hk, hmem⟩
  have hsame : step env σ op = σ → ∃ s', (step env σ op).run.get i = some s' ∧
      (s'.run.endedMs ≠ none ∨ Attends s' t) := fun heq => ⟨s, by rw [heq]; exact hs, .inr ht⟩
  -- the calls that work on registrations
  cases op with
  | takeEvent f k types now =>
    by_cases hrun : f.runId = i
    -- a poll of the run itself
    · rcases step_cases env σ (.takeEvent f k types now) with ⟨heq, -⟩ | ⟨r, htx, -⟩
      · exact hsame heq
      obtain ⟨r', htake, -⟩ := map_ok.mp htx
      obtain ⟨s₀, s', hs₀, hs', hcases⟩ := takeEvent_ears hσ htake
      rw [hrun] at hs₀ hs' hcases
      obtain rfl := Option.some.inj (hs₀.symm.trans hs)
      refine ⟨s', hs', .inr ?_⟩
      -- nothing taken, or a copy whose listen closes its types
      rcases hcases with ⟨hears, -⟩ | ⟨hears, -⟩ | ⟨n, e, hfirst, he, hears, -⟩
      · exact hears.attends.mpr ht
      · exact hears.attends.mpr ht
      · have hjoined : Attends (joined s₀ e.type_) t := by
          rw [joined_eq]
          exact ht
        -- it closes this type only where no other listener names it
        refine hears.attends.mpr (attends_close.mpr ⟨hjoined, fun hmem => ?_⟩)
        by_contra hnone
        exact hop (.take hrun hmem hs hfirst he (by simpa [named] using hnone))
    · exact hother (fun _ _ h => h) (fun _ _ h => hrun h.1) fun _ h => hrun h.1
  | unregisterWait f k types now =>
    -- a listen of the run is given up
    by_cases hrun : f.runId = i
    · rcases step_cases env σ (.unregisterWait f k types now) with ⟨heq, -⟩ | ⟨r, htx, -⟩
      · exact hsame heq
      obtain ⟨u, hunregister, -⟩ := map_ok.mp htx
      obtain ⟨s₀, hs₀, hs'⟩ := unregisterWait_ears hσ hunregister
      rw [hrun] at hs₀ hs'
      obtain rfl := Option.some.inj (hs₀.symm.trans hs)
      refine ⟨_, hs', .inr (attends_close.mpr ⟨ht, fun hmem => ?_⟩)⟩
      by_contra hnone
      exact hop (.unregister hrun hmem hs (by simpa using hnone))
    · exact hother (fun _ _ h => hrun h.1) (fun _ _ h => h) fun _ h => hrun h.1
  -- the other calls are no listen's
  | applyControl request command now =>
    cases command <;> exact hother (fun _ _ h => h) (fun _ _ h => h) fun _ h => h
  | _ => exact hother (fun _ _ h => h) (fun _ _ h => h) fun _ h => h

end Step

/-! ### Histories -/

/-- The run is live no more, or registered for the type. -/
def Reachable (σ : Rows) (i t : String) : Prop :=
  ∃ s, σ.run.get i = some s ∧ (s.run.endedMs ≠ none ∨ Attends s t)

theorem step_reachable (env : Env) {σ : Rows} (hσ : Good σ) {i t : String} {op : Op}
    (hop : ¬Closes σ i t op) (h : Reachable σ i t) : Reachable (step env σ op) i t := by
  obtain ⟨s, hs, hended | ht⟩ := h
  · obtain ⟨s', hs', hended'⟩ := step_ended hσ op hs hended
    exact ⟨s', hs', .inl hended'⟩
  · exact step_attends env hσ hop hs ht

/-- A listen of the run registered for the type, and no call closed it since. -/
def Standing (env : Env) (history : List Op) (i t : String) : Prop :=
  ∃ before f types now later, history = before ++ Op.registerWait f types now :: later ∧
    f.runId = i ∧ t ∈ types ∧
    (call env (after env before) (.registerWait f types now)).1 = .ok .unit ∧
    ∀ c op d, later = c ++ op :: d →
      ¬Closes (after env (before ++ Op.registerWait f types now :: c)) i t op

theorem Standing.reachable {env : Env} {history : List Op} {i t : String}
    (h : Standing env history i t) : Reachable (after env history) i t := by
  obtain ⟨before, f, types, now, later, rfl, rfl, ht, hcall, hlater⟩ := h
  induction later using List.reverseRecOn with
  | nil =>
    rw [after_concat]
    obtain ⟨u, hregister, -⟩ := map_ok.mp (tx_of_call hcall)
    obtain ⟨s, hs, hattends⟩ := registerWait_attends (good_after env before) hregister ht
    exact ⟨s, hs, .inr hattends⟩
  | append_singleton later op ih =>
    rw [← List.cons_append, ← List.append_assoc, after_concat]
    refine step_reachable env (good_after env _) (hlater later op [] rfl) (ih fun c op' d heq => ?_)
    exact hlater c op' (d ++ [op]) (by rw [heq]; simp)

/-- The listen `k` of the run is open: its last poll returned nothing, and no call of its own committed
since. -/
def OpenListen (env : Env) (history : List Op) (i k : String) (types : List String) : Prop :=
  ∃ before f now later, history = before ++ Op.takeEvent f k types now :: later ∧ f.runId = i ∧
    (call env (after env before) (.takeEvent f k types now)).1 = .ok (.event none) ∧
    ∀ c op d, later = c ++ op :: d → op.ofListen i k →
      ∃ e, (call env (after env (before ++ Op.takeEvent f k types now :: c)) op).1 = .error e

/-- Every poll that returns nothing finds its types registered. -/
def Prepared (env : Env) (history : List Op) : Prop :=
  ∀ before f k types now later, history = before ++ Op.takeEvent f k types now :: later →
    (call env (after env before) (.takeEvent f k types now)).1 = .ok (.event none) →
    ∀ t ∈ types, t ≠ "*" → Standing env before f.runId t

/-- A call of a listen that fails changes nothing. -/
theorem step_of_failed {env : Env} {σ : Rows} {op : Op} {i k : String} (hop : op.ofListen i k) {e : Error}
    (h : (call env σ op).1 = .error e) : step env σ op = σ := by
  rcases step_cases env σ op with ⟨heq, -⟩ | ⟨r, htx, hr⟩
  · exact heq
  · rw [hr] at h
    cases op with
    | takeEvent | unregisterWait =>
      obtain ⟨r', -, rfl⟩ := map_ok.mp htx
      simp at h
    | _ => exact hop.elim

/-- An open listen is a listener of its run, and its types are registered. -/
theorem OpenListen.listening {env : Env} {history : List Op} {i k : String} {types : List String}
    (h : OpenListen env history i k types) (hk : startsWith k "child:" = false)
    (hpolls : Prepared env history) :
    ∃ s, (after env history).run.get i = some s ∧ (s.run.endedMs ≠ none ∨
      Listening s k types ∧ ∀ t ∈ types, t ≠ "*" → Attends s t) := by
  obtain ⟨before, f, now, later, rfl, rfl, hcall, hlater⟩ := h
  have hstanding := hpolls before f k types now later rfl hcall
  clear hpolls
  -- induction on the calls since the poll
  induction later using List.reverseRecOn with
  -- the poll itself, which left the listen with its types registered
  | nil =>
    rw [after_concat]
    obtain ⟨r, htake, hr⟩ := map_ok.mp (tx_of_call hcall)
    obtain rfl : r = none := by simpa using hr.symm
    obtain ⟨s, s', hs, hs', ⟨-, hsome⟩ | ⟨hears, -⟩ | ⟨n, e, -, -, -, hsome⟩⟩ :=
      takeEvent_ears (good_after env before) htake
    · simp at hsome
    · refine ⟨s', hs', ?_⟩
      by_cases hended : s'.run.endedMs = none
      · refine .inr ⟨hears.listening.mpr ⟨Table.get_put_self _ _ _, hk⟩, fun t ht hstar => ?_⟩
        obtain ⟨s₀, hs₀, hended₀ | hattends⟩ := (hstanding t ht hstar).reachable
        · obtain ⟨s₁, hs₁, hended₁⟩ := step_ended (good_after env before)
            (.takeEvent f k types now) hs₀ hended₀
          rw [Option.some.inj (hs₁.symm.trans hs')] at hended₁
          exact absurd hended hended₁
        · rw [Option.some.inj (hs₀.symm.trans hs)] at hattends
          exact hears.attends.mpr hattends
      · exact .inl hended
    · simp at hsome
  -- a later call: a run that has ended stays so, and an open listen keeps what it has
  | append_singleton later op ih =>
    obtain ⟨s, hs, hkept⟩ := ih fun c op' d heq => hlater c op' (d ++ [op]) (by rw [heq]; simp)
    rw [← List.cons_append, ← List.append_assoc, after_concat]
    rcases hkept with hended | ⟨hlistening, hattends⟩
    · obtain ⟨s', hs', hended'⟩ := step_ended (good_after env _) op hs hended
      exact ⟨s', hs', .inl hended'⟩
    · by_cases hop : op.ofListen f.runId k
      -- the calls of the listen itself have failed since, so they changed nothing
      · obtain ⟨e, hfailed⟩ := hlater later op [] rfl hop
        rw [step_of_failed hop hfailed]
        exact ⟨s, hs, .inr ⟨hlistening, hattends⟩⟩
      · obtain ⟨s', hs', hkept⟩ := step_listening env (good_after env _) hop hs hlistening
        exact ⟨s', hs', hkept.imp id fun h => ⟨h.1, fun t ht hstar => h.2 t ht (hattends t ht hstar)⟩⟩

/-- In every history whose polls that return nothing find their types registered, the types of an open
listen of a live run are registered, and an untargeted event of such a type goes to the run when no
other competes for it earlier and the run keeps no copy of the type. -/
theorem open_listens_routable (env : Env) (history : List Op) (hpolls : Prepared env history)
    {i k : String} {types : List String} (hk : startsWith k "child:" = false)
    (hopen : OpenListen env history i k types) {s : StoredRun}
    (hs : (after env history).run.get i = some s) (hl : s.run.endedMs = none) {t : String}
    (ht : t ∈ types) (hstar : t ≠ "*") :
    ∃ at_, s.awaits.get t = some at_ ∧
      (s.run.held = none →
        (∀ n e, ((after env history).event i).get n = some e → e.consumedKey = none → e.type_ ≠ t) →
        (∀ at' j, Competes (after env history).toCore t at' j → at_ < at' ∨ at_ = at' ∧ i ≤ j) →
        s.accepted < u64Max →
        ∀ event id now, typeOf event = some t → identity event = some id →
          (∀ j n e, ¬Holds (after env history).toCore j id n e) →
          (∀ j, ((after env history).delivered id).get j = none) →
          (call env (after env history) (.deliver event none now)).1 = .ok (.recipient (some i))) := by
  -- the run lives, so its listen is open and registered
  obtain ⟨s₀, hs₀, hended | ⟨-, hattends⟩⟩ := hopen.listening hk hpolls
  · rw [Option.some.inj (hs₀.symm.trans hs)] at hended
    exact absurd hl hended
  obtain rfl := Option.some.inj (hs₀.symm.trans hs)
  obtain ⟨hawaits, haddressed⟩ := hattends t ht hstar
  obtain ⟨at_, hat⟩ := (Table.contains_iff _ _).mp hawaits
  -- nothing competes earlier: the event comes to this run
  refine ⟨at_, hat, fun hheld hclear hfirst hroom event id now htype hid hkept hrow => ?_⟩
  have hcompetes : Competes (after env history).toCore t at_ i :=
    ⟨⟨s₀, hs, hl, hheld, hat, fun _ _ _ => haddressed⟩, hclear⟩
  rcases deliver_routed env (good_after env history) htype hid hkept hrow now with
    ⟨hnone, -⟩ | ⟨at', j, s', ⟨hcompetes', hfirst'⟩, hs', hdelivered⟩
  · exact absurd hcompetes (hnone at_ i)
  · -- two registrations that both come first are one
    have hij : i = j := by
      rcases hfirst at' j hcompetes' with hlt | ⟨heq, hle⟩
      · rcases hfirst' at_ i hcompetes with hlt' | ⟨heq', -⟩ <;> omega
      · rcases hfirst' at_ i hcompetes with hlt' | ⟨-, hle'⟩
        · omega
        · exact le_antisymm hle hle'
    subst hij
    obtain rfl := Option.some.inj (hs'.symm.trans hs)
    rw [if_pos hroom] at hdelivered
    exact hdelivered.1

/-- A run listens for `t`. -/
def listened : List Op :=
  [.start (.plain "r") 0 "o", .registerWait (.plain "r" 1) ["t"] 1, .takeEvent (.plain "r" 1) "/a" ["t"] 2]

/-- A run registers and polls in vain: its registration stands, and the event it waits for comes to it. -/
theorem listened_registered : ∃ s at_, (after .plain listened).run.get "r" = some s ∧
    s.awaits.get "t" = some at_ := by
  obtain ⟨s, hs, hlive⟩ : ∃ s, (after .plain listened).run.get "r" = some s ∧
      decide (s.run.endedMs = none) = true := (Option.any_eq_true _ _).mp (by decide +kernel)
  have hpolls : Prepared .plain listened := by
    intro before f k types now later heq _ t ht _
    rcases before with _ | ⟨op, _ | ⟨op', _ | ⟨op'', before⟩⟩⟩
    · simp [listened] at heq
    · simp [listened] at heq
    · -- the registration comes right before the poll
      simp only [listened, List.cons_append, List.nil_append, List.cons.injEq, Op.takeEvent.injEq] at heq
      obtain ⟨rfl, rfl, ⟨rfl, rfl, rfl, rfl⟩, rfl⟩ := heq
      refine ⟨[.start (.plain "r") 0 "o"], .plain "r" 1, ["t"], 1, [], rfl, rfl, ht, by decide +kernel, ?_⟩
      intro c op d hnil
      simp at hnil
    · simp [listened] at heq
  have hopen : OpenListen .plain listened "r" "/a" ["t"] := by
    refine ⟨[.start (.plain "r") 0 "o", .registerWait (.plain "r" 1) ["t"] 1], .plain "r" 1, 2, [], rfl, rfl,
      by decide +kernel, ?_⟩
    intro c op d hnil
    simp at hnil
  obtain ⟨at_, hat, -⟩ := open_listens_routable .plain listened hpolls (by decide +kernel) hopen hs
    (of_decide_eq_true hlive) List.mem_cons_self (by decide)
  exact ⟨s, at_, hs, hat⟩

/-- Two listens of a run register for `t`, and the second takes an event before the first polls. -/
def polledLate : List Op :=
  [.start (.plain "r") 0 "o", .registerWait (.plain "r" 1) ["t"] 1, .registerWait (.plain "r" 1) ["t"] 1,
    .deliver (.plainEvent "1" "t") none 2, .takeEvent (.plain "r" 1) "/b" ["t"] 3,
    .takeEvent (.plain "r" 1) "/a" ["t"] 4]

/-- The first listen is open then, and the next event of its type finds no recipient. -/
theorem polled_unregistered :
    OpenListen .plain polledLate "r" "/a" ["t"] ∧
      ((after .plain polledLate).run.get "r").any (fun s =>
        decide (s.run.endedMs = none) && decide (s.run.held = none) && !s.awaits.contains "t" &&
          !s.pending.contains "t") = true ∧
      (call .plain (after .plain polledLate) (.deliver (.plainEvent "2" "t") none 5)).1 =
        .ok (.recipient none) := by
  refine ⟨⟨polledLate.take 5, .plain "r" 1, 4, [], rfl, rfl, by decide +kernel, fun c op d hnil => ?_⟩,
    by decide +kernel, by decide +kernel⟩
  simp at hnil

end Ouro
