import Ouro.Durable.Reach

/-!
# Calls as paths of moves: events

Acceptance of CloudEvents (`deliver`, `publish`), lifecycle notices (`notify`, `lifecycle`), expiry and
takes. A transaction that works on a run row it has not stored yet is followed with the row overlaid
on the rows (`Core.set`): the moves lead to that overlay, and the final store makes it real.
-/

namespace Ouro

open Lib Engine Tx

variable {env : Env} {now : Int} {may : String → Act → Prop}

namespace Engine

/-! ### Single steps -/

theorem copy_ok {run : String} {n : Nat} {σ σ' : Rows} {e : StoredEvent} :
    copy run n σ = .ok (e, σ') ↔ (σ.event run).get n = some e ∧ σ' = σ := by
  simp only [copy, bind_ok, read_ok, orFail_ok]
  constructor
  · rintro ⟨r, σ₁, ⟨rfl, rfl⟩, hs, rfl⟩
    exact ⟨hs, rfl⟩
  · rintro ⟨hs, rfl⟩
    exact ⟨_, _, ⟨rfl, rfl⟩, hs, rfl⟩

theorem envelope_ok {e : StoredEvent} {σ σ' : Rows} {j : Json}
    (h : envelope env e σ = .ok (j, σ')) : σ' = σ := by
  simp only [envelope, bind_ok, orFail_ok] at h
  obtain ⟨time, σ₁, ⟨-, rfl⟩, h⟩ := h
  cases hev : e.envelope <;> simp only [hev, pure_ok] at h <;> exact h.2

theorem push_ok {s s' : StoredRun} {e : StoredEvent} {σ σ' : Rows}
    (h : push s e σ = .ok (s', σ')) :
    s.accepted < u64Max ∧ s' = counted s e ∧
      σ' = { σ with toCore := pushed σ.toCore s.id s.accepted e } := by
  simp only [push, bind_ok, ensure_ok, write_ok, pure_ok, decide_eq_true_eq] at h
  obtain ⟨u, σ₁, ⟨hlt, rfl⟩, u', σ₂, rfl, rfl, rfl⟩ := h
  exact ⟨hlt, rfl, rfl⟩

theorem consume_ok {s s' : StoredRun} {n : Nat} {e : StoredEvent} {k : String} {σ σ' : Rows}
    (h : consume s n e k σ = .ok (s', σ')) :
    s' = uncounted s e ∧ σ' = { σ with toCore := consumeRows σ.toCore s.id n e k } := by
  simp only [consume, bind_ok, write_ok, pure_ok] at h
  obtain ⟨u, σ₁, rfl, rfl, rfl⟩ := h
  exact ⟨rfl, rfl⟩

theorem refreshMailbox_ok {s s' : StoredRun} {σ σ' : Rows}
    (h : refreshMailbox s σ = .ok (s', σ')) : s' = refreshed σ.toCore s ∧ σ' = σ := by
  simp only [refreshMailbox, bind_ok, read_ok, pure_ok] at h
  obtain ⟨m, σ₁, ⟨rfl, rfl⟩, rfl, rfl⟩ := h
  exact ⟨rfl, rfl⟩

/-! ### Loops over runs -/

/-- A loop over distinct stored runs, each pass of which touches the row of its own run only. -/
theorem fold_runs {β : Type} {f : β → StoredRun → Txn β} {l : List StoredRun}
    (hf : ∀ s ∈ l, ∀ b σ b' σ', Good σ → σ.run.get s.id = some s → f b s σ = .ok (b', σ') →
      (Indexed σ' ∧ Path env now may σ.toCore σ'.toCore) ∧
        ∀ i, i ≠ s.id → σ'.run.get i = σ.run.get i) :
    ∀ {b b' : β} {σ σ' : Rows}, (l.map StoredRun.id).Nodup → Good σ →
      (∀ s ∈ l, σ.run.get s.id = some s) → fold f b l σ = .ok (b', σ') →
        Indexed σ' ∧ Path env now may σ.toCore σ'.toCore := by
  induction l with
  | nil =>
    intro b b' σ σ' _ hσ _ h
    obtain ⟨-, rfl⟩ := pure_ok.mp h
    exact ⟨hσ.indexed, .refl⟩
  | cons s l ih =>
    intro b b' σ σ' hnodup hσ hstored h
    obtain ⟨b₁, σ₁, h₁, h₂⟩ := bind_ok.mp h
    obtain ⟨hs, hnodup⟩ := List.nodup_cons.mp hnodup
    obtain ⟨hreach, hother⟩ := hf s List.mem_cons_self b σ b₁ σ₁ hσ
      (hstored s List.mem_cons_self) h₁
    have hσ₁ : Good σ₁ := ⟨hreach.1, hσ.inv.path hreach.2⟩
    obtain ⟨hindexed, hpath⟩ := ih (fun t ht => hf t (List.mem_cons_of_mem _ ht)) hnodup hσ₁
      (fun t ht => by
        rw [hother t.id fun heq => hs (heq ▸ List.mem_map_of_mem ht)]
        exact hstored t (List.mem_cons_of_mem _ ht)) h₂
    exact ⟨hindexed, hreach.2.trans hpath⟩

/-- Runs read through the index of a kind under which a run has one row only are distinct. -/
theorem indexedRuns_nodup {kind : IndexKind} {range : IndexId → Bool} {σ σ' : Rows}
    {l : List StoredRun} (hσ : Indexed σ)
    (hone : ∀ (s : StoredRun) i j v w, (indexKey kind i, v) ∈ entries s →
      (indexKey kind j, w) ∈ entries s → i = j)
    (h : indexedRuns kind range none σ = .ok (l, σ')) : (l.map StoredRun.id).Nodup := by
  obtain ⟨rfl, hall⟩ := indexedRuns_ok hσ h
  have hsorted : (scanIndex σ' kind range none).Pairwise fun a b => a.1 ≠ b.1 :=
    (σ'.index.scan_sorted _).imp fun hlt heq => absurd heq hlt.ne
  clear h
  revert hall hsorted
  generalize scanIndex σ' kind range none = found
  intro hall hsorted
  induction hall with
  | nil => exact List.nodup_nil
  | @cons row s rows runs hrow hrest ih =>
    obtain ⟨hne, hsorted⟩ := List.pairwise_cons.mp hsorted
    refine List.nodup_cons.mpr ⟨?_, ih hsorted⟩
    rw [List.mem_map]
    rintro ⟨t, ht, hid⟩
    obtain ⟨row', hmem, hget', hrow', i', hi', -, hentry'⟩ := Tx.exists_of_mem_right hrest ht
    obtain ⟨hget, -, i, hi, -, hentry⟩ := hrow
    obtain rfl : t = s := by
      rw [hid] at hget'
      exact Option.some.inj (hget'.symm.trans hget)
    exact hne row' hmem (by rw [hi, hi', hone t i i' _ _ hentry hentry'])

/-! ### CloudEvents -/

/-- The rows after a CloudEvent is accepted. -/
def accepting (c : Core) (s : StoredRun) (e : StoredEvent) (now : Int) : Core :=
  (pushed c s.id s.accepted e).set (counted (if wanted s e now then wakeBy s now else s) e)

@[simp] theorem wakeBy_id (s : StoredRun) (now : Int) : (wakeBy s now).id = s.id := rfl

private theorem woken_counters (s : StoredRun) (e : StoredEvent) (now : Int) :
    SameCounters s (if wanted s e now then wakeBy s now else s) := by
  split
  · exact ⟨rfl, rfl, rfl, rfl, rfl⟩
  · exact .refl s

theorem accept_ok {s : StoredRun} {e : StoredEvent} {σ σ' : Rows} {r : Option StoredRun}
    (h : accept s e now σ = .ok (r, σ')) :
    r = none ∧ σ' = σ ∧ (∃ i n, identityOf e = some i ∧ (σ.eventId s.id).get i = some n) ∨
      s.accepted < u64Max ∧ (∀ i, identityOf e = some i → (σ.eventId s.id).get i = none) ∧
        r = some (counted (if wanted s e now then wakeBy s now else s) e) ∧
        σ' = { σ with toCore := pushed σ.toCore s.id s.accepted e } := by
  -- the copy is pushed with the counters of the row as it was woken or not
  have hreceive : ∀ {σ σ' : Rows} {s' : StoredRun}, receive s e now σ = .ok (s', σ') →
      s.accepted < u64Max ∧ s' = counted (if wanted s e now then wakeBy s now else s) e ∧
        σ' = { σ with toCore := pushed σ.toCore s.id s.accepted e } := by
    intro σ σ' s' h
    have hpush := push_ok h
    have hrow := woken_counters s e now
    rwa [hrow.accepted, hrow.id] at hpush
  unfold accept at h
  -- a notice has no identity, so it is accepted always
  cases hid : identityOf e with
  | none =>
    simp only [hid, map_ok] at h
    obtain ⟨s', h, rfl⟩ := h
    obtain ⟨hlt, rfl, rfl⟩ := hreceive h
    exact .inr ⟨hlt, by simp, rfl, rfl⟩
  -- an event is accepted unless the run holds its identity
  | some i =>
    simp only [hid, bind_ok, read_ok] at h
    obtain ⟨found, σ₁, ⟨hfound, rfl⟩, h⟩ := h
    cases found with
    | none =>
      simp only [map_ok] at h
      obtain ⟨s', h, rfl⟩ := h
      obtain ⟨hlt, rfl, rfl⟩ := hreceive h
      refine .inr ⟨hlt, fun j hj => ?_, rfl, rfl⟩
      rw [← Option.some.inj hj, ← hfound]
    | some n =>
      simp only [bind_ok, copy_ok, ensure_ok, pure_ok] at h
      obtain ⟨held, σ₂, ⟨-, rfl⟩, u, σ₃, ⟨-, rfl⟩, rfl, rfl⟩ := h
      exact .inl ⟨rfl, rfl, i, n, rfl, hfound.symm⟩

/-- The guards of an acceptance. -/
structure Accepts (env : Env) (now : Int) (c : Core) (s : StoredRun) (e : StoredEvent) : Prop where
  stored : c.run.get s.id = some s
  live : s.run.endedMs = none
  acceptable : Acceptable env now e
  fresh : ∀ i, identityOf e = some i → (c.eventId s.id).get i = none
  room : s.accepted < u64Max

theorem Accepts.move {c : Core} {s : StoredRun} {e : StoredEvent} (h : Accepts env now c s e)
    (hmay : may s.id (.accept e.type_ e.delivered)) : Move env now may c (accepting c s e now) :=
  .accept e h.stored h.live h.acceptable h.fresh h.room hmay

/-- An acceptance with its store is one move. -/
theorem accept_store {s s' : StoredRun} {e : StoredEvent} {σ σ₁ σ' : Rows}
    (hσ : Good σ) (hs : σ.run.get s.id = some s) (hl : s.run.endedMs = none)
    (he : Acceptable env now e) (h : accept s e now σ = .ok (some s', σ₁)) {u : Unit}
    (hstore : storeRun s' σ₁ = .ok (u, σ')) :
    Indexed σ' ∧ Accepts env now σ.toCore s e ∧ σ'.toCore = accepting σ.toCore s e now := by
  obtain ⟨hr, -⟩ | ⟨hlt, hi, hr, rfl⟩ := accept_ok h
  · simp at hr
  · obtain rfl := Option.some.inj hr
    have hindexed : Indexed { σ with toCore := pushed σ.toCore s.id s.accepted e } :=
      hσ.indexed.of_eq rfl rfl
    refine ⟨hindexed.storeRun hstore, ⟨hs, hl, he, hi, hlt⟩, ?_⟩
    rw [storeRun_core hstore]
    rfl

theorem cloudEvent_acceptable (env : Env) (event : Json) (t : String) (now : Int) (delivered : Bool)
    {expires : Option Int}
    (h : expires = none ∨ expires = some (satAdd now env.policy.mailboxMs)) :
    Acceptable env now (cloudEvent event t now delivered expires) :=
  ⟨rfl, rfl, rfl, h⟩

/-- The other rows after an acceptance. -/
theorem get_accepting_ne (c : Core) (s : StoredRun) (e : StoredEvent) {i : String} (h : i ≠ s.id) :
    (accepting c s e now).run.get i = c.run.get i := by
  unfold accepting
  rw [Core.get_set, if_neg]
  · rfl
  · rw [counted_id, (woken_counters s e now).id]
    exact Ne.symm h

/-- A delivery changes nothing, or a live run accepts the event. -/
theorem deliver_cases {event : Json} {target r : Option String} {σ σ' : Rows} (hσ : Good σ)
    (h : deliver env event target now σ = .ok (r, σ')) :
    Indexed σ' ∧ (σ'.toCore = σ.toCore ∨ ∃ s t, typeOf event = some t ∧
      (∃ id, identity event = some id ∧ addressee target id t σ = .ok (some s, σ)) ∧
      (∀ i, target = some i → i = s.id) ∧
      Accepts env now σ.toCore s
        (cloudEvent event t now true (some (satAdd now env.policy.mailboxMs))) ∧
      σ'.toCore = accepting σ.toCore s
        (cloudEvent event t now true (some (satAdd now env.policy.mailboxMs))) now) := by
  -- the candidate is looked up first, then the identity in its mailbox
  simp only [deliver, bind_ok, orFail_ok] at h
  obtain ⟨t, σ₁, ⟨ht, rfl⟩, id, σ₂, ⟨hid, rfl⟩, found, σ₃, hfind, h⟩ := h
  have haddressee := hfind
  -- the candidate is a stored run, and the target when there is one
  obtain ⟨rfl, hfound⟩ : σ₃ = σ₂ ∧ ∀ s, found = some s →
      σ₂.run.get s.id = some s ∧ ∀ i, target = some i → i = s.id := by
    cases target with
    | some target =>
      simp only [addressee, findRun_ok] at hfind
      obtain ⟨rfl, rfl⟩ := hfind
      refine ⟨rfl, fun s hs => ⟨hσ.get_id hs, fun i hi => ?_⟩⟩
      rw [← Option.some.inj hi, hσ.indexed.keyed _ _ hs]
    | none =>
      simp only [addressee, recipient, bind_ok, read_ok] at hfind
      obtain ⟨first, σ₄, ⟨-, rfl⟩, hfind⟩ := hfind
      cases first with
      | cons row rest =>
        simp only [map_ok, run_ok] at hfind
        obtain ⟨s, ⟨hs, rfl⟩, rfl⟩ := hfind
        refine ⟨rfl, fun s' hs' => ⟨?_, by simp⟩⟩
        obtain rfl := Option.some.inj hs'
        exact hσ.get_id hs
      | nil =>
        simp only [bind_ok, pure_ok] at hfind
        obtain ⟨runs, σ₅, hruns, rfl, rfl⟩ := hfind
        obtain ⟨rfl, -⟩ := indexedRuns_ok hσ.indexed hruns
        refine ⟨rfl, fun s hs => ⟨?_, by simp⟩⟩
        exact (mem_indexedRuns hσ.indexed hruns (List.mem_of_mem_head? hs)).1
  -- nobody is eligible
  cases found with
  | none =>
    obtain ⟨rfl, rfl⟩ := pure_ok.mp h
    exact ⟨hσ.indexed, .inl rfl⟩
  -- the run holds the identity already, or has ended, or accepts the event
  | some s =>
    obtain ⟨hs, htarget⟩ := hfound s rfl
    simp only [bind_ok, read_ok] at h
    obtain ⟨held, σ₄, ⟨rfl, rfl⟩, h⟩ := h
    split at h
    · obtain ⟨rfl, rfl⟩ := pure_ok.mp h
      exact ⟨hσ.indexed, .inl rfl⟩
    · next hend =>
      simp only [bind_ok] at h
      obtain ⟨r', σ₅, haccept, h⟩ := h
      cases r' with
      | none =>
        obtain ⟨rfl, rfl⟩ := pure_ok.mp h
        obtain ⟨-, rfl, -⟩ | ⟨-, -, hr, -⟩ := accept_ok haccept
        · exact ⟨hσ.indexed, .inl rfl⟩
        · simp at hr
      | some s' =>
        -- an ended run accepts only what it holds already
        have hl : s.run.endedMs = none := by
          obtain ⟨hr, -⟩ | ⟨-, hi, -⟩ := accept_ok haccept
          · simp at hr
          · by_contra hne
            apply hend
            rw [hi id hid]
            simpa [Option.isSome_iff_ne_none] using hne
        simp only [bind_ok, pure_ok] at h
        obtain ⟨u, σ₆, hstore, rfl, rfl⟩ := h
        have hacc := cloudEvent_acceptable env event t now true (.inr rfl)
        obtain ⟨hindexed, hg, hcore⟩ := accept_store hσ hs hl hacc haccept hstore
        exact ⟨hindexed, .inr ⟨s, t, ht, ⟨id, hid, haddressee⟩, htarget, hg, hcore⟩⟩

theorem deliver_reaches (event : Json) (target : Option String)
    (hmay : ∀ i t, typeOf event = some t → (∀ j, target = some j → j = i) → may i (.accept t true)) :
    Steps (Reaches env now may) (deliver env event target now) := by
  intro σ r σ' h hσ
  obtain ⟨hindexed, hcore | ⟨s, t, ht, -, htarget, hg, hcore⟩⟩ := deliver_cases hσ h
  · exact ⟨hindexed, by rw [hcore]⟩
  · exact ⟨hindexed, by rw [hcore]; exact .single (hg.move (hmay _ _ ht htarget))⟩

/-- A merge of two lists of runs, each run once. -/
private theorem merged_nodup {typed wild : List StoredRun} (h : (typed.map StoredRun.id).Nodup) :
    ((wild.foldl (fun runs s => if runs.any (·.id == s.id) then runs else runs ++ [s]) typed).map
      StoredRun.id).Nodup := by
  induction wild generalizing typed with
  | nil => exact h
  | cons s wild ih =>
    refine ih ?_
    simp only
    split
    · exact h
    · next hnew =>
      rw [List.map_append, List.map_singleton]
      refine h.append (List.nodup_singleton _) ?_
      simp only [List.disjoint_singleton, List.mem_map, not_exists, not_and]
      intro t ht hid
      apply hnew
      simp only [List.any_eq_true, beq_iff_eq]
      exact ⟨t, ht, hid⟩

private theorem mem_merged {typed wild : List StoredRun} {s : StoredRun}
    (h : s ∈ wild.foldl (fun runs s => if runs.any (·.id == s.id) then runs else runs ++ [s]) typed) :
    s ∈ typed ∨ s ∈ wild := by
  induction wild generalizing typed with
  | nil => exact .inl h
  | cons t wild ih =>
    rcases ih h with hmem | hmem
    · simp only at hmem
      split at hmem
      · exact .inl hmem
      · rcases List.mem_append.mp hmem with hmem | hmem
        · exact .inl hmem
        · exact .inr (by rw [List.mem_singleton.mp hmem]; exact List.mem_cons_self)
    · exact .inr (List.mem_cons_of_mem _ hmem)

theorem subscribers_ok {t : String} {σ σ' : Rows} {l : List StoredRun} (hσ : Good σ)
    (h : subscribers t σ = .ok (l, σ')) :
    σ' = σ ∧ (l.map StoredRun.id).Nodup ∧ ∀ s ∈ l, σ.run.get s.id = some s := by
  simp only [subscribers, bind_ok, pure_ok] at h
  obtain ⟨typed, σ₁, htyped, wild, σ₂, hwild, rfl, rfl⟩ := h
  obtain ⟨rfl, -⟩ := indexedRuns_ok hσ.indexed htyped
  obtain ⟨rfl, -⟩ := indexedRuns_ok hσ.indexed hwild
  have hone : ∀ {t : String} (s : StoredRun) i j v w, (indexKey (.subs t) i, v) ∈ entries s →
      (indexKey (.subs t) j, w) ∈ entries s → i = j := fun s i j v w hi hj => by
    rw [(mem_entries_subs.mp hi).2.2.1, (mem_entries_subs.mp hj).2.2.1]
  refine ⟨rfl, ?_, fun s hs => ?_⟩
  · exact ((List.perm_insertionSort _ _).map _).nodup_iff.mpr
      (merged_nodup (indexedRuns_nodup hσ.indexed hone htyped))
  · rcases mem_merged ((List.perm_insertionSort _ _).mem_iff.mp hs) with hmem | hmem
    · exact (mem_indexedRuns hσ.indexed htyped hmem).1
    · exact (mem_indexedRuns hσ.indexed hwild hmem).1

/-- The subscribers are live runs that subscribe to the type or to every type, in the order of their
ids. -/
theorem subscribers_sound {t : String} {σ σ' : Rows} {l : List StoredRun} (hσ : Good σ)
    (h : subscribers t σ = .ok (l, σ')) :
    (l.map StoredRun.id).Pairwise (· ≤ ·) ∧ ∀ s ∈ l, s.run.endedMs = none ∧
      ∃ types ∈ s.subscriptions.values, t ∈ types ∨ "*" ∈ types := by
  simp only [subscribers, bind_ok, pure_ok] at h
  obtain ⟨typed, σ₁, htyped, wild, σ₂, hwild, rfl, rfl⟩ := h
  obtain ⟨rfl, -⟩ := indexedRuns_ok hσ.indexed htyped
  have hread : ∀ {t : String} {l : List StoredRun} {σ' : Rows} {s : StoredRun},
      indexedRuns (.subs t) anyId none σ₁ = .ok (l, σ') → s ∈ l →
        s.run.endedMs = none ∧ ∃ types ∈ s.subscriptions.values, t ∈ types := by
    intro t l σ' s hread hs
    obtain ⟨-, i, -, hentry⟩ := mem_indexedRuns hσ.indexed hread hs
    obtain ⟨hlive, htypes, -, -⟩ := mem_entries_subs.mp hentry
    exact ⟨hlive, htypes⟩
  refine ⟨?_, fun s hs => ?_⟩
  · rw [List.pairwise_map]
    exact List.pairwise_insertionSort (fun a b : StoredRun => a.id ≤ b.id) _
  · rcases mem_merged ((List.perm_insertionSort _ _).mem_iff.mp hs) with hmem | hmem
    · obtain ⟨hlive, types, htypes, ht⟩ := hread htyped hmem
      exact ⟨hlive, types, htypes, .inl ht⟩
    · obtain ⟨hlive, types, htypes, ht⟩ := hread hwild hmem
      exact ⟨hlive, types, htypes, .inr ht⟩

theorem audience_ok {target : Option String} {t : String} {σ σ' : Rows} {l : List StoredRun}
    (hσ : Good σ) (h : audience target t σ = .ok (l, σ')) :
    σ' = σ ∧ (l.map StoredRun.id).Nodup ∧ (∀ s ∈ l, σ.run.get s.id = some s) ∧
      ∀ s ∈ l, ∀ j, target = some j → j = s.id := by
  cases target with
  | none =>
    obtain ⟨hsame, hnodup, hstored⟩ := subscribers_ok hσ h
    exact ⟨hsame, hnodup, hstored, by simp⟩
  | some id =>
    simp only [audience, map_ok, findRun_ok] at h
    obtain ⟨r, ⟨rfl, rfl⟩, rfl⟩ := h
    refine ⟨rfl, ?_, fun s hs => hσ.get_id (Option.mem_toList.mp hs), fun s hs j hj => ?_⟩
    · cases σ'.run.get id with
      | none => exact List.nodup_nil
      | some s => exact List.nodup_singleton _
    · rw [← Option.some.inj hj, hσ.indexed.keyed _ _ (Option.mem_toList.mp hs)]

/-- One receiver of a publication: nothing, or a live run accepts the event. -/
theorem publishTo_cases {target : Option String} {e : StoredEvent} {receivers receivers' : List String}
    {s : StoredRun} {σ σ' : Rows} (hσ : Good σ) (hs : σ.run.get s.id = some s)
    (he : Acceptable env now e)
    (h : publishTo target e now receivers s σ = .ok (receivers', σ')) :
    Indexed σ' ∧ (σ'.toCore = σ.toCore ∨
      Accepts env now σ.toCore s e ∧ σ'.toCore = accepting σ.toCore s e now) := by
  unfold publishTo at h
  split at h
  -- the run is live and listens: it has the event already, or a copy is put
  · next helig =>
    have hl : s.run.endedMs = none := by
      simp only [Bool.and_eq_true, Option.isNone_iff_eq_none] at helig
      exact helig.1
    simp only [bind_ok] at h
    obtain ⟨r, σ₁, haccept, h⟩ := h
    cases r with
    | none =>
      obtain ⟨-, rfl⟩ := pure_ok.mp h
      obtain ⟨-, rfl, -⟩ | ⟨-, -, hr, -⟩ := accept_ok haccept
      · exact ⟨hσ.indexed, .inl rfl⟩
      · simp at hr
    | some s' =>
      simp only [bind_ok, pure_ok] at h
      obtain ⟨u, σ₂, hstore, -, rfl⟩ := h
      obtain ⟨hindexed, hg, hcore⟩ := accept_store hσ hs hl he haccept hstore
      exact ⟨hindexed, .inr ⟨hg, hcore⟩⟩
  -- it is passed over
  · obtain ⟨-, rfl⟩ := pure_ok.mp h
    exact ⟨hσ.indexed, .inl rfl⟩

theorem publish_reaches (event : Json) (target : Option String)
    (hmay : ∀ i t, typeOf event = some t → (∀ j, target = some j → j = i) →
      may i (.accept t false)) :
    Steps (Reaches env now may) (publish env event target now) := by
  intro σ r σ' h hσ
  simp only [publish, bind_ok, orFail_ok] at h
  obtain ⟨t, σ₁, ⟨ht, rfl⟩, l, σ₂, haud, hfold⟩ := h
  obtain ⟨rfl, hnodup, hstored, htarget⟩ := audience_ok hσ haud
  have he : Acceptable env now (cloudEvent event t now false
      (target.map fun _ => satAdd now env.policy.mailboxMs)) :=
    cloudEvent_acceptable env event t now false (by cases target <;> simp)
  refine fold_runs (fun s hmem b σ b' σ' hσ hs h => ?_) hnodup hσ hstored hfold
  obtain ⟨hindexed, hcore | ⟨hg, hcore⟩⟩ := publishTo_cases hσ hs he h
  · refine ⟨⟨hindexed, by rw [hcore]⟩, fun i _ => ?_⟩
    rw [show σ'.run = σ.run from congrArg Core.run hcore]
  · refine ⟨⟨hindexed, ?_⟩, fun i hi => ?_⟩
    · rw [hcore]
      exact .single (hg.move (hmay _ _ ht (htarget s hmem)))
    · rw [show σ'.run = _ from congrArg Core.run hcore]
      exact get_accepting_ne _ _ _ hi

/-! ### Notices -/

/-- The rows after a notice is accepted. -/
def notifying (c : Core) (s : StoredRun) (t : String) (data : Json) (now : Int) : Core :=
  (pushed c s.id s.accepted (notice t data now)).set
    (counted (if wakes s t false then { s with run := { s.run with wakeAtMs := now } } else s)
      (notice t data now))

/-- The guards of a notice. -/
structure Notifies (c : Core) (s : StoredRun) (t : String) : Prop where
  stored : c.run.get s.id = some s
  live : s.run.endedMs = none
  awaited : s.awaits.contains t = true
  unseen : s.pending.contains t = false
  room : s.accepted < u64Max

/-- A notice changes nothing, or a live parent that awaits it accepts it. -/
theorem notify_cases {parent t : String} {data : Json} {σ σ' : Rows} {u : Unit} (hσ : Good σ)
    (h : notify parent t data now σ = .ok (u, σ')) :
    ∃ s, σ.run.get parent = some s ∧ Indexed σ' ∧
      ((s.run.endedMs ≠ none ∨ s.awaits.contains t = false ∨ s.pending.contains t = true) ∧
          σ' = σ ∨
        Notifies σ.toCore s t ∧ σ'.toCore = notifying σ.toCore s t data now) := by
  simp only [notify, bind_ok, run_ok] at h
  obtain ⟨s, σ₁, ⟨hs, rfl⟩, h⟩ := h
  refine ⟨s, hs, ?_⟩
  split at h
  -- skipped: the parent has ended, or does not await the type, or has a notice of it pending
  · next hskip =>
    obtain ⟨-, rfl⟩ := pure_ok.mp h
    refine ⟨hσ.indexed, .inl ⟨?_, rfl⟩⟩
    simp only [Bool.or_eq_true, Bool.not_eq_true'] at hskip
    rcases hskip with (hend | haw) | hp
    · exact .inl (by simpa [Option.isSome_iff_ne_none] using hend)
    · exact .inr (.inl haw)
    · exact .inr (.inr hp)
  -- pushed, under no identity, and the parent is woken when it waits for it
  · next hskip =>
    simp only [bind_ok] at h
    obtain ⟨s', σ₂, hpush, hstore⟩ := h
    have hwoken : SameCounters s
        (if wakes s t false then { s with run := { s.run with wakeAtMs := now } } else s) := by
      split
      · exact ⟨rfl, rfl, rfl, rfl, rfl⟩
      · exact .refl s
    obtain ⟨hlt, rfl, hσ₂⟩ := push_ok hpush
    rw [hwoken.accepted] at hlt
    have hindexed : Indexed σ₂ := by
      rw [hσ₂]
      exact hσ.indexed.of_eq rfl rfl
    refine ⟨hindexed.storeRun hstore, .inr ⟨⟨hσ.get_id hs, ?_, ?_, ?_, hlt⟩, ?_⟩⟩
    · by_contra hne
      exact hskip (by simp [Option.isSome_iff_ne_none, hne])
    · by_contra hne
      exact hskip (by simp [hne])
    · by_contra hne
      exact hskip (by simp [hne])
    · rw [storeRun_core hstore, hσ₂, hwoken.id, hwoken.accepted]
      rfl

theorem notify_path {parent t : String} {data : Json} {σ σ' : Rows} {u : Unit} (hσ : Good σ)
    (hreports : Reports σ.toCore parent t data) (h : notify parent t data now σ = .ok (u, σ')) :
    Indexed σ' ∧ Path env now may σ.toCore σ'.toCore := by
  obtain ⟨s, hs, hindexed, ⟨-, rfl⟩ | ⟨hg, hcore⟩⟩ := notify_cases hσ h
  · exact ⟨hindexed, .refl⟩
  · refine ⟨hindexed, ?_⟩
    rw [hcore]
    rw [← hσ.indexed.keyed _ _ hs] at hreports
    exact .single (.notify t data hg.stored hg.live hg.awaited hg.unseen hreports hg.room)

/-- Closing the automatic registration of an ended child: the parent's row alone may change. -/
theorem closeWaiting_cases {parent id : String} {σ σ' : Rows} {u : Unit} (hσ : Good σ)
    (h : closeWaiting parent id σ = .ok (u, σ')) :
    ∃ p, σ.run.get parent = some p ∧ Indexed σ' ∧
      (σ' = σ ∨ p.awaits.contains ("waiting:" ++ id) = true ∧
        σ'.toCore = σ.toCore.set (close p ["waiting:" ++ id])) := by
  simp only [closeWaiting, bind_ok, run_ok] at h
  obtain ⟨p, σ₁, ⟨hp, rfl⟩, h⟩ := h
  refine ⟨p, hp, ?_⟩
  split at h
  · next hclosed =>
    rw [Bool.and_eq_true] at hclosed
    exact ⟨hσ.indexed.storeRun h, .inr ⟨hclosed.1, storeRun_core h⟩⟩
  · obtain ⟨-, rfl⟩ := pure_ok.mp h
    exact ⟨hσ.indexed, .inl rfl⟩

theorem waiting_ne_done (id : String) {cid : String} : "waiting:" ++ id ≠ "done:" ++ cid := by
  intro heq
  have hchars := congrArg String.toList heq
  simp [String.toList_append] at hchars

theorem lifecycleNotice_done {id t : String} {status : Status} {data : Json}
    (h : lifecycleNotice id status = some (true, t, data)) : status.terminal = true := by
  cases status <;> simp_all [lifecycleNotice, Status.terminal]

theorem lifecycle_path (env : Env) {id : String} {status : Status} {σ σ' : Rows} {u : Unit} (hσ : Good σ)
    (houtcome : ∀ s t data, σ.run.get id = some s →
      lifecycleNotice id status = some (true, t, data) → s.run.outcome = some status)
    (hmay : status.terminal = true → may id .finish ∨ may id .report)
    (h : lifecycle id status now σ = .ok (u, σ')) :
    Indexed σ' ∧ Path env now may σ.toCore σ'.toCore := by
  -- only a child's status is reported, and only the statuses of which a parent is told
  simp only [lifecycle, bind_ok, run_ok] at h
  obtain ⟨s, σ₁, ⟨hs, rfl⟩, h⟩ := h
  have hid := hσ.indexed.keyed _ _ hs
  cases hchild : s.run.child with
  | none =>
    simp only [hchild, pure_ok] at h
    obtain ⟨-, rfl⟩ := h
    exact ⟨hσ.indexed, .refl⟩
  | some link =>
    cases hnotice : lifecycleNotice id status with
    | none =>
      simp only [hchild, hnotice, pure_ok] at h
      obtain ⟨-, rfl⟩ := h
      exact ⟨hσ.indexed, .refl⟩
    -- `done` says that the notice reports the end of the child
    | some n =>
      obtain ⟨done, t, data⟩ := n
      simp only [hchild, hnotice, bind_ok, read_ok] at h
      obtain ⟨first, σ₂, ⟨hfirst, rfl⟩, h⟩ := h
      -- a notice of the end that was pushed before is not pushed again
      split at h
      · obtain ⟨-, rfl⟩ := pure_ok.mp h
        exact ⟨hσ.indexed, .refl⟩
      · next hskip =>
        have hnotice' : lifecycleNotice s.id status = some (done, t, data) := by rw [hid]; exact hnotice
        -- a notice of progress: nothing else is written
        cases done with
        | false =>
          refine notify_path hσ ⟨s, link, status, false, hσ.get_id hs, hchild, rfl, hnotice', ?_⟩ h
          simp
        -- a notice of the end settles the call that waits for it first
        | true =>
          have hnone : (σ₂.eventType link.parent).get t = none := by
            rw [← hfirst]
            simpa using hskip
          simp only [if_true, bind_ok] at h
          obtain ⟨u₁, σ₃, hclose, hnotify⟩ := h
          obtain ⟨p, hp, hindexed, hcore⟩ := closeWaiting_cases hσ hclose
          have hreach : Reaches env now may σ₂ σ₃ := by
            intro _
            refine ⟨hindexed, ?_⟩
            rcases hcore with rfl | ⟨hawaits, hcore⟩
            · exact .refl
            · rw [hcore]
              exact .single (.rewrite (hσ.get_id hp)
                (.settle id hawaits (hmay (lifecycleNotice_done hnotice))))
          have hσ₃ := hreach.good hσ
          -- the child's row keeps its link and outcome
          obtain ⟨s', hs', hrun⟩ : ∃ s', σ₃.run.get id = some s' ∧ s'.run = s.run := by
            rcases hcore with rfl | ⟨-, hcore⟩
            · exact ⟨s, hs, rfl⟩
            · rw [show σ₃.run = _ from congrArg Core.run hcore, Core.get_set, close_id]
              split
              · next hpid =>
                have hpeq : p = s := by
                  rw [← hpid] at hs
                  exact Option.some.inj ((hσ.get_id hp).symm.trans hs)
                exact ⟨_, rfl, by rw [close_run, hpeq]⟩
              · exact ⟨s, hs, rfl⟩
          -- and the row of the notices is as it was, so this is the first one
          have hid' := hσ₃.indexed.keyed _ _ hs'
          have hfirst₃ : (σ₃.eventType link.parent).get t = none := by
            rcases hcore with rfl | ⟨-, hcore⟩
            · exact hnone
            · rw [show σ₃.eventType = _ from congrArg Core.eventType hcore]
              exact hnone
          -- what the notice says is what the child's row says
          have hreports : Reports σ₃.toCore link.parent t data :=
            ⟨s', link, status, true, hσ₃.get_id hs', by rw [hrun, hchild], rfl,
              by rw [hid']; exact hnotice,
              fun _ => ⟨by rw [hrun]; exact houtcome s t data hs hnotice, hfirst₃⟩⟩
          exact trans_of (Reaches env now may) hreach (fun hσ₃ => notify_path hσ₃ hreports hnotify) hσ

end Engine

end Ouro
