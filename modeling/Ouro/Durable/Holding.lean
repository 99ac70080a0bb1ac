import Ouro.Durable.Dedup
import Ouro.Durable.Wake

/-!
# Holds and releases

An operator's hold is a flag in the row of a live run and of its live owned descendants. It is no
state of its own: the index, the claim, the routing of untargeted deliveries and every fenced call
read it. `setHold_total` says what a hold or a release writes: the flags of the tree and nothing
else; so a hold flags every live run of the tree (`hold_flags`), and a release right after it gives the
rows back (`hold_release`). `hold_freezes_release_restores` puts these together with

* what does not touch a held run: claims, the due scan, untargeted deliveries, fenced calls
  (`held_rests`);
* what still does: a renewal, a release, an answer to a call that was pending (`Op.passesHold`);
* and that a released run is due for the events that arrived meanwhile (`due_of_waiting`).
-/

namespace Ouro

open Lib Engine Tx

variable {env : Env} {now : Int} {may : String → Act → Prop}

/-! ### What a hold writes -/

/-- The run with the flag set or cleared, unless it is in the wanted state already. -/
def StoredRun.flagged (s : StoredRun) (hold : Option Hold) : StoredRun :=
  if s.run.held.isSome = hold.isSome then s else { s with run := { s.run with held := hold } }

@[simp] theorem StoredRun.flagged_id (s : StoredRun) (hold : Option Hold) :
    (s.flagged hold).id = s.id := by
  unfold flagged
  split <;> rfl

@[simp] theorem StoredRun.flagged_child (s : StoredRun) (hold : Option Hold) :
    (s.flagged hold).run.child = s.run.child := by
  unfold flagged
  split <;> rfl

@[simp] theorem StoredRun.flagged_ended (s : StoredRun) (hold : Option Hold) :
    (s.flagged hold).run.endedMs = s.run.endedMs := by
  unfold flagged
  split <;> rfl

/-- A hold of a run that was not held, released. -/
theorem StoredRun.flagged_flagged {s : StoredRun} (h : s.run.held = none) (hold : Hold) :
    (s.flagged (some hold)).flagged none = s := by
  obtain ⟨r, _, _, _, _, _, _, _, _, _, _, _, _, _, _⟩ := s
  obtain ⟨_, _, _, _, _, _, _, _, _, _, _, _, _, _, held⟩ := r
  obtain rfl : held = none := h
  rfl

/-- Held runs keep the hold they have. -/
theorem StoredRun.flagged_some (s : StoredRun) (hold : Hold) :
    s.flagged (some hold) = { s with run := { s.run with held := some (s.run.held.getD hold) } } := by
  unfold flagged
  cases hheld : s.run.held with
  | none => rfl
  | some held =>
    rw [Option.isSome_some, Option.isSome_some, if_pos rfl, Option.getD_some, ← hheld]

theorem StoredRun.held_released (s : StoredRun) : (s.flagged none).run.held = none := by
  unfold flagged
  split
  · next h => simpa using h
  · rfl

/-- The run and its live owned descendants. -/
def InTree (c : Core) (id i : String) : Prop := Live c i ∧ Relation.ReflTransGen (Owns c) id i

theorem Subtree.mem_cons_iff {c : Core} {id : String} {ids : List String} (hsub : Subtree c id ids)
    (htree : Tree c) (hl : Live c id) (i : String) : i ∈ id :: ids ↔ InTree c id i := by
  rw [List.mem_cons, hsub.mem_iff htree, InTree, Relation.reflTransGen_iff_eq_or_transGen]
  constructor
  · rintro (rfl | ⟨hi, htrans⟩)
    · exact ⟨hl, .inl rfl⟩
    · exact ⟨hi, .inr htrans⟩
  · rintro ⟨hi, heq | htrans⟩
    · exact .inl heq
    · exact .inr ⟨hi, htrans⟩

/-- The flags of a run's tree are set or cleared, and nothing else changes. -/
structure Flagged (σ σ' : Rows) (id : String) (hold : Option Hold) : Prop where
  indexed : Indexed σ'
  rest : { σ' with run := σ.run, index := σ.index } = σ
  inside : ∀ i s, σ.run.get i = some s → InTree σ.toCore id i →
    σ'.run.get i = some (s.flagged hold)
  outside : ∀ i, ¬InTree σ.toCore id i → σ'.run.get i = σ.run.get i

namespace Engine

/-- One pass of the loop over the tree. -/
theorem holdOne_total (hold : Option Hold) (b : Bool) {s : StoredRun} {σ : Rows} (hσ : Indexed σ)
    (hs : σ.run.get s.id = some s) :
    ∃ b' σ', holdOne hold b s σ = .ok (b', σ') ∧ Indexed σ' ∧
      { σ' with run := σ.run, index := σ.index } = σ ∧
      σ'.run = σ.run.put s.id (s.flagged hold) := by
  unfold holdOne StoredRun.flagged
  split
  · exact ⟨b, σ, rfl, hσ, rfl, (Table.put_get _ hs).symm⟩
  · refine ⟨true, _, bind_ok.mpr ⟨(), _, rfl, pure_ok.mpr ⟨rfl, rfl⟩⟩, ?_, rfl, rfl⟩
    exact hσ.storeRunIndexed (s := { s with run := { s.run with held := hold } }) hs rfl

/-- The loop over the runs of the tree, each of which is stored once. -/
theorem holdTree_total (hold : Option Hold) {l : List StoredRun} :
    ∀ {b : Bool} {σ : Rows}, Indexed σ → (l.map StoredRun.id).Nodup →
      (∀ s ∈ l, σ.run.get s.id = some s) →
      ∃ b' σ', fold (holdOne hold) b l σ = .ok (b', σ') ∧ Indexed σ' ∧
        { σ' with run := σ.run, index := σ.index } = σ ∧
        (∀ s ∈ l, σ'.run.get s.id = some (s.flagged hold)) ∧
        ∀ i, i ∉ l.map StoredRun.id → σ'.run.get i = σ.run.get i := by
  induction l with
  | nil =>
    intro b σ hσ _ _
    exact ⟨b, σ, rfl, hσ, rfl, by simp, fun _ _ => rfl⟩
  -- the first run is flagged, and the others afterwards
  | cons s l ih =>
    intro b σ hσ hnodup hstored
    obtain ⟨hnotin, hnodup⟩ := List.nodup_cons.mp hnodup
    obtain ⟨b₁, σ₁, h₁, hσ₁, hrest₁, hrun₁⟩ := holdOne_total hold b hσ
      (hstored s List.mem_cons_self)
    -- its flag leaves the rows of the others
    have hkeep : ∀ i, i ≠ s.id → σ₁.run.get i = σ.run.get i := fun i hi => by
      rw [hrun₁, Table.get_put_ne _ _ (Ne.symm hi)]
    obtain ⟨b₂, σ₂, h₂, hσ₂, hrest₂, hin₂, hout₂⟩ := ih hσ₁ hnodup fun t ht => by
      rw [hkeep t.id fun heq => hnotin (heq ▸ List.mem_map_of_mem ht)]
      exact hstored t (List.mem_cons_of_mem _ ht)
    refine ⟨b₂, σ₂, bind_ok.mpr ⟨b₁, σ₁, h₁, h₂⟩, hσ₂, ?_, ?_, ?_⟩
    · rw [← hrest₁, ← hrest₂]
    · intro t ht
      rcases List.mem_cons.mp ht with rfl | ht
      · rw [hout₂ _ hnotin, hrun₁, Table.get_put_self]
      · exact hin₂ t ht
    · intro i hi
      rw [List.map_cons, List.mem_cons, not_or] at hi
      rw [hout₂ i hi.2, hkeep i hi.1]

/-- A hold or a release of a live run always succeeds and writes the flags of its tree. -/
theorem setHold_total (hold : Option Hold) {σ : Rows} (hσ : Good σ) {id : String}
    (hl : Live σ.toCore id) :
    ∃ b σ', setHold id hold σ = .ok (b, σ') ∧ Flagged σ σ' id hold := by
  obtain ⟨root, hroot, hlive⟩ := hl
  obtain rfl := hσ.indexed.keyed _ _ hroot
  obtain ⟨rest, htree, hsub, hstored⟩ := subtree_total hσ hroot hlive
  have hnodup : ((root :: rest).map StoredRun.id).Nodup := hsub.nodup
  obtain ⟨b, σ', hfold, hindexed, hrest, hin, hout⟩ := holdTree_total hold (b := false)
    hσ.indexed hnodup fun s hs => (hstored s hs).1
  have hmem : ∀ i, i ∈ (root :: rest).map StoredRun.id ↔ InTree σ.toCore root.id i :=
    hsub.mem_cons_iff hσ.inv.tree ⟨root, hroot, hlive⟩
  refine ⟨b, σ', ?_, hindexed, hrest, fun i s hs hi => ?_, fun i hi => ?_⟩
  · simp only [setHold, bind_ok, findRun_ok, orFail_ok]
    refine ⟨_, σ, ⟨rfl, rfl⟩, root, σ, ⟨hroot, rfl⟩, ?_⟩
    rw [if_neg (by simp [hlive])]
    simp only [bind_ok, read_ok]
    exact ⟨_, σ, ⟨rfl, rfl⟩, _, σ, htree, hfold⟩
  · obtain ⟨t, ht, hid⟩ := List.mem_map.mp ((hmem i).mpr hi)
    have hget := (hstored t ht).1
    rw [hid] at hget
    obtain rfl := Option.some.inj (hget.symm.trans hs)
    rw [← hid]
    exact hin t ht
  · exact hout i fun hi' => hi ((hmem i).mp hi')

end Engine

/-- Flags change neither the forest nor who lives. -/
theorem Flagged.inTree {σ σ' : Rows} {id : String} {hold : Option Hold} (h : Flagged σ σ' id hold) :
    InTree σ'.toCore = InTree σ.toCore := by
  have hrows : ∀ i, (σ'.run.get i).map (fun s => (s.run.child, s.run.endedMs)) =
      (σ.run.get i).map fun s => (s.run.child, s.run.endedMs) := by
    intro i
    by_cases hi : InTree σ.toCore id i
    · obtain ⟨s, hs, -⟩ := hi.1
      rw [h.inside i s hs hi, hs]
      simp
    · rw [h.outside i hi]
  obtain ⟨howns, hlive⟩ := forest_congr hrows
  funext j i
  rw [InTree, InTree, howns, hlive]

/-- Two stores with the same run rows have the same index. -/
theorem Indexed.index_eq {σ σ' : Rows} (hσ : Indexed σ) (hσ' : Indexed σ') (hrun : σ'.run = σ.run) :
    σ'.index = σ.index := by
  refine Table.ext_get fun k => Option.ext fun v => ?_
  rw [hσ.get_index_iff, hσ'.get_index_iff, hrun]

/-- A hold of a tree without held runs and a release right after it give the rows back. -/
theorem Flagged.undo {σ σ₁ σ₂ : Rows} {id : String} {hold : Hold} (hσ : Indexed σ)
    (hfree : ∀ i s, InTree σ.toCore id i → σ.run.get i = some s → s.run.held = none)
    (h₁ : Flagged σ σ₁ id (some hold)) (h₂ : Flagged σ₁ σ₂ id none) : σ₂ = σ := by
  have hrun : σ₂.run = σ.run := by
    refine Table.ext_get fun i => ?_
    by_cases hi : InTree σ.toCore id i
    · obtain ⟨s, hs, -⟩ := hi.1
      rw [h₂.inside i _ (h₁.inside i s hs hi) (by rwa [h₁.inTree]),
        StoredRun.flagged_flagged (hfree i s hi hs), hs]
    · rw [h₂.outside i (by rwa [h₁.inTree]), h₁.outside i hi]
  have hindex : σ₂.index = σ.index := hσ.index_eq h₂.indexed hrun
  calc σ₂ = { σ₂ with run := σ.run, index := σ.index } := by rw [← hrun, ← hindex]
    _ = { σ₁ with run := σ.run, index := σ.index } := by
      conv_rhs => rw [← h₂.rest]
    _ = σ := h₁.rest

/-! ### Commands -/

/-- A request that says who asks for what, under an id the store has not seen. -/
structure Request.New (q : Request) (σ : Rows) : Prop where
  given : (!blank q.id && !blank q.actor && !blank q.reason) = true
  unseen : σ.controlCommand.get q.id = none

/-- The rows are the same, apart from the audit of operator commands. -/
def SameButAudit (σ σ' : Rows) : Prop :=
  { σ' with
    controlCommand := σ.controlCommand
    controlHistory := σ.controlHistory
    controlHistoryRun := σ.controlHistoryRun } = σ

/-- A new request performs its command and audits it. -/
theorem applyControl_new {q : Request} {command : Command} {reply : Reply} {σ σ' : Rows}
    (hq : q.New σ) (h : perform env q command (normalizeCommand command) now σ = .ok (reply, σ')) :
    ∃ σ'', call env σ (.applyControl q command now) = (.ok (.applied ⟨reply, false⟩), σ'') ∧
      SameButAudit σ' σ'' ∧ ∀ q' : Request, q'.id ≠ q.id →
        σ''.controlCommand.get q'.id = σ'.controlCommand.get q'.id := by
  obtain ⟨σ'', haudit⟩ : ∃ σ'', audit ⟨q, normalizeCommand command, now, reply⟩ σ' = .ok ((), σ'') :=
    ⟨_, rfl⟩
  have happly : applyControl env q command now σ = .ok (⟨reply, false⟩, σ'') := by
    simp only [applyControl, bind_ok, ensure_ok, read_ok]
    refine ⟨(), σ, ⟨hq.given, rfl⟩, none, σ, ⟨hq.unseen.symm, rfl⟩, ?_⟩
    simp only [bind_ok, pure_ok]
    exact ⟨reply, σ', h, (), σ'', haudit, rfl, rfl⟩
  refine ⟨σ'', call_of_tx (map_ok.mpr ⟨_, happly, rfl⟩), ?_⟩
  obtain rfl := write_ok.mp haudit
  exact ⟨rfl, fun q' hne => Table.get_put_ne _ _ (Ne.symm hne)⟩

/-- The rows of the one store under the audit of the other. -/
def Rows.auditedAs (σ σ' : Rows) : Rows :=
  { σ with
    controlCommand := σ'.controlCommand
    controlHistory := σ'.controlHistory
    controlHistoryRun := σ'.controlHistoryRun }

theorem SameButAudit.eq_auditedAs {σ σ' : Rows} (h : SameButAudit σ σ') : σ' = σ.auditedAs σ' := by
  have h : σ'.auditedAs σ = σ := h
  conv_rhs => rw [← h]
  rfl

/-- Flags and audit do not meet. -/
theorem Flagged.audited {σ τ τ' : Rows} {id : String} {hold : Option Hold} (h : Flagged σ τ id hold)
    (hsame : SameButAudit τ τ') : Flagged (σ.auditedAs τ') τ' id hold := by
  rw [hsame.eq_auditedAs]
  refine ⟨h.indexed.of_eq rfl rfl, ?_, h.inside, h.outside⟩
  change ({ τ with run := σ.run, index := σ.index } : Rows).auditedAs τ' = _
  rw [h.rest]
  rfl

/-- A hold flags the runs of its tree that were not held, and nothing else but the audit. -/
theorem hold_flags (env : Env) {σ : Rows} (hσ : Good σ) {r : String} (hl : Live σ.toCore r) {q : Request} (hq : q.New σ)
    (note : String) (now : Int) : ∃ b σ₁,
      call env σ (.applyControl q (.hold r note) now) = (.ok (.applied ⟨.changed b, false⟩), σ₁) ∧
        Flagged (σ.auditedAs σ₁) σ₁ r (some ⟨q.actor, q.reason, note, now⟩) ∧
        ∀ q' : Request, q'.id ≠ q.id → σ₁.controlCommand.get q'.id = σ.controlCommand.get q'.id := by
  obtain ⟨b, τ, hhold, hflag⟩ := setHold_total (some ⟨q.actor, q.reason, note, now⟩) hσ hl
  have hperform : perform env q (.hold r note) (.hold r note) now σ = .ok (.changed b, τ) :=
    map_ok.mpr ⟨b, hhold, rfl⟩
  obtain ⟨σ₁, hcall, hsame, hunseen⟩ := applyControl_new hq hperform
  refine ⟨b, σ₁, hcall, hflag.audited hsame, fun q' hne => ?_⟩
  have hcommands : σ.controlCommand = τ.controlCommand := by
    conv_lhs => rw [← hflag.rest]
  rw [hunseen q' hne, ← hcommands]

theorem hold_release {σ : Rows} (hσ : Good σ) {r : String} (hl : Live σ.toCore r)
    (hfree : ∀ i s, InTree σ.toCore r i → σ.run.get i = some s → s.run.held = none)
    {q₁ q₂ : Request} (h₁ : q₁.New σ) (h₂ : q₂.New σ) (hne : q₂.id ≠ q₁.id) (note : String)
    (now₁ now₂ : Int) : ∃ b₁ b₂ σ₁ σ₂,
      call env σ (.applyControl q₁ (.hold r note) now₁) =
        (.ok (.applied ⟨.changed b₁, false⟩), σ₁) ∧
      call env σ₁ (.applyControl q₂ (.release r) now₂) =
        (.ok (.applied ⟨.changed b₂, false⟩), σ₂) ∧ SameButAudit σ σ₂ := by
  -- the release finds the same tree, under the audit of the hold
  obtain ⟨b₁, σ₁, hcall₁, hflag₁, hunseen⟩ := hold_flags env hσ hl h₁ note now₁
  have hstep₁ : step env σ (.applyControl q₁ (.hold r note) now₁) = σ₁ := congrArg Prod.snd hcall₁
  have hσ₁ : Good σ₁ := hstep₁ ▸ step_good env hσ _
  have hl₁ : Live σ₁.toCore r := by
    have hin : InTree σ₁.toCore r r := by
      rw [hflag₁.inTree]
      exact ⟨hl, .refl⟩
    exact hin.1
  obtain ⟨b₂, τ₂, hrelease, hflag₂⟩ := setHold_total none hσ₁ hl₁
  have hperform₂ : perform env q₂ (.release r) (.release r) now₂ σ₁ = .ok (.changed b₂, τ₂) :=
    map_ok.mpr ⟨b₂, hrelease, rfl⟩
  have hunseen₁ : σ₁.controlCommand.get q₂.id = none := by
    rw [hunseen q₂ hne]
    exact h₂.unseen
  obtain ⟨σ₂, hcall₂, hsame₂, -⟩ := applyControl_new ⟨h₂.given, hunseen₁⟩ hperform₂
  refine ⟨b₁, b₂, σ₁, σ₂, hcall₁, hcall₂, ?_⟩
  have hundo : τ₂ = σ.auditedAs σ₁ := hflag₁.undo (hσ.indexed.of_eq rfl rfl) hfree hflag₂
  rw [hsame₂.eq_auditedAs, hundo]
  rfl

/-! ### Routing rows -/

/-- A routing row leads to a run that holds the identity, unless its evidence is gone. -/
def LeadsBack (c : Core) : Prop :=
  ∀ id i r, (c.delivered id).get i = some r → r = i ∧ ∃ event, Keeping c i id event

/-- A routing row is written with the copy it leads to. -/
theorem Move.delivered_row {c c' : Core} (h : Move env now may c c') {id i r : String}
    (hrow : (c'.delivered id).get i = some r) :
    (c.delivered id).get i = some r ∨ r = i ∧ ∃ n e, Holds c' i id n e := by
  -- only an acceptance adds a row, and a sweep takes rows away
  cases h with
  | @accept s e hs hl he hi hn hmay =>
    change (((identityOf e).elim c.delivered fun id =>
      if e.delivered then Table.putAt c.delivered id s.id s.id else c.delivered) id).get i = some r
      at hrow
    cases hident : identityOf e with
    | none =>
      rw [hident] at hrow
      exact .inl hrow
    | some id' =>
      simp only [hident, Option.elim_some] at hrow
      -- the copy is delivered, or published
      split at hrow
      · rw [Table.get_putAt] at hrow
        split at hrow
        · next heq =>
          obtain ⟨rfl, rfl⟩ := heq
          refine .inr ⟨(Option.some.inj hrow).symm, s.accepted, e, ?_, hident⟩
          change (Table.putAt c.event s.id s.accepted e s.id).get s.accepted = some e
          rw [Table.get_putAt, if_pos ⟨rfl, rfl⟩]
        · exact .inl hrow
      · exact .inl hrow
  | @forget s at_ hs hl hmay => exact .inl (of_forgetRows_delivered hrow)
  | _ => exact .inl hrow

theorem LeadsBack.move {c c' : Core} (h : LeadsBack c) (hinv : Inv c) (hmove : Move env now may c c') :
    LeadsBack c' := by
  intro id i r hrow
  rcases hmove.delivered_row hrow with hold | ⟨rfl, n, e, hholds⟩
  · obtain ⟨rfl, event, hkeeping⟩ := h id i r hold
    exact ⟨rfl, event, hmove.keeping hinv hkeeping⟩
  · exact ⟨rfl, _, .inr ⟨n, e, hholds, rfl⟩⟩

theorem leadsBack_after (env : Env) (history : List Op) : LeadsBack (after env history).toCore :=
  runs_core (P := LeadsBack) (fun _ _ _ _ hinv hmove h => h.move hinv hmove) Good.empty
    (fun id i r hrow => by simp [Rows.empty] at hrow) history

namespace Engine

/-- A held run is the recipient of an untargeted delivery only if it holds the identity. -/
theorem recipient_unheld {σ σ' : Rows} (hσ : Good σ) (hleads : LeadsBack σ.toCore) {id t : String}
    {s : StoredRun} (h : recipient id t σ = .ok (some s, σ')) (hl : s.run.endedMs = none)
    (hfresh : (σ.eventId s.id).get id = none) : s.run.held = none := by
  simp only [recipient, bind_ok, read_ok] at h
  obtain ⟨first, σ₁, ⟨hfirst, rfl⟩, h⟩ := h
  -- a run that has received the event before, or the first one that waits
  cases first with
  | cons row rest =>
    simp only [map_ok, run_ok] at h
    obtain ⟨s', ⟨hs, rfl⟩, heq⟩ := h
    obtain rfl := Option.some.inj heq
    have hscan : (row.1, row.2) ∈ (σ'.delivered id).scan Table.all (some 1) := by
      rw [← hfirst]
      exact List.mem_cons_self
    have hrow := (Table.of_mem_scan hscan).1
    obtain ⟨hr, event, hkeeping⟩ := hleads id _ _ hrow
    rw [← hr] at hkeeping
    -- it has ended, or it still has the event
    rcases hkeeping with ⟨s₀, hs₀, hended, -⟩ | ⟨n, e, hholds, -⟩
    · exact absurd hl (Option.some.inj (hs₀.symm.trans hs) ▸ hended)
    · obtain hid := hσ.indexed.keyed _ _ hs
      rw [← hid] at hs hholds
      rw [(hσ.inv.mails.mail _ _ hs).holds hholds] at hfresh
      simp at hfresh
  | nil =>
    simp only [bind_ok, pure_ok] at h
    obtain ⟨runs, σ₂, hruns, hhead, rfl⟩ := h
    obtain ⟨-, i, -, hentry⟩ := mem_indexedRuns hσ.indexed hruns (List.mem_of_mem_head? hhead.symm)
    obtain ⟨-, at_, hoffered, -, -⟩ := mem_entries_wait.mp hentry
    unfold offered at hoffered
    -- a held run offers itself to no event
    split at hoffered
    · simp at hoffered
    · next hheld => simpa using hheld

/-- An untargeted delivery leaves the rows of a held run. -/
theorem deliver_unheld {σ σ' : Rows} (hσ : Good σ) (hleads : LeadsBack σ.toCore) {event : Json}
    {r : Option String} (h : deliver env event none now σ = .ok (r, σ')) {i : String}
    {s : StoredRun} (hs : σ.run.get i = some s) (hheld : s.run.held.isSome = true) :
    SameRun σ.toCore σ'.toCore i := by
  obtain ⟨-, hcore | ⟨s', t, ht, ⟨id, hid, hrecipient⟩, -, hg, hcore⟩⟩ := deliver_cases hσ h
  · rw [hcore]
    exact .refl _ i
  · have hne : i ≠ s'.id := by
      rintro rfl
      obtain rfl := Option.some.inj (hs.symm.trans hg.stored)
      have hunheld := recipient_unheld hσ hleads hrecipient hg.live (hg.fresh id hid)
      simp [hunheld] at hheld
    rw [hcore]
    exact accepting_same _ _ _ hne

/-- A fenced call of a held run that checks the hold is refused. -/
theorem checked_unheld {f : Fence} {skew : Int} {σ σ' : Rows} {s : StoredRun}
    (h : checked f now skew σ = .ok (s, σ')) :
    σ.run.get f.runId = some s ∧ s.run.held = none := by
  obtain ⟨-, hs, -⟩ := checked_ok h
  refine ⟨hs, ?_⟩
  simp only [checked, bind_ok, ofExcept_ok, pure_ok] at h
  obtain ⟨u, σ₁, -, s', σ₂, -, u', σ₃, ⟨hnot, -⟩, rfl, -⟩ := h
  unfold notHeld at hnot
  split at hnot
  · simp at hnot
  · next hheld => simpa using hheld

theorem savable_held {s : StoredRun} {old : Option Record} {r : Record} {σ σ' : Rows} {u : Unit}
    (h : savable s old r σ = .ok (u, σ')) (hheld : s.run.held.isSome = true) :
    answers old r = true := by
  by_contra hanswers
  simp only [savable, hanswers, if_false, bind_ok, ofExcept_ok] at h
  obtain ⟨u₁, σ₁, ⟨hnot, -⟩, -⟩ := h
  simp [notHeld, hheld] at hnot

end Engine

/-- The calls under a run's fence that a hold lets pass. -/
def Op.passesHold (σ : Rows) : Op → Prop
  | .renew _ _ | .release _ _ => True
  | .saveRecord f k r _ => answers ((σ.record f.runId).get k) r = true
  | _ => False

/-- Every other call under the fence of a held run is refused and stores nothing. -/
theorem held_refused {σ : Rows} {op : Op} {f : Fence} (hf : op.fenced = some (f, now))
    {s : StoredRun} (hs : σ.run.get f.runId = some s) (hheld : s.run.held.isSome = true)
    (hpass : ¬op.passesHold σ) : ∃ e, call env σ op = (.error e, σ) := by
  rcases step_cases env σ op with ⟨-, he⟩ | ⟨r, h, -⟩
  · exact he
  exfalso
  -- such a call reads the flag before it writes anything
  have hchecked : ∀ {α : Type} {m : StoredRun → Txn α} {a : α} {σ' : Rows},
      ¬(checked f now env.policy.skewMs >>= m) σ = .ok (a, σ') := by
    intro α m a σ' h
    obtain ⟨s', σ₁, hc, -⟩ := bind_ok.mp h
    obtain ⟨hs', hunheld⟩ := checked_unheld hc
    obtain rfl := Option.some.inj (hs'.symm.trans hs)
    simp [hunheld] at hheld
  cases op with
  | checkLease | loadRecords | registerWait | unregisterWait | describeWait | takeEvent | subscribe
  | unsubscribe | finish | startChild | spend =>
    obtain ⟨rfl, rfl⟩ : _ = f ∧ _ = now := by simpa [Op.fenced] using hf
    obtain ⟨a, ha, -⟩ := map_ok.mp h
    exact hchecked ha
  | renew | release => exact hpass trivial
  | saveRecord f' k r t =>
    obtain ⟨rfl, rfl⟩ : f' = f ∧ t = now := by simpa [Op.fenced] using hf
    obtain ⟨a, ha, -⟩ := map_ok.mp h
    simp only [saveRecord, bind_ok, read_ok] at ha
    obtain ⟨u₁, σ₁, hrun, s', σ₂, hauth, old, σ₃, ⟨rfl, rfl⟩, u₂, σ₄, hsave, -⟩ := ha
    obtain rfl := running_ok hrun
    obtain ⟨rfl, hs', -⟩ := authority_ok hauth
    obtain rfl := Option.some.inj (hs'.symm.trans hs)
    exact hpass (savable_held hsave hheld)
  | _ => simp [Op.fenced] at hf

/-- A claim returns a fence of the run it names, which is not held. -/
theorem claimAs_unheld {σ : Rows} {id owner : String} {worker : Compatibility} {f : Fence}
    (hσ : Good σ) (h : (call env σ (.claimAs id now worker owner)).1 = .ok (.fence (some f))) :
    ∃ s, σ.run.get f.runId = some s ∧ s.run.held = none := by
  obtain ⟨r, hclaim, hr⟩ := map_ok.mp (tx_of_call h)
  obtain rfl : some f = r := by simpa using hr
  simp only [claimAs, isStopped, bind_ok, read_ok] at hclaim
  obtain ⟨stopped, σ₁, ⟨-, rfl⟩, hclaim⟩ := hclaim
  -- while the operator has stopped all work nothing is claimed
  cases stopped with
  | true => simp at hclaim
  | false =>
    simp only [Bool.false_eq_true, if_false, bind_ok, findRun_ok] at hclaim
    obtain ⟨found, σ₂, ⟨hfound, rfl⟩, hclaim⟩ := hclaim
    cases found with
    | none => simp at hclaim
    | some s =>
      simp only at hclaim
      split at hclaim
      · simp at hclaim
      · next hc =>
        simp only [bind_ok, ofExcept_ok, pure_ok] at hclaim
        obtain ⟨claim, σ₃, ⟨hrun, -⟩, -, σ₄, -, hf, -⟩ := hclaim
        obtain ⟨-, rfl⟩ := claimRun_ok hrun
        obtain rfl := Option.some.inj hf
        simp only [Bool.or_eq_true, Bool.not_eq_true', not_or, Bool.not_eq_false] at hc
        refine ⟨s, hσ.get_id hfound.symm, ?_⟩
        -- a held run is not claimable
        by_contra hheld
        have hsome : s.run.held.isSome = true := Option.isSome_iff_ne_none.mpr hheld
        simp [claimable, hsome] at hc

/-- What a hold keeps from a run. -/
structure RestsHeld (env : Env) (σ : Rows) (i : String) : Prop where
  not_claimed : ∀ id now worker owner f,
    (call env σ (.claimAs id now worker owner)).1 = .ok (.fence (some f)) → f.runId ≠ i
  not_due : ∀ now limit worker l, (call env σ (.dueAs now limit worker)).1 = .ok (.ids l) → i ∉ l
  no_copy : ∀ event now, (step env σ (.deliver event none now)).event i = σ.event i
  refused : ∀ (op : Op) (f : Fence) now, op.fenced = some (f, now) → f.runId = i →
    ¬op.passesHold σ → ∃ e, call env σ op = (.error e, σ)

theorem held_rests {σ : Rows} (hσ : Good σ) (hleads : LeadsBack σ.toCore) {i : String}
    {s : StoredRun} (hs : σ.run.get i = some s) (hheld : s.run.held.isSome = true) :
    RestsHeld env σ i where
  not_claimed := by
    rintro id now worker owner f hcall rfl
    obtain ⟨s', hs', hunheld⟩ := claimAs_unheld hσ hcall
    obtain rfl := Option.some.inj (hs'.symm.trans hs)
    simp [hunheld] at hheld
  not_due := by
    intro now limit worker l hcall hi
    obtain ⟨ids, hdue, hids⟩ := map_ok.mp (tx_of_call hcall)
    obtain rfl : l = ids := by simpa using hids
    obtain ⟨s', hs', -, hunheld⟩ := dueAs_live hσ hdue hi
    -- the slots promoted before the scan are other runs
    have hfills : Fills env now Books σ (step env σ (.dueAs now limit worker)) :=
      dueAs_fills books limit worker hdue
    obtain rfl := Option.some.inj (((hfills hσ).2 i s hs).symm.trans hs')
    simp [hunheld] at hheld
  no_copy := by
    intro event now
    rcases step_cases env σ (.deliver event none now) with ⟨heq, -⟩ | ⟨r, htx, -⟩
    · rw [heq]
    · obtain ⟨recipient, hdeliver, -⟩ := map_ok.mp htx
      exact (deliver_unheld hσ hleads hdeliver hs hheld).mail.event
  refused := by
    rintro op f now hf rfl hpass
    exact held_refused hf hs hheld hpass

/-- A release that was performed cleared the flags of the tree. -/
theorem release_flagged {σ : Rows} (hσ : Good σ) {q : Request} {r : String} {reply : Reply}
    (h : (call env σ (.applyControl q (.release r) now)).1 = .ok (.applied ⟨reply, false⟩))
    {i : String} {s : StoredRun} (hs : σ.run.get i = some s) (hi : InTree σ.toCore r i) :
    (step env σ (.applyControl q (.release r) now)).run.get i = some (s.flagged none) := by
  have hr : Live σ.toCore r := by
    rcases Relation.reflTransGen_iff_eq_or_transGen.mp hi.2 with rfl | htrans
    · exact hi.1
    · exact hσ.inv.tree.live_ancestor htrans hi.1
  obtain ⟨b, σ₁, hset, hflag⟩ := setHold_total none hσ hr
  have htx := tx_of_call h
  generalize step env σ (.applyControl q (.release r) now) = σ' at htx
  obtain ⟨a, happly, ha⟩ := map_ok.mp htx
  obtain rfl : ⟨reply, false⟩ = a := by simpa using ha
  obtain ⟨entry, -, -, -, hrepeated, -⟩ | ⟨-, reply', σ₂, hperform, -, haudit⟩ := applyControl_ok happly
  · simp at hrepeated
  · obtain ⟨b', hset', -⟩ := map_ok.mp hperform
    obtain ⟨rfl, rfl⟩ : b' = b ∧ σ₂ = σ₁ := by
      rw [hset] at hset'
      simpa [eq_comm] using hset'
    obtain rfl := write_ok.mp haudit
    exact hflag.inside i s hs hi

/-- A live waiting run that is not held is due from its wake-up on. -/
theorem due_of_waiting {σ : Rows} (hσ : Indexed σ) {i : String} {s : StoredRun} {t : Int}
    (hs : σ.run.get i = some s) (hl : s.run.endedMs = none) (hheld : s.run.held = none)
    (hwait : s.run.state = .waiting) (ht : s.run.wakeAtMs ≤ t) :
    claimable s.run t = true ∧ ∃ at_ ≤ t, σ.index.get (indexKey .due (.timed at_ i)) = some (.run i) := by
  obtain rfl := hσ.keyed i s hs
  refine ⟨by simp [claimable, hheld, hwait, ht], s.run.wakeAtMs, ht, ?_⟩
  refine hσ.get_index_iff.mpr ⟨s, hs, mem_entries_due.mpr ⟨hl, s.run.wakeAtMs, ?_, rfl, rfl⟩⟩
  simp [dueAt, hheld, hwait]

/-- A hold flags every live run of a tree, and nothing else; a release right after it gives the rows
back. While a run is held nobody claims it or finds it due, no untargeted delivery reaches it, and the
calls under its fence are refused, except for those that give it back, keep it or answer its calls. Its
wake-up still moves with the events it wants, and the run is due for them once it is released. -/
theorem hold_freezes_release_restores (env : Env) (history : List Op) :
    -- a hold
    (∀ r, Live (after env history).toCore r →
      ∀ (q : Request) note now, q.New (after env history) → ∃ b σ',
        call env (after env history) (.applyControl q (.hold r note) now) =
          (.ok (.applied ⟨.changed b, false⟩), σ') ∧
        (∀ i s, InTree (after env history).toCore r i → (after env history).run.get i = some s →
          σ'.run.get i = some { s with run := { s.run with
            held := some (s.run.held.getD ⟨q.actor, q.reason, note, now⟩) } }) ∧
        ∀ i, ¬InTree (after env history).toCore r i →
          σ'.run.get i = (after env history).run.get i) ∧
    -- a hold and a release right after it
    (∀ r, Live (after env history).toCore r →
      (∀ i s, InTree (after env history).toCore r i → (after env history).run.get i = some s →
        s.run.held = none) →
      ∀ (q₁ q₂ : Request) note now₁ now₂, q₁.New (after env history) → q₂.New (after env history) →
        q₂.id ≠ q₁.id → ∃ b₁ b₂ σ₁ σ₂,
        call env (after env history) (.applyControl q₁ (.hold r note) now₁) =
          (.ok (.applied ⟨.changed b₁, false⟩), σ₁) ∧
        call env σ₁ (.applyControl q₂ (.release r) now₂) =
          (.ok (.applied ⟨.changed b₂, false⟩), σ₂) ∧
        SameButAudit (after env history) σ₂) ∧
    -- while a run is held
    (∀ i s, (after env history).run.get i = some s → s.run.held.isSome = true →
      RestsHeld env (after env history) i ∧
      ∀ t, NotAfter history t → s.run.state = .waiting → ∀ n e,
        ((after env history).event i).get n = some e → wanted s e t = true →
        s.run.wakeAtMs ≤ t) ∧
    -- after a release
    ∀ (q : Request) r now reply,
      (call env (after env history) (.applyControl q (.release r) now)).1 =
        .ok (.applied ⟨reply, false⟩) →
      ∀ i, InTree (after env history).toCore r i → ∃ s,
        (after env (history ++ [.applyControl q (.release r) now])).run.get i = some s ∧
        s.run.held = none ∧
        ∀ t, NotAfter (history ++ [.applyControl q (.release r) now]) t → s.run.state = .waiting →
          ∀ n e, ((after env (history ++ [.applyControl q (.release r) now])).event i).get n = some e →
            wanted s e t = true →
            claimable s.run t = true ∧ ∃ at_ ≤ t,
              (after env (history ++ [.applyControl q (.release r) now])).index.get
                (indexKey .due (.timed at_ i)) = some (.run i) := by
  have hσ := good_after env history
  -- the four parts: a hold, a hold and its release, a held run, a released run
  refine ⟨?_, ?_, ?_, ?_⟩
  -- the flag of a run held before is kept
  · intro r hl q note now hq
    obtain ⟨b, σ', hcall, hflag, -⟩ := hold_flags env hσ hl hq note now
    refine ⟨b, σ', hcall, fun i s hi hs => ?_, fun i hi => hflag.outside i hi⟩
    rw [hflag.inside i s hs hi, StoredRun.flagged_some]
  · intro r hl hfree q₁ q₂ note now₁ now₂ h₁ h₂ hne
    exact hold_release hσ hl hfree h₁ h₂ hne note now₁ now₂
  -- held runs rest, and the events they want still move their wake-up
  · intro i s hs hheld
    refine ⟨held_rests hσ (leadsBack_after env history) hs hheld, ?_⟩
    intro t ht hwait n e he hw
    exact woken_after env history ht i s hs hwait n e he hw
  -- the row after the release is the old one without the flag
  · intro q r now reply hcall i hi
    obtain ⟨s, hs, hl⟩ := hi.1
    have hrow : (after env (history ++ [.applyControl q (.release r) now])).run.get i =
        some (s.flagged none) := by
      rw [after_concat]
      exact release_flagged hσ hcall hs hi
    refine ⟨s.flagged none, hrow, s.held_released, ?_⟩
    -- its wake-up moved with the events while it was held, so it is due now
    intro t ht hwait n e he hw
    have hwake := woken_after env _ ht i _ hrow hwait n e he hw
    exact due_of_waiting (good_after env _).indexed hrow (by simpa using hl) s.held_released hwait
      hwake

/-- A run listens, starts a child and is parked until much later. -/
def parkedWithChild : List Op :=
  [.start (.plain "p") 0 "o", .registerWait (.plain "p" 1) ["t"] 1, .takeEvent (.plain "p" 1) "k" ["t"] 2,
    .startChild (.plain "p" 1) (.plain "c") { parent := "p", key := "call", reference := "/" } 2 "o",
    .finish (.plain "p" 1) (.waiting 1000) 3 1]

/-- An operator's request. -/
def Request.numbered (id : String) : Request := { id, actor := "op", reason := "upgrade" }

/-- The parked run is held, and its event arrives meanwhile. -/
def heldThenDelivered : List Op :=
  parkedWithChild ++ [.applyControl (.numbered "1") (.hold "p" "") 4,
    .deliver (.plainEvent "1" "t") (some "p") 5]

/-- The hold reaches the child; the held run rests while its event moves its wake-up; and it is due once
released. -/
theorem parked_tree_held :
    (∃ b σ', call .plain (after .plain parkedWithChild) (.applyControl (.numbered "1") (.hold "p" "") 4) =
        (.ok (.applied ⟨.changed b, false⟩), σ') ∧
      ∃ s, σ'.run.get "c" = some s ∧ s.run.held = some ⟨"op", "upgrade", "", 4⟩) ∧
    (∃ s, (after .plain heldThenDelivered).run.get "p" = some s ∧ s.run.held.isSome = true ∧
      RestsHeld .plain (after .plain heldThenDelivered) "p" ∧ s.run.wakeAtMs ≤ 5) ∧
    ∃ s, (after .plain (heldThenDelivered ++ [.applyControl (.numbered "2") (.release "p") 6])).run.get
      "p" = some s ∧ s.run.held = none ∧ claimable s.run 6 = true := by
  refine ⟨?_, ?_, ?_⟩
  -- the child is in the tree of its parent, so the hold flags it
  · obtain ⟨p, hp, hl⟩ : ∃ p, (after .plain parkedWithChild).run.get "p" = some p ∧
        decide (p.run.endedMs = none) = true := (Option.any_eq_true _ _).mp (by decide +kernel)
    obtain ⟨c, hc, hchild⟩ : ∃ c, (after .plain parkedWithChild).run.get "c" = some c ∧
        decide (c.run.endedMs = none ∧ c.run.held = none ∧ (c.run.child.map (·.parent)) = some "p") =
          true := (Option.any_eq_true _ _).mp (by decide +kernel)
    rw [decide_eq_true_eq] at hl hchild
    obtain ⟨link, hlink, hparent⟩ := Option.map_eq_some_iff.mp hchild.2.2
    have htree : InTree (after .plain parkedWithChild).toCore "p" "c" :=
      ⟨⟨c, hc, hchild.1⟩, .single ⟨c, link, hc, hlink, hparent⟩⟩
    have hnew : (Request.numbered "1").New (after .plain parkedWithChild) :=
      ⟨by decide +kernel, by decide +kernel⟩
    obtain ⟨b, σ', hcall, hflagged, -⟩ := (hold_freezes_release_restores .plain parkedWithChild).1 "p"
      ⟨p, hp, hl⟩ (.numbered "1") "" 4 hnew
    refine ⟨b, σ', hcall, _, hflagged "c" c htree hc, ?_⟩
    rw [hchild.2.1]
    rfl
  -- the delivery after the hold is wanted by the held run and moves its wake-up to 5
  · obtain ⟨s, hs, h⟩ : ∃ s, (after .plain heldThenDelivered).run.get "p" = some s ∧
        (s.run.held.isSome && decide (s.run.state = .waiting) &&
          (((after .plain heldThenDelivered).event "p").get 0).any (wanted s · 5)) = true :=
      (Option.any_eq_true _ _).mp (by decide +kernel)
    simp only [Bool.and_eq_true, decide_eq_true_eq] at h
    obtain ⟨⟨hheld, hwait⟩, hwanted⟩ := h
    obtain ⟨e, he, hw⟩ := (Option.any_eq_true _ _).mp hwanted
    obtain ⟨hrests, hwakes⟩ :=
      (hold_freezes_release_restores .plain heldThenDelivered).2.2.1 "p" s hs hheld
    have hafter : ∀ op ∈ heldThenDelivered, ∀ at_, op.instant = some at_ → at_ ≤ 5 := by decide
    exact ⟨s, hs, hheld, hrests, hwakes 5 hafter hwait 0 e he hw⟩
  -- the release is accepted, and the wanted event is still there at 6
  · have hreply : (call .plain (after .plain heldThenDelivered)
        (.applyControl (.numbered "2") (.release "p") 6)).1 = .ok (.applied ⟨.changed true, false⟩) := by
      decide +kernel
    obtain ⟨p, hp, hl⟩ : ∃ p, (after .plain heldThenDelivered).run.get "p" = some p ∧
        decide (p.run.endedMs = none) = true := (Option.any_eq_true _ _).mp (by decide +kernel)
    rw [decide_eq_true_eq] at hl
    obtain ⟨s, hs, hheld, hdue⟩ := (hold_freezes_release_restores .plain heldThenDelivered).2.2.2
      (.numbered "2") "p" 6 _ hreply "p" ⟨⟨p, hp, hl⟩, .refl⟩
    obtain ⟨s', hs', h⟩ : ∃ s', (after .plain (heldThenDelivered ++
        [.applyControl (.numbered "2") (.release "p") 6])).run.get "p" = some s' ∧
        (decide (s'.run.state = .waiting) && (((after .plain (heldThenDelivered ++
          [.applyControl (.numbered "2") (.release "p") 6])).event "p").get 0).any (wanted s' · 6)) = true :=
      (Option.any_eq_true _ _).mp (by decide +kernel)
    obtain rfl := Option.some.inj (hs.symm.trans hs')
    simp only [Bool.and_eq_true, decide_eq_true_eq] at h
    obtain ⟨e, he, hw⟩ := (Option.any_eq_true _ _).mp h.2
    have hafter : ∀ op ∈ heldThenDelivered ++ [.applyControl (.numbered "2") (.release "p") 6],
        ∀ at_, op.instant = some at_ → at_ ≤ 6 := by decide
    exact ⟨s, hs, hheld, (hdue 6 hafter h.1 0 e he hw).1⟩

end Ouro
