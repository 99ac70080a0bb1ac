import Ouro.Durable.Calls

/-!
# Authority over a run, and its end

Over every history of calls by any number of workers with any clocks:

* `single_fenced_authority`: a run is running exactly while it has a fence and a lease, its fence is of
  its generation, generations only grow and grow with every fence handed out, and a fenced call whose
  fence or lease does not hold fails and stores nothing;
* `ended_rests`: what ended stays as it ended, whatever is called afterwards.

Both rest on the moves that every committed call is a path of (`Move`): that a row is sane is an invariant of
the store, that its generation grows and that an ended row is frozen are relations between a row before and
after one move, and `runs_stored` carries such a relation along a history. What is left is about single calls:
which of them check a fence (`Op.authority_of_fenced`), which return one (`fence_returned`), and that the
index a worker is offered runs from lists live ones (`Engine.dueAs_live`).
-/

namespace Ouro

open Lib Engine Tx

variable {env : Env} {now : Int} {may : String → Act → Prop}

/-! ### Rows over paths -/

/-- A stored row stays stored along a path, with what every change of a row keeps. -/
theorem Path.stored {c c' : Core} (h : Path env now may c c') (hinv : Inv c) {R : StoredRun → StoredRun → Prop}
    (hrefl : ∀ s, R s s) (htrans : ∀ s s' s'', R s s' → R s' s'' → R s s'')
    (hstep : ∀ c s s', Inv c → Sane s → RowChange env c now may s s' → R s s') {i : String}
    {s : StoredRun} (hs : c.run.get i = some s) : ∃ s', c'.run.get i = some s' ∧ R s s' := by
  induction h with
  | refl => exact ⟨s, hs, hrefl s⟩
  | @tail c₁ c₂ hpath hmove ih =>
    obtain ⟨s₁, hs₁, hR⟩ := ih
    have hinv₁ := hinv.path hpath
    obtain ⟨s₂, hs₂, rfl | hchange⟩ := hmove.stored hs₁
    · exact ⟨s₂, hs₂, hR⟩
    · exact ⟨s₂, hs₂, htrans _ _ _ hR (hstep c₁ _ _ hinv₁ (hinv₁.sane _ _ hs₁) hchange)⟩

/-- The same along a history of calls. -/
theorem runs_stored (env : Env) {R : StoredRun → StoredRun → Prop} (hrefl : ∀ s, R s s)
    (htrans : ∀ s s' s'', R s s' → R s' s'' → R s s'')
    (hstep : ∀ now may c s s', Inv c → Sane s → RowChange env c now may s s' → R s s') {σ : Rows}
    (hσ : Good σ) (later : List Op) {i : String} {s : StoredRun} (hs : σ.run.get i = some s) :
    ∃ s', (runs (step env) σ later).run.get i = some s' ∧ R s s' := by
  induction later using List.reverseRecOn with
  | nil => exact ⟨s, hs, hrefl s⟩
  | append_singleton later op ih =>
    obtain ⟨s₁, hs₁, hR⟩ := ih
    have hσ₁ := good_runs env hσ later
    rw [runs_concat]
    obtain ⟨s₂, hs₂, hR'⟩ := (step_path env hσ₁ op).stored hσ₁.inv hrefl htrans (hstep _ _) hs₁
    exact ⟨s₂, hs₂, htrans _ _ _ hR hR'⟩

/-- What ended stays ended. -/
theorem Path.ended_stored {c c' : Core} (h : Path env now may c c') (hinv : Inv c) {i : String}
    {s : StoredRun} (hs : c.run.get i = some s) (hended : s.run.endedMs ≠ none) :
    ∃ s', c'.run.get i = some s' ∧ s'.run.endedMs ≠ none := by
  obtain ⟨s', hs', hkept⟩ := h.stored (R := fun s s' => s.run.endedMs ≠ none → s'.run.endedMs ≠ none)
    hinv (fun _ h => h) (fun _ _ _ h h' hne => h' (h hne))
    (fun c s s' _ hsane h hne => by rw [(h.frozen hsane hne).ended]; exact hne) hs
  exact ⟨s', hs', hkept hended⟩

theorem step_ended {σ : Rows} (hσ : Good σ) (op : Op) {i : String} {s : StoredRun}
    (hs : σ.run.get i = some s) (hended : s.run.endedMs ≠ none) :
    ∃ s', (step env σ op).run.get i = some s' ∧ s'.run.endedMs ≠ none :=
  (step_path env hσ op).ended_stored hσ.inv hs hended

theorem after_concat (env : Env) (history : List Op) (op : Op) :
    after env (history ++ [op]) = step env (after env history) op :=
  runs_concat history op

theorem after_append (env : Env) (history later : List Op) :
    after env (history ++ later) = runs (step env) (after env history) later :=
  runs_append history later

/-! ### Fenced calls -/

/-- The fence a call must hold and the instant it is made at. -/
def Op.fenced : Op → Option (Fence × Int)
  | .checkLease f now | .renew f now | .release f now | .loadRecords f now | .saveRecord f _ _ now
  | .registerWait f _ now | .unregisterWait f _ _ now | .describeWait f _ _ now
  | .takeEvent f _ _ now | .subscribe f _ _ now | .unsubscribe f _ now | .finish f _ now _
  | .startChild f _ _ now _ | .spend f _ _ now => some (f, now)
  | _ => none

/-- The fence is not the run's current one, or its lease ends within the skew bound from now. -/
def Stale (σ : Rows) (f : Fence) (now skew : Int) : Prop :=
  ∀ s, σ.run.get f.runId = some s → s.run.fence = some f →
    ∀ until_, s.run.leaseUntilMs = some until_ → until_ ≤ now + skew

theorem Engine.checked_authority {f : Fence} {skew : Int} {σ σ' : Rows} {s : StoredRun}
    (h : checked f now skew σ = .ok (s, σ')) : authority f now skew σ = .ok (s, σ') := by
  simp only [checked, bind_ok, ofExcept_ok, pure_ok] at h
  obtain ⟨u, σ₁, hrun, s', σ₂, hauth, u', σ₃, ⟨-, rfl⟩, rfl, rfl⟩ := h
  obtain rfl := running_ok hrun
  exact hauth

/-- A fenced call that commits held its fence. -/
theorem Op.authority_of_fenced {op : Op} {f : Fence} (hf : op.fenced = some (f, now)) {σ σ' : Rows}
    {r : Except Error Result} (h : op.tx env σ = .ok (r, σ')) :
    ∃ s σ₁, authority f now env.policy.skewMs σ = .ok (s, σ₁) := by
  -- every such call checks the fence before it writes anything
  have hchecked : ∀ {α : Type} {m : StoredRun → Txn α} {a : α} {f : Fence} {now : Int},
      (checked f now env.policy.skewMs >>= m) σ = .ok (a, σ') →
        ∃ s σ₁, authority f now env.policy.skewMs σ = .ok (s, σ₁) := by
    intro α m a f now h
    obtain ⟨s, σ₁, hc, -⟩ := bind_ok.mp h
    exact ⟨s, σ₁, checked_authority hc⟩
  -- `renew` and `saveRecord` look at the stop switch first
  have hrunning : ∀ {α : Type} {m : StoredRun → Txn α} {a : α} {f : Fence} {now : Int},
      (running >>= fun _ => authority f now env.policy.skewMs >>= m) σ = .ok (a, σ') →
        ∃ s σ₁, authority f now env.policy.skewMs σ = .ok (s, σ₁) := by
    intro α m a f now h
    obtain ⟨u, σ₁, hr, h⟩ := bind_ok.mp h
    obtain ⟨s, σ₂, ha, -⟩ := bind_ok.mp h
    obtain rfl := running_ok hr
    exact ⟨s, σ₂, ha⟩
  cases op with
  | checkLease | loadRecords | registerWait | unregisterWait | describeWait | takeEvent | subscribe
  | unsubscribe | finish | startChild | spend =>
    obtain ⟨rfl, rfl⟩ : _ = f ∧ _ = now := by simpa [Op.fenced] using hf
    obtain ⟨a, ha, -⟩ := map_ok.mp h
    exact hchecked ha
  | renew | saveRecord =>
    obtain ⟨rfl, rfl⟩ : _ = f ∧ _ = now := by simpa [Op.fenced] using hf
    obtain ⟨a, ha, -⟩ := map_ok.mp h
    exact hrunning ha
  -- `release` checks the authority itself, whether the store is stopped or not
  | release =>
    obtain ⟨rfl, rfl⟩ : _ = f ∧ _ = now := by simpa [Op.fenced] using hf
    obtain ⟨a, ha, -⟩ := map_ok.mp h
    obtain ⟨s, σ₁, hauth, -⟩ := bind_ok.mp ha
    exact ⟨s, σ₁, hauth⟩
  | _ => simp [Op.fenced] at hf

/-- A fenced call without its fence fails and stores nothing. -/
theorem stale_refused {σ : Rows} (hσ : Good σ) {op : Op} {f : Fence}
    (hf : op.fenced = some (f, now)) (hstale : Stale σ f now env.policy.skewMs) :
    ∃ e, call env σ op = (.error e, σ) := by
  rcases step_cases env σ op with ⟨-, he⟩ | ⟨r, h, -⟩
  · exact he
  · obtain ⟨s, σ₁, hauth⟩ := op.authority_of_fenced hf h
    obtain ⟨-, hs, -, hfence, until_, hu, hlt⟩ := authority_ok hauth
    have hle := le_satAdd_of_le ((hσ.inv.sane _ _ hs).lease_le _ hu) (hstale s hs hfence _ hu)
    omega

/-! ### Handing out fences -/

/-- A call that returns a fence made it the run's, in a generation above all before. -/
theorem fence_returned {σ : Rows} (hσ : Good σ) {op : Op} {f : Fence}
    (h : (call env σ op).1 = .ok (.fence (some f))) :
    ∃ s, (step env σ op).run.get f.runId = some s ∧ s.run.fence = some f ∧
      s.run.generation = f.generation ∧
      ((σ.run.get f.runId).map (·.run.generation)).getD 0 < s.run.generation := by
  rcases step_cases env σ op with ⟨-, e, he⟩ | ⟨r, htx, hcall⟩
  · rw [he] at h
    simp at h
  · rw [hcall] at h
    simp only at h
    subst h
    cases op with
    -- a new run: it comes claimed in its first generation, and nothing was stored under its id
    | start a t owner =>
      obtain ⟨r, hstart, hr⟩ := map_ok.mp htx
      obtain ⟨b, σ₁, hdrain, ⟨hno, -⟩ | ⟨digest, epoch, u, hnone, hstore, rfl⟩⟩ := start_ok hstart
      · cases r with
        | error e => simp [Except.map] at hr
        | ok o =>
          obtain rfl : some f = o := by simpa [Except.map] using hr
          exact absurd rfl (hno f)
      -- the row is fresh, so there was no generation before
      · obtain rfl : f = { runId := a.id, owner, generation := 1 } := by simpa [Except.map] using hr
        refine ⟨claimed (fresh a digest epoch t) t owner, ?_, rfl, rfl, ?_⟩
        · rw [show (step env σ _).run = _ from congrArg Core.run (storeRun_core hstore), Core.get_set]
          exact if_pos rfl
        -- the drain before the admission stores runs but takes none away
        · have : σ.run.get a.id = none := by
            by_contra hne
            obtain ⟨s, hs⟩ := Option.ne_none_iff_exists'.mp hne
            simp [(drainMarked_fills books _ hdrain hσ).2 _ _ hs] at hnone
          simp [this, claimed, fresh]
    -- a claim: the generation of the stored row goes up by one
    | claimAs id t worker owner =>
      obtain ⟨r, hclaim, hr⟩ := map_ok.mp htx
      obtain rfl : some f = r := by simpa using hr
      simp only [claimAs, isStopped, bind_ok, read_ok] at hclaim
      obtain ⟨stopped, σ₁, ⟨-, rfl⟩, hclaim⟩ := hclaim
      cases stopped with
      | true => simp at hclaim
      | false =>
        simp only [Bool.false_eq_true, if_false, bind_ok, findRun_ok] at hclaim
        obtain ⟨found, σ₂, ⟨hfound, rfl⟩, hclaim⟩ := hclaim
        cases found with
        | none => simp at hclaim
        | some s =>
          simp only at hclaim
          split at hclaim
          · simp at hclaim
          · simp only [bind_ok, ofExcept_ok, pure_ok] at hclaim
            obtain ⟨claim, σ₃, ⟨hc, rfl⟩, u, σ₄, hstore, hr, hσ'⟩ := hclaim
            obtain ⟨-, rfl⟩ := claimRun_ok hc
            obtain rfl := Option.some.inj hr
            rw [hσ']
            -- the claimed row is the one that is stored afterwards
            refine ⟨claimed s t owner, ?_, rfl, rfl, ?_⟩
            · rw [show σ₄.run = _ from congrArg Core.run (storeRun_core hstore), Core.get_set]
              exact if_pos rfl
            · have := hσ.get_id hfound.symm
              simp [this, claimed]
    -- a child is either created and claimed at once, or rejoined without a fence
    | startChild p a link t owner =>
      obtain ⟨r, hstart, hr⟩ := map_ok.mp htx
      have hok : r = .ok (some f) := by
        cases r with
        | error e => simp [Except.map] at hr
        | ok o =>
          obtain rfl : some f = o := by simpa [Except.map] using hr
          rfl
      obtain ⟨parent, b, σ₁, hp, -, hdrain, ⟨-, hno⟩ | ⟨-, hne, u, σ₂, hadopt, hrest⟩⟩ :=
        startChild_ok hstart
      · exact absurd hok (hno f)
      · rcases hrest with ⟨digest, epoch, u₂, hnone, hstore, hr'⟩ | ⟨c, u₂, -, -, -, hr'⟩
        · obtain rfl : f = { runId := a.id, owner, generation := 1 } := by
            rw [hok] at hr'
            simpa using hr'
          refine ⟨claimed (linked (fresh a digest epoch t) link (parent.run.root.getD p.runId)) t owner,
            ?_, rfl, rfl, ?_⟩
          · rw [show (step env σ _).run = _ from congrArg Core.run (storeRun_core hstore), Core.get_set]
            exact if_pos rfl
          -- the adoption writes the parent's row, which is not the child's
          · have hother : σ₂.run.get a.id = σ₁.run.get a.id := by
              rw [show σ₂.run = _ from congrArg Core.run (storeRun_core hadopt), Core.get_set, if_neg]
              intro heq
              have hid : parent.id = p.runId := hσ.indexed.keyed _ _ hp
              exact hne (heq.symm.trans hid)
            have : σ.run.get a.id = none := by
              by_contra hsome
              obtain ⟨s, hs⟩ := Option.ne_none_iff_exists'.mp hsome
              rw [hother, (drainMarked_fills books _ hdrain hσ).2 _ _ hs] at hnone
              simp at hnone
            simp [this, claimed, linked, fresh]
        · rw [hok] at hr'
          simp at hr'
    -- no other call returns a fence
    | _ =>
      obtain ⟨r, -, hr⟩ := map_ok.mp htx
      first
      | simp at hr
      | cases r <;> simp [Except.map] at hr

/-- Single fenced authority. In every store that a history of calls leads to, a run is running exactly
while it has a fence and a lease, and that fence is of the run's generation. Generations never go down, and
a call that hands out a fence leaves it with the run in a generation above all before. A fenced call whose
fence or lease does not hold fails and leaves the store as it was. -/
theorem single_fenced_authority (env : Env) (history : List Op) :
    (∀ i s, (after env history).run.get i = some s →
      (s.run.state = .running ↔ s.run.fence.isSome = true) ∧
      (s.run.state = .running ↔ s.run.leaseUntilMs.isSome = true) ∧
      ∀ f, s.run.fence = some f → f.generation = s.run.generation) ∧
    (∀ later i s, (after env history).run.get i = some s →
      ∃ s', (after env (history ++ later)).run.get i = some s' ∧
        s.run.generation ≤ s'.run.generation) ∧
    (∀ op f, (call env (after env history) op).1 = .ok (.fence (some f)) →
      ∃ s, (step env (after env history) op).run.get f.runId = some s ∧ s.run.fence = some f ∧
        s.run.generation = f.generation ∧
        (((after env history).run.get f.runId).map (·.run.generation)).getD 0 < s.run.generation) ∧
    (∀ op f now, op.fenced = some (f, now) → Stale (after env history) f now env.policy.skewMs →
      ∃ e, call env (after env history) op = (.error e, after env history)) := by
  -- the first part is the row's own invariant, the second holds of every move and so of every run of calls
  have hσ := good_after env history
  refine ⟨fun i s hs => ?_, fun later i s hs => ?_, fun op f h => fence_returned hσ h,
    fun op f now hf hstale => stale_refused hσ hf hstale⟩
  · have hsane := hσ.inv.sane i s hs
    exact ⟨hsane.fence_iff, hsane.lease_iff, fun f hf => (hsane.fence_eq f hf).2⟩
  -- generations only grow: one move at a time, then along the history
  · rw [after_append]
    exact runs_stored env (R := fun s s' => s.run.generation ≤ s'.run.generation) (fun _ => le_rfl)
      (fun _ _ _ => le_trans) (fun _ _ _ _ _ _ _ h => h.generation_le) hσ later hs

/-! ### Ended runs -/

/-- No move adds a copy to an ended run. -/
theorem Move.event_of_ended {c c' : Core} (h : Move env now may c c') (hinv : Inv c) {i : String}
    {s : StoredRun} (hs : c.run.get i = some s) (hended : s.run.endedMs ≠ none) {n : Nat}
    {e : StoredEvent} (he : (c'.event i).get n = some e) : (c.event i).get n = some e := by
  -- a move on the mailbox of a live run is on another run
  have hother : ∀ {t : StoredRun}, c.run.get t.id = some t → t.run.endedMs = none → i ≠ t.id := by
    rintro t ht hl rfl
    rw [Option.some.inj (hs.symm.trans ht)] at hended
    exact hended hl
  cases h with
  | admission | refuse | bear | rewrite | record | finish | spend | dropBudget => exact he
  | accept e' hs' hl => exact (pushed_same (hother hs' hl)).event ▸ he
  | notify t data hs' hl => exact (pushed_same (hother hs' hl)).event ▸ he
  | @expire s' m e' at_ taken hs' hl =>
    have hsame := (consumed_same (c := c) (n := m) (e := e') (k := expiredKey m) (hother hs' hl)).event
    rw [← hsame]
    exact he
  | @take s' k types m e' event hs' hr =>
    have hl := (hinv.sane _ _ hs').live_of_running hr
    have hsame := (consumed_same (c := c) (n := m) (e := e') (k := k) (hother hs' hl)).event
    rw [← hsame]
    exact he
  | offer m e' hs' hl => exact (offered_same (hother hs' hl)).event ▸ he
  | @forget s' at_ hs' hl =>
    -- the sweep of the run itself empties its mailbox
    by_cases hi : i = s'.id
    · subst hi
      have hempty : ((forgetRows c s'.id).set (forgotten s')).event s'.id = .empty :=
        (Vacant.forget (hinv.mails.mail _ _ hs')).event
      rw [hempty] at he
      simp at he
    · exact (forgetRows_same hi).event ▸ he

/-- A held run has no due time. -/
theorem not_held_of_dueAt {s : StoredRun} {at_ : Int} (h : dueAt s = some at_) :
    s.run.held = none := by
  unfold dueAt at h
  split at h
  · simp at h
  · next hheld => simpa using hheld

/-- The runs a worker is offered are live and not held. -/
theorem Engine.dueAs_live {limit : Nat} {worker : Compatibility} {σ σ' : Rows} {l : List String}
    (hσ : Good σ) (h : dueAs env now limit worker σ = .ok (l, σ')) {i : String} (hi : i ∈ l) :
    ∃ s, σ'.run.get i = some s ∧ s.run.endedMs = none ∧ s.run.held = none := by
  simp only [dueAs, isStopped, bind_ok, read_ok] at h
  obtain ⟨stopped, σ₁, ⟨-, rfl⟩, h⟩ := h
  cases stopped with
  | true =>
    obtain ⟨rfl, rfl⟩ := pure_ok.mp h
    simp at hi
  | false =>
    simp only [Bool.false_eq_true, if_false, bind_ok] at h
    obtain ⟨u, σ₂, hdrain, h⟩ := h
    -- the drain before the page fills in admissions only, so the index is exact after it
    have hfill : Fills env now Books _ _ := drainPending_fills books limit hdrain
    have hσ₂ := hfill.good hσ
    -- an id comes from a row of the due index, which a live run yields
    have hcollect : ∀ {found : List (IndexKey × IndexValue)} {ids : List String} {σ₃ : Rows},
        Tx.collect dueRun found σ₂ = .ok (ids, σ₃) →
        (∀ row ∈ found, σ₂.index.get row.1 = some row.2 ∧
          ((ofLex row.1).1 = .due ∨ ∃ v, (ofLex row.1).1 = .dueApp v)) →
        σ₃ = σ₂ ∧ ∀ i ∈ ids, ∃ s, σ₂.run.get i = some s ∧ s.run.endedMs = none ∧
          s.run.held = none := by
      intro found ids σ₃ hc hfound
      obtain ⟨rfl, hall⟩ := Tx.collect_read (fun row s σ' hrow => by
        obtain ⟨k, v⟩ := row
        cases v with
        | run id => exact (pure_ok.mp hrow).2
        | _ => simp [dueRun] at hrow) hc
      refine ⟨rfl, fun i hi => ?_⟩
      obtain ⟨row, hmem, hrow⟩ := Tx.exists_of_mem_right hall hi
      obtain ⟨hget, hkind⟩ := hfound row hmem
      obtain ⟨s, hs, hentry⟩ := hσ₂.indexed.get_index_iff.mp hget
      obtain ⟨⟨kind, id⟩, v⟩ := row
      have hlive : (s.run.endedMs = none ∧ s.run.held = none) ∧ v = .run s.id := by
        -- both indexes list live runs that are due, and a held run is never due
        rcases hkind with hkind | ⟨app, hkind⟩
        · obtain rfl : kind = .due := hkind
          obtain ⟨hl, at_, hdue, -, hv⟩ := mem_entries_due.mp hentry
          exact ⟨⟨hl, not_held_of_dueAt hdue⟩, hv⟩
        · obtain rfl : kind = .dueApp app := hkind
          obtain ⟨hl, -, at_, hdue, -, hv⟩ := mem_entries_dueApp.mp hentry
          exact ⟨⟨hl, not_held_of_dueAt hdue⟩, hv⟩
      rw [hlive.2] at hrow
      obtain ⟨rfl, -⟩ := pure_ok.mp hrow
      exact ⟨s, hσ₂.get_id hs, hlive.1⟩
    have hscan : ∀ {kind : IndexKind} {row : IndexKey × IndexValue},
        row ∈ scanIndex σ₂ kind (untilId now) (some limit) →
        σ₂.index.get row.1 = some row.2 ∧ (ofLex row.1).1 = kind := by
      rintro kind ⟨k, v⟩ hrow
      obtain ⟨hget, hrange⟩ := Table.of_mem_scan hrow
      simp only [Bool.and_eq_true, decide_eq_true_eq] at hrange
      exact ⟨hget, hrange.1⟩
    -- a worker without a version reads one page, one with versions a page for each of them
    cases hversion : worker.version with
    | none =>
      simp only [hversion, bind_ok, read_ok] at h
      obtain ⟨found, σ₃, ⟨rfl, rfl⟩, hc⟩ := h
      obtain ⟨rfl, hlive⟩ := hcollect hc fun row hrow => ⟨(hscan hrow).1, .inl (hscan hrow).2⟩
      exact hlive i hi
    | some own =>
      simp only [hversion, bind_ok, read_ok, pure_ok] at h
      obtain ⟨found, σ₃, ⟨rfl, rfl⟩, ids, σ₄, hc, rfl, rfl⟩ := h
      obtain ⟨rfl, hlive⟩ := hcollect hc fun row hrow => by
        obtain ⟨v, -, hrow⟩ := List.mem_flatMap.mp hrow
        exact ⟨(hscan hrow).1, .inr ⟨v, (hscan hrow).2⟩⟩
      -- the pages are merged by their keys and cut: what is left was on one of them
      refine hlive i ?_
      obtain ⟨⟨id, j⟩, hmem, rfl⟩ := List.mem_map.mp hi
      have := (List.perm_insertionSort _ _).mem_iff.mp (List.mem_of_mem_take hmem)
      exact (List.of_mem_zip this).2

/-- What is left of an ended run: everything it is known by, and nothing that could act on it. -/
structure Rests (env : Env) (σ σ' : Rows) (i : String) (s : StoredRun) : Prop where
  frozen : ∃ s', σ'.run.get i = some s' ∧ Frozen s s' ∧ s'.run.fence = none ∧
    s'.run.leaseUntilMs = none ∧ s'.run.held = none
  /-- It is offered to no worker. -/
  not_due : ∀ now limit worker l, (call env σ' (.dueAs now limit worker)).1 = .ok (.ids l) → i ∉ l
  /-- No call hands out a fence for it. -/
  not_claimed : ∀ op f, (call env σ' op).1 = .ok (.fence (some f)) → f.runId ≠ i
  /-- It accepted no copy since. -/
  no_copy : ∀ n e, (σ'.event i).get n = some e → (σ.event i).get n = some e

theorem Path.event_of_ended {c c' : Core} (h : Path env now may c c') (hinv : Inv c) {i : String}
    {s : StoredRun} (hs : c.run.get i = some s) (hended : s.run.endedMs ≠ none) {n : Nat}
    {e : StoredEvent} (he : (c'.event i).get n = some e) : (c.event i).get n = some e := by
  induction h generalizing e with
  | refl => exact he
  | tail hpath hmove ih =>
    have hinv₁ := hinv.path hpath
    obtain ⟨s₁, hs₁, hended₁⟩ := Path.ended_stored hpath hinv hs hended
    exact ih (hmove.event_of_ended hinv₁ hs₁ hended₁ he)

/-- A run that ended accepts no copy, whatever is called. -/
theorem runs_event_of_ended {σ : Rows} (hσ : Good σ) (later : List Op) {i : String} {s : StoredRun}
    (hs : σ.run.get i = some s) (hended : s.run.endedMs ≠ none) {n : Nat} {e : StoredEvent}
    (he : ((runs (step env) σ later).event i).get n = some e) : (σ.event i).get n = some e := by
  induction later generalizing σ s with
  | nil => exact he
  | cons op later ih =>
    obtain ⟨s₁, hs₁, hended₁⟩ := step_ended hσ op hs hended
    exact (step_path env hσ op).event_of_ended hσ.inv hs hended (ih (step_good env hσ op) hs₁ hended₁ he)

/-- What has ended rests. Whatever is called after a run's end, its row stays as it ended (`Frozen`), no
worker is offered the run or gets a fence of it, and its mailbox gets no further copy. -/
theorem ended_rests (env : Env) (history later : List Op) {i : String} {s : StoredRun}
    (hs : (after env history).run.get i = some s) (hended : s.run.endedMs.isSome = true) :
    Rests env (after env history) (after env (history ++ later)) i s := by
  have hne : s.run.endedMs ≠ none := Option.isSome_iff_ne_none.mp hended
  have hσ := good_after env history
  have hσ' := good_after env (history ++ later)
  -- along the history the row stays frozen
  obtain ⟨s', hs', hfrozen⟩ := runs_stored env
    (R := fun s s' => s.run.endedMs ≠ none → Frozen s s')
    (fun s _ => .refl s)
    (fun s s' s'' h h' hne => (h hne).trans (h' (by rw [(h hne).ended]; exact hne)))
    (fun _ _ _ _ _ _ hsane h hne => h.frozen hsane hne) hσ later hs
  rw [← after_append] at hs'
  have hf := hfrozen hne
  have hne' : s'.run.endedMs ≠ none := by rw [hf.ended]; exact hne
  have hsane := hσ'.inv.sane _ _ hs'
  -- an ended run is in no due index, whatever the worker
  have hdue : ∀ now limit worker l, (call env (after env (history ++ later))
      (.dueAs now limit worker)).1 = .ok (.ids l) → i ∉ l := by
    intro now limit worker l hcall hi
    rcases step_cases env (after env (history ++ later)) (.dueAs now limit worker) with
      ⟨-, e, he⟩ | ⟨r, htx, hr⟩
    · rw [he] at hcall
      simp at hcall
    · rw [hr] at hcall
      simp only at hcall
      subst hcall
      obtain ⟨ids, hdue, hids⟩ := map_ok.mp htx
      obtain rfl : l = ids := by simpa using hids
      obtain ⟨t, ht, hlive, -⟩ := dueAs_live hσ' hdue hi
      obtain ⟨t', ht', hended'⟩ := step_ended hσ' (.dueAs now limit worker) hs' hne'
      exact hended' (Option.some.inj (ht'.symm.trans ht) ▸ hlive)
  -- the row is frozen, so each of the four parts is read off the store that the later calls lead to
  exact
    { frozen := ⟨s', hs', hf, (hsane.not_owned hne').1, (hsane.not_owned hne').2,
        (hsane.ended hne').2.1⟩
      not_due := hdue
      not_claimed := by
        rintro op f hcall rfl
        obtain ⟨t, ht, hfence, -⟩ := fence_returned hσ' hcall
        obtain ⟨t', ht', hended'⟩ := step_ended hσ' op hs' hne'
        obtain rfl := Option.some.inj (ht'.symm.trans ht)
        have := ((step_good env hσ' op).inv.sane _ _ ht').not_owned hended'
        simp [this.1] at hfence
      no_copy := fun n e he => by
        rw [after_append] at he
        exact runs_event_of_ended hσ later hs hne he }

/-! ### A run that ends -/

/-- A store whose clock texts are plain numbers and whose waits take every event. -/
def Env.plain : Env :=
  { policy := .default, rfc3339 := fun n => some (toString n), accepts := fun _ _ => .ok true
    digestOf := id, addFloat := fun _ _ => none }

/-- An admission of the first version of a definition. -/
def Admission.plain (id : String) : Admission :=
  { id, name := "w", version := 1, definition := "", input := .null, runtime := .obj [] }

/-- A cancelled run, and later calls for it. -/
theorem cancelled_rests :
    ∃ s, Rests .plain (after .plain [.start (.plain "r") 0 "o", .cancel "r" 1])
      (after .plain ([.start (.plain "r") 0 "o", .cancel "r" 1] ++ [.start (.plain "r") 2 "p"]))
      "r" s := by
  have hended : ((after .plain [.start (.plain "r") 0 "o", .cancel "r" 1]).run.get "r").any
      (·.run.endedMs.isSome) = true := by decide +kernel
  obtain ⟨s, hs, hended⟩ := (Option.any_eq_true _ _).mp hended
  exact ⟨s, ended_rests .plain [.start (.plain "r") 0 "o", .cancel "r" 1] [.start (.plain "r") 2 "p"]
    hs hended⟩

end Ouro
