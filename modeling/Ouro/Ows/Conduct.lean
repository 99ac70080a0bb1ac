import Ouro.Ows.Keeping

/-!
# The constructs of an execution

Every construct of the interpreter keeps the frame of the task it runs in (`Safe`), as long as the tasks inside
it do (`TaskKeeps`): timers and jumps, a call with its intent and its answer, the lists that a task nests, the
attempts of a `try` and the handler of a spent budget. Each is one lemma that follows the construct's own
definition, and lists and attempts are by induction on their fuel.

What a list carries along is where it stands: which task is next, and that the tasks before it have ended and
led there (`Stands`). What an attempt carries along is the decision that allowed it (`Decided`).
-/

namespace Ouro.Interp

open Lib Ows Prog

variable {α : Type} {w : Ows.Workflow} {ceiling : Nat} {l : List Segment} {t : Ows.Task} {s s' : State}
  {J : Table String Record} {nest : Nest} {seg : Segment}

/-! ### Jumps and timers -/

/-- A record other than a task's or a call's, saved where there is none. -/
theorem fresh_safe {kind : RecordKind} {r : Record} (hr : ∀ ms result, r ≠ .task ms (some result))
    (hrule : ∀ J, J.get (recordKey l kind) = none → Rule w ceiling J l kind r) :
    Upholds (frame w ceiling l t) (fun s => s.records.get (recordKey l kind) = none)
      (save (recordKey l kind) r) fun _ _ => True :=
  (save_keeps none hr).mono (fun _ _ hp => ⟨hp, hrule _ hp⟩) fun _ _ _ _ => trivial

theorem Same.get {k : String} {v : Option Record} (h : Same s s') (hget : s.records.get k = v) :
    s'.records.get k = v := by
  rw [h.records, hget]

theorem Env.timer_safe (d : Duration) {kind : RecordKind} (hkind : kind = .wait ∨ ∃ k, kind = .retry k) :
    Safe w ceiling l t (timer d (recordKey l kind)) := by
  unfold timer
  refine Upholds.bind (keeps_gets _) (fun old => ?_) fun _ _ _ => trivial
  split
  · exact (safe_pure _).from
  · exact (quiet_interrupt _).safe.from
  · refine Upholds.at_ (fun s => s.records.get (recordKey l kind) = none) ?_
      fun s _ hp => (Except.ok.inj hp.1).symm
    refine Upholds.bind ((quiet_ask _).keeps fun _ _ hsame => hsame.get) (fun now => ?_) fun _ _ _ => trivial
    refine Upholds.bind (fresh_safe (fun _ _ h => by cases h) fun J hnone => ?_) (fun _ => safe_pure _)
      fun _ _ _ => trivial
    rcases hkind with rfl | ⟨k, rfl⟩
    · exact .wait hnone
    · exact .retry hnone

variable (E : Env)

theorem sleep_safe (d : Duration) {kind : RecordKind} (hkind : kind = .wait ∨ ∃ k, kind = .retry k) :
    Safe w ceiling l t (E.sleep d (recordKey l kind)) := by
  unfold Env.sleep
  refine safe_bind (Env.timer_safe _ hkind) fun deadlineMs => safe_bind (quiet_ask _).safe fun now => ?_
  split
  · exact safe_fail _
  · exact safe_pure _

theorem spend_cases (key : String) (r : Record) (W : Weather) (s : State) :
    Same s (spend key r W s).2 ∨ Same (s.put key r) (spend key r W s).2 := by
  unfold spend
  simp only
  split
  · exact .inr ⟨rfl, rfl, rfl⟩
  · exact .inr ⟨rfl, rfl, rfl⟩
  · exact .inl ⟨rfl, rfl, rfl⟩

theorem takes_none {key : String} {r : Record} (h : J.get key = none) : takes J key r = true := by
  rw [takes, h]
  rfl

theorem spendUnit_keeps : Upholds (frame w ceiling l t) (fun s => s.records.get (recordKey l .jump) = none)
    (E.spendUnit (recordKey l .jump)) fun _ _ => True := by
  unfold Env.spendUnit
  -- the budget is the journal's, which answers, or the run's own
  refine Upholds.bind ((quiet_ask _).keeps fun _ _ hsame => hsame.get) (fun answer => ?_) fun _ _ _ => trivial
  split
  · next granted spent first =>
    refine Upholds.via (fun _ _ => True) ?_ (fun _ => ?_) fun _ _ _ => trivial
    -- the save was lost, or the journal has the decision
    · intro W s hs hnone
      rcases spend_cases (recordKey l .jump) (.budget granted spent first) W s with hsame | hsame
      · exact ⟨hsame.going, hsame.around hs, trivial⟩
      · have hput := hs.put (takes_none hnone) (r := .budget granted spent first) fun _ _ h => by cases h
        refine ⟨⟨?_, ?_⟩, hsame.around hput, trivial⟩
        · rw [hsame.log]
          exact hs.saves (takes_none hnone) (.jump hnone)
        · rw [hsame.attempts]
          exact List.Subset.refl _
    · unfold decided
      split
      · exact safe_pure _
      · exact safe_pure _
      · exact (quiet_interrupt _).safe
  -- without a store that counts, the run counts for itself
  · refine Upholds.bind ((quiet_gets _).keeps fun _ _ hsame => hsame.get) (fun spent => ?_) fun _ _ _ => trivial
    refine Upholds.bind ((quiet_gets _).keeps fun _ _ hsame => hsame.get) (fun earlier => ?_) fun _ _ _ => trivial
    exact Upholds.bind (fresh_safe (fun _ _ h => by cases h) fun J => .jump) (fun _ => safe_pure _)
      fun _ _ _ => trivial

theorem jump_safe : Safe w ceiling l t (E.jump l) := by
  unfold Env.jump
  refine safe_bind (quiet_gets _).safe fun handler => ?_
  split
  · exact safe_fail _
  · refine Upholds.bind (keeps_gets _) (fun old => ?_) fun _ _ _ => trivial
    split
    · unfold decided
      split
      · exact (safe_pure _).from
      · exact (safe_pure _).from
      · exact (quiet_interrupt _).safe.from
    · refine Upholds.bind ((spendUnit_keeps E).mono (fun s _ hp => (Except.ok.inj hp.1).symm) fun _ _ _ => id)
        (fun first => safe_bind (safe_sets fun s => ⟨rfl, rfl, rfl⟩) fun _ => safe_pure _) fun _ _ _ => trivial

/-! ### Lists -/

/-- The faults that a `catch` may take. -/
def catchable : Fault → Bool
  | .error _ => true
  | .fatal e => decide (e.type_ = callUnknown)
  | _ => false

/-- No `catch` takes a fatal standard error. -/
theorem standard_not_catchable {e : WorkflowError} {kind : String} (h : e.type_ = standardErrors ++ kind) :
    catchable (.fatal e) = false := by
  rw [catchable, h, decide_eq_false_iff_not]
  intro heq
  have hletters := congrArg (fun s => s.toList.take 5) heq
  rw [String.toList_append, List.take_append_of_le_length (by decide)] at hletters
  exact absurd hletters (by decide)

/-- What a task leaves: a result, when it completes or its fault may be caught. -/
def Leaves (J : Table String Record) (l : List Segment) : Except Fault (Json × Flow) → Prop
  | .ok out => flowOf J l = some out.2
  | .error e => catchable e = true → Faulted J l

/-- An execution comes to the segment, and the attempts around where it leads are registered. -/
def Reaches (w : Ows.Workflow) (l : List Segment) (t : Ows.Task) (seg : Segment) (s : State) : Prop :=
  Placed w s.records l t seg ∧ Ows.Registered s.attempts (l ++ [seg])

theorem Same.reaches (h : Same s s') (hs : Reaches w l t seg s) : Reaches w l t seg s' := by
  unfold Reaches
  rw [h.records, h.attempts]
  exact hs

/-- A task is run from the one around it, when an execution comes to it. -/
def TaskKeeps (w : Ows.Workflow) (ceiling : Nat) (task : TaskFn) : Prop :=
  ∀ (t : Task) (name : String) (l : List Segment) (t₀ : Ows.Task) (seg : Segment) (raw : Json) (scope : Scope),
    seg.task w t₀ = some t.erase →
    Upholds (frame w ceiling l t₀) (Reaches w l t₀ seg) (task t name (l ++ [seg]) raw scope)
      fun r s => Leaves s.records (l ++ [seg]) r

/-- The attempt, unless it is the first, is registered. -/
def Enrolled (attempts : List Attempt) (l : List Segment) : Nest → Prop
  | .attempt k => k ≠ 1 → ∃ a ∈ attempts, a.1 = reference l ++ (Nest.attempt k).spell ∧ a.2.2 = k
  | _ => True

theorem Enrolled.registered {attempts : List Attempt} {index visit : Nat} {name : String}
    (h : Enrolled attempts l nest) (hl : Ows.Registered attempts l) :
    Ows.Registered attempts (l ++ [.list nest index name visit]) := by
  intro first k index' name' visit' later hcut hk
  rcases List.eq_nil_or_concat later with rfl | ⟨later', last, rfl⟩
  · obtain ⟨rfl, hseg⟩ := List.append_inj' hcut rfl
    cases hseg
    exact h hk
  · rw [List.concat_eq_append, ← List.cons_append, ← List.append_assoc] at hcut
    obtain ⟨hl', -⟩ := List.append_inj' hcut rfl
    exact hl first k index' name' visit' later' hl' hk

theorem registered_mono {attempts attempts' : List Attempt} (h : Ows.Registered attempts l)
    (hsub : attempts ⊆ attempts') : Ows.Registered attempts' l := by
  intro first k index name visit later hcut hk
  obtain ⟨a, ha, heq⟩ := h first k index name visit later hcut hk
  exact ⟨a, hsub ha, heq⟩

theorem Enrolled.mono {attempts attempts' : List Attempt} (h : Enrolled attempts l nest)
    (hsub : attempts ⊆ attempts') : Enrolled attempts' l nest := by
  cases nest with
  | attempt k => exact fun hk => let ⟨a, ha, heq⟩ := h hk; ⟨a, hsub ha, heq⟩
  | _ => trivial

theorem names_erase (tasks : TaskList) : (eraseList tasks).map Prod.fst = tasks.map Prod.fst := by
  rw [eraseList_eq, List.map_map]
  rfl

/-- An execution of a list is at a position. -/
def Stands (tasks : TaskList) (l : List Segment) (nest : Nest) (i : Nat) (visits : Nat → Nat) (s : State) : Prop :=
  (∃ n, passed s.records l nest ((eraseList tasks).map Prod.fst) n = some (i, visits)) ∧
    Begun s.records l nest ∧ Enrolled s.attempts l nest

theorem Going.stands {tasks : TaskList} {i : Nat} {visits : Nat → Nat} (h : Going w ceiling l s s')
    (hs : Around w l t s) (hs' : Around w l t s') (hstands : Stands tasks l nest i visits s) :
    Stands tasks l nest i visits s' :=
  let ⟨⟨n, hpassed⟩, hbegun, henrolled⟩ := hstands
  have hgrows := h.grows hs hs'
  ⟨⟨n, passed_grows hpassed hgrows⟩, hbegun.grows hgrows, henrolled.mono h.attempts⟩

variable {task : TaskFn}

/-- A list that ends in a fault that may be caught has failed. -/
theorem list_keeps (htask : TaskKeeps w ceiling task) {tasks : TaskList}
    (hnested : t.nested w nest = some (eraseList tasks)) (scope : Scope) (fuel i : Nat) (visits : Nat → Nat)
    (data : Json) :
    Upholds (frame w ceiling l t) (Stands tasks l nest i visits)
      (E.list task tasks l nest scope fuel i visits data)
      fun r s => ∀ k e, nest = .attempt k → r = .error e → catchable e = true → Failed w s.records l k := by
  -- what is left to show is needed of caught faults only; others end the list
  have hno : ∀ (e : Fault) (s : State), catchable e = false → ∀ k e', nest = .attempt k →
      (.error e : Except Fault Next) = .error e' → catchable e' = true → Failed w s.records l k := by
    rintro e s he k e' - heq hcatch
    cases heq
    rw [he] at hcatch
    cases hcatch
  -- induction on the fuel; a position past the end is the end of the list
  induction fuel generalizing i visits data with
  | zero => exact (keeps_fail _).weaken fun r s hr => hr.1 ▸ hno _ s rfl
  | succ fuel ih =>
    unfold Env.list
    split
    · exact (keeps_pure _).weaken fun r s hr k e _ heq => by rw [hr.1] at heq; cases heq
    · next name t' hget =>
      refine Upholds.intro fun s₀ hs₀ _ => ?_
      have hfollow := hs₀.current.follow
      have hname : ((eraseList tasks).map Prod.fst)[i]? = some name := by
        rw [names_erase, List.getElem?_map, hget, Option.map_some]
      -- the segment leads from the task around to this one
      have hsegment : (Segment.list nest i name (visits i)).task w t = some t'.erase := by
        rw [Segment.task, hnested, Option.bind_some, taskAt_erase hget]
      refine Upholds.bind (keeps_gets _) (fun jumps => ?_) fun e s hr => by cases hr.1
      refine Upholds.at_ (Stands tasks l nest i visits) ?_ fun _ _ hp => hp.2
      refine Upholds.via (fun r s => Leaves s.records (l ++ [.list nest i name (visits i)]) r ∧
        Stands tasks l nest i visits s) ?_ (fun out => ?_) ?_
      -- the task itself: it reaches its place in the list, and the place stays while it runs
      · refine ((htask t' name l t _ data _ hsegment).lasts fun s s' hs hs' hgoing =>
          hgoing.stands hs hs').mono (fun s hs hstands => ?_) fun _ _ _ => id
        obtain ⟨⟨n, hpassed⟩, hbegun, henrolled⟩ := hstands
        exact ⟨⟨⟨_, n, visits, hnested, hpassed, rfl, hbegun⟩, henrolled.registered hs.registered⟩,
          ⟨n, hpassed⟩, hbegun, henrolled⟩
      · obtain ⟨out, flow⟩ := out
        -- where it leads, the list stands one task further
        have hnext : ∀ j, onward ((eraseList tasks).map Prod.fst) i flow = some j → ∀ s,
            Leaves s.records (l ++ [.list nest i name (visits i)]) (.ok (out, flow)) ∧
              Stands tasks l nest i visits s →
            Stands tasks l nest j (Function.update visits i (visits i + 1)) s := by
          rintro j hj s ⟨hleaves, ⟨n, hpassed⟩, hbegun, henrolled⟩
          exact ⟨⟨n + 1, passed_succ hpassed hname hleaves hj⟩, hbegun, henrolled⟩
        -- on, out, or to a task of the name
        cases flow with
        | «continue» => exact (ih _ _ _).mono (fun s _ => hnext _ rfl s) fun _ _ _ => id
        | exit => exact (keeps_pure _).weaken fun r s hr k e _ heq => by rw [hr.1] at heq; cases heq
        | «end» => exact (keeps_pure _).weaken fun r s hr k e _ heq => by rw [hr.1] at heq; cases heq
        | goto target =>
          simp only
          split
          · next j hj =>
            refine (ih _ _ _).mono (fun s _ => hnext _ ?_ s) fun _ _ _ => id
            rw [onward, names_erase, List.findIdx?_map]
            exact hj
          · exact (keeps_fail _).weaken fun r s hr => hr.1 ▸ hno _ s (standard_not_catchable rfl)
      -- a fault that may be caught is that of the failed attempt
      · rintro e s ⟨hleaves, ⟨n, hpassed⟩, -⟩ k e' rfl heq hcatch
        cases heq
        exact ⟨t, _, n, i, visits, name, hfollow, hnested, hpassed, hname, hleaves hcatch⟩

/-- A list that is not an attempt's may be run from its start. -/
theorem listOf_safe (htask : TaskKeeps w ceiling task) {tasks : TaskList}
    (hnested : t.nested w nest = some (eraseList tasks)) (hnest : ∀ k, nest ≠ .attempt k) (fuel : Nat) (data : Json)
    (scope : Scope) : Safe w ceiling l t (E.listOf task fuel tasks l nest data scope) := by
  refine (list_keeps E htask hnested scope fuel 0 (fun _ => 0) data).mono (fun s _ _ => ⟨⟨0, rfl⟩, ?_, ?_⟩)
    fun _ _ _ _ => trivial
  · cases nest with
    | attempt k => exact absurd rfl (hnest k)
    | _ => trivial
  · cases nest with
    | attempt k => exact absurd rfl (hnest k)
    | _ => trivial

/-- An attempt that may begin is run from its start, and has failed when a `catch` may take its fault. -/
theorem attemptList_keeps (htask : TaskKeeps w ceiling task) {tasks : TaskList} {k : Nat}
    (hnested : t.nested w (.attempt k) = some (eraseList tasks)) (fuel : Nat) (data : Json) (scope : Scope) :
    Upholds (frame w ceiling l t) (fun s => Begun s.records l (.attempt k) ∧ Enrolled s.attempts l (.attempt k))
      (E.listOf task fuel tasks l (.attempt k) data scope)
      fun r s => ∀ e, r = .error e → catchable e = true → Failed w s.records l k :=
  (list_keeps E htask hnested scope fuel 0 (fun _ => 0) data).mono (fun _ _ hp => ⟨⟨0, rfl⟩, hp⟩)
    fun _ _ _ h e => h k e rfl

/-! ### Inside a task -/

variable {t' : Task}

theorem extending_keeps (raw ctx : Json) (scope : Scope) (described : Json)
    (rows : List ((String × Extension) × Nat)) :
    Upholds (frame w ceiling l t) (fun _ => True) (E.extending t' raw ctx scope described rows)
      fun r _ => ∀ out, r = .ok out → ∀ x ∈ out, ((x.2.1, x.2.2), x.1) ∈ rows ∧
        x.2.2.erase.extends t'.erase.kind = true := by
  induction rows with
  | nil =>
    refine (keeps_pure _).weaken fun r s hr out hout x hx => ?_
    rw [hr.1] at hout
    cases hout
    cases hx
  | cons row rest ih =>
    -- the row is asked first, and then the others
    obtain ⟨⟨name, e⟩, i⟩ := row
    unfold Env.extending
    refine Upholds.via (fun r _ => r = .ok true → e.erase.extends t'.erase.kind = true) ?_ (fun hit => ?_)
      fun _ _ _ _ h => by cases h
    -- a row whose extension does not apply is not asked further
    · split
      · next hextends =>
        exact (E.quiet_test _ _ (E.quiet_args _ _ _ _ _)).safe.weaken fun _ _ _ _ => hextends
      · refine (keeps_pure _).weaken fun r s hr htrue => ?_
        rw [hr.1] at htrue
        cases htrue
    · refine Upholds.intro fun s _ hhit => ?_
      refine Upholds.bind (Upholds.at_ _ ih fun _ _ _ => trivial) (fun out => ?_) fun _ _ _ _ h => by cases h
      refine (keeps_pure _).weaken fun r s hr all hall x hx => ?_
      obtain ⟨hr, hout⟩ := hr
      rw [hr] at hall
      obtain rfl := Except.ok.inj hall
      have hrest : x ∈ out → ((x.2.1, x.2.2), x.1) ∈ ((name, e), i) :: rest ∧
          x.2.2.erase.extends t'.erase.kind = true := by
        intro hx
        obtain ⟨hmem, hextends⟩ := hout out rfl x hx
        exact ⟨List.mem_cons_of_mem _ hmem, hextends⟩
      -- what is found is this row's, or one of the others'
      split at hx
      · next htrue =>
        rcases List.mem_cons.mp hx with rfl | hx
        · exact ⟨List.mem_cons_self, hhit (by rw [htrue])⟩
        · exact hrest hx
      · exact hrest hx

/-- The extensions found around a task are the definition's. -/
theorem extensions_keeps (raw ctx : Json) (scope : Scope) (desc : Json) :
    Upholds (frame w ceiling l t) (fun _ => True) (E.extensions t' l raw ctx scope desc)
      fun r _ => ∀ out, r = .ok out → ∀ x ∈ out.1, E.wf.extensions[x.1]? = some (x.2.1, x.2.2) ∧
        x.2.2.erase.extends t'.erase.kind = true := by
  unfold Env.extensions
  split
  · refine (keeps_pure _).weaken fun r s hr out hout x hx => ?_
    rw [hr.1] at hout
    cases hout
    cases hx
  · refine Upholds.bind (extending_keeps E _ _ _ _ _) (fun out => ?_) fun _ _ _ _ h => by cases h
    refine (keeps_pure _).weaken fun r s hr found hfound x hx => ?_
    obtain ⟨hr, hout⟩ := hr
    rw [hr] at hfound
    obtain rfl := Except.ok.inj hfound
    obtain ⟨hmem, hextends⟩ := hout out rfl x hx
    exact ⟨List.mem_zipIdx_iff_getElem?.mp hmem, hextends⟩

theorem layer_safe (htask : TaskKeeps E.wf.erase ceiling task) (fuel : Nat) (around : Scope)
    {kind : Json → M (Json × Option Flow)} (hkind : ∀ v, Safe E.wf.erase ceiling l t'.erase (kind v))
    {rows : List (Nat × String × Extension)}
    (hrows : ∀ x ∈ rows, E.wf.extensions[x.1]? = some (x.2.1, x.2.2) ∧
      x.2.2.erase.extends t'.erase.kind = true) (input : Json) :
    Safe E.wf.erase ceiling l t'.erase (E.layer task fuel l around kind rows input) := by
  induction rows generalizing input with
  | nil => exact hkind input
  | cons row rest ih =>
    obtain ⟨index, name, e⟩ := row
    obtain ⟨hget, hextends⟩ := hrows _ List.mem_cons_self
    -- the extension is that of its position in the definition
    have hextension : E.wf.erase.extension t'.erase index name = some e.erase := by
      rw [Workflow.extension]
      change ((E.wf.extensions.map fun e => (e.1, e.2.erase))[index]?).bind _ = _
      rw [List.getElem?_map, hget, Option.map_some, Option.bind_some, if_pos ⟨rfl, hextends⟩]
    unfold Env.layer
    refine safe_bind ?_ fun next => ?_
    -- its `before` list
    · split
      · exact safe_pure _
      · next before hbefore =>
        refine listOf_safe E htask ?_ (fun _ h => by cases h) _ _ _
        rw [Task.nested, hextension, Option.bind_some, Extension.erase, hbefore, Option.map_some]
    · split
      · exact safe_pure _
      · exact safe_pure _
      -- the layers inside, and its `after` list
      · refine safe_bind (ih (fun x hx => hrows x (List.mem_cons_of_mem _ hx)) _) fun out => ?_
        obtain ⟨out, flow⟩ := out
        simp only
        split
        · exact safe_pure _
        · next after hafter =>
          refine safe_bind (listOf_safe E htask ?_ (fun _ h => by cases h) _ _ _) fun next => ?_
          · rw [Task.nested, hextension, Option.bind_some, Extension.erase, hafter, Option.map_some]
          · split <;> exact safe_pure _

theorem passes_safe (htask : TaskKeeps w ceiling task) (fuel : Nat) {each at_ : String} {items : Items}
    {condition : Option String} {tasks : TaskList} (hkind : t.kind = .for_ items condition none (eraseList tasks))
    (input desc : Json) (scope : Scope) (rows : List (Json × Nat)) (data : Json) :
    Safe w ceiling l t (E.passes task fuel each at_ condition tasks l input desc scope rows data) := by
  induction rows generalizing data with
  | nil => exact safe_pure _
  | cons row rest ih =>
    obtain ⟨item, i⟩ := row
    unfold Env.passes
    refine safe_bind ((E.quiet_test _ _ (quiet_bind (quiet_gets _) fun ctx => E.quiet_args _ _ _ _ _)).safe)
      fun goes => ?_
    split
    · refine safe_bind (listOf_safe E htask (by rw [Task.nested, hkind]) (fun _ h => by cases h) _ _ _)
        fun next => ?_
      split
      · exact ih _
      · exact ih _
      · exact safe_pure _
    · exact safe_pure _

/-- An invocation that is no task of a list adds no attempt. -/
theorem registered_enter {attempts : List Attempt} (h : Ows.Registered attempts l)
    (hseg : ∀ nest index name visit, seg ≠ .list nest index name visit) : Ows.Registered attempts (l ++ [seg]) := by
  intro first k index name visit later hcut hk
  rcases List.eq_nil_or_concat later with rfl | ⟨later', last, rfl⟩
  · obtain ⟨-, heq⟩ := List.append_inj' hcut rfl
    exact absurd (List.singleton_inj.mp heq) (hseg _ _ _ _)
  · rw [List.concat_eq_append, ← List.cons_append, ← List.append_assoc] at hcut
    obtain ⟨hl', -⟩ := List.append_inj' hcut rfl
    exact h first k index name visit later' hl' hk

theorem find_erase (functions : TaskList) (name : String) :
    (eraseList functions).find? (fun f => f.1 = name) =
      (functions.find? fun f => f.1 = name).map fun f => (f.1, f.2.erase) := by
  rw [eraseList_eq, List.find?_map]
  rfl

theorem call_safe (htask : TaskKeeps E.wf.erase ceiling task) {target : Target}
    (htarget : ∀ name, target = .function name → ∃ function with_, t.kind = .call function with_ ∧
      functionName function = name) (args : Json) (delivery : Delivery) :
    Safe E.wf.erase ceiling l t (E.call task target args l delivery) := by
  unfold Env.call
  split
  · exact hostCall_safe E _ _ _
  · next name =>
    obtain ⟨function, with_, hkind, hname⟩ := htarget name rfl
    split
    · exact hostCall_safe E _ _ _
    · next name' function' hfind =>
      split
      · exact safe_fail _
      · have hsegment : (Segment.function name).task E.wf.erase t = some function'.erase := by
          rw [Segment.task, hkind]
          change (if functionName function = name then
            ((eraseList E.wf.functions).find? fun f => f.1 = name).map Prod.snd else none) = _
          rw [if_pos hname, find_erase, hfind]
          rfl
        refine safe_bind ?_ fun out => safe_pure _
        refine (htask function' name l t _ args [] hsegment).mono (fun s hs _ => ⟨trivial, ?_⟩)
          fun _ _ _ _ => trivial
        exact registered_enter hs.registered fun _ _ _ _ h => by cases h

theorem runProcess_safe (r : RunTask) (input : Json) (args : Args) (delivery : Delivery) :
    Safe w ceiling l t (E.runProcess task r l input args delivery) := by
  unfold Env.runProcess
  refine safe_bind (E.quiet_template _ _ _).safe fun definition => safe_bind ?_ fun result => safe_pure _
  exact hostCall_safe E _ _ _

/-! ### Refused jumps -/

theorem runHandler_safe (htask : TaskKeeps E.wf.erase ceiling task) {handler : Task}
    (hhandler : E.wf.budget.onExceeded = .task handler) (output : Json) (scope : Scope) :
    Safe E.wf.erase ceiling l t (Env.runHandler task handler l output scope) := by
  have hexceeded : E.wf.erase.onExceeded = .task handler.erase := by
    change E.wf.budget.onExceeded.erase = _
    rw [hhandler]
    rfl
  have hsegment : Segment.exceeded.task E.wf.erase t = some handler.erase := by
    rw [Segment.task, hexceeded]
  unfold Env.runHandler
  refine safe_bind (safe_sets fun s => ⟨rfl, rfl, rfl⟩) fun _ => safe_handle ?_ fun result => ?_
  · refine (htask handler _ l t _ output scope hsegment).mono (fun s hs _ => ⟨trivial, ?_⟩) fun _ _ _ _ => trivial
    exact registered_enter hs.registered fun _ _ _ _ h => by cases h
  · exact safe_bind (safe_sets fun s => ⟨rfl, rfl, rfl⟩) fun _ => safe_pure _

theorem onExceeded_safe (htask : TaskKeeps E.wf.erase ceiling task) (first : String) (output : Json)
    (scope : Scope) : Safe E.wf.erase ceiling l t (E.onExceeded task l first output scope) := by
  unfold Env.onExceeded
  split
  · exact (quiet_raise _).safe
  · split
    · refine safe_bind (quiet_gets _).safe fun fault => ?_
      split <;> exact safe_fail _
    · refine safe_bind ?_ fun fault => safe_bind (safe_sets fun s => ⟨rfl, rfl, rfl⟩) fun _ => safe_fail _
      unfold Env.actOnExceeded
      split
      · exact safe_pure _
      · exact safe_pure _
      · next handler hhandler => exact runHandler_safe E htask hhandler _ _

/-! ### Attempts -/

/-- A policy allows another attempt only below the host's ceiling. -/
theorem retryDelay_ceiling {φ : Type} {d : Deciding φ} {input : Json} {args : Args} {retry : Retry}
    {attempt : AttemptNumber} {began : Int64} {delay : Duration}
    (h : d.retryDelay input args retry attempt began = .ok (some delay)) :
    attempt.1.toNat < d.maxAttempts.toNat := by
  obtain ⟨going, -, h⟩ := Deciding.bind_ok.mp h
  split at h
  · cases h
  · split at h
    · cases h
    · next hused =>
      rw [Bool.not_eq_true, Deciding.usedUp, decide_eq_false_iff_not] at hused
      change ¬(if retry.attempts.getD d.maxAttempts ≤ d.maxAttempts then retry.attempts.getD d.maxAttempts
        else d.maxAttempts) ≤ attempt.1 at hused
      split at hused
      · next hle =>
        rw [UInt32.le_iff_toNat_le] at hused hle
        omega
      · rw [UInt32.le_iff_toNat_le] at hused
        omega

theorem delay_keeps (c : Catch) (number : AttemptNumber) (began : Int) (input : Json) (args : Args)
    (hpre : ∀ s s', Same s s' → pre s → pre s') :
    Upholds (frame w ceiling l t) pre (E.delay c l number began input args)
      fun r s => pre s ∧ ∀ d, r = .ok (some d) → number.1.toNat < E.host.limits.maxAttempts.toNat := by
  unfold Env.delay
  refine Upholds.bind ((quiet_gets _).keeps hpre) (fun blocked => ?_) fun e s hp => ⟨hp, fun d h => by cases h⟩
  split
  · refine (keeps_pure _).weaken fun r s hr => ⟨hr.2, fun d h => ?_⟩
    rw [hr.1] at h
    cases h
  · next retry hretry =>
    split
    · refine (keeps_pure _).weaken fun r s hr => ⟨hr.2, fun d h => ?_⟩
      rw [hr.1] at h
      cases h
    · refine Upholds.bind ((quiet_ask _).keeps hpre) (fun now => ?_) fun e s hp => ⟨hp, fun d h => by cases h⟩
      refine (keeps_lift _).weaken fun r s hr => ⟨hr.2, fun d h => ?_⟩
      rw [hr.1] at h
      cases hdelay : (E.deciding now).retryDelay input args retry number (Int64.ofInt began) with
      | error e => rw [hdelay] at h; cases h
      | ok delay =>
        rw [hdelay] at h
        obtain rfl := Except.ok.inj h
        exact retryDelay_ceiling hdelay

/-- Another attempt follows only a decision in the journal. -/
def Decided (l : List Segment) (k : Nat) (s : State) : Prop :=
  ∃ delay, s.records.get (recordKey l (.decision k)) = some (.retry (some delay))

theorem Going.decided {k : Nat} (h : Going w ceiling l s s') (hs : Around w l t s) (hs' : Around w l t s')
    (hdecided : Decided l k s) : Decided l k s' :=
  let ⟨delay, hget⟩ := hdecided
  ⟨delay, h.grows hs hs' _ _ hget rfl⟩

theorem retryDecision_keeps (c : Catch) (number : AttemptNumber) (began : Int) (input : Json) (args : Args) :
    Upholds (frame w E.host.limits.maxAttempts.toNat l t) (fun s => Failed w s.records l number.1.toNat)
      (E.retryDecision c l number began input args)
      fun r s => ∀ d, r = .ok (some d) → Decided l number.1.toNat s := by
  unfold Env.retryDecision
  refine Upholds.bind (keeps_gets _) (fun old => ?_) fun e s _ d h => by cases h
  -- the decision is in the journal, another record is, or none
  split
  · next delayMs =>
    refine (keeps_pure _).weaken fun r s hr d h => ?_
    obtain ⟨hr, hget, -⟩ := hr
    rw [hr] at h
    cases delayMs with
    | none => cases h
    | some delay => exact ⟨delay, (Except.ok.inj hget).symm⟩
  · exact (keeps_fail _).weaken fun r s hr d h => by rw [hr.1] at h; cases h
  -- it is made now, about the attempt that has failed
  · refine Upholds.at_ (fun s => Failed w s.records l number.1.toNat ∧
        s.records.get (recordKey l (.decision number.1.toNat)) = none) ?_
      fun s _ hp => ⟨hp.2, (Except.ok.inj hp.1).symm⟩
    have hsame : ∀ s s', Same s s' → (Failed w s.records l number.1.toNat ∧
        s.records.get (recordKey l (.decision number.1.toNat)) = none) →
        Failed w s'.records l number.1.toNat ∧
          s'.records.get (recordKey l (.decision number.1.toNat)) = none := fun s s' h hp => by
      rw [h.records]
      exact hp
    refine Upholds.bind (delay_keeps E c number began input args hsame) (fun delay => ?_)
      fun e s _ d h => by cases h
    refine Upholds.via (fun r s => r = .ok () → s.records.get (recordKey l (.decision number.1.toNat)) =
      some (.retry (delay.map Env.wholeMillis))) ?_ (fun _ => ?_) fun e s _ d h => by cases h
    -- it is saved when it may be: the delay was granted under the ceiling
    · refine (save_keeps none fun _ _ h => by cases h).mono (fun s _ hp => ?_) fun r s _ hsaved hok =>
        (hsaved hok).1
      obtain ⟨⟨hfailed, hnone⟩, hceiling⟩ := hp
      refine ⟨hnone, .decision hnone hfailed fun hsome => ?_⟩
      obtain ⟨d, rfl⟩ := Option.isSome_iff_exists.mp (by simpa using hsome)
      exact hceiling d rfl
    -- what was saved is what the attempts go by
    · refine (keeps_pure _).weaken fun r s hr d h => ?_
      obtain ⟨hr, hget⟩ := hr
      rw [hr] at h
      obtain rfl := Except.ok.inj h
      exact ⟨Env.wholeMillis d, hget rfl⟩

/-- The attempt is registered before its tasks run. -/
theorem register_keeps {tasks : Ows.TaskList} {k : Nat} (hnested : t.nested w (.attempt k) = some tasks) :
    Upholds (frame w ceiling l t) (fun s => Begun s.records l (.attempt k))
      (Prog.sets fun s => { s with attempts := s.attempts ++
        [(reference l ++ (Nest.attempt k).spell, reference l ++ (Nest.attempt 1).spell, k)] } : M Unit)
      fun _ s => Begun s.records l (.attempt k) ∧ Enrolled s.attempts l (.attempt k) := by
  intro W s hs hbegun
  have hsub : s.attempts ⊆ s.attempts ++
      [(reference l ++ (Nest.attempt k).spell, reference l ++ (Nest.attempt 1).spell, k)] :=
    List.subset_append_left _ _
  refine ⟨⟨.refl, hsub⟩, ⟨hs.journal, hs.current, ?_, registered_mono hs.registered hsub⟩, hbegun, fun _ => ?_⟩
  · intro a ha
    rcases List.mem_append.mp ha with ha | ha
    · exact hs.registers a ha
    · obtain rfl := List.mem_singleton.mp ha
      exact ⟨l, t, tasks, hs.current.follow, hnested, rfl, rfl⟩
  · exact ⟨_, List.mem_append_right _ (List.mem_singleton_self _), rfl, rfl⟩

theorem caughtFault_catchable {c : Catch} {fault : Fault} {found : WorkflowError × Bool}
    (h : Env.caughtFault c fault = some found) : catchable fault = true := by
  cases fault with
  | error e => rfl
  | fatal e =>
    rw [Env.caughtFault] at h
    split_ifs at h with hunknown
    exact decide_eq_true hunknown.1
  | _ => cases h

theorem attempt_safe (htask : TaskKeeps w E.host.limits.maxAttempts.toNat task) {tasks : TaskList} {c : Catch}
    (hkind : t.kind = .try_ (eraseList tasks) c.erase) (fuel : Nat) (input : Json) (scope : Scope)
    (desc snapshot : Json) (began : Int) (more : Nat) (number : AttemptNumber) :
    Upholds (frame w E.host.limits.maxAttempts.toNat l t) (fun s => Begun s.records l (.attempt number.1.toNat))
      (E.attempt task fuel tasks c l input scope desc snapshot began more number) fun _ _ => True := by
  -- induction on the attempts that are left to the limit
  induction more generalizing number with
  | zero => exact (safe_fail _).from
  | succ more ih =>
    have hnested : t.nested w (.attempt number.1.toNat) = some (eraseList tasks) := by
      rw [Task.nested, hkind]
      exact if_neg (Nat.ne_of_gt number.2)
    unfold Env.attempt
    -- the attempt is registered, and its list run
    refine Upholds.bind (register_keeps hnested) (fun _ => ?_) fun _ _ _ => trivial
    refine Upholds.handle (attemptList_keeps E htask hnested fuel input scope) fun result => ?_
    split
    · exact (safe_pure _).from
    · next fault =>
      -- done, or a fault that no `try` catches
      split
      · exact (safe_fail _).from
      · next error isUnknown hcaught =>
        -- the attempt has failed, and what is asked about it changes nothing
        refine Upholds.at_ (fun s => Failed w s.records l number.1.toNat) ?_
          fun s _ hp => hp _ rfl (caughtFault_catchable hcaught)
        have hsame : ∀ s s', Same s s' → Failed w s.records l number.1.toNat →
            Failed w s'.records l number.1.toNat := fun s s' h hp => by rw [h.records]; exact hp
        refine Upholds.bind ((quiet_gets _).keeps hsame) (fun ctx => ?_) fun _ _ _ => trivial
        refine Upholds.bind ((E.quiet_args _ _ _ _ _).keeps hsame) (fun args => ?_) fun _ _ _ => trivial
        refine Upholds.bind ((E.quiet_catches _ _ _ _).keeps hsame) (fun catches => ?_) fun _ _ _ => trivial
        -- it is not caught here, or it is decided about another attempt
        split
        · exact (safe_fail _).from
        · refine Upholds.bind (retryDecision_keeps E c number began input args) (fun decision => ?_)
            fun _ _ _ => trivial
          split
          -- another attempt, after its delay
          · next delay =>
            refine Upholds.at_ (fun s => True ∧ Decided l number.1.toNat s) ?_ fun s _ hp => ⟨trivial, hp _ rfl⟩
            have hsleep : Safe w E.host.limits.maxAttempts.toNat l t
                (E.sleep delay (recordKey l (.retry number.1.toNat))) := sleep_safe E delay (.inr ⟨_, rfl⟩)
            have hsleep := hsleep.lasts fun s s' hs hs' hgoing (hp : Decided l number.1.toNat s) =>
              hgoing.decided hs hs' hp
            refine Upholds.bind hsleep (fun _ => ?_) fun _ _ _ => trivial
            -- the delay is over, and the decision stands
            refine Upholds.at_ (Decided l number.1.toNat) ?_ fun s _ hp => hp.2
            have hset : Quiet (Prog.sets fun s => { s with ctx := snapshot } : M Unit) :=
              quiet_sets fun s => ⟨rfl, rfl, rfl⟩
            have hdecided : ∀ s s', Same s s' → Decided l number.1.toNat s → Decided l number.1.toNat s' := by
              intro s s' h hp
              obtain ⟨ms, hget⟩ := hp
              exact ⟨ms, h.get hget⟩
            refine Upholds.bind (hset.keeps hdecided) (fun _ => ?_) fun _ _ _ => trivial
            -- the number of the next attempt
            split
            · next hfits =>
              refine (ih _).mono (fun s _ hp _ => ?_) fun _ _ _ => id
              rw [UInt32.toNat_add, UInt32.toNat_one, Nat.mod_eq_of_lt hfits, Nat.add_sub_cancel]
              exact hp
            · exact (safe_fail _).from
          -- no more attempts: the handler, if there is one
          · split
            · exact (safe_pure _).from
            · next handler hhandler =>
              refine Safe.from (safe_bind (listOf_safe E htask ?_ (fun _ h => by cases h) _ _ _) fun next =>
                safe_pure _)
              rw [Task.nested, hkind]
              change c.erase.tasks = _
              rw [Catch.erase_tasks, hhandler, Option.map_some]

end Ouro.Interp
