import Ouro.Durable.Control

/-!
# What a transaction leaves alone

The transactions on runs write the rows of runs and their index, and nothing else: a relation that
such a write keeps (`RunFrame`) relates the store before and after each of them. The transactions on
triggers and definitions write their own rows too: a relation that their bookkeeping keeps, and every
trigger they write in place of the stored one (`CatalogFrame`), relates the store before and after
each of them, a firing apart. None writes the audit rows of the operator (`Unaudited`), which only
commands do.
-/

namespace Ouro

open Lib Tx

/-! ### Transactions on runs -/

/-- A relation that every write of run rows and of their index keeps. -/
class RunFrame (R : Rows → Rows → Prop) : Prop extends IsPreorder Rows R where
  core : ∀ (σ : Rows) (c : Core) (index : Table IndexKey IndexValue),
    R σ { σ with toCore := c, index := index }

namespace Engine

section Runs

variable {env : Env} {now : Int} {R : Rows → Rows → Prop} [RunFrame R]

/-- A write of run rows. -/
theorem core_frame (f : Rows → Core) : Steps R (Tx.write fun σ => { σ with toCore := f σ } : Txn Unit) :=
  .write fun σ => RunFrame.core σ _ _

theorem findRun_frame (id : String) : Steps R (findRun id) := .read

theorem run_frame (id : String) : Steps R (run id) :=
  .bind (findRun_frame id) fun _ => .orFail

theorem storeRunIndexed_frame (s : StoredRun) (before : Table IndexKey IndexValue) :
    Steps R (storeRunIndexed s before) :=
  .write fun σ => RunFrame.core σ { σ.toCore with run := σ.run.put s.id s } _

theorem storeRun_frame (s : StoredRun) : Steps R (storeRun s) :=
  .bind .read fun _ => storeRunIndexed_frame _ _

theorem indexedRuns_frame (kind : IndexKind) (range : IndexId → Bool) (limit : Option Nat) :
    Steps R (indexedRuns kind range limit) := by
  refine .bind .read fun found => .collect (fun row => ?_) found
  unfold indexedRun
  split
  · exact run_frame _
  · exact .fail

theorem running_frame : Steps R running := .bind .read fun _ => .ensure

theorem authority_frame (f : Fence) (skew : Int) : Steps R (authority f now skew) :=
  .bind (run_frame _) fun _ => .bind .ensure fun _ => .pure

theorem checked_frame (f : Fence) (skew : Int) : Steps R (checked f now skew) :=
  .bind running_frame fun _ => .bind (authority_frame f skew) fun _ =>
    .bind .ofExcept fun _ => .pure

theorem admitted_frame (a : Admission) (join : Join) : Steps R (admitted a now join) := by
  refine .bind (findRun_frame _) fun found => ?_
  split
  · exact .bind .ofExcept fun _ => .pure
  · refine .bind running_frame fun _ => .bind .read fun defs => ?_
    split
    · exact .fail
    · exact .pure

theorem insert_frame (a : Admission) : Steps R (insert a now) := by
  refine .bind (admitted_frame a .root) fun found => ?_
  split
  · exact .pure
  · exact .bind (storeRun_frame _) fun _ => .pure

theorem drainedRefusal_frame (drained : Bool) (a : Admission) : Steps R (drainedRefusal drained a) := by
  refine .bind (findRun_frame _) fun found => ?_
  split
  · exact .pure
  · exact .bind .read fun _ => .pure

/-! #### Events -/

theorem copy_frame (run : String) (n : Nat) : Steps R (copy run n) :=
  .bind .read fun _ => .orFail

theorem envelope_frame (e : StoredEvent) : Steps R (envelope env e) := by
  refine .bind .orFail fun time => ?_
  split
  · exact .pure
  · exact .pure

theorem push_frame (s : StoredRun) (e : StoredEvent) : Steps R (push s e) :=
  .bind .ensure fun _ => .bind (core_frame _) fun _ => .pure

theorem consume_frame (s : StoredRun) (n : Nat) (e : StoredEvent) (k : String) :
    Steps R (consume s n e k) :=
  .bind (core_frame _) fun _ => .pure

theorem refreshMailbox_frame (s : StoredRun) : Steps R (refreshMailbox s) :=
  .bind .read fun _ => .pure

theorem putRecord_frame (run k : String) (r : Record) :
    Steps R (Tx.write fun σ => { σ with record := Table.putAt σ.record run k r } : Txn Unit) :=
  .write fun σ => RunFrame.core σ { σ.toCore with record := Table.putAt σ.record run k r } _

theorem expire_frame (s : StoredRun) : Steps R (expire env s now) := by
  unfold expire
  split
  · exact .pure
  · refine .bind .read fun due => .bind (.fold (fun s row => ?_) s due) fun _ =>
      .bind (refreshMailbox_frame _) fun _ => .pure
    exact .bind (copy_frame _ _) fun _ => .bind (envelope_frame _) fun _ =>
      .bind (putRecord_frame _ _ _) fun _ => consume_frame _ _ _ _

theorem receive_frame (s : StoredRun) (e : StoredEvent) : Steps R (receive s e now) := push_frame _ _

theorem accept_frame (s : StoredRun) (e : StoredEvent) : Steps R (accept s e now) := by
  unfold accept
  split
  · exact .map (receive_frame s e)
  · refine .bind .read fun found => ?_
    split
    · exact .map (receive_frame s e)
    · exact .bind (copy_frame _ _) fun _ => .bind .ensure fun _ => .pure

theorem addressee_frame (target : Option String) (id t : String) : Steps R (addressee target id t) := by
  unfold addressee
  split
  · exact findRun_frame _
  · refine .bind .read fun first => ?_
    split
    · exact .map (run_frame _)
    · exact .bind (indexedRuns_frame _ _ _) fun _ => .pure

theorem deliver_frame (event : Json) (target : Option String) :
    Steps R (deliver env event target now) := by
  refine .bind .orFail fun t => .bind .orFail fun id => .bind (addressee_frame _ _ _) fun found => ?_
  split
  · exact .pure
  · refine .bind .read fun held => ?_
    split
    · exact .pure
    · refine .bind (accept_frame _ _) fun r => ?_
      split
      · exact .bind (storeRun_frame _) fun _ => .pure
      · exact .pure

theorem notify_frame (parent t : String) (data : Json) : Steps R (notify parent t data now) := by
  refine .bind (run_frame _) fun s => ?_
  split
  · exact .pure
  · exact .bind (push_frame _ _) fun _ => storeRun_frame _

theorem publish_frame (event : Json) (target : Option String) :
    Steps R (publish env event target now) := by
  -- the receivers are found by reading, and each accepts for itself
  refine .bind .orFail fun t => .bind ?_ fun runs => .fold (fun receivers s => ?_) [] runs
  · unfold audience
    split
    · exact .map (findRun_frame _)
    · exact .bind (indexedRuns_frame _ _ _) fun _ => .bind (indexedRuns_frame _ _ _) fun _ => .pure
  · unfold publishTo
    simp only
    split
    · refine .bind (accept_frame _ _) fun r => ?_
      split
      · exact .bind (storeRun_frame _) fun _ => .pure
      · exact .pure
    · exact .pure

theorem forget_frame (s : StoredRun) : Steps R (forget s) :=
  .bind .read fun _ => .bind (core_frame _) fun _ => .pure

/-! #### The life of a run -/

theorem closeWaiting_frame (parent id : String) : Steps R (closeWaiting parent id) := by
  refine .bind (run_frame _) fun p => ?_
  simp only
  split
  · exact storeRun_frame _
  · exact .pure

theorem lifecycle_frame (id : String) (status : Status) : Steps R (lifecycle id status now) := by
  refine .bind (run_frame _) fun s => ?_
  split
  · exact .pure
  · exact .pure
  · refine .bind .read fun first => ?_
    split
    · exact .pure
    · split
      · exact .bind (closeWaiting_frame _ _) fun _ => notify_frame _ _ _
      · exact notify_frame _ _ _

theorem cascade_frame (spent fuel : Nat) (parents : List String) (acc : Cascade) :
    Steps R (cascade env spent now fuel parents acc) := by
  induction fuel generalizing parents acc with
  | zero =>
    cases parents with
    | nil => exact .pure
    | cons => exact .fail
  | succ fuel ih =>
    -- no parent is left, or the live children of one are ended in turn
    cases parents with
    | nil => exact .pure
    | cons parent parents =>
      refine .bind (indexedRuns_frame _ _ _) fun children =>
        .bind (.fold (fun acc child => ?_) acc children) fun _ => ih _ _
      exact .bind (storeRunIndexed_frame _ _) fun _ => .bind (lifecycle_frame _ _) fun _ => .pure

theorem claimAs_frame (id : String) (worker : Compatibility) (owner : String) :
    Steps R (claimAs id now worker owner) := by
  refine .bind .read fun stopped => ?_
  split
  · exact .pure
  · refine .bind (findRun_frame _) fun found => ?_
    split
    · exact .pure
    · split
      · exact .pure
      · exact .bind .ofExcept fun _ => .bind (storeRun_frame _) fun _ => .pure

theorem checkLease_frame (f : Fence) : Steps R (checkLease env f now) :=
  .bind (checked_frame f _) fun _ => .pure

theorem renew_frame (f : Fence) : Steps R (renew env f now) :=
  .bind running_frame fun _ => .bind (authority_frame f _) fun _ =>
    .bind (storeRun_frame _) fun _ => .pure

theorem release_frame (f : Fence) : Steps R (release env f now) :=
  .bind (authority_frame f _) fun _ => storeRun_frame _

theorem loadRecords_frame (f : Fence) : Steps R (loadRecords env f now) :=
  .bind (checked_frame f _) fun _ => .read

theorem saveRecord_frame (f : Fence) (k : String) (r : Record) :
    Steps R (saveRecord env f k r now) := by
  refine .bind running_frame fun _ => .bind (authority_frame f _) fun s => .bind .read fun old =>
    .bind ?_ fun _ => .bind (putRecord_frame _ _ _) fun _ => ?_
  -- what is checked before the record is put depends on its kind only
  · unfold savable
    cases committedElsewhere r with
    | some message =>
      split_ifs
      · exact .bind .ensure fun _ => .ensure
      · exact .bind .ofExcept fun _ => .bind .ensure fun _ => .ensure
    | none =>
      split_ifs
      · exact .ensure
      · exact .bind .ofExcept fun _ => .ensure
  · simp only
    split
    · exact .pure
    · exact storeRun_frame _

theorem spend_frame (f : Fence) (k : String) (limit : Nat) : Steps R (spend env f k limit now) := by
  refine .bind (checked_frame f _) fun s => .bind .read fun found => ?_
  split
  · exact .pure
  · exact .fail
  -- the unit is granted or refused; the first refusal is kept
  · refine .bind (.bind .read fun spent => ?_) fun record => .bind (putRecord_frame _ _ _) fun _ => ?_
    · split
      · refine .bind (.write fun σ => ?_) fun _ => .pure
        exact RunFrame.core σ { σ.toCore with budget := _ } _
      · refine .bind (.bind .read fun first => ?_) fun _ => .pure
        split
        · exact .pure
        · exact .fail
        · exact .bind (putRecord_frame _ _ _) fun _ => .pure
    · split
      · exact .pure
      · exact .bind (storeRun_frame _) fun _ => .pure

theorem registerWait_frame (f : Fence) (types : List String) :
    Steps R (registerWait env f types now) :=
  .bind (checked_frame f _) fun _ => storeRun_frame _

theorem unregisterWait_frame (f : Fence) (k : String) (types : List String) :
    Steps R (unregisterWait env f k types now) :=
  .bind (checked_frame f _) fun _ => storeRun_frame _

theorem describeWait_frame (f : Fence) (k : String) (wait : PendingWait) :
    Steps R (describeWait env f k wait now) := by
  refine .bind (checked_frame f _) fun s => ?_
  simp only
  split
  · exact .pure
  · exact storeRun_frame _

theorem takeEvent_frame (f : Fence) (k : String) (types : List String) :
    Steps R (takeEvent env f k types now) := by
  refine .bind (checked_frame f _) fun s => .bind .read fun found => ?_
  split
  · exact .pure
  · exact .fail
  · refine .bind (expire_frame _) fun r => .bind .read fun n => ?_
    split
    -- a copy is consumed, and the record and the run are written with it
    · refine .map (.bind (copy_frame _ _) fun stored => .bind (envelope_frame _) fun event =>
        .bind (consume_frame _ _ _ _) fun s => ?_)
      have hrest : ∀ s : StoredRun, Steps R (do
          Tx.write fun rows => { rows with record := Table.putAt rows.record s.id k (.event event) }
          storeRun (tookEvent s k types)
          pure event : Txn Json) := fun s =>
        .bind (putRecord_frame _ _ _) fun _ => .bind (storeRun_frame _) fun _ => .pure
      split
      · exact .bind (refreshMailbox_frame _) hrest
      · exact hrest s
    · exact .bind (storeRun_frame _) fun _ => .pure

theorem subscribe_frame (f : Fence) (k : String) (types : List String) :
    Steps R (subscribe env f k types now) :=
  .bind (checked_frame f _) fun _ => storeRun_frame _

theorem unsubscribe_frame (f : Fence) (k : String) : Steps R (unsubscribe env f k now) :=
  .bind (checked_frame f _) fun _ => storeRun_frame _

theorem rejoin_frame (c : StoredRun) : Steps R (rejoin c now) := by
  refine .bind (storeRun_frame _) fun _ => ?_
  split
  · exact lifecycle_frame _ _
  · split
    · exact lifecycle_frame _ _
    · exact .pure

theorem subtree_frame (fuel : Nat) (next tree : List StoredRun) : Steps R (subtree fuel next tree) := by
  induction fuel generalizing next tree with
  | zero =>
    cases next with
    | nil => exact .pure
    | cons => exact .fail
  | succ fuel ih =>
    cases next with
    | nil => exact .pure
    | cons s next => exact .bind (indexedRuns_frame _ _ _) fun _ => ih _ _

theorem setHold_frame (id : String) (hold : Option Hold) : Steps R (setHold id hold) := by
  refine .bind (findRun_frame _) fun found => .bind .orFail fun root => ?_
  split
  · exact .pure
  · refine .bind .read fun bound => .bind (subtree_frame _ _ _) fun tree =>
      .fold (fun changed s => ?_) false tree
    unfold holdOne
    split
    · exact .pure
    · exact .bind (storeRunIndexed_frame _ _) fun _ => .pure

theorem responseEvent_frame (event : Json) : Steps R (responseEvent env event now) := by
  unfold responseEvent
  split
  · exact .bind .orFail fun _ => .pure
  · exact .pure

theorem offerWildcard_frame (id : String) (n : Nat) : Steps R (offerWildcard id n now) := by
  refine .bind (copy_frame _ _) fun stored => .bind .ensure fun _ => ?_
  split
  · exact .bind (run_frame _) fun _ => .bind .ensure fun _ => .bind (core_frame _) fun _ =>
      storeRun_frame _
  · exact .pure

theorem answerWait_frame (id key identity : String) (event : Json) :
    Steps R (answerWait env id key identity event now) := by
  refine .bind (findRun_frame _) fun _ => .bind .orFail fun s => .bind .orFail fun w =>
    .bind .ensure fun _ => .bind (responseEvent_frame _) fun event => .bind .ofExcept fun _ =>
    .bind .ensure fun _ => .bind (deliver_frame _ _) fun recipient => .bind .read fun _ =>
    .bind .orFail fun n => ?_
  split
  · exact .bind (offerWildcard_frame _ _) fun _ => .pure
  · exact .pure

end Runs

end Engine

/-! ### Transactions on the catalog -/

/-- What the bookkeeping of slots, definitions, markers and totals leaves alone: the triggers with
their index rows, and the audit rows of the operator. -/
structure Bookkeeping (σ σ' : Rows) : Prop where
  trigger : σ'.trigger = σ.trigger
  due : σ'.triggerDue = σ.triggerDue
  type_ : σ'.triggerType = σ.triggerType
  command : σ'.controlCommand = σ.controlCommand
  history : σ'.controlHistory = σ.controlHistory
  historyRun : σ'.controlHistoryRun = σ.controlHistoryRun
  response : σ'.controlResponse = σ.controlResponse

/-- A relation that the bookkeeping keeps, and every trigger written in place of the stored one. -/
class CatalogFrame (R : Rows → Rows → Prop) : Prop extends RunFrame R where
  free : ∀ σ σ', Bookkeeping σ σ' → R σ σ'
  trigger : ∀ key after, Steps R (Engine.replaceTrigger key after)

/-- Bookkeeping that leaves the definitions and the totals alone. -/
structure Clerical (σ σ' : Rows) : Prop extends Bookkeeping σ σ' where
  definitions : σ'.definitions = σ.definitions
  totals : σ'.totals = σ.totals

/-- A relation that this bookkeeping keeps, and every trigger written in place of the stored one. -/
class BookFrame (R : Rows → Rows → Prop) : Prop extends RunFrame R where
  book : ∀ σ σ', Clerical σ σ' → R σ σ'
  trigger : ∀ key after, Steps R (Engine.replaceTrigger key after)

/-- The breaker's observations are kept too. -/
class BreakerFrame (R : Rows → Rows → Prop) : Prop extends BookFrame R where
  breaker : ∀ (env : Env) (r : SavedRun) (fault : Option WorkflowError) (success : Bool) (default : Nat)
    (now : Int), Steps R (Engine.breaker env r fault success default now)

/-- So is what the end of a tree adds to the totals. -/
class TotalFrame (R : Rows → Rows → Prop) : Prop extends BreakerFrame R where
  bucket : ∀ (env : Env) (name : String) (now : Int) (runs : Nat) (annotations : Totals),
    Steps R (Engine.addBucket env name now runs annotations)

instance (R : Rows → Rows → Prop) [CatalogFrame R] : BookFrame R where
  book σ σ' h := CatalogFrame.free σ σ' h.toBookkeeping
  trigger := CatalogFrame.trigger

/-- The audit rows of the operator are as they were. -/
structure Unaudited (σ σ' : Rows) : Prop where
  command : σ'.controlCommand = σ.controlCommand
  history : σ'.controlHistory = σ.controlHistory
  historyRun : σ'.controlHistoryRun = σ.controlHistoryRun
  response : σ'.controlResponse = σ.controlResponse

instance : RunFrame Unaudited where
  refl _ := ⟨rfl, rfl, rfl, rfl⟩
  trans _ _ _ h h' := ⟨h'.command.trans h.command, h'.history.trans h.history,
    h'.historyRun.trans h.historyRun, h'.response.trans h.response⟩
  core _ _ _ := ⟨rfl, rfl, rfl, rfl⟩

instance : CatalogFrame Unaudited where
  free _ _ h := ⟨h.command, h.history, h.historyRun, h.response⟩
  trigger _ _ := .bind .read fun _ => .write fun _ => ⟨rfl, rfl, rfl, rfl⟩

namespace Engine

section Books

variable {R : Rows → Rows → Prop} [BookFrame R]

/-- A write of the bookkeeping that leaves the definitions and the totals alone. -/
theorem book_write {f : Rows → Rows} (h : ∀ σ, Clerical σ (f σ)) : Steps R (Tx.write f : Txn Unit) :=
  .write fun σ => BookFrame.book σ _ (h σ)

theorem removeQueue_catalog (key : String) : Steps R (removeQueue key) := by
  refine book_write fun σ => ?_
  split <;> exact ⟨⟨rfl, rfl, rfl, rfl, rfl, rfl, rfl⟩, rfl, rfl⟩

theorem arm_catalog (defs : Definitions) (wanted : Table String Trigger) :
    Steps R (arm defs wanted) := by
  have hreplace : ∀ key after, Steps R (replaceTrigger key after) := BookFrame.trigger
  exact .bind (.each removeQueue_catalog _) fun _ => .bind (.each (fun _ => hreplace _ _) _)
    fun _ => .bind (.each (fun _ => hreplace _ _) _) fun _ => .pure

end Books

section Catalog

variable {env : Env} {now : Int} {R : Rows → Rows → Prop} [CatalogFrame R]

/-- A write of the bookkeeping. -/
theorem free_write {f : Rows → Rows} (h : ∀ σ, Bookkeeping σ (f σ)) :
    Steps R (Tx.write f : Txn Unit) :=
  .write fun σ => CatalogFrame.free σ _ (h σ)

theorem storeDefinitions_catalog (name : String) (defs : Definitions) :
    Steps R (storeDefinitions name defs) :=
  free_write fun _ => ⟨rfl, rfl, rfl, rfl, rfl, rfl, rfl⟩

theorem breaker_catalog (r : SavedRun) (fault : Option WorkflowError) (success : Bool)
    (default : Nat) : Steps R (breaker env r fault success default now) := by
  refine .bind .read fun found => ?_
  split
  · exact .pure
  · split
    · exact .pure
    · split
      · unfold countFault
        simp only
        split
        -- a failure is counted; at the threshold the triggers are taken away
        · exact storeDefinitions_catalog _ _
        · split
          · exact .bind (arm_catalog _ _) fun _ => .bind (free_write fun _ => ⟨rfl, rfl, rfl, rfl, rfl, rfl, rfl⟩)
              fun _ => storeDefinitions_catalog _ _
          · exact storeDefinitions_catalog _ _
      · split
        · exact storeDefinitions_catalog _ _
        · exact .pure

end Catalog

end Engine

instance (R : Rows → Rows → Prop) [CatalogFrame R] : TotalFrame R where
  breaker _ r fault success default _ := Engine.breaker_catalog r fault success default
  bucket _ _ _ _ _ := Engine.free_write fun _ => ⟨rfl, rfl, rfl, rfl, rfl, rfl, rfl⟩

namespace Engine

section Breaking

variable {env : Env} {now : Int} {R : Rows → Rows → Prop} [BreakerFrame R]

theorem refuse_catalog (refused : Refused) : Steps R (refuse env refused now) := by
  refine .bind (admitted_frame _ _) fun found => ?_
  split
  · exact .pure
  · exact .bind (storeRun_frame _) fun _ => BreakerFrame.breaker _ _ _ _ _ _

theorem admitFiring_catalog (key : String) (a : Admission) (rearm : Option Rearm)
    (next : Option Trigger) : Steps R (admitFiring key a rearm next now) := by
  have hrest : Steps R (Tx.write fun rows =>
      { rows with triggerRun := rows.triggerRun.put key a.id } : Txn Unit) :=
    book_write fun _ => ⟨⟨rfl, rfl, rfl, rfl, rfl, rfl, rfl⟩, rfl, rfl⟩
  refine .bind (insert_frame a) fun admitted => ?_
  split
  · exact .bind (run_frame _) fun _ => .bind (storeRun_frame _) fun _ => hrest
  · exact hrest

theorem promote_catalog (name key : String) : Steps R (promote env name key now) := by
  refine .bind .read fun found => ?_
  split
  · exact .bind .read fun _ => .ensure
  · refine .bind .read fun waits => ?_
    split
    · exact .pure
    · refine .bind .read fun _ => .bind .orFail fun t => .bind (removeQueue_catalog _) fun _ => ?_
      split
      · exact refuse_catalog _
      · exact admitFiring_catalog _ _ _ _

theorem drainQueues_catalog (name : String) : Steps R (drainQueues env name now) := by
  refine .bind .read fun stopped => ?_
  split
  · refine book_write fun σ => ?_
    split <;> exact ⟨⟨rfl, rfl, rfl, rfl, rfl, rfl, rfl⟩, rfl, rfl⟩
  · exact .bind .read fun _ => .each (fun key => promote_catalog name key) _

theorem drainMarked_catalog (name : String) : Steps R (drainMarked env name now) := by
  refine .bind .read fun marked => .bind .read fun stopped => ?_
  split
  · exact .bind (book_write fun _ => ⟨⟨rfl, rfl, rfl, rfl, rfl, rfl, rfl⟩, rfl, rfl⟩) fun _ =>
      .bind (drainQueues_catalog name) fun _ => .pure
  · exact .pure

theorem drainPending_catalog (limit : Nat) : Steps R (drainPending env now limit) := by
  refine .bind .read fun found => .each (fun row => ?_) found
  exact .bind (book_write fun _ => ⟨⟨rfl, rfl, rfl, rfl, rfl, rfl, rfl⟩, rfl, rfl⟩) fun _ => drainQueues_catalog _

/-- A trigger is rearmed in place of the stored one. -/
theorem rearmTrigger_catalog (s : StoredRun) : Steps R (rearmTrigger s now) := by
  intro σ u σ' h
  have hsame : R σ σ := refl_of R σ
  unfold rearmTrigger at h
  cases hrearm : s.rearm with
  | none =>
    simp only [hrearm, pure_ok] at h
    rwa [h.2]
  | some p =>
    simp only [hrearm, bind_ok, read_ok] at h
    obtain ⟨found, σ₁, ⟨hfound, rfl⟩, h⟩ := h
    cases found with
    | none =>
      rw [(pure_ok.mp h).2]
      exact hsame
    | some t =>
      -- armed anew as it is stored, if the stored one is still that of the run
      simp only at h
      split at h
      · refine BookFrame.trigger p.1.trigger (some { t with atMs := some (satAdd now p.1.delayMs) })
          (bind_ok.mpr ⟨some t, σ₁, read_ok.mpr ⟨hfound, rfl⟩, h⟩)
      -- another trigger has taken its key
      · rw [(pure_ok.mp h).2]
        exact hsame

theorem endTree_catalog (id : String) (status : Status) :
    Steps R (endTree env id status now) := by
  have hrow : Steps R (endRow id status now) := by
    refine .bind (run_frame _) fun s => .bind .read fun spent => .bind (storeRun_frame _) fun _ => ?_
    split
    · exact .bind (book_write fun _ => ⟨⟨rfl, rfl, rfl, rfl, rfl, rfl, rfl⟩, rfl, rfl⟩) fun _ => .bind (rearmTrigger_catalog s) fun _ => .pure
    · exact .bind (rearmTrigger_catalog s) fun _ => .pure
  exact .bind hrow fun _ => .bind .read fun _ => cascade_frame _ _ _ _

theorem tombstone_catalog (event : Json) : Steps R (tombstone event now) := by
  refine .bind .orFail fun id => .bind .read fun stored => ?_
  split
  · split
    · exact .bind .ensure fun _ => .pure
    · exact .pure
  · exact .pure

theorem ingested_catalog (f : Firing) : Steps R (ingested f now) := by
  unfold ingested
  split
  · exact .pure
  · exact .map (tombstone_catalog _)

theorem ingestFiring_catalog (f : Firing) : Steps R (ingestFiring env f now) := by
  unfold ingestFiring
  split
  · exact .pure
  · refine .bind (tombstone_catalog _) ?_
    rintro ⟨k, old, used⟩
    simp only
    split
    · exact .pure
    · exact .bind (book_write fun _ => ⟨⟨rfl, rfl, rfl, rfl, rfl, rfl, rfl⟩, rfl, rfl⟩) fun _ => .pure

/-- A firing that stores its next trigger as the relation allows. -/
theorem commitFiring_catalog {f : Firing} {current : Option Trigger} {outcome : Outcome} {σ σ' : Rows}
    {r : Fired} (hstore : ∀ u σ₁, storeTrigger f.key current outcome.1 σ = .ok (u, σ₁) → R σ σ₁)
    (h : commitFiring env f current outcome now σ = .ok (r, σ')) : R σ σ' := by
  obtain ⟨u, σ₁, hσ₁, h⟩ := bind_ok.mp h
  refine trans_of R (hstore u σ₁ hσ₁) ?_
  refine (?_ : Steps R _) h
  split
  · refine .bind (.each (fun a => admitFiring_catalog _ _ _ _) _) fun _ => ?_
    split
    · exact .pure
    · exact .bind (refuse_catalog _) fun _ =>
        .bind (book_write fun _ => ⟨⟨rfl, rfl, rfl, rfl, rfl, rfl, rfl⟩, rfl, rfl⟩) fun _ => .pure
  · exact .pure

theorem firstRefusal_frame (drained : Bool) (l : List Admission) :
    Steps R (firstRefusal drained l) := by
  induction l with
  | nil => exact .pure
  | cons a l ih =>
    refine .bind (drainedRefusal_frame _ _) fun found => ?_
    split
    · exact .pure
    · exact ih

theorem drainFor_catalog (f : Firing) : Steps R (drainFor env f now) := by
  unfold drainFor
  split
  · exact .pure
  · exact drainMarked_catalog _

theorem start_catalog (a : Admission) (owner : String) :
    Steps R (start env a now owner) := by
  refine .bind (drainMarked_catalog _) fun drained => .bind (drainedRefusal_frame _ _) fun found => ?_
  split
  · exact .pure
  · refine .bind (admitted_frame _ _) fun s => ?_
    split
    · exact .pure
    · exact .bind .ofExcept fun _ => .bind (storeRun_frame _) fun _ => .pure

theorem admitRun_catalog (a : Admission) : Steps R (admitRun env a now) := by
  refine .bind (drainMarked_catalog _) fun drained => .bind (drainedRefusal_frame _ _) fun found => ?_
  split
  · exact .pure
  · exact .map (insert_frame a)

theorem startChild_catalog (parent : Fence) (a : Admission) (link : ChildLink) (owner : String) :
    Steps R (startChild env parent a link now owner) := by
  refine .bind (checked_frame parent _) fun p => .bind .ensure fun _ =>
    .bind (drainMarked_catalog _) fun drained => .bind (drainedRefusal_frame _ _) fun found => ?_
  split
  · exact .pure
  · refine .bind (storeRun_frame _) fun _ => .bind (admitted_frame _ _) fun c => ?_
    split
    · exact .bind .ofExcept fun _ => .bind (storeRun_frame _) fun _ => .pure
    · exact .bind (run_frame _) fun _ => .bind .ensure fun _ => .bind (rejoin_frame _) fun _ => .pure

theorem dueAs_catalog (limit : Nat) (worker : Compatibility) :
    Steps R (dueAs env now limit worker) := by
  have hdue : ∀ row, Steps R (dueRun row) := by
    intro row
    unfold dueRun
    split
    · exact .pure
    · exact .fail
  refine .bind .read fun stopped => ?_
  split
  · exact .pure
  · refine .bind (drainPending_catalog _) fun _ => ?_
    split
    · exact .bind .read fun _ => .collect hdue _
    · exact .bind .read fun _ => .bind (.collect hdue _) fun _ => .pure

theorem sweep_catalog (kept : Int) : Steps R (sweep env now kept) := by
  refine .bind .ensure fun _ => .bind (indexedRuns_frame _ _ _) fun ended =>
    .bind (.fold (fun records s => ?_) 0 ended) fun _ => .bind (indexedRuns_frame _ _ _) fun boxes =>
    .bind (.fold (fun expired s => ?_) 0 boxes) fun _ => .bind .read fun _ =>
    .bind (book_write fun _ => ⟨⟨rfl, rfl, rfl, rfl, rfl, rfl, rfl⟩, rfl, rfl⟩) fun _ => .bind .read fun _ =>
    .bind (book_write fun _ => ⟨⟨rfl, rfl, rfl, rfl, rfl, rfl, rfl⟩, rfl, rfl⟩) fun _ => .pure
  · unfold sweepFinished
    split
    · exact .bind (forget_frame s) fun _ => .bind (storeRun_frame _) fun _ => .pure
    · exact .pure
  · exact .bind (expire_frame s) fun _ => .bind (storeRun_frame _) fun _ => .pure

theorem acknowledge_catalog (key : Int ×ₗ String) : Steps R (acknowledge key) := by
  refine .bind .read fun found => ?_
  split
  · exact .bind (book_write fun _ => ⟨⟨rfl, rfl, rfl, rfl, rfl, rfl, rfl⟩, rfl, rfl⟩) fun _ => .pure
  · exact .pure

theorem beat_catalog (w : Worker) : Steps R (beat w) := by
  refine .bind .ensure fun _ => book_write fun σ => ?_
  simp only
  split
  · exact ⟨⟨rfl, rfl, rfl, rfl, rfl, rfl, rfl⟩, rfl, rfl⟩
  · split
    · exact ⟨⟨rfl, rfl, rfl, rfl, rfl, rfl, rfl⟩, rfl, rfl⟩
    · split <;> exact ⟨⟨rfl, rfl, rfl, rfl, rfl, rfl, rfl⟩, rfl, rfl⟩

end Breaking

section Totalling

variable {env : Env} {now : Int} {R : Rows → Rows → Prop} [TotalFrame R]

theorem terminate_catalog (id : String) (status : Status) :
    Steps R (terminate env id status now) := by
  refine .bind (endTree_catalog id status) fun acc => .bind (lifecycle_frame _ _) fun _ =>
    .bind (.each (fun _ => drainQueues_catalog _) _) fun _ => .each (fun row => ?_) _
  exact TotalFrame.bucket env row.1 now row.2.1 row.2.2

theorem cancelRun_catalog (id : String) : Steps R (cancelRun env id now) := by
  refine .bind (findRun_frame _) fun found => ?_
  split
  · exact .pure
  · split
    · exact .pure
    · exact .bind (terminate_catalog _ _) fun _ => .pure

theorem disposition_catalog (f : Firing) : Steps R (disposition env f now) := by
  -- with a policy: the slot is buffered at most
  have hslot : ∀ guard_ a live, Steps R (slotOutcome f guard_ a live) := by
    intro guard_ a live
    refine .bind .read fun room => .bind .read fun queued => ?_
    split
    · exact .pure
    · split
      · split
        · exact .bind (book_write fun _ => ⟨⟨rfl, rfl, rfl, rfl, rfl, rfl, rfl⟩, rfl, rfl⟩) fun _ => .pure
        · exact .pure
      · exact .pure
  -- runs are replaced by cancels
  have hreplace : ∀ live, Steps R (replaceLive env live now) := by
    intro live
    refine .each (fun row => ?_) live
    split
    · exact .map (cancelRun_catalog _)
    · exact .fail
  -- the other cases read only
  unfold disposition
  split
  · refine .bind .ensure fun _ => .bind .ensure fun _ => .bind .ensure fun _ =>
      .bind (findRun_frame _) fun found => ?_
    split
    · exact .pure
    · refine .bind .read fun live => ?_
      split
      · exact .bind (hreplace live) fun _ => hslot _ _ _
      · exact hslot _ _ _
  · exact .pure
  · split
    · exact .pure
    · split
      · exact .pure
      · refine .bind .read fun last => ?_
        split
        · exact .pure
        · refine .bind (findRun_frame _) fun found => ?_
          split <;> exact .pure

theorem fireChecked_catalog (hstore : ∀ key before after, Steps R (storeTrigger key before after))
    (f : Firing) (current : Option Trigger) : Steps R (fireChecked env f current now) := by
  refine .bind (ingested_catalog f) fun used => ?_
  split
  · exact .pure
  · refine .bind (disposition_catalog f) fun outcome => .bind (ingestFiring_catalog f) fun used => ?_
    split
    · exact .pure
    · exact fun _ _ _ h => commitFiring_catalog (fun _ _ hput => hstore _ _ _ hput) h

theorem fire_catalog (hstore : ∀ key before after, Steps R (storeTrigger key before after))
    (f : Firing) : Steps R (fire env f now) := by
  refine .bind .read fun stopped => ?_
  split
  · exact .pure
  · refine .bind .ensure fun _ => .bind (drainFor_catalog f) fun drained => .bind .read fun current => ?_
    split
    · exact .pure
    · refine .bind (firstRefusal_frame _ _) fun found => ?_
      split
      · exact .pure
      · exact .map (fireChecked_catalog hstore f current)

theorem finish_catalog (f : Fence) (outcome : Status) (threshold : Nat) :
    Steps R (finish env f outcome now threshold) := by
  refine .bind (checked_frame f _) fun s => .bind .read ?_
  rintro ⟨s, status⟩
  refine .bind (storeRun_frame _) fun _ => ?_
  simp only
  split
  · exact .bind (BreakerFrame.breaker _ _ _ _ _ _) fun _ => .bind (terminate_catalog _ _) fun _ => .pure
  · exact .bind (lifecycle_frame _ _) fun _ => .pure

end Totalling

section Catalog

variable {env : Env} {now : Int} {R : Rows → Rows → Prop} [CatalogFrame R]

theorem activate_catalog (name : String) (version : Nat) (epoch : Option Nat)
    (triggers : Table String Trigger) (activation : Activation) :
    Steps R (activate name version epoch triggers activation) := by
  refine .bind .read fun found => .bind .ensure fun _ => ?_
  split
  · exact .pure
  · exact .bind .ensure fun _ => .bind (free_write fun _ => ⟨rfl, rfl, rfl, rfl, rfl, rfl, rfl⟩) fun _ =>
      .bind (arm_catalog _ _) fun _ => .bind (storeDefinitions_catalog _ _) fun _ => .pure

theorem saveDefinition_catalog (name yaml : String) (breaker : Breaker) :
    Steps R (saveDefinition env name yaml breaker) :=
  .bind .read fun _ => .bind .orFail fun _ => .bind (storeDefinitions_catalog _ _) fun _ => .pure

/-! #### Commands other than answers -/

theorem suspend_catalog (name : String) (defs : Definitions) :
    Steps R (suspend name defs) :=
  .bind (free_write fun _ => ⟨rfl, rfl, rfl, rfl, rfl, rfl, rfl⟩) fun _ => arm_catalog _ _

theorem knownDefinitions_catalog (name : String) : Steps R (knownDefinitions name) :=
  .bind .read fun _ => .orFail

theorem pause_catalog (request : Request) (name note : String) :
    Steps R (pause request name note now) := by
  refine .bind (knownDefinitions_catalog _) fun defs => ?_
  simp only
  split
  · split
    · exact .bind (suspend_catalog _ _) fun _ => .bind (storeDefinitions_catalog _ _) fun _ => .pure
    · exact .pure
  · exact .bind .orFail fun _ => .bind (suspend_catalog _ _) fun _ =>
      .bind (storeDefinitions_catalog _ _) fun _ => .pure

theorem resume_catalog (name : String) : Steps R (resume env name now) := by
  refine .bind (knownDefinitions_catalog _) fun defs => ?_
  split
  · exact .pure
  · refine .bind .ensure fun _ => .bind .read fun _ => .bind .orFail fun paused =>
      .bind .ensure fun _ => .bind (arm_catalog _ _) fun _ => .bind (.each (fun row => ?_) _)
      fun _ => .bind (free_write fun _ => ⟨rfl, rfl, rfl, rfl, rfl, rfl, rfl⟩) fun _ =>
      .bind (storeDefinitions_catalog _ _) fun _ => .bind (drainQueues_catalog _) fun _ => .pure
    exact .bind .ensure fun _ => free_write fun _ => ⟨rfl, rfl, rfl, rfl, rfl, rfl, rfl⟩

theorem stop_catalog (enabled : Bool) : Steps R (stop env enabled now) := by
  refine .bind .read fun stopped => ?_
  split
  · exact .pure
  · split
    · exact .bind (free_write fun _ => ⟨rfl, rfl, rfl, rfl, rfl, rfl, rfl⟩) fun _ => .pure
    · exact .bind (free_write fun _ => ⟨rfl, rfl, rfl, rfl, rfl, rfl, rfl⟩) fun _ =>
        .bind (drainPending_catalog _) fun _ => .pure

/-- A command, when the operator's audit rows are free as well. -/
theorem applyControl_catalog (haudit : ∀ (σ : Rows) command history historyRun response,
      R σ { σ with controlCommand := command, controlHistory := history,
                   controlHistoryRun := historyRun, controlResponse := response })
    (request : Request) (command : Command) : Steps R (applyControl env request command now) := by
  have hrespond : ∀ canonical id key event,
      Steps R (respond env request canonical id key event now) := by
    intro canonical id key event
    refine .bind .orFail fun i => .bind .read fun found => ?_
    split
    · exact .bind .ensure fun _ => .pure
    · exact .bind (answerWait_frame _ _ _ _) fun _ => .bind (.write fun _ => haudit _ _ _ _ _)
        fun _ => .pure
  have hperform : ∀ canonical, Steps R (perform env request command canonical now) := by
    intro canonical
    cases command with
    | cancel run => exact .map (cancelRun_catalog run)
    | pause name note => exact .map (pause_catalog request name note)
    | resume name => exact .map (resume_catalog name)
    | hold run note => exact .map (setHold_frame run _)
    | release run => exact .map (setHold_frame run none)
    | stop enabled => exact .map (stop_catalog enabled)
    | respond id key event => exact hrespond canonical id key event
  refine .bind .ensure fun _ => .bind .read fun found => ?_
  split
  · exact .bind .ensure fun _ => .pure
  · exact .bind (hperform _) fun reply => .bind (.write fun _ => haudit _ _ _ _ _) fun _ => .pure

/-- The transaction of a call, given those of a firing and of a command. -/
theorem Op.tx_catalog {op : Op} (hfire : ∀ f t, op = .fire f t → Steps R (fire env f t))
    (hcommand : ∀ request command t, op = .applyControl request command t →
      Steps R (applyControl env request command t)) : Steps R (op.tx env) := by
  cases op with
  | admitRun a t => exact .map (admitRun_catalog a)
  | start a t owner => exact .map (start_catalog a owner)
  | claimAs id t worker owner => exact .map (claimAs_frame id worker owner)
  | checkLease f t => exact .map (checkLease_frame f)
  | renew f t => exact .map (renew_frame f)
  | release f t => exact .map (release_frame f)
  | loadRecords f t => exact .map (loadRecords_frame f)
  | saveRecord f k r t => exact .map (saveRecord_frame f k r)
  | registerWait f types t => exact .map (registerWait_frame f types)
  | unregisterWait f k types t => exact .map (unregisterWait_frame f k types)
  | describeWait f k wait t => exact .map (describeWait_frame f k wait)
  | deliver event target t => exact .map (deliver_frame event target)
  | takeEvent f k types t => exact .map (takeEvent_frame f k types)
  | subscribe f k types t => exact .map (subscribe_frame f k types)
  | unsubscribe f k t => exact .map (unsubscribe_frame f k)
  | publish event target t => exact .map (publish_frame event target)
  | fire f t => exact .map (hfire f t rfl)
  | finish f outcome t threshold => exact .map (finish_catalog f outcome threshold)
  | startChild p a link t owner => exact .map (startChild_catalog p a link owner)
  | spend f k limit t => exact .map (spend_frame f k limit)
  | dueAs t limit worker => exact .map (dueAs_catalog limit worker)
  | cancel id t => exact .map (cancelRun_catalog id)
  | sweep t kept => exact .map (sweep_catalog kept)
  | saveDefinition name yaml breaker => exact .map (saveDefinition_catalog name yaml breaker)
  | activate name version t => exact .map (activate_catalog _ _ _ _ _)
  | activateWith name version epoch arming activation => exact .map (activate_catalog _ _ _ _ _)
  | acknowledge key => exact .map (acknowledge_catalog key)
  | beat worker => exact .map (beat_catalog worker)
  | applyControl request command t => exact .map (hcommand request command t rfl)

end Catalog

end Engine

end Ouro
