import Ouro.Lib.Counting
import Ouro.Durable.Turns

/-!
# Hourly totals of definitions

A definition's runs that ended with annotation totals are counted in one bucket an hour. A run is counted
in the transaction that ends its tree, whichever call does so, in the bucket of that instant; nothing
else writes the totals, and an ended run keeps its definition, its end and its annotations. So every
bucket has as many runs as ended in it (`Counted`, in every store).
-/

namespace Ouro

open Lib Engine Tx

variable {env : Env} {now : Int} {may : String → Act → Prop}

/-! ### What is counted -/

/-- The run ended in the bucket, with annotation totals. -/
def countsFor (name : String) (start : Int) (s : StoredRun) : Bool :=
  annotates s.run name && s.run.endedMs.any fun at_ => decide (bucketStart at_ = start)

/-- The runs of a definition that ended in a bucket. -/
def endedIn (σ : Rows) (name : String) (start : Int) : List (String × StoredRun) :=
  σ.run.rowsOf (countsFor name start)

/-- The runs a bucket counts. -/
def bucketRuns (σ : Rows) (name : String) (start : Int) : Nat :=
  (((σ.totals name).get start).map (·.runs)).getD 0

/-- Every bucket has as many runs as ended in it, as far as a word counts. -/
def Counted (σ : Rows) : Prop :=
  ∀ name start, bucketRuns σ name start = min (endedIn σ name start).length u64Max

/-- The totals are as they were. -/
def SameTotals (σ σ' : Rows) : Prop := σ'.totals = σ.totals

instance : RunFrame SameTotals where
  refl _ := rfl
  trans _ _ _ h h' := h'.trans h
  core _ _ _ := rfl

instance : BookFrame SameTotals where
  book _ _ h := h.totals
  trigger _ _ := .bind .read fun _ => .write fun _ => rfl

namespace Engine

theorem storeDefinitions_totals (name : String) (defs : Definitions) :
    Steps SameTotals (storeDefinitions name defs) :=
  .write fun _ => rfl

theorem activate_totals (name : String) (version : Nat) (epoch : Option Nat)
    (triggers : Table String Trigger) (activation : Activation) :
    Steps SameTotals (activate name version epoch triggers activation) := by
  refine .bind .read fun found => .bind .ensure fun _ => ?_
  split
  · exact .pure
  · exact .bind .ensure fun _ => .bind (.write fun _ => rfl) fun _ => .bind (arm_catalog _ _) fun _ =>
      .bind (storeDefinitions_totals _ _) fun _ => .pure

theorem breaker_totals (env : Env) (r : SavedRun) (fault : Option WorkflowError) (success : Bool)
    (default : Nat) (now : Int) : Steps SameTotals (breaker env r fault success default now) := by
  refine .bind .read fun found => ?_
  split
  · exact .pure
  · split
    · exact .pure
    · split
      · unfold countFault
        simp only
        split
        -- a failure is counted; at the threshold the triggers are taken away
        · exact storeDefinitions_totals _ _
        · split
          · exact .bind (arm_catalog _ _) fun _ => .bind (.write fun _ => rfl) fun _ =>
              storeDefinitions_totals _ _
          · exact storeDefinitions_totals _ _
      -- a success resets the count
      · split
        · exact storeDefinitions_totals _ _
        · exact .pure

end Engine

instance : BreakerFrame SameTotals where
  breaker := breaker_totals

/-! ### Steps that end no counted run -/

/-- A row that was there keeps what it counts for, unless its run ends. -/
theorem RowChange.countsFor {c : Core} {s s' : StoredRun} (h : RowChange env c now may s s')
    (hs : Sane s) (hended : s'.run.endedMs = s.run.endedMs) (name : String) (start : Int) :
    countsFor name start s' = countsFor name start s := by
  by_cases hl : s.run.endedMs = none
  · simp [Ouro.countsFor, hended, hl]
  · rw [h.eq_forgotten hs hl]
    rfl

/-- A new run counts for nothing: it has no annotations. -/
theorem NewRow.countsFor {c : Core} {s : StoredRun} (h : NewRow c now may s) (name : String)
    (start : Int) : countsFor name start s = false := by
  have hempty : s.run.annotations = .empty := by
    cases h <;> rfl
  have hnone : (Table.empty : Totals).isEmpty = true := rfl
  simp [Ouro.countsFor, annotates, hempty, hnone]

/-- What counts stays on a path on which no run ends. -/
theorem Path.countsFor {c c' : Core} (h : Path env now may c c') (hinv : Inv c)
    (hmay : ∀ i, ¬may i .finish) (name : String) (start : Int) (i : String) :
    (c'.run.get i).any (Ouro.countsFor name start) = (c.run.get i).any (Ouro.countsFor name start) := by
  refine h.keep hinv (P := fun c' => (c'.run.get i).any (Ouro.countsFor name start) =
    (c.run.get i).any (Ouro.countsFor name start)) ?_ rfl
  intro c₁ c₂ hinv₁ hmove heq
  rw [← heq]
  have hkeep : ∀ j s s', c₁.run.get j = some s → c₂.run.get j = some s' →
      s'.run.endedMs = s.run.endedMs := by
    rcases hmove.live_or_finish with hkeep | ⟨root, -, hfinish, -⟩
    · exact hkeep
    · exact absurd hfinish (hmay root)
  have hrow := hmove.row i
  generalize hs : c₁.run.get i = o at hrow
  generalize hs' : c₂.run.get i = o' at hrow
  cases hrow with
  | same => rfl
  | new hid hnew => simp [hnew.countsFor]
  | change hid hchange =>
    simp only [Option.any_some]
    exact hchange.countsFor (hinv₁.sane _ _ hs) (hkeep i _ _ hs hs') name start

/-- A transaction that ends no run and leaves the totals alone. -/
structure Idle (env : Env) (now : Int) (σ σ' : Rows) : Prop where
  runs : Reaches env now (fun _ a => a ≠ .finish) σ σ'
  totals : SameTotals σ σ'

theorem endedIn_length_eq {σ σ' : Rows} {name : String} {start : Int}
    (h : ∀ i, (σ'.run.get i).any (countsFor name start) = (σ.run.get i).any (countsFor name start)) :
    (endedIn σ' name start).length = (endedIn σ name start).length :=
  Table.countRows_eq h

/-- The store is good and its buckets are right. -/
def Tallied (σ : Rows) : Prop := Good σ ∧ Counted σ

theorem Tallied.idle {σ σ' : Rows} (hσ : Tallied σ) (h : Idle env now σ σ') : Tallied σ' := by
  refine ⟨h.runs.good hσ.1, fun name start => ?_⟩
  have hpath := (h.runs hσ.1).2
  rw [endedIn_length_eq (hpath.countsFor hσ.1.inv (fun _ hne => hne rfl) name start), ← hσ.2 name start]
  have ht : σ'.totals = σ.totals := h.totals
  rw [bucketRuns, bucketRuns, ht]

/-- A transaction none of whose steps ends a run or writes the totals. -/
theorem idle_steps {α : Type} {m : Txn α} {may : String → Act → Prop} (hmay : ∀ i, ¬may i .finish)
    (hruns : Steps (Reaches env now may) m) (htotals : Steps SameTotals m) :
    Steps (Tx.Keeps Tallied) m := by
  intro σ a σ' h hσ
  have hidle : Idle env now σ σ' := ⟨(hruns h).mono fun i a ha heq => hmay i (heq ▸ ha), htotals h⟩
  exact hσ.idle hidle

theorem quiet_steps {α : Type} {m : Txn α} (hruns : Steps Quiet m) (htotals : Steps SameTotals m) :
    Steps (Tx.Keeps Tallied) m := by
  rintro σ a σ' h ⟨hgood, hcounted⟩
  have hquiet := hruns h
  have ht : σ'.totals = σ.totals := htotals h
  refine ⟨hquiet.good hgood, fun name start => ?_⟩
  rw [bucketRuns, ht, endedIn, show σ'.run = σ.run from congrArg Core.run hquiet.1]
  exact hcounted name start

/-! ### What the end of a tree adds -/

/-- The runs a list of tallies has for a definition. -/
def addedRuns (l : List (String × (Nat × Totals))) (name : String) : Nat :=
  (l.map fun row => if row.1 = name then row.2.1 else 0).sum

theorem addedRuns_eq {l : List (String × (Nat × Totals))} (hl : (l.map Prod.fst).Nodup) (name : String) :
    (∀ r, (name, r) ∈ l → addedRuns l name = r.1) ∧
      ((∀ r, (name, r) ∉ l) → addedRuns l name = 0) := by
  induction l with
  | nil => exact ⟨fun r hr => by simp at hr, fun _ => rfl⟩
  | cons row l ih =>
    obtain ⟨hrow, hl⟩ := List.nodup_cons.mp hl
    obtain ⟨hin, hout⟩ := ih hl
    have hcons : addedRuns (row :: l) name = (if row.1 = name then row.2.1 else 0) + addedRuns l name := rfl
    refine ⟨fun r hr => ?_, fun h => ?_⟩
    · rcases List.mem_cons.mp hr with rfl | hr
      · -- the name is in no other row
        rw [hcons, if_pos rfl, hout fun r' hr' => hrow (List.mem_map.mpr ⟨(name, r'), hr', rfl⟩)]
        rfl
      · have hne : row.1 ≠ name := fun heq => hrow (heq ▸ List.mem_map_of_mem hr)
        rw [hcons, if_neg hne, hin r hr, Nat.zero_add]
    · have hne : row.1 ≠ name := fun heq => h row.2 (by rw [← heq]; exact List.mem_cons_self)
      rw [hcons, if_neg hne, hout fun r hr => h r (List.mem_cons_of_mem _ hr)]

theorem addedRuns_rows (ended : Engine.Ended) (name : String) : addedRuns ended.rows name = ended.runs name := by
  have hnodup : (Table.rows ended).map Prod.fst |>.Nodup :=
    (List.pairwise_map.mpr (Table.rows_sorted ended)).imp ne_of_lt
  obtain ⟨hin, hout⟩ := addedRuns_eq hnodup name
  unfold Engine.Ended.runs
  cases hrow : Table.get ended name with
  | none => exact hout fun r hr => by rw [Table.mem_rows, hrow] at hr; cases hr
  | some r => exact hin r ((Table.mem_rows ended).mpr hrow)

theorem bucketRuns_addBucket {σ σ' : Rows} {name : String} {runs : Nat} {annotations : Totals} {u : Unit}
    (h : addBucket env name now runs annotations σ = .ok (u, σ')) (other : String) (start : Int) :
    bucketRuns σ' other start = if name = other ∧ bucketStart now = start then
      min (bucketRuns σ other start + runs) u64Max else bucketRuns σ other start := by
  obtain rfl := write_ok.mp h
  simp only [bucketRuns, Table.get_putAt]
  split
  · next heq =>
    obtain ⟨rfl, rfl⟩ := heq
    cases (σ.totals name).get (bucketStart now) <;> rfl
  · rfl

/-- The tallies of a tree go into the bucket of its end, once each. -/
theorem addBuckets_ok {l : List (String × (Nat × Totals))} :
    ∀ {σ σ' : Rows} {u : Unit}, (∀ name start, bucketRuns σ name start ≤ u64Max) →
      Tx.each (fun row : String × (Nat × Totals) => addBucket env row.1 now row.2.1 row.2.2) l σ =
        .ok (u, σ') →
      ∀ name start, bucketRuns σ' name start =
        min (bucketRuns σ name start + if bucketStart now = start then addedRuns l name else 0) u64Max := by
  induction l with
  | nil =>
    intro σ σ' u hle h name start
    obtain ⟨-, rfl⟩ := pure_ok.mp h
    simp [addedRuns, hle name start]
  | cons row l ih =>
    intro σ σ' u hle h name start
    obtain ⟨u₁, σ₁, hrow, h⟩ := bind_ok.mp h
    -- one bucket more: its runs grow by what the row adds, up to the greatest count
    have hbucket := bucketRuns_addBucket hrow
    have hle₁ : ∀ name start, bucketRuns σ₁ name start ≤ u64Max := by
      intro name start
      rw [hbucket]
      split
      · exact Nat.min_le_right _ _
      · exact hle name start
    rw [ih hle₁ h name start, hbucket name start]
    have hcons : addedRuns (row :: l) name = (if row.1 = name then row.2.1 else 0) + addedRuns l name := rfl
    rw [hcons]
    -- whether the row is of this definition and this hour
    by_cases hname : row.1 = name <;> by_cases hstart : bucketStart now = start <;>
      simp only [hname, hstart, and_true, and_false, if_true, if_false] <;> omega

theorem countsFor_ending (name : String) (start : Int) (s : StoredRun) (status : Status) (spent : Nat) :
    countsFor name start (ending s status spent now) =
      (annotates s.run name && decide (bucketStart now = start)) := rfl

theorem countsFor_live {s : StoredRun} (hl : s.run.endedMs = none) (name : String) (start : Int) :
    countsFor name start s = false := by
  simp [countsFor, hl]

/-- The runs of a tree that count for a bucket once it has ended. -/
def tallied (c : Core) (now : Int) (ids : List String) (name : String) (start : Int) : List String :=
  if bucketStart now = start then annotating c name ids else []

/-- Once a tree has ended, its runs with annotations count for the bucket of that instant, and every
other run as before. -/
theorem countsFor_endedRows {c : Core} {s₀ : StoredRun} {status : Status} {spent : Nat}
    {budget : Table String Nat} {ids : List String} (hs : c.run.get s₀.id = some s₀)
    (hl : s₀.run.endedMs = none) (hsub : Subtree c s₀.id ids) (name : String) (start : Int) (i : String) :
    ((endedRows c s₀ status spent budget now ids).run.get i).any (countsFor name start) = true ↔
      (c.run.get i).any (countsFor name start) = true ∨
        i ∈ tallied c now (s₀.id :: ids) name start := by
  have hmem : i ∈ tallied c now (s₀.id :: ids) name start ↔ i ∈ s₀.id :: ids ∧
      (c.run.get i).any (fun s => annotates s.run name && decide (bucketStart now = start)) = true := by
    unfold tallied annotating
    by_cases hstart : bucketStart now = start <;> simp [hstart, List.mem_filter]
  rw [hmem, get_endedRows hsub.nodup]
  by_cases hroot : s₀.id = i
  · subst hroot
    simp [hs, countsFor_ending, countsFor_live hl]
  · rw [if_neg hroot]
    by_cases hi : i ∈ ids
    · obtain ⟨s, link, -, hget, hlive, -⟩ := hsub.owned i hi
      simp [hi, hget, countsFor_ending, countsFor_live hlive]
    · simp [hi, Ne.symm hroot]

theorem tallied_new {c : Core} {s₀ : StoredRun} {ids : List String} (hs : c.run.get s₀.id = some s₀)
    (hl : s₀.run.endedMs = none) (hsub : Subtree c s₀.id ids) {name : String} {start : Int} {i : String}
    (hi : i ∈ tallied c now (s₀.id :: ids) name start) :
    (c.run.get i).any (countsFor name start) = false := by
  have hmem : i ∈ s₀.id :: ids := by
    unfold tallied at hi
    split at hi
    · exact (List.mem_filter.mp hi).1
    · simp at hi
  rcases List.mem_cons.mp hmem with rfl | hmem
  · simp [hs, countsFor_live hl]
  · obtain ⟨s, link, -, hget, hlive, -⟩ := hsub.owned i hmem
    simp [hget, countsFor_live hlive]

theorem tallied_nodup {c : Core} {ids : List String} (h : ids.Nodup) (name : String) (start : Int) :
    (tallied c now ids name start).Nodup := by
  unfold tallied
  split
  · exact h.filter _
  · exact List.nodup_nil

/-! ### The end of a run -/

namespace Engine

theorem drains_idle {names : List String} {σ σ' : Rows} {u : Unit}
    (h : Tx.each (fun name => drainQueues env name now) names σ = .ok (u, σ')) : Idle env now σ σ' := by
  have hfills : ∀ name, Steps (Fills env now fun _ a => a ≠ .finish) (drainQueues env name now) :=
    fun name => drainQueues_fills (by simp) name
  exact ⟨Steps.each (fun name => (hfills name).mono fun _ _ => Fills.reaches) names h,
    Steps.each (fun name => drainQueues_catalog name) names h⟩

theorem terminates_totals {σ σ' : Rows} {s : StoredRun} {status : Status}
    (h : Terminates env now σ s status σ') : SameTotals σ σ' := by
  cases h with
  | cancel => exact refl_of SameTotals σ
  | finish hs ht hstore hb =>
    exact trans_of SameTotals (storeRun_frame _ hstore) (breaker_totals _ _ _ _ _ _ hb)

/-- Ending a tree counts each run of it once, in the bucket of that instant. -/
theorem terminate_counted {c : Core} {s₀ s : StoredRun} {status : Status} {σ σ' : Rows} {u : Unit}
    (h : Limbo c s₀ σ s) (ht : status.terminal = true)
    (hcounted : ∀ name start, bucketRuns σ name start =
      min (c.run.rowsOf (countsFor name start)).length u64Max)
    (hend : terminate env s₀.id status now σ = .ok (u, σ')) : Counted σ' := by
  -- the cascade, the notice, the drains, and the tallies at the end
  simp only [terminate, bind_ok] at hend
  obtain ⟨acc, σ₁, htree, u₁, σ₂, hlife, u₂, σ₃, hdrain, hbuckets⟩ := hend
  obtain ⟨acc', σ₁', htotal, hindexed, hsub, hgathered, hcore⟩ := endTree_total env h status now
  obtain ⟨rfl, rfl⟩ : acc' = acc ∧ σ₁' = σ₁ := by
    rw [htotal] at htree
    simpa using htree
  obtain ⟨hgood, -, -, hself⟩ := endTree_carries h ht htree
  -- neither the notice nor the drains end a run or touch the totals
  have hidle : Idle env now σ₁' σ₃ := by
    have hlife' : Idle env now σ₁' σ₂ :=
      ⟨(lifecycle_works hself rfl hlife).runs.mono fun _ _ hidles => hidles.1, lifecycle_frame _ _ hlife⟩
    have hdrain' := drains_idle hdrain
    exact ⟨trans_of (Reaches env now _) hlife'.runs hdrain'.runs,
      trans_of SameTotals hlife'.totals hdrain'.totals⟩
  -- the buckets are as they were until the tallies go in
  have htotals : σ₃.totals = σ.totals :=
    trans_of SameTotals (endTree_catalog (R := SameTotals) _ _ htree) hidle.totals
  have hbefore : ∀ name start, bucketRuns σ₃ name start = bucketRuns σ name start := by
    intro name start
    rw [bucketRuns, bucketRuns, htotals]
  intro name start
  -- the tallies add to each bucket the runs gathered for it
  have hadded := addBuckets_ok (fun name start => by
    rw [hbefore, hcounted]
    exact Nat.min_le_right _ _) hbuckets name start
  rw [hadded, hbefore, hcounted, addedRuns_rows, hgathered.runs]
  -- the runs of the tree are those that come to count
  have hcore' : σ'.run = σ₃.run := congrArg Core.run
    (Steps.each (fun row : String × (Nat × Totals) => addBucket_quiet row.1 now row.2.1 row.2.2) _ hbuckets).1
  have hpath := (hidle.runs hgood).2
  have hcount : (endedIn σ' name start).length = (c.run.rowsOf (countsFor name start)).length +
      (tallied c now (s₀.id :: acc'.visited) name start).length := by
    refine Table.countRows_add (tallied_nodup hsub.nodup name start) (fun i => ?_)
      fun i hi => tallied_new h.stored h.live hsub hi
    rw [hcore', hpath.countsFor hgood.inv (fun _ hne => hne rfl), congrArg Core.run hcore]
    exact countsFor_endedRows h.stored h.live hsub name start i
  rw [hcount, tallied]
  -- it is the bucket of this instant, or another, where nothing was added
  by_cases hstart : bucketStart now = start
  · simp only [hstart, if_true]
    omega
  · simp only [hstart, if_false, List.length_nil]
    omega

theorem ends_tallied {id : String} {σ σ' : Rows} (hσ : Tallied σ) (h : Ends env now id σ σ') :
    Tallied σ' := by
  have hreach : Reaches env now (fun _ _ => True) σ σ' := h.reaches trivial fun _ => trivial
  refine ⟨hreach.good hσ.1, ?_⟩
  obtain ⟨s, status, σ₁, rfl, hterm, hend⟩ := h
  obtain ⟨hs, hl, n, s', hlimbo, -⟩ := hterm.limbo hσ.1
  refine terminate_counted hlimbo hterm.terminal (fun name start => ?_) hend
  have htotals : σ₁.totals = σ.totals := terminates_totals hterm
  rw [bucketRuns, htotals]
  refine (hσ.2 name start).trans (congrArg (min · u64Max) (Table.countRows_eq fun i => ?_))
  rw [Core.get_set]
  split
  · next hi =>
    have hi : s.id = i := hi
    subst hi
    rw [hs]
    rfl
  · rfl

theorem cancelRun_tallied (id : String) : Steps (Tx.Keeps Tallied) (cancelRun env id now) := by
  intro σ b σ' h hσ
  rcases cancelRun_cases hσ.1 h with rfl | hend
  · exact hσ
  · exact ends_tallied hσ hend

theorem finish_tallied (f : Fence) (outcome : Status) (threshold : Nat) :
    Steps (Tx.Keeps Tallied) (finish env f outcome now threshold) := by
  intro σ r σ' h hσ
  rcases finish_cases (fun _ a => a ≠ .finish) hσ.1 h with ⟨hreach, s, u, σ₁, u', hstore, hlife⟩ | hend
  · exact hσ.idle ⟨hreach, trans_of SameTotals (storeRun_frame _ hstore) (lifecycle_frame _ _ hlife)⟩
  · exact ends_tallied hσ hend

/-! ### Firings -/

theorem books_idle (i : String) : ¬Books i .finish := by
  simp [Books]

theorem slotOutcome_totals (f : Firing) (guard_ : OverlapGuard) (a : Admission)
    (live : List (IndexKey × IndexValue)) : Steps SameTotals (slotOutcome f guard_ a live) := by
  refine .bind .read fun room => .bind .read fun queued => ?_
  split
  · exact .pure
  · split
    · split
      · exact .bind (.write fun _ => rfl) fun _ => .pure
      · exact .pure
    · exact .pure

/-- The runs a firing replaces are counted as they end. -/
theorem disposition_tallied (f : Firing) : Steps (Tx.Keeps Tallied) (disposition env f now) := by
  have hslot : ∀ guard_ a live, Steps (Tx.Keeps Tallied) (slotOutcome f guard_ a live) := fun guard_ a live =>
    quiet_steps (slotOutcome_quiet f guard_ a live) (slotOutcome_totals f guard_ a live)
  have hreplace : ∀ live, Steps (Tx.Keeps Tallied) (replaceLive env live now) :=
    fun live => replaceLive_steps cancelRun_tallied live
  unfold disposition
  split
  · refine .bind .ensure fun _ => .bind .ensure fun _ => .bind .ensure fun _ => .bind .read fun found => ?_
    split
    · exact .pure
    · refine .bind .read fun live => ?_
      simp only
      split
      · exact .bind (hreplace live) fun _ => hslot _ _ live
      · exact hslot _ _ live
  · exact .pure
  · split
    · exact .pure
    · split
      · exact .pure
      · refine .bind .read fun last => ?_
        split
        · exact .pure
        · refine .bind .read fun found => ?_
          split <;> exact .pure

theorem fire_tallied (f : Firing) : Steps (Tx.Keeps Tallied) (fire env f now) := by
  have hdrain : Steps (Tx.Keeps Tallied) (drainFor env f now) :=
    idle_steps books_idle ((drainFor_fills books f).mono fun _ _ => Fills.reaches) (drainFor_catalog f)
  have hcommit : ∀ current outcome, Steps (Tx.Keeps Tallied) (commitFiring env f current outcome now) :=
    fun current outcome => idle_steps books_idle (commitFiring_reaches books f current outcome)
      fun _ _ _ h => commitFiring_catalog (fun _ _ hput => write_ok.mp hput ▸ rfl) h
  have htake : Steps (Tx.Keeps Tallied) (ingestFiring env f now) :=
    quiet_steps (ingestFiring_quiet f) (ingestFiring_catalog f)
  refine .bind .read fun stopped => ?_
  split
  · exact .pure
  · refine .bind .ensure fun _ => .bind hdrain fun drained => .bind .read fun current => ?_
    split
    · exact .pure
    · refine .bind (firstRefusal_reads _ _).of_eq fun refusal => ?_
      split
      · exact .pure
      · refine .map (.bind (ingested_reads f).of_eq fun used => ?_)
        split
        · exact .pure
        · refine .bind (disposition_tallied f) fun outcome => .bind htake fun used => ?_
          split
          · exact .pure
          · exact hcommit _ _

/-! ### Commands -/

theorem suspend_totals (name : String) (defs : Definitions) : Steps SameTotals (suspend name defs) :=
  .bind (.write fun _ => rfl) fun _ => arm_catalog _ _

theorem pause_totals (request : Request) (name note : String) :
    Steps SameTotals (pause request name note now) := by
  refine .bind (.bind .read fun _ => .orFail) fun defs => ?_
  simp only
  split
  · split
    · exact .bind (suspend_totals _ _) fun _ => .bind (storeDefinitions_totals _ _) fun _ => .pure
    · exact .pure
  · exact .bind .orFail fun _ => .bind (suspend_totals _ _) fun _ =>
      .bind (storeDefinitions_totals _ _) fun _ => .pure

theorem resume_totals (name : String) : Steps SameTotals (resume env name now) := by
  refine .bind (.bind .read fun _ => .orFail) fun defs => ?_
  split
  · exact .pure
  · refine .bind .ensure fun _ => .bind .read fun _ => .bind .orFail fun paused =>
      .bind .ensure fun _ => .bind (arm_catalog _ _) fun _ => .bind (.each (fun row => ?_) _)
      fun _ => .bind (.write fun _ => rfl) fun _ =>
      .bind (storeDefinitions_totals _ _) fun _ => .bind (drainQueues_catalog _) fun _ => .pure
    exact .bind .ensure fun _ => .write fun _ => rfl

theorem stop_totals (enabled : Bool) : Steps SameTotals (stop env enabled now) := by
  refine .bind .read fun stopped => ?_
  split
  · exact .pure
  · split
    · exact .bind (.write fun _ => rfl) fun _ => .pure
    · exact .bind (.write fun _ => rfl) fun _ => .bind (drainPending_catalog _) fun _ => .pure

/-- A command that is no cancel leaves the totals alone. -/
theorem perform_totals {request : Request} {command canonical : Command}
    (hcommand : ∀ run, command ≠ .cancel run) :
    Steps SameTotals (perform env request command canonical now) := by
  cases command with
  | cancel run => exact absurd rfl (hcommand run)
  | pause name note => exact .map (pause_totals request name note)
  | resume name => exact .map (resume_totals name)
  | hold run note => exact .map (setHold_frame run _)
  | release run => exact .map (setHold_frame run none)
  | stop enabled => exact .map (stop_totals enabled)
  | respond id key event =>
    refine .bind .orFail fun i => .bind .read fun found => ?_
    split
    · exact .bind .ensure fun _ => .pure
    · exact .bind (answerWait_frame _ _ _ _) fun _ => .bind (.write fun _ => rfl) fun _ => .pure

theorem applyControl_tallied (request : Request) (command : Command) :
    Steps (Tx.Keeps Tallied) (applyControl env request command now) := by
  have hperform : ∀ canonical, Steps (Tx.Keeps Tallied) (perform env request command canonical now) := by
    intro canonical
    by_cases hcancel : ∃ run, command = .cancel run
    · obtain ⟨run, rfl⟩ := hcancel
      exact .map (cancelRun_tallied run)
    · have hcommand : ∀ run, command ≠ .cancel run := fun run heq => hcancel ⟨run, heq⟩
      refine idle_steps (fun i hfinish => ?_) (perform_reaches request command canonical fun _ _ h => h)
        (perform_totals hcommand)
      cases command with
      | cancel run => exact hcommand run rfl
      | _ => exact hfinish
  refine .bind .ensure fun _ => .bind .read fun found => ?_
  split
  · exact .bind .ensure fun _ => .pure
  · exact .bind (hperform _) fun reply => .bind (quiet_steps (audit_quiet _) (.write fun _ => rfl))
      fun _ => .pure

end Engine

/-! ### Every call -/

/-- The call may end runs. -/
def Op.mayEnd : Op → Bool
  | .finish _ _ _ _ | .cancel _ _ | .fire _ _ | .applyControl _ _ _ => true
  | _ => false

theorem Op.tx_totals {op : Op} (hop : op.mayEnd = false) : Steps SameTotals (op.tx env) := by
  cases op with
  | admitRun a t => exact .map (admitRun_catalog a)
  | start a t owner => exact .map (start_catalog a owner)
  | claimAs id t worker owner => exact .map (claimAs_frame id worker owner)
  | checkLease f t => exact .map (checkLease_frame f)
  | renew f t => exact .map (renew_frame f)
  | release f t => exact .map (release_frame f)
  | loadRecords f t => exact .map (loadRecords_frame f)
  | saveRecord f k r t => exact .map (saveRecord_frame f k r)
  | registerWait f types t => exact .map (registerWait_frame f types)
  | unregisterWait f k types t => exact .map (unregisterWait_frame f k types)
  | describeWait f k wait t => exact .map (describeWait_frame f k wait)
  | deliver event target t => exact .map (deliver_frame event target)
  | takeEvent f k types t => exact .map (takeEvent_frame f k types)
  | subscribe f k types t => exact .map (subscribe_frame f k types)
  | unsubscribe f k t => exact .map (unsubscribe_frame f k)
  | publish event target t => exact .map (publish_frame event target)
  | startChild p a link t owner => exact .map (startChild_catalog p a link owner)
  | spend f k limit t => exact .map (spend_frame f k limit)
  | dueAs t limit worker => exact .map (dueAs_catalog limit worker)
  | sweep t kept => exact .map (sweep_catalog kept)
  | saveDefinition name yaml breaker =>
    exact .map (.bind .read fun _ => .bind .orFail fun _ => .bind (storeDefinitions_totals _ _) fun _ => .pure)
  | activate name version t => exact .map (activate_totals _ _ _ _ _)
  | activateWith name version epoch arming activation => exact .map (activate_totals _ _ _ _ _)
  | acknowledge key => exact .map (acknowledge_catalog key)
  | beat worker => exact .map (beat_catalog worker)
  | finish | cancel | fire | applyControl => simp [Op.mayEnd] at hop

theorem Op.may_finish {op : Op} (hop : op.mayEnd = false) (i : String) : ¬op.may i .finish := by
  cases op <;> first | exact id | simp [Op.mayEnd] at hop

/-- Every call keeps the buckets right. -/
theorem Op.tallied (op : Op) : Steps (Tx.Keeps Tallied) (op.tx env) := by
  by_cases hop : op.mayEnd = false
  · have hreach : Steps (Reaches env (op.instant.getD 0) op.may) (op.tx env) :=
      op.tx_reaches (by cases op.instant <;> simp) fun _ _ h => h
    exact idle_steps (Op.may_finish hop) hreach (op.tx_totals hop)
  · cases op with
    | finish f outcome t threshold => exact .map (finish_tallied f outcome threshold)
    | cancel id t => exact .map (cancelRun_tallied id)
    | fire f t => exact .map (fire_tallied f)
    | applyControl request command t => exact .map (applyControl_tallied request command)
    | _ => exact absurd rfl hop

theorem counted_after (env : Env) (history : List Op) : Counted (after env history) := by
  have htallied : Tallied (after env history) := by
    have hempty : Tallied .empty := ⟨Good.empty, fun name start => rfl⟩
    refine runs_keep hempty (fun σ op hσ => ?_) history
    rcases step_cases env σ op with ⟨heq, -⟩ | ⟨r, h, -⟩
    · rwa [heq]
    · exact op.tallied h hσ
  exact htallied.2

/-! ### All buckets of a definition -/

/-- The ended runs of a definition that have annotation totals. -/
def endedRuns (σ : Rows) (name : String) : List (String × StoredRun) :=
  σ.run.rowsOf fun s => annotates s.run name && s.run.endedMs.isSome

/-- A run that ended is counted in one bucket, the one its end lies in, and no other run is. -/
theorem mem_endedIn {σ : Rows} {name : String} {start : Int} {row : String × StoredRun} :
    row ∈ endedIn σ name start ↔
      row ∈ endedRuns σ name ∧ bucketStart (row.2.run.endedMs.getD 0) = start := by
  obtain ⟨i, s⟩ := row
  unfold endedIn endedRuns
  rw [Table.mem_rowsOf, Table.mem_rowsOf, countsFor, and_assoc, Bool.and_eq_true, Bool.and_eq_true]
  cases s.run.endedMs <;> simp

theorem endedIn_eq_filter (σ : Rows) (name : String) (start : Int) :
    endedIn σ name start =
      (endedRuns σ name).filter fun row => bucketStart (row.2.run.endedMs.getD 0) = start := by
  unfold endedIn endedRuns Table.rowsOf
  rw [List.filter_filter]
  refine List.filter_congr fun row _ => ?_
  simp only [countsFor]
  cases row.2.run.endedMs <;> simp [Bool.and_comm]

theorem values_runs (σ : Rows) (name : String) :
    (σ.totals name).values.map (·.runs) = (σ.totals name).keys.map (bucketRuns σ name) := by
  unfold Table.values Table.keys
  rw [List.map_map, List.map_map]
  refine List.map_congr_left fun row hrow => ?_
  have hget : (σ.totals name).get row.1 = some row.2 := (Table.mem_rows _).mp hrow
  simp [bucketRuns, hget]

/-- Over all buckets of a definition every one of its ended runs is counted once. -/
theorem Counted.sum {σ : Rows} (h : Counted σ) {name : String}
    (hfew : (endedRuns σ name).length ≤ u64Max) :
    ((σ.totals name).values.map (·.runs)).sum = (endedRuns σ name).length := by
  have hlength : ∀ start, bucketRuns σ name start =
      ((endedRuns σ name).filter fun row => bucketStart (row.2.run.endedMs.getD 0) = start).length := by
    intro start
    have hle := (endedIn_eq_filter σ name start ▸ List.length_filter_le ..).trans hfew
    rw [h name start, min_eq_left hle, endedIn_eq_filter]
  have hnodup : (σ.totals name).keys.Nodup :=
    (List.pairwise_map.mpr (Table.rows_sorted _)).imp ne_of_lt
  rw [values_runs, List.map_congr_left fun start _ => hlength start]
  refine sum_groups hnodup _ fun row hrow => ?_
  -- a bucket that counts a run is stored
  by_contra hnone
  have hempty : bucketRuns σ name (bucketStart (row.2.run.endedMs.getD 0)) = 0 := by
    cases hget : (σ.totals name).get (bucketStart (row.2.run.endedMs.getD 0)) with
    | none => simp [bucketRuns, hget]
    | some b => exact absurd ((Table.mem_keys _).mpr ⟨b, hget⟩) hnone
  rw [hlength, List.length_eq_zero_iff, List.filter_eq_nil_iff] at hempty
  exact hempty row hrow (decide_eq_true rfl)

/-! ### Where buckets start -/

/-- The bucket of an instant contains it. -/
theorem bucketStart_contains {ms : Int} (hge : i64Min ≤ ms) (hle : ms ≤ i64Max) :
    bucketStart ms ≤ ms ∧ ms < bucketStart ms + totalsBucketMs := by
  unfold bucketStart satSub clamp totalsBucketMs
  unfold i64Min at *
  unfold i64Max at *
  omega

/-- Every stored bucket starts where the bucket of some instant does. -/
def Aligned (σ : Rows) : Prop :=
  ∀ name start, (σ.totals name).contains start = true → ∃ ms, start = bucketStart ms

theorem Aligned.of_totals {σ σ' : Rows} (hσ : Aligned σ) (h : SameTotals σ σ') : Aligned σ' := by
  intro name start hin
  have ht : σ'.totals = σ.totals := h
  exact hσ name start (ht ▸ hin)

instance : RunFrame (Tx.Keeps Aligned) where
  core _ _ _ h := h

instance : TotalFrame (Tx.Keeps Aligned) where
  book _ _ h hσ := hσ.of_totals h.totals
  trigger _ _ := .bind .read fun _ => .write fun _ h => h
  breaker env r fault success default now :=
    (breaker_totals env r fault success default now).mono fun _ _ h hσ => hσ.of_totals h
  bucket env name now runs annotations := .write fun σ hσ other start hin => by
    simp only [Table.contains, Table.get_putAt] at hin
    split at hin
    · next heq => exact ⟨now, heq.2.symm⟩
    · exact hσ other start hin

theorem perform_aligned (request : Request) (command canonical : Command) :
    Steps (Tx.Keeps Aligned) (perform env request command canonical now) := by
  by_cases hcancel : ∃ run, command = .cancel run
  · obtain ⟨run, rfl⟩ := hcancel
    exact .map (cancelRun_catalog run)
  · exact (perform_totals fun run heq => hcancel ⟨run, heq⟩).mono fun _ _ h hσ => hσ.of_totals h

theorem Op.aligned (op : Op) : Steps (Tx.Keeps Aligned) (op.tx env) := by
  by_cases hop : op.mayEnd = false
  · exact (op.tx_totals hop).mono fun _ _ h hσ => hσ.of_totals h
  · cases op with
    | finish f outcome t threshold => exact .map (finish_catalog f outcome threshold)
    | cancel id t => exact .map (cancelRun_catalog id)
    | fire f t => exact .map (fire_catalog (fun _ _ _ => .write fun _ h => h) f)
    | applyControl request command t =>
      refine .map (.bind .ensure fun _ => .bind .read fun found => ?_)
      split
      · exact .bind .ensure fun _ => .pure
      · exact .bind (perform_aligned _ _ _) fun reply => .bind (.write fun _ h => h) fun _ => .pure
    | _ => exact absurd rfl hop

theorem aligned_after (env : Env) (history : List Op) : Aligned (after env history) := by
  refine runs_keep (fun name start hin => by simp [Rows.empty, Table.contains] at hin)
    (fun σ op hσ => ?_) history
  rcases step_cases env σ op with ⟨heq, -⟩ | ⟨r, h, -⟩
  · rwa [heq]
  · exact op.aligned h hσ

end Ouro
