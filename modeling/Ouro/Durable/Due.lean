import Ouro.Durable.Authority
import Ouro.Lib.Pages

/-!
# What a worker is offered

`dueAs` reads the due runs from the index: all of them in one range for an undeclared worker, one page
for each application version a declared worker covers, merged. `dueLine` is the listing by a search of
all runs, in the order of due instants and then of ids, of those that satisfy a condition.

The first page of the runs in the partitions is what `dueAs` returns (`dueAs_line`). The partition of
undeclared runs is the one of the empty version too, so a run that declares the empty version is
offered to every worker, while `claimAs` decides from the declaration. `due_as_exact` says for which
stores, workers and limits the page is the one of the runs the worker may claim.
-/

namespace Ouro

open Lib Engine Tx

variable {env : Env} {now : Int}

/-! ### The line of due runs -/

/-- When a claimable run became due. -/
def dueInstant (r : SavedRun) : Int :=
  if r.state = .running then r.leaseUntilMs.getD r.wakeAtMs else r.wakeAtMs

/-- A run's place in the line. -/
def dueKey (s : StoredRun) : Int ×ₗ String := toLex (dueInstant s.run, s.id)

/-- The run is live and may be claimed at `now`. -/
def Due (now : Int) (s : StoredRun) : Prop := s.run.endedMs = none ∧ claimable s.run now = true

instance (now : Int) (s : StoredRun) : Decidable (Due now s) :=
  inferInstanceAs (Decidable (_ ∧ _))

/-- The places of the due runs that satisfy `p`, by a search of all runs. -/
def dueLine (c : Core) (now : Int) (p : StoredRun → Bool) : List (Int ×ₗ String) :=
  ((c.run.values.filter fun s => decide (Due now s) && p s).map dueKey).insertionSort (· ≤ ·)

/-- The worker may claim the run. -/
def admitting (worker : Compatibility) (s : StoredRun) : Bool :=
  worker.admits s.run.admission.applicationVersion

/-- The run is in a partition that the worker reads. -/
def covered (worker : Compatibility) (s : StoredRun) : Bool :=
  worker.version.all fun own =>
    (versionsOf own worker.accepts).contains (s.run.admission.applicationVersion.getD "")

theorem mem_dueLine {c : Core} {p : StoredRun → Bool} {k : Int ×ₗ String} :
    k ∈ dueLine c now p ↔ ∃ i s, c.run.get i = some s ∧ Due now s ∧ p s = true ∧ k = dueKey s := by
  unfold dueLine
  simp only [List.mem_insertionSort, List.mem_map, List.mem_filter, Table.mem_values,
    Bool.and_eq_true, decide_eq_true_eq]
  constructor
  · rintro ⟨s, ⟨⟨i, hs⟩, hdue, hp⟩, rfl⟩
    exact ⟨i, s, hs, hdue, hp, rfl⟩
  · rintro ⟨i, s, hs, hdue, hp, rfl⟩
    exact ⟨s, ⟨⟨i, hs⟩, hdue, hp⟩, rfl⟩

/-- No run has two places. -/
theorem dueLine_increasing {σ : Rows} (hσ : Indexed σ) (p : StoredRun → Bool) :
    (dueLine σ.toCore now p).Pairwise (· < ·) := by
  refine increasing_insertionSort ?_
  have hrows : σ.run.values.Pairwise fun s t => s.id ≠ t.id := by
    unfold Table.values
    rw [List.pairwise_map]
    refine (σ.run.rows_sorted.imp_of_mem ?_)
    rintro ⟨i, s⟩ ⟨j, t⟩ hs ht hlt heq
    have hi := hσ.keyed i s ((Table.mem_rows _).mp hs)
    have hj := hσ.keyed j t ((Table.mem_rows _).mp ht)
    exact absurd hlt (by rw [show i = s.id from hi.symm, show j = t.id from hj.symm, heq]; exact lt_irrefl _)
  unfold List.Nodup
  rw [List.pairwise_map]
  exact (hrows.filter _).imp fun hne heq => hne (congrArg (fun k => (ofLex k).2) heq)

/-- The due instant of an unheld run is the one of its index rows. -/
theorem Sane.dueAt_eq {s : StoredRun} (h : Sane s) {at_ : Int} :
    dueAt s = some at_ ↔ s.run.held = none ∧ at_ = dueInstant s.run := by
  unfold dueAt dueInstant
  cases hheld : s.run.held with
  | some hold => simp
  | none =>
    simp only [Option.isSome_none, Bool.false_eq_true, if_false, true_and]
    by_cases hr : s.run.state = .running
    · obtain ⟨lease, hlease⟩ := Option.isSome_iff_exists.mp (h.lease_iff.mp hr)
      simp [hr, hlease, eq_comm]
    · simp [hr, eq_comm]

/-- A live run is due exactly when its index rows lie in the range of the instant. -/
theorem Sane.due_iff {s : StoredRun} (h : Sane s) :
    Due now s ↔ s.run.endedMs = none ∧ s.run.held = none ∧ dueInstant s.run ≤ now := by
  unfold Due claimable dueInstant
  refine and_congr_right fun hl => ?_
  cases hheld : s.run.held with
  | some hold => simp
  | none =>
    simp only [Option.isSome_none, Bool.false_eq_true, if_false, true_and]
    rcases (h.live hl).1 with hs | hs | hs
    · simp [hs]
    · obtain ⟨lease, hlease⟩ := Option.isSome_iff_exists.mp (h.lease_iff.mp hs)
      simp [hs, hlease]
    · simp [hs]

/-! ### Reading the line from the index -/

/-- The place of an index row. -/
def place : IndexId → Int ×ₗ String
  | .timed at_ id => toLex (at_, id)
  | .run id => toLex (0, id)
  | .wait at_ run _ => toLex (at_, run)

/-- The rows of a due index: of the live runs that satisfy `p`, each at its due instant. -/
def DueKind (kind : IndexKind) (p : StoredRun → Bool) : Prop :=
  ∀ s i v, (indexKey kind i, v) ∈ entries s ↔
    s.run.endedMs = none ∧ p s = true ∧ ∃ at_, dueAt s = some at_ ∧ i = .timed at_ s.id ∧ v = .run s.id

theorem dueKind_due : DueKind .due fun _ => true := fun s i v => by
  simp [mem_entries_due]

/-- The run is in the partition of the version. -/
def inPartition (v : String) (s : StoredRun) : Bool :=
  decide (s.run.admission.applicationVersion.getD "" = v)

theorem dueKind_dueApp (app : String) : DueKind (.dueApp app) (inPartition app) := fun s i v => by
  simp [mem_entries_dueApp, inPartition]

section Line

variable {σ : Rows} {kind : IndexKind} {p : StoredRun → Bool}

/-- A row of a due index up to an instant belongs to a due run. -/
theorem DueKind.mem_scan (hkind : DueKind kind p) (hσ : Good σ) {row : IndexKey × IndexValue} :
    row ∈ scanIndex σ kind (untilId now) none ↔
      ∃ i s, σ.run.get i = some s ∧ Due now s ∧ p s = true ∧
        row = (indexKey kind (.timed (dueInstant s.run) s.id), .run s.id) := by
  obtain ⟨k, v⟩ := row
  rw [hσ.indexed.mem_scanIndex]
  constructor
  · rintro ⟨rfl, hrange, s, hs, hentry⟩
    obtain ⟨hl, hp, at_, hat, hi, rfl⟩ := (hkind s (ofLex k).2 v).mp hentry
    have hsane := hσ.inv.sane _ _ hs
    obtain ⟨hheld, rfl⟩ := hsane.dueAt_eq.mp hat
    refine ⟨_, s, hs, hsane.due_iff.mpr ⟨hl, hheld, ?_⟩, hp, ?_⟩
    · rw [hi] at hrange
      simpa [untilId] using hrange
    · rw [← hi]
      rfl
  · rintro ⟨i, s, hs, hdue, hp, heq⟩
    obtain ⟨rfl, rfl⟩ := Prod.mk.inj heq
    have hsane := hσ.inv.sane _ _ hs
    obtain ⟨hl, hheld, hle⟩ := hsane.due_iff.mp hdue
    refine ⟨rfl, ?_, s, ?_, ?_⟩
    · exact decide_eq_true hle
    · rw [← hσ.indexed.keyed i s hs] at hs
      exact hs
    · exact (hkind s _ _).mpr ⟨hl, hp, _, hsane.dueAt_eq.mpr ⟨hheld, rfl⟩, rfl, rfl⟩

/-- A due index up to an instant is the line of its runs. -/
theorem DueKind.places (hkind : DueKind kind p) (hσ : Good σ) :
    (scanIndex σ kind (untilId now) none).map (fun row => place (ofLex row.1).2) =
      dueLine σ.toCore now p := by
  refine eq_of_increasing ?_ (dueLine_increasing hσ.indexed p) fun k => ?_
  · rw [List.pairwise_map]
    refine (σ.index.scan_sorted _).imp_of_mem ?_
    intro a b ha hb hlt
    obtain ⟨-, s, -, -, -, rfl⟩ := (hkind.mem_scan hσ).mp ha
    obtain ⟨-, t, -, -, -, rfl⟩ := (hkind.mem_scan hσ).mp hb
    -- both rows are of one kind, so their places are in the order of their ids
    rcases Prod.Lex.lt_iff.mp hlt with hkind | ⟨-, hid⟩
    · exact absurd hkind (lt_irrefl _)
    · refine lt_of_not_ge fun hge => absurd hid (not_lt.mpr (IndexId.timed_le_iff.mpr ?_))
      exact Prod.Lex.le_iff.mp hge
  · rw [mem_dueLine, List.mem_map]
    constructor
    · rintro ⟨row, hrow, rfl⟩
      obtain ⟨i, s, hs, hdue, hp, rfl⟩ := (hkind.mem_scan hσ).mp hrow
      exact ⟨i, s, hs, hdue, hp, rfl⟩
    · rintro ⟨i, s, hs, hdue, hp, rfl⟩
      exact ⟨_, (hkind.mem_scan hσ).mpr ⟨i, s, hs, hdue, hp, rfl⟩, rfl⟩

/-- One page of a due index. -/
theorem DueKind.page (hkind : DueKind kind p) (hσ : Good σ) (limit : Nat) :
    (scanIndex σ kind (untilId now) (some limit)).map (fun row => place (ofLex row.1).2) =
      (dueLine σ.toCore now p).take limit := by
  rw [← hkind.places hσ, ← List.map_take]
  unfold scanIndex
  rw [Table.scan_some]

/-- The rows of a page lead to the runs of their places. -/
theorem DueKind.mem_page (hkind : DueKind kind p) (hσ : Good σ) {limit : Nat}
    {row : IndexKey × IndexValue} (h : row ∈ scanIndex σ kind (untilId now) (some limit)) :
    ∃ at_ id, (ofLex row.1).2 = .timed at_ id ∧ row.2 = .run id := by
  unfold scanIndex at h
  rw [Table.scan_some] at h
  obtain ⟨-, s, -, -, -, rfl⟩ := (hkind.mem_scan hσ).mp (List.mem_of_mem_take h)
  exact ⟨_, _, rfl, rfl⟩

end Line

theorem collect_dueRun {found : List (IndexKey × IndexValue)} (σ : Rows)
    (h : ∀ row ∈ found, ∃ at_ id, (ofLex row.1).2 = .timed at_ id ∧ row.2 = .run id) :
    Tx.collect dueRun found σ = .ok (found.map fun row => (ofLex (place (ofLex row.1).2)).2, σ) := by
  induction found with
  | nil => rfl
  | cons row found ih =>
    obtain ⟨at_, id, hkey, hvalue⟩ := h row List.mem_cons_self
    simp only [Tx.collect, bind_ok, pure_ok]
    refine ⟨id, σ, ?_, _, σ, ih fun row hrow => h row (List.mem_cons_of_mem _ hrow), ?_, rfl⟩
    · simp [dueRun, hvalue]
    · simp [hkey, place]

/-! ### What `dueAs` returns -/

/-- The ids of a part of the line. -/
def idsOf (line : List (Int ×ₗ String)) : List String := line.map fun k => (ofLex k).2

/-- Rows sorted by their keys are sorted by their places. -/
theorem merged_ids {found : List (IndexKey × IndexValue)} (limit : Nat)
    (h : ∀ row ∈ found, ∃ at_ id, (ofLex row.1).2 = .timed at_ id) :
    ((((found.map fun row => (ofLex row.1).2).zip
      (found.map fun row => (ofLex (place (ofLex row.1).2)).2)).insertionSort
        fun a b => a.1 ≤ b.1).take limit).map (·.2) =
      idsOf (((found.map fun row => place (ofLex row.1).2).insertionSort (· ≤ ·)).take limit) := by
  rw [List.zip_map']
  generalize hm : (found.map fun row => ((ofLex row.1).2, (ofLex (place (ofLex row.1).2)).2)) = merged
  -- the rows carry their instants and ids, in pairs
  have hplaces : (found.map fun row => place (ofLex row.1).2) = merged.map fun x => place x.1 := by
    rw [← hm, List.map_map]
    rfl
  have hrow : ∀ x ∈ merged, ∃ at_ id, x = (.timed at_ id, id) := by
    intro x hx
    rw [← hm] at hx
    obtain ⟨row, hmem, rfl⟩ := List.mem_map.mp hx
    obtain ⟨at_, id, hkey⟩ := h row hmem
    exact ⟨at_, id, by simp [hkey, place]⟩
  rw [hplaces, ← List.map_insertionSort (fun a b : IndexId × String => a.1 ≤ b.1) (· ≤ ·)
    (fun x => place x.1), idsOf, ← List.map_take, List.map_map]
  · refine List.map_congr_left fun x hx => ?_
    obtain ⟨at_, id, rfl⟩ := hrow x ((List.mem_insertionSort _).mp (List.mem_of_mem_take hx))
    rfl
  -- pairs compare as the keys do
  · intro a ha b hb
    obtain ⟨at_, id, rfl⟩ := hrow a ha
    obtain ⟨at', id', rfl⟩ := hrow b hb
    change IndexId.timed at_ id ≤ IndexId.timed at' id' ↔ toLex (at_, id) ≤ toLex (at', id')
    rw [IndexId.timed_le_iff, Prod.Lex.le_iff]
    rfl

section Returned

variable {σ : Rows}

/-- The partitions a worker reads make up the line of the runs it covers. -/
theorem partitions_line (hσ : Good σ) (now : Int) {worker : Compatibility} {own : String}
    (hversion : worker.version = some own) :
    ((versionsOf own worker.accepts).map fun v => dueLine σ.toCore now (inPartition v)).flatten.Nodup ∧
      ((versionsOf own worker.accepts).map fun v =>
        dueLine σ.toCore now (inPartition v)).flatten.insertionSort (· ≤ ·) =
        dueLine σ.toCore now (covered worker) := by
  -- the lines of different versions share no run
  have hnodup : ((versionsOf own worker.accepts).map fun v =>
      dueLine σ.toCore now (inPartition v)).flatten.Nodup := by
    refine List.nodup_flatten.mpr ⟨?_, ?_⟩
    · intro line hline
      obtain ⟨v, -, rfl⟩ := List.mem_map.mp hline
      exact (dueLine_increasing hσ.indexed _).imp fun hlt => hlt.ne
    · rw [List.pairwise_map]
      refine (List.nodup_dedup _ : (versionsOf own worker.accepts).Nodup).imp fun hne => ?_
      -- a run is in one partition only
      intro k hk hk'
      obtain ⟨i, s, hs, -, hv, rfl⟩ := mem_dueLine.mp hk
      obtain ⟨i', s', hs', -, hv', heq⟩ := mem_dueLine.mp hk'
      have hid : s.id = s'.id := congrArg (fun k => (ofLex k).2) heq
      have hi := hσ.indexed.keyed i s hs
      have hi' := hσ.indexed.keyed i' s' hs'
      obtain rfl : s = s' := by
        rw [← hi, hid, hi', hs'] at hs
        exact (Option.some.inj hs).symm
      exact hne ((of_decide_eq_true hv).symm.trans (of_decide_eq_true hv'))
  -- both sides are increasing, so it is enough that they have the same members
  refine ⟨hnodup, eq_of_increasing (increasing_insertionSort hnodup)
    (dueLine_increasing hσ.indexed _) fun k => ?_⟩
  simp only [List.mem_insertionSort, List.mem_flatten, List.mem_map, mem_dueLine]
  constructor
  -- a run of a partition that is read is covered
  · rintro ⟨line, ⟨v, hv, rfl⟩, hk⟩
    obtain ⟨i, s, hs, hdue, hp, rfl⟩ := mem_dueLine.mp hk
    refine ⟨i, s, hs, hdue, ?_, rfl⟩
    simp only [covered, hversion, Option.all_some, List.contains_iff_mem]
    rw [of_decide_eq_true hp]
    exact hv
  -- a covered run is in the partition of its own version
  · rintro ⟨i, s, hs, hdue, hp, rfl⟩
    simp only [covered, hversion, Option.all_some, List.contains_iff_mem] at hp
    exact ⟨_, ⟨_, hp, rfl⟩, mem_dueLine.mpr ⟨i, s, hs, hdue, decide_eq_true rfl, rfl⟩⟩

/-- Without a stop and without deferred drains, a worker is offered the first page of the line of the
runs it covers, and nothing changes. -/
theorem Engine.dueAs_line (env : Env) (hσ : Good σ) (hstopped : σ.stopped.getD false = false)
    (hdrain : σ.controlDrain = .empty) (now : Int) (limit : Nat) (worker : Compatibility) :
    dueAs env now limit worker σ =
      .ok (idsOf ((dueLine σ.toCore now (covered worker)).take limit), σ) := by
  -- no drain is pending, so the scan that clears them finds nothing
  have hpending : drainPending env now limit σ = .ok ((), σ) := by
    simp only [drainPending, bind_ok, read_ok]
    refine ⟨[], σ, ⟨?_, rfl⟩, rfl⟩
    rw [hdrain, Table.scan_some, (Table.scan_eq_nil_iff _ _).mpr (by simp), List.take_nil]
  simp only [dueAs, isStopped, bind_ok, read_ok]
  refine ⟨false, σ, ⟨hstopped.symm, rfl⟩, ?_⟩
  simp only [Bool.false_eq_true, if_false, bind_ok]
  refine ⟨(), σ, hpending, ?_⟩
  -- an undeclared worker reads the one range of all due runs
  cases hversion : worker.version with
  | none =>
    simp only [bind_ok, read_ok]
    refine ⟨_, σ, ⟨rfl, rfl⟩, ?_⟩
    have hcovered : covered worker = fun _ => true := by
      funext s
      simp [covered, hversion]
    rw [collect_dueRun σ fun row hrow => dueKind_due.mem_page hσ hrow, hcovered,
      ← dueKind_due.page hσ, idsOf, List.map_map]
    rfl
  -- a declared worker reads a page of each partition; the merged pages begin with the least ids
  | some own =>
    simp only [bind_ok, read_ok, pure_ok]
    refine ⟨_, σ, ⟨rfl, rfl⟩, _, σ, collect_dueRun σ fun row hrow => ?_, ?_, rfl⟩
    · obtain ⟨v, -, hrow⟩ := List.mem_flatMap.mp hrow
      exact (dueKind_dueApp v).mem_page hσ hrow
    · obtain ⟨hnodup, hline⟩ := partitions_line hσ now hversion
      rw [← hline, ← take_merge (fun page hpage => ?_) hnodup]
      · rw [merged_ids limit fun row hrow => ?_, List.map_flatMap, List.flatMap_map]
        · simp only [(dueKind_dueApp _).page hσ]
        · obtain ⟨v, -, hrow⟩ := List.mem_flatMap.mp hrow
          obtain ⟨at_, id, hkey, -⟩ := (dueKind_dueApp v).mem_page hσ hrow
          exact ⟨at_, id, hkey⟩
      · obtain ⟨v, -, rfl⟩ := List.mem_map.mp hpage
        exact dueLine_increasing hσ.indexed _

/-- Places in the line are told apart by their ids. -/
theorem idsOf_inj (hσ : Indexed σ) {p q : StoredRun → Bool} {l m : List (Int ×ₗ String)}
    (hl : ∀ k ∈ l, k ∈ dueLine σ.toCore now p) (hm : ∀ k ∈ m, k ∈ dueLine σ.toCore now q)
    (h : idsOf l = idsOf m) : l = m := by
  have hback : ∀ {p : StoredRun → Bool} {l : List (Int ×ₗ String)},
      (∀ k ∈ l, k ∈ dueLine σ.toCore now p) →
      (idsOf l).filterMap (fun i => (σ.run.get i).map dueKey) = l := by
    intro p l hl
    induction l with
    | nil => rfl
    | cons k l ih =>
      obtain ⟨i, s, hs, -, -, rfl⟩ := mem_dueLine.mp (hl k List.mem_cons_self)
      rw [← hσ.keyed i s hs] at hs
      have hrow : (σ.run.get (ofLex (dueKey s)).2).map dueKey = some (dueKey s) :=
        congrArg (Option.map dueKey) hs
      rw [idsOf, List.map_cons, List.filterMap_cons, hrow]
      exact congrArg _ (ih fun k hk => hl k (List.mem_cons_of_mem _ hk))
  rw [← hback hl, h, hback hm]

end Returned

/-! ### When it is what the worker may claim -/

/-- Every run the worker may claim is in a partition it reads, and of the others only those that declare
the empty version are. -/
theorem covered_iff {worker : Compatibility} {s : StoredRun} :
    covered worker s = true ↔
      admitting worker s = true ∨ s.run.admission.applicationVersion = some "" := by
  unfold covered admitting Compatibility.admits versionsOf
  cases worker.version with
  | none => cases s.run.admission.applicationVersion <;> simp
  | some own =>
    cases s.run.admission.applicationVersion with
    | none => simp
    | some app =>
      simp only [Option.all_some, Option.getD_some, List.contains_iff_mem, List.mem_dedup,
        List.mem_cons, Bool.or_eq_true, Option.some.injEq, beq_iff_eq]
      tauto

/-- A claim of a due run the worker may claim returns a fence exactly while the run has a generation
left. -/
theorem claimAs_fence (env : Env) {σ : Rows} (hstopped : σ.stopped.getD false = false)
    {worker : Compatibility} {i : String} {s : StoredRun} (hs : σ.run.get i = some s)
    (hdue : Due now s) (haccepts : admitting worker s = true) (owner : String) :
    (∃ f, (call env σ (.claimAs i now worker owner)).1 = .ok (.fence (some f))) ↔
      s.run.generation < u64Max := by
  have hopen : (!claimable s.run now || !worker.admits s.run.admission.applicationVersion) = false := by
    rw [hdue.2, show worker.admits _ = true from haccepts]
    rfl
  constructor
  · rintro ⟨f, hcall⟩
    -- the claim returned a fence: it got past every guard, so the generation was below its bound
    rcases step_cases env σ (.claimAs i now worker owner) with ⟨-, e, herror⟩ | ⟨r, htx, hr⟩
    · simp [herror] at hcall
    · obtain rfl : r = .ok (.fence (some f)) := by rwa [hr] at hcall
      obtain ⟨claim, hclaim, -⟩ := map_ok.mp htx
      simp only [claimAs, isStopped, bind_ok, read_ok] at hclaim
      obtain ⟨stopped, σ₁, ⟨rfl, rfl⟩, hclaim⟩ := hclaim
      simp only [hstopped, Bool.false_eq_true, if_false, bind_ok, findRun_ok] at hclaim
      obtain ⟨found, σ₂, ⟨rfl, rfl⟩, hclaim⟩ := hclaim
      simp only [hs, hopen, Bool.false_eq_true, if_false, bind_ok, ofExcept_ok] at hclaim
      obtain ⟨claim, σ₃, ⟨hrun, rfl⟩, -⟩ := hclaim
      exact (claimRun_ok hrun).1
  · intro hgeneration
    -- and below the bound nothing refuses it
    obtain ⟨σ', hstore⟩ := storeRun_total (claimed s now owner) σ
    refine ⟨{ runId := s.id, owner, generation := s.run.generation + 1 }, ?_⟩
    have hclaim : claimAs i now worker owner σ =
        .ok (some { runId := s.id, owner, generation := s.run.generation + 1 }, σ') := by
      simp only [claimAs, isStopped, bind_ok, read_ok]
      refine ⟨_, σ, ⟨rfl, rfl⟩, ?_⟩
      simp only [hstopped, Bool.false_eq_true, if_false, bind_ok, findRun_ok]
      refine ⟨_, σ, ⟨rfl, rfl⟩, ?_⟩
      simp only [hs, hopen, Bool.false_eq_true, if_false, bind_ok, ofExcept_ok, pure_ok]
      exact ⟨(claimed s now owner, _), σ, ⟨by simp [claimRun, hgeneration], rfl⟩, (), σ', hstore, rfl, rfl⟩
    rw [call_of_tx (map_ok.mpr ⟨_, hclaim, rfl⟩)]

/-- `dueAs` lists exactly what the worker may claim: the first page of the line of those runs, each of
which the worker then gets a fence for. -/
structure Offers (env : Env) (σ : Rows) (now : Int) (limit : Nat) (worker : Compatibility) : Prop where
  page : call env σ (.dueAs now limit worker) =
    (.ok (.ids (idsOf ((dueLine σ.toCore now (admitting worker)).take limit))), σ)
  fence : ∀ i ∈ idsOf ((dueLine σ.toCore now (admitting worker)).take limit), ∀ owner,
    ∃ f, (call env σ (.claimAs i now worker owner)).1 = .ok (.fence (some f))

/-- The runs with less than a page ahead of them that the worker may claim: none that declares the
empty version is refused to it, and none has used up its generations. -/
structure Servable (c : Core) (now : Int) (limit : Nat) (worker : Compatibility) : Prop where
  declared : ∀ i s, c.run.get i = some s → Due now s →
    s.run.admission.applicationVersion = some "" →
    ahead (dueLine c now (admitting worker)) (dueKey s) < limit → admitting worker s = true
  unspent : ∀ i s, c.run.get i = some s → Due now s → admitting worker s = true →
    ahead (dueLine c now (admitting worker)) (dueKey s) < limit → s.run.generation < u64Max

/-- In every reachable store without a stop and without deferred drains, a worker is offered exactly what
it may claim if and only if the runs it would be offered are servable. -/
theorem due_as_exact (env : Env) (history : List Op) (now : Int) (limit : Nat) (worker : Compatibility)
    (hstopped : (after env history).stopped.getD false = false)
    (hdrain : (after env history).controlDrain = .empty) :
    Offers env (after env history) now limit worker ↔
      Servable (after env history).toCore now limit worker := by
  have hσ := good_after env history
  generalize after env history = σ at *
  -- lines are in the order of due instants and ids
  have hincreasing : ∀ p, (dueLine σ.toCore now p).Pairwise (· < ·) := dueLine_increasing hσ.indexed
  -- what is claimable is covered
  have hsub : ∀ k ∈ dueLine σ.toCore now (admitting worker), k ∈ dueLine σ.toCore now (covered worker) := by
    intro k hk
    obtain ⟨i, s, hs, hdue, hp, rfl⟩ := mem_dueLine.mp hk
    exact mem_dueLine.mpr ⟨i, s, hs, hdue, covered_iff.mpr (.inl hp), rfl⟩
  -- the page is that of the covered line
  have hcall : call env σ (.dueAs now limit worker) =
      (.ok (.ids (idsOf ((dueLine σ.toCore now (covered worker)).take limit))), σ) :=
    call_of_tx (map_ok.mpr ⟨_, dueAs_line env hσ hstopped hdrain now limit worker, rfl⟩)
  -- it equals the page of the claimable line when nothing covered that is not claimable comes before its end
  have hpage := take_eq_take_iff (hincreasing (admitting worker)) (hincreasing (covered worker)) hsub (n := limit)
  constructor
  -- the offer is exact: the two pages are one
  · rintro ⟨heq, hfence⟩
    have hids : idsOf ((dueLine σ.toCore now (covered worker)).take limit) =
        idsOf ((dueLine σ.toCore now (admitting worker)).take limit) := by
      rw [hcall] at heq
      simpa using heq
    have hsame := hpage.mp (idsOf_inj hσ.indexed (fun k => List.mem_of_mem_take)
      (fun k => List.mem_of_mem_take) hids.symm)
    refine ⟨fun i s hs hdue hblank hlt => ?_, fun i s hs hdue haccepts hlt => ?_⟩
    -- a run of the blank partition within the page must be claimable, since the page is the claimable one
    · obtain ⟨j, t, ht, -, haccepts, hkey⟩ := mem_dueLine.mp
        (hsame _ (mem_dueLine.mpr ⟨i, s, hs, hdue, covered_iff.mpr (.inr hblank), rfl⟩) hlt)
      have hid : s.id = t.id := congrArg (fun k => (ofLex k).2) hkey
      rw [← hσ.indexed.keyed i s hs, hid, hσ.indexed.keyed j t ht, ht] at hs
      rw [← Option.some.inj hs]
      exact haccepts
    -- a run within the page gets a fence, so it has a generation left
    · rw [← claimAs_fence env hstopped hs hdue haccepts ""]
      refine hfence i (List.mem_map.mpr ⟨dueKey s, ?_, hσ.indexed.keyed i s hs⟩) ""
      exact (mem_take_iff (hincreasing _)).mpr ⟨mem_dueLine.mpr ⟨i, s, hs, hdue, haccepts, rfl⟩, hlt⟩
  -- what is offered is servable: covered runs within the page are claimable, and none is out of generations
  · rintro ⟨hdeclared, hunspent⟩
    refine ⟨?_, fun i hi owner => ?_⟩
    · rw [hcall, hpage.mpr fun k hk hlt => ?_]
      obtain ⟨i, s, hs, hdue, hp, rfl⟩ := mem_dueLine.mp hk
      refine mem_dueLine.mpr ⟨i, s, hs, hdue, ?_, rfl⟩
      exact (covered_iff.mp hp).elim id fun hblank => hdeclared i s hs hdue hblank hlt
    · obtain ⟨k, hk, rfl⟩ := List.mem_map.mp hi
      obtain ⟨hmem, hlt⟩ := (mem_take_iff (hincreasing _)).mp hk
      obtain ⟨i, s, hs, hdue, haccepts, rfl⟩ := mem_dueLine.mp hmem
      rw [← hσ.indexed.keyed i s hs] at hs
      exact (claimAs_fence env hstopped hs hdue haccepts owner).mpr (hunspent _ s hs hdue haccepts hlt)

/-- A worker of the second version, which accepts the first. -/
def Compatibility.second : Compatibility := { version := some "2", accepts := ["1"] }

/-- An admission under an application version. -/
def Admission.declared (id version : String) : Admission :=
  { Admission.plain id with runtime := .obj [("application_version", .str version)] }

/-- A declared run and an undeclared one are admitted. -/
def admittedUnder (version : String) : List Op :=
  [.admitRun (.declared "a" version) 0, .admitRun (.plain "b") 1]

/-- A worker of version 2 that accepts version 1 is offered a run of version 1, and may claim it. -/
theorem accepted_run_offered : Offers .plain (after .plain (admittedUnder "1")) 1 2 .second := by
  have hrows : ((after .plain (admittedUnder "1")).run.rows.all fun row =>
      decide (row.2.run.admission.applicationVersion ≠ some "") &&
        decide (row.2.run.generation < u64Max)) = true := by decide +kernel
  have hrow : ∀ i s, (after .plain (admittedUnder "1")).run.get i = some s →
      s.run.admission.applicationVersion ≠ some "" ∧ s.run.generation < u64Max := by
    intro i s hs
    have := List.all_eq_true.mp hrows (i, s) ((Table.mem_rows _).mpr hs)
    simpa using this
  refine (due_as_exact .plain (admittedUnder "1") 1 2 .second (by decide +kernel)
    (Table.rows_injective (by decide +kernel))).mpr ⟨?_, ?_⟩
  · exact fun i s hs _ hblank _ => absurd hblank (hrow i s hs).1
  · exact fun i s hs _ _ _ => (hrow i s hs).2

/-- A run that declares the empty version is offered to a worker that may not claim it. -/
theorem empty_version_offered :
    (after .plain (admittedUnder "")).stopped.getD false = false ∧
      (after .plain (admittedUnder "")).controlDrain = .empty ∧
      ¬Offers .plain (after .plain (admittedUnder "")) 1 1 .second := by
  refine ⟨by decide +kernel, Table.rows_injective (by decide +kernel), fun h => ?_⟩
  have hoffered : (call .plain (after .plain (admittedUnder "")) (.dueAs 1 1 .second)).1 =
      .ok (.ids ["a"]) := by decide +kernel
  have hclaimable : idsOf ((dueLine (after .plain (admittedUnder "")).toCore 1 (admitting .second)).take 1) =
      ["b"] := by decide +kernel
  have hpage := congrArg Prod.fst h.page
  rw [hoffered, hclaimable] at hpage
  simp at hpage

end Ouro
