import Ouro.Durable.Journal

/-!
# The budget of a tree of runs

The runs of a tree share one counter, kept under the id of the root while the root is live. `decisions`
reads off a history what each `spend` decided. The counter is the number of units granted (`Spent`,
whose only other change is the removal with the root), a decision is kept under its key, and the
first refusal of a run is the one every refusal names (`Refusals`). The result is `budget_exact`.

A decision under a key of an expiry is the exception (`expired_decision_lost`): such a key is
written by the store itself.
-/

namespace Ouro

open Lib Engine Tx

variable {env : Env} {now : Int} {may : String → Act → Prop}

/-! ### One decision -/

/-- The units the tree of `root` has spent. -/
def Core.spent (c : Core) (root : String) : Nat := (c.budget.get root).getD 0

namespace Engine

/-- What a refused unit does to the records of first refusals. -/
theorem firstRefused_cases {run k first : String} {σ σ' : Rows}
    (h : firstRefused run k σ = .ok (first, σ')) :
    ((σ.record run).get exceededKey = some (.exceeded first) ∧ σ' = σ) ∨
      (σ.record run).get exceededKey = none ∧ first = k ∧
        σ' = { σ with record := Table.putAt σ.record run exceededKey (.exceeded k) } := by
  simp only [firstRefused, bind_ok, read_ok] at h
  obtain ⟨found, σ₁, ⟨hfound, rfl⟩, h⟩ := h
  cases found with
  | none =>
    simp only [bind_ok, write_ok, pure_ok] at h
    obtain ⟨u, σ₂, rfl, rfl, rfl⟩ := h
    exact .inr ⟨hfound.symm, rfl, rfl⟩
  | some r =>
    cases r with
    | exceeded by_ =>
      obtain ⟨rfl, rfl⟩ := pure_ok.mp h
      exact .inl ⟨hfound.symm, rfl⟩
    | _ => simp at h

/-- A new decision of a running run `s` under `k`, as it is stored. -/
inductive Decided (σ σ' : Rows) (s : StoredRun) (k : String) (limit : Nat) : Record → Prop
  | granted (hlt : σ.spent (s.run.root.getD s.id) < limit)
      (hbudget : σ'.budget =
        σ.budget.put (s.run.root.getD s.id) (σ.spent (s.run.root.getD s.id) + 1))
      (hrecord : σ'.record = Table.putAt σ.record s.id k
        (.budget true (σ.spent (s.run.root.getD s.id) + 1) none)) :
      Decided σ σ' s k limit (.budget true (σ.spent (s.run.root.getD s.id) + 1) none)
  /-- Another unit was refused to the run before. -/
  | again (first : String) (hle : limit ≤ σ.spent (s.run.root.getD s.id))
      (hbudget : σ'.budget = σ.budget)
      (hfirst : (σ.record s.id).get exceededKey = some (.exceeded first))
      (hrecord : σ'.record = Table.putAt σ.record s.id k
        (.budget false (σ.spent (s.run.root.getD s.id)) (some first))) :
      Decided σ σ' s k limit (.budget false (σ.spent (s.run.root.getD s.id)) (some first))
  | first (hle : limit ≤ σ.spent (s.run.root.getD s.id)) (hbudget : σ'.budget = σ.budget)
      (hfirst : (σ.record s.id).get exceededKey = none)
      (hrecord : σ'.record = Table.putAt (Table.putAt σ.record s.id exceededKey (.exceeded k)) s.id k
        (.budget false (σ.spent (s.run.root.getD s.id)) (some k))) :
      Decided σ σ' s k limit (.budget false (σ.spent (s.run.root.getD s.id)) (some k))

/-- A `spend` returns the decision under its key, or decides and keeps it. -/
theorem spend_cases {f : Fence} {k : String} {limit : Nat} {r : Record} {σ σ' : Rows} (hσ : Good σ)
    (h : spend env f k limit now σ = .ok (r, σ')) :
    ∃ s, σ.run.get s.id = some s ∧ s.id = f.runId ∧ s.run.state = .running ∧
      ((∃ granted n first, r = .budget granted n first ∧ (σ.record s.id).get k = some r ∧ σ' = σ) ∨
        (σ.record s.id).get k = none ∧ Decided σ σ' s k limit r) := by
  -- the run is checked before its journal is read
  simp only [spend, bind_ok, read_ok] at h
  obtain ⟨s, σ₁, hchecked, found, σ₂, ⟨hfound, rfl⟩, h⟩ := h
  obtain ⟨rfl, hs, hr⟩ := checked_ok hchecked
  have hid := hσ.indexed.keyed _ _ hs
  rw [← hid] at hs hfound
  refine ⟨s, hs, hid, hr, ?_⟩
  cases found with
  -- a decision is kept under the key, and given back
  | some record =>
    cases record with
    | budget granted spent first =>
      obtain ⟨rfl, rfl⟩ := pure_ok.mp h
      exact .inl ⟨granted, spent, first, rfl, hfound.symm, rfl⟩
    | _ => simp at h
  | none =>
    refine .inr ⟨hfound.symm, ?_⟩
    simp only [bind_ok, write_ok] at h
    obtain ⟨record, σ₃, hunit, u, σ₄, hσ₄, hmark⟩ := h
    rw [← hid] at hunit hσ₄
    -- the mark of the run row touches neither the counter nor the journal
    obtain ⟨rfl, hbudget, hrecord⟩ : record = r ∧ σ'.budget = σ₄.budget ∧ σ'.record = σ₄.record := by
      split at hmark
      · obtain ⟨rfl, rfl⟩ := pure_ok.mp hmark
        exact ⟨rfl, rfl, rfl⟩
      · simp only [bind_ok, pure_ok] at hmark
        obtain ⟨u₁, σ₅, hstore, rfl, rfl⟩ := hmark
        have hcore := storeRun_core hstore
        exact ⟨rfl, (congrArg Core.budget hcore).trans rfl, (congrArg Core.record hcore).trans rfl⟩
    rw [hσ₄] at hbudget hrecord
    -- otherwise the counter of the tree's root is compared with the limit
    simp only [spendUnit, bind_ok, read_ok] at hunit
    obtain ⟨spent, σ₅, ⟨hspent, rfl⟩, hunit⟩ := hunit
    obtain rfl : spent = σ₅.spent (s.run.root.getD s.id) := hspent
    -- room for another unit
    split at hunit
    · next hlt =>
      simp only [bind_ok, write_ok, pure_ok] at hunit
      obtain ⟨u₂, σ₆, rfl, rfl, rfl⟩ := hunit
      exact .granted hlt hbudget hrecord
    -- none: the first refusal of the run is named, and becomes this one when there is none
    · next hge =>
      simp only [bind_ok, pure_ok] at hunit
      obtain ⟨first, σ₆, hfirst, rfl, rfl⟩ := hunit
      obtain ⟨hrefused, rfl⟩ | ⟨hnone, rfl, rfl⟩ := firstRefused_cases hfirst
      · exact .again first (not_lt.mp hge) hbudget hrefused hrecord
      · exact .first (not_lt.mp hge) hbudget hnone hrecord

end Engine

/-! ### Decisions of a history -/

/-- A committed decision: who asked, for which tree and under which key. -/
structure Decision where
  run : String
  root : String
  key : String
  limit : Nat
  granted : Bool
  first : Option String
deriving DecidableEq

/-- The decision a call commits: that of a `spend` whose key had no record. -/
def newDecision (env : Env) (σ : Rows) : Op → Option Decision
  | .spend f k limit now =>
    match (call env σ (.spend f k limit now)).1, σ.run.get f.runId, (σ.record f.runId).get k with
    | .ok (.record (.budget granted _ first)), some s, none =>
      some { run := f.runId, root := s.run.root.getD f.runId, key := k, limit, granted, first }
    | _, _, _ => none
  | _ => none

/-- The decisions committed over a history, in their order. -/
def decisionsFrom (env : Env) (σ : Rows) : List Op → List Decision
  | [] => []
  | op :: rest => (newDecision env σ op).toList ++ decisionsFrom env (step env σ op) rest

/-- The decisions since the store was empty. -/
def decisions (env : Env) (history : List Op) : List Decision := decisionsFrom env .empty history

theorem decisionsFrom_concat (env : Env) (σ : Rows) (history : List Op) (op : Op) :
    decisionsFrom env σ (history ++ [op]) = decisionsFrom env σ history ++
      (newDecision env (runs (step env) σ history) op).toList := by
  induction history generalizing σ with
  | nil => simp [decisionsFrom]
  | cons op' history ih =>
    simp only [List.cons_append, decisionsFrom, ih, List.append_assoc]
    rfl

theorem decisions_concat (env : Env) (history : List Op) (op : Op) :
    decisions env (history ++ [op]) =
      decisions env history ++ (newDecision env (after env history) op).toList :=
  decisionsFrom_concat env .empty history op

/-- A call decides nothing, or it is a `spend` that does. -/
theorem newDecision_cases (env : Env) {σ : Rows} (hσ : Good σ) (op : Op) :
    (newDecision env σ op = none ∧ ((∀ i, ¬op.may i .spend) ∨ step env σ op = σ)) ∨
      ∃ f k limit t s granted n first, op = .spend f k limit t ∧ σ.run.get s.id = some s ∧
        s.id = f.runId ∧ s.run.state = .running ∧ (σ.record s.id).get k = none ∧
        (call env σ op).1 = .ok (.record (.budget granted n first)) ∧
        Decided σ (step env σ op) s k limit (.budget granted n first) ∧
        newDecision env σ op =
          some { run := s.id, root := s.run.root.getD s.id, key := k, limit, granted, first } := by
  cases op with
  | spend f k limit t =>
    -- a `spend` that fails, that gives an old decision back, or that decides
    rcases step_cases env σ (.spend f k limit t) with ⟨heq, e, hcall⟩ | ⟨r, htx, hcall⟩
    · refine .inl ⟨?_, .inr heq⟩
      simp [newDecision, hcall]
    · obtain ⟨r', hspend, rfl⟩ := map_ok.mp htx
      obtain ⟨s, hs, hid, hr, ⟨granted, n, first, rfl, hrecord, heq⟩ | ⟨hnone, hdec⟩⟩ :=
        spend_cases hσ hspend
      · refine .inl ⟨?_, .inr heq⟩
        rw [hid] at hrecord
        simp [newDecision, hrecord]
      · obtain ⟨granted, n, first, rfl⟩ : ∃ granted n first, r' = .budget granted n first := by
          cases hdec with
          | granted => exact ⟨_, _, _, rfl⟩
          | again => exact ⟨_, _, _, rfl⟩
          | first => exact ⟨_, _, _, rfl⟩
        refine .inr ⟨f, k, limit, t, s, granted, n, first, rfl, hs, hid, hr, hnone, by rw [hcall], hdec, ?_⟩
        rw [hid] at hs hnone ⊢
        simp [newDecision, hcall, hs, hnone]
  -- a command of an operator spends nothing
  | applyControl request command t =>
    refine .inl ⟨rfl, .inl fun i h => ?_⟩
    cases command <;> exact h.elim
  | _ => exact .inl ⟨rfl, .inl fun i h => h.elim⟩

/-! ### Calls that decide nothing -/

theorem Move.ended {c c' : Core} (h : Move env now may c c') (hinv : Inv c) {i : String}
    (hi : Ended c i) : Ended c' i := by
  obtain ⟨s, hs, hended⟩ := hi
  have hpath : Path env now may c c' := .single h
  obtain ⟨s', hs', hended'⟩ := hpath.ended_stored hinv hs (Option.isSome_iff_ne_none.mp hended)
  exact ⟨s', hs', Option.isSome_iff_ne_none.mpr hended'⟩

theorem Path.ended {c c' : Core} (h : Path env now may c c') (hinv : Inv c) {i : String}
    (hi : Ended c i) : Ended c' i :=
  h.keep hinv (fun _ _ hinv hmove => hmove.ended hinv) hi

/-- The counter of a tree only goes with its root. -/
theorem Path.spent {c c' : Core} (h : Path env now may c c') (hinv : Inv c)
    (hmay : ∀ i, ¬may i .spend) (root : String) : Ended c' root ∨ c'.spent root = c.spent root := by
  refine h.keep hinv (P := fun c' => Ended c' root ∨ c'.spent root = c.spent root) ?_ (.inr rfl)
  rintro c₁ c₂ hinv₁ hmove (hended | hsame)
  · exact .inl (hmove.ended hinv₁ hended)
  cases hmove with
  | spend limit hs hr hb ha => exact absurd ha (hmay _)
  | @dropBudget s hs hl hroot =>
    by_cases hi : s.id = root
    · subst hi
      exact .inl ⟨s, hs, Option.isSome_iff_ne_none.mpr hl⟩
    · refine .inr (Eq.trans ?_ hsame)
      change ((c₁.budget.delete s.id).get root).getD 0 = _
      rw [Table.get_delete_ne _ hi]
      rfl
  | @forget s at_ hs hl =>
    refine .inr (Eq.trans ?_ hsame)
    change ((forgetRows c₁ s.id).budget.get root).getD 0 = _
    rw [budget_forgetRows]
    rfl
  | _ => exact .inr hsame

/-- Without a `spend` no refusal is recorded, and a recorded one stays until the run's end. -/
theorem Path.refusal {c c' : Core} (h : Path env now may c c') (hinv : Inv c)
    (hmay : ∀ i, ¬may i .spend) (i : String) :
    (∀ by_, (c'.record i).get exceededKey = some (.exceeded by_) →
      (c.record i).get exceededKey = some (.exceeded by_)) ∧
    ((c'.record i).get exceededKey = none → Ended c' i ∨ (c.record i).get exceededKey = none) := by
  -- both halves at once, along the moves of the path
  refine h.keep hinv (P := fun c' =>
    (∀ by_, (c'.record i).get exceededKey = some (.exceeded by_) →
      (c.record i).get exceededKey = some (.exceeded by_)) ∧
    ((c'.record i).get exceededKey = none → Ended c' i ∨ (c.record i).get exceededKey = none))
    ?_ ⟨fun _ h => h, .inr⟩
  rintro c₁ c₂ hinv₁ hmove ⟨hkept, hnone⟩
  have hstep := hmove.record_step hinv₁ i exceededKey
  generalize hold : (c₁.record i).get exceededKey = o at hstep
  generalize hnew : (c₂.record i).get exceededKey = o' at hstep
  -- the record under the refusal's own key is rewritten by a `spend` only
  cases hstep with
  | same =>
    exact ⟨fun by_ h => hkept by_ (hold.trans h),
      fun h => (hnone (hold.trans h)).imp (hmove.ended hinv₁) id⟩
  | saved hr hkey ha =>
    refine ⟨fun by_ h => hkept by_ (hold.trans ?_), by simp⟩
    obtain rfl := Option.some.inj h
    rcases ha with helse | hsame | hspend
    · simp [committedElsewhere] at helse
    · exact hsame
    · exact absurd hspend (hmay i)
  -- an expiry writes under reserved keys, of which this is none
  | expired hk => exact absurd ⟨_, hk⟩ exceededKey_not_reserved
  | taken => exact ⟨fun by_ h => by simp at h, by simp⟩
  -- what a sweep forgets belongs to an ended run
  | forgotten hs hl => exact ⟨fun by_ h => by simp at h, fun _ => .inl ⟨_, hs, by simp [hl]⟩⟩

/-! ### Counters and refusals over histories -/

/-- A unit granted to the tree of `root`. -/
def Decision.grantedTo (root : String) (d : Decision) : Bool := d.granted && decide (d.root = root)

/-- A unit refused to run `i`. -/
def Decision.refusedTo (i : String) (d : Decision) : Bool := !d.granted && decide (d.run = i)

/-- The counters and the first refusals of a store are those of a list of decisions. -/
structure Spending (c : Core) (l : List Decision) : Prop where
  spent : ∀ root, Ended c root ∨ c.spent root = l.countP (Decision.grantedTo root)
  bounded : ∀ root bound, (∀ d ∈ l, d.grantedTo root = true → d.limit ≤ bound) →
    Ended c root ∨ c.spent root ≤ bound
  refused : ∀ i by_, (c.record i).get exceededKey = some (.exceeded by_) →
    ∃ d, l.find? (Decision.refusedTo i) = some d ∧ d.key = by_
  unrefused : ∀ i, (c.record i).get exceededKey = none →
    Ended c i ∨ l.find? (Decision.refusedTo i) = none
  first : ∀ d ∈ l, d.granted = false →
    ∃ d₀, l.find? (Decision.refusedTo d.run) = some d₀ ∧ d.first = some d₀.key

/-- A call that decides nothing. -/
theorem Spending.path {c c' : Core} {l : List Decision} (h : Spending c l) (hinv : Inv c)
    (hpath : Path env now may c c') (hmay : ∀ i, ¬may i .spend) : Spending c' l where
  spent root := by
    rcases hpath.spent hinv hmay root with hroot | hsame
    · exact .inl hroot
    · rw [hsame]
      exact (h.spent root).imp (hpath.ended hinv) id
  bounded root bound hl := by
    rcases hpath.spent hinv hmay root with hroot | hsame
    · exact .inl hroot
    · rw [hsame]
      exact (h.bounded root bound hl).imp (hpath.ended hinv) id
  refused i by_ hby := h.refused i by_ ((hpath.refusal hinv hmay i).1 by_ hby)
  unrefused i hi := by
    rcases (hpath.refusal hinv hmay i).2 hi with hi | hold
    · exact .inl hi
    · exact (h.unrefused i hold).imp (hpath.ended hinv) id
  first := h.first

/-- The refusals of a longer list: the first one stays. -/
theorem find?_refused_concat {l : List Decision} {d d₀ : Decision} {i : String}
    (h : l.find? (Decision.refusedTo i) = some d₀) :
    (l ++ [d]).find? (Decision.refusedTo i) = some d₀ := by
  rw [List.find?_append, h]
  rfl

/-- The refusals of a longer list whose last decision is none of this run. -/
theorem find?_refused_ne {l : List Decision} {d : Decision} {i : String}
    (h : d.refusedTo i = false) :
    (l ++ [d]).find? (Decision.refusedTo i) = l.find? (Decision.refusedTo i) := by
  rw [List.find?_append, List.find?_cons_of_neg (by simp [h]), List.find?_nil, Option.or_none]

/-- A unit is granted. -/
theorem Spending.granted {c c' : Core} {l : List Decision} (h : Spending c l) {d : Decision}
    (hended : ∀ i, Ended c i → Ended c' i) (hd : d.granted = true) (hlt : c.spent d.root < d.limit)
    (hspent : ∀ root, c'.spent root = c.spent root + if d.root = root then 1 else 0)
    (hkept : ∀ i by_, (c'.record i).get exceededKey = some (.exceeded by_) →
      (c.record i).get exceededKey = some (.exceeded by_))
    (hnone : ∀ i, (c'.record i).get exceededKey = none → (c.record i).get exceededKey = none) :
    Spending c' (l ++ [d]) := by
  have hfind : ∀ i, (l ++ [d]).find? (Decision.refusedTo i) = l.find? (Decision.refusedTo i) :=
    fun i => find?_refused_ne (by simp [Decision.refusedTo, hd])
  -- the counter and its bound, then the refusals, which a granted unit leaves alone
  refine ⟨fun root => ?_, fun root bound hl => ?_, fun i by_ hby => ?_, fun i hi => ?_,
    fun d' hd' hrefused => ?_⟩
  -- one more unit on the counter, and one more granted decision of that root
  · refine (h.spent root).imp (hended root) fun heq => ?_
    rw [hspent, heq, List.countP_append, List.countP_singleton, Decision.grantedTo, hd]
    simp
  · have hold := h.bounded root bound fun d' hd' => hl d' (List.mem_append_left _ hd')
    rw [hspent]
    split
    · next hroot =>
      -- the unit was below the limit of its own decision
      have hlimit := hl d (by simp) (by simp [Decision.grantedTo, hd, hroot])
      rw [hroot] at hlt
      exact .inr (by omega)
    · exact hold.imp (hended root) id
  · rw [hfind]
    exact h.refused i by_ (hkept i by_ hby)
  · rw [hfind]
    exact (h.unrefused i (hnone i hi)).imp (hended i) id
  · rw [hfind]
    rcases List.mem_append.mp hd' with hmem | hmem
    · exact h.first d' hmem hrefused
    · rw [List.mem_singleton.mp hmem, hd] at hrefused
      simp at hrefused

/-- A unit is refused: the decision names the first refusal, which may be itself. -/
theorem Spending.refuses {c c' : Core} {l : List Decision} (h : Spending c l) {d d₀ : Decision}
    (hended : ∀ i, Ended c i → Ended c' i) (hd : d.granted = false)
    (hspent : ∀ root, c'.spent root = c.spent root)
    (hfirst : (l ++ [d]).find? (Decision.refusedTo d.run) = some d₀) (hnames : d.first = some d₀.key)
    (hself : ∀ by_, (c'.record d.run).get exceededKey = some (.exceeded by_) → d₀.key = by_)
    (hsome : (c'.record d.run).get exceededKey ≠ none)
    (hother : ∀ i, i ≠ d.run → (c'.record i).get exceededKey = (c.record i).get exceededKey) :
    Spending c' (l ++ [d]) := by
  have hfind : ∀ i, i ≠ d.run →
      (l ++ [d]).find? (Decision.refusedTo i) = l.find? (Decision.refusedTo i) :=
    fun i hi => find?_refused_ne (by simp [Decision.refusedTo, Ne.symm hi])
  -- nothing is granted, so the counter and its bound are as before
  refine ⟨fun root => ?_, fun root bound hl => ?_, fun i by_ hby => ?_, fun i hi => ?_,
    fun d' hd' hrefused => ?_⟩
  · refine (h.spent root).imp (hended root) fun heq => ?_
    rw [hspent, heq, List.countP_append, List.countP_singleton, Decision.grantedTo, hd]
    simp
  · rw [hspent]
    exact (h.bounded root bound fun d' hd' => hl d' (List.mem_append_left _ hd')).imp (hended root) id
  -- the first refusal of the run is this decision or an earlier one
  · by_cases hi : i = d.run
    · subst hi
      exact ⟨d₀, hfirst, hself by_ hby⟩
    · rw [hfind i hi]
      exact h.refused i by_ ((hother i hi).symm.trans hby)
  · by_cases heq : i = d.run
    · rw [heq] at hi
      exact absurd hi hsome
    · rw [hfind i heq]
      exact (h.unrefused i ((hother i heq).symm.trans hi)).imp (hended i) id
  -- each refusal names the first of its run: the old ones as before, the new one by `hnames`
  · rcases List.mem_append.mp hd' with hmem | hmem
    · obtain ⟨d₁, hd₁, hkey⟩ := h.first d' hmem hrefused
      exact ⟨d₁, find?_refused_concat hd₁, hkey⟩
    · rw [List.mem_singleton.mp hmem]
      exact ⟨d₀, hfirst, hnames⟩

/-- A call that commits a decision of a running run. -/
theorem Spending.decided {σ σ' : Rows} {l : List Decision} (h : Spending σ.toCore l) {s : StoredRun}
    {k : String} {limit n : Nat} {granted : Bool} {first : Option String}
    (hended : ∀ i, Ended σ.toCore i → Ended σ'.toCore i) (hlive : ¬Ended σ.toCore s.id)
    (hdec : Decided σ σ' s k limit (.budget granted n first)) :
    Spending σ'.toCore
      (l ++ [{ run := s.id, root := s.run.root.getD s.id, key := k, limit, granted, first }]) := by
  -- the three ways to decide, with what each writes
  cases hdec with
  | granted hlt hbudget hrecord =>
    refine h.granted hended rfl hlt (fun root => ?_) (fun i by_ hby => ?_) fun i hi => ?_
    · rw [Core.spent, hbudget, Table.get_put]
      split
      · next heq =>
        subst heq
        rfl
      · rfl
    · rw [hrecord, Table.get_putAt] at hby
      split at hby
      · simp at hby
      · exact hby
    · rw [hrecord, Table.get_putAt] at hi
      split at hi
      · simp at hi
      · exact hi
  | again first hle hbudget hfirst hrecord =>
    obtain ⟨d₀, hd₀, rfl⟩ := h.refused s.id first hfirst
    -- a refusal after the first one writes its own key, and that of the first only if they are the same
    have hkept : ∀ i, (σ'.record i).get exceededKey = (σ.record i).get exceededKey ∨
        (i = s.id ∧ ∃ granted n first, (σ'.record i).get exceededKey = some (.budget granted n first)) := by
      intro i
      rw [hrecord, Table.get_putAt]
      split
      · next heq => exact .inr ⟨heq.1.symm, _, _, _, rfl⟩
      · exact .inl rfl
    refine h.refuses hended rfl (fun root => by rw [Core.spent, hbudget]; rfl)
      (find?_refused_concat hd₀) rfl (fun by_ hby => ?_) ?_ fun i hi => ?_
    · rcases hkept s.id with hsame | ⟨-, granted, n, first, hbud⟩
      · rw [hsame, hfirst] at hby
        simpa using hby
      · rw [hbud] at hby
        simp at hby
    · rcases hkept s.id with hsame | ⟨-, granted, n, first, hbud⟩
      · simp [hsame, hfirst]
      · simp [hbud]
    · exact (hkept i).resolve_right fun heq => hi heq.1
  | first hle hbudget hfirst hrecord =>
    have hnone := (h.unrefused s.id hfirst).resolve_left hlive
    -- a first refusal is recorded under the refusal's key, unless the decision has that very key
    have hself : (σ'.record s.id).get exceededKey = some (.exceeded k) ∨
        ∃ granted n first, (σ'.record s.id).get exceededKey = some (.budget granted n first) := by
      rw [hrecord, Table.get_putAt]
      split
      · exact .inr ⟨_, _, _, rfl⟩
      · rw [Table.get_putAt, if_pos ⟨rfl, rfl⟩]
        exact .inl rfl
    -- no decision of the run was refused before, so this one is the first
    have hnew : ∀ d : Decision, d.refusedTo s.id = true →
        (l ++ [d]).find? (Decision.refusedTo s.id) = some d := by
      intro d hd
      rw [List.find?_append, hnone, Option.none_or]
      exact List.find?_cons_of_pos hd
    refine h.refuses hended rfl (fun root => by rw [Core.spent, hbudget]; rfl)
      (hnew _ (by simp [Decision.refusedTo])) rfl (fun by_ hby => ?_) ?_ fun i hi => ?_
    · rcases hself with hsame | ⟨granted, n, first, hbud⟩
      · rw [hsame] at hby
        simpa using hby
      · rw [hbud] at hby
        simp at hby
    · rcases hself with hsame | ⟨granted, n, first, hbud⟩
      · simp [hsame]
      · simp [hbud]
    · rw [hrecord, Table.putAt_ne _ _ _ hi, Table.putAt_ne _ _ _ hi]

theorem spending_after (env : Env) (history : List Op) :
    Spending (after env history).toCore (decisions env history) := by
  induction history using List.reverseRecOn with
  | nil =>
    refine ⟨fun root => .inr rfl, fun root bound _ => .inr (Nat.zero_le _), fun i by_ h => ?_,
      fun i h => .inr rfl, fun d h => ?_⟩
    · simp [after, Rows.empty] at h
    · simp [decisions, decisionsFrom] at h
  | append_singleton history op ih =>
    have hσ := good_after env history
    have hpath := step_path env hσ op
    rw [decisions_concat, after_concat]
    rcases newDecision_cases env hσ op with
      ⟨hnone, hmay | heq⟩ | ⟨f, k, limit, t, s, granted, n, first, rfl, hs, -, hr, -, -, hdec, hnew⟩
    · rw [hnone]
      simpa using ih.path hσ.inv hpath hmay
    · rw [hnone, heq]
      simpa using ih
    · rw [hnew]
      refine ih.decided (fun i => hpath.ended hσ.inv) ?_ hdec
      rintro ⟨s', hs', hl⟩
      rw [hs] at hs'
      rw [← Option.some.inj hs', (hσ.inv.sane _ _ hs).live_of_running hr] at hl
      simp at hl

/-! ### The result -/

/-- What a `spend` returns is a decision, kept under its key. -/
theorem spend_saves {f : Fence} {k : String} {limit : Nat} {r : Record} {σ σ' : Rows} (hσ : Good σ)
    (h : spend env f k limit now σ = .ok (r, σ')) :
    (∃ granted n first, r = .budget granted n first) ∧ (σ'.record f.runId).get k = some r := by
  obtain ⟨s, hs, hid, hr, ⟨granted, n, first, rfl, hrecord, rfl⟩ | ⟨hnone, hdec⟩⟩ := spend_cases hσ h
  · rw [hid] at hrecord
    exact ⟨⟨_, _, _, rfl⟩, hrecord⟩
  · rw [← hid]
    cases hdec with
    | granted hlt hbudget hrecord =>
      rw [hrecord, Table.get_putAt, if_pos ⟨rfl, rfl⟩]
      exact ⟨⟨_, _, _, rfl⟩, rfl⟩
    | again first hle hbudget hfirst hrecord =>
      rw [hrecord, Table.get_putAt, if_pos ⟨rfl, rfl⟩]
      exact ⟨⟨_, _, _, rfl⟩, rfl⟩
    | first hle hbudget hfirst hrecord =>
      rw [hrecord, Table.get_putAt, if_pos ⟨rfl, rfl⟩]
      exact ⟨⟨_, _, _, rfl⟩, rfl⟩

/-- A `spend` whose key has a decision returns it and stores nothing. -/
theorem spend_again {f : Fence} {k : String} (limit : Nat) {granted : Bool} {n : Nat}
    {first : Option String} {σ : Rows} {s : StoredRun}
    (hchecked : checked f now env.policy.skewMs σ = .ok (s, σ))
    (hrecord : (σ.record f.runId).get k = some (.budget granted n first)) :
    spend env f k limit now σ = .ok (.budget granted n first, σ) := by
  unfold spend
  refine bind_ok.mpr ⟨s, σ, hchecked, bind_ok.mpr ⟨_, σ, read_ok.mpr ⟨rfl, rfl⟩, ?_⟩⟩
  rw [hrecord]
  rfl

/-- The budget is exact. The counter of a live root is the number of decisions that granted a unit to its
tree, and below any bound that their limits have. A new decision grants a unit exactly while the counter is
below its limit, and shows the counter as it leaves it. A decision under a key that is not reserved is
given back unchanged to whoever holds the run later, whatever limit is asked with. And every refusal of a
run names the first refusal of that run. -/
theorem budget_exact (env : Env) (history : List Op) :
    (∀ root, Live (after env history).toCore root →
      (after env history).spent root = (decisions env history).countP (Decision.grantedTo root) ∧
      ∀ bound, (∀ d ∈ decisions env history, d.grantedTo root = true → d.limit ≤ bound) →
        (after env history).spent root ≤ bound) ∧
    (∀ f k limit now r, ((after env history).record f.runId).get k = none →
      (call env (after env history) (.spend f k limit now)).1 = .ok (.record r) →
      ∃ s first, (after env history).run.get f.runId = some s ∧
        r = .budget (decide ((after env history).spent (s.run.root.getD f.runId) < limit))
          ((step env (after env history) (.spend f k limit now)).spent (s.run.root.getD f.runId)) first) ∧
    (∀ f k limit now r later f' limit' now', ¬Reserved k →
      (call env (after env history) (.spend f k limit now)).1 = .ok (.record r) →
      f'.runId = f.runId →
      ∀ s σ, σ = after env (history ++ [.spend f k limit now] ++ later) →
        checked f' now' env.policy.skewMs σ = .ok (s, σ) →
        call env σ (.spend f' k limit' now') = (.ok (.record r), σ)) ∧
    ∀ d ∈ decisions env history, d.granted = false →
      ∃ d₀, (decisions env history).find? (Decision.refusedTo d.run) = some d₀ ∧
        d.first = some d₀.key := by
  have hσ := good_after env history
  have hspending := spending_after env history
  -- the counter and the first refusals are what `Spending` keeps along the history; the other two parts are
  -- about one call
  refine ⟨fun root hlive => ?_, fun f k limit now r hnone hcall => ?_,
    fun f k limit now r later f' limit' now' hk hcall hrun s σ hσ' hchecked => ?_, hspending.first⟩
  · have hnot : ¬Ended (after env history).toCore root := fun hended => hended.not_live hlive
    exact ⟨(hspending.spent root).resolve_left hnot,
      fun bound hl => (hspending.bounded root bound hl).resolve_left hnot⟩
  -- the new decision grants exactly while the counter is below the limit
  · obtain ⟨r', hspend, hr⟩ := map_ok.mp (tx_of_call hcall)
    obtain rfl : r = r' := by simpa using hr
    obtain ⟨s, hs, hid, -, ⟨granted, n, first, rfl, hrecord, -⟩ | ⟨-, hdec⟩⟩ := spend_cases hσ hspend
    · rw [hid, hnone] at hrecord
      simp at hrecord
    · rw [← hid]
      -- what the call leaves on the counter of the run's tree
      have hspent : ∀ n, (step env (after env history) (.spend f k limit now)).budget =
          (after env history).budget.put (s.run.root.getD s.id) n →
          (step env (after env history) (.spend f k limit now)).spent (s.run.root.getD s.id) = n := by
        intro n hbudget
        rw [Core.spent, hbudget, Table.get_put_self]
        rfl
      cases hdec with
      | granted hlt hbudget => exact ⟨s, none, hs, by rw [hspent _ hbudget, decide_eq_true hlt]⟩
      | again first hle hbudget =>
        refine ⟨s, some first, hs, ?_⟩
        rw [decide_eq_false (not_lt.mpr hle), Core.spent, Core.spent, hbudget]
      | first hle hbudget =>
        refine ⟨s, some k, hs, ?_⟩
        rw [decide_eq_false (not_lt.mpr hle), Core.spent, Core.spent, hbudget]
  -- a decision is saved under its key, stays there until the run's end, and is what the key then answers
  · obtain ⟨r', hspend, hr⟩ := map_ok.mp (tx_of_call hcall)
    obtain rfl : r = r' := by simpa using hr
    obtain ⟨⟨granted, n, first, rfl⟩, hsaved⟩ := spend_saves hσ hspend
    rw [← hrun] at hsaved
    rw [after_append, after_concat] at hσ'
    have hrecord := record_rests (step_good env hσ _) later hk
      (fun r' h => by simpa [checkTransition, eq_comm] using h) (by simp) hsaved hσ' hchecked
    have htx : (Op.spend f' k limit' now').tx env σ =
        .ok (.ok (.record (.budget granted n first)), σ) :=
      map_ok.mpr ⟨_, spend_again limit' hchecked hrecord, rfl⟩
    unfold call
    rw [Tx.commit_ok htx]

/-- A unit is spent under the key that is kept for the expiry of the second copy. -/
def spentUnit : Op := .spend (.plain "r" 1) "mailbox#expired[1]" 5 3

/-- Under a reserved key a decision may be lost: the expiry of a copy is written over it. -/
theorem expired_decision_lost :
    (call .plain (after .plain twoCopies) spentUnit).1 = .ok (.record (.budget true 1 none)) ∧
      ((after .plain (twoCopies ++ [spentUnit] ++ dayLater)).run.get "r").any
        (fun s => decide (s.run.fence = some (.plain "r" 2))) = true ∧
      (call .plain (after .plain (twoCopies ++ [spentUnit] ++ dayLater))
        (.spend (.plain "r" 2) "mailbox#expired[1]" 5 (12 + 24 * 3600000))).1 =
          .error (.message "invalid budget record at mailbox#expired[1]") := by
  decide +kernel

end Ouro
