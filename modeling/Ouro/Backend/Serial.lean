import Ouro.Backend.Memory

/-!
# Committed transactions are serial

The meaning of a transaction is that of its calls on a plain ordered map, one after the other
(`Replays`). The invariant of an open transaction (`Explained`) says that on any rows that agree with
what it recorded, its calls return what they returned, and leave the rows under its writes. A commit
checks that agreement, so the committed transactions replay in the order of their commits.
-/

namespace Ouro

open Lib

namespace Backend

variable {V : Type}

/-! ### The plain map -/

/-- The rows of a range, as the calls name it. -/
def inside (kind start : String) (end_ : Option String) (k : Key) : Bool :=
  decide ((ofLex k).1 = kind ∧ start ≤ (ofLex k).2 ∧ (end_.all fun e => decide ((ofLex k).2 < e)) = true)

/-- One call on a plain ordered map. -/
def plain (readOnly : Bool) (m : Table Key V) : Access V → Answer V × Table Key V
  | .get kind id => (.value (m.get (toLex (kind, id))), m)
  | .scan kind start end_ limit => (.rows (m.scan (inside kind start end_) (some limit)), m)
  | .put kind id value =>
    if readOnly then (.readOnly, m) else (.done, m.put (toLex (kind, id)) value)
  | .delete kind id => if readOnly then (.readOnly, m) else (.done, m.delete (toLex (kind, id)))

/-- The calls of a transaction on a plain map return what they returned, and lead to `m'`. -/
def Replays (readOnly : Bool) : Table Key V → List (Access V × Answer V) → Table Key V → Prop
  | m, [], m' => m' = m
  | m, (a, answer) :: rest, m' =>
    (plain readOnly m a).1 = answer ∧ Replays readOnly (plain readOnly m a).2 rest m'

/-- Transactions on a plain map, one after the other. -/
def ReplaysAll : Table Key V → List (Log V) → Table Key V → Prop
  | m, [], m' => m' = m
  | m, log :: rest, m' => ∃ m₁, Replays log.readOnly m log.calls m₁ ∧ ReplaysAll m₁ rest m'

/-- The rows without their versions. -/
def values (rows : Versioned V) : Table Key V := rows.mapValues Prod.snd

theorem Replays.snoc {readOnly : Bool} {m m₁ : Table Key V} {calls : List (Access V × Answer V)}
    (h : Replays readOnly m calls m₁) (a : Access V) :
    Replays readOnly m (calls ++ [(a, (plain readOnly m₁ a).1)]) (plain readOnly m₁ a).2 := by
  induction calls generalizing m with
  | nil =>
    obtain rfl : m₁ = m := h
    exact ⟨rfl, rfl⟩
  | cons call calls ih => exact ⟨h.1, ih h.2⟩

theorem ReplaysAll.snoc {m m₁ m₂ : Table Key V} {logs : List (Log V)} (h : ReplaysAll m logs m₁)
    {log : Log V} (hlog : Replays log.readOnly m₁ log.calls m₂) :
    ReplaysAll m (logs ++ [log]) m₂ := by
  induction logs generalizing m with
  | nil =>
    obtain rfl : m₁ = m := h
    exact ⟨m₂, hlog, rfl⟩
  | cons first logs ih =>
    obtain ⟨m', hfirst, hrest⟩ := h
    exact ⟨m', hfirst, ih hrest⟩

/-! ### Ranges -/

/-- Nothing lies between a string and the string with a zero character at its end. -/
theorem eq_of_lt_append_zero {l m : List Char} (hnot : ¬m < l) (hlt : m < l ++ ['\x00']) : m = l := by
  induction l generalizing m with
  | nil =>
    cases m with
    | nil => rfl
    | cons c m =>
      rw [List.nil_append, List.cons_lt_cons_iff] at hlt
      rcases hlt with hc | ⟨-, hm⟩
      · exact absurd hc (by simp [Char.lt_def])
      · exact absurd hm (by simp)
  | cons a l ih =>
    cases m with
    | nil => exact absurd (List.nil_lt_cons a l) hnot
    | cons b m =>
      rw [List.cons_append, List.cons_lt_cons_iff] at hlt
      rw [List.cons_lt_cons_iff, not_or, not_and] at hnot
      rcases hlt with hb | ⟨rfl, hm⟩
      · exact absurd hb hnot.1
      · rw [ih (hnot.2 rfl) hm]

theorem lt_append_singleton (l : List Char) (c : Char) : l < l ++ [c] := by
  induction l with
  | nil => exact List.nil_lt_cons c []
  | cons a l ih => exact List.cons_lt_cons_iff.mpr (.inr ⟨rfl, ih⟩)

theorem lt_append_zero_iff {s k : String} (hle : s ≤ k) : k < s ++ "\x00" ↔ k = s := by
  constructor
  · intro hlt
    refine String.toList_inj.mp (eq_of_lt_append_zero ?_ ?_)
    · rw [← String.lt_iff_toList_lt]
      exact not_lt.mpr hle
    · rw [String.lt_iff_toList_lt, String.toList_append] at hlt
      exact hlt
  · rintro rfl
    rw [String.lt_iff_toList_lt, String.toList_append]
    exact lt_append_singleton k.toList '\x00'

theorem within_eq_inside (kind start : String) (end_ : Option String) :
    within kind start end_ = inside kind start end_ := by
  funext k
  obtain ⟨⟨k, id⟩, rfl⟩ := toLex.surjective k
  unfold within inside
  rw [← Bool.decide_and, decide_eq_decide, Prod.Lex.toLex_le_toLex]
  -- The range of a kind, to its end or to the given id.
  cases end_ with
  | none =>
    simp only [Option.elim_none, Prod.Lex.toLex_lt_toLex, ofLex_toLex, Option.all_none, and_true]
    -- A key between the kind and its successor is of the kind.
    constructor
    · rintro ⟨hstart, hlt | ⟨-, hlt⟩⟩
      · have hle : kind ≤ k := hstart.elim le_of_lt fun h => le_of_eq h.1
        obtain rfl := (lt_append_zero_iff hle).mp hlt
        exact ⟨rfl, hstart.resolve_left (lt_irrefl _) |>.2⟩
      · rw [String.lt_iff_toList_lt] at hlt
        exact absurd hlt (List.not_lt_nil _)
    · rintro ⟨rfl, hstart⟩
      exact ⟨.inr ⟨rfl, hstart⟩, .inl ((lt_append_zero_iff le_rfl).mpr rfl)⟩
  | some e =>
    simp only [Option.elim_some, Prod.Lex.toLex_lt_toLex, ofLex_toLex, Option.all_some]
    constructor
    · rintro ⟨hlt | ⟨rfl, hstart⟩, hlt' | ⟨heq, hend⟩⟩
      · exact absurd hlt (lt_asymm hlt')
      · exact absurd hlt (heq ▸ lt_irrefl _)
      · exact absurd hlt' (lt_irrefl _)
      · exact ⟨rfl, hstart, decide_eq_true hend⟩
    · rintro ⟨rfl, hstart, hend⟩
      exact ⟨.inr ⟨rfl, hstart⟩, .inr ⟨rfl, of_decide_eq_true hend⟩⟩

/-! ### What an open transaction knows -/

/-- The rows are as the transaction recorded them. -/
structure Agrees (tx : Transaction V) (rows : Versioned V) : Prop where
  read : ∀ k before, tx.reads.get k = some before →
    (rows.get k).map Prod.fst = before.map Prod.fst
  scan : ∀ s ∈ tx.scans, versions rows s.kind s.start s.end_ s.limit = s.versions

/-- A version that is stamped on a row names its value. -/
def Respects (stamp : Key → Uuid → V → Prop) (rows : Versioned V) : Prop :=
  ∀ k v x y, rows.get k = some (v, y) → stamp k v x → y = x

/-- On any rows that are as it recorded them, the calls of the transaction return what they returned
and leave the rows under its writes. -/
structure Explained (stamp : Key → Uuid → V → Prop) (tx : Transaction V) (log : Log V) : Prop where
  readOnly : log.readOnly = tx.readOnly
  seen : ∀ k v x, tx.reads.get k = some (some (v, x)) → stamp k v x
  replays : ∀ rows, Respects stamp rows → Agrees tx rows →
    Replays tx.readOnly (values rows) log.calls ((values rows).overlay tx.writes)

theorem Explained.mono {stamp stamp' : Key → Uuid → V → Prop} {tx : Transaction V} {log : Log V}
    (h : Explained stamp tx log) (hle : ∀ k v x, stamp k v x → stamp' k v x) :
    Explained stamp' tx log where
  readOnly := h.readOnly
  seen k v x hx := hle k v x (h.seen k v x hx)
  replays rows hrows := h.replays rows fun k v x y hy hx => hrows k v x y hy (hle k v x hx)

theorem explained_begin (stamp : Key → Uuid → V → Prop) (readOnly : Bool) :
    Explained stamp (.begin_ readOnly) { readOnly, calls := [] } where
  readOnly := rfl
  seen k v x hx := by simp [Transaction.begin_] at hx
  replays rows _ _ := Table.overlay_empty _

section Access

variable {stamp : Key → Uuid → V → Prop} {rows : Versioned V} {tx : Transaction V}

/-- What a look-up does: it records the row it saw, and the row reads so wherever the records agree. -/
structure GetSpec (stamp : Key → Uuid → V → Prop) (tx : Transaction V) (key : Key) (value : Option V)
    (tx' : Transaction V) : Prop where
  readOnly : tx'.readOnly = tx.readOnly
  writes : tx'.writes = tx.writes
  seen : ∀ k v x, tx'.reads.get k = some (some (v, x)) → stamp k v x
  agrees : ∀ rows, Agrees tx' rows → Agrees tx rows
  value : ∀ rows, Respects stamp rows → Agrees tx' rows →
    ((values rows).overlay tx.writes).get key = value

/-- A recorded row reads as it was seen wherever the record agrees. -/
theorem get_of_agrees (hseen : ∀ k v x, tx.reads.get k = some (some (v, x)) → stamp k v x)
    {key : Key} {seen : Option (Uuid × V)} (hread : tx.reads.get key = some seen)
    (hrows : Respects stamp rows) (hagrees : Agrees tx rows) :
    (values rows).get key = seen.map Prod.snd := by
  have hversion := hagrees.read key seen hread
  unfold values
  rw [Table.get_mapValues]
  cases hrow : rows.get key with
  | none =>
    rw [hrow] at hversion
    cases seen with
    | none => rfl
    | some row => simp at hversion
  | some row =>
    obtain ⟨v, y⟩ := row
    rw [hrow] at hversion
    cases seen with
    | none => simp at hversion
    | some row =>
      obtain ⟨v', x⟩ := row
      obtain rfl : v = v' := by simpa using hversion
      rw [hrows key v x y hrow (hseen key v x hread)]

theorem get_spec (hseen : ∀ k v x, tx.reads.get k = some (some (v, x)) → stamp k v x)
    (hstamp : ∀ k v x, rows.get k = some (v, x) → stamp k v x) (key : Key) :
    GetSpec stamp tx key (tx.get rows key).1 (tx.get rows key).2 := by
  unfold Transaction.get
  -- The transaction's own write comes first, then what it has read, then the rows.
  cases hwrite : tx.writes.get key with
  | some value =>
    refine ⟨rfl, rfl, hseen, fun _ h => h, fun rows' _ _ => ?_⟩
    rw [Table.get_overlay, hwrite, Option.getD_some]
  | none =>
    cases hread : tx.reads.get key with
    | some seen =>
      refine ⟨rfl, rfl, hseen, fun _ h => h, fun rows' hrows hagrees => ?_⟩
      rw [Table.get_overlay, hwrite, Option.getD_none, get_of_agrees hseen hread hrows hagrees]
    -- A first read: the version seen is put on record.
    | none =>
      have hseen' : ∀ k v x, (tx.reads.put key (rows.get key)).get k = some (some (v, x)) →
          stamp k v x := by
        intro k v x hx
        rw [Table.get_put] at hx
        split at hx
        · next heq =>
          subst heq
          exact hstamp _ v x (Option.some.inj hx)
        · exact hseen k v x hx
      refine ⟨rfl, rfl, hseen', fun rows' hagrees => ⟨fun k before hk => ?_, hagrees.scan⟩,
        fun rows' hrows hagrees => ?_⟩
      · refine hagrees.read k before ?_
        rw [Table.get_put_ne _ _ fun heq => by simp [← heq, hread] at hk]
        exact hk
      · rw [Table.get_overlay, hwrite, Option.getD_none]
        exact get_of_agrees hseen' (Table.get_put_self _ _ _) hrows hagrees

/-- Lists whose elements agree under one function agree under one it determines. -/
theorem map_eq_of_map_eq {α β γ : Type} {f : α → β} {g : α → γ} :
    ∀ {l l' : List α}, l.map f = l'.map f →
      (∀ a ∈ l, ∀ b ∈ l', f a = f b → g a = g b) → l.map g = l'.map g
  | [], [], _, _ => rfl
  | [], _ :: _, h, _ => by simp at h
  | _ :: _, [], h, _ => by simp at h
  | a :: l, b :: l', h, hfg => by
    obtain ⟨hab, hrest⟩ := List.cons.inj h
    rw [List.map_cons, List.map_cons, hfg a (by simp) b (by simp) hab,
      map_eq_of_map_eq hrest fun a ha b hb => hfg a (by simp [ha]) b (by simp [hb])]

/-- A range with the versions that were read has the values that were read. -/
theorem scan_of_versions {rows' : Versioned V} {kind start : String} {end_ : Option String}
    {limit : Nat} (hstamp : ∀ k v x, rows.get k = some (v, x) → stamp k v x)
    (hrows : Respects stamp rows')
    (h : versions rows' kind start end_ limit = versions rows kind start end_ limit) :
    (range rows kind start end_ limit).map (fun row => (row.1, row.2.2)) =
      (values rows').scan (inside kind start end_) (some limit) := by
  unfold values
  rw [Table.scan_mapValues, ← within_eq_inside]
  refine map_eq_of_map_eq h.symm ?_
  rintro ⟨k, v, x⟩ hx ⟨k', v', y⟩ hy heq
  obtain ⟨rfl, rfl⟩ : k = k' ∧ v = v' := by simpa using heq
  rw [hrows k v x y (Table.of_mem_scan hy).1 (hstamp k v x (Table.of_mem_scan hx).1)]

/-- A scan returns the rows of the range under the writes wherever the records agree. -/
theorem scan_spec (tx : Transaction V)
    (hstamp : ∀ k v x, rows.get k = some (v, x) → stamp k v x) (kind start : String)
    (end_ : Option String) (limit : Nat) :
    (tx.scan rows kind start end_ limit).2.readOnly = tx.readOnly ∧
    (tx.scan rows kind start end_ limit).2.writes = tx.writes ∧
    (tx.scan rows kind start end_ limit).2.reads = tx.reads ∧
    ∀ rows', Agrees (tx.scan rows kind start end_ limit).2 rows' → Agrees tx rows' ∧
      (Respects stamp rows' → ((values rows').overlay tx.writes).scan (inside kind start end_)
        (some limit) = (tx.scan rows kind start end_ limit).1) := by
  unfold Transaction.scan
  split
  · next hnone =>
    refine ⟨rfl, rfl, rfl, fun rows' hagrees => ⟨hagrees, fun _ => ?_⟩⟩
    -- an empty scan reads nothing
    rcases hnone with rfl | hempty
    · rfl
    · -- the range is empty
      obtain ⟨e, rfl, hle⟩ := (Option.any_eq_true _ _).mp hempty
      rw [Table.scan_some, ((values rows').overlay tx.writes).scan_eq_nil_iff _ |>.mpr, List.take_nil]
      intro k v _
      refine decide_eq_false fun hinside => ?_
      exact absurd (lt_of_le_of_lt hinside.2.1 (of_decide_eq_true hinside.2.2))
        (not_lt.mpr (of_decide_eq_true hle))
  -- the versions of what was scanned agree, so the rows do
  · refine ⟨rfl, rfl, rfl, fun rows' hagrees => ⟨⟨hagrees.read, fun s hs => ?_⟩, fun hrows => ?_⟩⟩
    · exact hagrees.scan s (List.mem_append_left _ hs)
    · have hversions := hagrees.scan _ (List.mem_append_right _ (List.mem_singleton_self _))
      rw [← Table.scan_overlay, ← scan_of_versions hstamp hrows hversions, List.foldl_filter]
      simp only [inside, decide_eq_true_eq]

/-- A call keeps the transaction explained, with what it returned. -/
theorem Explained.access {log : Log V} (h : Explained stamp tx log)
    (hstamp : ∀ k v x, rows.get k = some (v, x) → stamp k v x) (a : Access V) :
    Explained stamp (tx.access rows a).2
      { log with calls := log.calls ++ [(a, (tx.access rows a).1)] } := by
  -- it is enough that the call leads where the plain map does, wherever the records agree
  have hsnoc : ∀ {tx' : Transaction V} {answer : Answer V}, tx'.readOnly = tx.readOnly →
      (∀ k v x, tx'.reads.get k = some (some (v, x)) → stamp k v x) →
      (∀ rows', Agrees tx' rows' → Agrees tx rows') →
      (∀ rows', Respects stamp rows' → Agrees tx' rows' →
        plain tx.readOnly ((values rows').overlay tx.writes) a =
          (answer, (values rows').overlay tx'.writes)) →
      Explained stamp tx' { log with calls := log.calls ++ [(a, answer)] } := by
    -- The calls so far replay by the invariant, and this one behaves as on the plain map.
    intro tx' answer hro hseen hagrees hplain
    refine ⟨h.readOnly.trans hro.symm, hseen, fun rows' hrows hagrees' => ?_⟩
    have hreplays := (h.replays rows' hrows (hagrees rows' hagrees')).snoc a
    rw [hplain rows' hrows hagrees'] at hreplays
    rw [hro]
    exact hreplays
  -- a write reads the row and puts its value on top
  have hwrite : ∀ (key : Key) (value : Option V),
      (∀ m : Table Key V, plain tx.readOnly m a =
        if tx.readOnly then (.readOnly, m) else (.done, m.written key value)) →
      Explained stamp (tx.write rows key value).2
        { log with calls := log.calls ++ [(a, (tx.write rows key value).1)] } := by
    intro key value hplain
    unfold Transaction.write
    split
    · next hro =>
      refine hsnoc rfl h.seen (fun _ hagrees => hagrees) fun rows' _ _ => ?_
      rw [hplain, if_pos hro]
    · next hro =>
      have hget := get_spec h.seen hstamp key
      refine hsnoc hget.readOnly hget.seen
        (fun rows' hagrees => hget.agrees rows' ⟨hagrees.read, hagrees.scan⟩) fun rows' _ _ => ?_
      rw [hplain, if_neg hro]
      simp only [hget.writes, Table.overlay_put]
  -- Reads and scans record what they saw; writes read the row first.
  cases a with
  | get kind id =>
    have hget := get_spec h.seen hstamp (toLex (kind, id))
    refine hsnoc hget.readOnly hget.seen hget.agrees fun rows' hrows hagrees => ?_
    simp only [plain, Transaction.access, hget.writes, hget.value rows' hrows hagrees]
  | scan kind start end_ limit =>
    obtain ⟨hro, hwrites, hreads, hscan⟩ := scan_spec tx hstamp kind start end_ limit
    refine hsnoc hro ?_ (fun rows' hagrees => (hscan rows' hagrees).1) fun rows' hrows hagrees => ?_
    · intro k v x hx
      refine h.seen k v x ?_
      rw [← hreads]
      exact hx
    · simp only [plain, Transaction.access, hwrites, (hscan rows' hagrees).2 hrows]
  | put kind id value => exact hwrite _ _ fun m => rfl
  | delete kind id => exact hwrite _ _ fun m => rfl

/-! ### Commits -/

theorem get_applied (drawn : Key → Uuid) (k : Key) :
    (tx.applied rows drawn).get k =
      ((tx.writes.get k).map fun value => value.map fun x => (drawn k, x)).getD (rows.get k) := by
  have hsorted : (tx.writes.rows.map fun row =>
      (row.1, row.2.map fun value => (drawn row.1, value))).Pairwise fun a b => a.1 < b.1 :=
    List.pairwise_map.mpr tx.writes.rows_sorted
  obtain ⟨hmem, hnot⟩ := Table.get_foldl_written hsorted rows k
  rw [List.foldl_map] at hmem hnot
  unfold Transaction.applied
  cases hw : tx.writes.get k with
  | none =>
    refine hnot fun value hvalue => ?_
    obtain ⟨⟨k', value'⟩, hrow, heq⟩ := List.mem_map.mp hvalue
    obtain ⟨rfl, -⟩ := Prod.mk.inj heq
    rw [Table.mem_rows, hw] at hrow
    simp at hrow
  | some value =>
    exact hmem _ (List.mem_map.mpr ⟨(k, value), tx.writes.mem_rows.mpr hw, rfl⟩)

theorem values_applied (drawn : Key → Uuid) :
    values (tx.applied rows drawn) = (values rows).overlay tx.writes := by
  refine Table.ext_get fun k => ?_
  unfold values
  rw [Table.get_mapValues, get_applied, Table.get_overlay, Table.get_mapValues]
  cases hw : tx.writes.get k with
  | none => rfl
  | some value => cases value <;> rfl

/-- A commit that is no conflict found everything as it was recorded. -/
theorem agrees_of_valid (h : tx.valid rows = true) : Agrees tx rows := by
  unfold Transaction.valid at h
  rw [Bool.and_eq_true, List.all_eq_true, List.all_eq_true] at h
  obtain ⟨hreads, hscans⟩ := h
  have hscan : ∀ s ∈ tx.scans, versions rows s.kind s.start s.end_ s.limit = s.versions :=
    fun s hs => of_decide_eq_true (hscans s hs)
  refine ⟨fun k before hk => ?_, hscan⟩
  have hread := hreads (k, before) (tx.reads.mem_rows.mpr hk)
  rcases Bool.or_eq_true_iff.mp hread with hranged | hsame
  · -- the range that returned this version was validated
    obtain ⟨⟨v, x⟩, rfl, hranged⟩ := (Option.any_eq_true _ _).mp hranged
    obtain ⟨s, hs, hmem⟩ := List.mem_flatMap.mp (List.contains_iff_mem.mp hranged)
    rw [← hscan s hs] at hmem
    obtain ⟨⟨k', v', y⟩, hrow, heq⟩ := List.mem_map.mp hmem
    obtain ⟨rfl, rfl⟩ := Prod.mk.inj heq
    rw [(Table.of_mem_scan hrow).1]
    rfl
  · exact of_decide_eq_true hsame

end Access

/-! ### Interleavings -/

/-- A version is drawn anew at each write of a row. -/
def Fresh (steps : List (Step V)) : Prop :=
  ∀ earlier i drawn later, steps = earlier ++ .commit i drawn :: later →
    ∀ j other, .commit j other ∈ earlier → ∀ k, drawn k ≠ other k

/-- The invariant of an interleaving: stamped versions name values, the rows are stamped, open
transactions are explained, and the committed ones replay to the rows. -/
structure Sound (stamp : Key → Uuid → V → Prop) (trace : Trace V) : Prop where
  unique : ∀ k v x y, stamp k v x → stamp k v y → x = y
  rows : ∀ k v x, trace.store.rows.get k = some (v, x) → stamp k v x
  open_ : ∀ i tx, trace.store.open_ i = some tx → Explained stamp tx (trace.logs i)
  serial : ReplaysAll .empty trace.committed (values trace.store.rows)

theorem Sound.respects {stamp : Key → Uuid → V → Prop} {trace : Trace V} (h : Sound stamp trace) :
    Respects stamp trace.store.rows :=
  fun k v x y hy hx => h.unique k v y x (h.rows k v y hy) hx

/-- Updating one handle keeps what holds of every open transaction. -/
theorem open_update {P : Nat → Transaction V → Prop} {open_ : Nat → Option (Transaction V)}
    {i : Nat} {o : Option (Transaction V)} (h : ∀ j tx, j ≠ i → open_ j = some tx → P j tx)
    (hi : ∀ tx, o = some tx → P i tx) :
    ∀ j tx, Function.update open_ i o j = some tx → P j tx := by
  intro j tx hj
  by_cases heq : j = i
  · subst heq
    rw [Function.update_self] at hj
    exact hi tx hj
  · rw [Function.update_of_ne heq] at hj
    exact h j tx heq hj

theorem Sound.step {stamp : Key → Uuid → V → Prop} {trace : Trace V} (h : Sound stamp trace)
    (step : Step V) (hstep : ∀ i drawn, step ≠ .commit i drawn) : Sound stamp (trace.step step) := by
  cases step with
  -- A transaction that begins has recorded nothing and agrees with any rows.
  | begin_ i readOnly =>
    refine ⟨h.unique, h.rows, open_update (fun j tx hj htx => ?_) fun tx htx => ?_, h.serial⟩
    · change Explained stamp tx (Function.update trace.logs i _ j)
      rw [Function.update_of_ne hj]
      exact h.open_ j tx htx
    · change Explained stamp tx (Function.update trace.logs i _ i)
      rw [Function.update_self, ← Option.some.inj htx]
      exact explained_begin stamp readOnly
  -- A call of one that is not open changes nothing.
  | access i a =>
    cases htx : trace.store.open_ i with
    | none =>
      have hsame : trace.step (.access i a) = trace := by
        simp only [Trace.step, Store.step, htx]
      rw [hsame]
      exact h
    | some tx =>
      have hnext := (h.open_ i tx htx).access h.rows a
      simp only [Trace.step, Store.step, htx]
      refine ⟨h.unique, h.rows, open_update (fun j tx' hj htx' => ?_) fun tx' htx' => ?_, h.serial⟩
      · simp only [Function.update_of_ne hj]
        exact h.open_ j tx' htx'
      · simp only [Function.update_self]
        rw [← Option.some.inj htx']
        exact hnext
  | commit i drawn => exact absurd rfl (hstep i drawn)
  -- Dropping one leaves the others open.
  | drop_ i =>
    exact ⟨h.unique, h.rows, open_update (fun j tx _ htx => h.open_ j tx htx) (by simp), h.serial⟩

/-- The stamps after a commit: also the version drawn for each row it put. -/
def stamped (stamp : Key → Uuid → V → Prop) (tx : Transaction V) (drawn : Key → Uuid) (k : Key)
    (v : Uuid) (x : V) : Prop :=
  stamp k v x ∨ v = drawn k ∧ tx.writes.get k = some (some x)

/-- Stamps of fresh versions name values, and the rows after the commit are stamped. -/
theorem stamped_applied {stamp : Key → Uuid → V → Prop} {rows : Versioned V} (tx : Transaction V)
    {drawn : Key → Uuid} (hunique : ∀ k v x y, stamp k v x → stamp k v y → x = y)
    (hrows : ∀ k v x, rows.get k = some (v, x) → stamp k v x)
    (hfresh : ∀ k x, ¬stamp k (drawn k) x) :
    (∀ k v x y, stamped stamp tx drawn k v x → stamped stamp tx drawn k v y → x = y) ∧
      ∀ k v x, (tx.applied rows drawn).get k = some (v, x) → stamped stamp tx drawn k v x := by
  refine ⟨?_, fun k v x hx => ?_⟩
  · rintro k v x y (hx | ⟨rfl, hx⟩) (hy | ⟨hv, hy⟩)
    · exact hunique k v x y hx hy
    · rw [hv] at hx
      exact absurd hx (hfresh k x)
    · exact absurd hy (hfresh k y)
    · exact Option.some.inj (Option.some.inj (hx.symm.trans hy))
  · rw [get_applied] at hx
    cases hw : tx.writes.get k with
    | none =>
      rw [hw] at hx
      exact .inl (hrows k v x hx)
    | some value =>
      rw [hw] at hx
      obtain ⟨x', rfl, heq⟩ := Option.map_eq_some_iff.mp hx
      obtain ⟨rfl, rfl⟩ := Prod.mk.inj heq
      exact .inr ⟨rfl, hw⟩

theorem Sound.commit {stamp : Key → Uuid → V → Prop} {trace : Trace V} (h : Sound stamp trace)
    {i : Nat} {drawn : Key → Uuid} {tx : Transaction V} (htx : trace.store.open_ i = some tx)
    (hvalid : tx.valid trace.store.rows = true) (hfresh : ∀ k x, ¬stamp k (drawn k) x) :
    Sound (stamped stamp tx drawn) (trace.step (.commit i drawn)) := by
  have hopen := h.open_ i tx htx
  obtain ⟨hunique, hrows⟩ := stamped_applied tx h.unique h.rows hfresh
  simp only [Trace.step, Store.step, htx, Transaction.commit, hvalid, if_true]
  refine ⟨hunique, hrows, open_update (fun j tx' _ htx' => ?_) (by simp), ?_⟩
  · exact (h.open_ j tx' htx').mono fun k v x hx => .inl hx
  · -- the transaction replays on the rows it found, and leaves them under its writes
    refine h.serial.snoc ?_
    rw [values_applied, hopen.readOnly]
    exact hopen.replays _ h.respects (agrees_of_valid hvalid)

/-- A commit that is a conflict, or of a handle that is not open, leaves the rows. -/
theorem Sound.conflict {stamp : Key → Uuid → V → Prop} {trace : Trace V} (h : Sound stamp trace)
    {i : Nat} {drawn : Key → Uuid}
    (hnot : ∀ tx, trace.store.open_ i = some tx → tx.valid trace.store.rows = false) :
    Sound stamp (trace.step (.commit i drawn)) := by
  cases htx : trace.store.open_ i with
  | none =>
    have hsame : trace.step (.commit i drawn) = trace := by
      simp only [Trace.step, Store.step, htx]
    rw [hsame]
    exact h
  | some tx =>
    simp only [Trace.step, Store.step, htx, Transaction.commit, hnot tx htx]
    exact ⟨h.unique, h.rows, open_update (fun j tx' _ htx' => h.open_ j tx' htx') (by simp), h.serial⟩

theorem interleave_concat (steps : List (Step V)) (step : Step V) :
    interleave (steps ++ [step]) = (interleave steps).step step := by
  simp [interleave, List.foldl_append]

theorem sound_interleave {steps : List (Step V)} (hfresh : Fresh steps) :
    ∃ stamp, Sound stamp (interleave steps) ∧
      ∀ k v x, stamp k v x → ∃ i drawn, .commit i drawn ∈ steps ∧ v = drawn k := by
  -- Step by step at the end of the interleaving. Versions are drawn fresh, so a stamp stays unique.
  induction steps using List.reverseRecOn with
  | nil =>
    refine ⟨fun _ _ _ => False, ⟨?_, ?_, ?_, ?_⟩, ?_⟩
    · intro k v x y hx
      exact hx.elim
    · intro k v x hx
      simp [interleave, Trace.empty, Store.empty] at hx
    · intro i tx htx
      simp [interleave, Trace.empty, Store.empty] at htx
    · exact Table.ext_get fun k => by simp [values, interleave, Trace.empty, Store.empty]
    · intro k v x hx
      exact hx.elim
  | append_singleton steps step ih =>
    obtain ⟨stamp, hsound, hdrawn⟩ := ih fun earlier i drawn later heq =>
      hfresh earlier i drawn (later ++ [step]) (by simp [heq])
    rw [interleave_concat]
    have hold : ∀ k v x, stamp k v x → ∃ i drawn, .commit i drawn ∈ steps ++ [step] ∧ v = drawn k := by
      intro k v x hx
      obtain ⟨i, drawn, hmem, hv⟩ := hdrawn k v x hx
      exact ⟨i, drawn, List.mem_append_left _ hmem, hv⟩
    -- A commit takes effect when the records still agree, and is a conflict otherwise.
    by_cases hstep : ∃ i drawn, step = .commit i drawn
    · obtain ⟨i, drawn, rfl⟩ := hstep
      by_cases hvalid : ∃ tx, (interleave steps).store.open_ i = some tx ∧
          tx.valid (interleave steps).store.rows = true
      · obtain ⟨tx, htx, hvalid⟩ := hvalid
        refine ⟨_, hsound.commit htx hvalid fun k x hx => ?_, ?_⟩
        · obtain ⟨j, other, hmem, hv⟩ := hdrawn k _ x hx
          exact hfresh steps i drawn [] rfl j other hmem k hv
        · rintro k v x (hx | ⟨rfl, -⟩)
          · exact hold k v x hx
          · exact ⟨i, drawn, by simp, rfl⟩
      · refine ⟨stamp, hsound.conflict fun tx htx => ?_, hold⟩
        rw [← Bool.not_eq_true]
        exact fun hv => hvalid ⟨tx, htx, hv⟩
    · exact ⟨stamp, hsound.step step fun i drawn heq => hstep ⟨i, drawn, heq⟩, hold⟩

/-- The committed transactions, in the order of their commits, return on a plain map what they
returned and end in the rows; a step that is no commit, or a conflict, changes no row. -/
theorem memory_serializable (steps : List (Step V)) (hfresh : Fresh steps) :
    ReplaysAll .empty (interleave steps).committed (values (interleave steps).store.rows) ∧
      ∀ earlier step later, steps = earlier ++ step :: later →
        ((interleave earlier).store.step step).1 ≠ .committed →
        (interleave (earlier ++ [step])).store.rows = (interleave earlier).store.rows ∧
          (interleave (earlier ++ [step])).committed = (interleave earlier).committed := by
  obtain ⟨stamp, hsound, -⟩ := sound_interleave hfresh
  refine ⟨hsound.serial, fun earlier step later _ hnot => ?_⟩
  rw [interleave_concat]
  cases step with
  | begin_ i readOnly => exact ⟨rfl, rfl⟩
  | access i a =>
    simp only [Trace.step, Store.step]
    cases (interleave earlier).store.open_ i <;> exact ⟨rfl, rfl⟩
  | commit i drawn =>
    simp only [Store.step] at hnot
    simp only [Trace.step, Store.step]
    cases htx : (interleave earlier).store.open_ i with
    | none => exact ⟨rfl, rfl⟩
    | some tx =>
      rw [htx] at hnot
      cases hcommit : tx.commit (interleave earlier).store.rows drawn with
      | none => simp [hcommit]
      | some rows => simp [hcommit] at hnot
  | drop_ i => exact ⟨rfl, rfl⟩

theorem fresh_of_pairwise {steps : List (Step V)}
    (h : steps.Pairwise fun a b => ∀ i drawn j other, a = .commit j other → b = .commit i drawn →
      ∀ k, drawn k ≠ other k) : Fresh steps := by
  rintro earlier i drawn later rfl j other hmem k
  exact (List.pairwise_append.mp h).2.2 _ hmem _ List.mem_cons_self i drawn j other rfl rfl k

/-- Two transactions read a row and write it; the first to commit wins. -/
def lostUpdate : List (Step Nat) :=
  [.begin_ 0 false, .begin_ 1 false, .access 0 (.get "a" "x"), .access 1 (.get "a" "x"),
    .access 0 (.put "a" "x" 1), .access 1 (.put "a" "x" 2), .commit 0 fun _ => 0, .commit 1 fun _ => 1]

/-- The second writer's read is outdated when it commits: its commit is a conflict, and the first one's is
all that is replayed. -/
theorem lost_update_refused :
    ReplaysAll .empty (interleave lostUpdate).committed (values (interleave lostUpdate).store.rows) ∧
      (interleave lostUpdate).committed.length = 1 := by
  refine ⟨(memory_serializable lostUpdate (fresh_of_pairwise ?_)).1, by decide +kernel⟩
  simp [lostUpdate]

end Backend

end Ouro
