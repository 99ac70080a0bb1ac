import Ouro.Durable.Calls
import Ouro.Lib.Utf8

/-!
# Runs by the start of their id

`list` reads the runs whose id starts with a given text as one range of row keys, from that text to
its `prefixEnd`: the text with its last character replaced by the next one, after the characters that
have none are dropped. Where no character is left the range has no end.

The range is the one of all continuations of the text (`prefix_iff_range`), in the order of characters
and in the order of UTF-8 bytes. So in every reachable store `list` returns the runs of a definition,
or all runs, whose id starts with the text (`list_exact`).
-/

namespace Ouro

open Lib Engine Tx

namespace Engine

/-- The character with a number, if there is one. -/
def fromU32 (n : Nat) : Option Char :=
  if h : n.isValidChar then some (Char.ofNatAux n h) else none

/-- The character after `c`, past the surrogates; nothing follows the last one. -/
def nextChar (c : Char) : Option Char :=
  let next := c.toNat + 1
  let next := if next = 0xd800 then 0xe000 else next
  fromU32 next

/-- Drops characters from the end of a text until one can be replaced by the next one. The text is
given, and returned, last character first. -/
def advance : List Char → Option (List Char)
  | [] => none
  | last :: chars =>
    match nextChar last with
    | some next => some (next :: chars)
    | none => advance chars

/-- The exclusive end of the range of texts that start with `prefix_`. -/
def prefixEnd (prefix_ : String) : Option String :=
  (advance prefix_.toList.reverse).map fun chars => String.ofList chars.reverse

/-- The range from `start` on, before `end_`. -/
def inRange (start : String) (end_ : Option String) (id : String) : Bool :=
  decide (start ≤ id) && end_.all fun e => decide (id < e)

/-- The same range of an index whose rows are addressed by the run alone. -/
def inRunRange (start : String) (end_ : Option String) : IndexId → Bool
  | .run id => inRange start end_ id
  | .timed _ _ | .wait _ _ _ => false

/-- The runs whose id starts with `prefix_`: those of a definition, or all. -/
def list (name : Option String) (prefix_ : String) : Txn (List SavedRun) := do
  let end_ := prefixEnd prefix_
  match name with
  | some name =>
    let found ← indexedRuns (.name name) (inRunRange prefix_ end_) none
    return found.map (·.run)
  | none =>
    let found ← Tx.read (·.run.scan (inRange prefix_ end_) none)
    return found.map (·.2.run)

end Engine

/-! ### The range of a prefix -/

theorem fromU32_some {n : Nat} {d : Char} (h : fromU32 n = some d) : d.toNat = n := by
  by_cases hn : n.isValidChar
  · rw [fromU32, dif_pos hn, Option.some.injEq] at h
    rw [← h]
    rfl
  · rw [fromU32, dif_neg hn] at h
    cases h

theorem fromU32_none {n : Nat} (h : fromU32 n = none) : ¬ n.isValidChar := by
  intro hn
  rw [fromU32, dif_pos hn] at h
  cases h

/-- Between a character and the next one there is no other. -/
theorem nextChar_some {c d : Char} (h : nextChar c = some d) (e : Char) : e < d ↔ e ≤ c := by
  have hnext : d.toNat = if c.toNat + 1 = 0xd800 then 0xe000 else c.toNat + 1 := fromU32_some h
  show e.toNat < d.toNat ↔ e.toNat ≤ c.toNat
  rw [hnext]
  -- only surrogates lie between a character and its successor
  have he : e.toNat < 0xd800 ∨ 0xdfff < e.toNat := e.valid.imp id And.left
  split_ifs <;> omega

/-- No character comes after one without a next one. -/
theorem nextChar_none {c : Char} (h : nextChar c = none) (e : Char) : e ≤ c := by
  have hnext : ¬ (if c.toNat + 1 = 0xd800 then 0xe000 else c.toNat + 1).isValidChar := fromU32_none h
  show e.toNat ≤ c.toNat
  have he : e.toNat < 0x110000 := Utf8.toNat_lt e
  have hc : c.toNat < 0xd800 ∨ 0xdfff < c.toNat ∧ c.toNat < 0x110000 := c.valid
  unfold Nat.isValidChar at hnext
  split_ifs at hnext <;> omega

/-- The words that start with `p` are those from `p` to its end, in the order of characters. -/
theorem prefix_iff_advance (p s : List Char) :
    p.reverse <+: s ↔ p.reverse ≤ s ∧ ∀ e, advance p = some e → s < e.reverse := by
  induction p with
  | nil =>
    have hnil : [] ≤ s := prefix_le List.nil_prefix
    simpa [advance] using hnil
  | cons c p ih =>
    rw [List.reverse_cons, advance]
    cases hc : nextChar c with
    | some d =>
      rw [prefix_iff_of_next (nextChar_some hc)]
      simp
    | none =>
      -- the end is the one of the shorter word, which lies below
      rw [prefix_iff_of_last (nextChar_none hc), ih]
      refine and_congr_right fun hle => and_iff_right ?_
      exact (prefix_le (List.prefix_append _ _)).trans hle

/-- The texts that start with `p` are those from `p` to its end. -/
theorem prefix_iff_range (p s : String) :
    p.toList <+: s.toList ↔ p ≤ s ∧ ∀ e, prefixEnd p = some e → s < e := by
  have h := prefix_iff_advance p.toList.reverse s.toList
  rw [List.reverse_reverse] at h
  rw [h, String.le_iff_toList_le, prefixEnd]
  refine and_congr_right fun _ => ?_
  constructor
  · rintro hall e he
    obtain ⟨chars, hchars, rfl⟩ := Option.map_eq_some_iff.mp he
    rw [String.lt_iff_toList_lt, String.toList_ofList]
    exact hall chars hchars
  · intro hall chars hchars
    have hlt := hall _ (Option.map_eq_some_iff.mpr ⟨chars, hchars, rfl⟩)
    rwa [String.lt_iff_toList_lt, String.toList_ofList] at hlt

/-- The same in the order of UTF-8 bytes, which is the one the rows are kept in. -/
theorem prefix_iff_octets (p s : String) :
    p.toList <+: s.toList ↔
      Utf8.octets p ≤ Utf8.octets s ∧ ∀ e, prefixEnd p = some e → Utf8.octets s < Utf8.octets e := by
  rw [prefix_iff_range]
  refine and_congr ?_ (forall_congr' fun e => imp_congr_right fun _ => (Utf8.octets_lt_iff s e).symm)
  rw [← not_lt, ← Utf8.octets_lt_iff]
  rfl

/-! ### Reading the range -/

/-- The runs of a definition, or all of them, whose id starts with the text, by a search of all runs
in the order of their ids. -/
def listed (c : Core) (name : Option String) (p : String) : List StoredRun :=
  c.run.values.filter fun s => name.all (fun n => decide (s.run.admission.name = n)) && startsWith s.id p

theorem inRange_prefixEnd (p : String) (id : String) :
    inRange p (prefixEnd p) id = startsWith id p := by
  refine Bool.eq_iff_iff.mpr ?_
  rw [startsWith, List.isPrefixOf_iff_prefix, prefix_iff_range]
  simp [inRange, Option.all_eq_true]

theorem mem_entries_name {s : StoredRun} {name : String} {i : IndexId} {v : IndexValue} :
    (indexKey (.name name) i, v) ∈ entries s ↔
      s.run.admission.name = name ∧ i = .run s.id ∧ v = .run s.id := by
  unfold entries liveEntries
  cases s.run.endedMs with
  | none =>
    simp [runKinds, waitKinds]
    aesop
  | some ended => cases s.evidence <;> simp [runKinds, waitKinds] <;> aesop

theorem mem_listed {c : Core} {name : Option String} {p : String} {s : StoredRun} :
    s ∈ listed c name p ↔ (∃ i, c.run.get i = some s) ∧
      (name.all fun n => decide (s.run.admission.name = n)) = true ∧ startsWith s.id p = true := by
  rw [listed, List.mem_filter, Table.mem_values, Bool.and_eq_true]

theorem listed_increasing {σ : Rows} (hσ : Indexed σ) (name : Option String) (p : String) :
    (listed σ.toCore name p).Pairwise fun s t => s.id < t.id := by
  refine List.Pairwise.filter _ ?_
  unfold Table.values
  rw [List.pairwise_map]
  refine σ.run.rows_sorted.imp_of_mem ?_
  rintro ⟨i, s⟩ ⟨j, t⟩ hs ht hlt
  change s.id < t.id
  rw [hσ.keyed i s ((Table.mem_rows _).mp hs), hσ.keyed j t ((Table.mem_rows _).mp ht)]
  exact hlt

/-- Reads that succeed on each row succeed on all. -/
theorem collect_indexedRun {σ : Rows} {l : List StoredRun} {key : StoredRun → IndexKey}
    (h : ∀ s ∈ l, σ.run.get s.id = some s) :
    Tx.collect indexedRun (l.map fun s => (key s, .run s.id)) σ = .ok (l, σ) := by
  induction l with
  | nil => rfl
  | cons s l ih =>
    simp only [List.map_cons, Tx.collect, bind_ok, pure_ok]
    refine ⟨s, σ, indexedRun_ok.mpr ⟨⟨s.id, rfl, h s List.mem_cons_self⟩, rfl⟩, l, σ, ?_, rfl, rfl⟩
    exact ih fun t ht => h t (List.mem_cons_of_mem _ ht)

/-- The range of an index of names is that of the runs it lists. -/
theorem scan_name {σ : Rows} (hσ : Indexed σ) (name p : String) :
    scanIndex σ (.name name) (inRunRange p (prefixEnd p)) none =
      (listed σ.toCore (some name) p).map fun s => (indexKey (.name name) (.run s.id), .run s.id) := by
  refine Table.eq_of_keys (Table.scan_sorted _ _) ?_ fun row => ?_
  · rw [List.pairwise_map]
    refine (listed_increasing hσ _ _).imp fun hlt => ?_
    exact Prod.Lex.lt_iff.mpr (.inr ⟨rfl, IndexId.run_lt_iff.mpr hlt⟩)
  · obtain ⟨k, v⟩ := row
    rw [hσ.mem_scanIndex, List.mem_map]
    -- a row of the index in the range is that of a run with the name
    constructor
    · rintro ⟨hkind, hrange, s, hs, hentry⟩
      have hkey : k = indexKey (.name name) (ofLex k).2 := by
        rw [← hkind]
        rfl
      rw [hkey] at hentry
      obtain ⟨hname, hid, rfl⟩ := mem_entries_name.mp hentry
      rw [hid] at hs hrange
      refine ⟨s, mem_listed.mpr ⟨⟨_, hs⟩, by simp [hname], ?_⟩, ?_⟩
      · rwa [← inRange_prefixEnd]
      · rw [hkey, hid]
    · rintro ⟨s, hs, heq⟩
      obtain ⟨rfl, rfl⟩ := Prod.mk.inj heq
      obtain ⟨⟨i, hget⟩, hname, hstart⟩ := mem_listed.mp hs
      refine ⟨rfl, ?_, s, ?_, mem_entries_name.mpr ⟨by simpa using hname, rfl, rfl⟩⟩
      · exact (inRange_prefixEnd p s.id).trans hstart
      · change σ.run.get s.id = some s
        rw [hσ.keyed i s hget, hget]

theorem list_ok {σ : Rows} (hσ : Indexed σ) (name : Option String) (p : String) :
    list name p σ = .ok ((listed σ.toCore name p).map (·.run), σ) := by
  cases name with
  | some name =>
    have hget : ∀ s ∈ listed σ.toCore (some name) p, σ.run.get s.id = some s := by
      intro s hs
      obtain ⟨⟨i, hget⟩, -⟩ := mem_listed.mp hs
      rw [hσ.keyed i s hget, hget]
    simp only [list, bind_ok, pure_ok, indexedRuns, read_ok]
    refine ⟨_, σ, ⟨_, σ, ⟨rfl, rfl⟩, ?_⟩, rfl, rfl⟩
    rw [scan_name hσ]
    exact collect_indexedRun hget
  | none =>
    simp only [list, bind_ok, pure_ok, read_ok]
    refine ⟨_, σ, ⟨rfl, rfl⟩, ?_, rfl⟩
    rw [listed, Table.values, List.filter_map, List.map_map, Table.scan]
    congr 1
    refine List.filter_congr fun row hrow => ?_
    have hid := hσ.keyed row.1 row.2 ((Table.mem_rows _).mp hrow)
    rw [inRange_prefixEnd, ← hid]
    rfl

/-- In every reachable store `list` returns the runs of a definition, or all runs, whose id starts with
the text, and nothing else, in the order of their ids; and the range it reads is, for every text, that
of the texts which start with it. -/
theorem list_exact (env : Env) (history : List Op) (name : Option String) (p : String) :
    list name p (after env history) =
        .ok ((listed (after env history).toCore name p).map (·.run), after env history) ∧
      ∀ s : String, p.toList <+: s.toList ↔
        Utf8.octets p ≤ Utf8.octets s ∧
          (prefixEnd p = none ∨ ∃ e, prefixEnd p = some e ∧ Utf8.octets s < Utf8.octets e) := by
  refine ⟨list_ok (good_after env history).indexed name p, fun s => ?_⟩
  rw [prefix_iff_octets]
  refine and_congr_right fun _ => ?_
  cases prefixEnd p with
  | none => simp
  | some e => simp

end Ouro
