import Ouro.Lib.Pages
import Ouro.Backend.Catalog

/-!
# Pages of control queries

A control query lists the rows of one kind, in a window of time, a page at a time. The next page starts
at the cursor, the last row of the page before; the row may be gone by then, so the range is read from
the cursor on, one row longer, and the cursor is filtered out.

The rows change between two pages. A page is the page of the listing as it is then
(`pageRows_alone`), so following the cursors is a walk over a changing listing (`Walk.pages`): no row
comes twice, none outside the window comes, and every row that stays comes (`pages_exact`).
-/

namespace Ouro

open Lib

namespace Backend

/-! ### Pages -/

/-- Where a page ended, bound to the query it is of. -/
structure Cursor where
  query : String
  after : String
deriving DecidableEq

/-- Items, and where the next ones are. -/
structure Page (α : Type) where
  items : List α
  next : Option Cursor
deriving DecidableEq

variable {V : Type}

/-- An operator's request that is malformed. -/
def invalidInput {R : Type} (message : String) : Program V Error R :=
  .fail (.control (.invalidInput message))

/-- Where a window starts. -/
def startOf (since : Option Int64) : String := (since.map fun ms => Operation.timeKey ms.toInt).getD ""

/-- The end of a window. -/
def endOf (before : Option Int64) : Option String := before.map fun ms => Operation.timeKey ms.toInt

/-- One page of the rows of a kind: in the window from `since` to before `before`, after the cursor. -/
def pageRows (kind query : String) (since before : Option Int64) (cursor : Option Cursor) (limit : Nat) :
    Program V Error (Page (Key × V)) :=
  if ¬(1 ≤ limit ∧ limit ≤ maxPage) then invalidInput s!"page limit must be 1..={maxPage}"
  else if since.any fun a => before.any fun b => decide (b < a) then invalidInput "invalid time window"
  else if cursor.any fun c => decide (c.query ≠ query) then
    invalidInput "cursor belongs to another query"
  else
    let start := (cursor.map Cursor.after).getD (startOf since)
    let end_ := endOf before
    if end_.any fun e => decide (e ≤ start) then .ret { items := [], next := none }
    else
      .call (.scan kind start end_ (limit + if cursor.isSome then 1 else 0)) fun
        | .rows rows =>
          let found := (rows.filter fun row =>
            cursor.all fun c => decide (c.after < (ofLex row.1).2)).take limit
          .ret
            { items := found
              next := if found.length = limit then
                  found.getLast?.map fun row => { query, after := (ofLex row.1).2 }
                else none }
        | _ => .fail (.message "no answer")

/-! ### Runs -/

/-- Which runs a query is about. -/
structure Runs where
  definition : Option String
  state : Option RunState
  parent : Option String
  /-- Inclusive admission instant (end instant for history). -/
  sinceMs : Option Int64
  /-- Exclusive admission instant (end instant for history). -/
  beforeMs : Option Int64

/-- The listing that holds the runs of a query. -/
def runKind (filter : Runs) (history : Bool) : String :=
  let base := if history then "control_end" else "control_run"
  match filter.parent, history with
  | some parent, false => Operation.partition "control_parent" parent
  | _, _ => (filter.definition.map (Operation.partition base)).getD base

/-- The run as queries of many runs show it: without its host data. -/
def redacted (r : SavedRun) : SavedRun :=
  if r.admission.host.isSome then
    { r with admission.runtime := r.admission.runtime.insert "host" (.str "<redacted>") }
  else r

/-- The run is one the query is about. -/
def Runs.matches (filter : Runs) (r : SavedRun) : Bool :=
  filter.definition.all (· = r.admission.name) && filter.state.all (· = r.state) &&
    filter.parent.all fun p => r.child.any (·.parent = p)

section Query

-- How the stored values of an index row and of a run row read.
variable (asStr : V → Option String) (asStored : V → Option StoredRun)

/-- The stored run, when there is one. -/
def run (id : String) : Program V Error StoredRun :=
  .call (.get "run" id) fun
    | .value (some value) => (asStored value).elim (.fail (.message "invalid type")) .ret
    | .value none => .fail (.message s!"unknown run {id}")
    | _ => .fail (.message "no answer")

/-- The runs that rows of a listing lead to, as the query shows those it is about. -/
def matching (filter : Runs) : List (Key × V) → Program V Error (List SavedRun)
  | [] => .ret []
  | row :: rows =>
    match asStr row.2 with
    | none => .fail (.message "invalid control run index")
    | some id =>
      (run asStored id).bind fun s =>
        (matching filter rows).bind fun items =>
          .ret (if filter.matches s.run then redacted s.run :: items else items)

/-- One page of the runs a query is about; `text` is how a query is spelled in a cursor. -/
def queryRuns (text : Runs → Bool → String) (filter : Runs) (history : Bool) (cursor : Option Cursor)
    (limit : Nat) : Program V Error (Page SavedRun) :=
  (pageRows (runKind filter history) (text filter history) filter.sinceMs filter.beforeMs cursor
      limit).bind fun found =>
    (matching asStr asStored filter found.items).bind fun items =>
      .ret { items, next := found.next }

end Query

/-! ### The window -/

/-- The row lies in the window of a query, after the cursor if there is one. -/
def InWindow (kind : String) (since before : Option Int64) (k : Key) : Prop :=
  (ofLex k).1 = kind ∧ (∀ a ∈ since, Operation.timeKey a.toInt ≤ (ofLex k).2) ∧
    ∀ b ∈ before, (ofLex k).2 < Operation.timeKey b.toInt

theorem hexDigit_lt_iff : ∀ a < 16, ∀ b < 16, hexDigit a < hexDigit b ↔ a < b := by decide

/-- Numbers compare by their leading digit, and then by the rest. -/
theorem leading_lt_iff {p u v x y : Nat} (hu : u < p) (hv : v < p) :
    (u + p * x < v + p * y ↔ x < y ∨ x = y ∧ u < v) ∧
      (u + p * x = v + p * y ↔ x = y ∧ u = v) := by
  rcases lt_trichotomy x y with hlt | rfl | hgt
  · have hle : p * (x + 1) ≤ p * y := Nat.mul_le_mul_left p hlt
    rw [Nat.mul_succ] at hle
    omega
  · omega
  · have hle : p * (y + 1) ≤ p * x := Nat.mul_le_mul_left p hgt
    rw [Nat.mul_succ] at hle
    omega

/-- The last digits of two numbers compare as the numbers they spell, and then what follows them
compares. -/
theorem digits_append_lt_iff {w a b : Nat} {s t : List Char} :
    ((List.range w).reverse.map fun i => hexDigit (a / 16 ^ i % 16)) ++ s <
        ((List.range w).reverse.map fun i => hexDigit (b / 16 ^ i % 16)) ++ t ↔
      a % 16 ^ w < b % 16 ^ w ∨ a % 16 ^ w = b % 16 ^ w ∧ s < t := by
  -- induction on the digits: the leading one decides, unless it is the same
  induction w with
  | zero => simp [Nat.mod_one]
  | succ w ih =>
    have ha : a / 16 ^ w % 16 < 16 := Nat.mod_lt _ (by decide)
    have hb : b / 16 ^ w % 16 < 16 := Nat.mod_lt _ (by decide)
    have ha' : a % 16 ^ w < 16 ^ w := Nat.mod_lt _ (by positivity)
    have hb' : b % 16 ^ w < 16 ^ w := Nat.mod_lt _ (by positivity)
    have heq : hexDigit (a / 16 ^ w % 16) = hexDigit (b / 16 ^ w % 16) ↔
        a / 16 ^ w % 16 = b / 16 ^ w % 16 := by
      -- digits are in the order of their values
      constructor
      · intro h
        have hab := (hexDigit_lt_iff _ ha _ hb).not.mp (by rw [h]; exact lt_irrefl _)
        have hba := (hexDigit_lt_iff _ hb _ ha).not.mp (by rw [h]; exact lt_irrefl _)
        omega
      · exact congrArg hexDigit
    simp only [List.range_succ, List.reverse_append, List.reverse_singleton, List.map_cons,
      List.cons_append, List.cons_lt_cons_iff, List.nil_append]
    have ⟨hlt, hsame⟩ := leading_lt_iff (x := a / 16 ^ w % 16) (y := b / 16 ^ w % 16) ha' hb'
    rw [ih, heq, hexDigit_lt_iff _ ha _ hb, Nat.mod_pow_succ, Nat.mod_pow_succ, hlt, hsame,
      and_or_left, or_assoc, and_assoc]

/-- A timed key comes before an instant's exactly when its instant does. -/
theorem timed_lt_timeKey_iff {ms b : Int64} {id : String} :
    Operation.timed ms.toInt id < Operation.timeKey b.toInt ↔ ms.toInt < b.toInt := by
  have hms := ms.toInt_lt
  have hms' := ms.le_toInt
  have hb := b.toInt_lt
  have hb' := b.le_toInt
  -- sixteen digits spell a shifted 64-bit number
  have h := digits_append_lt_iff (w := 16) (a := (ms.toInt + 2 ^ 63).toNat)
    (b := (b.toInt + 2 ^ 63).toNat) (s := ':' :: id.toList) (t := [])
  rw [List.append_nil, Nat.mod_eq_of_lt (by omega), Nat.mod_eq_of_lt (by omega)] at h
  have hnil : ¬ ':' :: id.toList < [] := List.not_lt_nil _
  unfold Operation.timed Operation.timeKey Engine.hex16
  simp only [String.lt_iff_toList_lt, String.toList_append, String.toList_ofList, List.append_assoc]
  refine h.trans ?_
  simp only [hnil, and_false, or_false]
  omega

/-- A timed row lies in a window exactly when its instant does. -/
theorem inWindow_timed {kind : String} {since before : Option Int64} {ms : Int64} {id : String} :
    InWindow kind since before (toLex (kind, Operation.timed ms.toInt id)) ↔
      (∀ a ∈ since, a.toInt ≤ ms.toInt) ∧ ∀ b ∈ before, ms.toInt < b.toInt := by
  unfold InWindow
  simp only [ofLex_toLex, true_and, timed_lt_timeKey_iff, ← not_lt]

/-! ### One page -/

/-- The keys of the rows from `start` to before `end_`, in order. -/
def keysFrom (m : Table Key V) (kind start : String) (end_ : Option String) : List Key :=
  (m.scan (inside kind start end_) none).map Prod.fst

/-- The listing of a query: the keys in its window. -/
def listing (kind : String) (since before : Option Int64) (m : Table Key V) : List Key :=
  keysFrom m kind (startOf since) (endOf before)

/-- The key a cursor names. -/
def Cursor.key (kind : String) (c : Cursor) : Key := toLex (kind, c.after)

theorem keysFrom_increasing (m : Table Key V) (kind start : String) (end_ : Option String) :
    (keysFrom m kind start end_).Pairwise (· < ·) :=
  List.pairwise_map.mpr (m.scan_sorted _)

theorem mem_keysFrom {m : Table Key V} {kind start : String} {end_ : Option String} {k : Key} :
    k ∈ keysFrom m kind start end_ ↔ m.contains k = true ∧ (ofLex k).1 = kind ∧ start ≤ (ofLex k).2 ∧
      ∀ e ∈ end_, (ofLex k).2 < e := by
  unfold keysFrom
  rw [List.mem_map, m.contains_iff]
  have hall : (end_.all fun e => decide ((ofLex k).2 < e)) = true ↔ ∀ e ∈ end_, (ofLex k).2 < e := by
    cases end_ <;> simp
  constructor
  · rintro ⟨⟨k, v⟩, hmem, rfl⟩
    obtain ⟨hget, hrange⟩ := (m.mem_scan _).mp hmem
    have ⟨hkind, hstart, hend⟩ := of_decide_eq_true hrange
    exact ⟨⟨v, hget⟩, hkind, hstart, hall.mp hend⟩
  · rintro ⟨⟨v, hget⟩, hkind, hstart, hend⟩
    exact ⟨(k, v), (m.mem_scan _).mpr ⟨hget, decide_eq_true ⟨hkind, hstart, hall.mpr hend⟩⟩, rfl⟩

theorem mem_listing {kind : String} {since before : Option Int64} {m : Table Key V} {k : Key} :
    k ∈ listing kind since before m ↔ m.contains k = true ∧ InWindow kind since before k := by
  have hstart : startOf since ≤ (ofLex k).2 ↔
      ∀ a ∈ since, Operation.timeKey a.toInt ≤ (ofLex k).2 := by
    cases since with
    | none =>
      have hempty : "" ≤ (ofLex k).2 :=
        not_lt.mp fun h => absurd (String.lt_iff_toList_lt.mp h) (List.not_lt_nil _)
      simp [startOf, hempty]
    | some a => simp [startOf]
  have hend : (∀ e ∈ endOf before, (ofLex k).2 < e) ↔
      ∀ b ∈ before, (ofLex k).2 < Operation.timeKey b.toInt := by
    cases before <;> simp [endOf]
  unfold listing InWindow
  rw [mem_keysFrom, hstart, hend]

theorem Cursor.key_lt_iff {kind : String} {c : Cursor} {k : Key} (hk : (ofLex k).1 = kind) :
    c.key kind < k ↔ c.after < (ofLex k).2 := by
  obtain ⟨⟨l, id⟩, rfl⟩ := toLex.surjective k
  obtain rfl : l = kind := hk
  simp [Cursor.key, Prod.Lex.toLex_lt_toLex]

/-- Dropping the cursor's row keeps the keys after the cursor. -/
theorem keys_after {kind : String} {cursor : Option Cursor} {rows : List (Key × V)}
    (hrows : ∀ row ∈ rows, (ofLex row.1).1 = kind) :
    (rows.filter fun row => cursor.all fun c => decide (c.after < (ofLex row.1).2)).map Prod.fst =
      after (cursor.map (Cursor.key kind)) (rows.map Prod.fst) := by
  unfold after
  rw [List.filter_map]
  congr 1
  apply List.filter_congr
  intro row hrow
  cases cursor with
  | none => rfl
  | some c => simp [Cursor.key_lt_iff (hrows row hrow)]

/-- A page is the next page of the listing as it is now. -/
theorem pageRows_alone {kind query : String} {since before : Option Int64} {cursor : Option Cursor}
    {limit : Nat} (hlimit : 1 ≤ limit ∧ limit ≤ maxPage)
    (hwindow : ∀ a ∈ since, ∀ b ∈ before, a ≤ b)
    (hcursor : ∀ c ∈ cursor, c.query = query ∧ startOf since ≤ c.after) (readOnly : Bool)
    (m : Table Key V) :
    ∃ page, (pageRows kind query since before cursor limit).alone readOnly m = .ok page ∧
      page.items.map Prod.fst =
        (after (cursor.map (Cursor.key kind)) (listing kind since before m)).take limit ∧
      (∀ row ∈ page.items, m.get row.1 = some row.2) ∧
      page.next = if page.items.length = limit then
          (page.items.map Prod.fst).getLast?.map fun k => { query, after := (ofLex k).2 }
        else none := by
  -- The checks of the request pass.
  have hwindow : ¬(since.any fun a => before.any fun b => decide (b < a)) = true := by
    cases since with
    | none => simp
    | some a =>
      cases before with
      | none => simp
      | some b => simpa using hwindow a rfl b rfl
  have hquery : ¬(cursor.any fun c => decide (c.query ≠ query)) = true := by
    cases cursor with
    | none => simp
    | some c => simpa using (hcursor c rfl).1
  set start := (cursor.map Cursor.after).getD (startOf since) with hstart
  -- The keys after the cursor are the same in the range from the window's start as in that from the cursor.
  have hafter : after (cursor.map (Cursor.key kind)) (listing kind since before m) =
      after (cursor.map (Cursor.key kind)) (keysFrom m kind start (endOf before)) := by
    cases cursor with
    | none => rfl
    | some c =>
      have hle := (hcursor c rfl).2
      refine eq_of_increasing (after_increasing (keysFrom_increasing ..))
        (after_increasing (keysFrom_increasing ..)) fun k => ?_
      simp only [mem_after, listing, mem_keysFrom, hstart, Option.map_some, Option.getD_some,
        Option.mem_some_iff, forall_eq']
      -- the cursor lies in the window, so what comes after it is in both ranges
      constructor
      · rintro ⟨⟨hin, hkind, _, hend⟩, hgt⟩
        exact ⟨⟨hin, hkind, ((Cursor.key_lt_iff hkind).mp hgt).le, hend⟩, hgt⟩
      · rintro ⟨⟨hin, hkind, hge, hend⟩, hgt⟩
        exact ⟨⟨hin, hkind, hle.trans hge, hend⟩, hgt⟩
  unfold pageRows
  rw [if_neg (not_not.mpr hlimit), if_neg hwindow, if_neg hquery, hafter]
  simp only [← hstart]
  split
  -- The window ends before the cursor.
  case isTrue hempty =>
    refine ⟨_, rfl, ?_, by simp, ?_⟩
    · have hnone : keysFrom m kind start (endOf before) = [] := by
        rw [List.eq_nil_iff_forall_not_mem]
        intro k hk
        obtain ⟨_, _, hge, hend⟩ := mem_keysFrom.mp hk
        obtain ⟨e, he⟩ : ∃ e, endOf before = some e := by
          cases hbefore : endOf before with
          | none => simp [hbefore] at hempty
          | some e => exact ⟨e, rfl⟩
        have hle : e ≤ start := by simpa [he] using hempty
        exact absurd (hge.trans_lt (hend e he)) (not_lt.mpr hle)
      simp [hnone, after]
    · rw [if_neg (by simpa using (Nat.one_le_iff_ne_zero.mp hlimit.1).symm)]
  case isFalse hopen =>
    -- The scan is one longer with a cursor, for the cursor's own row may still be there.
    set widened := limit + if cursor.isSome then 1 else 0 with hwidened
    have hkinds : ∀ row ∈ m.scan (inside kind start (endOf before)) (some widened),
        (ofLex row.1).1 = kind := by
      -- only keys of the kind are scanned
      intro row hrow
      exact (of_decide_eq_true (Table.of_mem_scan hrow).2).1
    refine ⟨_, rfl, ?_, ?_, ?_⟩
    · simp only [List.map_take]
      rw [keys_after hkinds, Table.scan_some, List.map_take]
      change (after _ ((keysFrom m kind start (endOf before)).take widened)).take limit = _
      cases cursor with
      | none => simp [hwidened, after]
      | some c =>
        refine take_after_widened (keysFrom_increasing ..) (fun k hk => ?_) limit
        obtain ⟨_, hkind, hge, _⟩ := mem_keysFrom.mp hk
        obtain ⟨⟨l, id⟩, rfl⟩ := toLex.surjective k
        obtain rfl : l = kind := hkind
        exact Prod.Lex.toLex_le_toLex.mpr (.inr ⟨rfl, hge⟩)
    -- What is listed is stored, and the next cursor is the last row listed.
    · intro row hrow
      exact (Table.of_mem_scan (List.mem_of_mem_filter (List.mem_of_mem_take hrow))).1
    · simp only [List.getLast?_map, Option.map_map]
      rfl

/-! ### Walks -/

/-- Reading page after page: each at the cursor of the page before, from the rows as they are then,
until a page has no cursor. -/
def Walk {α : Type} (read : Option Cursor → Table Key V → Except Error (Page α)) :
    Option Cursor → List (Table Key V × Page α) → Prop
  | _, [] => True
  | cursor, (m, page) :: later =>
    read cursor m = .ok page ∧ (later = [] ∨ ∃ next, page.next = some next ∧ Walk read (some next) later)

/-- The walk has read its last page. -/
def Finished {α : Type} (reads : List (Table Key V × Page α)) : Prop :=
  ∃ last, reads.getLast? = some last ∧ last.2.next = none

/-- The keys of the pages, one after the other. -/
def keysOf (reads : List (Table Key V × Page (Key × V))) : List Key :=
  reads.flatMap fun read => read.2.items.map Prod.fst

/-- A page of rows, read from the rows as they are. -/
abbrev readRows (kind query : String) (since before : Option Int64) (limit : Nat) (readOnly : Bool)
    (cursor : Option Cursor) (m : Table Key V) : Except Error (Page (Key × V)) :=
  (pageRows kind query since before cursor limit).alone readOnly m

section Pages

variable {kind query : String} {since before : Option Int64} {limit : Nat} {readOnly : Bool}
  (hlimit : 1 ≤ limit ∧ limit ≤ maxPage) (hwindow : ∀ a ∈ since, ∀ b ∈ before, a ≤ b)
include hlimit hwindow

/-- The cursor of a page names its last key, which lies in the window. -/
theorem next_names {cursor : Option Cursor} (hcursor : ∀ c ∈ cursor, c.query = query ∧ startOf since ≤ c.after)
    {m : Table Key V} {page : Page (Key × V)}
    (hread : readRows kind query since before limit readOnly cursor m = .ok page) {next : Cursor}
    (hnext : page.next = some next) :
    page.items.length = limit ∧ (page.items.map Prod.fst).getLast? = some (next.key kind) ∧
      next.query = query ∧ startOf since ≤ next.after := by
  obtain ⟨page', hok, hkeys, _, hlast⟩ := pageRows_alone hlimit hwindow hcursor readOnly m
  obtain rfl : page' = page := Except.ok.inj (hok.symm.trans hread)
  rw [hlast] at hnext
  -- a page that is full names its last row, which the listing has
  split at hnext
  · next hfull =>
    obtain ⟨k, hk, rfl⟩ := Option.map_eq_some_iff.mp hnext
    have hmem : k ∈ listing kind since before m := by
      have hin := List.mem_of_getLast? hk
      rw [hkeys] at hin
      exact (mem_after.mp (List.mem_of_mem_take hin)).1
    have ⟨_, hkind, hstart, _⟩ := mem_keysFrom.mp hmem
    refine ⟨hfull, ?_, rfl, hstart⟩
    rw [hk, ← hkind]
    rfl
  · exact absurd hnext (by simp)

/-- Following the cursors is a walk over the changing listing. -/
theorem Walk.pages {cursor : Option Cursor}
    (hcursor : ∀ c ∈ cursor, c.query = query ∧ startOf since ≤ c.after)
    {reads : List (Table Key V × Page (Key × V))}
    (h : Walk (readRows kind query since before limit readOnly) cursor reads) :
    reads.map (fun read => read.2.items.map Prod.fst) =
      (walk limit (cursor.map (Cursor.key kind))
        (reads.map fun read => listing kind since before read.1)) := by
  induction reads generalizing cursor with
  | nil => rfl
  | cons read later ih =>
    obtain ⟨m, page⟩ := read
    obtain ⟨hread, hlater⟩ := h
    obtain ⟨page', hok, hkeys, _, hlast⟩ := pageRows_alone hlimit hwindow hcursor readOnly m
    obtain rfl : page' = page := Except.ok.inj (hok.symm.trans hread)
    rw [List.map_cons, List.map_cons]
    unfold walk
    simp only [← hkeys, List.length_map]
    congr 1
    -- the walk stops here, or goes on from the last key of this page
    rcases hlater with rfl | ⟨next, hnext, hlater⟩
    · simp [walk]
    · obtain ⟨hfull, hkey, hnext⟩ := next_names hlimit hwindow hcursor hread hnext
      rw [if_pos hfull, hkey]
      exact ih (fun c hc => Option.mem_some_iff.mp hc ▸ hnext) hlater

/-- Every page that is read is stored then, and lies in the window. -/
theorem Walk.stored {cursor : Option Cursor}
    (hcursor : ∀ c ∈ cursor, c.query = query ∧ startOf since ≤ c.after)
    {reads : List (Table Key V × Page (Key × V))}
    (h : Walk (readRows kind query since before limit readOnly) cursor reads) :
    ∀ read ∈ reads, ∀ row ∈ read.2.items, read.1.get row.1 = some row.2 ∧
      InWindow kind since before row.1 := by
  induction reads generalizing cursor with
  | nil => simp
  | cons read later ih =>
    obtain ⟨m, page⟩ := read
    obtain ⟨hread, hlater⟩ := h
    refine List.forall_mem_cons.mpr ⟨fun row hrow => ?_, ?_⟩
    · obtain ⟨page', hok, hkeys, hstored, _⟩ := pageRows_alone hlimit hwindow hcursor readOnly m
      obtain rfl : page' = page := Except.ok.inj (hok.symm.trans hread)
      have hmem : row.1 ∈ listing kind since before m := by
        have hin : row.1 ∈ page'.items.map Prod.fst := List.mem_map_of_mem hrow
        rw [hkeys] at hin
        exact (mem_after.mp (List.mem_of_mem_take hin)).1
      exact ⟨hstored row hrow, (mem_listing.mp hmem).2⟩
    · rcases hlater with rfl | ⟨next, hnext, hlater⟩
      · simp
      · have ⟨_, _, hnext⟩ := next_names hlimit hwindow hcursor hread hnext
        exact ih (fun c hc => Option.mem_some_iff.mp hc ▸ hnext) hlater

/-- A walk that is not finished goes on, whatever the rows are by then. -/
theorem Walk.goes_on {cursor : Option Cursor}
    (hcursor : ∀ c ∈ cursor, c.query = query ∧ startOf since ≤ c.after)
    {reads : List (Table Key V × Page (Key × V))}
    (h : Walk (readRows kind query since before limit readOnly) cursor reads)
    (hopen : ¬Finished reads) (m : Table Key V) :
    ∃ page, Walk (readRows kind query since before limit readOnly) cursor (reads ++ [(m, page)]) := by
  induction reads generalizing cursor with
  | nil =>
    obtain ⟨page, hok, _⟩ := pageRows_alone hlimit hwindow hcursor readOnly m
    exact ⟨page, hok, .inl rfl⟩
  | cons read later ih =>
    obtain ⟨m', page⟩ := read
    obtain ⟨hread, hlater⟩ := h
    -- The walk goes on at the cursor of this page, whether or not it has gone on before.
    obtain ⟨next, hnext, hlater⟩ :
        ∃ next, page.next = some next ∧
          Walk (readRows kind query since before limit readOnly) (some next) later := by
      rcases hlater with rfl | hlater
      · cases hnext : page.next with
        | none => exact absurd ⟨(m', page), rfl, hnext⟩ hopen
        | some next => exact ⟨next, rfl, trivial⟩
      · exact hlater
    have ⟨_, _, hcursor'⟩ := next_names hlimit hwindow hcursor hread hnext
    have hopen' : ¬Finished later := by
      rintro ⟨last, hlast, hnone⟩
      refine hopen ⟨last, ?_, hnone⟩
      cases later with
      | nil => exact absurd hlast (by simp)
      | cons => rwa [List.getLast?_cons_cons]
    obtain ⟨page', hwalk⟩ := ih (fun c hc => Option.mem_some_iff.mp hc ▸ hcursor') hlater hopen'
    exact ⟨page', hread, .inr ⟨next, hnext, hwalk⟩⟩

/-- A finished walk's last page is short. -/
theorem Walk.short {cursor : Option Cursor}
    (hcursor : ∀ c ∈ cursor, c.query = query ∧ startOf since ≤ c.after)
    {reads : List (Table Key V × Page (Key × V))}
    (h : Walk (readRows kind query since before limit readOnly) cursor reads)
    {last : Table Key V × Page (Key × V)} (hlast : reads.getLast? = some last)
    (hnone : last.2.next = none) : last.2.items.length < limit := by
  induction reads generalizing cursor with
  | nil => exact absurd hlast (by simp)
  | cons read later ih =>
    obtain ⟨m, page⟩ := read
    obtain ⟨hread, hlater⟩ := h
    -- this page is the last one, and a full page would name a next cursor
    cases later with
    | nil =>
      obtain rfl : (m, page) = last := Option.some.inj hlast
      obtain ⟨page', hok, hkeys, _, hnext⟩ := pageRows_alone hlimit hwindow hcursor readOnly m
      obtain rfl : page' = page := Except.ok.inj (hok.symm.trans hread)
      have hle : page'.items.length ≤ limit := by
        have := congrArg List.length hkeys
        rw [List.length_map, List.length_take] at this
        omega
      refine lt_of_le_of_ne hle fun hfull => ?_
      obtain ⟨k, hk, _⟩ := getLast_of_full hlimit.1 ((List.length_map _).trans hfull)
      rw [if_pos hfull, hk] at hnext
      exact absurd (hnone.symm.trans hnext) (by simp)
    | cons read later =>
      obtain ⟨next, hnext, hlater⟩ := hlater.resolve_left (by simp)
      have ⟨_, _, hnext⟩ := next_names hlimit hwindow hcursor hread hnext
      exact ih (fun c hc => Option.mem_some_iff.mp hc ▸ hnext) hlater
        (by rwa [List.getLast?_cons_cons] at hlast)

end Pages

/-- A walk of a query: forward only and without repetitions, each page as its rows are stored then and
inside the window, and in the end all that stayed in the window throughout. -/
structure Exact (kind : String) (since before : Option Int64)
    (reads : List (Table Key V × Page (Key × V))) : Prop where
  increasing : (keysOf reads).Pairwise (· < ·)
  once : (keysOf reads).Nodup
  stored : ∀ read ∈ reads, ∀ row ∈ read.2.items, read.1.get row.1 = some row.2
  inside : ∀ k ∈ keysOf reads, InWindow kind since before k
  complete : Finished reads → ∀ k, InWindow kind since before k →
    (∀ read ∈ reads, read.1.contains k = true) → k ∈ keysOf reads

/-- Every walk from the first page is exact, while rows come and go between its pages. -/
theorem Walk.exact {kind query : String} {since before : Option Int64} {limit : Nat} {readOnly : Bool}
    (hlimit : 1 ≤ limit ∧ limit ≤ maxPage) (hwindow : ∀ a ∈ since, ∀ b ∈ before, a ≤ b)
    {reads : List (Table Key V × Page (Key × V))}
    (h : Walk (readRows kind query since before limit readOnly) none reads) :
    Exact kind since before reads := by
  -- The walk's pages are those of the abstract walk over the listings, one listing a page.
  have hnone : ∀ c ∈ (none : Option Cursor), c.query = query ∧ startOf since ≤ c.after := by simp
  have hpages := h.pages hlimit hwindow hnone
  have hstored := h.stored hlimit hwindow hnone
  have hkeys : keysOf reads = (walk limit none (reads.map fun read =>
      listing kind since before read.1)).flatten := by
    unfold keysOf
    rw [List.flatMap_def, hpages]
    rfl
  have hsorted : ∀ l ∈ reads.map fun read => listing kind since before read.1,
      l.Pairwise (· < ·) := by
    intro l hl
    obtain ⟨read, _, rfl⟩ := List.mem_map.mp hl
    exact keysFrom_increasing ..
  have hincreasing : (keysOf reads).Pairwise (· < ·) := hkeys ▸ walk_increasing hlimit.1 hsorted
  refine ⟨hincreasing, hincreasing.imp fun hlt => hlt.ne, fun read hread row hrow =>
    (hstored read hread row hrow).1, ?_, ?_⟩
  -- No row from outside the window.
  · intro k hk
    obtain ⟨read, hread, hmem⟩ := List.mem_flatMap.mp hk
    obtain ⟨row, hrow, rfl⟩ := List.mem_map.mp hmem
    exact (hstored read hread row hrow).2
  -- A row that stays through the walk is listed when the last page is short.
  · rintro ⟨last, hlast, hnext⟩ k hk hstays
    have hshort := h.short hlimit hwindow hnone hlast hnext
    have hlast' : (walk limit none (reads.map fun read => listing kind since before read.1)).getLast? =
        some (last.2.items.map Prod.fst) := by
      change (walk limit ((none : Option Cursor).map (Cursor.key kind)) _).getLast? = _
      rw [← hpages, List.getLast?_map, hlast]
      rfl
    rw [hkeys]
    refine walk_complete hlimit.1 hsorted hlast' (by simpa using hshort) ?_ (by simp)
    intro l hl
    obtain ⟨read, hread, rfl⟩ := List.mem_map.mp (List.mem_of_mem_take hl)
    exact mem_listing.mpr ⟨hstays read hread, hk⟩

/-! ### Walks over runs -/

namespace Program

variable {E R S : Type}

/-- The operation leaves the rows as they are. -/
def ReadsOnly : Program V E R → Prop
  | ret _ | fail _ => True
  | call a next =>
    (∀ readOnly m, (plain readOnly m a).2 = m) ∧ ∀ answer, (next answer).ReadsOnly

theorem ReadsOnly.bind_alone {op : Program V E R} (h : op.ReadsOnly) (f : R → Program V E S)
    (readOnly : Bool) (m : Table Key V) :
    (op.bind f).alone readOnly m = (op.alone readOnly m).bind fun r => (f r).alone readOnly m := by
  induction op with
  | ret r => rfl
  | fail e => rfl
  | call a next ih =>
    change ((next _).bind f).alone readOnly (plain readOnly m a).2 =
      ((next _).alone readOnly (plain readOnly m a).2).bind _
    rw [h.1 readOnly m]
    exact ih _ (h.2 _)

theorem ReadsOnly.bind {op : Program V E R} (h : op.ReadsOnly) {f : R → Program V E S}
    (hf : ∀ r, (f r).ReadsOnly) : (op.bind f).ReadsOnly := by
  induction op with
  | ret r => exact hf r
  | fail e => trivial
  | call a next ih => exact ⟨h.1, fun answer => ih answer (h.2 answer)⟩

/-- One operation after another, both of which return. -/
theorem ReadsOnly.bind_ok {op : Program V E R} (h : op.ReadsOnly) {f : R → Program V E S}
    {readOnly : Bool} {m : Table Key V} {s : S} (hok : (op.bind f).alone readOnly m = .ok s) :
    ∃ r, op.alone readOnly m = .ok r ∧ (f r).alone readOnly m = .ok s := by
  rw [h.bind_alone] at hok
  cases hop : op.alone readOnly m with
  | error e =>
    rw [hop] at hok
    exact absurd hok (by simp [Except.bind])
  | ok r =>
    rw [hop] at hok
    exact ⟨r, rfl, hok⟩

end Program

theorem pageRows_reads (kind query : String) (since before : Option Int64) (cursor : Option Cursor)
    (limit : Nat) : (pageRows (V := V) kind query since before cursor limit).ReadsOnly := by
  unfold pageRows
  split
  · trivial
  · split
    · trivial
    · split
      · trivial
      · simp only
        split
        · trivial
        · refine ⟨fun _ _ => rfl, fun answer => ?_⟩
          cases answer <;> trivial

section Runs

variable {asStr : V → Option String} {asStored : V → Option StoredRun}

theorem run_reads (id : String) : (run asStored id).ReadsOnly := by
  refine ⟨fun _ _ => rfl, fun answer => ?_⟩
  cases answer with
  | value value =>
    cases value with
    | none => trivial
    | some value =>
      change ((asStored value).elim _ _ : Program V Error StoredRun).ReadsOnly
      cases asStored value <;> trivial
  | _ => trivial

theorem run_ok {id : String} {readOnly : Bool} {m : Table Key V} {s : StoredRun}
    (h : (run asStored id).alone readOnly m = .ok s) :
    (m.get (toLex ("run", id))).bind asStored = some s := by
  change Program.alone readOnly _ m = .ok s at h
  simp only [run, Program.alone, plain] at h
  cases hget : m.get (toLex ("run", id)) with
  | none => simp [hget, Program.alone] at h
  | some value =>
    cases hstored : asStored value with
    | none => simp [hget, hstored, Program.alone] at h
    | some s' => simpa [hget, hstored, Program.alone] using h

theorem matching_reads (filter : Runs) (rows : List (Key × V)) :
    (matching asStr asStored filter rows).ReadsOnly := by
  induction rows with
  | nil => trivial
  | cons row rows ih =>
    unfold matching
    split
    · trivial
    · exact (run_reads _).bind fun s => ih.bind fun items => trivial

/-- The run a row of a listing leads to, as a query shows it; nothing when the query is not about it. -/
def shown (asStr : V → Option String) (asStored : V → Option StoredRun) (filter : Runs)
    (m : Table Key V) (row : Key × V) : Option SavedRun :=
  ((asStr row.2).bind fun id => (m.get (toLex ("run", id))).bind asStored).bind fun s =>
    if filter.matches s.run then some (redacted s.run) else none

/-- The runs shown are those the rows lead to, in order. -/
theorem matching_ok {filter : Runs} {rows : List (Key × V)} {readOnly : Bool} {m : Table Key V}
    {items : List SavedRun} (h : (matching asStr asStored filter rows).alone readOnly m = .ok items) :
    items = rows.filterMap (shown asStr asStored filter m) := by
  induction rows generalizing items with
  | nil => exact (Except.ok.inj h).symm
  | cons row rows ih =>
    unfold matching at h
    cases hid : asStr row.2 with
    | none => simp [hid, Program.alone] at h
    | some id =>
      simp only [hid] at h
      obtain ⟨s, hs, h⟩ := (run_reads id).bind_ok h
      obtain ⟨rest, hrest, h⟩ := (matching_reads filter rows).bind_ok h
      obtain rfl : _ = items := Except.ok.inj h
      have hshown : shown asStr asStored filter m row =
          if filter.matches s.run then some (redacted s.run) else none := by
        unfold shown
        rw [hid, Option.bind_some, run_ok hs, Option.bind_some]
      rw [List.filterMap_cons, hshown, ih hrest]
      split <;> rfl

/-- A page of a query of runs shows the runs of a page of rows, and goes on where that does. -/
theorem queryRuns_ok {text : Runs → Bool → String} {filter : Runs} {history : Bool}
    {cursor : Option Cursor} {limit : Nat} {readOnly : Bool} {m : Table Key V} {page : Page SavedRun}
    (h : (queryRuns asStr asStored text filter history cursor limit).alone readOnly m = .ok page) :
    ∃ found, readRows (runKind filter history) (text filter history) filter.sinceMs filter.beforeMs limit
        readOnly cursor m = .ok found ∧ page.next = found.next ∧
      page.items = found.items.filterMap (shown asStr asStored filter m) := by
  obtain ⟨found, hfound, h⟩ := (pageRows_reads _ _ _ _ _ _).bind_ok h
  obtain ⟨items, hitems, h⟩ := (matching_reads _ _).bind_ok h
  obtain rfl : _ = page := Except.ok.inj h
  exact ⟨found, hfound, rfl, matching_ok hitems⟩

/-- A walk of a query of runs is a walk of its rows. -/
theorem Walk.rows {text : Runs → Bool → String} {filter : Runs} {history : Bool}
    {cursor : Option Cursor} {limit : Nat} {readOnly : Bool}
    {reads : List (Table Key V × Page SavedRun)}
    (h : Walk (fun cursor m => (queryRuns asStr asStored text filter history cursor limit).alone readOnly m)
      cursor reads) :
    ∃ pages, Walk (readRows (runKind filter history) (text filter history) filter.sinceMs
        filter.beforeMs limit readOnly) cursor pages ∧
      List.Forall₂ (fun (read : Table Key V × Page SavedRun) (page : Table Key V × Page (Key × V)) =>
        page.1 = read.1 ∧ read.2.next = page.2.next ∧
          read.2.items = page.2.items.filterMap (shown asStr asStored filter read.1)) reads pages := by
  induction reads generalizing cursor with
  | nil => exact ⟨[], trivial, .nil⟩
  | cons read later ih =>
    obtain ⟨m, page⟩ := read
    obtain ⟨hread, hlater⟩ := h
    obtain ⟨found, hfound, hnext, hitems⟩ := queryRuns_ok hread
    rcases hlater with rfl | ⟨next, hgoes, hlater⟩
    · exact ⟨[(m, found)], ⟨hfound, .inl rfl⟩, .cons ⟨rfl, hnext, hitems⟩ .nil⟩
    · obtain ⟨pages, hwalk, hpages⟩ := ih hlater
      exact ⟨(m, found) :: pages, ⟨hfound, .inr ⟨next, hnext ▸ hgoes, hwalk⟩⟩,
        .cons ⟨rfl, hnext, hitems⟩ hpages⟩

end Runs

/-! ### Pagination -/

/-- Pagination loses and repeats nothing. A walk of a listing, in a window of time and with pages of a
length that is allowed, is exact while any rows come and go between its pages, and it is refused no
page. What lies in the window of a timed listing is what its instant puts there. And a walk of a query
of runs shows the runs of such a walk. -/
theorem pagination_exact :
    (∀ (kind query : String) (since before : Option Int64) (limit : Nat) (readOnly : Bool)
      (reads : List (Table Key V × Page (Key × V))),
      1 ≤ limit ∧ limit ≤ maxPage → (∀ a ∈ since, ∀ b ∈ before, a ≤ b) →
      Walk (readRows kind query since before limit readOnly) none reads →
      Exact kind since before reads ∧
        (¬Finished reads → ∀ m, ∃ page,
          Walk (readRows kind query since before limit readOnly) none (reads ++ [(m, page)]))) ∧
    (∀ (kind id : String) (since before : Option Int64) (ms : Int64),
      InWindow kind since before (toLex (kind, Operation.timed ms.toInt id)) ↔
        (∀ a ∈ since, a ≤ ms) ∧ ∀ b ∈ before, ms < b) ∧
    ∀ (asStr : V → Option String) (asStored : V → Option StoredRun) (text : Runs → Bool → String)
      (filter : Runs) (history : Bool) (limit : Nat) (readOnly : Bool)
      (reads : List (Table Key V × Page SavedRun)),
      1 ≤ limit ∧ limit ≤ maxPage → (∀ a ∈ filter.sinceMs, ∀ b ∈ filter.beforeMs, a ≤ b) →
      Walk (fun cursor m =>
        (queryRuns asStr asStored text filter history cursor limit).alone readOnly m) none reads →
      ∃ pages, Exact (runKind filter history) filter.sinceMs filter.beforeMs pages ∧
        List.Forall₂ (fun (read : Table Key V × Page SavedRun) (page : Table Key V × Page (Key × V)) =>
          page.1 = read.1 ∧ read.2.next = page.2.next ∧
            read.2.items = page.2.items.filterMap (shown asStr asStored filter read.1)) reads pages := by
  refine ⟨?_, ?_, ?_⟩
  · intro kind query since before limit readOnly reads hlimit hwindow h
    exact ⟨h.exact hlimit hwindow, fun hopen m => h.goes_on hlimit hwindow (by simp) hopen m⟩
  · intro kind id since before ms
    rw [inWindow_timed]
    simp only [Int64.le_iff_toInt_le, Int64.lt_iff_toInt_lt]
  · intro asStr asStored text filter history limit readOnly reads hlimit hwindow h
    obtain ⟨pages, hwalk, hpages⟩ := h.rows
    exact ⟨pages, hwalk.exact hlimit hwindow, hpages⟩

/-- Two rows, of which the one on the first page is gone when the next page is read. -/
def removedOnTheWay : List (Table Key Nat × Page (Key × Nat)) :=
  let second : Table Key Nat := Table.empty.put (toLex ("worker", "b")) 2
  [(second.put (toLex ("worker", "a")) 1,
      { items := [(toLex ("worker", "a"), 1)], next := some { query := "workers", after := "a" } }),
    (second,
      { items := [(toLex ("worker", "b"), 2)], next := some { query := "workers", after := "b" } }),
    (second, { items := [], next := none })]

/-- A run admitted at an instant. -/
def admittedAt (now : Int) : StoredRun :=
  Engine.fresh ⟨"a", "w", 1, "", .null, .null⟩ "" none now

/-- A run and its row in the listing of all runs. -/
def oneRun : Table Key (String ⊕ StoredRun) :=
  (Table.empty.put (toLex ("control_run", Operation.timed 5 "a")) (.inl "a")).put
    (toLex ("run", "a")) (.inr (admittedAt 5))

/-- The runs of a window. -/
def early : Runs :=
  { definition := none, state := none, parent := none, sinceMs := some 0, beforeMs := some 6 }

/-- The page of the run. -/
def oneRunRead : List (Table Key (String ⊕ StoredRun) × Page SavedRun) :=
  [(oneRun, { items := [(admittedAt 5).run], next := none })]

/-- The row at the cursor is removed before the next page is read; and a page of runs. -/
theorem removed_row_paged :
    Exact "worker" none none removedOnTheWay ∧
      ∃ pages : List (Table Key (String ⊕ StoredRun) × _),
        Exact "control_run" (some 0) (some 6) pages ∧ pages.length = 1 := by
  constructor
  · exact (pagination_exact.1 "worker" "workers" none none 1 true removedOnTheWay (by decide) (by simp)
      ⟨rfl, .inr ⟨_, rfl, rfl, .inr ⟨_, rfl, rfl, .inl rfl⟩⟩⟩).1
  · have hread : (queryRuns Sum.getLeft? Sum.getRight? (fun _ _ => "runs") early false none 2).alone true
        oneRun = .ok { items := [(admittedAt 5).run], next := none } := by
      decide +kernel
    have hwindow : ∀ a ∈ early.sinceMs, ∀ b ∈ early.beforeMs, a ≤ b := by
      intro a ha b hb
      rw [← Option.some.inj ha, ← Option.some.inj hb]
      decide
    obtain ⟨pages, hexact, hpages⟩ := pagination_exact.2.2 Sum.getLeft? Sum.getRight?
      (fun _ _ => "runs") early false 2 true oneRunRead (by decide) hwindow (And.intro hread (.inl rfl))
    exact ⟨pages, hexact, hpages.length_eq.symm.trans rfl⟩

end Backend

end Ouro
