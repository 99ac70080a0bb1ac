import Mathlib.Data.String.Basic
import Ouro.Lib.Overlay

/-!
# The memory backend

Optimistic transactions over one ordered map of versioned rows. A transaction reads the committed rows
one call at a time, keeps its own writes aside, and records what it read: the version of each row it
looked up, absence included, and the versions of each range it scanned. A commit takes effect if every
record still agrees with the rows, and is a conflict otherwise.

Each call holds the lock over the rows, so the calls of several transactions interleave as whole steps.
`Store.step` is one call, `Trace.step` keeps what the calls of each transaction returned.
-/

namespace Ouro

open Lib

namespace Backend

/-- A row's kind and its id within the kind, in binary order. -/
abbrev Key := String ×ₗ String

/-- The version a row is written with, drawn at random. -/
abbrev Uuid := BitVec 128

/-- The committed rows with their versions. -/
abbrev Versioned (V : Type) := Table Key (Uuid × V)

variable {V : Type}

/-! ### Ranges -/

/-- The rows of a kind from `start` to before `end_`; without an end to the end of the kind, which is
the kind's successor in the order of strings. -/
def within (kind start : String) (end_ : Option String) (k : Key) : Bool :=
  decide (toLex (kind, start) ≤ k) &&
    decide (k < toLex (end_.elim (kind ++ "\x00", "") fun e => (kind, e)))

/-- The first rows of a range. -/
def range (rows : Versioned V) (kind start : String) (end_ : Option String) (limit : Nat) :
    List (Key × Uuid × V) :=
  rows.scan (within kind start end_) (some limit)

/-- The versions of the first rows of a range. -/
def versions (rows : Versioned V) (kind start : String) (end_ : Option String) (limit : Nat) :
    List (Key × Uuid) :=
  (range rows kind start end_ limit).map fun row => (row.1, row.2.1)

/-! ### Transactions -/

/-- A range as it was observed. -/
structure RangeRead where
  kind : String
  start : String
  end_ : Option String
  limit : Nat
  versions : List (Key × Uuid)

/-- An open transaction: the rows it looked up, the ranges it scanned and its writes (`none` deletes).
`readOnly` is that of the backend's handle it was begun on. -/
structure Transaction (V : Type) where
  readOnly : Bool
  reads : Table Key (Option (Uuid × V))
  scans : List RangeRead
  writes : Table Key (Option V)

/-- One call of a transaction. -/
inductive Access (V : Type) where
  | get (kind id : String)
  | scan (kind start : String) (end_ : Option String) (limit : Nat)
  | put (kind id : String) (value : V)
  | delete (kind id : String)

/-- What a call returns. -/
inductive Answer (V : Type) where
  | value (value : Option V)
  | rows (rows : List (Key × V))
  | done
  | readOnly

namespace Transaction

/-- A new transaction. -/
def begin_ (readOnly : Bool) : Transaction V :=
  { readOnly, reads := .empty, scans := [], writes := .empty }

/-- A row as the transaction sees it: its own write, else what it read first. -/
def get (rows : Versioned V) (tx : Transaction V) (key : Key) : Option V × Transaction V :=
  match tx.writes.get key with
  | some value => (value, tx)
  | none =>
    match tx.reads.get key with
    | some seen => (seen.map Prod.snd, tx)
    | none =>
      let seen := rows.get key
      (seen.map Prod.snd, { tx with reads := tx.reads.put key seen })

/-- The first rows of a range under the transaction's own writes. The range is read past the limit by
the number of writes, since each may delete one of the rows read. -/
def scan (rows : Versioned V) (tx : Transaction V) (kind start : String) (end_ : Option String)
    (limit : Nat) : List (Key × V) × Transaction V :=
  if limit = 0 ∨ (end_.any fun e => decide (e ≤ start)) = true then ([], tx)
  else
    let readLimit := limit + tx.writes.rows.length
    let observed := range rows kind start end_ readLimit
    let tx' := { tx with
      scans := tx.scans ++ [⟨kind, start, end_, readLimit, versions rows kind start end_ readLimit⟩] }
    let found := Table.ofList (observed.map fun row => (row.1, row.2.2))
    let found := tx.writes.rows.foldl (fun (found : Table Key V) row =>
      let (k, id) := ofLex row.1
      if k = kind ∧ start ≤ id ∧ (end_.all fun e => decide (id < e)) = true then
        found.written row.1 row.2
      else found) found
    (found.scan Table.all (some limit), tx')

/-- Writes a row, or deletes it. The row is read first, so that a write is validated too. -/
def write (rows : Versioned V) (tx : Transaction V) (key : Key) (value : Option V) :
    Answer V × Transaction V :=
  if tx.readOnly then (.readOnly, tx)
  else
    let (_, tx) := tx.get rows key
    (.done, { tx with writes := tx.writes.put key value })

/-- One call. -/
def access (rows : Versioned V) (tx : Transaction V) : Access V → Answer V × Transaction V
  | .get kind id =>
    let (value, tx) := tx.get rows (toLex (kind, id))
    (.value value, tx)
  | .scan kind start end_ limit =>
    let (found, tx) := tx.scan rows kind start end_ limit
    (.rows found, tx)
  | .put kind id value => tx.write rows (toLex (kind, id)) (some value)
  | .delete kind id => tx.write rows (toLex (kind, id)) none

/-- The versions that the scanned ranges returned. -/
def ranged (tx : Transaction V) : List (Key × Uuid) := tx.scans.flatMap (·.versions)

/-- Whether a row that was looked up is as it was. One whose version a range returned is validated with
the range. -/
def readValid (rows : Versioned V) (tx : Transaction V) (key : Key) (before : Option (Uuid × V)) :
    Bool :=
  (before.any fun seen => tx.ranged.contains (key, seen.1)) ||
    decide ((rows.get key).map Prod.fst = before.map Prod.fst)

/-- Whether a range is as it was scanned. -/
def scanValid (rows : Versioned V) (scan : RangeRead) : Bool :=
  decide (versions rows scan.kind scan.start scan.end_ scan.limit = scan.versions)

/-- Whether everything the transaction read is as it was. -/
def valid (rows : Versioned V) (tx : Transaction V) : Bool :=
  (tx.reads.rows.all fun row => tx.readValid rows row.1 row.2) && tx.scans.all (scanValid rows)

/-- The rows with the writes applied, each put with the version drawn for it. -/
def applied (rows : Versioned V) (tx : Transaction V) (drawn : Key → Uuid) : Versioned V :=
  tx.writes.rows.foldl (fun (rows : Versioned V) row =>
    rows.written row.1 (row.2.map fun value => (drawn row.1, value))) rows

/-- Commits: the new rows, or nothing on a conflict. -/
def commit (rows : Versioned V) (tx : Transaction V) (drawn : Key → Uuid) : Option (Versioned V) :=
  if tx.valid rows then some (tx.applied rows drawn) else none

end Transaction

/-! ### Interleavings -/

/-- The backend with its open transactions, by handle. -/
structure Store (V : Type) where
  rows : Versioned V
  open_ : Nat → Option (Transaction V)

/-- The backend without rows. -/
def Store.empty : Store V := { rows := .empty, open_ := fun _ => none }

/-- One step of an interleaving. -/
inductive Step (V : Type) where
  | begin_ (i : Nat) (readOnly : Bool)
  | access (i : Nat) (a : Access V)
  | commit (i : Nat) (drawn : Key → Uuid)
  | drop_ (i : Nat)

/-- What a step returns. -/
inductive Outcome (V : Type) where
  | answer (a : Answer V)
  | committed
  | conflict
  | ended

/-- Takes one step. A step of a handle that is not open does nothing. -/
def Store.step (store : Store V) : Step V → Outcome V × Store V
  | .begin_ i readOnly =>
    (.ended, { store with open_ := Function.update store.open_ i (some (.begin_ readOnly)) })
  | .access i a =>
    match store.open_ i with
    | none => (.ended, store)
    | some tx =>
      let (answer, tx) := tx.access store.rows a
      (.answer answer, { store with open_ := Function.update store.open_ i (some tx) })
  | .commit i drawn =>
    match store.open_ i with
    | none => (.ended, store)
    | some tx =>
      let open_ := Function.update store.open_ i none
      match tx.commit store.rows drawn with
      | some rows => (.committed, { rows, open_ })
      | none => (.conflict, { store with open_ })
  | .drop_ i => (.ended, { store with open_ := Function.update store.open_ i none })

/-- The calls of a transaction with what they returned. -/
structure Log (V : Type) where
  readOnly : Bool
  calls : List (Access V × Answer V)

/-- An interleaving so far: the backend, the log of each handle's transaction and the logs of those
that committed, in the order of their commits. -/
structure Trace (V : Type) where
  store : Store V
  logs : Nat → Log V
  committed : List (Log V)

/-- The interleaving without steps. -/
def Trace.empty : Trace V :=
  { store := .empty, logs := fun _ => { readOnly := false, calls := [] }, committed := [] }

/-- Takes one step and keeps what it returned. -/
def Trace.step (trace : Trace V) (step : Step V) : Trace V :=
  let (outcome, store) := trace.store.step step
  match step, outcome with
  | .begin_ i readOnly, _ =>
    { trace with store, logs := Function.update trace.logs i { readOnly, calls := [] } }
  | .access i a, .answer answer =>
    let log := trace.logs i
    { trace with store, logs := Function.update trace.logs i { log with calls := log.calls ++ [(a, answer)] } }
  | .commit i _, .committed =>
    { trace with store, committed := trace.committed ++ [trace.logs i] }
  | _, _ => { trace with store }

/-- The interleaving of the steps, from the empty backend. -/
def interleave (steps : List (Step V)) : Trace V := steps.foldl Trace.step .empty

end Backend

end Ouro
