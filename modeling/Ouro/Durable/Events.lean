import Ouro.Durable.Admission

/-!
# Events

Delivery, the mailbox, publication and expiry. A run keeps one row for each copy it accepted; a
pending copy has index rows of its own (`pendingRows`), which `push` writes and `consume` deletes
together with the counters in the run's row. The caller of both stores the run.
-/

namespace Ouro

open Lib

namespace Engine

variable (env : Env)

/-! ### What a copy is -/

def expired (e : StoredEvent) (now : Int) : Bool := e.expiresAtMs.any fun at_ => decide (at_ ≤ now)

/-- Taken as a wildcard subscription's event: published, not delivered. -/
def published (e : StoredEvent) : Bool := e.envelope.isSome && !e.delivered

def subscribed (s : StoredRun) (e : StoredEvent) : Bool :=
  e.envelope.isSome &&
    s.subscriptions.values.any fun types =>
      types.contains e.type_ || (published e && types.contains "*")

/-- Whether a pending copy of a type wakes the run. A CloudEvent wakes a run that awaits its type; a
lifecycle notice only one in which a current listen or an addressed wait names the exact type. -/
def wakes (s : StoredRun) (type_ : String) (cloud : Bool) : Bool :=
  if cloud then s.awaits.contains type_
  else
    decide (type_ ∈ s.addressedWaits) ||
      s.listeners.rows.any fun (k, types) => !startsWith k "child:" && types.contains type_

/-- A pending, unexpired copy the run is waiting or subscribed for. -/
def wanted (s : StoredRun) (e : StoredEvent) (now : Int) : Bool :=
  e.consumedKey.isNone && !expired e now &&
    (wakes s e.type_ e.envelope.isSome || subscribed s e)

/-- An event's identity, `source` and `id`, when it has both. -/
def identity (event : Json) : Option String := do
  let text (k : String) := (event.text k).filter (· ≠ "")
  let source ← text "source"
  let id ← text "id"
  pure (source ++ "\x00" ++ id)

/-- What must agree when an identity is accepted again: the event without its `time`. -/
def payload (event : Json) : Json := event.remove "time"

/-- The identity of a copy, when it is a CloudEvent with one. -/
def identityOf (e : StoredEvent) : Option String := e.envelope.bind identity

/-- The event as taken: the accepted CloudEvent with its delivery `time`, or a lifecycle
notification's `type`, `data` and `time`. -/
def envelope (e : StoredEvent) : Txn Json := do
  let time ← Tx.orFail (env.rfc3339 e.deliveredAtMs) (.message "invalid event timestamp")
  match e.envelope with
  | some event => pure (event.entry "time" (.str time))
  | none => pure (.obj [("data", e.data), ("time", .str time), ("type", .str e.type_)])

/-- The copy an index row leads to. -/
def copy (run : String) (n : Nat) : Txn StoredEvent := do
  let found ← Tx.read fun rows => (rows.event run).get n
  Tx.orFail found (.message s!"dangling event index {run}/{n}")

/-! ### The rows of a pending copy -/

/-- A copy's place by expiry; one that never expires sorts after every instant. -/
def liveKey (e : StoredEvent) (n : Nat) : Expiry := toLex (e.expiresAtMs.elim ⊤ (↑·), n)

/-- Writes the index rows of a pending copy. -/
def putPendingRows (c : Core) (run : String) (n : Nat) (e : StoredEvent) : Core :=
  { c with
    pending := Table.putAt c.pending (run, e.type_) n n
    live := Table.putAt c.live (run, e.type_) (liveKey e n) e.envelope.isSome
    published := if published e then Table.putAt c.published run n n else c.published
    livePublished :=
      if published e then Table.putAt c.livePublished run (liveKey e n) n else c.livePublished
    expiry := e.expiresAtMs.elim c.expiry fun at_ =>
      Table.putAt c.expiry run (toLex (at_, n)) (at_, n) }

/-- Deletes the index rows of a pending copy. -/
def deletePendingRows (c : Core) (run : String) (n : Nat) (e : StoredEvent) : Core :=
  { c with
    pending := Table.deleteAt c.pending (run, e.type_) n
    live := Table.deleteAt c.live (run, e.type_) (liveKey e n)
    published := if published e then Table.deleteAt c.published run n else c.published
    livePublished :=
      if published e then Table.deleteAt c.livePublished run (liveKey e n) else c.livePublished
    expiry := e.expiresAtMs.elim c.expiry fun at_ => Table.deleteAt c.expiry run (toLex (at_, n)) }

/-- Writes a copy with the rows of its identity and type. -/
def putCopy (c : Core) (run : String) (n : Nat) (e : StoredEvent) : Core :=
  { c with
    event := Table.putAt c.event run n e
    eventId := (identityOf e).elim c.eventId fun i => Table.putAt c.eventId run i n
    -- a delivered identity leads a redelivery back to its recipient
    delivered := (identityOf e).elim c.delivered fun i =>
      if e.delivered then Table.putAt c.delivered i run run else c.delivered
    eventType :=
      if ((c.eventType run).get e.type_).isNone then Table.putAt c.eventType run e.type_ n
      else c.eventType }

/-- The run's counters with one more pending copy. -/
def counted (s : StoredRun) (e : StoredEvent) : StoredRun :=
  let p := (s.pending.get e.type_).getD { copies := 0, cloud := 0 }
  { s with
    accepted := s.accepted + 1
    pending := s.pending.put e.type_
      { copies := p.copies + 1, cloud := p.cloud + e.envelope.isSome.toNat }
    published := s.published + (published e).toNat
    mailbox := e.expiresAtMs.elim s.mailbox fun at_ => some (s.mailbox.elim at_ (min · at_))
    evidence := true }

/-- The run's counters with one pending copy less. -/
def uncounted (s : StoredRun) (e : StoredEvent) : StoredRun :=
  { s with
    pending := (s.pending.get e.type_).elim s.pending fun p =>
      if p.copies - 1 = 0 then s.pending.delete e.type_
      else s.pending.put e.type_
        { copies := p.copies - 1, cloud := p.cloud - e.envelope.isSome.toNat }
    published := s.published - (published e).toNat }

/-- Stores a new copy with its rows and counters; the caller stores the run. -/
def push (s : StoredRun) (e : StoredEvent) : Txn StoredRun := do
  Tx.ensure (decide (s.accepted < u64Max)) (.message "event sequence overflow")
  Tx.write fun rows =>
    { rows with
      toCore := putPendingRows (putCopy rows.toCore s.id s.accepted e) s.id s.accepted e }
  pure (counted s e)

/-- A copy consumed under `k`. -/
def asConsumed (e : StoredEvent) (k : String) : StoredEvent := { e with consumedKey := some k }

/-- Marks a copy consumed under `k` and drops its pending rows. -/
def consumeRows (c : Core) (run : String) (n : Nat) (e : StoredEvent) (k : String) : Core :=
  { deletePendingRows c run n e with event := Table.putAt c.event run n (asConsumed e k) }

/-- Consumes a pending copy under `k` with its rows and counters; the caller refreshes the mailbox
when it consumed a mailbox copy. -/
def consume (s : StoredRun) (n : Nat) (e : StoredEvent) (k : String) : Txn StoredRun := do
  Tx.write fun rows => { rows with toCore := consumeRows rows.toCore s.id n e k }
  pure (uncounted s e)

/-- The earliest expiry left among the pending mailbox copies. -/
def earliest (c : Core) (run : String) : Option Int :=
  ((c.expiry run).scan Table.all (some 1)).head?.map fun row => row.2.1

def refreshMailbox (s : StoredRun) : Txn StoredRun := do
  let mailbox ← Tx.read fun rows => earliest rows.toCore s.id
  pure { s with mailbox }

/-! ### Expiry -/

/-- The record key of a copy's expiry. -/
def expiredKey (n : Nat) : String := s!"mailbox#expired[{n}]"

/-- Consumes one copy whose mailbox time is over with an observable record. -/
def expireOne (s : StoredRun) (n : Nat) : Txn StoredRun := do
  let event ← copy s.id n
  let taken ← envelope env event
  Tx.write fun rows =>
    { rows with record := Table.putAt rows.record s.id (expiredKey n) (.expired taken) }
  consume s n event (expiredKey n)

/-- Consumes every pending copy whose mailbox time is over. -/
def expire (s : StoredRun) (now : Int) : Txn (StoredRun × Nat) := do
  if s.mailbox.all fun at_ => decide (now < at_) then pure (s, 0)
  else
    let due ← Tx.read fun rows =>
      (rows.expiry s.id).scan (fun k => decide ((ofLex k).1 ≤ now)) none
    let s ← Tx.fold (fun s row => expireOne env s row.2.2) s due
    let s ← refreshMailbox s
    pure (s, due.length)

/-! ### Wake-ups -/

/-- The places by expiry that lie after `now`, those that never expire included. -/
def expiresAfter (now : Int) (k : Expiry) : Bool :=
  Option.all (fun at_ : Int => decide (now < at_)) (ofLex k).1

/-- Whether a CloudEvent of the type that expires after `now` is among the first two copies that do.
A type keeps at most one pending lifecycle notification, so two live copies include a CloudEvent. -/
def liveCloud (c : Core) (run t : String) (now : Int) : Bool :=
  ((c.live (run, t)).scan (expiresAfter now) (some 2)).any (·.2)

/-- Whether a published copy expires after `now`. -/
def livePublished (c : Core) (run : String) (now : Int) : Bool :=
  !((c.livePublished run).scan (expiresAfter now) (some 1)).isEmpty

/-- Whether a pending, unexpired copy is one the run waits or is subscribed for. The counters answer
unless a copy has expired unconsumed. -/
def pendingWanted (c : Core) (s : StoredRun) (now : Int) : Bool :=
  let freshly := s.mailbox.all fun at_ => decide (now < at_)
  (s.awaits.keys.any fun t =>
    (s.pending.get t).any fun p =>
      (decide (p.cloud < p.copies) && wakes s t false) ||
        (decide (0 < p.cloud) && wakes s t true && (freshly || liveCloud c s.id t now))) ||
    s.subscriptions.values.flatten.any fun t =>
      (t == "*" && decide (0 < s.published) && (freshly || livePublished c s.id now)) ||
        (((s.pending.get t).any fun p => decide (0 < p.cloud)) &&
          (freshly || liveCloud c s.id t now))

/-! ### Acceptance -/

/-- The run woken at `now`, if it is not due before. -/
def wakeBy (s : StoredRun) (now : Int) : StoredRun :=
  { s with run := { s.run with wakeAtMs := min s.run.wakeAtMs now } }

/-- Accepts an event into the run and wakes a run that waits for it. -/
def receive (s : StoredRun) (e : StoredEvent) (now : Int) : Txn StoredRun :=
  push (if wanted s e now then wakeBy s now else s) e

/-- Accepts an event into the run unless the run holds its identity: `none` for the same payload, an
error for another. -/
def accept (s : StoredRun) (e : StoredEvent) (now : Int) : Txn (Option StoredRun) := do
  match identityOf e with
  | none => some <$> receive s e now
  | some id =>
    match ← Tx.read fun rows => (rows.eventId s.id).get id with
    | none => some <$> receive s e now
    | some n =>
      let held ← copy s.id n
      Tx.ensure (decide (e.envelope.map payload = held.envelope.map payload))
        (.identityConflict (shown id))
      pure none

/-- The type of an event, when it has one. -/
def typeOf (event : Json) : Option String := (event.text "type").filter (· ≠ "")

/-- The copy a CloudEvent is stored as. -/
def cloudEvent (event : Json) (t : String) (now : Int) (delivered : Bool) (expires : Option Int) :
    StoredEvent :=
  { type_ := t, data := (event.get? "data").getD .null, deliveredAtMs := now, consumedKey := none,
    envelope := some event, delivered, expiresAtMs := expires }

/-- The run an untargeted delivery goes to: the one that accepted its identity first, else the oldest
eligible registration of its type. -/
def recipient (id t : String) : Txn (Option StoredRun) := do
  let first ← Tx.read fun rows => (rows.delivered id).scan Table.all (some 1)
  match first with
  | row :: _ => some <$> run row.2
  | [] =>
    let found ← indexedRuns (.wait t) anyId (some 1)
    pure found.head?

/-- The run a delivery is for: its target, or the recipient of an untargeted one. -/
def addressee (target : Option String) (id t : String) : Txn (Option StoredRun) :=
  match target with
  | some target => findRun target
  | none => recipient id t

/-- Accepts an identified CloudEvent: into the target's mailbox, or for the oldest eligible
registration of its type. -/
def deliver (event : Json) (target : Option String) (now : Int) : Txn (Option String) := do
  let t ← Tx.orFail (typeOf event) (.message "a delivered event needs a type")
  let id ← Tx.orFail (identity event) (.message "a delivered event needs a source and an id")
  let stored := cloudEvent event t now true (some (satAdd now env.policy.mailboxMs))
  let candidate ← addressee target id t
  match candidate with
  | none => pure none
  | some s =>
    let held ← Tx.read fun rows => (rows.eventId s.id).get id
    if s.run.endedMs.isSome && held.isNone then pure none
    else
      match ← accept s stored now with
      | some s => storeRun s
      | none => pure ()
      pure (some s.id)

/-- The copy of a child's lifecycle notification. -/
def notice (t : String) (data : Json) (now : Int) : StoredEvent :=
  { type_ := t, data, deliveredAtMs := now, consumedKey := none, envelope := none,
    delivered := false, expiresAtMs := none }

/-- A child's lifecycle notification to its parent: one pending copy per type, no identity. Only a
listen that can take it wakes the parent. -/
def notify (parent t : String) (data : Json) (now : Int) : Txn Unit := do
  let s ← run parent
  if s.run.endedMs.isSome || !s.awaits.contains t || s.pending.contains t then pure ()
  else
    let woken := if wakes s t false then { s with run := { s.run with wakeAtMs := now } } else s
    let s ← push woken (notice t data now)
    storeRun s

/-- The runs subscribed to a type or to every type, each once, by id. -/
def subscribers (t : String) : Txn (List StoredRun) := do
  let typed ← indexedRuns (.subs t) anyId none
  let wild ← indexedRuns (.subs "*") anyId none
  let more := wild.foldl (fun runs s => if runs.any (·.id == s.id) then runs else runs ++ [s]) typed
  pure (more.insertionSort fun a b => a.id ≤ b.id)

/-- The runs a publication is for: its target, or the subscribers of an untargeted one. -/
def audience (target : Option String) (t : String) : Txn (List StoredRun) :=
  match target with
  | some id => Option.toList <$> findRun id
  | none => subscribers t

/-- Accepts a published event into one run, if it is live and the event is for it. -/
def publishTo (target : Option String) (stored : StoredEvent) (now : Int) (receivers : List String)
    (s : StoredRun) : Txn (List String) := do
  let eligible := s.run.endedMs.isNone && (target.isSome || subscribed s stored)
  if eligible then
    match ← accept s stored now with
    | some s' =>
      storeRun s'
      pure (receivers ++ [s.id])
    | none => pure receivers
  else pure receivers

/-- Appends a CloudEvent to every subscribed unfinished run, or to the target's mailbox. -/
def publish (event : Json) (target : Option String) (now : Int) : Txn (List String) := do
  let t ← Tx.orFail (typeOf event) (.message "a published event needs a type")
  let stored := cloudEvent event t now false (target.map fun _ => satAdd now env.policy.mailboxMs)
  let candidates ← audience target t
  Tx.fold (publishTo target stored now) [] candidates

/-! ### Evidence -/

/-- Removes one copy with its rows. -/
def forgetCopy (c : Core) (run : String) (n : Nat) (e : StoredEvent) : Core :=
  let c := if e.consumedKey.isNone then deletePendingRows c run n e else c
  { c with
    eventId := (identityOf e).elim c.eventId fun i => Table.deleteAt c.eventId run i
    delivered := (identityOf e).elim c.delivered fun i =>
      if e.delivered then Table.deleteAt c.delivered i run else c.delivered
    event := Table.deleteAt c.event run n }

/-- The run without evidence. -/
def forgotten (s : StoredRun) : StoredRun :=
  { s with pending := .empty, published := 0, mailbox := none, evidence := false }

/-- The rows without a run's evidence: its records and copies with all their rows. -/
def forgetRows (c : Core) (run : String) : Core :=
  let c' : Core := (c.event run).rows.foldl (fun c row => forgetCopy c run row.1 row.2)
    { c with record := Function.update c.record run .empty }
  { c' with eventType := Function.update c'.eventType run .empty }

/-- Removes a finished run's evidence. -/
def forget (s : StoredRun) : Txn (StoredRun × Nat) := do
  let records ← Tx.read fun rows => (rows.record s.id).rows
  Tx.write fun rows => { rows with toCore := forgetRows rows.toCore s.id }
  pure (forgotten s, records.length)

end Engine

end Ouro
