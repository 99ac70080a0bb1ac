import Ouro.Durable.Types
import Ouro.Ows.Events

/-!
# Schedules

How a worker fires a schedule's time trigger (`runtime::schedule`). A trigger keeps the definition, the
kind and the epoch that armed it in its state; its slot is the instant it is due, or the one an
interrupted admission left in its retry. `Attempt.fire` turns what a worker has read into one firing of
the store, which compares the trigger with the one the worker read.

What the language and the host decide is a parameter (`Host`): the schedule of a definition's text,
the next occurrence of a cron expression and the text of an instant.
-/

namespace Ouro

/-- An integer value. -/
def Json.asInt : Json → Option Int
  | .num (.int n) => some n
  | _ => none

/-- A natural number. -/
def Json.asNat (v : Json) : Option Nat := v.asInt.bind Int.toNat?

/-- The items of an array. -/
def Json.asArr : Json → Option (List Json)
  | .arr items => some items
  | _ => none

/-- An integer as a value. -/
def Json.int (n : Int) : Json := .num (.int n)

/-- Writing one member leaves the others. -/
theorem Json.get?_insert_ne {k l : String} (h : k ≠ l) (v w : Json) :
    (v.insert k w).get? l = v.get? l := by
  cases v with
  | obj members => simp only [insert, get?, find_insertMember h]
  | _ => rfl

theorem Json.find_insertMember_self (k : String) (v : Json) (members : List (String × Json)) :
    (insertMember k v members).find? (fun m => m.1 == k) = some (k, v) := by
  induction members with
  | nil => simp [insertMember]
  | cons m members ih =>
    obtain ⟨j, w⟩ := m
    simp only [insertMember]
    split
    · simp
    · next hj =>
      split
      · simp
      · rw [List.find?_cons_of_neg (by simpa using hj), ih]

/-- A member that is written is there. -/
theorem Json.get?_insert_self {v : Json} {l : String} {x : Json} (h : v.get? l = some x) (k : String)
    (w : Json) : (v.insert k w).get? k = some w := by
  cases v with
  | obj members => simp only [insert, get?, find_insertMember_self, Option.map_some]
  | _ => exact absurd h (by simp [get?])

theorem Json.get?_remove_self (v : Json) (k : String) : (v.remove k).get? k = none := by
  cases v with
  | obj members =>
    simp only [remove, get?, Option.map_eq_none_iff, List.find?_eq_none]
    intro m hm
    simpa using (List.mem_filter.mp hm).2
  | _ => rfl

namespace Runtime

open Lib Ows

/-! ### Schedules and slots -/

/-- What becomes of a slot whose following slot is due as well. -/
inductive Catchup where
  | latest
  | none
deriving DecidableEq, Repr

/-- A definition's schedule; durations are in milliseconds. -/
structure Schedule where
  every : Option Nat
  cron : Option String
  timezone : Option String
  after : Option Nat
  at_ : Option Int
  on : Option Strategy
  read : Read
  overlap : Overlap
  catchup : Catchup

/-- What lies outside the scheduler. -/
structure Host where
  /-- The schedule of a definition's text (`model::parse_yaml`). -/
  schedule : String → Except String (Option Schedule)
  /-- The first occurrence of a cron expression after an instant, on a zone's wall clock. -/
  nextCron : String → Option String → Int → Except String Int
  /-- An instant as ISO 8601 text. -/
  iso8601 : Int → String

/-- A duration as the store counts it. -/
def millis (d : Nat) : Int := max (min d i64Max) 1

/-- The first `every` slot after `after`: slots are aligned to the epoch. -/
def nextEvery (every after : Int) : Int := after - after % every + every

/-- The first slot of a time trigger after `after`; a one-shot has none. -/
def nextSlot (host : Host) (s : Schedule) (kind : String) (after : Int) : Except String (Option Int) :=
  if kind = "every" then .ok (s.every.map fun every => nextEvery (millis every) after)
  else if kind = "cron" then
    match s.cron with
    | some cron => (host.nextCron cron s.timezone after).map some
    | none => .ok none
  else .ok none

/-- A datetime as a run sees it. An instant that no date names is shown as the epoch, beside its own
milliseconds. -/
def datetime (host : Host) (ms : Int) : Json :=
  let t := if dated ms then ms else 0
  .obj [("epoch", .obj [("milliseconds", .int ms), ("seconds", .int (t / 1000))]),
    ("iso8601", .str (host.iso8601 t))]

/-- The schedule of the run a slot starts: its kind, the slot, and the slot before it. -/
def runSchedule (host : Host) (kind : String) (slot : Int) (previous : Option Int) : Json :=
  .obj [("kind", .str kind), ("previous", previous.elim .null (datetime host)),
    ("slot", datetime host slot)]

/-- The slot the trigger last started a run for. -/
def previous (t : Trigger) : Option Int := (t.state.get? "previous").bind Json.asInt

/-- The slot that an interrupted admission keeps. -/
def retrySlot (t : Trigger) : Option Int :=
  ((t.state.get? "retry").bind (·.get? "slot")).bind Json.asInt

/-- The slot a trigger waits for. -/
def slotOf (t : Trigger) : Option Int := (retrySlot t).or t.atMs

/-- The active version's schedule. -/
def active (host : Host) (defs : Definitions) : Except String (Option Schedule) :=
  match defs.active.bind defs.versions.get with
  | some d => host.schedule d.yaml
  | none => .ok none

/-- Whether a trigger belongs to the definition's current, untripped epoch. -/
def current (defs : Definitions) (t : Trigger) : Bool :=
  defs.tripped.isNone && t.state.get? "epoch" = some (.int defs.epoch)

/-! ### The triggers a firing stores -/

/-- The trigger with a value of its state written. -/
def setState (t : Trigger) (k : String) (v : Json) : Trigger := { t with state := t.state.insert k v }

/-- The trigger without the retry of an interrupted slot. -/
def unretried (t : Trigger) : Trigger := { t with state := t.state.remove "retry" }

/-- How many skipped slots a trigger keeps. -/
def skipsKept : Nat := 16

/-- The trigger with a skipped slot recorded. -/
def skipped (t : Trigger) (slot : Int) (reason : String) : Trigger :=
  let kept := ((t.state.get? "skipped").bind Json.asArr).getD []
  let record := Json.obj [("reason", .str reason), ("slot", .int slot)]
  let record :=
    if reason = "overlap: ceiling" then record.insert "overlap" (.str "ceiling") else record
  let all := kept ++ [record]
  let skips := ((t.state.get? "skips").bind Json.asNat).getD 0
  setState (setState t "skipped" (.arr (all.drop (all.length - skipsKept)))) "skips" (.int (skips + 1))

/-- When a slot that failed `failures` times is tried again: after a second, doubling to five
minutes. -/
def retryAt (now : Int) (failures : Nat) : Int :=
  satAdd now (min (1000 * 2 ^ min (failures - 1) 20) 300000)

/-- The trigger that keeps an interrupted slot for its retry. -/
def retried (t : Trigger) (slot : Int) (error : String) (now : Int) : Trigger :=
  let failures := (((t.state.get? "retry").bind (·.get? "failures")).bind Json.asNat).getD 0 + 1
  setState { t with atMs := some (retryAt now (min failures u32Max)) } "retry"
    (.obj [("error", .str error), ("failures", .int failures), ("slot", .int slot)])

/-- A time trigger's firing from one trigger to the next. -/
def moved (key : String) (t next : Trigger) (busy : Option Trigger) : Firing :=
  { key, expected := some t, next := some next, admits := [], rearm := none, ingress := none, busy
    refused := none, overlap := none }

/-! ### Firing a time trigger -/

/-- The admitter's answer for the run of a slot. -/
inductive Answer where
  | admitted (a : Admission)
  | refused (r : Refused)
  /-- The definition tripped since the trigger was read. -/
  | tripped
  /-- The host failed: no property of the definition. -/
  | interrupted (error : String)
  | failed (error : String)

/-- What a worker brings to one attempt to fire: the trigger and the definition as it read them, its
clock, and what the store and the admitter answer it. -/
structure Attempt where
  key : String
  trigger : Trigger
  now : Int
  defs : Definitions
  /-- Whether it finds a run under a one-shot's id. -/
  ran : Bool
  answer : Answer
  maxConcurrentRuns : Nat

/-- What a kind makes of a slot: the run's id, the trigger after it, the one when it is skipped, and
what re-arms it. -/
structure Slot where
  id : String
  next : Trigger
  busy : Trigger
  rearm : Option Rearm

/-- What becomes of a due trigger before a run is asked for. -/
inductive Plan where
  /-- It is not fired. -/
  | nothing
  /-- Its slot is consumed without a run. -/
  | passed (next : Trigger)
  | run (slot : Slot)

/-- The id of the run a periodic slot starts. -/
def slotId (name kind : String) (slot : Int) : String :=
  "schedule:" ++ name ++ ":" ++ kind ++ ":" ++ toString slot

/-- Ten digits, more when there are. -/
def pad10 (n : Nat) : String :=
  let s := toString n
  String.ofList (List.replicate (10 - s.length) '0') ++ s

namespace Attempt

variable (host : Host) (a : Attempt) (s : Schedule) (name kind : String) (slot : Int)

/-- A periodic slot: the next one is the first after both it and the clock. -/
def periodic : Except String Plan :=
  match nextSlot host s kind slot with
  | .error e => .error e
  | .ok none => .ok .nothing
  | .ok (some following) =>
    match nextSlot host s kind (max slot a.now) with
    | .error e => .error e
    | .ok at_ =>
      let next := { unretried a.trigger with atMs := at_ }
      if following ≤ a.now ∧ s.catchup = .none then .ok (.passed (skipped next slot "missed"))
      else .ok (.run { id := slotId name kind slot, next, busy := next, rearm := none })

/-- The slot after a run's end: not due again until that run ends. -/
def following (after : Nat) : Slot :=
  let n := ((a.trigger.state.get? "n").bind Json.asNat).getD 1
  { id := "schedule:" ++ name ++ ":after:" ++ toString a.defs.epoch ++ ":" ++ pad10 n
    next := setState { unretried a.trigger with atMs := none } "n" (.int (n + 1))
    busy := { unretried a.trigger with atMs := some (satAdd a.now (millis after)) }
    rearm := some { trigger := a.key, delayMs := millis after } }

/-- A one-shot is consumed by its slot, whatever becomes of it. -/
def oneShot : Plan :=
  let next := setState { unretried a.trigger with atMs := none } "done" (.bool true)
  if a.ran then .passed (skipped next slot "already run")
  else .run { id := slotId name "at" slot, next, busy := next, rearm := none }

/-- What becomes of the due trigger, by its kind. -/
def plan : Except String Plan :=
  if kind = "every" ∨ kind = "cron" then periodic host a s name kind slot
  else if kind = "after" then .ok (s.after.elim .nothing fun after => .run (a.following name after))
  else if kind = "at" then .ok (if s.at_.isSome then a.oneShot name slot else .nothing)
  else .ok .nothing

/-- The admission of a slot's run, under the slot's id. -/
def named (id : String) (schedule : Json) (admission : Admission) : Admission :=
  { admission with
    id, name, input := .obj [], runtime := admission.runtime.insert "schedule" schedule }

/-- The firing of a slot by the admitter's answer. -/
def firing (p : Slot) : Except String (Option Firing) :=
  let schedule := runSchedule host kind slot (previous a.trigger)
  let ran (next : Trigger) : Firing :=
    { moved a.key a.trigger (setState next "previous" (.int slot))
        (some (skipped p.busy slot "overlap")) with
      overlap := some
        { policy := s.overlap, maxConcurrentRuns := a.maxConcurrentRuns
          ceiling := skipped p.busy slot "overlap: ceiling" } }
  match a.answer with
  | .admitted admission =>
    .ok (some { ran p.next with
      admits := [named name p.id schedule admission], rearm := p.rearm })
  | .refused r =>
    -- no run of a refused slot will end and re-arm it
    let next := p.rearm.elim p.next fun rearm =>
      { p.next with atMs := some (satAdd a.now rearm.delayMs) }
    .ok (some { ran next with
      refused := some { r with admission := named name p.id schedule r.admission } })
  | .tripped => .ok none
  | .interrupted error => .ok (some (moved a.key a.trigger (retried a.trigger slot error a.now) none))
  | .failed error => .error error

/-- One attempt to fire a due time trigger (`Runtime::fire`): the firing it asks the store for. -/
def fire : Except String (Option Firing) :=
  match a.trigger.state.text "name", a.trigger.state.text "kind", slotOf a.trigger with
  | some name, some kind, some slot =>
    match active host a.defs with
    | .error e => .error e
    | .ok none => .ok none
    | .ok (some s) =>
      if current a.defs a.trigger then
        match plan host a s name kind slot with
        | .error e => .error e
        | .ok .nothing => .ok none
        | .ok (.passed next) => .ok (some (moved a.key a.trigger next none))
        | .ok (.run p) => firing host a s name kind slot p
      else .ok none
  | _, _, _ => .error ("trigger " ++ a.key ++ " is not a schedule's")

end Attempt

end Runtime

end Ouro
