import Ouro.Durable.Arming
import Ouro.Lib.Pages
import Ouro.Runtime.Consume
import Ouro.Runtime.Schedule

/-!
# Publishing to `on` schedules

A published event goes to the runs that listen for it and then, unless a trigger took its identity
before, to the `on` triggers indexed under its type or under every type (`runtime::schedule`,
`publish` and `offer`). They are offered the event one after another until one takes it.

The candidates come from two ranges of the index, which are read back in the order of their
addresses: the type in hexadecimal before the trigger's key. So a trigger of one range comes before
every trigger of the other, whatever their keys.

* `publish_taken`: the event goes to the first candidate that wants it;
* `ingress_order_iff`: that is the one with the least key exactly when no candidate of the other range
  stands in its way.
-/

namespace Ouro.Runtime

open Lib Ows Engine

/-! ### One trigger -/

/-- What lies outside the scheduler when an event is published. -/
structure Ingress where
  host : Host
  eval : Eval
  /-- A value as compact JSON text. -/
  text : Json → String
  /-- What the admitter answers for a run, by its id. -/
  answer : String → Answer
  maxConcurrentRuns : Nat

/-- FNV-1a over the bytes of a text, as sixteen hexadecimal digits. -/
def digest (text : String) : String :=
  hex16 (text.toByteArray.data.toList.foldl
    (fun h b => (h ^^^ b.toNat) * 0x100000001b3 % 2 ^ 64) 0xcbf29ce484222325)

/-- The events a trigger has matched so far. -/
def held (t : Trigger) : List Json := ((t.state.get? "events").bind Json.asArr).getD []

/-- Whether a value is the event by its identity. -/
def sameEvent (event a : Json) : Bool :=
  a.get? "id" = event.get? "id" && a.get? "source" = event.get? "source"

/-- The definitions of the trigger's name. -/
def definitionsOf (σ : Rows) (t : Trigger) : Definitions :=
  (σ.definitions.get ((t.state.text "name").getD "")).getD .default

/-- The schedule of an `on` trigger of the current, untripped epoch, with its strategy. -/
def onSchedule (host : Host) (σ : Rows) (t : Trigger) :
    Except String (Option (Schedule × Strategy)) :=
  match active host (definitionsOf σ t) with
  | .error e => .error e
  | .ok none => .ok none
  | .ok (some s) =>
    if current (definitionsOf σ t) t then .ok (s.on.map fun on => (s, on)) else .ok none

/-- The id of the run that a complete match starts. -/
def matchId (text : Json → String) (name : String) (matched : List Json) : String :=
  let field (e : Json) (k : String) := text ((e.get? k).getD .null)
  "schedule:" ++ name ++ ":on:" ++
    digest ("\x01".intercalate (matched.map fun e => field e "source" ++ "\x00" ++ field e "id"))

/-- A firing that takes the event: from the trigger to `next`, under the schedule's overlap policy. -/
def takes (i : Ingress) (s : Schedule) (k : String) (t next : Trigger) (event : Json) (now : Int) :
    Firing :=
  { key := k, expected := some t, next := some next, admits := [], rearm := none
    ingress := some event, busy := some (skipped next now "overlap"), refused := none
    overlap := some
      { policy := s.overlap, maxConcurrentRuns := i.maxConcurrentRuns
        ceiling := skipped next now "overlap: ceiling" } }

/-- The firing that a wanted event asks for, with the run a complete match starts. -/
def onFiring (i : Ingress) (s : Schedule) (k : String) (t : Trigger) (event : Json) (now : Int)
    (outcome : Option (List Json)) : Except String (Option (Firing × Option String)) :=
  let matched := held t ++ [event]
  match outcome with
  | none => .ok (some (takes i s k t (setState t "events" (.arr matched)) event now, none))
  | some consumed =>
    let name := (t.state.text "name").getD ""
    let run := matchId i.text name matched
    let schedule := runSchedule i.host "on" now (previous t)
    let named (a : Admission) : Admission :=
      { a with
        id := run, name, input := .arr (consumed.map (read · s.read))
        runtime := a.runtime.insert "schedule" schedule }
    let f := takes i s k t (setState t "events" (.arr [])) event now
    let f := { f with next := f.next.map fun next => setState next "previous" (.int now) }
    match i.answer run with
    | .admitted a => .ok (some ({ f with admits := [named a] }, some run))
    | .refused r => .ok (some ({ f with refused := some { r with admission := named r.admission } }, none))
    | .tripped => .ok none
    | .interrupted e | .failed e => .error e

/-- Why an event could not be published. -/
inductive Failure where
  | message (text : String)
  | store (e : Error)
deriving DecidableEq

/-- What a trigger did with the event. -/
inductive Taken where
  | no
  | yes (run : Option String)
deriving DecidableEq

/-- Offers the event to a trigger as it was read, at most `fuel` times when it changes on the way. -/
def offerTo (env : Env) (i : Ingress) (k : String) (event : Json) (now : Int) :
    Nat → Trigger → Rows → Except Failure Taken × Rows
  | 0, _, σ => (.error (.message ("trigger " ++ k ++ " changed too often to offer an event")), σ)
  | fuel + 1, t, σ =>
    match onSchedule i.host σ t with
    | .error e => (.error (.message e), σ)
    | .ok none => (.ok .no, σ)
    | .ok (some (s, on)) =>
      if (held t).any (sameEvent event) then (.ok (.yes none), σ)
      else
        match consume i.eval on (held t ++ [event]) with
        | .error e => (.error (.message e), σ)
        | .ok none => (.ok .no, σ)
        | .ok (some outcome) =>
          match onFiring i s k t event now outcome with
          | .error e => (.error (.message e), σ)
          | .ok none => (.ok .no, σ)
          | .ok (some (f, run)) =>
            match fire env f now σ with
            | .error e => (.error (.store e), σ)
            | .ok (.error e, σ') => (.error (.store e), σ')
            | .ok (.ok .committed, σ') => (.ok (.yes run), σ')
            | .ok (.ok .changed, σ') =>
              if σ'.stopped.getD false then (.ok .no, σ')
              else
                match σ'.trigger.get k with
                | some t => offerTo env i k event now fuel t σ'
                | none => (.ok .no, σ')
            | .ok (.ok (.busy _), σ') | .ok (.ok .ingested, σ') | .ok (.ok .queued, σ')
            | .ok (.ok .ceiling, σ') => (.ok (.yes none), σ')

/-! ### All of them -/

/-- How many triggers one event may reach. -/
def batch : Nat := 256

/-- Offers the event to the triggers in turn until one takes it: that one, and the run it started. -/
def offerFirst (env : Env) (i : Ingress) (event : Json) (now : Int) :
    List (String × Trigger) → Rows → Except Failure (Option (String × Option String)) × Rows
  | [], σ => (.ok none, σ)
  | (k, t) :: rest, σ =>
    match offerTo env i k event now 16 t σ with
    | (.error e, σ') => (.error e, σ')
    | (.ok (.yes run), σ') => (.ok (some (k, run)), σ')
    | (.ok .no, σ') => offerFirst env i event now rest σ'

/-- A published event: the runs it reached and the trigger that took it. -/
structure Published where
  reached : List String
  trigger : Option String
deriving DecidableEq

/-- Publishes a completed event. -/
def publish (env : Env) (i : Ingress) (event : Json) (now : Int) (σ : Rows) :
    Except Failure Published × Rows :=
  match tombstone event now σ with
  | .error e => (.error (.store e), σ)
  | .ok ((_, _, used), _) =>
    match Engine.publish env event none now σ with
    | .error e => (.error (.store e), σ)
    | .ok (reached, σ₁) =>
      if used then (.ok { reached, trigger := none }, σ₁)
      else
        match triggersFor ((event.text "type").getD "") batch σ₁ with
        | .error e => (.error (.store e), σ₁)
        | .ok (candidates, _) =>
          match offerFirst env i event now candidates σ₁ with
          | (.error e, σ') => (.error e, σ')
          | (.ok none, σ') => (.ok { reached, trigger := none }, σ')
          | (.ok (some (k, run)), σ') =>
            (.ok { reached := reached ++ run.toList, trigger := some k }, σ')

/-- A CloudEvent with its identity and type checked, and its version and time filled in. -/
def complete (env : Env) (event : Json) (now : Int) : Except String Json :=
  match event with
  | .obj _ =>
    match ["id", "source", "type"].find? fun k => ((event.text k).filter (· ≠ "")).isNone with
    | some k => .error ("an event needs `" ++ k ++ "`")
    | none =>
      .ok ((event.entry "specversion" (.str "1.0")).entry "time" (.str ((env.rfc3339 now).getD "")))
  | _ => .error "an event is an object"

/-- Delivers a CloudEvent to the runs that listen for it and to the schedules it may start
(`Runtime::publish`). -/
def publishEvent (env : Env) (i : Ingress) (event : Json) (now : Int) (σ : Rows) :
    Except Failure Published × Rows :=
  match complete env event now with
  | .error e => (.error (.message e), σ)
  | .ok event => publish env i event now σ

/-! ### Who wants the event -/

/-- Whether a trigger's strategy, replayed over the events it holds, wants the event. -/
def wants (i : Ingress) (event : Json) (σ : Rows) (t : Trigger) : Bool :=
  match onSchedule i.host σ t with
  | .ok (some (_, on)) =>
    match consume i.eval on (held t ++ [event]) with
    | .ok (some _) => true
    | _ => false
  | _ => false

/-- Nothing fails on the way to the triggers: the store is not stopped, their definitions parse, their expressions evaluate, no
trigger holds the event already, and the firing of one that wants it is asked for and taken. -/
structure Calm (env : Env) (i : Ingress) (event : Json) (now : Int) (σ : Rows) : Prop where
  running : σ.stopped.getD false = false
  parses : ∀ k t, σ.trigger.get k = some t → ∃ o, onSchedule i.host σ t = .ok o
  evaluates : ∀ k t s on, σ.trigger.get k = some t → onSchedule i.host σ t = .ok (some (s, on)) →
    ∃ o, consume i.eval on (held t ++ [event]) = .ok o
  untaken : ∀ k t, σ.trigger.get k = some t → (held t).any (sameEvent event) = false
  taken : ∀ k t s on outcome, σ.trigger.get k = some t → onSchedule i.host σ t = .ok (some (s, on)) →
    consume i.eval on (held t ++ [event]) = .ok (some outcome) →
      ∃ f run d σ', onFiring i s k t event now outcome = .ok (some (f, run)) ∧
        fire env f now σ = .ok (.ok d, σ') ∧ d ≠ .changed

section

variable {env : Env} {i : Ingress} {event : Json} {now : Int} {σ : Rows} {k : String} {t : Trigger}

/-- A trigger that does not want the event leaves everything as it is. -/
theorem offerTo_unwanted (hcalm : Calm env i event now σ) (ht : σ.trigger.get k = some t)
    (hw : wants i event σ t = false) : offerTo env i k event now 16 t σ = (.ok .no, σ) := by
  obtain ⟨o, ho⟩ := hcalm.parses k t ht
  rw [offerTo, ho]
  cases o with
  | none => rfl
  | some p =>
    obtain ⟨s, on⟩ := p
    obtain ⟨outcome, hout⟩ := hcalm.evaluates k t s on ht ho
    simp only [hcalm.untaken k t ht, Bool.false_eq_true, if_false, hout]
    cases outcome with
    | none => rfl
    | some outcome =>
      rw [wants, ho] at hw
      simp only [hout] at hw
      exact absurd hw (by simp)

/-- A trigger that wants the event takes it. -/
theorem offerTo_wanted (hcalm : Calm env i event now σ) (ht : σ.trigger.get k = some t)
    (hw : wants i event σ t = true) : ∃ run σ', offerTo env i k event now 16 t σ = (.ok (.yes run), σ') := by
  obtain ⟨o, ho⟩ := hcalm.parses k t ht
  rw [wants, ho] at hw
  cases o with
  | none => exact absurd hw (by simp)
  | some p =>
    obtain ⟨s, on⟩ := p
    obtain ⟨outcome, hout⟩ := hcalm.evaluates k t s on ht ho
    simp only [hout] at hw
    cases outcome with
    | none => exact absurd hw (by simp)
    | some outcome =>
      obtain ⟨f, run, d, σ', hfiring, hfire, hd⟩ := hcalm.taken k t s on outcome ht ho hout
      rw [offerTo, ho]
      simp only [hcalm.untaken k t ht, Bool.false_eq_true, if_false, hout, hfiring, hfire]
      cases d with
      | changed => exact absurd rfl hd
      | committed => exact ⟨run, σ', rfl⟩
      | busy run' => exact ⟨none, σ', rfl⟩
      | ingested => exact ⟨none, σ', rfl⟩
      | queued => exact ⟨none, σ', rfl⟩
      | ceiling => exact ⟨none, σ', rfl⟩

/-- The event goes to the first candidate that wants it. -/
theorem offerFirst_taken (hcalm : Calm env i event now σ) {candidates : List (String × Trigger)}
    (hc : ∀ c ∈ candidates, σ.trigger.get c.1 = some c.2) :
    (candidates.find? (fun c => wants i event σ c.2) = none ∧
      offerFirst env i event now candidates σ = (.ok none, σ)) ∨
    ∃ k t run σ', candidates.find? (fun c => wants i event σ c.2) = some (k, t) ∧
      offerFirst env i event now candidates σ = (.ok (some (k, run)), σ') := by
  induction candidates with
  | nil => exact .inl ⟨rfl, rfl⟩
  | cons c rest ih =>
    obtain ⟨k, t⟩ := c
    have ht : σ.trigger.get k = some t := hc (k, t) List.mem_cons_self
    cases hw : wants i event σ t with
    | true =>
      obtain ⟨run, σ', hoffer⟩ := offerTo_wanted hcalm ht hw
      refine .inr ⟨k, t, run, σ', List.find?_cons_of_pos hw, ?_⟩
      rw [offerFirst, hoffer]
    | false =>
      rw [List.find?_cons_of_neg (by simp [hw]), offerFirst, offerTo_unwanted hcalm ht hw]
      exact ih fun c hc' => hc c (List.mem_cons_of_mem _ hc')

/-! ### The order of the candidates -/

theorem find?_of_rows {out : List (String × Trigger)} (h : ∀ c ∈ out, σ.trigger.get c.1 = some c.2)
    (p : Trigger → Bool) :
    (out.find? fun c => p c.2).map (·.1) =
      (out.map (·.1)).find? fun k => (σ.trigger.get k).any p := by
  induction out with
  | nil => rfl
  | cons c out ih =>
    have hc := h c List.mem_cons_self
    have hrest := ih fun d hd => h d (List.mem_cons_of_mem _ hd)
    rw [List.map_cons]
    cases hp : p c.2 with
    | true => simp [hp, hc]
    | false => simpa [hp, hc] using hrest

/-- What is looked for along the triggers that keys lead to is found in the order of the keys. -/
theorem indexedTriggers_find {keys : List String} {found : List (String × Trigger)} {σ' : Rows}
    (h : indexedTriggers keys σ = .ok (found, σ')) :
    (∀ c ∈ found, σ.trigger.get c.1 = some c.2) ∧
      ∀ p : Trigger → Bool, (found.find? fun c => p c.2).map (·.1) =
        keys.find? fun k => (σ.trigger.get k).any p := by
  suffices hfold : ∀ (keys : List String) (out : List (String × Trigger)),
      (∀ c ∈ out, σ.trigger.get c.1 = some c.2) →
      Tx.fold (fun out k => do
        if out.any (·.1 == k) then pure out
        else
          let found ← Tx.read (·.trigger.get k)
          let t ← Tx.orFail found (.message s!"dangling trigger index {k}")
          pure (out ++ [(k, t)])) out keys σ = (.ok (found, σ') : Except Error _) →
      (∀ c ∈ found, σ.trigger.get c.1 = some c.2) ∧
        ∀ p : Trigger → Bool, (found.find? fun c => p c.2).map (·.1) =
          (out.map (·.1) ++ keys).find? fun k => (σ.trigger.get k).any p by
    exact hfold keys [] (by simp) h
  -- Induction on the keys; `out` are the triggers found so far.
  intro keys
  induction keys with
  | nil =>
    intro out hout h
    obtain ⟨rfl, -⟩ := Tx.pure_ok.mp h
    exact ⟨hout, fun p => by rw [List.append_nil]; exact find?_of_rows hout p⟩
  | cons k keys ih =>
    intro out hout h
    obtain ⟨out', σ₁, hstep, hrest⟩ := Tx.bind_ok.mp h
    simp only at hstep
    -- A key that both ranges list is taken once.
    split at hstep
    · next hin =>
      obtain ⟨rfl, rfl⟩ := Tx.pure_ok.mp hstep
      obtain ⟨hfound, hfind⟩ := ih out' hout hrest
      refine ⟨hfound, fun p => (hfind p).trans ?_⟩
      -- a key listed before is not found later
      rw [List.find?_append, List.find?_append]
      cases hfirst : (out'.map (·.1)).find? fun k => (σ₁.trigger.get k).any p with
      | some x => rfl
      | none =>
        obtain ⟨c, hc, hck⟩ := List.any_eq_true.mp hin
        have hk : k ∈ out'.map (·.1) := by
          rw [← beq_iff_eq.mp hck]
          exact List.mem_map_of_mem hc
        have hno := List.find?_eq_none.mp hfirst k hk
        simp only [List.find?_cons, hno]
    -- A new key leads to its trigger.
    · simp only [Tx.bind_ok, Tx.read_ok, Tx.orFail_ok, Tx.pure_ok] at hstep
      obtain ⟨o, σ₂, ⟨ho, hσ₂⟩, t, σ₃, ⟨hot, hσ₃⟩, rfl, hσ₁⟩ := hstep
      rw [hσ₁, hσ₃, hσ₂] at hrest
      rw [hot] at ho
      have hout' : ∀ c ∈ out ++ [(k, t)], σ.trigger.get c.1 = some c.2 := by
        intro c hc
        rcases List.mem_append.mp hc with hc | hc
        · exact hout c hc
        · rw [List.mem_singleton.mp hc]
          exact ho.symm
      obtain ⟨hfound, hfind⟩ := ih _ hout' hrest
      refine ⟨hfound, fun p => (hfind p).trans ?_⟩
      rw [List.map_append, List.append_assoc]
      rfl

/-- The keys of the triggers indexed under a type, in order. -/
def listed (σ : Rows) (type_ : String) : List String :=
  ((σ.triggerType type_).scan Table.all none).map (·.2)

theorem mem_listed (hσ : Armed σ) {type_ : String} :
    k ∈ listed σ type_ ↔ ∃ t, σ.trigger.get k = some t ∧ type_ ∈ t.types := by
  unfold listed
  rw [List.mem_map]
  constructor
  · rintro ⟨⟨key, v⟩, hrow, rfl⟩
    obtain ⟨hkey, h⟩ := (hσ.type_ _ _ _).mp ((Table.mem_scan _ _).mp hrow).1
    rw [show (key, v).2 = key from hkey]
    exact h
  · intro h
    exact ⟨(k, k), (Table.mem_scan _ _).mpr ⟨(hσ.type_ _ _ _).mpr ⟨rfl, h⟩, rfl⟩, rfl⟩

theorem listed_increasing (hσ : Armed σ) (type_ : String) : (listed σ type_).Pairwise (· < ·) := by
  have hkeys : listed σ type_ = ((σ.triggerType type_).scan Table.all none).map (·.1) := by
    apply List.map_congr_left
    intro row hrow
    exact ((hσ.type_ _ _ _).mp ((Table.mem_scan _ _).mp (show (row.1, row.2) ∈ _ from hrow)).1).1
  rw [hkeys, List.pairwise_map]
  exact Table.scan_sorted _ _

/-- The type whose range of the index is read back first. -/
def firstRange (type_ : String) : String := if component type_ ≤ component "*" then type_ else "*"

/-- The keys of the candidates in the order they are offered the event. -/
def order (σ : Rows) (type_ : String) : List String :=
  if type_ = "*" then listed σ "*"
  else if component type_ ≤ component "*" then listed σ type_ ++ listed σ "*"
  else listed σ "*" ++ listed σ type_

/-- Where the two ranges fit in a batch, the candidates are all the triggers of both. -/
theorem triggersFor_order (hσ : Armed σ) (hrunning : σ.stopped.getD false = false) {type_ : String}
    (hbatch : (listed σ type_).length + (listed σ "*").length ≤ batch) :
    ∃ found, triggersFor type_ batch σ = .ok (found, σ) ∧
      (∀ c ∈ found, σ.trigger.get c.1 = some c.2) ∧
      ∀ p : Trigger → Bool, (found.find? fun c => p c.2).map (·.1) =
        (order σ type_).find? fun k => (σ.trigger.get k).any p := by
  -- Both ranges are read, at most a batch in all.
  obtain ⟨found, hfound⟩ := triggersFor_total hσ type_ batch
  refine ⟨found, hfound, ?_⟩
  unfold triggersFor at hfound
  obtain ⟨stopped, σ₀, hstopped, hfound⟩ := Tx.bind_ok.mp hfound
  obtain ⟨rfl, rfl⟩ := Tx.read_ok.mp hstopped
  simp only [hrunning, Bool.false_eq_true, if_false] at hfound
  simp only [Tx.bind_ok, Tx.read_ok] at hfound
  obtain ⟨typed, σ₁, ⟨htyped, rfl⟩, wild, σ₂, ⟨hwild, rfl⟩, hfound⟩ := hfound
  unfold listed at hbatch
  simp only [List.length_map] at hbatch
  -- neither scan is cut short
  have htyped' : typed = (σ₂.triggerType type_).scan Table.all none := by
    rw [htyped, Table.scan_some, List.take_of_length_le (by omega)]
  have hwild' : wild = if type_ = "*" then [] else (σ₂.triggerType "*").scan Table.all none := by
    rw [hwild, htyped']
    by_cases hstar : type_ = "*"
    · simp [hstar]
    · rw [if_neg hstar]
      split
      · rw [Table.scan_some, List.take_of_length_le (by omega)]
      · next hfull =>
        have hnone : ((σ₂.triggerType "*").scan Table.all none).length = 0 := by
          by_contra hsome
          exact hfull ⟨hstar, by omega⟩
        exact (List.length_eq_zero_iff.mp hnone).symm
  -- The first range is the one whose address comes first.
  have horder : (if component type_ ≤ component "*" then typed ++ wild else wild ++ typed).map (·.2) =
      order σ₂ type_ := by
    rw [htyped', hwild', order]
    by_cases hstar : type_ = "*"
    · simp [hstar, listed]
    · simp only [hstar, if_false]
      split <;> rw [List.map_append] <;> rfl
  rw [horder] at hfound
  exact indexedTriggers_find hfound

/-! ### The least key -/

/-- A trigger with the least key among those that want the event. -/
structure Least (i : Ingress) (event : Json) (σ : Rows) (k : String) (t : Trigger) : Prop where
  stored : σ.trigger.get k = some t
  wants : wants i event σ t = true
  least : ∀ k' t', σ.trigger.get k' = some t' → Runtime.wants i event σ t' = true → k ≤ k'

/-- The event is taken by the trigger with the least key among those that want it, and by no other; if
none wants it, no trigger and no tombstone changes. -/
def GoesFirst (env : Env) (i : Ingress) (event : Json) (now : Int) (σ : Rows) : Prop :=
  (∀ k t, Least i event σ k t →
    ∃ p, (publish env i event now σ).1 = .ok p ∧ p.trigger = some k) ∧
  ((∀ k t, σ.trigger.get k = some t → wants i event σ t = false) →
    (∃ p, (publish env i event now σ).1 = .ok p ∧ p.trigger = none) ∧
    (publish env i event now σ).2.trigger = σ.trigger ∧
    (publish env i event now σ).2.ingress = σ.ingress)

/-- The trigger with the least key among those that want the event is indexed under its type or under
every type, and in the range that is read first, unless nobody there wants the event. -/
def Ordered (i : Ingress) (event : Json) (σ : Rows) : Prop :=
  let type_ := (event.text "type").getD ""
  ∀ k t, Least i event σ k t → (type_ ∈ t.types ∨ "*" ∈ t.types) ∧
    (firstRange type_ ∈ t.types ∨
      ∀ k' t', σ.trigger.get k' = some t' → wants i event σ t' = true → firstRange type_ ∉ t'.types)

/-- The candidates are those of the range that is read first and then those of the other. -/
theorem order_ranges (hσ : Armed σ) (type_ : String) :
    ∃ late, order σ type_ = listed σ (firstRange type_) ++ late ∧ late.Pairwise (· < ·) ∧
      ∀ k, k ∈ listed σ (firstRange type_) ∨ k ∈ late ↔ k ∈ listed σ type_ ∨ k ∈ listed σ "*" := by
  unfold order firstRange
  by_cases hstar : type_ = "*"
  · refine ⟨[], ?_, List.Pairwise.nil, fun k => ?_⟩
    · simp [hstar]
    · simp [hstar]
  · by_cases hle : component type_ ≤ component "*"
    · refine ⟨listed σ "*", ?_, listed_increasing hσ _, fun k => ?_⟩
      · simp only [hstar, hle, if_true, if_false]
      · simp only [hle, if_true]
    · refine ⟨listed σ type_, ?_, listed_increasing hσ _, fun k => ?_⟩
      · simp only [hstar, hle, if_false]
      · simp only [hle, if_false]
        exact or_comm

/-- The least trigger is the first of the candidates exactly when it is ordered before the others. -/
theorem find_order_iff (hσ : Armed σ) {type_ : String} (h : Least i event σ k t) :
    (order σ type_).find? (fun k => (σ.trigger.get k).any (wants i event σ)) = some k ↔
      (type_ ∈ t.types ∨ "*" ∈ t.types) ∧ (firstRange type_ ∈ t.types ∨
        ∀ k' t', σ.trigger.get k' = some t' → wants i event σ t' = true →
          firstRange type_ ∉ t'.types) := by
  -- The order is the first range and then the other, each by key.
  obtain ⟨late, horder, hlate, hmem⟩ := order_ranges hσ type_
  have hself : ∀ {ty}, k ∈ listed σ ty ↔ ty ∈ t.types := by
    intro ty
    rw [mem_listed hσ]
    constructor
    · rintro ⟨t', ht', hin⟩
      rw [Option.some.inj (h.stored.symm.trans ht')]
      exact hin
    · exact fun hin => ⟨t, h.stored, hin⟩
  have hp : (σ.trigger.get k).any (wants i event σ) = true := by
    rw [h.stored]
    exact h.wants
  -- The least trigger is the least of those that want the event.
  have hleast : ∀ k', (σ.trigger.get k').any (wants i event σ) = true → k ≤ k' := by
    intro k' hk'
    obtain ⟨t', ht', hw⟩ := (Option.any_eq_true _ _).mp hk'
    exact h.least k' t' ht' hw
  rw [horder, List.find?_append]
  -- It was found first: it is listed in the first range, or nothing that wants the event is.
  constructor
  · intro hfind
    have hin : k ∈ listed σ (firstRange type_) ++ late := by
      rw [← List.find?_append] at hfind
      exact List.mem_of_find?_eq_some hfind
    refine ⟨((hmem k).mp (List.mem_append.mp hin)).imp hself.mp hself.mp, ?_⟩
    cases hearly : (listed σ (firstRange type_)).find?
        (fun k => (σ.trigger.get k).any (wants i event σ)) with
    | some k' =>
      rw [hearly, Option.some_or, Option.some.injEq] at hfind
      rw [hfind] at hearly
      exact .inl (hself.mp (List.mem_of_find?_eq_some hearly))
    | none =>
      refine .inr fun k' t' ht' hw hin' => ?_
      have hno := List.find?_eq_none.mp hearly k' ((mem_listed hσ).mpr ⟨t', ht', hin'⟩)
      rw [ht'] at hno
      exact hno hw
  -- And in these cases it is found first.
  · rintro ⟨hlisted, hfirst⟩
    by_cases hearly : firstRange type_ ∈ t.types
    · rw [find?_eq_least (listed_increasing hσ _) (hself.mpr hearly) hp fun k' _ => hleast k']
      rfl
    · -- nobody in the first range wants it
      have hnone : (listed σ (firstRange type_)).find?
          (fun k => (σ.trigger.get k).any (wants i event σ)) = none := by
        rw [List.find?_eq_none]
        intro k' hk' hw
        obtain ⟨t', ht', hin⟩ := (mem_listed hσ).mp hk'
        rw [ht'] at hw
        exact hfirst.resolve_left hearly k' t' ht' hw hin
      have hin : k ∈ late :=
        ((hmem k).mpr (hlisted.imp hself.mpr hself.mpr)).resolve_left fun hin => hearly (hself.mp hin)
      rw [hnone, Option.none_or]
      exact find?_eq_least hlate hin hp fun k' _ => hleast k'

/-! ### Publishing -/

/-- What the scheduler reads and writes is as it was. -/
structure SameIngress (σ σ' : Rows) : Prop where
  trigger : σ'.trigger = σ.trigger
  due : σ'.triggerDue = σ.triggerDue
  type_ : σ'.triggerType = σ.triggerType
  definitions : σ'.definitions = σ.definitions
  ingress : σ'.ingress = σ.ingress

instance : RunFrame SameIngress where
  refl _ := ⟨rfl, rfl, rfl, rfl, rfl⟩
  trans _ _ _ h h' := ⟨h'.trigger.trans h.trigger, h'.due.trans h.due, h'.type_.trans h.type_,
    h'.definitions.trans h.definitions, h'.ingress.trans h.ingress⟩
  core _ _ _ := ⟨rfl, rfl, rfl, rfl, rfl⟩

theorem SameIngress.wants {σ' : Rows} (h : SameIngress σ σ') : Runtime.wants i event σ' = wants i event σ := by
  funext t
  unfold Runtime.wants onSchedule definitionsOf
  rw [h.definitions]

/-- A new event goes to the first of the candidates that wants it. -/
theorem publish_taken {tomb : String × Option Tombstone × Bool} {reached : List String} {σ₁ : Rows}
    (hnew : tombstone event now σ = .ok (tomb, σ)) (hunused : tomb.2.2 = false)
    (hruns : Engine.publish env event none now σ = .ok (reached, σ₁)) (hσ : Armed σ)
    (hbatch : (listed σ ((event.text "type").getD "")).length + (listed σ "*").length ≤ batch)
    (hcalm : Calm env i event now σ₁) :
    (∃ p, (publish env i event now σ).1 = .ok p ∧ p.trigger =
      (order σ ((event.text "type").getD "")).find?
        (fun k => (σ.trigger.get k).any (wants i event σ))) ∧
    ((order σ ((event.text "type").getD "")).find?
        (fun k => (σ.trigger.get k).any (wants i event σ)) = none →
      (publish env i event now σ).2.trigger = σ.trigger ∧
        (publish env i event now σ).2.ingress = σ.ingress) := by
  -- The runs are told first, which moves no trigger.
  have hsame : SameIngress σ σ₁ := publish_frame event none hruns
  have hlisted : ∀ ty, listed σ₁ ty = listed σ ty := fun ty => by unfold listed; rw [hsame.type_]
  have horder : ∀ ty, order σ₁ ty = order σ ty := fun ty => by simp only [order, hlisted]
  have hbatch₁ : (listed σ₁ ((event.text "type").getD "")).length + (listed σ₁ "*").length ≤ batch := by
    rw [hlisted, hlisted]
    exact hbatch
  obtain ⟨found, hfound, hrows, hfind⟩ := triggersFor_order
    (hσ.of_eq hsame.trigger hsame.due hsame.type_) hcalm.running hbatch₁
  have hfirst := hfind (wants i event σ₁)
  rw [horder, hsame.trigger, hsame.wants] at hfirst
  -- The identity is new, so the candidates are offered the event.
  obtain ⟨id, old, used⟩ := tomb
  simp only at hunused
  subst hunused
  unfold publish
  rw [hnew, hruns]
  simp only [Bool.false_eq_true, if_false, hfound]
  -- None takes it, or the first that wants it.
  rcases offerFirst_taken hcalm hrows with ⟨hnone, hoffer⟩ | ⟨k, t, run, σ', hsome, hoffer⟩
  · rw [hsame.wants] at hnone
    rw [hnone] at hfirst
    rw [hoffer]
    exact ⟨⟨_, rfl, hfirst⟩, fun _ => ⟨hsame.trigger, hsame.ingress⟩⟩
  · rw [hsame.wants] at hsome
    rw [hsome] at hfirst
    rw [hoffer]
    refine ⟨⟨_, rfl, hfirst⟩, fun hnone => ?_⟩
    rw [hnone] at hfirst
    exact absurd hfirst (by simp)

/-- Where nothing fails on the way, a new event goes to the trigger with the least key among those that
want it exactly when that trigger is ordered before the others. -/
theorem ingress_order_iff {tomb : String × Option Tombstone × Bool} {reached : List String} {σ₁ : Rows}
    (hnew : tombstone event now σ = .ok (tomb, σ)) (hunused : tomb.2.2 = false)
    (hruns : Engine.publish env event none now σ = .ok (reached, σ₁)) (hσ : Armed σ)
    (hbatch : (listed σ ((event.text "type").getD "")).length + (listed σ "*").length ≤ batch)
    (hcalm : Calm env i event now σ₁) :
    GoesFirst env i event now σ ↔ Ordered i event σ := by
  obtain ⟨⟨p, hp, htrigger⟩, hrest⟩ := publish_taken hnew hunused hruns hσ hbatch hcalm
  constructor
  · intro hgoes k t hleast
    obtain ⟨p', hp', hk⟩ := hgoes.1 k t hleast
    rw [hp, Except.ok.injEq] at hp'
    rw [hp', hk] at htrigger
    exact (find_order_iff hσ hleast).mp htrigger.symm
  · intro hordered
    refine ⟨fun k t hleast => ⟨p, hp, ?_⟩, fun hnobody => ?_⟩
    · rw [htrigger]
      exact (find_order_iff hσ hleast).mpr (hordered k t hleast)
    · have hnone : (order σ ((event.text "type").getD "")).find?
          (fun k => (σ.trigger.get k).any (wants i event σ)) = none := by
        rw [List.find?_eq_none]
        intro k _ hw
        obtain ⟨t, ht, hw⟩ := (Option.any_eq_true _ _).mp hw
        rw [hnobody k t ht] at hw
        exact absurd hw (by simp)
      exact ⟨⟨p, hp, htrigger.trans hnone⟩, hrest hnone⟩

end

/-! ### Definitions that want an order -/

/-- A schedule on events that pass one filter. -/
def onEvents (f : EventFilter) : Schedule :=
  { every := none, cron := none, timezone := none, after := none, at_ := none, on := some (.one f)
    read := .data, overlap := .allow, catchup := .latest }

/-- The filter of a definition: orders, or the events of a source. -/
def filterOf (yaml : String) : EventFilter :=
  ⟨if yaml = "orders" then [("type", .str "order")] else [("source", .str yaml)], []⟩

/-- Definitions that start on what passes their filter. -/
def Ingress.plain : Ingress where
  host :=
    { schedule := fun yaml => .ok (some (onEvents (filterOf yaml)))
      nextCron := fun _ _ after => .ok (after + 1), iso8601 := fun ms => toString ms }
  eval := fun _ _ _ => .ok .null
  text := fun v => (v.asStr).getD ""
  answer := fun _ => .admitted (.plain "")
  maxConcurrentRuns := 5

/-- The `on` trigger of a definition in its first epoch. -/
def onTrigger (name type_ : String) : Trigger :=
  { atMs := none, types := [type_]
    state := .obj [("epoch", .int 1), ("events", .arr []), ("kind", .str "on"), ("name", .str name)] }

/-- A definition with an `on` schedule. -/
def scheduled (name yaml type_ : String) : List Op :=
  [.saveDefinition name yaml .inherit,
    .activateWith name 1 0 (Table.empty.put (name ++ "#on") (onTrigger name type_))
      { atMs := 0, actor := none, note := none }]

/-- An order. -/
def anOrder : Json := .obj [("id", .str "1"), ("source", .str "/s"), ("type", .str "order")]

/-- What the trigger of a definition asks the store for when it takes the order. -/
def orderFiring (name yaml type_ : String) : Firing :=
  ((onFiring .plain (onEvents (filterOf yaml)) (name ++ "#on") (onTrigger name type_) anOrder 5
    (some [anOrder])).toOption.join.map (·.1)).getD
    (moved "" (onTrigger name type_) (onTrigger name type_) none)

/-- The definition `a` starts on orders, `b` on the events of their source. -/
def typeBeforeSource : Rows :=
  after .plain (scheduled "a" "orders" "order" ++ scheduled "b" "/s" "*")

/-- The wildcard range is read first, so `b` takes the order from `a`. -/
theorem wildcard_taken_first :
    ¬ ∀ (env : Env) (i : Ingress) (event : Json) (now : Int) (σ : Rows),
      (∃ tomb, tombstone event now σ = .ok (tomb, σ) ∧ tomb.2.2 = false) →
      (∀ k t, σ.trigger.get k = some t → (held t).any (sameEvent event) = false) →
      (listed σ ((event.text "type").getD "")).length + (listed σ "*").length ≤ batch →
        GoesFirst env i event now σ := by
  intro h
  have hrows : typeBeforeSource.trigger.rows =
      [("a#on", onTrigger "a" "order"), ("b#on", onTrigger "b" "*")] := by decide +kernel
  -- both triggers are in the store, the first one in key order is on the event's type
  have hkeys : ∀ k t, typeBeforeSource.trigger.get k = some t →
      "a#on" ≤ k ∧ (held t).any (sameEvent anOrder) = false := by
    intro k t ht
    have hin := (Table.mem_rows _).mpr ht
    rw [hrows] at hin
    simp only [List.mem_cons, Prod.mk.injEq, List.not_mem_nil, or_false] at hin
    rcases hin with ⟨rfl, rfl⟩ | ⟨rfl, rfl⟩
    · exact ⟨le_refl _, by decide +kernel⟩
    · exact ⟨by decide +kernel, by decide +kernel⟩
  have htomb : tombstone anOrder 5 typeBeforeSource = .ok (("/s\x001", none, false), typeBeforeSource) := by
    with_unfolding_all rfl
  have hgoes := h .plain .plain anOrder 5 typeBeforeSource ⟨_, htomb, rfl⟩ (fun k t ht => (hkeys k t ht).2)
    (by decide +kernel)
  have hleast : Least .plain anOrder typeBeforeSource "a#on" (onTrigger "a" "order") :=
    { stored := by decide +kernel, wants := by decide +kernel
      least := fun k t ht _ => (hkeys k t ht).1 }
  -- the least trigger that wants the event is not the one that takes it
  obtain ⟨p, hp, hk⟩ := hgoes.1 _ _ hleast
  have htaken : (publish .plain .plain anOrder 5 typeBeforeSource).1.map (·.trigger) =
      .ok (some "b#on") := by decide +kernel
  rw [hp] at htaken
  simp only [Except.map, Except.ok.injEq, hk] at htaken
  exact absurd htaken (by decide)

/-- The definition `a` starts on the events of another source, `b` on those of the order's and `c` on
orders. -/
def sourceBeforeType : Rows :=
  after .plain (scheduled "a" "/t" "*" ++ scheduled "b" "/s" "*" ++ scheduled "c" "orders" "order")

theorem except_map_ok {ε α β : Type} {m : Except ε α} {f : α → β} {b : β} (h : m.map f = .ok b) :
    ∃ a, m = .ok a ∧ f a = b := by
  cases m with
  | error e => exact absurd h (by simp [Except.map])
  | ok a => exact ⟨a, rfl, by simpa [Except.map] using h⟩

/-- A trigger that wants the order takes it, if the store commits the firing it asks for. -/
theorem order_taken {name yaml type_ : String} {outcome : Option (List Json)} {s : Schedule} {on : Strategy}
    {σ : Rows}
    (hschedule : onSchedule Ingress.plain.host σ (onTrigger name type_) =
      .ok (some (onEvents (filterOf yaml), .one (filterOf yaml))))
    (hconsume : consume Ingress.plain.eval (.one (filterOf yaml)) (held (onTrigger name type_) ++ [anOrder]) =
      .ok (some (some [anOrder])))
    (hasked : (onFiring .plain (onEvents (filterOf yaml)) (name ++ "#on") (onTrigger name type_) anOrder 5
      (some [anOrder])).map (Option.map (·.1)) = .ok (some (orderFiring name yaml type_)))
    (hfired : (fire .plain (orderFiring name yaml type_) 5 σ).map (·.1) = .ok (.ok .committed))
    (hs : onSchedule Ingress.plain.host σ (onTrigger name type_) = .ok (some (s, on)))
    (hout : consume Ingress.plain.eval on (held (onTrigger name type_) ++ [anOrder]) =
      .ok (some outcome)) :
    ∃ f run d σ', onFiring .plain s (name ++ "#on") (onTrigger name type_) anOrder 5 outcome =
        .ok (some (f, run)) ∧ fire .plain f 5 σ = .ok (.ok d, σ') ∧ d ≠ .changed := by
  rw [hschedule] at hs
  simp only [Except.ok.injEq, Option.some.injEq, Prod.mk.injEq] at hs
  obtain ⟨rfl, rfl⟩ := hs
  rw [hconsume] at hout
  simp only [Except.ok.injEq, Option.some.injEq] at hout
  subst hout
  obtain ⟨o, ho, hf⟩ := except_map_ok hasked
  obtain ⟨asked, rfl, heq⟩ := Option.map_eq_some_iff.mp hf
  obtain ⟨stored, hstore, hcommitted⟩ := except_map_ok hfired
  refine ⟨asked.1, asked.2, .committed, stored.2, ho, ?_, by simp⟩
  rw [heq, hstore, ← hcommitted]

/-- Of three triggers that stand in line, the first that wants the order takes it: the least of those that
want it, since it is in the range that is read first. -/
theorem least_source_taken :
    GoesFirst .plain .plain anOrder 5 sourceBeforeType ∧
      Least .plain anOrder sourceBeforeType "b#on" (onTrigger "b" "*") ∧
      wants .plain anOrder sourceBeforeType (onTrigger "c" "order") = true := by
  have hrows : sourceBeforeType.trigger.rows = [("a#on", onTrigger "a" "*"), ("b#on", onTrigger "b" "*"),
      ("c#on", onTrigger "c" "order")] := by decide +kernel
  -- The three triggers, what they ask for, and what they say of the order.
  have hkeys : ∀ k t, sourceBeforeType.trigger.get k = some t →
      (k = "a#on" ∧ t = onTrigger "a" "*") ∨ (k = "b#on" ∧ t = onTrigger "b" "*") ∨
        k = "c#on" ∧ t = onTrigger "c" "order" := by
    intro k t ht
    have hin := (Table.mem_rows _).mpr ht
    rw [hrows] at hin
    simpa only [List.mem_cons, Prod.mk.injEq, List.not_mem_nil, or_false] using hin
  have ha : onSchedule Ingress.plain.host sourceBeforeType (onTrigger "a" "*") =
      .ok (some (onEvents (filterOf "/t"), .one (filterOf "/t"))) := by with_unfolding_all rfl
  have hb : onSchedule Ingress.plain.host sourceBeforeType (onTrigger "b" "*") =
      .ok (some (onEvents (filterOf "/s"), .one (filterOf "/s"))) := by with_unfolding_all rfl
  have hc : onSchedule Ingress.plain.host sourceBeforeType (onTrigger "c" "order") =
      .ok (some (onEvents (filterOf "orders"), .one (filterOf "orders"))) := by with_unfolding_all rfl
  have hrefused : consume Ingress.plain.eval (.one (filterOf "/t")) (held (onTrigger "a" "*") ++ [anOrder]) =
      .ok none := by decide +kernel
  have hsource : consume Ingress.plain.eval (.one (filterOf "/s")) (held (onTrigger "b" "*") ++ [anOrder]) =
      .ok (some (some [anOrder])) := by decide +kernel
  have htype : consume Ingress.plain.eval (.one (filterOf "orders"))
      (held (onTrigger "c" "order") ++ [anOrder]) = .ok (some (some [anOrder])) := by decide +kernel
  -- Each of them answers, and the one that takes the order is free to.
  have hcalm : Calm .plain .plain anOrder 5 sourceBeforeType := by
    refine ⟨by decide +kernel, fun k t ht => ?_, fun k t s on ht hs => ?_, fun k t ht => ?_,
      fun k t s on outcome ht hs hout => ?_⟩
    all_goals obtain ⟨rfl, rfl⟩ | ⟨rfl, rfl⟩ | ⟨rfl, rfl⟩ := hkeys k t ht
    · exact ⟨_, ha⟩
    · exact ⟨_, hb⟩
    · exact ⟨_, hc⟩
    · rw [ha] at hs
      simp only [Except.ok.injEq, Option.some.injEq, Prod.mk.injEq] at hs
      exact ⟨_, hs.2 ▸ hrefused⟩
    · rw [hb] at hs
      simp only [Except.ok.injEq, Option.some.injEq, Prod.mk.injEq] at hs
      exact ⟨_, hs.2 ▸ hsource⟩
    · rw [hc] at hs
      simp only [Except.ok.injEq, Option.some.injEq, Prod.mk.injEq] at hs
      exact ⟨_, hs.2 ▸ htype⟩
    · decide +kernel
    · decide +kernel
    · decide +kernel
    · rw [ha] at hs
      simp only [Except.ok.injEq, Option.some.injEq, Prod.mk.injEq] at hs
      rw [← hs.2, hrefused] at hout
      simp at hout
    · exact order_taken hb hsource (by decide +kernel) (by decide +kernel) hs hout
    · exact order_taken hc htype (by decide +kernel) (by decide +kernel) hs hout
  -- The index is exact, for nothing but definitions was stored.
  have harmed : Armed sourceBeforeType := by
    refine armed_after .plain _ fun before f t rest heq => ?_
    -- nothing is fired
    have hfire : Op.fire f t ∈ scheduled "a" "/t" "*" ++ scheduled "b" "/s" "*" ++
        scheduled "c" "orders" "order" := by
      rw [heq]
      simp
    simp [scheduled] at hfire
  have htomb : tombstone anOrder 5 sourceBeforeType = .ok (("/s\x001", none, false), sourceBeforeType) := by
    with_unfolding_all rfl
  have hruns : Engine.publish .plain anOrder none 5 sourceBeforeType = .ok ([], sourceBeforeType) := by
    with_unfolding_all rfl
  -- The least of those that want it has the source.
  have hleast : Least .plain anOrder sourceBeforeType "b#on" (onTrigger "b" "*") := by
    refine ⟨by decide +kernel, by decide +kernel, fun k t ht hw => ?_⟩
    obtain ⟨rfl, rfl⟩ | ⟨rfl, rfl⟩ | ⟨rfl, rfl⟩ := hkeys k t ht
    · exact absurd hw (by decide +kernel)
    · exact le_refl _
    · decide +kernel
  refine ⟨(ingress_order_iff htomb rfl hruns harmed (by decide +kernel) hcalm).mpr ?_, hleast,
    by decide +kernel⟩
  intro k t h
  -- there is one least trigger, and it is in the range of every type
  obtain rfl : k = "b#on" := le_antisymm (h.least _ _ hleast.stored hleast.wants)
    (hleast.least _ _ h.stored h.wants)
  obtain rfl := Option.some.inj (h.stored.symm.trans hleast.stored)
  exact ⟨by decide +kernel, .inl (by decide +kernel)⟩

end Ouro.Runtime
