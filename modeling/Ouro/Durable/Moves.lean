import Ouro.Durable.Index

/-!
# What a call can do to the rows of runs

The rows of runs (`Core`) change in a small number of ways, whatever operation is called. `Rewrite`
lists the changes of one run row alone, `Move` adds those that touch a run's records, its copies or a
whole tree of runs. A call of the store is a finite sequence of moves at the instant of the call
(`Path`); the refinement is proved once, and every invariant of runs afterwards is a case analysis
over moves.

A move carries the guards under which the code makes it, so that an invariant can use them. The moves
a caller's own arguments decide (`Act`) are made only by the calls with these arguments: `may` says
which of them the call at hand may make, on which run.
-/

namespace Ouro

open Lib Engine

/-! ### Writes of the core -/

/-- The rows with one run row written. -/
def Core.set (c : Core) (s : StoredRun) : Core := { c with run := c.run.put s.id s }

/-- The rows with one record written. -/
def Core.setRecord (c : Core) (run k : String) (r : Record) : Core :=
  { c with record := Table.putAt c.record run k r }

/-- The rows with every run of a list ended as `end_` says. -/
def Core.ended (c : Core) (end_ : StoredRun → StoredRun) (ids : List String) : Core :=
  { c with
    run := ids.foldl (fun run id => (run.get id).elim run fun s => run.put id (end_ s)) c.run }

/-- The run row with its earliest mailbox expiry read again. -/
def refreshed (c : Core) (s : StoredRun) : StoredRun := { s with mailbox := earliest c s.id }

/-! ### Guards -/

/-- The journal records a call may write over what is there. -/
inductive Recorded : Option Record → Record → Prop
  /-- A record saved by the interpreter: the first under its key, or a step of a pending one. -/
  | saved {old : Option Record} {r : Record} (hr : committedElsewhere r = none)
      (ht : old.all (checkTransition · r) = true) : Recorded old r
  /-- A record saved again as it is. -/
  | same (r : Record) : Recorded (some r) r
  /-- A budget decision, under a key without a record. -/
  | spent (granted : Bool) (n : Nat) (first : Option String) :
      Recorded none (.budget granted n first)
  /-- The run's first refusal. -/
  | refused (k : String) : Recorded none (.exceeded k)
  /-- A refused decision whose own key is the reserved one. -/
  | overwritten (k : String) (granted : Bool) (n : Nat) (first : Option String) :
      Recorded (some (.exceeded k)) (.budget granted n first)

/-- A child of `parent` reports `data` as an event of type `t`: its stored outcome, the first report
of that type, or that it waits. -/
def Reports (c : Core) (parent t : String) (data : Json) : Prop :=
  ∃ child link status done, c.run.get child.id = some child ∧ child.run.child = some link ∧
    link.parent = parent ∧ lifecycleNotice child.id status = some (done, t, data) ∧
    (done = true → child.run.outcome = some status ∧ (c.eventType parent).get t = none)

/-- A CloudEvent as `deliver` and `publish` store it. -/
structure Acceptable (env : Env) (now : Int) (e : StoredEvent) : Prop where
  cloud : e.envelope.isSome = true
  pending : e.consumedKey = none
  instant : e.deliveredAtMs = now
  expiry : e.expiresAtMs = none ∨ e.expiresAtMs = some (satAdd now env.policy.mailboxMs)

/-- The runs a termination of `id` ends beside it: its live owned descendants, each once. -/
structure Subtree (c : Core) (id : String) (ids : List String) : Prop where
  nodup : (id :: ids).Nodup
  /-- Each of them is live and owned by the run or by another of them. -/
  owned : ∀ i ∈ ids, ∃ s link, s.id = i ∧ c.run.get i = some s ∧ s.run.endedMs = none ∧
    s.run.child = some link ∧ link.parent ∈ id :: ids
  /-- No live owned run is left out. -/
  closed : ∀ s link, c.run.get s.id = some s → s.run.endedMs = none → s.run.child = some link →
    link.parent ∈ id :: ids → s.id ∈ id :: ids

/-- A key a listen may record its event under: it has no record, or only that of an expiry. -/
def Free (c : Core) (run k : String) : Prop :=
  (c.record run).get k = none ∨
    ∃ n taken, k = expiredKey n ∧ (c.record run).get k = some (.expired taken)

/-! ### Moves -/

/-- What is done to a run only on a caller's word. -/
inductive Act where
  | register (types : List String)
  | unregister (k : String) (types : List String)
  | listen (k : String) (types : List String)
  | take (k : String) (types : List String)
  /-- A CloudEvent of the type is stored, delivered or published. -/
  | accept (type_ : String) (delivered : Bool)
  | finish
  /-- The child is started by the run, or joined by it again. -/
  | adopt (child : String)
  /-- The end of a child is reported to its parent once more. -/
  | report
  /-- The evidence of a run that ended then is removed. -/
  | forget (at_ : Int)
  /-- A record is written to the run's journal. -/
  | record (k : String) (r : Record)
  /-- A unit of the tree's budget is asked for. -/
  | spend
  /-- An answer's annotations are added to the run's totals. -/
  | annotate
  /-- The run is admitted for a trigger. -/
  | book

/-- The word of a drain alone: runs are admitted for triggers. -/
def Books (_ : String) (a : Act) : Prop := a = .book

theorem books (i : String) : Books i .book := rfl

/-- What a command gives its word for. -/
def Command.may : Command → String → Act → Prop
  | .cancel run, i, .finish => run = i
  | .cancel _, _, .book | .resume _, _, .book | .stop _, _, .book => True
  | .respond run _ event, i, .accept t d => typeOf event = some t ∧ run = i ∧ d = true
  | _, _, _ => False

/-- What a call gives its word for. A firing may end any run, to replace it; a call that drains the
slots of a definition may admit runs for triggers. -/
def Op.may : Op → String → Act → Prop
  | .registerWait f types _, i, .register ts => f.runId = i ∧ types = ts
  | .unregisterWait f k types _, i, .unregister k' ts => f.runId = i ∧ k = k' ∧ types = ts
  | .takeEvent f k types _, i, .listen k' ts => f.runId = i ∧ k = k' ∧ types = ts
  | .takeEvent f k types _, i, .take k' ts => f.runId = i ∧ k = k' ∧ types = ts
  | .deliver event target _, i, .accept t d =>
    typeOf event = some t ∧ (∀ j, target = some j → j = i) ∧ d = true
  | .publish event target _, i, .accept t d =>
    typeOf event = some t ∧ (∀ j, target = some j → j = i) ∧ d = false
  | .startChild parent a _ _ _, i, .adopt child => parent.runId = i ∧ a.id = child
  | .startChild _ a _ _ _, i, .report => a.id = i
  | .finish f _ _ _, i, .finish => f.runId = i
  | .cancel id _, i, .finish => id = i
  | .fire _ _, _, .finish => True
  | .admitRun _ _, _, .book | .start _ _ _, _, .book | .startChild _ _ _ _ _, _, .book
  | .fire _ _, _, .book | .finish _ _ _ _, _, .book | .cancel _ _, _, .book
  | .dueAs _ _ _, _, .book => True
  | .sweep now kept, _, .forget at_ => at_ ≤ satSub now kept
  | .saveRecord f k r _, i, .record k' r' => f.runId = i ∧ k = k' ∧ r = r'
  | .saveRecord f _ _ _, i, .annotate => f.runId = i
  | .spend f k _ _, i, .record k' r =>
    f.runId = i ∧ ((k = k' ∧ ∃ granted n first, r = .budget granted n first) ∨
      (k' = exceededKey ∧ r = .exceeded k))
  | .spend f _ _ _, i, .spend => f.runId = i
  | .applyControl _ command _, i, a => command.may i a
  | _, _, _ => False

/-- The changes of one run row that touch no other row. -/
inductive Rewrite (c : Core) (now : Int) (may : String → Act → Prop) : StoredRun → StoredRun → Prop
  | claim {s : StoredRun} (owner : String) (hc : claimable s.run now = true)
      (hg : s.run.generation < u64Max) : Rewrite c now may s (claimed s now owner)
  | renew {s : StoredRun} (hr : s.run.state = .running) :
      Rewrite c now may s { s with run := { s.run with leaseUntilMs := some (satAdd now leaseMs) } }
  | release {s : StoredRun} (hr : s.run.state = .running) :
      Rewrite c now may s { s with
        run := { s.run with
          state := .ready, fence := none, leaseUntilMs := none, wakeAtMs := now } }
  /-- An execution that suspends or is interrupted gives its run back. -/
  | park {s : StoredRun} (outcome : Status) (hr : s.run.state = .running)
      (ht : (finished c s outcome now).2.terminal = false) :
      Rewrite c now may s (disowned (finished c s outcome now).1)
  /-- An execution that ends its run settles the count of interruptions first. -/
  | count {s : StoredRun} (n : Nat) (hr : s.run.state = .running) :
      Rewrite c now may s { s with run := { s.run with interruptions := n } }
  | register {s : StoredRun} (types : List String) (hr : s.run.state = .running)
      (hmay : may s.id (.register types)) :
      Rewrite c now may s (registered s types now)
  | unregister {s : StoredRun} (k : String) (types : List String) (hr : s.run.state = .running)
      (hmay : may s.id (.unregister k types)) :
      Rewrite c now may s (close { s with listeners := s.listeners.delete k } types)
  | listen {s : StoredRun} (k : String) (types : List String) (hr : s.run.state = .running)
      (hn : candidate c s.id types = none) (hmay : may s.id (.listen k types)) :
      Rewrite c now may s { s with listeners := s.listeners.put k types }
  | subscribe {s : StoredRun} (k : String) (types : List String) (hr : s.run.state = .running) :
      Rewrite c now may s { s with subscriptions := s.subscriptions.put k types }
  | unsubscribe {s : StoredRun} (k : String) (hr : s.run.state = .running) :
      Rewrite c now may s { s with subscriptions := s.subscriptions.delete k, waits := s.waits.delete k }
  | describe {s : StoredRun} (k : String) (w : PendingWait) (hr : s.run.state = .running) :
      Rewrite c now may s { s with waits := s.waits.put k w }
  /-- A parent registers for the notices of a child it starts. -/
  | adopt {s : StoredRun} (child : String) (hr : s.run.state = .running)
      (hmay : may s.id (.adopt child)) :
      Rewrite c now may s (adopting s child now)
  /-- The automatic registration for an ended child's waiting notices is closed. -/
  | settle {s : StoredRun} (child : String) (ha : s.awaits.contains ("waiting:" ++ child) = true)
      (hmay : may child .finish ∨ may child .report) :
      Rewrite c now may s (close s ["waiting:" ++ child])
  | mark {s : StoredRun} (annotations : Totals) (hr : s.run.state = .running)
      (hmay : annotations = s.run.annotations ∨ may s.id .annotate) :
      Rewrite c now may s { s with evidence := true, run := { s.run with annotations } }
  | hold {s : StoredRun} (h : Option Hold) (hl : s.run.endedMs = none) :
      Rewrite c now may s { s with run := { s.run with held := h } }

/-- What a call does to the rows of runs, one step at a time. -/
inductive Move (env : Env) (now : Int) (may : String → Act → Prop) : Core → Core → Prop
  /-- A run is admitted, for a trigger when one is given. -/
  | admission {c : Core} (a : Admission) (digest : String) (epoch : Option Nat)
      (trigger : Option String) (rearm : Option (Rearm × Trigger)) (ha : c.run.get a.id = none)
      (hmay : trigger = none ∧ rearm = none ∨ may a.id .book) :
      Move env now may c (c.set { fresh a digest epoch now with trigger, rearm })
  | refuse {c : Core} (a : Admission) (digest : String) (epoch : Option Nat) (error : WorkflowError)
      (ha : c.run.get a.id = none) :
      Move env now may c (c.set (stillborn (fresh a digest epoch now) error now))
  /-- A child is admitted under a live parent. -/
  | bear {c : Core} {p : StoredRun} (a : Admission) (digest : String) (epoch : Option Nat)
      (link : ChildLink) (ha : c.run.get a.id = none) (hp : c.run.get p.id = some p)
      (hlink : link.parent = p.id) (hr : p.run.state = .running)
      (hawaits : p.awaits.contains ("done:" ++ a.id) = true)
      (hlistener : p.listeners.get ("child:" ++ a.id) = some ["done:" ++ a.id]) :
      Move env now may c (c.set (linked (fresh a digest epoch now) link (p.run.root.getD p.id)))
  | rewrite {c : Core} {s s' : StoredRun} (hs : c.run.get s.id = some s) (h : Rewrite c now may s s') :
      Move env now may c (c.set s')
  | record {c : Core} {s : StoredRun} (k : String) (r : Record) (hs : c.run.get s.id = some s)
      (hr : s.run.state = .running) (hev : s.evidence = true)
      (hk : Recorded ((c.record s.id).get k) r) (hkey : may s.id (.record k r))
      (hmay : committedElsewhere r = none ∨ (c.record s.id).get k = some r ∨ may s.id .spend) :
      Move env now may c (c.setRecord s.id k r)
  /-- A CloudEvent arrives. -/
  | accept {c : Core} {s : StoredRun} (e : StoredEvent) (hs : c.run.get s.id = some s)
      (hl : s.run.endedMs = none) (he : Acceptable env now e)
      (hi : ∀ i, identityOf e = some i → (c.eventId s.id).get i = none)
      (hn : s.accepted < u64Max) (hmay : may s.id (.accept e.type_ e.delivered)) :
      Move env now may c ((putPendingRows (putCopy c s.id s.accepted e) s.id s.accepted e).set
        (counted (if wanted s e now then wakeBy s now else s) e))
  /-- A child's notice arrives. -/
  | notify {c : Core} {s : StoredRun} (t : String) (data : Json) (hs : c.run.get s.id = some s)
      (hl : s.run.endedMs = none) (ha : s.awaits.contains t = true)
      (hp : s.pending.contains t = false) (hr : Reports c s.id t data) (hn : s.accepted < u64Max) :
      Move env now may c
        ((putPendingRows (putCopy c s.id s.accepted (notice t data now)) s.id s.accepted
          (notice t data now)).set
          (counted (if wakes s t false then { s with run := { s.run with wakeAtMs := now } } else s)
            (notice t data now)))
  /-- A mailbox copy past its time is consumed by its expiry record. -/
  | expire {c : Core} {s : StoredRun} (n : Nat) (e : StoredEvent) (at_ : Int) (taken : Json)
      (hs : c.run.get s.id = some s) (hl : s.run.endedMs = none)
      (hx : (c.expiry s.id).get (toLex (at_, n)) = some (at_, n)) (hat : at_ ≤ now)
      (he : (c.event s.id).get n = some e) :
      Move env now may c
        ((consumeRows (c.setRecord s.id (expiredKey n) (.expired taken)) s.id n e (expiredKey n)).set
          (refreshed (consumeRows c s.id n e (expiredKey n)) (uncounted s e)))
  /-- A listen takes the first copy it may. -/
  | take {c : Core} {s : StoredRun} (k : String) (types : List String) (n : Nat) (e : StoredEvent)
      (event : Json) (hs : c.run.get s.id = some s) (hr : s.run.state = .running)
      (hm : s.mailbox.all (fun at_ => decide (now < at_)) = true)
      (hk : Free c s.id k) (hn : candidate c s.id types = some n)
      (he : (c.event s.id).get n = some e) (hmay : may s.id (.take k types)) :
      Move env now may c
        (((consumeRows c s.id n e k).setRecord s.id k (.event event)).set
          (tookEvent (refreshed (consumeRows c s.id n e k) (uncounted (joined s e.type_) e)) k types))
  /-- An accepted answer is offered to wildcard listens too. -/
  | offer {c : Core} {s : StoredRun} (n : Nat) (e : StoredEvent) (hs : c.run.get s.id = some s)
      (hl : s.run.endedMs = none) (he : (c.event s.id).get n = some e)
      (hp : e.consumedKey = none) (hd : e.delivered = true) (hn : s.published < u64Max) :
      Move env now may c
        ((offerCopy c s.id n e).set (offering s now))
  | forget {c : Core} {s : StoredRun} (at_ : Int) (hs : c.run.get s.id = some s)
      (hl : s.run.endedMs = some at_) (hmay : may s.id (.forget at_)) :
      Move env now may c ((forgetRows c s.id).set (forgotten s))
  /-- A run ends with its live owned descendants. -/
  | finish {c : Core} {s : StoredRun} (status : Status) (spent : Nat) (ids : List String)
      (hs : c.run.get s.id = some s) (hl : s.run.endedMs = none) (ht : status.terminal = true)
      (hids : Subtree c s.id ids) (hmay : may s.id .finish) :
      Move env now may c
        ((c.set (ending s status spent now)).ended (ending · .cancelled spent now) ids)
  /-- A unit of the tree's budget is spent. -/
  | spend {c : Core} {s : StoredRun} (limit : Nat) (hs : c.run.get s.id = some s)
      (hr : s.run.state = .running) (hb : (c.budget.get (s.run.root.getD s.id)).getD 0 < limit)
      (hmay : may s.id .spend) :
      Move env now may c
        { c with
          budget := c.budget.put (s.run.root.getD s.id)
            ((c.budget.get (s.run.root.getD s.id)).getD 0 + 1) }
  /-- The budget counter goes with its root. -/
  | dropBudget {c : Core} {s : StoredRun} (hs : c.run.get s.id = some s)
      (hl : s.run.endedMs ≠ none) (hroot : s.run.root = none) :
      Move env now may c { c with budget := c.budget.delete s.id }

/-- A finite sequence of moves at one instant. -/
abbrev Path (env : Env) (now : Int) (may : String → Act → Prop) : Core → Core → Prop :=
  Relation.ReflTransGen (Move env now may)

theorem Rewrite.mono {c : Core} {now : Int} {may may' : String → Act → Prop} {s s' : StoredRun}
    (h : Rewrite c now may s s') (hmay : ∀ i a, may i a → may' i a) : Rewrite c now may' s s' := by
  cases h with
  | register types hr ha => exact .register types hr (hmay _ _ ha)
  | unregister k types hr ha => exact .unregister k types hr (hmay _ _ ha)
  | listen k types hr hn ha => exact .listen k types hr hn (hmay _ _ ha)
  | claim owner hc hg => exact .claim owner hc hg
  | renew hr => exact .renew hr
  | release hr => exact .release hr
  | park outcome hr ht => exact .park outcome hr ht
  | count n hr => exact .count n hr
  | subscribe k types hr => exact .subscribe k types hr
  | unsubscribe k hr => exact .unsubscribe k hr
  | describe k w hr => exact .describe k w hr
  | adopt child hr ha => exact .adopt child hr (hmay _ _ ha)
  | settle child ha hc => exact .settle child ha (hc.imp (hmay _ _) (hmay _ _))
  | mark annotations hr ha => exact .mark annotations hr (ha.imp id (hmay _ _))
  | hold h hl => exact .hold h hl

theorem Move.mono {env : Env} {now : Int} {may may' : String → Act → Prop} {c c' : Core}
    (h : Move env now may c c') (hmay : ∀ i a, may i a → may' i a) : Move env now may' c c' := by
  cases h with
  | rewrite hs h => exact .rewrite hs (h.mono hmay)
  | accept e hs hl he hi hn ha => exact .accept e hs hl he hi hn (hmay _ _ ha)
  | take k types n e event hs hr hm hk hn he ha =>
    exact .take k types n e event hs hr hm hk hn he (hmay _ _ ha)
  | finish status spent ids hs hl ht hids ha => exact .finish status spent ids hs hl ht hids (hmay _ _ ha)
  | admission a digest epoch trigger rearm ha hb =>
    exact .admission a digest epoch trigger rearm ha (hb.imp id (hmay _ _))
  | refuse a digest epoch error ha => exact .refuse a digest epoch error ha
  | bear a digest epoch link ha hp hlink hr hawaits hlistener =>
    exact .bear a digest epoch link ha hp hlink hr hawaits hlistener
  | record k r hs hr hev hk hkey ha =>
    exact .record k r hs hr hev hk (hmay _ _ hkey) (ha.imp id (.imp id (hmay _ _)))
  | notify t data hs hl ha hp hr hn => exact .notify t data hs hl ha hp hr hn
  | expire n e at_ taken hs hl hx hat he => exact .expire n e at_ taken hs hl hx hat he
  | offer n e hs hl he hp hd hn => exact .offer n e hs hl he hp hd hn
  | forget at_ hs hl ha => exact .forget at_ hs hl (hmay _ _ ha)
  | spend limit hs hr hb ha => exact .spend limit hs hr hb (hmay _ _ ha)
  | dropBudget hs hl hroot => exact .dropBudget hs hl hroot

/-- A path is one for every caller who may do more. -/
theorem Path.mono {env : Env} {now : Int} {may may' : String → Act → Prop} {c c' : Core}
    (h : Path env now may c c') (hmay : ∀ i a, may i a → may' i a) : Path env now may' c c' := by
  induction h with
  | refl => exact .refl
  | tail _ hmove ih => exact ih.tail (hmove.mono hmay)

end Ouro
