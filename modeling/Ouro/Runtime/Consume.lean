import Ouro.Ows.Events

/-!
# A schedule's `on` strategy and a listen

Two loops over the same consumer. A listen (`ows::run`, `Run::listen`) keeps one consumer over all the
events it takes. A schedule (`runtime::schedule`, `offer` and `consume`) keeps the events its strategy
wanted and replays them through a new consumer whenever another one is offered.

* `Kept.replay`: the replay of the wanted events reaches the listen's consumer;
* `schedule_listens_iff`: the two end alike on every sequence of events exactly when an `until`
  expression decides the same on the payloads as on what the schedule reads. The schedule evaluates it
  on the payloads (`Read::Data`) whatever it reads.
-/

namespace Ouro.Runtime

open Ows

/-- The `until` expression of a strategy. -/
def condition : Strategy → Option String
  | .any _ (some (.condition c)) => some c
  | _ => none

/-- How a sequence of events ends a strategy. -/
inductive Ended where
  | pending
  /-- At the `n`th event, with the events that belong to the output. -/
  | completed (n : Nat) (output : List Json)
  /-- At the `n`th event, by an expression that cannot be evaluated. -/
  | failed (n : Nat)
deriving DecidableEq

section

variable (eval : Eval) (strategy : Strategy) (mode : Read)

/-! ### The listen -/

/-- A listen's consumer and the events it consumed, which the output holds as `mode` reads them. -/
structure Listening where
  progress : Progress
  consumed : List Json

/-- One turn of the listen's loop. -/
def Listening.take (input : Json) (args : Args) (l : Listening) (event : Json) :
    Except String Listening :=
  match offer eval strategy l.progress event input args with
  | .error e => .error e
  | .ok (.consumed, p) =>
    match condition strategy with
    | none => .ok ⟨p, l.consumed ++ [event]⟩
    | some c =>
      match eval c (.arr ((l.consumed ++ [event]).map (read · mode))) args with
      | .error e => .error e
      | .ok v => .ok ⟨if truthy v then { p with done := true } else p, l.consumed ++ [event]⟩
  | .ok (.ignored, p) | .ok (.stopping, p) => .ok ⟨p, l.consumed⟩

/-- The listen's loop over the events after the first `n`. -/
def listenFrom (input : Json) (args : Args) (n : Nat) (l : Listening) : List Json → Ended
  | [] => if l.progress.done then .completed n l.consumed else .pending
  | event :: rest =>
    if l.progress.done then .completed n l.consumed
    else
      match l.take eval strategy mode input args event with
      | .error _ => .failed (n + 1)
      | .ok l => listenFrom input args (n + 1) l rest

/-- A listen fed a sequence of events. -/
def listen (input : Json) (args : Args) (events : List Json) : Ended :=
  listenFrom eval strategy mode input args 0 ⟨fresh strategy, []⟩ events

/-! ### The schedule -/

/-- A replay: its consumer, the events that belong to the output, and what became of the last event. -/
structure Replay where
  progress : Progress
  consumed : List Json
  last : Offer

/-- One event of a replay. -/
def Replay.take (r : Replay) (event : Json) : Except String Replay :=
  match offer eval strategy r.progress event .null [] with
  | .error e => .error e
  | .ok (.consumed, p) =>
    match condition strategy with
    | none => .ok ⟨p, r.consumed ++ [event], .consumed⟩
    | some c =>
      -- the condition sees the payloads
      match eval c (.arr ((r.consumed ++ [event]).map (read · .data))) [] with
      | .error e => .error e
      | .ok v =>
        .ok ⟨if truthy v then { p with done := true } else p, r.consumed ++ [event], .consumed⟩
  | .ok (o, p) => .ok ⟨p, r.consumed, o⟩

/-- Replays the events through the strategy: none when the last one is not wanted, else the events of
the output once it is complete. -/
def consume (events : List Json) : Except String (Option (Option (List Json))) :=
  match events.foldlM (Replay.take eval strategy) ⟨fresh strategy, [], .ignored⟩ with
  | .error e => .error e
  | .ok r =>
    if r.last = .ignored then .ok none
    else if r.progress.done then .ok (some (some r.consumed))
    else .ok (some none)

/-- The events after the first `n` offered one by one to a trigger that holds `kept`. -/
def scheduleFrom (n : Nat) (kept : List Json) : List Json → Ended
  | [] => .pending
  | event :: rest =>
    match consume eval strategy (kept ++ [event]) with
    | .error _ => .failed (n + 1)
    | .ok none => scheduleFrom (n + 1) kept rest
    | .ok (some none) => scheduleFrom (n + 1) (kept ++ [event]) rest
    | .ok (some (some consumed)) => .completed (n + 1) consumed

/-- A schedule offered a sequence of events. -/
def schedule (events : List Json) : Ended := scheduleFrom eval strategy 0 [] events

/-! ### The replay reaches the listen's consumer -/

/-- What the `until` expression says of the consumed events as `mode` reads them: whether they end the
strategy, none when it cannot be evaluated. -/
def verdict (consumed : List Json) : Option Bool :=
  match condition strategy with
  | none => some false
  | some c =>
    match eval c (.arr (consumed.map (read · mode))) [] with
    | .error _ => none
    | .ok v => some (truthy v)

/-- The events a schedule has kept, with the consumer and the output they lead to. -/
inductive Kept : List Json → Progress → List Json → Prop where
  | fresh : Kept [] (fresh strategy) []
  | stopping {l c : List Json} {p p' : Progress} {e : Json} : Kept l p c →
    offer eval strategy p e .null [] = .ok (.stopping, p') → p'.done = false →
      Kept (l ++ [e]) p' c
  | consumed {l c : List Json} {p p' : Progress} {e : Json} : Kept l p c →
    offer eval strategy p e .null [] = .ok (.consumed, p') → p'.done = false →
      verdict eval strategy .data (c ++ [e]) = some false → Kept (l ++ [e]) p' (c ++ [e])

variable {eval strategy mode} {p p' : Progress} {c l : List Json} {e : Json} {o : Offer}

/-- What the replay's turn does with an event the filters consume. -/
theorem Replay.take_consumed (r : Replay)
    (h : offer eval strategy r.progress e .null [] = .ok (.consumed, p')) :
    (∃ err, r.take eval strategy e = .error err ∧ verdict eval strategy .data (r.consumed ++ [e]) = none) ∨
      ∃ b, verdict eval strategy .data (r.consumed ++ [e]) = some b ∧ r.take eval strategy e =
        .ok ⟨if b then { p' with done := true } else p', r.consumed ++ [e], .consumed⟩ := by
  unfold Replay.take verdict
  rw [h]
  simp only
  cases condition strategy with
  | none => exact .inr ⟨false, rfl, rfl⟩
  | some c =>
    simp only
    cases hv : eval c (.arr ((r.consumed ++ [e]).map (read · .data))) [] with
    | error err => exact .inl ⟨err, rfl, rfl⟩
    | ok v => exact .inr ⟨truthy v, rfl, rfl⟩

/-- What the listen's turn does with an event the filters consume. -/
theorem Listening.take_consumed (mode : Read) (r : Listening)
    (h : offer eval strategy r.progress e .null [] = .ok (.consumed, p')) :
    (∃ err, r.take eval strategy mode .null [] e = .error err ∧
        verdict eval strategy mode (r.consumed ++ [e]) = none) ∨
      ∃ b, verdict eval strategy mode (r.consumed ++ [e]) = some b ∧
        r.take eval strategy mode .null [] e =
          .ok ⟨if b then { p' with done := true } else p', r.consumed ++ [e]⟩ := by
  unfold Listening.take verdict
  rw [h]
  simp only
  cases condition strategy with
  | none => exact .inr ⟨false, rfl, rfl⟩
  | some c =>
    simp only
    cases hv : eval c (.arr ((r.consumed ++ [e]).map (read · mode))) [] with
    | error err => exact .inl ⟨err, rfl, rfl⟩
    | ok v => exact .inr ⟨truthy v, rfl, rfl⟩

theorem replay_snoc {r s : Replay} (h : l.foldlM (Replay.take eval strategy) r = .ok s) :
    (l ++ [e]).foldlM (Replay.take eval strategy) r = s.take eval strategy e := by
  rw [List.foldlM_append, h]
  simp only [bind, Except.bind, List.foldlM_cons, List.foldlM_nil, pure, Except.pure]
  cases s.take eval strategy e <;> rfl

/-- The replay of the kept events reaches the consumer they led to. -/
theorem Kept.replay (h : Kept eval strategy l p c) :
    ∃ o, l.foldlM (Replay.take eval strategy) ⟨Ows.fresh strategy, [], .ignored⟩ = .ok ⟨p, c, o⟩ := by
  induction h with
  | fresh => exact ⟨.ignored, rfl⟩
  | stopping _ hoff _ ih =>
    obtain ⟨o, ho⟩ := ih
    refine ⟨.stopping, ?_⟩
    rw [replay_snoc ho]
    simp only [Replay.take, hoff]
  | consumed _ hoff _ hv ih =>
    obtain ⟨o, ho⟩ := ih
    refine ⟨.consumed, ?_⟩
    rw [replay_snoc ho]
    rcases Replay.take_consumed ⟨_, _, o⟩ hoff with ⟨err, _, hnone⟩ | ⟨b, hb, htake⟩
    · exact absurd (hv.symm.trans hnone) (by simp)
    · rw [Option.some.inj (hb.symm.trans hv)] at htake
      exact htake

theorem Kept.open_ (h : Kept eval strategy l p c) : p.done = false := by
  cases h with
  | fresh =>
    induction strategy using Strategy.induct <;> rfl
  | stopping _ _ h => exact h
  | consumed _ _ h _ => exact h

/-! ### One offer to each -/

/-- How the strategy ends by an event the filters consume, when the `until` expression says `b`. -/
def settle (n : Nat) (output : List Json) (rest : Ended) (done : Bool) : Option Bool → Ended
  | none => .failed n
  | some true => .completed n output
  | some false => if done then .completed n output else rest

/-- How an answer to the `n`th event ends the strategy, or goes on when it does not. -/
def answer (n : Nat) (c : List Json) (e : Json) (decided : Option Bool) (ignored : Ended)
    (stopping consumed : Progress → Ended) : Except String (Offer × Progress) → Ended
  | .error _ => .failed n
  | .ok (.ignored, _) => ignored
  | .ok (.stopping, p) => settle n c (stopping p) p.done (some false)
  | .ok (.consumed, p) => settle n (c ++ [e]) (consumed p) p.done decided

/-- A schedule that has kept `l` offers an event to the consumer they led to. -/
theorem Kept.schedule_cons (h : Kept eval strategy l p c) (n : Nat) (e : Json) (rest : List Json) :
    scheduleFrom eval strategy n l (e :: rest) =
      answer (n + 1) c e (verdict eval strategy .data (c ++ [e]))
        (scheduleFrom eval strategy (n + 1) l rest)
        (fun _ => scheduleFrom eval strategy (n + 1) (l ++ [e]) rest)
        (fun _ => scheduleFrom eval strategy (n + 1) (l ++ [e]) rest)
        (offer eval strategy p e .null []) := by
  obtain ⟨o, ho⟩ := h.replay
  rw [scheduleFrom, consume, replay_snoc ho]
  cases hoff : offer eval strategy p e .null [] with
  | error err => simp only [Replay.take, hoff, answer]
  | ok r =>
    obtain ⟨o', p'⟩ := r
    cases o' with
    | ignored => simp only [Replay.take, hoff, if_true, answer]
    | stopping =>
      cases hd : p'.done <;> simp [Replay.take, hoff, hd, answer, settle]
    | consumed =>
      rcases Replay.take_consumed ⟨p, c, o⟩ hoff with ⟨err, htake, hv⟩ | ⟨b, hv, htake⟩
      · simp only [htake, hv, answer, settle]
      · cases b <;> cases hd : p'.done <;> simp [htake, hv, answer, settle, hd]

/-- The listen offers an event to its consumer. -/
theorem listen_cons (hp : p.done = false) (n : Nat) (e : Json) (rest : List Json) :
    listenFrom eval strategy mode .null [] n ⟨p, c⟩ (e :: rest) =
      answer (n + 1) c e (verdict eval strategy mode (c ++ [e]))
        (listenFrom eval strategy mode .null [] (n + 1) ⟨p, c⟩ rest)
        (fun p' => listenFrom eval strategy mode .null [] (n + 1) ⟨p', c⟩ rest)
        (fun p' => listenFrom eval strategy mode .null [] (n + 1) ⟨p', c ++ [e]⟩ rest)
        (offer eval strategy p e .null []) := by
  -- A consumer that is done takes no more events.
  have hdone : ∀ {q : Progress} {c : List Json}, q.done = true →
      listenFrom eval strategy mode .null [] (n + 1) ⟨q, c⟩ rest = .completed (n + 1) c := by
    intro q c hq
    cases rest <;> simp [listenFrom, hq]
  rw [listenFrom, if_neg (by simp [hp])]
  -- What the consumer says of the event, case by case as the listen has it.
  cases hoff : offer eval strategy p e .null [] with
  | error err => simp only [Listening.take, hoff, answer]
  | ok r =>
    obtain ⟨o', p'⟩ := r
    cases o' with
    | ignored =>
      simp only [Listening.take, hoff, answer]
      rw [offer_ignored eval hoff]
    | stopping =>
      simp only [Listening.take, hoff, answer, settle]
      split
      · next hd => exact hdone hd
      · rfl
    | consumed =>
      rcases Listening.take_consumed mode ⟨p, c⟩ hoff with
        ⟨err, htake, hv⟩ | ⟨b, hv, htake⟩
      · simp only [htake, hv, answer, settle]
      · cases b with
        | true =>
          simp only [htake, hv, answer, settle, if_true]
          exact hdone rfl
        | false =>
          simp only [htake, hv, answer, settle, Bool.false_eq_true, if_false]
          split
          · next hd => exact hdone hd
          · rfl

/-! ### Both end alike -/

/-- The `until` expression decides the same on the payloads as on what `mode` reads, of every list of
events that the filters take in turn and that it has not ended before. -/
def Agrees (eval : Eval) (strategy : Strategy) (mode : Read) : Prop :=
  ∀ {l c : List Json} {p p' : Progress} {e : Json}, Kept eval strategy l p c →
    offer eval strategy p e .null [] = .ok (.consumed, p') →
      verdict eval strategy .data (c ++ [e]) = verdict eval strategy mode (c ++ [e])

theorem Kept.listens (hag : Agrees eval strategy mode) (h : Kept eval strategy l p c) (n : Nat)
    (rest : List Json) :
    scheduleFrom eval strategy n l rest = listenFrom eval strategy mode .null [] n ⟨p, c⟩ rest := by
  -- Induction on the events to come; the schedule offers each through a replayed consumer.
  induction rest generalizing n l p c with
  | nil => rw [scheduleFrom, listenFrom, if_neg (by simp [h.open_])]
  | cons e rest ih =>
    rw [h.schedule_cons, listen_cons h.open_]
    -- Both ask the same consumer, and end on the same answer.
    cases hoff : offer eval strategy p e .null [] with
    | error err => rfl
    | ok r =>
      obtain ⟨o, p'⟩ := r
      cases o with
      | ignored => exact ih h (n + 1)
      | stopping =>
        simp only [answer, settle]
        split
        · rfl
        · next hd => exact ih (.stopping h hoff (by simpa using hd)) (n + 1)
      -- The condition decides alike on what the listen collected.
      | consumed =>
        simp only [answer]
        rw [← hag h hoff]
        cases hv : verdict eval strategy .data (c ++ [e]) with
        | none => rfl
        | some b =>
          cases b with
          | true => rfl
          | false =>
            simp only [settle]
            split
            · rfl
            · next hd => exact ih (.consumed h hoff (by simpa using hd) hv) (n + 1)

/-- Where the two end alike on every sequence, the kept events lead both to the same place. -/
theorem Kept.together
    (hall : ∀ events, schedule eval strategy events = listen eval strategy mode .null [] events)
    (h : Kept eval strategy l p c) (rest : List Json) :
    scheduleFrom eval strategy l.length l rest =
      listenFrom eval strategy mode .null [] l.length ⟨p, c⟩ rest := by
  -- Induction on the events kept: with one more of them, both have taken one step more.
  induction h generalizing rest with
  | fresh => exact hall rest
  | @stopping l c p p' e hk hoff hd ih =>
    have hboth := ih (e :: rest)
    rw [hk.schedule_cons, listen_cons hk.open_, hoff] at hboth
    simp only [answer, settle, hd, Bool.false_eq_true, if_false] at hboth
    simpa using hboth
  | @consumed l c p p' e hk hoff hd hv ih =>
    -- nothing more offered, the schedule waits, so the listen has to
    have hnow := ih [e]
    rw [hk.schedule_cons, listen_cons hk.open_, hoff] at hnow
    simp only [answer, settle, hv, hd, scheduleFrom, Bool.false_eq_true, if_false] at hnow
    have hmode : verdict eval strategy mode (c ++ [e]) = some false := by
      cases hm : verdict eval strategy mode (c ++ [e]) with
      | none =>
        rw [hm] at hnow
        exact absurd hnow (by simp)
      | some b =>
        cases b with
        | true =>
          rw [hm] at hnow
          exact absurd hnow (by simp)
        | false => rfl
    have hboth := ih (e :: rest)
    rw [hk.schedule_cons, listen_cons hk.open_, hoff] at hboth
    simp only [answer, settle, hv, hmode, hd, Bool.false_eq_true, if_false] at hboth
    simpa using hboth

/-- Only the `until` expression ends an `any` that has one. -/
theorem open_of_condition {cond : String} (hc : condition strategy = some cond)
    (h : offer eval strategy p e .null [] = .ok (.consumed, p')) : p'.done = false := by
  cases strategy with
  | one f => exact absurd hc (by simp [condition])
  | all fs => exact absurd hc (by simp [condition])
  | any fs stop =>
    cases stop with
    | none => exact absurd hc (by simp [condition])
    | some u =>
      cases u with
      | events s => exact absurd hc (by simp [condition])
      | condition c =>
        unfold offer offerAny at h
        split at h
        · exact absurd h (by simp)
        · simp only at h
          split at h
          · simp only [Except.ok.injEq, Prod.mk.injEq, true_and] at h
            rw [← h]
          · split at h
            · exact absurd h (by simp)
            · simp only [Except.ok.injEq, Prod.mk.injEq, true_and] at h
              rw [← h]
            · exact absurd h (by simp)

/-- Failing, completing and going on are different ends. -/
theorem settle_injective (n : Nat) (output : List Json) :
    Function.Injective (settle n output .pending false) := by
  intro a b h
  rcases a with _ | _ | _ <;> rcases b with _ | _ | _ <;> simp [settle] at h ⊢

/-- A schedule ends like the listen with its strategy and read mode, on every sequence of events,
exactly when an `until` expression decides the same on the payloads as on what is read. -/
theorem schedule_listens_iff (eval : Eval) (strategy : Strategy) (mode : Read) :
    (∀ events, schedule eval strategy events = listen eval strategy mode .null [] events) ↔
      Agrees eval strategy mode := by
  constructor
  · intro hall l c p p' e hk hoff
    cases hc : condition strategy with
    | none => simp only [verdict, hc]
    | some cond =>
      have hnow := hk.together hall [e]
      rw [hk.schedule_cons, listen_cons hk.open_, hoff] at hnow
      simp only [answer, scheduleFrom, listenFrom, open_of_condition hc hoff, Bool.false_eq_true,
        if_false] at hnow
      exact settle_injective _ _ hnow
  · intro hag events
    exact Kept.listens hag .fresh 0 events

end

/-- jq's test for a consumed event of the type `stop`. -/
def anyStop : Eval := fun _ v _ =>
  match v with
  | .arr items => .ok (.bool (items.any fun item => item.get? "type" = some (.str "stop")))
  | _ => .error "cannot iterate"

/-- The condition on the envelopes that ends a listen is never true of the payloads. -/
theorem envelope_condition_missed :
    ¬ ∀ (eval : Eval) (strategy : Strategy) (mode : Read) (events : List Json),
      schedule eval strategy events = listen eval strategy mode .null [] events := by
  intro h
  have hends := h anyStop (.any [] (some (.condition "any(.type == \"stop\")"))) .envelope
    [.obj [("type", .str "stop")]]
  exact absurd hends (by decide)

end Ouro.Runtime
