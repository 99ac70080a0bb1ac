import Ouro.Ows.Events
import Ouro.Durable.Types
import Ouro.Lib.Duration

/-!
# Delays between attempts

`retryDelay` is the delay before the next attempt of a `try`: the policy's delay, grown by its backoff,
and the middle of its jitter. There is none when a guard refuses the error, when the attempts are used up
and when the delay would end after the policy's limit.

Durations are spans of whole milliseconds that 64 bits hold, and growth stops at the longest duration. The
sums do not: the jitter is added to what may be the longest duration, and so is the time since the first
attempt. A sum that does not fit ends the program (`Stop.overflow`). `retry_delay_iff` says for which
policies, attempts and times none is made.
-/

namespace Ouro

open Lib

namespace Ows

/-- Why there is no delay and no decision against one. -/
inductive Stop (φ : Type) where
  | fault (f : φ)
  /-- A panic: the result of an addition does not fit. -/
  | overflow
deriving DecidableEq

/-- A duration of a definition, in milliseconds or as an expression for one. -/
inductive DurationSpec where
  | fixed (ms : UInt64)
  | expr (code : String)

inductive Backoff where
  | constant
  | linear
  | exponential

/-- A policy, but for the duration of each attempt. -/
structure Retry where
  when_ : Option String
  exceptWhen : Option String
  delay : Option DurationSpec
  backoff : Backoff
  attempts : Option UInt32
  duration : Option DurationSpec
  jitter : Option (DurationSpec × DurationSpec)

/-- The number of an attempt; the first one has the number one. -/
abbrev AttemptNumber : Type := { n : UInt32 // 0 < n.toNat }

/-- `2u32.saturating_pow(n)`. -/
def powTwo (n : Nat) : UInt32 := UInt32.ofNat (min (2 ^ n) u32Max)

/-- How often the delay of an attempt counts. -/
def Backoff.factor : Backoff → AttemptNumber → UInt32
  | .constant, _ => 1
  | .linear, attempt => attempt.1
  | .exponential, attempt => powTwo (attempt.1.toNat - 1)

/-- What a decision reads of its host. -/
structure Deciding (φ : Type) where
  eval : Eval
  /-- The fault of an expression. -/
  expression : String → φ
  /-- A value as a message shows it. -/
  display : Json → String
  /-- The milliseconds of an ISO 8601 duration. -/
  parseIsoDuration : String → Option UInt64
  maxAttempts : UInt32
  nowMs : Int64

namespace Deciding

section

variable {φ : Type} (d : Deciding φ) (input : Json) (args : Args)

/-- The value of an expression. -/
def value (code : String) : Except (Stop φ) Json :=
  (d.eval code input args).mapError fun e => .fault (d.expression e)

/-- `when` holds and `exceptWhen` does not. -/
def guards (when_ exceptWhen : Option String) : Except (Stop φ) Bool := do
  let refused ← when_.elim (pure false) fun code => (!truthy ·) <$> d.value input args code
  if refused then return false
  let excepted ← exceptWhen.elim (pure false) fun code => truthy <$> d.value input args code
  return !excepted

def duration : DurationSpec → Except (Stop φ) Duration
  | .fixed ms => pure (.ofMillis ms)
  | .expr code => do
    match ← d.value input args code with
    | .str s =>
      match d.parseIsoDuration s with
      | some ms => pure (.ofMillis ms)
      | none =>
        throw (.fault (d.expression ("`" ++ s ++ "` is not an ISO 8601 duration (e.g. PT30S)")))
    | other =>
      throw (.fault (d.expression
        ("a duration expression must produce an ISO 8601 string, got " ++ d.display other)))

/-- `+`, which panics when the sum does not fit. -/
def add (a b : Duration) : Except (Stop φ) Duration := (a.checkedAdd b).elim (throw .overflow) pure

/-- The time since the first attempt began. -/
def elapsed (began : Int64) : Duration :=
  .ofMillis (UInt64.ofNat (satSub d.nowMs.toInt began.toInt).toNat)

/-- The delay of a policy without one is none at all. -/
def base (retry : Retry) : Except (Stop φ) Duration :=
  retry.delay.elim (pure .zero) (d.duration input args)

/-- The attempts are used up. -/
def usedUp (retry : Retry) (attempt : AttemptNumber) : Bool :=
  decide (min (retry.attempts.getD d.maxAttempts) d.maxAttempts ≤ attempt.1)

/-- The bounds of the jitter; without one both are zero. -/
def bounds (retry : Retry) : Except (Stop φ) (Duration × Duration) :=
  retry.jitter.elim (pure (.zero, .zero)) fun jitter => do
    let from_ ← d.duration input args jitter.1
    let to_ ← d.duration input args jitter.2
    return (from_, to_)

/-- The delay with the middle of the jitter added. -/
def jittered (retry : Retry) (delay : Duration) : Except (Stop φ) Duration := do
  let (from_, to_) ← d.bounds input args retry
  if retry.jitter.isSome then
    let sum ← add from_ to_
    add delay sum.half
  else return delay

/-- The delay, unless it ends after the limit of the policy. -/
def limited (retry : Retry) (began : Int64) (delay : Duration) : Except (Stop φ) (Option Duration) :=
  retry.duration.elim (pure (some delay)) fun limit => do
    let total ← add (d.elapsed began) delay
    let limit ← d.duration input args limit
    return if limit < total then none else some delay

/-- The delay before the attempt after `attempt`, or `none` when the policy or the host's ceiling says to
stop. -/
def retryDelay (retry : Retry) (attempt : AttemptNumber) (began : Int64) :
    Except (Stop φ) (Option Duration) := do
  let going ← d.guards input args retry.when_ retry.exceptWhen
  if !going then return none
  if d.usedUp retry attempt then return none
  let base ← d.base input args retry
  let delay ← d.jittered input args retry (base.saturatingMul (retry.backoff.factor attempt))
  d.limited input args retry began delay

end

/-! ### Steps that do not fit -/

section

variable {φ α β : Type}

/-- A sequence of steps overflows where one of them does. -/
theorem bind_overflow {x : Except (Stop φ) α} {f : α → Except (Stop φ) β} :
    x >>= f = .error .overflow ↔ x = .error .overflow ∨ ∃ a, x = .ok a ∧ f a = .error .overflow := by
  cases x with
  | error e =>
    change (Except.error e : Except (Stop φ) β) = .error .overflow ↔ _
    simp
  | ok a =>
    change f a = .error .overflow ↔ _
    simp

theorem bind_ok {x : Except (Stop φ) α} {f : α → Except (Stop φ) β} {b : β} :
    x >>= f = .ok b ↔ ∃ a, x = .ok a ∧ f a = .ok b := by
  cases x with
  | error e =>
    change (Except.error e : Except (Stop φ) β) = .ok b ↔ _
    simp
  | ok a =>
    change f a = .ok b ↔ _
    simp

theorem pure_ne_overflow (a : α) : (pure a : Except (Stop φ) α) ≠ .error .overflow := by
  intro h
  cases h

theorem add_overflow {a b : Duration} :
    (add a b : Except (Stop φ) Duration) = .error .overflow ↔ Duration.max.nanos < a.nanos + b.nanos := by
  rw [← Duration.checkedAdd_eq_none, add]
  cases a.checkedAdd b with
  | none => exact iff_of_true rfl rfl
  | some c => exact iff_of_false (pure_ne_overflow c) (Option.some_ne_none c)

theorem add_ok {a b c : Duration} :
    (add a b : Except (Stop φ) Duration) = .ok c ↔ c.nanos = a.nanos + b.nanos := by
  rw [← Duration.checkedAdd_eq_some, add]
  cases a.checkedAdd b with
  | none => exact iff_of_false (fun h => by cases h) (Option.some_ne_none c).symm
  | some x => exact ⟨fun h => congrArg some (Except.ok.inj h), fun h => congrArg Except.ok (Option.some.inj h)⟩

end

section

variable {φ : Type} {d : Deciding φ} {input : Json} {args : Args} {retry : Retry}

theorem value_ne_overflow (code : String) : d.value input args code ≠ .error .overflow := by
  unfold value
  cases d.eval code input args <;> simp [Except.mapError]

theorem guards_ne_overflow (when_ exceptWhen : Option String) :
    d.guards input args when_ exceptWhen ≠ .error .overflow := by
  have hguard (guard : Option String) (f : Json → Bool) :
      (guard.elim (pure false) fun code => f <$> d.value input args code : Except (Stop φ) Bool) ≠
        .error .overflow := by
    cases guard with
    | none => exact pure_ne_overflow false
    | some code =>
      change f <$> d.value input args code ≠ _
      rw [map_eq_pure_bind, Ne, bind_overflow, not_or]
      refine ⟨value_ne_overflow code, ?_⟩
      rintro ⟨a, -, h⟩
      exact pure_ne_overflow (f a) h
  -- the first guard, and then, if it lets the error pass, the second
  unfold guards
  rw [Ne, bind_overflow, not_or]
  refine ⟨hguard _ _, ?_⟩
  rintro ⟨refused, -, h⟩
  split at h
  · exact pure_ne_overflow _ h
  · obtain h | ⟨excepted, -, h⟩ := bind_overflow.mp h
    · exact hguard _ _ h
    · exact pure_ne_overflow _ h

theorem duration_ne_overflow (spec : DurationSpec) :
    d.duration input args spec ≠ .error .overflow := by
  cases spec with
  | fixed ms => exact pure_ne_overflow _
  | expr code =>
    unfold duration
    rw [Ne, bind_overflow, not_or]
    refine ⟨value_ne_overflow code, ?_⟩
    rintro ⟨v, -, h⟩
    split at h
    · split at h
      · exact pure_ne_overflow _ h
      · cases h
    · cases h

/-- A duration is a number of milliseconds that 64 bits hold. -/
theorem duration_ok {spec : DurationSpec} {x : Duration} (h : d.duration input args spec = .ok x) :
    ∃ ms, x = .ofMillis ms := by
  cases spec with
  | fixed ms => exact ⟨ms, (Except.ok.inj h).symm⟩
  | expr code =>
    obtain ⟨v, -, h⟩ := bind_ok.mp h
    split at h
    · split at h
      · next ms _ => exact ⟨ms, (Except.ok.inj h).symm⟩
      · cases h
    · cases h

theorem base_ne_overflow : d.base input args retry ≠ .error .overflow := by
  unfold base
  cases retry.delay with
  | none => exact pure_ne_overflow _
  | some spec => exact duration_ne_overflow spec

theorem bounds_ne_overflow : d.bounds input args retry ≠ .error .overflow := by
  unfold bounds
  cases retry.jitter with
  | none => exact pure_ne_overflow _
  | some jitter =>
    change (d.duration input args jitter.1 >>= _) ≠ _
    rw [Ne, bind_overflow, not_or]
    refine ⟨duration_ne_overflow _, ?_⟩
    rintro ⟨from_, -, h⟩
    obtain h | ⟨to_, -, h⟩ := bind_overflow.mp h
    · exact duration_ne_overflow _ h
    · exact pure_ne_overflow _ h

/-- The bounds of the jitter are short enough to be added. -/
theorem bounds_fit {from_ to_ : Duration} (h : d.bounds input args retry = .ok (from_, to_)) :
    from_.nanos + to_.nanos ≤ Duration.max.nanos := by
  unfold bounds at h
  cases hjitter : retry.jitter with
  | none =>
    rw [hjitter] at h
    obtain ⟨rfl, rfl⟩ := Prod.mk.inj (Except.ok.inj h)
    exact Nat.zero_le _
  -- each bound is a number of milliseconds that 64 bits hold
  | some jitter =>
    rw [hjitter] at h
    obtain ⟨x, hx, h⟩ := bind_ok.mp h
    obtain ⟨y, hy, h⟩ := bind_ok.mp h
    obtain ⟨rfl, rfl⟩ := Prod.mk.inj (Except.ok.inj h)
    obtain ⟨m, rfl⟩ := duration_ok hx
    obtain ⟨n, rfl⟩ := duration_ok hy
    have hm := m.toNat_lt
    have hn := n.toNat_lt
    change m.toNat * 10 ^ 6 + n.toNat * 10 ^ 6 ≤ 2 ^ 64 * 10 ^ 9 - 1
    omega

/-- The delay with the middle of the jitter, when it fits; the addition panics when it does not. -/
theorem jittered_cases (delay : Duration) {from_ to_ : Duration}
    (hbounds : d.bounds input args retry = .ok (from_, to_)) :
    (Duration.max.nanos < delay.nanos + (from_.nanos + to_.nanos) / 2 ∧
        d.jittered input args retry delay = .error .overflow) ∨
      ∃ x, d.jittered input args retry delay = .ok x ∧
        x.nanos = delay.nanos + (from_.nanos + to_.nanos) / 2 := by
  -- The two bounds together fit, so their sum is exact.
  have hfit := bounds_fit hbounds
  obtain ⟨sum, hnanos⟩ : ∃ sum : Duration, sum.nanos = from_.nanos + to_.nanos :=
    ⟨⟨_, hfit.trans_lt Duration.max.fits⟩, rfl⟩
  have hadd : (add from_ to_ : Except (Stop φ) Duration) = .ok sum := add_ok.mpr hnanos
  have hread : d.jittered input args retry delay =
      if retry.jitter.isSome then add delay sum.half else pure delay := by
    unfold jittered
    rw [hbounds]
    change (if retry.jitter.isSome then add from_ to_ >>= _ else pure delay) = _
    rw [hadd]
    rfl
  -- What is added is half of the sum, or nothing.
  rw [hread, ← hnanos]
  cases hjitter : retry.jitter with
  | none =>
    -- without a jitter both bounds are zero
    unfold bounds at hbounds
    rw [hjitter] at hbounds
    obtain ⟨rfl, rfl⟩ := Prod.mk.inj (Except.ok.inj hbounds)
    refine .inr ⟨delay, rfl, ?_⟩
    rw [hnanos]
    rfl
  -- The addition, which is checked.
  | some jitter =>
    change (_ < delay.nanos + sum.half.nanos ∧ add delay sum.half = _) ∨ ∃ x, add delay sum.half = _ ∧ _
    cases h : (add delay sum.half : Except (Stop φ) Duration) with
    | ok x => exact .inr ⟨x, rfl, add_ok.mp h⟩
    | error e =>
      have hnone : delay.checkedAdd sum.half = none := by
        cases hsome : delay.checkedAdd sum.half with
        | none => rfl
        | some x =>
          rw [add, hsome] at h
          cases h
      have hlt := (Duration.checkedAdd_eq_none _ _).mp hnone
      exact .inl ⟨hlt, h ▸ add_overflow.mpr hlt⟩

theorem limited_overflow {began : Int64} {delay : Duration} :
    d.limited input args retry began delay = .error .overflow ↔
      retry.duration.isSome = true ∧ Duration.max.nanos < (d.elapsed began).nanos + delay.nanos := by
  unfold limited
  cases retry.duration with
  | none => exact iff_of_false (pure_ne_overflow _) (by simp)
  | some limit =>
    rw [Option.elim_some, bind_overflow, add_overflow]
    refine ⟨fun h => ⟨rfl, h.resolve_right ?_⟩, fun h => .inl h.2⟩
    rintro ⟨total, -, h⟩
    obtain h | ⟨limit, -, h⟩ := bind_overflow.mp h
    · exact duration_ne_overflow _ h
    · exact pure_ne_overflow _ h

theorem limited_ok {began : Int64} {delay x : Duration}
    (h : d.limited input args retry began delay = .ok (some x)) : x = delay := by
  unfold limited at h
  -- without a limit the delay is what was computed; with one it is that or nothing
  cases hlimit : retry.duration with
  | none =>
    rw [hlimit] at h
    exact (Option.some.inj (Except.ok.inj h)).symm
  | some limit =>
    rw [hlimit, Option.elim_some] at h
    obtain ⟨total, -, h⟩ := bind_ok.mp h
    obtain ⟨limit', -, h⟩ := bind_ok.mp h
    have h' := Except.ok.inj h
    split at h'
    · cases h'
    · exact (Option.some.inj h').symm

end

end Deciding

/-! ### Decisions that are made -/

section

variable {φ : Type} (d : Deciding φ) (input : Json) (args : Args) (retry : Retry)
  (attempt : AttemptNumber) (began : Int64)

/-- A decision is made without a panic, and a delay is no shorter than the policy's. -/
def Decides : Prop :=
  d.retryDelay input args retry attempt began ≠ .error .overflow ∧
    ∀ base delay, d.base input args retry = .ok base →
      d.retryDelay input args retry attempt began = .ok (some delay) → base ≤ delay

/-- Where a delay is computed, the grown delay, which is at most the longest duration, leaves room for
the middle of the jitter, and under a limit for the time since the first attempt as well. -/
def Fits : Prop :=
  d.guards input args retry.when_ retry.exceptWhen = .ok true → d.usedUp retry attempt = false →
    ∀ base from_ to_, d.base input args retry = .ok base → d.bounds input args retry = .ok (from_, to_) →
      let delay := min (base.nanos * (retry.backoff.factor attempt).toNat) Duration.max.nanos +
        (from_.nanos + to_.nanos) / 2
      delay ≤ Duration.max.nanos ∧
        (retry.duration.isSome = true → (d.elapsed began).nanos + delay ≤ Duration.max.nanos)

end

theorem factor_pos (backoff : Backoff) (attempt : AttemptNumber) : 0 < (backoff.factor attempt).toNat := by
  cases backoff with
  | constant => exact Nat.one_pos
  | linear => exact attempt.2
  | exponential =>
    have hpow : 0 < 2 ^ (attempt.1.toNat - 1) := by positivity
    change 0 < (UInt32.ofNat _).toNat
    rw [UInt32.toNat_ofNat', u32Max]
    omega

/-- The steps of a decision that computes a delay. -/
theorem retryDelay_eq {φ : Type} {d : Deciding φ} {input : Json} {args : Args} {retry : Retry}
    {attempt : AttemptNumber} {began : Int64} {base : Duration}
    (hguard : d.guards input args retry.when_ retry.exceptWhen = .ok true)
    (hused : d.usedUp retry attempt = false) (hbase : d.base input args retry = .ok base) :
    d.retryDelay input args retry attempt began =
      d.jittered input args retry (base.saturatingMul (retry.backoff.factor attempt)) >>=
        d.limited input args retry began := by
  unfold Deciding.retryDelay
  rw [hguard]
  change (if d.usedUp retry attempt = true then pure none else d.base input args retry >>= _) = _
  rw [hused, hbase]
  rfl

/-- A decision computes a delay, or it says to stop, or an expression faults. -/
theorem retryDelay_cases {φ : Type} (d : Deciding φ) (input : Json) (args : Args) (retry : Retry)
    (attempt : AttemptNumber) (began : Int64) :
    (∃ base from_ to_, d.guards input args retry.when_ retry.exceptWhen = .ok true ∧
        d.usedUp retry attempt = false ∧ d.base input args retry = .ok base ∧
        d.bounds input args retry = .ok (from_, to_)) ∨
      d.retryDelay input args retry attempt began = .ok none ∨
      ∃ f, d.retryDelay input args retry attempt began = .error (.fault f) := by
  -- A fault of an expression, since none of these overflows.
  have hstop {α : Type} {x : Except (Stop φ) α} {e : Stop φ} (hx : x ≠ .error .overflow)
      (he : x = .error e) : ∃ f, e = .fault f := by
    cases e with
    | fault f => exact ⟨f, rfl⟩
    | overflow => exact absurd he hx
  -- In the order in which the policy is read: the guards, the attempts, the delay, the bounds.
  unfold Deciding.retryDelay
  cases hguard : d.guards input args retry.when_ retry.exceptWhen with
  | error e =>
    obtain ⟨f, rfl⟩ := hstop (Deciding.guards_ne_overflow _ _) hguard
    exact .inr (.inr ⟨f, rfl⟩)
  | ok going =>
    cases going with
    | false => exact .inr (.inl rfl)
    | true =>
      cases hused : d.usedUp retry attempt with
      | true => exact .inr (.inl rfl)
      | false =>
        cases hbase : d.base input args retry with
        | error e =>
          obtain ⟨f, rfl⟩ := hstop Deciding.base_ne_overflow hbase
          exact .inr (.inr ⟨f, rfl⟩)
        | ok base =>
          cases hbounds : d.bounds input args retry with
          | error e =>
            obtain ⟨f, rfl⟩ := hstop Deciding.bounds_ne_overflow hbounds
            refine .inr (.inr ⟨f, ?_⟩)
            change d.jittered input args retry _ >>= _ = _
            unfold Deciding.jittered
            rw [hbounds]
            rfl
          | ok bounds => exact .inl ⟨base, bounds.1, bounds.2, rfl, rfl, rfl, rfl⟩

/-- Evaluating a delay panics exactly when a sum does not fit: the growth stops at the longest duration,
and the jitter, or the time since the first attempt, comes on top of it. -/
theorem retry_delay_iff {φ : Type} (d : Deciding φ) (input : Json) (args : Args) (retry : Retry)
    (attempt : AttemptNumber) (began : Int64) :
    Decides d input args retry attempt began ↔ Fits d input args retry attempt began := by
  constructor
  -- No panic: neither sum was too long.
  · rintro ⟨hno, -⟩ hguard hused base from_ to_ hbase hbounds
    rw [retryDelay_eq hguard hused hbase, Ne, Deciding.bind_overflow, not_or] at hno
    obtain ⟨hjitter, hlimit⟩ := hno
    rw [← Duration.nanos_saturatingMul]
    obtain ⟨-, hover⟩ | ⟨x, hx, hnanos⟩ :=
      Deciding.jittered_cases (base.saturatingMul (retry.backoff.factor attempt)) hbounds
    · exact absurd hover hjitter
    · rw [← hnanos]
      refine ⟨Duration.le_max x, fun hsome => not_lt.mp fun hlt => hlimit ⟨x, hx, ?_⟩⟩
      exact Deciding.limited_overflow.mpr ⟨hsome, hlt⟩
  -- The sums fit: each of them is made, and the delay is no shorter than its base.
  · intro hfits
    obtain ⟨base, from_, to_, hguard, hused, hbase, hbounds⟩ | hstop | ⟨f, hfault⟩ :=
      retryDelay_cases d input args retry attempt began
    · obtain ⟨hfit, hlimit⟩ := hfits hguard hused base from_ to_ hbase hbounds
      rw [← Duration.nanos_saturatingMul] at hfit hlimit
      unfold Decides
      rw [retryDelay_eq hguard hused hbase]
      obtain ⟨hlt, -⟩ | ⟨x, hx, hnanos⟩ :=
        Deciding.jittered_cases (base.saturatingMul (retry.backoff.factor attempt)) hbounds
      · exact absurd hfit (not_le.mpr hlt)
      · rw [hx]
        change d.limited input args retry began x ≠ _ ∧ ∀ base' delay, _ →
          d.limited input args retry began x = _ → _
        constructor
        · intro hover
          obtain ⟨hsome, hlt⟩ := Deciding.limited_overflow.mp hover
          rw [← hnanos] at hlimit
          exact absurd (hlimit hsome) (not_le.mpr hlt)
        · intro base' delay hbase' hdelay
          obtain rfl := Except.ok.inj (hbase.symm.trans hbase')
          obtain rfl := Deciding.limited_ok hdelay
          have hgrown := Duration.le_saturatingMul base (factor_pos retry.backoff attempt)
          rw [Duration.le_iff] at hgrown ⊢
          omega
    -- A decision to stop makes no sum, and neither does a fault.
    · unfold Decides
      rw [hstop]
      constructor
      · intro h
        cases h
      · intro base delay _ h
        cases h
    · unfold Decides
      rw [hfault]
      constructor
      · intro h
        cases h
      · intro base delay _ h
        cases h

/-- The longest delay, doubled at each attempt and with a jitter of up to one second: the eleventh attempt
grows it to the longest duration, and nothing can be added to that. -/
theorem retry_delay_overflows :
    let d : Deciding String :=
      { eval := fun _ _ _ => .ok .null, expression := id, display := fun _ => "",
        parseIsoDuration := fun _ => none, maxAttempts := 20, nowMs := 0 }
    let retry : Retry :=
      { when_ := none, exceptWhen := none, delay := some (.fixed 18446744073709551615),
        backoff := .exponential, attempts := none, duration := none,
        jitter := some (.fixed 0, .fixed 1000) }
    d.retryDelay .null [] retry ⟨11, by decide⟩ 0 = .error .overflow := by
  rfl

end Ows

end Ouro
