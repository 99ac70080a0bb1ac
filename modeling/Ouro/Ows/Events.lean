import Ouro.Json
import Ouro.Lib.Table

/-!
# Event filters, consumption strategies and routing

CloudEvents in the workflow language (`ows::events`). A strategy is fed one event at a time: each
filter compares the event's attributes and correlates values of its envelope (`matches`), and the
consumer keeps what the strategy has seen so far (`offer`). A host learns from `routes` which event
types it has to offer.

Expressions are jq, run by a library; here evaluation is any function `eval`. A literal string is
also tried as a regular expression, which is an expression as well (`fullMatch`).

* `offer_ignored`: an event nobody wants leaves the progress as it was;
* `offer_taken`: an event somebody wants passes one of the strategy's filters;
* `routing_covers_iff`: for which `type` attributes routing offers every event that matching takes.
-/

namespace Ouro.Ows

open Lib

/-! ### Expressions -/

/-- The text without the white space around it. -/
def trim (s : String) : String :=
  String.ofList ((s.toList.dropWhile whiteSpace).reverse.dropWhile whiteSpace).reverse

/-- The jq inside `$\x7b … \x7d` when the whole (trimmed) text is one expression. -/
def strip (text : String) : Option String :=
  (stripPrefix (trim text) "$\x7b").bind fun r =>
    if r.toList.getLast? = some '\x7d' then some (trim (String.ofList r.toList.dropLast)) else none

/-- The variables an expression sees, in declaration order. -/
abbrev Args := List (String × Json)

/-- Binds `$name`; a later binding shadows. -/
def Args.set (args : Args) (name : String) (value : Json) : Args :=
  if args.any fun b => b.1 = "$" ++ name then
    args.map fun b => if b.1 = "$" ++ name then (b.1, value) else b
  else args ++ [("$" ++ name, value)]

/-- jq truthiness: everything but `false` and `null`. -/
def truthy : Json → Bool
  | .null | .bool false => false
  | _ => true

/-- How an expression is evaluated on a value under the variables in scope. -/
abbrev Eval := String → Json → Args → Except String Json

/-! ### The data of a strategy -/

/-- A correlation: the value `from_` extracts from the envelope, and what it has to be (a constant, or
an expression on the task input). -/
structure Correlation where
  from_ : String
  expect : Option String

/-- An event filter: attribute name and literal or expression, and the correlations. -/
structure EventFilter where
  with_ : List (String × Json)
  correlate : List (String × Correlation)

/-- What the filter asks of an attribute. -/
def EventFilter.attribute (f : EventFilter) (k : String) : Option Json :=
  (f.with_.find? fun m => m.1 == k).map Prod.snd

/-- What ends an `any` strategy: a condition on the events consumed so far, or the events another
strategy consumes. -/
inductive Until (S : Type) where
  | condition (c : String)
  | events (s : S)

/-- An event consumption strategy. -/
inductive Strategy where
  | one (f : EventFilter)
  /-- An empty list consumes any event. -/
  | any (filters : List EventFilter) (stop : Option (Until Strategy))
  | all (filters : List EventFilter)

/-- Induction over strategies: an `any` either ends without other events or by those of a smaller
strategy. -/
theorem Strategy.induct {P : Strategy → Prop} (one : ∀ f, P (.one f)) (all : ∀ fs, P (.all fs))
    (first : ∀ fs, P (.any fs none)) (condition : ∀ fs c, P (.any fs (some (.condition c))))
    (events : ∀ fs s, P s → P (.any fs (some (.events s)))) : ∀ s, P s
  | .one f => one f
  | .all fs => all fs
  | .any fs none => first fs
  | .any fs (some (.condition c)) => condition fs c
  | .any fs (some (.events s)) => events fs s (Strategy.induct one all first condition events s)

/-- How a consumed event is read. -/
inductive Read where
  | data
  | envelope
  | raw
deriving DecidableEq, Repr

/-- A consumed event as `read` asks for it. -/
def read (event : Json) : Read → Json
  | .data | .raw => (event.get? "data").getD .null
  | .envelope => event

/-! ### Filters -/

section Filters

variable (eval : Eval)

/-- Whether `text` is matched entirely by the regular expression `pattern`. -/
def fullMatch (pattern text : String) : Bool :=
  eval "test($p)" (.str text) (Args.set [] "p" (.str ("^(?:" ++ pattern ++ ")$"))) = .ok (.bool true)

mutual

/-- Whether an attribute of the event is what a filter expects. -/
def attributeMatches (args : Args) (expected actual : Json) : Except String Bool :=
  match expected with
  | .str s =>
    match strip s with
    | some code =>
      match eval code actual args with
      | .error e => .error e
      | .ok (.bool b) => .ok b
      | .ok other => .ok (other = actual)
    | none =>
      match actual with
      | .str a => .ok (a = s || fullMatch eval s a)
      | _ => .ok false
  | .obj fields =>
    match actual with
    | .obj _ => membersMatch args fields actual
    | _ => .ok false
  | other => .ok (other = actual)

/-- Whether each property of a literal object matches; all of them are evaluated. -/
def membersMatch (args : Args) (fields : List (String × Json)) (actual : Json) : Except String Bool :=
  match fields with
  | [] => .ok true
  | (k, v) :: rest => do
    let here ← attributeMatches args v ((actual.get? k).getD .null)
    let all ← membersMatch args rest actual
    pure (here && all)

end

/-- Whether the event has every attribute the filter asks for, up to the first it has not. -/
def attributesMatch (args : Args) (event : Json) : List (String × Json) → Except String Bool
  | [] => .ok true
  | (k, expected) :: rest =>
    match attributeMatches eval args expected ((event.get? k).getD .null) with
    | .error e => .error e
    | .ok true => attributesMatch args event rest
    | .ok false => .ok false

/-- The text of a number. -/
def Number.text : Number → String
  | .int n => toString n
  | .float token => token

/-- A string constant and an extracted scalar compare by their text. -/
def same (expected value : Json) : Bool :=
  expected = value ||
    match expected, value with
    | .str e, .num n => e = Number.text n
    | .str e, .bool b => e = toString b
    | _, _ => false

/-- The value a correlation has to have: its constant or expression, or the first value extracted. -/
def expected (args : Args) (input : Json) (expectations : Table String Json) (name : String)
    (c : Correlation) : Except String (Option Json) :=
  match c.expect with
  | some text =>
    match strip text with
    | some code => (eval code input args).map some
    | none => .ok (some (.str text))
  | none => .ok (expectations.get name)

/-- The values that the correlations extract for the first time; none when one of them differs from
what it has to be. -/
def correlated (args : Args) (event input : Json) (expectations : Table String Json) :
    List (String × Correlation) → Except String (Option (List (String × Json)))
  | [] => .ok (some [])
  | (name, c) :: rest => do
    let value ← eval c.from_ event args
    match ← expected eval args input expectations name c with
    | some e => if same e value then correlated args event input expectations rest else pure none
    | none =>
      let found ← correlated args event input expectations rest
      pure (found.map fun l => (name, value) :: l)

/-- Whether the event passes the filter (`matches`): the expectations it leaves, none when it does not
pass. -/
def filterMatches (f : EventFilter) (event input : Json) (args : Args)
    (expectations : Table String Json) : Except String (Option (Table String Json)) :=
  match attributesMatch eval args event f.with_ with
  | .error e => .error e
  | .ok false => .ok none
  | .ok true =>
    match correlated eval args event input expectations f.correlate with
    | .error e => .error e
    | .ok found => .ok (found.map (List.foldl (fun t m => t.put m.1 m.2) expectations))

end Filters

/-! ### Consumers -/

/-- What a consumer did with an offered event. -/
inductive Offer where
  /-- No filter wanted it. -/
  | ignored
  /-- It belongs to the output. -/
  | consumed
  /-- It counts towards stopping, not to the output. -/
  | stopping
deriving DecidableEq, Repr

/-- A strategy's progress over the events offered so far. -/
structure Progress where
  /-- Which filters of an `all` have had their event. -/
  filled : List Bool
  /-- The first value of each correlation, shared by the filters of one strategy. -/
  expectations : Table String Json
  /-- The progress of the strategy that ends an `any`. -/
  stop : Option Progress
  done : Bool

/-- The progress of a new consumer. -/
def fresh : Strategy → Progress
  | .all filters =>
    { filled := filters.map fun _ => false, expectations := .empty, stop := none, done := false }
  | .any _ (some (.events s)) =>
    { filled := [], expectations := .empty, stop := some (fresh s), done := false }
  | .one _ | .any _ none | .any _ (some (.condition _)) =>
    { filled := [], expectations := .empty, stop := none, done := false }

section Consumers

variable (eval : Eval)

/-- The first of the filters that the event passes: the expectations it leaves. -/
def firstMatch (event input : Json) (args : Args) (expectations : Table String Json) :
    List EventFilter → Except String (Option (Table String Json))
  | [] => .ok none
  | f :: rest =>
    match filterMatches eval f event input args expectations with
    | .error e => .error e
    | .ok (some t) => .ok (some t)
    | .ok none => firstMatch event input args expectations rest

/-- An event offered to the filters of an `all`, from the `i`th on: the first open filter it passes is
filled. -/
def offerAll (p : Progress) (event input : Json) (args : Args) :
    Nat → List EventFilter → Except String (Offer × Progress)
  | _, [] => .ok (.ignored, p)
  | i, f :: rest =>
    if p.filled.getD i true then offerAll p event input args (i + 1) rest
    else
      match filterMatches eval f event input args p.expectations with
      | .error e => .error e
      | .ok none => offerAll p event input args (i + 1) rest
      | .ok (some t) =>
        .ok (.consumed,
          { p with filled := p.filled.set i true, expectations := t,
                   done := (p.filled.set i true).all id })

/-- An event offered to the filters of an `any`, which are done with it when nothing else ends it. -/
def offerAny (p : Progress) (event input : Json) (args : Args) (filters : List EventFilter)
    (last : Bool) : Except String (Offer × Progress) :=
  if filters.isEmpty then .ok (.consumed, { p with done := last })
  else
    match firstMatch eval event input args p.expectations filters with
    | .error e => .error e
    | .ok (some t) => .ok (.consumed, { p with expectations := t, done := last })
    | .ok none => .ok (.ignored, p)

/-- Offers an event to a consumer of the strategy (`Consumer::offer`). -/
def offer (strategy : Strategy) (p : Progress) (event input : Json) (args : Args) :
    Except String (Offer × Progress) :=
  if p.done then .ok (.ignored, p)
  else
    match strategy with
    | .one f =>
      match filterMatches eval f event input args p.expectations with
      | .error e => .error e
      | .ok none => .ok (.ignored, p)
      | .ok (some t) => .ok (.consumed, { p with expectations := t, done := true })
    | .all filters => offerAll eval p event input args 0 filters
    | .any filters none => offerAny eval p event input args filters true
    | .any filters (some (.condition _)) => offerAny eval p event input args filters false
    | .any filters (some (.events s)) =>
      match p.stop with
      | none => offerAny eval p event input args filters false
      | some u =>
        -- the events that end it are looked for first
        match offer s u event input args with
        | .error e => .error e
        | .ok (.ignored, u') => offerAny eval { p with stop := some u' } event input args filters false
        | .ok (_, u') => .ok (.stopping, { p with stop := some u', done := u'.done })

theorem offerAll_ignored {p p' : Progress} {event input : Json} {args : Args} {i : Nat}
    {filters : List EventFilter}
    (h : offerAll eval p event input args i filters = .ok (.ignored, p')) : p' = p := by
  induction filters generalizing i with
  | nil =>
    simp only [offerAll, Except.ok.injEq, Prod.mk.injEq, true_and] at h
    exact h.symm
  | cons f rest ih =>
    rw [offerAll] at h
    split at h
    · exact ih h
    · split at h
      · exact absurd h (by simp)
      · exact ih h
      · exact absurd h (by simp)

theorem offerAny_ignored {p p' : Progress} {event input : Json} {args : Args}
    {filters : List EventFilter} {last : Bool}
    (h : offerAny eval p event input args filters last = .ok (.ignored, p')) : p' = p := by
  unfold offerAny at h
  split at h
  · exact absurd h (by simp)
  · split at h
    · exact absurd h (by simp)
    · exact absurd h (by simp)
    · simp only [Except.ok.injEq, Prod.mk.injEq, true_and] at h
      exact h.symm

/-- An event nobody wants leaves the progress as it was. -/
theorem offer_ignored {strategy : Strategy} {p p' : Progress} {event input : Json} {args : Args}
    (h : offer eval strategy p event input args = .ok (.ignored, p')) : p' = p := by
  -- Strategy by strategy; only `until` with a strategy of its own keeps a second progress.
  induction strategy using Strategy.induct generalizing p p' with
  | one f =>
    unfold offer at h
    split at h
    · simp only [Except.ok.injEq, Prod.mk.injEq, true_and] at h
      exact h.symm
    · simp only at h
      split at h
      · exact absurd h (by simp)
      · simp only [Except.ok.injEq, Prod.mk.injEq, true_and] at h
        exact h.symm
      · exact absurd h (by simp)
  -- All filters, or any of them.
  | all fs =>
    unfold offer at h
    split at h
    · simp only [Except.ok.injEq, Prod.mk.injEq, true_and] at h
      exact h.symm
    · exact offerAll_ignored eval h
  | first fs =>
    unfold offer at h
    split at h
    · simp only [Except.ok.injEq, Prod.mk.injEq, true_and] at h
      exact h.symm
    · exact offerAny_ignored eval h
  | condition fs c =>
    unfold offer at h
    split at h
    · simp only [Except.ok.injEq, Prod.mk.injEq, true_and] at h
      exact h.symm
    · exact offerAny_ignored eval h
  -- Until a strategy of its own.
  | events fs s ih =>
    unfold offer at h
    split at h
    · simp only [Except.ok.injEq, Prod.mk.injEq, true_and] at h
      exact h.symm
    · simp only at h
      split at h
      · exact offerAny_ignored eval h
      · next u hu =>
        split at h
        · exact absurd h (by simp)
        · next u' hs =>
          -- the inner strategy ignored it too, so its progress is the same
          have hp := offerAny_ignored eval h
          rw [hp, ih hs, ← hu]
          cases p
          rfl
        · next hs =>
          simp only [Except.ok.injEq, Prod.mk.injEq, reduceCtorEq, false_and] at h

/-- A progress that offers lead to. -/
inductive Reached (strategy : Strategy) : Progress → Prop where
  | fresh : Reached strategy (fresh strategy)
  | offer {p p' : Progress} {event input : Json} {args : Args} {o : Offer} :
    Reached strategy p → offer eval strategy p event input args = .ok (o, p') → Reached strategy p'

end Consumers

/-! ### Routing -/

/-- The filters whose events are routed to the strategy; none when it takes any event. -/
def Strategy.filters : Strategy → Option (List EventFilter)
  | .one f => some [f]
  | .all fs => some fs
  | .any [] _ => none
  | .any (f :: fs) (some (.events s)) => s.filters.map fun l => f :: fs ++ l
  | .any (f :: fs) none | .any (f :: fs) (some (.condition _)) => some (f :: fs)

/-- The characters that make a literal a regular expression; the dot is not one, types are dotted
names. -/
def metaCharacters : List Char :=
  ['\\', '^', '$', '*', '+', '?', '(', ')', '[', ']', '\x7b', '\x7d', '|']

/-- The type a filter's events are routed on; none for every published event. -/
def route (eval : Eval) (args : Args) (f : EventFilter) : Option String :=
  match f.attribute "type" with
  | some (.str t) =>
    match strip t with
    | some code =>
      match eval code .null args with
      | .ok (.str t) => if t = "" then none else some t
      | _ => none
    | none => if t.toList.any (metaCharacters.contains ·) then none else some t
  | _ => none

/-- The types of the filters after those in `out`. -/
def routesFrom (eval : Eval) (args : Args) (out : List String) : List EventFilter → List String
  | [] => out
  | f :: rest =>
    match route eval args f with
    | some t => routesFrom eval args (if t ∈ out then out else out ++ [t]) rest
    | none => ["*"]

/-- The event types a host routes to a listen. -/
def routes (eval : Eval) (strategy : Strategy) (args : Args) : List String :=
  match strategy.filters with
  | none => ["*"]
  | some filters => routesFrom eval args [] filters

/-! ### What is taken passes a filter -/

section Taken

variable (eval : Eval)

theorem attributesMatch_mem {args : Args} {event : Json} {l : List (String × Json)}
    (h : attributesMatch eval args event l = .ok true) {k : String} {v : Json} (hm : (k, v) ∈ l) :
    attributeMatches eval args v ((event.get? k).getD .null) = .ok true := by
  induction l with
  | nil => exact absurd hm (by simp)
  | cons m rest ih =>
    obtain ⟨j, w⟩ := m
    rw [attributesMatch] at h
    split at h
    · exact absurd h (by simp)
    · next hw =>
      rcases List.mem_cons.mp hm with heq | hrest
      · simp only [Prod.mk.injEq] at heq
        rw [heq.1, heq.2]
        exact hw
      · exact ih h hrest
    · exact absurd h (by simp)

/-- An event that passes a filter has each attribute the filter asks for. -/
theorem filterMatches_attribute {f : EventFilter} {event input : Json} {args : Args}
    {e t : Table String Json} (h : filterMatches eval f event input args e = .ok (some t))
    {k : String} {v : Json} (hv : f.attribute k = some v) :
    attributeMatches eval args v ((event.get? k).getD .null) = .ok true := by
  have hm : (k, v) ∈ f.with_ := by
    unfold EventFilter.attribute at hv
    rw [Option.map_eq_some_iff] at hv
    obtain ⟨⟨j, w⟩, hfind, rfl⟩ := hv
    have hj : j = k := by simpa using List.find?_some hfind
    rw [← hj]
    exact List.mem_of_find?_eq_some hfind
  unfold filterMatches at h
  split at h
  · exact absurd h (by simp)
  · exact absurd h (by simp)
  · next hall => exact attributesMatch_mem eval hall hm

/-- The event passes one of the filters. -/
def Passes (event input : Json) (args : Args) (filters : List EventFilter) : Prop :=
  ∃ f ∈ filters, ∃ e t, filterMatches eval f event input args e = .ok (some t)

variable {eval} {event input : Json} {args : Args}

theorem Passes.mono {l l' : List EventFilter} (h : Passes eval event input args l) (hl : l ⊆ l') :
    Passes eval event input args l' := by
  obtain ⟨f, hf, e, t, hm⟩ := h
  exact ⟨f, hl hf, e, t, hm⟩

theorem firstMatch_passes {e t : Table String Json} {filters : List EventFilter}
    (h : firstMatch eval event input args e filters = .ok (some t)) :
    Passes eval event input args filters := by
  induction filters with
  | nil => exact absurd h (by simp [firstMatch])
  | cons f rest ih =>
    rw [firstMatch] at h
    split at h
    · exact absurd h (by simp)
    · next t' hf => exact ⟨f, List.mem_cons_self, e, t', hf⟩
    · exact (ih h).mono (List.subset_cons_self f rest)

theorem offerAll_taken {p p' : Progress} {o : Offer} {i : Nat} {filters : List EventFilter}
    (h : offerAll eval p event input args i filters = .ok (o, p')) (ho : o ≠ .ignored) :
    Passes eval event input args filters := by
  induction filters generalizing i with
  | nil =>
    simp only [offerAll, Except.ok.injEq, Prod.mk.injEq] at h
    exact absurd h.1.symm ho
  | cons f rest ih =>
    rw [offerAll] at h
    split at h
    · exact (ih h).mono (List.subset_cons_self f rest)
    · split at h
      · exact absurd h (by simp)
      · exact (ih h).mono (List.subset_cons_self f rest)
      · next t hf => exact ⟨f, List.mem_cons_self, p.expectations, t, hf⟩

theorem offerAny_taken {p p' : Progress} {o : Offer} {f : EventFilter} {fs : List EventFilter}
    {last : Bool} (h : offerAny eval p event input args (f :: fs) last = .ok (o, p'))
    (ho : o ≠ .ignored) : Passes eval event input args (f :: fs) := by
  unfold offerAny at h
  rw [if_neg (by simp)] at h
  split at h
  · exact absurd h (by simp)
  · next t hf => exact firstMatch_passes hf
  · simp only [Except.ok.injEq, Prod.mk.injEq] at h
    exact absurd h.1.symm ho

/-- An event somebody wants passes one of the filters that are routed, unless every event is. -/
theorem offer_taken {strategy : Strategy} {p p' : Progress} {o : Offer} {l : List EventFilter}
    (h : offer eval strategy p event input args = .ok (o, p')) (ho : o ≠ .ignored)
    (hl : strategy.filters = some l) : Passes eval event input args l := by
  -- Strategy by strategy: the filters that are routed are those it may take an event with.
  induction strategy using Strategy.induct generalizing p p' o l with
  | one f =>
    simp only [Strategy.filters, Option.some.injEq] at hl
    subst hl
    unfold offer at h
    split at h
    · simp only [Except.ok.injEq, Prod.mk.injEq] at h
      exact absurd h.1.symm ho
    · simp only at h
      split at h
      · exact absurd h (by simp)
      · simp only [Except.ok.injEq, Prod.mk.injEq] at h
        exact absurd h.1.symm ho
      · next t hf => exact ⟨f, List.mem_cons_self, p.expectations, t, hf⟩
  | all fs =>
    simp only [Strategy.filters, Option.some.injEq] at hl
    subst hl
    unfold offer at h
    split at h
    · simp only [Except.ok.injEq, Prod.mk.injEq] at h
      exact absurd h.1.symm ho
    · exact offerAll_taken h ho
  -- An empty `any` takes every event, so its filters are no list.
  | first fs =>
    cases fs with
    | nil => exact absurd hl (by simp [Strategy.filters])
    | cons f fs =>
      simp only [Strategy.filters, Option.some.injEq] at hl
      subst hl
      unfold offer at h
      split at h
      · simp only [Except.ok.injEq, Prod.mk.injEq] at h
        exact absurd h.1.symm ho
      · exact offerAny_taken h ho
  | condition fs c =>
    cases fs with
    | nil => exact absurd hl (by simp [Strategy.filters])
    | cons f fs =>
      simp only [Strategy.filters, Option.some.injEq] at hl
      subst hl
      unfold offer at h
      split at h
      · simp only [Except.ok.injEq, Prod.mk.injEq] at h
        exact absurd h.1.symm ho
      · exact offerAny_taken h ho
  | events fs s ih =>
    cases fs with
    | nil => exact absurd hl (by simp [Strategy.filters])
    | cons f fs =>
      simp only [Strategy.filters, Option.map_eq_some_iff] at hl
      obtain ⟨inner, hinner, rfl⟩ := hl
      unfold offer at h
      split at h
      · simp only [Except.ok.injEq, Prod.mk.injEq] at h
        exact absurd h.1.symm ho
      · simp only at h
        split at h
        · exact (offerAny_taken h ho).mono (List.subset_append_left _ _)
        · split at h
          · exact absurd h (by simp)
          · exact (offerAny_taken h ho).mono (List.subset_append_left _ _)
          · next o' u' hs hoff =>
            -- it passes a filter of the strategy that ends this one
            have hin := ih hoff (fun h => hs h) hinner
            exact hin.mono (List.subset_append_right _ _)

end Taken

/-! ### What routing covers -/

section Coverage

variable {eval : Eval} {args : Args}

theorem routesFrom_mem {out : List String} {filters : List EventFilter} {t : String} (h : t ∈ out) :
    t ∈ routesFrom eval args out filters ∨ "*" ∈ routesFrom eval args out filters := by
  induction filters generalizing out with
  | nil => exact .inl h
  | cons f rest ih =>
    rw [routesFrom]
    split
    · apply ih
      split
      · exact h
      · exact List.mem_append_left _ h
    · exact .inr List.mem_cons_self

/-- Each filter's route is among the routes, unless every event is routed. -/
theorem routesFrom_route (eval : Eval) (args : Args) (out : List String) {filters : List EventFilter}
    {f : EventFilter} (hf : f ∈ filters) :
    (∃ t ∈ routesFrom eval args out filters, route eval args f = some t) ∨
      "*" ∈ routesFrom eval args out filters := by
  induction filters generalizing out with
  | nil => exact absurd hf (by simp)
  | cons g rest ih =>
    rw [routesFrom]
    split
    -- a filter with a route: the routes so far, and its own
    · next t hg =>
      rcases List.mem_cons.mp hf with rfl | hrest
      · have hin : t ∈ (if t ∈ out then out else out ++ [t]) := by
          split
          · next h => exact h
          · exact List.mem_append_right _ List.mem_cons_self
        rcases routesFrom_mem hin with h | h
        · exact .inl ⟨t, h, hg⟩
        · exact .inr h
      · exact ih _ hrest
    -- a filter without one routes every event
    · exact .inr List.mem_cons_self

/-- A literal without a character that means something in a regular expression matches only itself. -/
def Literally (eval : Eval) : Prop :=
  ∀ pattern text, (∀ c ∈ pattern.toList, c ∉ '.' :: metaCharacters) →
    fullMatch eval pattern text = true → text = pattern

/-- A `type` expression that routing takes for a constant while matching does not: on null it yields a
string, and it accepts the type of an event that is another one. -/
def Misread (eval : Eval) (args : Args) (τ : String) : Prop :=
  ∃ code s t, strip τ = some code ∧ eval code .null args = .ok (.str s) ∧ s ≠ "" ∧ s ≠ "*" ∧
    t ≠ "" ∧ t ≠ s ∧ attributeMatches eval args (.str τ) (.str t) = .ok true

/-- What a filter takes it is routed, where it has no misread expression. -/
theorem route_of_matches (hlit : Literally eval) {f : EventFilter} {event input : Json} {t : String}
    {e e' : Table String Json} (hm : filterMatches eval f event input args e = .ok (some e'))
    (htype : event.get? "type" = some (.str t)) (ht : t ≠ "")
    (hdot : ∀ τ, f.attribute "type" = some (.str τ) → strip τ = none → '.' ∉ τ.toList)
    (hread : ∀ τ, f.attribute "type" = some (.str τ) → ¬ Misread eval args τ) :
    route eval args f = none ∨ route eval args f = some t ∨ route eval args f = some "*" := by
  unfold route
  -- An expression or a literal.
  split
  -- the attribute is a text, and the filter takes the event with it
  · next τ hτ =>
    have hacc := filterMatches_attribute eval hm hτ
    rw [htype, Option.getD_some] at hacc
    -- An expression that yields a text on nothing is routed under it.
    split
    · next code hcode =>
      split
      · next s hs =>
        by_cases hs0 : s = ""
        · exact .inl (if_pos hs0)
        · rw [if_neg hs0]
          by_cases hst : s = t
          · exact .inr (.inl (by rw [hst]))
          · by_cases hstar : s = "*"
            · exact .inr (.inr (by rw [hstar]))
            · exact absurd ⟨code, s, t, hcode, hs, hs0, hstar, ht, Ne.symm hst, hacc⟩ (hread τ hτ)
      · exact .inl rfl
    -- A literal with a meta character is a pattern, and every event is offered.
    · next hcode =>
      by_cases hmeta : τ.toList.any (metaCharacters.contains ·) = true
      · exact .inl (if_pos hmeta)
      · rw [if_neg hmeta]
        have heq : τ = t := by
          rw [attributeMatches, hcode] at hacc
          simp only [Except.ok.injEq, Bool.or_eq_true, decide_eq_true_eq] at hacc
          rcases hacc with heq | hfull
          · exact heq.symm
          · apply Eq.symm
            apply hlit τ t _ hfull
            intro c hc hin
            rcases List.mem_cons.mp hin with rfl | hin
            · exact hdot τ hτ hcode hc
            · apply hmeta
              rw [List.any_eq_true]
              exact ⟨c, hc, by simpa using hin⟩
        exact .inr (.inl (by rw [heq]))
  -- an attribute that is no text routes every event
  · exact .inl rfl

/-- The `type` attributes of the filters a strategy holds, those of the strategy that ends it included. -/
def Strategy.types : Strategy → List Json
  | .one f => (f.attribute "type").toList
  | .all fs => fs.flatMap fun f => (f.attribute "type").toList
  | .any fs (some (.events s)) => (fs.flatMap fun f => (f.attribute "type").toList) ++ s.types
  | .any fs none | .any fs (some (.condition _)) => fs.flatMap fun f => (f.attribute "type").toList

theorem filters_types {strategy : Strategy} {l : List EventFilter} (h : strategy.filters = some l)
    {f : EventFilter} (hf : f ∈ l) {v : Json} (hv : f.attribute "type" = some v) :
    v ∈ strategy.types := by
  have hmem : ∀ {fs : List EventFilter}, f ∈ fs →
      v ∈ fs.flatMap fun f => (f.attribute "type").toList := by
    intro fs hfs
    exact List.mem_flatMap.mpr ⟨f, hfs, by simp [hv]⟩
  -- Strategy by strategy.
  induction strategy using Strategy.induct generalizing l with
  | one g =>
    simp only [Strategy.filters, Option.some.injEq] at h
    subst h
    rw [List.mem_singleton] at hf
    subst hf
    simp [Strategy.types, hv]
  | all fs =>
    simp only [Strategy.filters, Option.some.injEq] at h
    subst h
    exact hmem hf
  | first fs =>
    cases fs with
    | nil => exact absurd h (by simp [Strategy.filters])
    | cons g fs =>
      simp only [Strategy.filters, Option.some.injEq] at h
      subst h
      exact hmem hf
  | condition fs c =>
    cases fs with
    | nil => exact absurd h (by simp [Strategy.filters])
    | cons g fs =>
      simp only [Strategy.filters, Option.some.injEq] at h
      subst h
      exact hmem hf
  | events fs s ih =>
    cases fs with
    | nil => exact absurd h (by simp [Strategy.filters])
    | cons g fs =>
      simp only [Strategy.filters, Option.map_eq_some_iff] at h
      obtain ⟨inner, hinner, rfl⟩ := h
      rw [Strategy.types]
      rcases List.mem_append.mp hf with hf | hf
      · exact List.mem_append_left _ (hmem hf)
      · exact List.mem_append_right _ (ih hinner hf)

/-- Routing offers the strategy, at whatever progress offers lead to, every event it would take. -/
def Covers (eval : Eval) (args : Args) (strategy : Strategy) : Prop :=
  ∀ p, Reached eval strategy p → ∀ (event input : Json) (t : String),
    event.get? "type" = some (.str t) → t ≠ "" → ∀ o p',
      offer eval strategy p event input args = .ok (o, p') → o ≠ .ignored →
        t ∈ routes eval strategy args ∨ "*" ∈ routes eval strategy args

theorem covers_of_read (hlit : Literally eval) {strategy : Strategy}
    (hdot : ∀ τ, .str τ ∈ strategy.types → strip τ = none → '.' ∉ τ.toList)
    (hread : ∀ τ, .str τ ∈ strategy.types → ¬ Misread eval args τ) : Covers eval args strategy := by
  intro p _ event input t htype ht o p' hoff ho
  unfold routes
  cases hl : strategy.filters with
  | none => exact .inr List.mem_cons_self
  | some l =>
    obtain ⟨f, hf, e, e', hm⟩ := offer_taken hoff ho hl
    have hroute := route_of_matches hlit hm htype ht
      (fun τ hτ => hdot τ (filters_types hl hf hτ)) (fun τ hτ => hread τ (filters_types hl hf hτ))
    rcases routesFrom_route eval args [] hf with ⟨s, hs, hfs⟩ | hstar
    -- the filter that took the event is routed under its type, or every event is
    · rcases hroute with hnone | ht | hstar
      · rw [hfs] at hnone
        exact absurd hnone (by simp)
      · rw [hfs, Option.some.injEq] at ht
        exact .inl (ht ▸ hs)
      · rw [hfs, Option.some.injEq] at hstar
        exact .inr (hstar ▸ hs)
    · exact .inr hstar

/-- A misread expression alone hides an event. -/
theorem hidden_of_misread {τ : String} (h : Misread eval args τ) :
    ¬ Covers eval args (.one ⟨[("type", .str τ)], []⟩) := by
  intro hcov
  obtain ⟨code, s, t, hcode, hs, hs0, hstar, ht, hts, hacc⟩ := h
  have hoff : offer eval (.one ⟨[("type", .str τ)], []⟩) (fresh (.one ⟨[("type", .str τ)], []⟩))
      (.obj [("type", .str t)]) .null args =
      .ok (.consumed, { fresh (.one ⟨[("type", .str τ)], []⟩) with done := true }) := by
    simp [offer, fresh, filterMatches, attributesMatch, Json.get?, hacc, correlated]
  have hroutes : routes eval (.one ⟨[("type", .str τ)], []⟩) args = [s] := by
    simp [routes, Strategy.filters, routesFrom, route, EventFilter.attribute, hcode, hs, hs0]
  have := hcov _ .fresh _ _ t (by simp [Json.get?]) ht _ _ hoff (by simp)
  rw [hroutes] at this
  rcases this with h | h
  · exact hts (by simpa using h)
  · exact hstar (List.mem_singleton.mp h).symm

/-- Routing hides nothing from the strategies whose `type` attributes are among `types` exactly when
none of these is an expression it misreads. -/
theorem routing_covers_iff (hlit : Literally eval) (types : List Json)
    (hdot : ∀ τ, .str τ ∈ types → strip τ = none → '.' ∉ τ.toList) :
    (∀ strategy : Strategy, strategy.types ⊆ types → Covers eval args strategy) ↔
      ∀ τ, .str τ ∈ types → ¬ Misread eval args τ := by
  constructor
  · intro h τ hτ hmis
    apply hidden_of_misread hmis
    apply h
    intro v hv
    simp only [Strategy.types, EventFilter.attribute, List.find?_cons, beq_self_eq_true,
      Option.map_some, Option.toList_some, List.mem_singleton] at hv
    exact hv ▸ hτ
  · intro h strategy hsub
    exact covers_of_read hlit (fun τ hτ => hdot τ (hsub hτ)) (fun τ hτ => h τ (hsub hτ))

end Coverage

/-- jq on two programs: a default for a missing value, and the test of a literal pattern. -/
def defaulting : Eval := fun code v args =>
  if code = ". // \"a\"" then .ok (if truthy v then v else .str "a")
  else
    match v with
    | .str text => .ok (.bool (args = Args.set [] "p" (.str ("^(?:" ++ text ++ ")$"))))
    | _ => .error "cannot be matched, as it is not a string"

theorem defaulting_literally : Literally defaulting := by
  intro pattern text _ h
  have hargs : Args.set [] "p" (.str ("^(?:" ++ pattern ++ ")$")) =
      Args.set [] "p" (.str ("^(?:" ++ text ++ ")$")) := by
    simpa [fullMatch, defaulting] using h
  have hstr : "^(?:" ++ pattern ++ ")$" = "^(?:" ++ text ++ ")$" := by
    simpa [Args.set] using hargs
  have hlist := congrArg String.toList hstr
  simp only [String.toList_append, List.append_cancel_left_eq, List.append_cancel_right_eq] at hlist
  exact String.toList_injective hlist.symm

/-- A listen for the type `done` is offered every event it would take. -/
theorem literal_type_covered : Covers defaulting [] (.one ⟨[("type", .str "done")], []⟩) := by
  have hdone : ∀ τ, Json.str τ ∈ [Json.str "done"] → τ = "done" := by
    intro τ hτ
    simpa using hτ
  apply (routing_covers_iff defaulting_literally [.str "done"] _).mpr
  · intro τ hτ hmis
    obtain ⟨code, s, t, hcode, _⟩ := hmis
    have hnone : strip "done" = none := by decide +kernel
    rw [hdone τ hτ, hnone] at hcode
    exact absurd hcode (by simp)
  · intro v hv
    simpa [Strategy.types, EventFilter.attribute] using hv
  · intro τ hτ _
    rw [hdone τ hτ]
    decide +kernel

/-- A `type` with a default is routed on the default alone, while it takes every type. -/
theorem defaulted_type_hidden :
    ¬ ∀ (eval : Eval), Literally eval → ∀ (args : Args) (strategy : Strategy),
      (∀ τ, .str τ ∈ strategy.types → strip τ = none → '.' ∉ τ.toList) →
        Covers eval args strategy := by
  intro h
  have hcode : strip "$\x7b . // \"a\" \x7d" = some ". // \"a\"" := by decide +kernel
  have hmis : Misread defaulting [] "$\x7b . // \"a\" \x7d" := by
    refine ⟨". // \"a\"", "a", "b", hcode, rfl, by decide, by decide, by decide, by decide, ?_⟩
    rw [attributeMatches, hcode]
    rfl
  apply hidden_of_misread hmis
  apply h defaulting defaulting_literally
  intro τ hτ hnone
  simp only [Strategy.types, EventFilter.attribute, List.find?_cons, beq_self_eq_true,
    Option.map_some, Option.toList_some, List.mem_singleton, Json.str.injEq] at hτ
  rw [hτ, hcode] at hnone
  exact absurd hnone (by simp)

end Ouro.Ows
