import Ouro.Runtime.Publish

/-!
# What a handler sees

A handler of a run's call reads and reaches runs of its own tree only: its run, the runs above it along
child links and those below it. Each scope is decided by walking links one by one, from the asked run
up to the call's (`below`) or from the call's run up to the asked one (`lineage`), at most one step
further than the host lets runs nest.

In a store whose runs nest no deeper, that bound cuts off nobody, so the scopes are exact
(`below_iff`, `lineage_iff`). And a walk that gets there reads runs in scope only, so two stores that
agree on those answer alike (`InScope.transfer`).
-/

namespace Ouro.Runtime

open Lib

/-! ### Lineage -/

/-- Where a run stands in its tree: its jump budget and how many ancestors it has. -/
structure Lineage where
  maxJumps : Nat
  depth : Nat
deriving DecidableEq

/-- A JSON number as a machine word. -/
def asWord (bound : Nat) : Json → Option Nat
  | .num (.int n) => if 0 ≤ n ∧ n ≤ bound then some n.toNat else none
  | _ => none

namespace Lineage

/-- The lineage pinned in an admission; one without the pin is a root's. -/
def of (a : Admission) (maxJumps : Nat) : Lineage :=
  let pinned := (a.runtime.get? "limits").getD .null
  { maxJumps := ((pinned.get? "max_jumps").bind (asWord (2 ^ 64 - 1))).getD maxJumps
    depth := ((pinned.get? "depth").bind (asWord (2 ^ 32 - 1))).getD 0 }

/-- An owned child's lineage, refused past the host's nesting depth. -/
def child (l : Lineage) (maxDepth : Nat) : Except String Lineage :=
  let depth := min (l.depth + 1) (2 ^ 32 - 1)
  if maxDepth < depth then
    .error s!"a child run would nest {depth} deep; this host allows {maxDepth}"
  else .ok { l with depth }

end Lineage

/-! ### Run access -/

/-- Why run access answered nothing. -/
inductive RunAccessError where
  | outOfScope
  | interrupted (e : Error)
  | reservedEventType
  | invalidEvent (e : Error)
  | targetEnded
  | storage (e : Error)
deriving DecidableEq

/-- Whether links lead up to `run` in so many steps. -/
def climbs (σ : Rows) (run : String) : Nat → Option ChildLink → Bool
  | 0, _ | _, none => false
  | n + 1, some up =>
    if up.parent = run then true
    else
      match σ.run.get up.parent with
      | some parent => climbs σ run n parent.run.child
      | none => false

/-- The run `id`, when links lead up to it in so many steps. -/
def ascend (σ : Rows) (id : String) : Nat → Option ChildLink → Option SavedRun
  | 0, _ | _, none => none
  | n + 1, some up =>
    let parent := σ.run.get up.parent
    if up.parent = id then parent.map StoredRun.run
    else ascend σ id n (parent.bind fun p => p.run.child)

/-- Run access for one call of a run, by the holder of a lease. -/
structure CallRuns where
  fence : Fence
  run : String
  maxDepth : Nat

namespace CallRuns

variable (c : CallRuns) (σ : Rows)

/-- The run, when it is the call's or below it. -/
def below (id : String) : Option SavedRun :=
  match σ.run.get id with
  | none => none
  | some found =>
    if id = c.run then some found.run
    else if climbs σ c.run (c.maxDepth + 1) found.run.child then some found.run
    else none

/-- The run, when it is the call's, below it or above it. -/
def lineage (id : String) : Option SavedRun :=
  match c.below σ id with
  | some found => some found
  | none => ascend σ id (c.maxDepth + 1) ((σ.run.get c.run).bind fun s => s.run.child)

def get (id : String) : Option SavedRun := c.lineage σ id

/-- The journal of a run in scope. -/
def records (id : String) : Option (Table String Record) :=
  if (c.lineage σ id).isNone then none else (σ.run.get id).map fun _ => σ.record id

/-- A page of a run's children, as `query` lists them. -/
def children {α : Type} (query : String → Except Error α) (parent : String) :
    Except RunAccessError α :=
  if (c.lineage σ parent).isNone then .error .outOfScope else (query parent).mapError .storage

/-- The engine's lifecycle types, which are its own to send. -/
def reserved (type_ : String) : Bool :=
  ["done:", "waiting:", "child:"].any fun p => (stripPrefix type_ p).isSome

/-- Delivers an event to the call's run or one below it. -/
def deliver (env : Env) (event : Json) (target : String) (now : Int) :
    Except RunAccessError (String × Rows) :=
  if (c.below σ target).isNone then .error .outOfScope
  else
    match Engine.checkLease env c.fence now σ with
    | .error e => .error (.interrupted e)
    | .ok (_, σ) =>
      if reserved ((event.text "type").getD "") then .error .reservedEventType
      else
        match complete env event now with
        | .error message => .error (.invalidEvent (.message message))
        | .ok event =>
          match Engine.deliver env event (some target) now σ with
          | .ok (some recipient, σ) => .ok (recipient, σ)
          | .ok (none, _) => .error .targetEnded
          | .error (.identityConflict identity) => .error (.invalidEvent (.identityConflict identity))
          | .error e => .error (.storage e)

end CallRuns

/-! ### Scope -/

/-- A stored run's link leads up from `a` to `b`. -/
def Up (σ : Rows) (a b : String) : Prop :=
  ∃ s link, σ.run.get a = some s ∧ s.run.child = some link ∧ link.parent = b

/-- Links lead up from `a` to `b` in so many steps. -/
def Climb (σ : Rows) : Nat → String → String → Prop
  | 0, a, b => a = b
  | n + 1, a, b => ∃ c, Up σ a c ∧ Climb σ n c b

/-- No run has more stored ancestors than a host lets runs nest. -/
def Nested (σ : Rows) (maxDepth : Nat) : Prop :=
  ∀ n a b, Climb σ n a b → σ.run.contains b = true → n ≤ maxDepth

/-- The run is `run` or below it. -/
def Below (σ : Rows) (run id : String) : Prop := id = run ∨ Relation.TransGen (Up σ) id run

/-- The run is of the lineage of `run`. -/
def InScope (σ : Rows) (run id : String) : Prop := Below σ run id ∨ Relation.TransGen (Up σ) run id

variable {σ : Rows}

theorem transGen_iff_climb {a b : String} :
    Relation.TransGen (Up σ) a b ↔ ∃ n, Climb σ (n + 1) a b := by
  constructor
  · intro h
    induction h using Relation.TransGen.head_induction_on with
    | single h => exact ⟨0, b, h, rfl⟩
    | head h _ ih =>
      obtain ⟨n, hn⟩ := ih
      exact ⟨n + 1, _, h, hn⟩
  · rintro ⟨n, h⟩
    induction n generalizing a with
    | zero =>
      obtain ⟨c, hup, rfl⟩ := h
      exact .single hup
    | succ n ih =>
      obtain ⟨c, hup, h⟩ := h
      exact .head hup (ih h)

/-- The last step of a climb starts at a stored run. -/
theorem Climb.last {n : Nat} {a b : String} (h : Climb σ (n + 1) a b) :
    ∃ c, Climb σ n a c ∧ Up σ c b := by
  induction n generalizing a with
  | zero =>
    obtain ⟨c, hup, rfl⟩ := h
    exact ⟨a, rfl, hup⟩
  | succ n ih =>
    obtain ⟨c, hup, h⟩ := h
    obtain ⟨d, hd, hlast⟩ := ih h
    exact ⟨d, ⟨c, hup, hd⟩, hlast⟩

/-- A run above another is found within the host's nesting depth. -/
theorem Nested.bound {maxDepth : Nat} (h : Nested σ maxDepth) {n : Nat} {a b : String}
    (hclimb : Climb σ (n + 1) a b) : n ≤ maxDepth := by
  obtain ⟨c, hc, s, _, hs, _⟩ := hclimb.last
  exact h n a c hc ((σ.run.contains_iff c).mpr ⟨s, hs⟩)

/-- The depths that admissions pin bound the nesting, when a child is pinned one deeper than its
parent. -/
theorem nested_of_lineage {maxJumps maxDepth : Nat}
    (hchild : ∀ a b s p, σ.run.get a = some s → Up σ a b → σ.run.get b = some p →
      (Lineage.of s.run.admission maxJumps).depth = (Lineage.of p.run.admission maxJumps).depth + 1)
    (hdepth : ∀ a s, σ.run.get a = some s → (Lineage.of s.run.admission maxJumps).depth ≤ maxDepth) :
    Nested σ maxDepth := by
  -- By induction on the climb: a link leads one step up in the pinned depths.
  have hclimb : ∀ n a b s p, Climb σ n a b → σ.run.get a = some s → σ.run.get b = some p →
      (Lineage.of s.run.admission maxJumps).depth =
        (Lineage.of p.run.admission maxJumps).depth + n := by
    intro n
    induction n with
    | zero =>
      rintro a b s p rfl hs hp
      obtain rfl : s = p := Option.some.inj (hs.symm.trans hp)
      rfl
    | succ n ih =>
      rintro a b s p ⟨c, hup, hrest⟩ hs hp
      obtain ⟨q, hq⟩ : ∃ q, σ.run.get c = some q := by
        cases n with
        | zero =>
          obtain rfl : c = b := hrest
          exact ⟨p, hp⟩
        | succ n =>
          obtain ⟨_, ⟨q, _, hq, _⟩, _⟩ := hrest
          exact ⟨q, hq⟩
      have hone := hchild a c s q hs hup hq
      have hmore := ih c b q p hrest hq hp
      omega
  -- The depth at the bottom bounds the length of the climb.
  intro n a b hab hb
  obtain ⟨p, hp⟩ := (σ.run.contains_iff b).mp hb
  obtain ⟨s, hs⟩ : ∃ s, σ.run.get a = some s := by
    cases n with
    | zero =>
      obtain rfl : a = b := hab
      exact ⟨p, hp⟩
    | succ n =>
      obtain ⟨_, ⟨s, _, hs, _⟩, _⟩ := hab
      exact ⟨s, hs⟩
  have hlength := hclimb n a b s p hab hs hp
  have hle := hdepth a s hs
  omega

/-- The walk from a link up to `run`. -/
theorem climbs_iff {run : String} {n : Nat} {link : Option ChildLink} :
    climbs σ run n link = true ↔ ∃ up, link = some up ∧ ∃ k < n, Climb σ k up.parent run := by
  -- Induction on the steps that are left.
  induction n generalizing link with
  | zero => simp [climbs]
  | succ n ih =>
    cases link with
    | none => simp [climbs]
    | some up =>
      simp only [Option.some.injEq, exists_eq_left']
      unfold climbs
      -- The link leads there, or the walk goes on from the parent.
      by_cases hup : up.parent = run
      · simp only [hup, if_true, true_iff]
        exact ⟨0, by omega, rfl⟩
      · rw [if_neg hup]
        cases hparent : σ.run.get up.parent with
        | none =>
          -- A link that leads outside leads nowhere.
          refine iff_of_false (by simp) ?_
          rintro ⟨k, _, hk⟩
          cases k with
          | zero => exact hup hk
          | succ k =>
            obtain ⟨_, ⟨s, _, hs, _⟩, _⟩ := hk
            exact absurd (hparent.symm.trans hs) (by simp)
        | some parent =>
          simp only [ih]
          constructor
          · rintro ⟨next, hnext, k, hk, hclimb⟩
            exact ⟨k + 1, by omega, _, ⟨parent, next, hparent, hnext, rfl⟩, hclimb⟩
          · rintro ⟨k, hk, hclimb⟩
            cases k with
            | zero => exact absurd hclimb hup
            | succ k =>
              obtain ⟨c, ⟨s, next, hs, hnext, rfl⟩, hclimb⟩ := hclimb
              obtain rfl : parent = s := Option.some.inj (hparent.symm.trans hs)
              exact ⟨next, hnext, k, by omega, hclimb⟩

/-- The walk from a link up to a run above. -/
theorem ascend_iff {id : String} {n : Nat} {link : Option ChildLink} {found : SavedRun} :
    ascend σ id n link = some found ↔
      ∃ up, link = some up ∧ (∃ k < n, Climb σ k up.parent id) ∧
        ∃ s, σ.run.get id = some s ∧ found = s.run := by
  -- The walk is that of `climbs`, with the row at its end.
  induction n generalizing link with
  | zero => simp [ascend]
  | succ n ih =>
    cases link with
    | none => simp [ascend]
    | some up =>
      simp only [Option.some.injEq, exists_eq_left']
      unfold ascend
      by_cases hup : up.parent = id
      · simp only [hup, if_true, Option.map_eq_some_iff]
        constructor
        · rintro ⟨s, hs, rfl⟩
          exact ⟨⟨0, by omega, rfl⟩, s, hs, rfl⟩
        · rintro ⟨_, s, hs, rfl⟩
          exact ⟨s, hs, rfl⟩
      · simp only [if_neg hup, ih]
        constructor
        · rintro ⟨next, hnext, ⟨k, hk, hclimb⟩, hfound⟩
          obtain ⟨parent, hparent, hnext⟩ := Option.bind_eq_some_iff.mp hnext
          exact ⟨⟨k + 1, by omega, _, ⟨parent, next, hparent, hnext, rfl⟩, hclimb⟩, hfound⟩
        · rintro ⟨⟨k, hk, hclimb⟩, hfound⟩
          cases k with
          | zero => exact absurd hclimb hup
          | succ k =>
            obtain ⟨c, ⟨s, next, hs, hnext, rfl⟩, hclimb⟩ := hclimb
            exact ⟨next, by simp [hs, hnext], ⟨k, by omega, hclimb⟩, hfound⟩

/-- Links from a run's own link on. -/
theorem climb_from_link {a b : String} {maxDepth : Nat} (h : Nested σ maxDepth) :
    (∃ up, ((σ.run.get a).bind fun s => s.run.child) = some up ∧
      ∃ k < maxDepth + 1, Climb σ k up.parent b) ↔ Relation.TransGen (Up σ) a b := by
  rw [transGen_iff_climb]
  constructor
  · rintro ⟨up, hup, k, _, hclimb⟩
    obtain ⟨s, hs, hlink⟩ := Option.bind_eq_some_iff.mp hup
    exact ⟨k, _, ⟨s, up, hs, hlink, rfl⟩, hclimb⟩
  · rintro ⟨k, hclimb⟩
    have hbound := h.bound hclimb
    obtain ⟨c, ⟨s, up, hs, hlink, rfl⟩, hclimb⟩ := hclimb
    exact ⟨up, by simp [hs, hlink], k, by omega, hclimb⟩

namespace CallRuns

variable {c : CallRuns}

theorem below_iff (h : Nested σ c.maxDepth) {id : String} {found : SavedRun} :
    c.below σ id = some found ↔
      (∃ s, σ.run.get id = some s ∧ found = s.run) ∧ Below σ c.run id := by
  unfold below Below
  cases hid : σ.run.get id with
  | none => simp
  | some s =>
    have hclimbs : climbs σ c.run (c.maxDepth + 1) s.run.child = true ↔
        Relation.TransGen (Up σ) id c.run := by
      rw [climbs_iff, ← climb_from_link h]
      simp [hid]
    simp only [Option.some.injEq, exists_eq_left']
    by_cases hrun : id = c.run
    · simp [hrun, eq_comm]
    · by_cases hbelow : Relation.TransGen (Up σ) id c.run
      · simp [hrun, hclimbs.mpr hbelow, hbelow, eq_comm]
      · have hfalse : climbs σ c.run (c.maxDepth + 1) s.run.child = false := by
          simpa using hclimbs.not.mpr hbelow
        simp [hrun, hfalse, hbelow]

theorem lineage_iff (h : Nested σ c.maxDepth) {id : String} {found : SavedRun} :
    c.lineage σ id = some found ↔
      (∃ s, σ.run.get id = some s ∧ found = s.run) ∧ InScope σ c.run id := by
  unfold lineage InScope
  cases hbelow : c.below σ id with
  | some r =>
    obtain ⟨⟨s, hs, rfl⟩, hscope⟩ := (below_iff h).mp hbelow
    simp [hs, hscope, eq_comm]
  | none =>
    have hnot : ∀ s, σ.run.get id = some s → ¬Below σ c.run id := by
      intro s hs hscope
      have := (below_iff h).mpr ⟨⟨s, hs, rfl⟩, hscope⟩
      exact absurd (hbelow.symm.trans this) (by simp)
    simp only [ascend_iff]
    constructor
    · rintro ⟨up, hup, hclimb, hfound⟩
      exact ⟨hfound, .inr ((climb_from_link h).mp ⟨up, hup, hclimb⟩)⟩
    · rintro ⟨⟨s, hs, hfound⟩, hscope⟩
      obtain ⟨up, hup, hclimb⟩ := (climb_from_link h).mpr (hscope.resolve_left (hnot s hs))
      exact ⟨up, hup, hclimb, s, hs, hfound⟩

theorem lineage_isNone_iff (h : Nested σ c.maxDepth) {id : String} :
    (c.lineage σ id).isNone = true ↔ ¬(σ.run.contains id = true ∧ InScope σ c.run id) := by
  rw [Option.isNone_iff_eq_none, Option.eq_none_iff_forall_ne_some, Table.contains_iff]
  constructor
  · rintro hnone ⟨⟨s, hs⟩, hscope⟩
    exact hnone s.run ((lineage_iff h).mpr ⟨⟨s, hs, rfl⟩, hscope⟩)
  · intro hnot found hfound
    obtain ⟨⟨s, hs, _⟩, hscope⟩ := (lineage_iff h).mp hfound
    exact hnot ⟨⟨s, hs⟩, hscope⟩

theorem below_isNone_iff (h : Nested σ c.maxDepth) {id : String} :
    (c.below σ id).isNone = true ↔ ¬(σ.run.contains id = true ∧ Below σ c.run id) := by
  rw [Option.isNone_iff_eq_none, Option.eq_none_iff_forall_ne_some, Table.contains_iff]
  constructor
  · rintro hnone ⟨⟨s, hs⟩, hscope⟩
    exact hnone s.run ((below_iff h).mpr ⟨⟨s, hs, rfl⟩, hscope⟩)
  · intro hnot found hfound
    obtain ⟨⟨s, hs, _⟩, hscope⟩ := (below_iff h).mp hfound
    exact hnot ⟨⟨s, hs⟩, hscope⟩

theorem records_iff (h : Nested σ c.maxDepth) {id : String} {records : Table String Record} :
    c.records σ id = some records ↔
      σ.run.contains id = true ∧ InScope σ c.run id ∧ records = σ.record id := by
  unfold CallRuns.records
  by_cases hscope : σ.run.contains id = true ∧ InScope σ c.run id
  · have hsome := (lineage_isNone_iff h).not.mpr (not_not.mpr hscope)
    obtain ⟨s, hs⟩ := (σ.run.contains_iff id).mp hscope.1
    rw [if_neg hsome, hs, Option.map_some, Option.some.injEq]
    simp [hscope, eq_comm]
  · rw [if_pos ((lineage_isNone_iff h).mpr hscope)]
    simp only [reduceCtorEq, false_iff]
    exact fun hall => hscope ⟨hall.1, hall.2.1⟩

theorem deliver_outOfScope_iff (h : Nested σ c.maxDepth) {env : Env} {event : Json} {target : String}
    {now : Int} : c.deliver σ env event target now = .error .outOfScope ↔
      ¬(σ.run.contains target = true ∧ Below σ c.run target) := by
  rw [← below_isNone_iff h]
  unfold deliver
  by_cases hbelow : (c.below σ target).isNone = true
  · simp [hbelow]
  · rw [if_neg hbelow]
    refine iff_of_false ?_ hbelow
    split
    · simp
    · split
      · simp
      · split
        · simp
        · split <;> simp

theorem children_outOfScope_iff (h : Nested σ c.maxDepth) {α : Type} {query : String → Except Error α}
    {parent : String} : c.children σ query parent = .error .outOfScope ↔
      ¬(σ.run.contains parent = true ∧ InScope σ c.run parent) := by
  rw [← lineage_isNone_iff h]
  unfold children
  split
  · simp [*]
  · next hsome =>
    refine iff_of_false ?_ hsome
    cases query parent <;> simp [Except.mapError]

end CallRuns

/-! ### Two stores -/

/-- The stores agree on the run and on those above and below it. -/
def Agree (run : String) (σ τ : Rows) : Prop :=
  ∀ id, InScope σ run id ∨ InScope τ run id →
    σ.run.get id = τ.run.get id ∧ σ.record id = τ.record id

theorem Agree.symm {run : String} {σ τ : Rows} (h : Agree run σ τ) : Agree run τ σ := by
  intro id hid
  have ⟨hrun, hrecord⟩ := h id hid.symm
  exact ⟨hrun.symm, hrecord.symm⟩

theorem Up.congr {σ τ : Rows} {a b : String} (h : Up σ a b) (hget : σ.run.get a = τ.run.get a) :
    Up τ a b := by
  obtain ⟨s, link, hs, hlink⟩ := h
  exact ⟨s, link, hget ▸ hs, hlink⟩

/-- The links between runs in scope are the same. -/
theorem Below.transfer {run id : String} {σ τ : Rows} (hagree : Agree run σ τ)
    (h : Below σ run id) : Below τ run id := by
  rcases h with heq | hbelow
  · exact .inl heq
  · refine .inr ?_
    induction hbelow using Relation.TransGen.head_induction_on with
    | single hup => exact .single (hup.congr (hagree _ (.inl (.inl (.inr (.single hup))))).1)
    | head hup hrest ih =>
      exact .head (hup.congr (hagree _ (.inl (.inl (.inr (.head hup hrest))))).1) ih

theorem InScope.transfer {run id : String} {σ τ : Rows} (hagree : Agree run σ τ)
    (h : InScope σ run id) : InScope τ run id := by
  rcases h with hbelow | habove
  · exact .inl (hbelow.transfer hagree)
  · refine .inr ?_
    induction habove with
    | single hup => exact .single (hup.congr (hagree _ (.inl (.inl (.inl rfl)))).1)
    | tail hrest hup ih => exact .tail ih (hup.congr (hagree _ (.inl (.inr hrest))).1)

/-- What is in scope of one store is in scope of the other, and the same. -/
theorem Agree.stored_iff {run : String} {σ τ : Rows} (hagree : Agree run σ τ) (id : String) :
    (σ.run.contains id = true ∧ InScope σ run id ↔ τ.run.contains id = true ∧ InScope τ run id) ∧
      (σ.run.contains id = true ∧ Below σ run id ↔ τ.run.contains id = true ∧ Below τ run id) := by
  have hsame : InScope σ run id ∨ InScope τ run id → σ.run.contains id = τ.run.contains id := by
    intro hscope
    unfold Table.contains
    rw [(hagree id hscope).1]
  refine ⟨⟨?_, ?_⟩, ⟨?_, ?_⟩⟩
  · rintro ⟨hstored, hscope⟩
    exact ⟨hsame (.inl hscope) ▸ hstored, hscope.transfer hagree⟩
  · rintro ⟨hstored, hscope⟩
    exact ⟨hsame (.inr hscope) ▸ hstored, hscope.transfer hagree.symm⟩
  · rintro ⟨hstored, hbelow⟩
    exact ⟨hsame (.inl (.inl hbelow)) ▸ hstored, hbelow.transfer hagree⟩
  · rintro ⟨hstored, hbelow⟩
    exact ⟨hsame (.inr (.inl hbelow)) ▸ hstored, hbelow.transfer hagree.symm⟩

/-! ### The lineage is what a handler sees -/

/-- A handler sees exactly its lineage. In a store whose runs nest no deeper than the host allows, a
run and its journal are answered exactly when the run is stored and is the call's run, below it or
above it; a delivery is out of scope exactly for a run that is not the call's or below it, and a listing
of children for one that is not in the lineage. And a store that agrees on the lineage, whatever else it
holds, answers alike. -/
theorem handler_sees_lineage (c : CallRuns) (σ : Rows) (h : Nested σ c.maxDepth) :
    (∀ id found, c.get σ id = some found ↔
      (∃ s, σ.run.get id = some s ∧ found = s.run) ∧ InScope σ c.run id) ∧
    (∀ id records, c.records σ id = some records ↔
      σ.run.contains id = true ∧ InScope σ c.run id ∧ records = σ.record id) ∧
    (∀ env event target now, c.deliver σ env event target now = .error .outOfScope ↔
      ¬(σ.run.contains target = true ∧ Below σ c.run target)) ∧
    (∀ (α : Type) (query : String → Except Error α) parent,
      c.children σ query parent = .error .outOfScope ↔
        ¬(σ.run.contains parent = true ∧ InScope σ c.run parent)) ∧
    ∀ τ, Nested τ c.maxDepth → Agree c.run σ τ → ∀ id,
      c.get σ id = c.get τ id ∧ c.records σ id = c.records τ id ∧
      (∀ env event now, c.deliver σ env event id now = .error .outOfScope ↔
        c.deliver τ env event id now = .error .outOfScope) ∧
      ∀ (α : Type) (query : String → Except Error α), c.children σ query id = c.children τ query id := by
  refine ⟨fun id found => CallRuns.lineage_iff h, fun id records => CallRuns.records_iff h,
    fun env event target now => CallRuns.deliver_outOfScope_iff h,
    fun α query parent => CallRuns.children_outOfScope_iff h, fun τ hτ hagree id => ?_⟩
  -- Both stores have the same runs in scope.
  have ⟨hscope, hbelow⟩ := hagree.stored_iff id
  have hlineage : c.lineage σ id = c.lineage τ id := by
    ext found
    rw [CallRuns.lineage_iff h, CallRuns.lineage_iff hτ]
    constructor
    · rintro ⟨⟨s, hs, rfl⟩, hin⟩
      exact ⟨⟨s, (hagree id (.inl hin)).1 ▸ hs, rfl⟩, hin.transfer hagree⟩
    · rintro ⟨⟨s, hs, rfl⟩, hin⟩
      exact ⟨⟨s, (hagree id (.inr hin)).1 ▸ hs, rfl⟩, hin.transfer hagree.symm⟩
  -- So each of the four scopes decides alike in both.
  refine ⟨hlineage, ?_, fun env event now => ?_, fun α query => ?_⟩
  · ext1 records
    rw [CallRuns.records_iff h, CallRuns.records_iff hτ]
    constructor
    · rintro ⟨hstored, hin, rfl⟩
      have ⟨hstored', hin'⟩ := hscope.mp ⟨hstored, hin⟩
      exact ⟨hstored', hin', (hagree id (.inl hin)).2⟩
    · rintro ⟨hstored, hin, rfl⟩
      have ⟨hstored', hin'⟩ := hscope.mpr ⟨hstored, hin⟩
      exact ⟨hstored', hin', (hagree id (.inr hin)).2.symm⟩
  · rw [CallRuns.deliver_outOfScope_iff h, CallRuns.deliver_outOfScope_iff hτ, hbelow]
  · unfold CallRuns.children
    rw [hlineage]

/-- A run with its pinned depth, under its parent if it has one. -/
def runAt (id : String) (depth : Nat) (parent : Option String) : StoredRun :=
  let limits : Json := .obj [("limits", .obj [("depth", .num (.int depth))])]
  let s := Engine.fresh ⟨id, "w", 1, "", .null, limits⟩ "" none 0
  { s with run := { s.run with child := parent.map fun p => ⟨p, "k", "/do/0/k"⟩ } }

/-- A parent and its child. -/
def family : Rows :=
  { Rows.empty with
    run := (Table.empty.put "c" (runAt "c" 1 (some "r"))).put "r" (runAt "r" 0 none) }

/-- The same with a run of another tree. -/
def neighbours : Rows := { family with run := family.run.put "x" (runAt "x" 0 none) }

theorem up_neighbours {σ : Rows} (hσ : σ = family ∨ σ = neighbours) {a b : String} (h : Up σ a b) :
    a = "c" ∧ b = "r" := by
  obtain ⟨s, link, hs, hlink, rfl⟩ := h
  have hget : neighbours.run.get a = some s ∨ family.run.get a = some s :=
    hσ.elim (fun heq => .inr (heq ▸ hs)) fun heq => .inl (heq ▸ hs)
  have hfamily : family.run.get a = some s → a = "c" ∧ link.parent = "r" := by
    intro hs
    unfold family at hs
    rw [Table.get_put, Table.get_put] at hs
    split at hs
    · cases hs
      exact absurd hlink (by simp [runAt])
    · split at hs
      · next heq =>
        cases hs
        cases hlink
        exact ⟨heq.symm, rfl⟩
      · exact absurd hs (by simp)
  rcases hget with hs | hs
  · unfold neighbours at hs
    rw [Table.get_put] at hs
    split at hs
    · cases hs
      exact absurd hlink (by simp [runAt])
    · exact hfamily hs
  · exact hfamily hs

/-- A handler of the run sees the child, and not a run that only the other store has. -/
theorem stranger_unseen :
    CallRuns.get ⟨⟨"r", "o", 1⟩, "r", 1⟩ family "c" = some (runAt "c" 1 (some "r")).run ∧
      CallRuns.get ⟨⟨"r", "o", 1⟩, "r", 1⟩ neighbours "x" = none := by
  -- No climb has two steps.
  have hnested : ∀ σ, σ = family ∨ σ = neighbours → Nested σ 1 := by
    intro σ hσ n a b h _
    cases n with
    | zero => omega
    | succ n =>
      obtain ⟨c, hup, hrest⟩ := h
      cases n with
      | zero => omega
      | succ n =>
        obtain ⟨d, hup', _⟩ := hrest
        exact absurd ((up_neighbours hσ hup).2.symm.trans (up_neighbours hσ hup').1) (by decide)
  -- The tree of the run is itself and its child, in both stores.
  have hscope : ∀ σ, σ = family ∨ σ = neighbours → ∀ id, InScope σ "r" id → id = "r" ∨ id = "c" := by
    rintro σ hσ id ((heq | hbelow) | habove)
    · exact .inl heq
    · obtain ⟨b, hup, _⟩ := Relation.TransGen.head'_iff.mp hbelow
      exact .inr (up_neighbours hσ hup).1
    · obtain ⟨b, hup, _⟩ := Relation.TransGen.head'_iff.mp habove
      exact absurd (up_neighbours hσ hup).1 (by decide)
  have hagree : Agree "r" family neighbours := by
    intro id hid
    have hid : id = "r" ∨ id = "c" :=
      hid.elim (hscope family (.inl rfl) id) (hscope neighbours (.inr rfl) id)
    rcases hid with rfl | rfl
    · exact ⟨rfl, rfl⟩
    · exact ⟨rfl, rfl⟩
  obtain ⟨hget, _, _, _, hsame⟩ :=
    handler_sees_lineage ⟨⟨"r", "o", 1⟩, "r", 1⟩ family (hnested family (.inl rfl))
  -- The child is below the run, and the two stores agree on the stranger, whom the first does not have.
  constructor
  · refine (hget "c" _).mpr ⟨⟨_, rfl, rfl⟩, .inl (.inr (.single ⟨_, _, rfl, rfl, rfl⟩))⟩
  · rw [← (hsame neighbours (hnested neighbours (.inr rfl)) hagree "x").1]
    rfl

end Ouro.Runtime
