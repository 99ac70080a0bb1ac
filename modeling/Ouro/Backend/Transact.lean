import Ouro.Backend.Serial

/-!
# Operations on the memory backend

A store operation is a closure over a transaction: calls that depend on the answers before them, and a
result or an error (`Program`). `transact` runs it in attempts: a result is committed and the attempt
repeated on a conflict; an error ends the operation at once, and what it read is not validated.

So an error is one the operation alone returns (`Program.alone`) if what the attempt read still stands
when it stops (`Steady`).
-/

namespace Ouro

open Lib

namespace Backend

/-! ### Operations -/

/-- An operation: a result, an error, or a call and what follows its answer. -/
inductive Program (V E R : Type) where
  | ret (r : R)
  | fail (e : E)
  | call (a : Access V) (next : Answer V → Program V E R)

namespace Program

variable {V E R S : Type}

/-- One operation after another. -/
def bind : Program V E R → (R → Program V E S) → Program V E S
  | ret r, f => f r
  | fail e, _ => fail e
  | call a next, f => call a fun answer => (next answer).bind f

instance : Monad (Program V E) where
  pure := ret
  bind := bind

/-- The operation run alone on a plain map. -/
def alone (readOnly : Bool) : Program V E R → Table Key V → Except E R
  | ret r, _ => .ok r
  | fail e, _ => .error e
  | call a next, m => (next (plain readOnly m a).1).alone readOnly (plain readOnly m a).2

/-- The operation is at `rest` once its calls were answered so. -/
def Follows : List (Access V × Answer V) → Program V E R → Program V E R → Prop
  | [], op, rest => rest = op
  | (b, answer) :: calls, call a next, rest => b = a ∧ Follows calls (next answer) rest
  | _ :: _, _, _ => False

theorem Follows.snoc {op : Program V E R} {calls : List (Access V × Answer V)} {a : Access V}
    {next : Answer V → Program V E R} (h : Follows calls op (call a next)) (answer : Answer V) :
    Follows (calls ++ [(a, answer)]) op (next answer) := by
  induction calls generalizing op with
  | nil =>
    obtain rfl : call a next = op := h
    exact ⟨rfl, rfl⟩
  | cons first calls ih =>
    cases op with
    | ret r => exact h.elim
    | fail e => exact h.elim
    | call b more => exact ⟨h.1, ih h.2⟩

/-- An operation whose calls replay on a map ends there as it ended. -/
theorem Follows.alone {op rest : Program V E R} {calls : List (Access V × Answer V)}
    (h : Follows calls op rest) {readOnly : Bool} {m m' : Table Key V}
    (hreplays : Replays readOnly m calls m') : op.alone readOnly m = rest.alone readOnly m' := by
  induction calls generalizing op m with
  | nil =>
    obtain rfl : rest = op := h
    obtain rfl : m' = m := hreplays
    rfl
  | cons first calls ih =>
    obtain ⟨b, answer⟩ := first
    cases op with
    | ret r => exact h.elim
    | fail e => exact h.elim
    | call a next =>
      obtain ⟨rfl, hrest⟩ := h
      obtain ⟨rfl, hreplays⟩ := hreplays
      exact ih hrest hreplays

end Program

/-! ### Attempts -/

variable {V E R : Type}

/-- Why an operation fails: with its own error, or for contention. -/
inductive Failure (E : Type) where
  | operation (e : E)
  | contention
deriving DecidableEq

/-- An operation that is under way: what is left of its attempt, and how many attempts are left. -/
structure Client (V E R : Type) where
  op : Program V E R
  readOnly : Bool
  left : Nat
  rest : Program V E R
  tx : Transaction V

/-- A new attempt. -/
def Client.attempt (op : Program V E R) (readOnly : Bool) (left : Nat) : Client V E R :=
  { op, readOnly, left, rest := op, tx := .begin_ readOnly }

/-- The backend and the operations under way. -/
structure System (V E R : Type) where
  rows : Versioned V
  clients : Nat → Option (Client V E R)

/-- The backend without rows and operations. -/
def System.empty : System V E R := { rows := .empty, clients := fun _ => none }

/-- The attempts of an operation. -/
def attempts : Nat := 128

/-- An operation starts, or takes its next step. -/
inductive Move (V E R : Type) where
  | start (i : Nat) (readOnly : Bool) (op : Program V E R)
  | advance (i : Nat) (drawn : Key → Uuid)

/-- One step of an operation: a call, the commit of its result, or the end with an error. What it
returns, if it is over. -/
def System.advance (system : System V E R) (i : Nat) (client : Client V E R) (drawn : Key → Uuid) :
    Option (Except (Failure E) R) × System V E R :=
  match client.rest with
  | .call a next =>
    let (answer, tx) := client.tx.access system.rows a
    (none, { system with
      clients := Function.update system.clients i (some { client with rest := next answer, tx }) })
  | .fail e =>
    (some (.error (.operation e)), { system with clients := Function.update system.clients i none })
  | .ret r =>
    match client.tx.commit system.rows drawn with
    | some rows => (some (.ok r), { rows, clients := Function.update system.clients i none })
    | none =>
      match client.left with
      | 0 => (some (.error .contention), { system with clients := Function.update system.clients i none })
      | left + 1 => (none, { system with
          clients := Function.update system.clients i (some (.attempt client.op client.readOnly left)) })

/-- Takes one step. -/
def System.step (system : System V E R) : Move V E R → Option (Except (Failure E) R) × System V E R
  | .start i readOnly op => (none, { system with
      clients := Function.update system.clients i (some (.attempt op readOnly (attempts - 1))) })
  | .advance i drawn =>
    match system.clients i with
    | none => (none, system)
    | some client => system.advance i client drawn

/-- The system after some steps, from the empty backend. -/
def System.after (moves : List (Move V E R)) : System V E R :=
  moves.foldl (fun system move => (system.step move).2) .empty

theorem System.after_concat (moves : List (Move V E R)) (move : Move V E R) :
    System.after (moves ++ [move]) = ((System.after moves).step move).2 := by
  simp [System.after, List.foldl_append]

/-! ### Errors -/

/-- A version is drawn anew at each write of a row. -/
def FreshMoves (moves : List (Move V E R)) : Prop :=
  ∀ earlier i drawn later, moves = earlier ++ .advance i drawn :: later →
    ∀ j other, .advance j other ∈ earlier → ∀ k, drawn k ≠ other k

/-- The operation began with `before` behind it and is still under way after `since`. -/
def Began (moves : List (Move V E R)) (i : Nat) (readOnly : Bool) (op : Program V E R)
    (before since : List (Move V E R)) : Prop :=
  moves = before ++ .start i readOnly op :: since ∧ ∀ readOnly' op', .start i readOnly' op' ∉ since

/-- Every error an operation stops with is one it returns alone on rows that were committed between
its start and its end. -/
def ErrorsSerial (moves : List (Move V E R)) : Prop :=
  ∀ earlier i drawn later e, moves = earlier ++ .advance i drawn :: later →
    ((System.after earlier).step (.advance i drawn)).1 = some (.error (.operation e)) →
    ∃ readOnly op before since ended, Began earlier i readOnly op before (since ++ ended) ∧
      op.alone readOnly
        (values (System.after (before ++ .start i readOnly op :: since)).rows) = .error e

/-- When an operation stops with an error, everything its attempt read is as it was. -/
def Steady (moves : List (Move V E R)) : Prop :=
  ∀ earlier i drawn later client e, moves = earlier ++ .advance i drawn :: later →
    (System.after earlier).clients i = some client → client.rest = .fail e →
    client.tx.valid (System.after earlier).rows = true

/-- What holds of an operation under way. -/
structure Underway (stamp : Key → Uuid → V → Prop) (moves : List (Move V E R)) (i : Nat)
    (client : Client V E R) : Prop where
  began : ∃ before since, Began moves i client.readOnly client.op before since
  explained : ∃ calls, Program.Follows calls client.op client.rest ∧
    Explained stamp client.tx { readOnly := client.readOnly, calls }

theorem Began.concat {moves : List (Move V E R)} {i : Nat} {readOnly : Bool} {op : Program V E R}
    {before since : List (Move V E R)} (h : Began moves i readOnly op before since) {move : Move V E R}
    (hmove : ∀ readOnly' op', move ≠ .start i readOnly' op') :
    Began (moves ++ [move]) i readOnly op before (since ++ [move]) := by
  obtain ⟨rfl, hnone⟩ := h
  refine ⟨by simp, fun readOnly' op' hmem => ?_⟩
  rcases List.mem_append.mp hmem with hmem | hmem
  · exact hnone readOnly' op' hmem
  · exact hmove readOnly' op' (List.mem_singleton.mp hmem).symm

/-- The invariant of the system: stamped versions name values, the rows are stamped, and every operation
under way is explained. -/
structure Running (stamp : Key → Uuid → V → Prop) (moves : List (Move V E R)) : Prop where
  unique : ∀ k v x y, stamp k v x → stamp k v y → x = y
  rows : ∀ k v x, (System.after moves).rows.get k = some (v, x) → stamp k v x
  clients : ∀ i client, (System.after moves).clients i = some client → Underway stamp moves i client
  drawn : ∀ k v x, stamp k v x → ∃ i drawn, .advance i drawn ∈ moves ∧ v = drawn k

/-- A step that leaves the rows and touches one operation keeps the invariant. -/
theorem Running.update {stamp : Key → Uuid → V → Prop} {moves : List (Move V E R)}
    (h : Running stamp moves) {move : Move V E R} {i : Nat} {o : Option (Client V E R)}
    (hafter : ((System.after moves).step move).2 =
      { rows := (System.after moves).rows, clients := Function.update (System.after moves).clients i o })
    (hmove : ∀ j readOnly op, j ≠ i → move ≠ .start j readOnly op)
    (ho : ∀ client, o = some client → Underway stamp (moves ++ [move]) i client) :
    Running stamp (moves ++ [move]) := by
  refine ⟨h.unique, fun k v x hx => ?_, fun j client hj => ?_, fun k v x hx => ?_⟩
  · rw [System.after_concat, hafter] at hx
    exact h.rows k v x hx
  · rw [System.after_concat, hafter] at hj
    by_cases hji : j = i
    · subst hji
      exact ho client (by simpa using hj)
    · have hold := h.clients j client (by simpa [Function.update_of_ne hji] using hj)
      obtain ⟨before, since, hbegan⟩ := hold.began
      exact ⟨⟨before, _, hbegan.concat fun readOnly op => hmove j readOnly op hji⟩, hold.explained⟩
  · obtain ⟨j, drawn, hmem, hv⟩ := h.drawn k v x hx
    exact ⟨j, drawn, List.mem_append_left _ hmem, hv⟩

/-- A new attempt is under way. -/
theorem underway_attempt {stamp : Key → Uuid → V → Prop} {moves : List (Move V E R)} {i left : Nat}
    {op : Program V E R} {readOnly : Bool}
    (h : ∃ before since, Began moves i readOnly op before since) :
    Underway stamp moves i (.attempt op readOnly left) where
  began := h
  explained := ⟨[], rfl, explained_begin stamp readOnly⟩

/-- The commit of a result keeps the invariant. -/
theorem Running.commit {stamp : Key → Uuid → V → Prop} {moves : List (Move V E R)}
    (h : Running stamp moves) {i : Nat} {drawn : Key → Uuid} (client : Client V E R)
    (hafter : ((System.after moves).step (.advance i drawn)).2 =
      { rows := client.tx.applied (System.after moves).rows drawn
        clients := Function.update (System.after moves).clients i none })
    (hfresh : ∀ k x, ¬stamp k (drawn k) x) :
    Running (stamped stamp client.tx drawn) (moves ++ [.advance i drawn]) := by
  obtain ⟨hunique, hrows⟩ := stamped_applied client.tx h.unique h.rows hfresh
  refine ⟨hunique, fun k v x hx => ?_, fun j other hj => ?_, ?_⟩
  · rw [System.after_concat, hafter] at hx
    exact hrows k v x hx
  · rw [System.after_concat, hafter] at hj
    have hji : j ≠ i := by
      rintro rfl
      simp at hj
    have hold := h.clients j other (by simpa [Function.update_of_ne hji] using hj)
    obtain ⟨before, since, hbegan⟩ := hold.began
    obtain ⟨calls, hfollows, hexplained⟩ := hold.explained
    exact ⟨⟨before, _, hbegan.concat (by simp)⟩, calls, hfollows, hexplained.mono fun k v x => .inl⟩
  · rintro k v x (hx | ⟨rfl, -⟩)
    · obtain ⟨j, other, hmem, hv⟩ := h.drawn k v x hx
      exact ⟨j, other, List.mem_append_left _ hmem, hv⟩
    · exact ⟨i, drawn, by simp, rfl⟩

theorem running_after {moves : List (Move V E R)} (hfresh : FreshMoves moves) :
    ∃ stamp, Running stamp moves := by
  -- Step by step at the end of the moves.
  induction moves using List.reverseRecOn with
  | nil =>
    refine ⟨fun _ _ _ => False, fun k v x y hx => hx.elim, fun k v x hx => ?_, fun i client hi => ?_,
      fun k v x hx => hx.elim⟩
    · simp [System.after, System.empty] at hx
    · simp [System.after, System.empty] at hi
  | append_singleton moves move ih =>
    obtain ⟨stamp, h⟩ := ih fun earlier i drawn later heq =>
      hfresh earlier i drawn (later ++ [move]) (by simp [heq])
    cases move with
    -- An operation that starts has made no call.
    | start i readOnly op =>
      refine ⟨stamp, h.update (i := i) rfl (fun j readOnly' op' hj heq => ?_) fun client hc => ?_⟩
      · exact hj (Move.start.inj heq).1.symm
      · rw [← Option.some.inj hc]
        exact underway_attempt ⟨moves, [], rfl, by simp⟩
    | advance i drawn =>
      have hnone : ∀ j readOnly op, j ≠ i → (Move.advance i drawn : Move V E R) ≠ .start j readOnly op :=
        fun _ _ _ _ => by simp
      -- A client that is not under way does nothing.
      cases hclient : (System.after moves).clients i with
      | none =>
        refine ⟨stamp, h.update (i := i) (o := none) ?_ hnone (by simp)⟩
        simp only [System.step, hclient]
        rw [← hclient, Function.update_eq_self]
      | some client =>
        have hunder := h.clients i client hclient
        obtain ⟨before, since, hbegan⟩ := hunder.began
        obtain ⟨calls, hfollows, hexplained⟩ := hunder.explained
        have hbegan' : Began (moves ++ [.advance i drawn]) i client.readOnly client.op before
            (since ++ [.advance i drawn]) := hbegan.concat (by simp)
        cases hrest : client.rest with
        -- One call more: it is recorded, and the operation is where its program is after this answer.
        | call a next =>
          refine ⟨stamp, h.update (i := i) (o := some { client with
            rest := next (client.tx.access (System.after moves).rows a).1
            tx := (client.tx.access (System.after moves).rows a).2 }) ?_ hnone fun client' hc => ?_⟩
          · simp only [System.step, hclient, System.advance, hrest]
          · rw [← Option.some.inj hc]
            rw [hrest] at hfollows
            exact ⟨⟨before, _, hbegan'⟩, _, hfollows.snoc _, hexplained.access h.rows a⟩
        -- An error ends it, and nothing is written.
        | fail e =>
          refine ⟨stamp, h.update (i := i) (o := none) ?_ hnone (by simp)⟩
          simp only [System.step, hclient, System.advance, hrest]
        -- A result is committed, or found in conflict; a conflict starts the next attempt, while there is one.
        | ret r =>
          cases hvalid : client.tx.valid (System.after moves).rows with
          | true =>
            refine ⟨_, h.commit client ?_ fun k x hx => ?_⟩
            · simp only [System.step, hclient, System.advance, hrest, Transaction.commit, hvalid, if_true]
            · obtain ⟨j, other, hmem, hv⟩ := h.drawn k _ x hx
              exact hfresh moves i drawn [] rfl j other hmem k hv
          | false =>
            have hcommit : client.tx.commit (System.after moves).rows drawn = none := by
              simp [Transaction.commit, hvalid]
            cases hleft : client.left with
            | zero =>
              refine ⟨stamp, h.update (i := i) (o := none) ?_ hnone (by simp)⟩
              simp only [System.step, hclient, System.advance, hrest, hcommit, hleft]
            | succ left =>
              refine ⟨stamp, h.update (i := i) (o := some (.attempt client.op client.readOnly left))
                ?_ hnone fun client' hc => ?_⟩
              · simp only [System.step, hclient, System.advance, hrest, hcommit, hleft]
              · rw [← Option.some.inj hc]
                exact underway_attempt ⟨before, _, hbegan'⟩

/-- An operation that stops with an error. -/
theorem failed_of_step {system : System V E R} {i : Nat} {drawn : Key → Uuid} {e : E}
    (h : (system.step (.advance i drawn)).1 = some (.error (.operation e))) :
    ∃ client, system.clients i = some client ∧ client.rest = .fail e := by
  cases hclient : system.clients i with
  | none => simp [System.step, hclient] at h
  | some client =>
    refine ⟨client, rfl, ?_⟩
    simp only [System.step, hclient, System.advance] at h
    cases hrest : client.rest with
    | call a next => simp [hrest] at h
    | fail e' =>
      rw [hrest] at h
      obtain rfl : e' = e := by simpa using h
      rfl
    | ret r =>
      rw [hrest] at h
      cases hcommit : client.tx.commit system.rows drawn with
      | some rows => simp [hcommit] at h
      | none => cases hleft : client.left <;> simp [hcommit, hleft] at h

/-! ### Runs with numbered versions -/

/-- A run in which the versions are numbered: `none` starts an operation, `some` advances one. -/
def numbered : Nat → List ((Nat × Bool × Program V E R) ⊕ Nat) → List (Move V E R)
  | _, [] => []
  | n, .inl (i, readOnly, op) :: plan => .start i readOnly op :: numbered n plan
  | n, .inr i :: plan => .advance i (fun _ => BitVec.ofNat 128 n) :: numbered (n + 1) plan

theorem mem_numbered {n : Nat} {plan : List ((Nat × Bool × Program V E R) ⊕ Nat)} {i : Nat}
    {drawn : Key → Uuid} (h : .advance i drawn ∈ numbered n plan) :
    ∃ m, n ≤ m ∧ m < n + plan.length ∧ drawn = fun _ => BitVec.ofNat 128 m := by
  induction plan generalizing n with
  | nil => simp [numbered] at h
  | cons first plan ih =>
    cases first with
    | inl start =>
      obtain ⟨m, hle, hlt, hm⟩ := ih (by simpa [numbered] using h)
      exact ⟨m, hle, by simp only [List.length_cons]; omega, hm⟩
    | inr j =>
      rcases List.mem_cons.mp h with heq | hmem
      · exact ⟨n, le_rfl, by simp, (Move.advance.inj heq).2⟩
      · obtain ⟨m, hle, hlt, hm⟩ := ih hmem
        exact ⟨m, by omega, by simp only [List.length_cons]; omega, hm⟩

theorem start_mem_numbered {n : Nat} {plan : List ((Nat × Bool × Program V E R) ⊕ Nat)} {i : Nat}
    {readOnly : Bool} {op : Program V E R} (h : .start i readOnly op ∈ numbered n plan) :
    .inl (i, readOnly, op) ∈ plan := by
  induction plan generalizing n with
  | nil => simp [numbered] at h
  | cons first plan ih =>
    cases first with
    | inl start =>
      rcases List.mem_cons.mp h with heq | hmem
      · obtain ⟨rfl, rfl, rfl⟩ := Move.start.inj heq
        exact List.mem_cons_self
      · exact List.mem_cons_of_mem _ (ih hmem)
    | inr j => exact List.mem_cons_of_mem _ (ih (by simpa [numbered] using h))

theorem advance_mem_numbered {n : Nat} {plan : List ((Nat × Bool × Program V E R) ⊕ Nat)} {i : Nat}
    {drawn : Key → Uuid} (h : .advance i drawn ∈ numbered n plan) : .inr i ∈ plan := by
  induction plan generalizing n with
  | nil => simp [numbered] at h
  | cons first plan ih =>
    cases first with
    | inl start => exact List.mem_cons_of_mem _ (ih (by simpa [numbered] using h))
    | inr j =>
      rcases List.mem_cons.mp h with heq | hmem
      · obtain ⟨rfl, -⟩ := Move.advance.inj heq
        exact List.mem_cons_self
      · exact List.mem_cons_of_mem _ (ih hmem)

theorem fresh_numbered {n : Nat} {plan : List ((Nat × Bool × Program V E R) ⊕ Nat)}
    (h : n + plan.length ≤ 2 ^ 128) : FreshMoves (numbered n plan) := by
  -- The versions are the positions of the moves, so no two moves draw the same.
  induction plan generalizing n with
  | nil =>
    intro earlier i drawn later heq
    simp [numbered] at heq
  | cons first plan ih =>
    intro earlier i drawn later heq j other hmem k
    cases earlier with
    | nil => simp at hmem
    | cons move earlier =>
      simp only [List.length_cons] at h
      cases first with
      | inl start =>
        obtain ⟨rfl, hrest⟩ := List.cons.inj heq
        refine ih (by omega) earlier i drawn later hrest j other ?_ k
        simpa using hmem
      | inr i' =>
        obtain ⟨rfl, hrest⟩ := List.cons.inj heq
        rcases List.mem_cons.mp hmem with hfirst | hmem
        · -- a later version has a greater number
          have hlater : .advance i drawn ∈ numbered (n + 1) plan := by
            rw [hrest]
            simp
          obtain ⟨m, hle, hlt, rfl⟩ := mem_numbered hlater
          rw [(Move.advance.inj hfirst).2]
          intro hsame
          have := congrArg BitVec.toNat hsame
          simp only [BitVec.toNat_ofNat] at this
          rw [Nat.mod_eq_of_lt (by omega), Nat.mod_eq_of_lt (by omega)] at this
          omega
        · exact ih (by omega) earlier i drawn later hrest j other hmem k

/-! ### Errors of steady runs -/

/-- In every run in which what a failing attempt read still stands when it stops, every error is one
the operation returns alone. -/
theorem errors_serial_of_steady (moves : List (Move V E R)) (hfresh : FreshMoves moves)
    (hsteady : Steady moves) : ErrorsSerial moves := by
  intro earlier i drawn later e heq hfail
  obtain ⟨client, hclient, hrest⟩ := failed_of_step hfail
  have hfresh' : FreshMoves earlier := fun earlier' i' drawn' later' heq' =>
    hfresh earlier' i' drawn' (later' ++ .advance i drawn :: later) (by simp [heq, heq'])
  obtain ⟨stamp, hrunning⟩ := running_after hfresh'
  have hunder := hrunning.clients i client hclient
  obtain ⟨before, since, hbegan⟩ := hunder.began
  obtain ⟨calls, hfollows, hexplained⟩ := hunder.explained
  refine ⟨client.readOnly, client.op, before, since, [], by simpa using hbegan, ?_⟩
  rw [← hbegan.1]
  -- what was read stands, so the calls replay on the rows committed now
  have hagrees := agrees_of_valid (hsteady earlier i drawn later client e heq hclient hrest)
  have hrespects : Respects stamp (System.after earlier).rows := fun k v x y hy hx =>
    hrunning.unique k v y x (hrunning.rows k v y hy) hx
  have hreplays := hexplained.replays _ hrespects hagrees
  rw [← hexplained.readOnly] at hreplays
  rw [hfollows.alone hreplays, hrest]
  rfl

end Backend

end Ouro
