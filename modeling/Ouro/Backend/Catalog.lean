import Ouro.Backend.Transact
import Ouro.Durable.Operations

/-!
# Definitions and triggers as calls

The operations that save and activate a definition and the query for due triggers, one row at a time:
each is the sequence of calls it makes on its transaction. The query reads an index and then the row
of each trigger the index names.

* What an activation has read may stand when it stops, whatever else commits meanwhile. Its error is one
  it returns alone (`unknown_version_serial`).
* An activation that commits between the reads of the query takes a trigger away that the index named.
  The query stops with an error that no order of the two explains (`dangling_trigger`).
-/

namespace Ouro

open Lib

namespace Backend

/-- A stored value, by what the row's kind holds. -/
inductive Row where
  | flag (b : Bool)
  | key (k : String)
  | trigger (t : Trigger)
  | queued (q : Queued)
  | definitions (defs : Definitions)
deriving DecidableEq

/-- A store operation with its error's text. -/
abbrev Operation := Program Row String

namespace Operation

/-! ### Rows -/

def get (kind id : String) : Operation (Option Row) :=
  .call (.get kind id) fun
    | .value value => .ret value
    | _ => .fail "no answer"

def scan (kind start : String) (end_ : Option String) (limit : Nat) :
    Operation (List (Key × Row)) :=
  .call (.scan kind start end_ limit) fun
    | .rows rows => .ret rows
    | _ => .fail "no answer"

/-- A write; a transaction that only reads refuses it. -/
def write (a : Access Row) : Operation Unit :=
  .call a fun
    | .done => .ret ()
    | _ => .fail "a read transaction cannot mutate data"

def put (kind id : String) (value : Row) : Operation Unit := write (.put kind id value)

def delete (kind id : String) : Operation Unit := write (.delete kind id)

def ensure (c : Bool) (e : String) : Operation Unit := if c then .ret () else .fail e

def orFail {α : Type} (o : Option α) (e : String) : Operation α := o.elim (.fail e) .ret

/-- Runs `f` for each element, in order. -/
def each {α : Type} (f : α → Operation Unit) : List α → Operation Unit
  | [] => .ret ()
  | a :: l => (f a).bind fun _ => each f l

/-- The row, decoded. -/
def getAs {α : Type} (decode : Row → Option α) (kind id : String) : Operation (Option α) := do
  match ← get kind id with
  | none => pure none
  | some row => some <$> orFail (decode row) "invalid type"

def getTrigger (k : String) : Operation (Option Trigger) :=
  getAs (fun | .trigger t => some t | _ => none) "trigger" k

/-! ### Addresses -/

/-- Flips the sign bit so that the order of texts also covers negative instants. -/
def timeKey (ms : Int) : String := Engine.hex16 (ms + 2 ^ 63).toNat

def timed (ms : Int) (id : String) : String := timeKey ms ++ ":" ++ id

/-- The exclusive end of the timed keys up to an instant inclusive. -/
def until_ (ms : Int) : String := timeKey ms ++ ";"

def partition (kind value : String) : String := kind ++ ":" ++ component value

/-! ### Triggers -/

/-- The index rows of a trigger. -/
def triggerIndexes (key : String) (t : Trigger) : Table Key Row :=
  let due : Table Key Row :=
    t.atMs.elim .empty fun at_ => Table.empty.put (toLex ("trigger_due", timed at_ key)) (.key key)
  t.types.foldl (fun rows type_ => rows.put (toLex (partition "trigger_type" type_, key)) (.key key)) due

/-- The writes that turn one set of rows into another. -/
def changes (before after : Table Key Row) : List (Key × Option Row) :=
  (after.rows.filter fun row => before.get row.1 ≠ some row.2).map (fun row => (row.1, some row.2)) ++
    (before.keys.filter fun k => !after.contains k).map fun k => (k, none)

def change (row : Key × Option Row) : Operation Unit :=
  row.2.elim (delete (ofLex row.1).1 (ofLex row.1).2) (put (ofLex row.1).1 (ofLex row.1).2)

/-- Writes a trigger and moves its index rows. -/
def storeTrigger (key : String) (before after : Option Trigger) : Operation Unit := do
  each change (changes (before.elim .empty (triggerIndexes key)) (after.elim .empty (triggerIndexes key)))
  match after with
  | some t => put "trigger" key (.trigger t)
  | none => if before.isSome then delete "trigger" key else pure ()

/-- The triggers that index rows lead to, each once. -/
def indexedTriggers : List (Key × Row) → List (String × Trigger) → Operation (List (String × Trigger))
  | [], out => .ret out
  | (_, row) :: rows, out => do
    let k ← orFail (match row with | .key k => some k | _ => none) "invalid trigger index"
    if out.any (·.1 == k) then indexedTriggers rows out
    else
      let found ← getTrigger k
      let t ← orFail found ("dangling trigger index " ++ k)
      indexedTriggers rows (out ++ [(k, t)])

def isStopped : Operation Bool := do
  let stopped ← getAs (fun | .flag b => some b | _ => none) "control" "stopped"
  pure (stopped.getD false)

/-- The triggers that are due. -/
def dueTriggers (now : Int) (limit : Nat) : Operation (List (String × Trigger)) := do
  if ← isStopped then pure []
  else
    let keys ← scan "trigger_due" "" (some (until_ now)) limit
    indexedTriggers keys []

def removeQueue (k : String) : Operation Unit := do
  match ← getAs (fun | .queued q => some q | _ => none) "trigger_queue" k with
  | some q =>
    delete "trigger_queue" k
    delete (partition "queue_name" q.admission.name) k
  | none => pure ()

/-- Replaces the triggers a definition owns. -/
def arm (defs : Definitions) (wanted : Table String Trigger) : Operation Definitions := do
  each removeQueue defs.triggers
  each (fun k => do storeTrigger k (← getTrigger k) none) (defs.triggers.filter fun k => !wanted.contains k)
  each (fun row => do storeTrigger row.1 (← getTrigger row.1) (some row.2)) wanted.rows
  pure { defs with triggers := wanted.keys }

/-! ### Definitions -/

def loadDefinitions (name : String) : Operation (Option Definitions) :=
  getAs (fun | .definitions defs => some defs | _ => none) "definitions" name

def storeDefinitions (name : String) (defs : Definitions) : Operation Unit :=
  put "definitions" name (.definitions defs)

def saveDefinition (env : Env) (name yaml : String) (breaker : Breaker) : Operation Definition := do
  let found ← loadDefinitions name
  let defs := found.getD .default
  let version ← orFail (Engine.nextVersion defs) "definition version overflow"
  let d : Definition := { name, version, yaml, digest := env.digestOf yaml, breaker }
  storeDefinitions name { defs with versions := defs.versions.put version d }
  pure d

/-- Activates a version in a new epoch and arms its triggers. -/
def activate (name : String) (version : Nat) (epoch : Option Nat) (triggers : Table String Trigger)
    (activation : Activation) : Operation (Option Definitions) := do
  let found ← loadDefinitions name
  let defs := found.getD .default
  ensure (defs.versions.contains version) "unknown definition version"
  if epoch.any (· ≠ defs.epoch) then pure none
  else
    ensure (decide (defs.epoch < u64Max)) "activation epoch overflow"
    let activated : Activated :=
      { epoch := defs.epoch + 1, atMs := activation.atMs, actor := activation.actor
        note := activation.note }
    let defs :=
      { defs with
        active := some version
        epoch := defs.epoch + 1
        consecutiveFaults := 0
        tripped := none
        activations := defs.activations.put version activated }
    delete "paused" name
    let defs ← arm defs triggers
    storeDefinitions name defs
    pure (some defs)

end Operation

/-! ### An error beside another commit -/

/-- What the operations return. -/
inductive Returned where
  | definition (d : Definition)
  | definitions (defs : Option Definitions)
  | triggers (triggers : List (String × Trigger))
deriving DecidableEq

/-- An environment whose digests are the texts themselves. -/
def sampleEnv : Env :=
  { policy := .default, rfc3339 := fun n => some (toString n), accepts := fun _ _ => .ok true
    digestOf := id, addFloat := fun _ _ => none }

/-- An activation finds its definition without the version it asks for; before it stops, a definition of
another name is saved. -/
def outdated : List ((Nat × Bool × Operation Returned) ⊕ Nat) :=
  .inl (0, false, Returned.definition <$> Operation.saveDefinition sampleEnv "w" "" .inherit) ::
    List.replicate 3 (.inr 0) ++
  .inl (1, false, Returned.definitions <$> Operation.activate "w" 2 none .empty
    { atMs := 1, actor := none, note := none }) :: .inr 1 ::
  .inl (2, false, Returned.definition <$> Operation.saveDefinition sampleEnv "v" "" .inherit) ::
    List.replicate 3 (.inr 2) ++ [.inr 1]

/-- The commit leaves the row the activation read, and its error is one it returns alone. -/
theorem unknown_version_serial :
    (values (System.after ((numbered 0 outdated).take 6)).rows).get (toLex ("definitions", "v")) = none ∧
      ((values (System.after ((numbered 0 outdated).take 10)).rows).get
        (toLex ("definitions", "v"))).isSome = true ∧
      ((System.after ((numbered 0 outdated).take 10)).step (.advance 1 fun _ => BitVec.ofNat 128 7)).1 =
        some (.error (.operation "unknown definition version")) ∧
      ErrorsSerial (numbered 0 outdated) := by
  refine ⟨by decide +kernel, by decide +kernel, by decide +kernel,
    errors_serial_of_steady _ (fresh_numbered (by decide)) ?_⟩
  intro earlier i drawn later client e heq hclient hrest
  -- The condition is about eleven prefixes of the run and three clients, so it can be evaluated.
  have hlength : earlier.length < 11 := by
    have hlen := congrArg List.length heq
    have hall : (numbered 0 outdated).length = 11 := rfl
    rw [hall, List.length_append, List.length_cons] at hlen
    omega
  have htake : (numbered 0 outdated).take earlier.length = earlier := by rw [heq, List.take_left]
  have hi : i < 3 := by
    have hmove : .advance i drawn ∈ numbered 0 outdated := by
      rw [heq]
      simp
    have hmem : .inr i ∈ outdated := advance_mem_numbered hmove
    have hclients : ∀ x ∈ outdated, x.elim (fun _ => true) (fun j => decide (j < 3)) = true := by decide
    simpa using hclients _ hmem
  -- what an operation of this run has read stays as it is while it runs
  have hvalid : ∀ n < 11, ∀ j < 3, ((System.after ((numbered 0 outdated).take n)).clients j).all
      (fun client => client.tx.valid (System.after ((numbered 0 outdated).take n)).rows) = true := by
    decide +kernel
  have hearlier := hvalid earlier.length hlength i hi
  rw [htake, hclient] at hearlier
  exact hearlier

/-! ### An index row without its trigger -/

/-- A definition is saved and activated with one trigger. -/
def armed : List ((Nat × Bool × Operation Returned) ⊕ Nat) :=
  .inl (0, false, Returned.definition <$> Operation.saveDefinition sampleEnv "w" "" .inherit) ::
    List.replicate 3 (.inr 0) ++
  .inl (1, false, Returned.definitions <$> Operation.activate "w" 1 none
    (Table.empty.put "k" { atMs := some 5, types := [], state := .null })
    { atMs := 1, actor := none, note := none }) :: List.replicate 7 (.inr 1)

/-- The query for due triggers. -/
def query : Operation Returned := Returned.triggers <$> Operation.dueTriggers 10 10

/-- The query reads the index; then an activation without triggers commits; then the query reads on. -/
def overtaken : List ((Nat × Bool × Operation Returned) ⊕ Nat) :=
  armed ++ .inl (2, true, query) :: List.replicate 2 (.inr 2) ++
  .inl (3, false, Returned.definitions <$> Operation.activate "w" 1 none .empty
    { atMs := 2, actor := none, note := none }) :: List.replicate 8 (.inr 3) ++
  List.replicate 2 (.inr 2)

/-- Alone, the query has an answer after every step of the run. -/
theorem query_alone : ∀ n < 26, (query.alone true
    (values (System.after ((numbered 0 overtaken).take n)).rows)).toBool = true := by
  decide +kernel

/-- The activation that commits between the two reads of the query takes the trigger away: the query stops
with an error it never returns alone, for alone it has an answer after every step. -/
theorem dangling_trigger :
    FreshMoves (numbered 0 overtaken) ∧ ¬ErrorsSerial (numbered 0 overtaken) := by
  refine ⟨fresh_numbered (by decide), fun h => ?_⟩
  obtain ⟨readOnly, op, before, since, ended, ⟨hmoves, -⟩, halone⟩ :=
    h ((numbered 0 overtaken).take 25) 2 (fun _ => BitVec.ofNat 128 21) [] "dangling trigger index k"
      (by rfl) (by decide +kernel)
  -- the operation is the query, and the rows are those after some of the steps
  have hstart : .start 2 readOnly op ∈ numbered 0 overtaken := by
    refine List.mem_of_mem_take (i := 25) ?_
    rw [hmoves]
    simp
  obtain ⟨rfl, rfl⟩ : readOnly = true ∧ op = query := by
    simpa [overtaken, armed] using start_mem_numbered hstart
  have hlength : (before ++ .start 2 true query :: since).length < 26 := by
    have hlen := congrArg List.length hmoves
    rw [List.length_take, List.length_append, List.length_cons, List.length_append] at hlen
    rw [List.length_append, List.length_cons]
    omega
  have hbefore : (numbered 0 overtaken).take (before ++ .start 2 true query :: since).length =
      before ++ .start 2 true query :: since := by
    rw [← List.take_append_drop 25 (numbered 0 overtaken), hmoves, ← List.cons_append,
      ← List.append_assoc, List.append_assoc (before ++ _), List.take_left]
  -- after these steps the query alone has an answer, so its error is not one it returns alone
  have hok := query_alone _ hlength
  rw [hbefore, halone] at hok
  simp [Except.toBool] at hok

end Backend

end Ouro
