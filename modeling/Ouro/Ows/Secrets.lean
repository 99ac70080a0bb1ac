import Ouro.Durable.Record
import Ouro.Lib.Markers

/-!
# Secrets and their redaction

A run's resolved secrets (`ows::secrets`). What a run persists holds a marker in place of every
occurrence of a secret string (`Redaction.text`, `Redaction.record`) and gets the strings back when it
is loaded (`Redaction.restore`).
-/

namespace Ouro

open Lib

/-! ### A run's secrets -/

/-- Delimits a marker in redacted text; doubled, it is the character itself. -/
def mark : Char := '\x01'

/-- A run's resolved secrets and the redaction they imply. -/
structure Redaction where
  /-- Declared name and value, none when the host has none. -/
  values : List (String × Option Json)
  /-- Every secret string with its marker's path, longest first. -/
  texts : List (String × String)

mutual

/-- The strings of a secret with their paths. -/
def leaves (path : String) : Json → List (String × String)
  | .str s => if s = "" then [] else [(s, path)]
  | .arr items => itemLeaves path 0 items
  | .obj members => memberLeaves path members
  | .null | .bool _ | .num _ => []

/-- The strings of an array's items, from the `i`th on. -/
def itemLeaves (path : String) (i : Nat) : List Json → List (String × String)
  | [] => []
  | v :: items => leaves (path ++ "[" ++ toString i ++ "]") v ++ itemLeaves path (i + 1) items

/-- The strings of an object's members. -/
def memberLeaves (path : String) : List (String × Json) → List (String × String)
  | [] => []
  | (k, v) :: members => leaves (path ++ "." ++ k) v ++ memberLeaves path members

end

namespace Redaction

/-- Longer strings come first, those of a length in the order of their paths. -/
def precedes (a b : String × String) : Prop :=
  b.1.utf8ByteSize < a.1.utf8ByteSize ∨ b.1.utf8ByteSize = a.1.utf8ByteSize ∧ a.2 ≤ b.2

instance : DecidableRel precedes := fun a b =>
  inferInstanceAs (Decidable (b.1.utf8ByteSize < a.1.utf8ByteSize ∨
    b.1.utf8ByteSize = a.1.utf8ByteSize ∧ a.2 ≤ b.2))

/-- Drops what repeats the string before it (`dedup_by`). -/
def dedup : Option String → List (String × String) → List (String × String)
  | _, [] => []
  | last, a :: rest => if last = some a.1 then dedup last rest else a :: dedup (some a.1) rest

/-- The secrets a store gave and their strings. -/
def ofValues (values : List (String × Option Json)) : Redaction :=
  let found := values.flatMap fun (name, value) => value.elim [] (leaves name)
  { values, texts := dedup none (found.insertionSort precedes) }

/-- Resolves every declared secret. -/
def resolve (declared : List String) (store : String → Except String (Option Json)) :
    Except String Redaction :=
  ofValues <$> declared.mapM fun name => (name, ·) <$> store name

/-- Whether there is anything to redact. -/
def active (r : Redaction) : Bool := !r.texts.isEmpty

/-! ### Redaction -/

/-- Puts the marker of one secret string in place of its occurrences. -/
def replace (out : List Char) (entry : String × String) : List Char :=
  Replace.replaceAll (Markers.escape mark entry.1.toList) (mark :: entry.2.toList ++ [mark]) out

/-- The text with every secret replaced by its marker. -/
def text (r : Redaction) (t : String) : String :=
  if r.active then String.ofList (r.texts.foldl replace (Markers.escape mark t.toList)) else t

/-- The string a path leads to; no path is the escaped mark. -/
def found (r : Redaction) (path : List Char) : Except String (List Char) :=
  if path = [] then .ok [mark]
  else
    match r.texts.find? fun entry => entry.2.toList == path with
    | some entry => .ok entry.1.toList
    | none =>
      .error ("a saved value refers to secret `" ++ String.ofList path ++ "`, which is not available")

/-- Puts strings back in place of markers: `path` is what was read of an open marker. A text may end
inside a marker. -/
def restoreFrom (r : Redaction) : Option (List Char) → List Char → Except String (List Char)
  | none, [] => .ok []
  | some path, [] => r.found path
  | none, c :: rest =>
    if c = mark then r.restoreFrom (some []) rest else (c :: ·) <$> r.restoreFrom none rest
  | some path, c :: rest =>
    if c = mark then do
      let s ← r.found path
      (s ++ ·) <$> r.restoreFrom none rest
    else r.restoreFrom (some (path ++ [c])) rest

/-- A redacted text with its secrets back. -/
def restoreText (r : Redaction) (t : String) : Except String String :=
  if mark ∈ t.toList then String.ofList <$> r.restoreFrom none t.toList else .ok t

end Redaction

/-! ### Payloads -/

section Payloads

variable {ε : Type} (f : String → Except ε String)

mutual

/-- Every string of a value mapped, keys included. -/
def mapStrings : Json → Except ε Json
  | .str s => .str <$> f s
  | .arr items => .arr <$> mapItems items
  | .obj members => .obj <$> mapMembers members []
  | .null => .ok .null
  | .bool b => .ok (.bool b)
  | .num n => .ok (.num n)

/-- The items of an array mapped. -/
def mapItems : List Json → Except ε (List Json)
  | [] => .ok []
  | v :: items => do
    let v ← mapStrings v
    (v :: ·) <$> mapItems items

/-- The members of an object mapped, each inserted after those before it. -/
def mapMembers : List (String × Json) → List (String × Json) → Except ε (List (String × Json))
  | [], out => .ok out
  | (k, v) :: members, out => do
    let k ← f k
    let v ← mapStrings v
    mapMembers members (Json.insertMember k v out)

end

/-- An optional text mapped. -/
def mapText : Option String → Except ε (Option String)
  | none => .ok none
  | some s => some <$> f s

def mapError (e : WorkflowError) : Except ε WorkflowError := do
  let type_ ← f e.type_
  let title ← mapText f e.title
  let detail ← mapText f e.detail
  let instance_ ← mapText f e.instance_
  pure { type_, status := e.status, title, detail, instance_ }

def mapOutcome : StepOutcome → Except ε StepOutcome
  | .completed output flow => do
    let output ← mapStrings f output
    pure (.completed output flow)
  | .faulted error fatal => do
    let error ← mapError f error
    pure (.faulted error fatal)

def mapResult : Option TaskResult → Except ε (Option TaskResult)
  | none => .ok none
  | some result => do
    let context ← mapStrings f result.context
    let outcome ← mapOutcome f result.outcome
    pure (some { context, outcome })

def mapState : CallState → Except ε CallState
  | .pending => .ok .pending
  | .notExecuted e => .notExecuted <$> mapError f e
  | .done (.ok v) => (fun v => .done (.ok v)) <$> mapStrings f v
  | .done (.error e) => (fun e => .done (.error e)) <$> mapError f e

/-- A text annotation is a payload too. -/
def mapNote : Annotation → Except ε Annotation
  | .text t => .text <$> f t
  | .number n => .ok (.number n)

/-- The annotations mapped, by name. -/
def mapNotes : List (String × Annotation) → Table String Annotation →
    Except ε (Table String Annotation)
  | [], out => .ok out
  | (name, a) :: rest, out => do
    let a ← mapNote f a
    mapNotes rest (out.put name a)

/-- A record's payloads mapped; its structure, identities and the events the host stored are left as
they are. -/
def convert : Record → Except ε Record
  | .execution version runId definition input runtime startedMs maxTasks maxAttempts => do
    let definition ← mapStrings f definition
    let input ← mapStrings f input
    let runtime ← mapStrings f runtime
    pure (.execution version runId definition input runtime startedMs maxTasks maxAttempts)
  | .task startedMs result => .task startedMs <$> mapResult f result
  | .call logical function arguments delivery state annotations => do
    let arguments ← mapStrings f arguments
    let state ← mapState f state
    let annotations ← mapNotes f annotations.rows .empty
    pure (.call logical function arguments delivery state annotations)
  | .winner output => .winner <$> mapStrings f output
  | .finished (.completed v) => (fun v => .finished (.completed v)) <$> mapStrings f v
  | .finished (.faulted e) => (fun e => .finished (.faulted e)) <$> mapError f e
  | other => .ok other

end Payloads

namespace Redaction

def value (r : Redaction) (v : Json) : Json :=
  if r.active then ((mapStrings (ε := String) (fun s => .ok (r.text s)) v).toOption).getD v else v

def restoreValue (r : Redaction) (v : Json) : Except String Json :=
  if r.active then mapStrings r.restoreText v else .ok v

/-- A record as it may be persisted. -/
def record (r : Redaction) (rec : Record) : Record :=
  if r.active then ((convert (ε := String) (fun s => .ok (r.text s)) rec).toOption).getD rec else rec

/-- A loaded record with its secrets back. -/
def restore (r : Redaction) (rec : Record) : Except String Record :=
  if r.active then convert r.restoreText rec else .ok rec

end Redaction

end Ouro
