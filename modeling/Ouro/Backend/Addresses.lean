import Ouro.Backend.Keys
import Ouro.Durable.Events

/-!
# Addresses of rows

Every row of the store is addressed by a kind and an id. A kind is a word of the engine, followed by the
texts its rows are partitioned by, each in hexadecimal behind a colon. An id is a text of a caller, taken
as it is or in hexadecimal, or a key of fixed width with such a text behind it. `shape` lists the
families of rows, each with its word, the number of texts in its kind and the form of its ids.

No two rows share an address (`address_injective`), whatever the texts hold. What some of these texts are
is another matter: an event is known by its identity, its source and id joined by a separator that
both may hold. `identities_apart_iff` says which events are kept apart.
-/

namespace Ouro

open Lib

namespace Backend

namespace Addresses

open Keys

/-! ### Kinds -/

def partition (kind value : String) : String := kind ++ ":" ++ component value

/-- A run's records, one row each, keyed by record key. -/
def recordsOf (run : String) : String := partition "record" run

def eventsOf (run : String) : String := partition "event" run

def identitiesOf (run : String) : String := partition "event_id" run

def typesOf (run : String) : String := partition "event_type" run

def pendingOf (run type_ : String) : String := partition "pending" run ++ ":" ++ component type_

def liveOf (run type_ : String) : String := partition "live" run ++ ":" ++ component type_

def publishedOf (run : String) : String := partition "published" run

def livePublishedOf (run : String) : String := partition "live_published" run

def expiringOf (run : String) : String := partition "expiry" run

/-- The listing of the waits of a definition for a type. -/
def waitsOf (definition type_ : String) : String :=
  partition "control_wait_definition" definition ++ ":type:" ++ component type_

/-! ### Ids -/

/-- What the ids of a family are made of. -/
inductive Form where
  /-- A text as it is. -/
  | text
  /-- A text in hexadecimal. -/
  | hex
  /-- A sequence number. -/
  | sequence
  /-- An instant. -/
  | instant
  /-- An instant and a text as it is. -/
  | timed
  /-- An instant and a text in hexadecimal. -/
  | timedHex
  /-- An instant and a sequence number. -/
  | timedSequence
  /-- An instant or never, and a sequence number. -/
  | live
  /-- An instant, a run and a key, both in hexadecimal. -/
  | wait
  /-- An instant, a definition's name in hexadecimal and an epoch. -/
  | notice
  /-- The one row of the family. -/
  | stopped
deriving DecidableEq

/-- What an id of the form names. -/
def Form.Data : Form → Type
  | .text | .hex => String
  | .sequence => UInt64
  | .instant => Int64
  | .timed | .timedHex => Int64 × String
  | .timedSequence => Int64 × UInt64
  | .live => Option Int64 × UInt64
  | .wait => Int64 × String × String
  | .notice => Int64 × String × UInt64
  | .stopped => Unit

/-- An id as a text. -/
def Form.id : (form : Form) → form.Data → String
  | .text, (s : String) => s
  | .hex, (s : String) => component s
  | .sequence, (n : UInt64) => Keys.sequence n
  | .instant, (ms : Int64) => timeKey ms
  | .timed, (ms, s) => Keys.timed ms s
  | .timedHex, (ms, s) => Keys.timed ms (component s)
  | .timedSequence, (ms, n) => Keys.timed ms (Keys.sequence n)
  | .live, (expiresAtMs, n) => Keys.live expiresAtMs n
  | .wait, (since, run, key) => Keys.timed since (waitText run key)
  | .notice, (ms, name, epoch) => Keys.timed ms (component name ++ ":" ++ Keys.sequence epoch)
  | .stopped, () => "stopped"

/-! ### Families -/

/-- The families of rows. -/
inductive Family where
  | run | record | event | eventId | eventType | pending | live | published | livePublished | expiry
  | delivered | budget | definitions | notice | totals | name | liveName | due | dueApp | wait | subs
  | mailbox | children | finished | trigger | triggerDue | triggerType | triggerRun | triggerLive
  | triggerQueue | queueName | ingress | ingressDue | paused | control | controlDrain | controlCommand
  | controlHistory | controlHistoryRun | controlResponse | controlRun | controlRunOf | controlEnd
  | controlEndOf | controlParent | controlWait | controlWaitRun | controlWaitDefinition
  | controlWaitType | controlWaitDefinitionType | worker | workerExpiry
deriving DecidableEq

/-- How the rows of a family are addressed. -/
structure Shape where
  word : String
  /-- The number of texts the rows are partitioned by. -/
  arity : Nat
  form : Form

/-- The word, the partition and the ids of each family. -/
def Family.shape : Family → Shape
  | .run => ⟨"run", 0, .text⟩
  | .record => ⟨"record", 1, .text⟩
  | .event => ⟨"event", 1, .sequence⟩
  | .eventId => ⟨"event_id", 1, .hex⟩
  | .eventType => ⟨"event_type", 1, .hex⟩
  | .pending => ⟨"pending", 2, .sequence⟩
  | .live => ⟨"live", 2, .live⟩
  | .published => ⟨"published", 1, .sequence⟩
  | .livePublished => ⟨"live_published", 1, .live⟩
  | .expiry => ⟨"expiry", 1, .timedSequence⟩
  | .delivered => ⟨"delivered", 1, .text⟩
  | .budget => ⟨"budget", 0, .text⟩
  | .definitions => ⟨"definitions", 0, .text⟩
  | .notice => ⟨"notice", 0, .notice⟩
  | .totals => ⟨"totals", 1, .instant⟩
  | .name => ⟨"name", 1, .text⟩
  | .liveName => ⟨"live_name", 1, .text⟩
  | .due => ⟨"due", 0, .timed⟩
  | .dueApp => ⟨"due_app", 1, .timed⟩
  | .wait => ⟨"wait", 1, .timed⟩
  | .subs => ⟨"subs", 1, .text⟩
  | .mailbox => ⟨"mailbox", 0, .timed⟩
  | .children => ⟨"children", 1, .text⟩
  | .finished => ⟨"finished", 0, .timed⟩
  | .trigger => ⟨"trigger", 0, .text⟩
  | .triggerDue => ⟨"trigger_due", 0, .timed⟩
  | .triggerType => ⟨"trigger_type", 1, .text⟩
  | .triggerRun => ⟨"trigger_run", 0, .text⟩
  | .triggerLive => ⟨"trigger_live", 1, .text⟩
  | .triggerQueue => ⟨"trigger_queue", 0, .text⟩
  | .queueName => ⟨"queue_name", 1, .text⟩
  | .ingress => ⟨"ingress", 0, .hex⟩
  | .ingressDue => ⟨"ingress_due", 0, .timedHex⟩
  | .paused => ⟨"paused", 0, .text⟩
  | .control => ⟨"control", 0, .stopped⟩
  | .controlDrain => ⟨"control_drain", 0, .text⟩
  | .controlCommand => ⟨"control_command", 0, .text⟩
  | .controlHistory => ⟨"control_history", 0, .timedHex⟩
  | .controlHistoryRun => ⟨"control_history_run", 1, .timedHex⟩
  | .controlResponse => ⟨"control_response", 1, .hex⟩
  | .controlRun => ⟨"control_run", 0, .timed⟩
  | .controlRunOf => ⟨"control_run", 1, .timed⟩
  | .controlEnd => ⟨"control_end", 0, .timed⟩
  | .controlEndOf => ⟨"control_end", 1, .timed⟩
  | .controlParent => ⟨"control_parent", 1, .timed⟩
  | .controlWait => ⟨"control_wait", 0, .wait⟩
  | .controlWaitRun => ⟨"control_wait_run", 1, .wait⟩
  | .controlWaitDefinition => ⟨"control_wait_definition", 1, .wait⟩
  | .controlWaitType => ⟨"control_wait_type", 1, .wait⟩
  | .controlWaitDefinitionType => ⟨"control_wait_definition", 2, .wait⟩
  | .worker => ⟨"worker", 0, .text⟩
  | .workerExpiry => ⟨"worker_expiry", 0, .timedHex⟩

/-- The parts of a kind between its colons. The types of a definition's waits stand behind a word of
their own. -/
def Family.parts (f : Family) (values : List String) : List String :=
  match f, values with
  | .controlWaitDefinitionType, [definition, type_] =>
    [f.shape.word, component definition, "type", component type_]
  | f, values => f.shape.word :: values.map component

def Family.kind (f : Family) (values : List String) : String := ":".intercalate (f.parts values)

theorem Family.parts_of_ne (f : Family) (hf : f ≠ .controlWaitDefinitionType) (values : List String) :
    f.parts values = f.shape.word :: values.map component := by
  unfold parts
  split
  · exact absurd rfl hf
  · rfl

/-- A row the engine means: its family, the texts it is partitioned by and what its id names. -/
structure Subject where
  family : Family
  values : List String
  arity : values.length = family.shape.arity
  id : family.shape.form.Data

/-- The kind and the id of a row. -/
def Subject.address (s : Subject) : String × String :=
  (s.family.kind s.values, s.family.shape.form.id s.id)

/-- The kinds of the source are those of its families. -/
theorem kinds_of_source (k t : String) (f : Family) (hf : f ≠ .controlWaitDefinitionType) :
    f.kind [] = f.shape.word ∧ f.kind [k] = partition f.shape.word k ∧
      Family.kind .record [k] = recordsOf k ∧ Family.kind .event [k] = eventsOf k ∧
      Family.kind .eventId [k] = identitiesOf k ∧ Family.kind .eventType [k] = typesOf k ∧
      Family.kind .pending [k, t] = pendingOf k t ∧ Family.kind .live [k, t] = liveOf k t ∧
      Family.kind .published [k] = publishedOf k ∧
      Family.kind .livePublished [k] = livePublishedOf k ∧ Family.kind .expiry [k] = expiringOf k ∧
      Family.kind .controlWaitDefinitionType [k, t] = waitsOf k t := by
  -- families with no parts, one part and two parts
  have hnil : f.kind [] = f.shape.word := by
    rw [Family.kind, f.parts_of_ne hf]
    rfl
  have hone (f : Family) (hf : f ≠ .controlWaitDefinitionType) :
      f.kind [k] = partition f.shape.word k := by
    rw [Family.kind, f.parts_of_ne hf]
    rfl
  have htwo (f : Family) (hf : f ≠ .controlWaitDefinitionType) :
      f.kind [k, t] = partition f.shape.word k ++ ":" ++ component t := by
    rw [Family.kind, f.parts_of_ne hf]
    rfl
  refine ⟨hnil, hone f hf, hone .record (by decide), hone .event (by decide),
    hone .eventId (by decide), hone .eventType (by decide), htwo .pending (by decide),
    htwo .live (by decide), hone .published (by decide), hone .livePublished (by decide),
    hone .expiry (by decide), ?_⟩
  rw [waitsOf, show ":type:" = ":" ++ "type" ++ ":" from rfl, partition]
  simp only [← String.append_assoc]
  rfl

/-! ### Kinds are told apart -/

/-- Every family. -/
def Family.all : List Family :=
  [.run, .record, .event, .eventId, .eventType, .pending, .live, .published, .livePublished, .expiry,
    .delivered, .budget, .definitions, .notice, .totals, .name, .liveName, .due, .dueApp, .wait, .subs,
    .mailbox, .children, .finished, .trigger, .triggerDue, .triggerType, .triggerRun, .triggerLive,
    .triggerQueue, .queueName, .ingress, .ingressDue, .paused, .control, .controlDrain,
    .controlCommand, .controlHistory, .controlHistoryRun, .controlResponse, .controlRun,
    .controlRunOf, .controlEnd, .controlEndOf, .controlParent, .controlWait, .controlWaitRun,
    .controlWaitDefinition, .controlWaitType, .controlWaitDefinitionType, .worker, .workerExpiry]

theorem Family.mem_all (f : Family) : f ∈ all := by
  cases f <;> decide

/-- The word of a family and the size of its partition. -/
def Family.sign (f : Family) : String × Nat := (f.shape.word, f.shape.arity)

theorem Family.sign_nodup : (all.map sign).Nodup := by
  decide +kernel

theorem Family.sign_injective : Function.Injective sign := fun f g h =>
  List.inj_on_of_nodup_map sign_nodup (mem_all f) (mem_all g) h

theorem Family.colon_not_mem_word (f : Family) : ':' ∉ f.shape.word.toList := by
  cases f <;> decide

theorem Family.arity_le (f : Family) : f.shape.arity ≤ 2 := by
  cases f <;> decide

theorem Family.colon_not_mem_parts (f : Family) (values : List String) :
    ∀ p ∈ f.parts values, ':' ∉ p.toList := by
  unfold parts
  split
  · simp only [List.mem_cons, List.not_mem_nil, or_false, forall_eq_or_imp, forall_eq]
    refine ⟨colon_not_mem_word _, colon_not_mem_component _, by decide, colon_not_mem_component _⟩
  · intro p hp
    obtain rfl | hp := List.mem_cons.mp hp
    · exact colon_not_mem_word _
    · obtain ⟨v, -, rfl⟩ := List.mem_map.mp hp
      exact colon_not_mem_component v

theorem Family.parts_ne_nil (f : Family) (values : List String) : f.parts values ≠ [] := by
  unfold parts
  split <;> exact List.cons_ne_nil _ _

/-- A kind is split into its parts at its colons. -/
theorem Family.parts_eq_of_kind {f g : Family} {v w : List String} (h : f.kind v = g.kind w) :
    f.parts v = g.parts w := by
  have hlists : ":".toList.intercalate ((f.parts v).map String.toList) =
      ":".toList.intercalate ((g.parts w).map String.toList) := by
    rw [← String.toList_intercalate, ← String.toList_intercalate]
    exact congrArg String.toList h
  have hsplit (f : Family) (v : List String) :
      (":".toList.intercalate ((f.parts v).map String.toList)).splitOn ':' =
        (f.parts v).map String.toList := by
    refine List.splitOn_intercalate ':' ?_ (by simp [parts_ne_nil])
    intro l hl
    obtain ⟨p, hp, rfl⟩ := List.mem_map.mp hl
    exact colon_not_mem_parts f v p hp
  refine List.map_injective_iff.mpr (fun _ _ => String.toList_injective) ?_
  rw [← hsplit f v, ← hsplit g w, hlists]

/-- The parts of a kind name its family and the texts of its partition. -/
theorem Family.parts_injective {f g : Family} {v w : List String} (hv : v.length = f.shape.arity)
    (hw : w.length = g.shape.arity) (h : f.parts v = g.parts w) : f = g ∧ v = w := by
  -- only the waits of a definition for a type have four parts
  have hshort (f : Family) (v : List String) (hv : v.length = f.shape.arity)
      (hf : f ≠ .controlWaitDefinitionType) : (f.parts v).length ≤ 3 := by
    have hle := f.arity_le
    rw [f.parts_of_ne hf, List.length_cons, List.length_map]
    omega
  have hlong (v : List String) (hv : v.length = 2) :
      ∃ d t, v = [d, t] := List.length_eq_two.mp hv
  -- One of the two is this family, both are, or none is.
  by_cases hf : f = .controlWaitDefinitionType
  · subst hf
    obtain ⟨d, t, rfl⟩ := hlong v hv
    by_cases hg : g = .controlWaitDefinitionType
    · subst hg
      obtain ⟨d', t', rfl⟩ := hlong w hw
      simp only [parts, List.cons.injEq, and_true, true_and] at h
      rw [component_injective h.1, component_injective h.2]
      exact ⟨rfl, rfl⟩
    · have hle := hshort g w hw hg
      rw [← h] at hle
      exact absurd hle (by simp [parts])
  · by_cases hg : g = .controlWaitDefinitionType
    · subst hg
      obtain ⟨d', t', rfl⟩ := hlong w hw
      have hle := hshort f v hv hf
      rw [h] at hle
      exact absurd hle (by simp [parts])
    -- The others write a word and then each text in hexadecimal.
    · rw [f.parts_of_ne hf, g.parts_of_ne hg] at h
      obtain ⟨hword, hvalues⟩ := List.cons.inj h
      have hvw : v = w := List.map_injective_iff.mpr component_injective hvalues
      refine ⟨sign_injective (Prod.ext hword ?_), hvw⟩
      change f.shape.arity = g.shape.arity
      rw [← hv, ← hw, hvw]

/-! ### Ids are told apart -/

theorem hex16_injective {a b : Nat} (ha : a < 2 ^ 64) (hb : b < 2 ^ 64)
    (h : Engine.hex16 a = Engine.hex16 b) : a = b := by
  have hlt (c d : Nat) (hc : c < 2 ^ 64) (hd : d < 2 ^ 64) :
      Engine.hex16 c < Engine.hex16 d ↔ c < d := by
    have hdigits := digits_append_lt_iff (w := 16) (a := c) (b := d) (s := []) (t := [])
    rw [List.append_nil, List.append_nil, Nat.mod_eq_of_lt (by omega), Nat.mod_eq_of_lt (by omega)]
      at hdigits
    unfold Engine.hex16
    rw [String.lt_iff_toList_lt, String.toList_ofList, String.toList_ofList, hdigits]
    simp
  obtain hab | heq | hba := lt_trichotomy a b
  · exact absurd ((hlt a b ha hb).mpr hab) (h ▸ lt_irrefl _)
  · exact heq
  · exact absurd ((hlt b a hb ha).mpr hba) (h ▸ lt_irrefl _)

theorem sequence_injective : Function.Injective sequence := fun a b h =>
  UInt64.toNat_inj.mp (hex16_injective a.toNat_lt b.toNat_lt h)

theorem timeKey_injective : Function.Injective timeKey := by
  intro a b h
  have hflip := hex16_injective (UInt64.toNat_lt _) (UInt64.toNat_lt _) h
  rw [flip_toNat, flip_toNat] at hflip
  have ha := a.le_toInt
  have hb := b.le_toInt
  exact Int64.toInt_inj.mp (by omega)

/-- The instant of a timed key has a fixed width. -/
theorem timed_injective {a b : Int64} {x y : String} (h : timed a x = timed b y) : a = b ∧ x = y := by
  have hlen (ms : Int64) : (timeKey ms).toList.length = 16 := by
    simp [timeKey, Engine.hex16]
  have h' := congrArg String.toList h
  simp only [timed, String.toList_append, List.append_assoc] at h'
  obtain ⟨hkey, hrest⟩ := List.append_inj h' ((hlen a).trans (hlen b).symm)
  exact ⟨timeKey_injective (String.toList_injective hkey),
    String.toList_injective (List.append_cancel_left hrest)⟩

theorem live_injective {a b : Option Int64} {m n : UInt64} (h : live a m = live b n) :
    a = b ∧ m = n := by
  cases a with
  | none =>
    cases b with
    | none =>
      have h' := congrArg String.toList h
      simp only [live, Option.elim_none, String.toList_append] at h'
      have hseq := String.toList_injective (List.append_cancel_left h')
      exact ⟨rfl, sequence_injective hseq⟩
    | some b => exact absurd (timed_lt_live_none b (sequence n) m) (h ▸ lt_irrefl _)
  | some a =>
    cases b with
    | none => exact absurd (timed_lt_live_none a (sequence m) n) (h ▸ lt_irrefl _)
    | some b =>
      obtain ⟨hms, hn⟩ := timed_injective h
      exact ⟨congrArg some hms, sequence_injective hn⟩

/-- An id says what it names. -/
theorem Form.id_injective (form : Form) : Function.Injective form.id := by
  intro x y h
  -- Texts as they are, texts in hexadecimal, keys of fixed width, and keys with a text behind them.
  cases form with
  | text => exact h
  | hex => exact component_injective h
  | sequence => exact sequence_injective h
  | instant => exact timeKey_injective h
  | timed =>
    obtain ⟨hms, hs⟩ := timed_injective h
    exact Prod.ext hms hs
  | timedHex =>
    obtain ⟨hms, hs⟩ := timed_injective h
    exact Prod.ext hms (component_injective hs)
  | timedSequence =>
    obtain ⟨hms, hn⟩ := timed_injective h
    exact Prod.ext hms (sequence_injective hn)
  | live =>
    obtain ⟨hat, hn⟩ := live_injective h
    exact Prod.ext hat hn
  | wait =>
    obtain ⟨hms, hs⟩ := timed_injective h
    obtain ⟨hrun, hkey⟩ := waitText_injective hs
    exact Prod.ext hms (Prod.ext hrun hkey)
  -- A name and a number in hexadecimal, with a colon between.
  | notice =>
    obtain ⟨hms, hs⟩ := timed_injective h
    have hs' := congrArg String.toList hs
    simp only [String.toList_append, List.append_assoc] at hs'
    obtain ⟨hname, hepoch⟩ :=
      split_at_colon (colon_not_mem_component _) (colon_not_mem_component _) hs'
    exact Prod.ext hms (Prod.ext (component_injective (String.toList_injective hname))
      (sequence_injective (String.toList_injective hepoch)))
  | stopped => rfl

/-- No two rows share an address. -/
theorem address_injective : Function.Injective Subject.address := by
  rintro ⟨f, v, hv, x⟩ ⟨g, w, hw, y⟩ h
  obtain ⟨hkind, hid⟩ := Prod.mk.inj h
  obtain ⟨rfl, rfl⟩ := Family.parts_injective hv hw (Family.parts_eq_of_kind hkind)
  have hxy : x = y := Form.id_injective _ hid
  rw [hxy]

/-! ### Identities -/

/-- An event's source and id, when it has both. -/
def named (event : Json) : Option (String × String) := do
  let text (k : String) := (event.text k).filter (· ≠ "")
  let source ← text "source"
  let id ← text "id"
  pure (source, id)

/-- A source and an id with a separator between them. -/
def joined (a : String × String) : String := a.1 ++ "\x00" ++ a.2

theorem identity_eq (event : Json) : Engine.identity event = (named event).map joined := by
  dsimp only [Engine.identity, named]
  cases (event.text "source").filter (· ≠ "") with
  | none => rfl
  | some source =>
    cases (event.text "id").filter (· ≠ "") with
    | none => rfl
    | some id => rfl

/-- The source of the second event continues that of the first by a separator and a text that, with a
separator behind it, begins the id of the first. -/
def Continues (a b : String × String) : Prop :=
  ∃ x, b.1 = a.1 ++ "\x00" ++ x ∧ a.2 = x ++ "\x00" ++ b.2

/-- What a joined pair can be taken apart into. -/
theorem joined_eq_iff (a b : String × String) :
    joined a = joined b ↔ a = b ∨ Continues a b ∨ Continues b a := by
  constructor
  · intro h
    have hsep : "\x00".toList = ['\x00'] := rfl
    have h' := congrArg String.toList h
    simp only [joined, String.toList_append, List.append_assoc, hsep, List.singleton_append] at h'
    -- one source is the longer one, unless they are the same
    obtain ⟨t, hsource, hid⟩ | ⟨t, hsource, hid⟩ := List.append_eq_append_iff.mp h'
    -- The sources are as long as one another, or what is left of the one begins with the separator.
    · cases t with
      | nil =>
        refine .inl (Prod.ext (String.toList_injective ?_) (String.toList_injective ?_))
        · simpa using hsource.symm
        · exact (List.cons.inj hid).2
      | cons c t =>
        obtain ⟨rfl, hid⟩ := List.cons.inj hid
        refine .inr (.inl ⟨String.ofList t, String.toList_injective ?_, String.toList_injective ?_⟩)
        · simpa using hsource
        · simpa using hid
    · cases t with
      | nil =>
        refine .inl (Prod.ext (String.toList_injective ?_) (String.toList_injective ?_))
        · simpa using hsource
        · exact (List.cons.inj hid).2.symm
      | cons c t =>
        obtain ⟨rfl, hid⟩ := List.cons.inj hid
        refine .inr (.inr ⟨String.ofList t, String.toList_injective ?_, String.toList_injective ?_⟩)
        · simpa using hsource
        · simpa using hid
  -- And then the joined texts are the same.
  · rintro (rfl | ⟨x, hsource, hid⟩ | ⟨x, hsource, hid⟩)
    · rfl
    · simp only [joined, hsource, hid, String.append_assoc]
    · simp only [joined, hsource, hid, String.append_assoc]

theorem Continues.ne {a b : String × String} (h : Continues a b) : a ≠ b := by
  rintro rfl
  obtain ⟨x, hx, -⟩ := h
  have hlen := congrArg String.length hx
  have hsep : "\x00".length = 1 := rfl
  rw [String.length_append, String.length_append] at hlen
  omega

/-- Rows are told apart by their addresses, and two events by their identities, exactly when neither
event's source continues the other one's into the separator. -/
theorem identities_apart_iff (e e' : Json) :
    (Function.Injective Subject.address ∧
        ∀ i, Engine.identity e = some i → Engine.identity e' = some i → named e = named e') ↔
      ∀ a b, named e = some a → named e' = some b → ¬Continues a b ∧ ¬Continues b a := by
  simp only [identity_eq, Option.map_eq_some_iff]
  constructor
  · rintro ⟨-, happart⟩ a b ha hb
    have hne : joined a = joined b → a = b := by
      intro heq
      have hab := happart (joined b) ⟨a, ha, heq⟩ ⟨b, hb, rfl⟩
      rw [ha, hb] at hab
      exact Option.some.inj hab
    constructor
    · intro h
      exact h.ne (hne ((joined_eq_iff a b).mpr (.inr (.inl h))))
    · intro h
      exact h.ne (hne ((joined_eq_iff a b).mpr (.inr (.inr h)))).symm
  · intro hcond
    refine ⟨address_injective, ?_⟩
    rintro i ⟨a, ha, rfl⟩ ⟨b, hb, hab⟩
    obtain ⟨hleft, hright⟩ := hcond a b ha hb
    obtain rfl | h | h := (joined_eq_iff a b).mp hab.symm
    · rw [ha, hb]
    · exact absurd h hleft
    · exact absurd h hright

/-- An event whose source holds the separator is taken for another one, in every row that is addressed
by an identity. -/
theorem identities_shared :
    let e : Json := .obj [("id", .str "c"), ("source", .str "a\x00b"), ("type", .str "t")]
    let e' : Json := .obj [("id", .str "b\x00c"), ("source", .str "a"), ("type", .str "t")]
    named e = some ("a\x00b", "c") ∧ named e' = some ("a", "b\x00c") ∧
      Engine.identity e = some "a\x00b\x00c" ∧ Engine.identity e' = some "a\x00b\x00c" := by
  decide

end Addresses

end Backend

end Ouro
