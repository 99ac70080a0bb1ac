import Ouro.Ows.Safety

/-!
# The interpreter does only what it may

Each function of the interpreter, run for a task in progress, leaves it in progress and does only what may be
done for it and the tasks inside (`Safe`). A task itself is run from the one around it (`TaskKeeps`): it
leaves a result when it completes or faults in a way that may be caught, which is how a list of an attempt is
known to have failed when the `try` decides on another (`list_keeps`).
-/

namespace Ouro.Interp

open Lib Ows Prog

variable {α β : Type}

/-! ### Programs that save nothing -/

/-- The states differ in nothing of the journal, the log and the attempts. -/
structure Same (s s' : State) : Prop where
  records : s'.records = s.records
  log : s'.log = s.log
  attempts : s'.attempts = s.attempts

theorem Same.refl (s : State) : Same s s := ⟨rfl, rfl, rfl⟩

theorem Same.trans {s s' s'' : State} (h : Same s s') (h' : Same s' s'') : Same s s'' :=
  ⟨h'.records.trans h.records, h'.log.trans h.log, h'.attempts.trans h.attempts⟩

def Quiet (m : M α) : Prop := ∀ w s, Same s (m w s).2

theorem quiet_handle {m : M α} {f : Except Fault α → M β} (hm : Quiet m) (hf : ∀ r, Quiet (f r)) :
    Quiet (m.handle f) := fun w s => (hm w s).trans (hf _ w _)

theorem quiet_pure (a : α) : Quiet (pure a) := fun _ s => .refl s

theorem quiet_fail (e : Fault) : Quiet (Prog.fail e : M α) := fun _ s => .refl s

theorem quiet_lift (r : Except Fault α) : Quiet (Prog.lift r : M α) := fun _ s => .refl s

theorem quiet_gets (f : State → α) : Quiet (Prog.gets f : M α) := fun _ s => .refl s

theorem quiet_sets {f : State → State} (h : ∀ s, Same s (f s)) : Quiet (Prog.sets f : M Unit) := fun _ s => h s

theorem quiet_ask (f : Weather → Nat → α) : Quiet (ask f) := fun _ _ => ⟨rfl, rfl, rfl⟩

theorem quiet_bind {m : M α} {f : α → M β} (hm : Quiet m) (hf : ∀ a, Quiet (f a)) : Quiet (m >>= f) :=
  quiet_handle hm fun
    | .ok a => hf a
    | .error e => quiet_fail e

theorem quiet_raise (e : WorkflowError) : Quiet (raise e : M α) := quiet_fail _

theorem quiet_interrupt (detail : String) : Quiet (interrupt detail : M α) := quiet_fail _

theorem quiet_record (key : String) : Quiet (record key) := quiet_gets _

namespace Env

variable (E : Env)

theorem quiet_args (ctx input output task : Json) (scope : Scope) : Quiet (E.args ctx input output task scope) :=
  quiet_gets _

theorem quiet_eval (code : String) (on : Json) (args : Args) : Quiet (E.eval code on args) := quiet_lift _

theorem quiet_template (t on : Json) (args : Args) : Quiet (E.template t on args) := quiet_lift _

theorem quiet_transform (t on : Json) (args : Args) : Quiet (E.transform t on args) := by
  unfold transform
  split
  · exact quiet_lift _
  · exact quiet_lift _

theorem quiet_test (code : Option String) (on : Json) {args : M Args} (hargs : Quiet args) :
    Quiet (E.test code on args) := by
  unfold test
  split
  · exact quiet_pure _
  · exact quiet_bind hargs fun args => quiet_bind (E.quiet_eval _ _ _) fun v => quiet_pure _

theorem quiet_transformed (t : Option Json) (on : Json) {args : M Args} (hargs : Quiet args) :
    Quiet (E.transformed t on args) := by
  unfold transformed
  split
  · exact quiet_pure _
  · exact quiet_bind hargs fun args => E.quiet_transform _ _ _

theorem quiet_conformDocument (schema value : Json) (what : String) :
    Quiet (E.conformDocument schema value what) := by
  unfold conformDocument
  split
  · exact quiet_raise _
  · exact quiet_pure _
  · exact quiet_raise _

theorem quiet_conformTo (data : Option Data) (value : Json) (what : String) :
    Quiet (E.conformTo data value what) := by
  unfold conformTo
  split
  · exact quiet_pure _
  · unfold conform
    split
    · exact E.quiet_conformDocument _ _ _
    · split
      · exact quiet_raise _
      · split
        · exact quiet_interrupt _
        · exact E.quiet_conformDocument _ _ _

theorem quiet_decide (r : Except (Stop Fault) α) : Quiet (decide r) := quiet_lift _

theorem quiet_items (it : Items) (input : Json) (args : Args) : Quiet (E.items it input args) := by
  unfold items
  split
  · exact quiet_pure _
  · refine quiet_bind (E.quiet_eval _ _ _) fun v => ?_
    split
    · exact quiet_pure _
    · exact quiet_pure _
    · exact quiet_raise _

theorem quiet_firstCase (input : Json) (args : Args) (cases_ : List (String × Case)) :
    Quiet (E.firstCase input args cases_) := by
  induction cases_ with
  | nil => exact quiet_pure _
  | cons c rest ih =>
    unfold firstCase
    split
    · exact ih
    · refine quiet_bind (E.quiet_eval _ _ _) fun v => ?_
      split
      · exact quiet_pure _
      · exact ih

theorem quiet_errorText (input : Json) (args : Args) (text : Option String) :
    Quiet (E.errorText input args text) := by
  unfold errorText
  split
  · exact quiet_pure _
  · split
    · exact quiet_pure _
    · refine quiet_bind (E.quiet_eval _ _ _) fun v => ?_
      split <;> exact quiet_pure _

theorem quiet_raised (r : Raise) (l : List Segment) (input : Json) (args : Args) :
    Quiet (E.raised r l input args) := by
  unfold raised
  refine quiet_bind ?_ fun d => quiet_bind (E.quiet_errorText _ _ _) fun title =>
    quiet_bind (E.quiet_errorText _ _ _) fun detail => quiet_pure _
  unfold errorDef
  split
  · exact quiet_pure _
  · split
    · exact quiet_pure _
    · exact quiet_fail _

theorem quiet_catches (c : Catch) (e : WorkflowError) (input : Json) (args : Args) :
    Quiet (E.catches c e input args) := by
  unfold catches
  split
  · exact quiet_pure _
  · exact quiet_decide _

end Env

/-! ### The frame of a task -/

/-- A task in progress, in a state of an execution. -/
structure Around (w : Ows.Workflow) (l : List Segment) (t : Ows.Task) (s : State) : Prop where
  journal : s.records = journalOf s.log
  current : Current w s.records l t
  registers : w.Registers s.attempts
  registered : Ows.Registered s.attempts l

/-- What may happen for it. -/
structure Going (w : Ows.Workflow) (ceiling : Nat) (l : List Segment) (s s' : State) : Prop where
  trail : Trail w ceiling l s.log s'.log
  attempts : s.attempts ⊆ s'.attempts

def frame (w : Ows.Workflow) (ceiling : Nat) (l : List Segment) (t : Ows.Task) : Frame State where
  inv := Around w l t
  step := Going w ceiling l
  refl _ := ⟨.refl, List.Subset.refl _⟩
  trans h h' := ⟨h.trail.trans h'.trail, List.Subset.trans h.attempts h'.attempts⟩

/-- Nothing is done for the task but what may be done, and it stays in progress. -/
def Safe (w : Ows.Workflow) (ceiling : Nat) (l : List Segment) (t : Ows.Task) (m : M α) : Prop :=
  Upholds (frame w ceiling l t) (fun _ => True) m fun _ _ => True

variable {w : Ows.Workflow} {ceiling : Nat} {l : List Segment} {t : Ows.Task} {s s' : State} {m : M α}
  {pre : State → Prop} {post : Except Fault α → State → Prop}

theorem Same.around (h : Same s s') (hs : Around w l t s) : Around w l t s' where
  journal := by rw [h.records, h.log, hs.journal]
  current := by rw [h.records]; exact hs.current
  registers := by rw [h.attempts]; exact hs.registers
  registered := by rw [h.attempts]; exact hs.registered

theorem Same.going (h : Same s s') : Going w ceiling l s s' where
  trail := by rw [h.log]; exact .refl
  attempts := by rw [h.attempts]; exact List.Subset.refl _

theorem Going.grows (h : Going w ceiling l s s') (hs : Around w l t s) (hs' : Around w l t s') :
    Grows s.records s'.records := by
  rw [hs.journal, hs'.journal]
  exact h.trail.grows

theorem Quiet.keeps (hm : Quiet m) (hpre : ∀ s s', Same s s' → pre s → pre s') :
    Upholds (frame w ceiling l t) pre m fun _ => pre :=
  fun w s hs hp => ⟨(hm w s).going, (hm w s).around hs, hpre _ _ (hm w s) hp⟩

theorem Quiet.safe (hm : Quiet m) : Safe w ceiling l t m := hm.keeps fun _ _ _ => id

/-- A program that saves nothing and does not fail may come first. -/
theorem Quiet.first (hm : Quiet m) (hok : ∀ w s, ∃ a, (m w s).1 = .ok a) (hpre : ∀ s s', Same s s' → pre s → pre s')
    {f : α → M β} {post : Except Fault β → State → Prop} (hf : ∀ a, Upholds (frame w ceiling l t) pre (f a) post) :
    Upholds (frame w ceiling l t) pre (m >>= f) post := by
  intro W s hs hp
  obtain ⟨a, ha⟩ := hok W s
  obtain ⟨hgoing, hs', hp'⟩ := (hm.keeps hpre : Upholds (frame w ceiling l t) _ _ _) W s hs hp
  rw [Prog.bind_ok (Prod.ext ha rfl)]
  obtain ⟨hgoing', hs'', hpost⟩ := hf a W _ hs' hp'
  exact ⟨(frame w ceiling l t).trans hgoing hgoing', hs'', hpost⟩

theorem safe_bind {f : α → M β} (hm : Safe w ceiling l t m) (hf : ∀ a, Safe w ceiling l t (f a)) :
    Safe w ceiling l t (m >>= f) := Upholds.bind hm hf fun _ _ => id

theorem safe_handle {f : Except Fault α → M β} (hm : Safe w ceiling l t m) (hf : ∀ r, Safe w ceiling l t (f r)) :
    Safe w ceiling l t (m.handle f) := Upholds.handle hm hf

theorem safe_pure (a : α) : Safe w ceiling l t (pure a : M α) := (quiet_pure a).safe

theorem safe_sets {f : State → State} (h : ∀ s, Same s (f s)) : Safe w ceiling l t (Prog.sets f : M Unit) :=
  (quiet_sets h).safe

theorem safe_fail (e : Fault) : Safe w ceiling l t (Prog.fail e : M α) := (quiet_fail e).safe

/-! ### Saves -/

theorem Around.put (hs : Around w l t s) {kind : RecordKind} {r : Record}
    (htakes : takes s.records (recordKey l kind) r = true) (hr : ∀ ms result, r ≠ .task ms (some result)) :
    Around w l t (s.put (recordKey l kind) r) where
  journal := by
    change s.records.put _ _ = (journalOf s.log).put _ _
    rw [hs.journal]
  current := hs.current.put htakes hr
  registers := hs.registers
  registered := hs.registered

theorem Around.saves (hs : Around w l t s) {kind : RecordKind} {r : Record}
    (htakes : takes s.records (recordKey l kind) r = true) (hrule : Rule w ceiling s.records l kind r) :
    Trail w ceiling l s.log (s.put (recordKey l kind) r).log := by
  have hjournal := hs.journal
  have hcurrent := hs.current
  rw [hjournal] at htakes hrule hcurrent
  change Trail w ceiling l s.log (.save _ (s.records.get _) r :: s.log)
  rw [hjournal]
  exact .act .refl (.save (List.prefix_refl _) hcurrent htakes hrule)

/-- What becomes of a save: it is committed, and the program goes on or stops; or it stops, and nothing is
committed. -/
theorem save_cases (key : String) (r : Record) (W : Weather) (s : State) :
    (∃ e, (save key r W s).1 = .error (.interrupted e) ∧ Same s (save key r W s).2) ∨
    (takes s.records key r = true ∧ Same (s.put key r) (save key r W s).2 ∧
      ((save key r W s).1 = .ok () ∨ ∃ e, (save key r W s).1 = .error (.interrupted e))) := by
  unfold save
  split
  · next htakes =>
    split
    · exact .inr ⟨htakes, ⟨rfl, rfl, rfl⟩, .inl rfl⟩
    · exact .inr ⟨htakes, ⟨rfl, rfl, rfl⟩, .inr ⟨_, rfl⟩⟩
    · exact .inl ⟨_, rfl, ⟨rfl, rfl, rfl⟩⟩
  · exact .inl ⟨_, rfl, ⟨rfl, rfl, rfl⟩⟩

/-- A save that may be made, of a record that is not a task's result. -/
theorem save_keeps {kind : RecordKind} {r : Record} (old : Option Record)
    (hr : ∀ ms result, r ≠ .task ms (some result)) :
    Upholds (frame w ceiling l t)
      (fun s => s.records.get (recordKey l kind) = old ∧ Rule w ceiling s.records l kind r)
      (save (recordKey l kind) r)
      fun out s => out = .ok () → s.records.get (recordKey l kind) = some r ∧
        ∃ rest, s.log = .save (recordKey l kind) old r :: rest := by
  rintro W s hs ⟨rfl, hrule⟩
  -- it was not committed, or it was, whether or not the answer came back
  rcases save_cases (recordKey l kind) r W s with ⟨e, hout, hsame⟩ | ⟨htakes, hsame, hout⟩
  · exact ⟨hsame.going, hsame.around hs, fun hok => by rw [hout] at hok; cases hok⟩
  · refine ⟨?_, hsame.around (hs.put htakes hr), fun _ => ?_⟩
    · refine ⟨?_, ?_⟩
      · rw [hsame.log]
        exact hs.saves htakes hrule
      · rw [hsame.attempts]
        exact List.Subset.refl _
    · rw [hsame.records, hsame.log]
      refine ⟨?_, _, rfl⟩
      change (s.records.put _ _).get _ = _
      rw [Table.get_put, if_pos rfl]

/-! ### Calls -/

theorem spell_length (seg : Segment) : 0 < seg.spell.toList.length := by
  cases seg with
  | list nest index name visit =>
    rw [Segment.spell, String.toList_append, String.toList_append, String.toList_append]
    simp
  | _ => simp [Segment.spell]

theorem length_le_reference (l : List Segment) : l.length ≤ (reference l).toList.length := by
  induction l with
  | nil => exact Nat.zero_le _
  -- every segment spells at least one letter
  | cons seg l ih =>
    have hseg := spell_length seg
    rw [reference, String.toList_append, List.length_append, List.length_cons]
    omega

theorem Around.logical (hs : Around w l t s) : s.logical (reference l) = reference (firstAttempts l) := by
  have hcount : laterAttempts l ≤ l.length := List.countP_le_length
  rw [State.logical, logical_reference hs.current.isSome hs.registers hs.registered
    (Nat.lt_succ_of_le (hcount.trans (length_le_reference l))), Option.getD_some]

/-- The call of the task is pending. -/
def Pends (l : List Segment) (logical name : String) (args : Json) (delivery : Delivery) (s : State) : Prop :=
  ∃ ann, s.records.get (recordKey l .call) = some (.call logical name args delivery .pending ann)

theorem Same.pends {logical name : String} {args : Json} {delivery : Delivery} (h : Same s s')
    (hp : Pends l logical name args delivery s) : Pends l logical name args delivery s' := by
  unfold Pends
  rw [h.records]
  exact hp

theorem Safe.from (h : Safe w ceiling l t m) : Upholds (frame w ceiling l t) pre m fun _ _ => True :=
  Upholds.at_ _ h fun _ _ _ => trivial

theorem answer_keeps {logical name : String} {args : Json} {delivery : Delivery} {state : CallState}
    {ann : Table String Annotation} (hstate : state ≠ .pending) :
    Upholds (frame w ceiling l t) (Pends l logical name args delivery)
      (save (recordKey l .call) (.call logical name args delivery state ann)) fun _ _ => True := by
  refine .of_exists fun old => ?_
  refine (save_keeps (some (.call logical name args delivery .pending old)) fun _ _ h => by cases h).mono
    (fun s _ hpending => ⟨hpending, .answer hpending hstate⟩) fun _ _ _ _ => trivial

variable (E : Env)

theorem unknownCall_keeps (logical name : String) (args : Json) (reference : String) :
    Upholds (frame w ceiling l t) (Pends l logical name args .atMostOnce)
      (E.unknownCall (recordKey l .call) logical name args reference) fun _ _ => True := by
  unfold Env.unknownCall
  split
  · exact (safe_fail _).from
  -- a failed call may have been answered in the meantime: the record is read again
  · refine Upholds.bind ((quiet_record _).keeps fun s s' hsame hp => hsame.pends hp) (fun old => ?_)
      fun _ _ _ => trivial
    split
    · exact Upholds.bind (answer_keeps (fun h => by cases h)) (fun _ => safe_pure _) fun _ _ _ => trivial
    · exact (quiet_interrupt _).safe.from

theorem settle_keeps (logical name : String) (args : Json) (delivery : Delivery) (reference : String)
    (result : Except CallFailure Json) (annotations : Table String Annotation) :
    Upholds (frame w ceiling l t) (Pends l logical name args delivery)
      (E.settle (recordKey l .call) logical name args delivery reference result annotations)
      fun _ _ => True := by
  unfold Env.settle
  split
  · exact Upholds.bind (answer_keeps fun h => by cases h) (fun _ => safe_pure _) fun _ _ _ => trivial
  · exact Upholds.bind (answer_keeps fun h => by cases h) (fun _ => safe_fail _) fun _ _ _ => trivial
  · exact Upholds.bind (answer_keeps fun h => by cases h) (fun _ => safe_fail _) fun _ _ _ => trivial
  · split
    · next h => exact h ▸ unknownCall_keeps E _ _ _ _
    · exact (safe_fail _).from
  -- a call that is interrupted may have been made; only a cancellation is told apart
  · refine Upholds.bind ((quiet_ask _).keeps fun s s' hsame hp => hsame.pends hp) (fun cancelled => ?_)
      fun _ _ _ => trivial
    split
    · exact (safe_fail _).from
    · split
      · next h => exact h ▸ unknownCall_keeps E _ _ _ _
      · exact (safe_fail _).from

/-- A call is handed over once its intent is saved. -/
theorem send_keeps (logical name : String) (args : Json) (delivery : Delivery) :
    Upholds (frame w ceiling l t)
      (fun s => s.records.get (recordKey l .call) = some (.call logical name args delivery .pending .empty) ∧
        (delivery = .atMostOnce → ∃ rest, s.log =
          .save (recordKey l .call) none (.call logical name args .atMostOnce .pending .empty) :: rest))
      (send (recordKey l .call) logical name args delivery)
      fun _ s => Pends l logical name args delivery s := by
  rintro W s hs ⟨hget, hfresh⟩
  have hcurrent := hs.current
  have hpending := hget
  rw [hs.journal] at hcurrent hpending
  -- the intent is the last save of the journal when the request is made
  refine ⟨⟨.act .refl (.send (List.prefix_refl _) hcurrent hpending hfresh), List.Subset.refl _⟩, ?_, _, hget⟩
  exact ⟨hs.journal, hs.current, hs.registers, hs.registered⟩

theorem dispatch_keeps (logical name : String) (args : Json) (delivery : Delivery) (reference : String) :
    Upholds (frame w ceiling l t)
      (fun s => Rule w ceiling s.records l .call (.call logical name args delivery .pending .empty) ∧
        (delivery = .atMostOnce → s.records.get (recordKey l .call) = none))
      (E.dispatch (recordKey l .call) logical name args delivery reference) fun _ _ => True := by
  intro W s hs ⟨hrule, hnone⟩
  -- the intent was saved, and what stood there before it is known
  have hsent : ∀ u, Upholds (frame w ceiling l t)
      (fun s' => (Except.ok u : Except Fault Unit) = .ok () → s'.records.get (recordKey l .call) =
          some (.call logical name args delivery .pending .empty) ∧
        ∃ rest, s'.log = .save (recordKey l .call) (s.records.get (recordKey l .call))
          (.call logical name args delivery .pending .empty) :: rest)
      (send (recordKey l .call) logical name args delivery)
      fun _ s' => Pends l logical name args delivery s' := fun u => by
    refine (send_keeps logical name args delivery).mono (fun s' _ hsaved => ?_) fun _ _ _ => id
    obtain ⟨hget, rest, hlog⟩ := hsaved rfl
    refine ⟨hget, ?_⟩
    rintro rfl
    rw [hnone rfl] at hlog
    exact ⟨rest, hlog⟩
  have hsaved : Upholds (frame w ceiling l t) _
      (save (recordKey l .call) (.call logical name args delivery .pending .empty)) _ :=
    save_keeps (s.records.get (recordKey l .call)) fun _ _ h => by cases h
  -- the save, the request, and then the answer
  refine (Upholds.bind hsaved (fun u => Upholds.bind (hsent u) (fun answer => ?_) fun _ _ _ => trivial)
    fun _ _ _ => trivial : Upholds (frame w ceiling l t) _ _ fun _ _ => True) W s hs ⟨rfl, hrule⟩
  split
  · exact (safe_fail _).from
  · exact settle_keeps E _ _ _ _ _ _ _

/-- Nothing is found of earlier attempts only if no call of theirs stands. -/
theorem none_of_earlierAttempt {J : Table String Record} {logical key name reference : String} {args : Json}
    (h : earlierAttempt J logical key name args reference = none) {k : String} {r : Record} (hk : k ≠ key)
    (hr : J.get k = some r) : Record.stands logical r = false := by
  by_contra hstands
  rw [Bool.not_eq_false] at hstands
  obtain ⟨name', args', state, ann, rfl, hstate⟩ := stands_iff.mp hstands
  unfold earlierAttempt at h
  simp only at h
  -- the call is among those that were looked at
  have hmem : (name', args', Delivery.atMostOnce, state) ∈
      (J.rows.filter fun row => decide (row.1 ≠ key)).filterMap fun row => Record.earlier logical row.2 := by
    refine List.mem_filterMap.mpr ⟨(k, _), List.mem_filter.mpr ⟨(Table.mem_rows J).mpr hr, ?_⟩, ?_⟩
    · exact decide_eq_true hk
    · rw [Record.earlier, if_pos rfl]
  -- one that succeeded is in the first search, one that is pending or failed in the second
  split at h
  · split at h <;> cases h
  · next hnone =>
    rw [Option.map_eq_none_iff, List.findSome?_eq_none_iff] at h
    rw [List.findSome?_eq_none_iff] at hnone
    have hno := hnone _ hmem
    have hfault := h _ hmem
    cases state with
    | pending => cases hfault
    | notExecuted e => cases hstate
    | done result =>
      cases result with
      | ok value => cases hno
      | error e => cases hfault

theorem hostCall_safe (target : Target) (args : Json) (delivery : Delivery) :
    Safe w ceiling l t (E.hostCall target args l delivery) := by
  unfold Env.hostCall
  simp only
  generalize (if E.host.atMostOnce target.name args = true then Delivery.atMostOnce else delivery) = delivery
  generalize E.host.knows target = known
  -- the logical identity and the record are read first
  refine Upholds.bind (keeps_gets _) (fun logical => ?_) fun _ _ _ => trivial
  refine Upholds.bind (keeps_gets _) (fun old => ?_) fun _ _ _ => trivial
  refine Upholds.at_ (fun s => s.records.get (recordKey l .call) = old ∧ logical = reference (firstAttempts l)) ?_ ?_
  · -- a first intent, with the check of the earlier attempts where there may be any
    have hintent : ∀ s, Around w l t s → s.records.get (recordKey l .call) = none →
        logical = reference (firstAttempts l) → (logical ≠ reference l ∧ delivery = .atMostOnce →
          earlierAttempt s.records logical (recordKey l .call) target.name args (reference l) = none) →
        Rule w ceiling s.records l .call (.call logical target.name args delivery .pending .empty) := by
      rintro s hs hnone rfl hearlier
      refine .intent hnone fun hdelivery hne k r hk hr => ?_
      refine none_of_earlierAttempt (hearlier ⟨fun heq => hne ?_, hdelivery⟩) hk hr
      exact reference_injective (follow_firstAttempts hs.current.isSome) hs.current.isSome heq
    -- a call is in the journal already, or another record is, or none
    split
    · next oldLogical function arguments oldDelivery state ann =>
      split
      · exact (safe_fail _).from
      -- the same call: what it answered, or what is known of it
      · next hsame =>
        obtain ⟨rfl, rfl, rfl, rfl⟩ : oldLogical = logical ∧ function = target.name ∧ arguments = args ∧
            oldDelivery = delivery := by
          simpa [not_or] using hsame
        split
        · exact (safe_pure _).from
        · exact (safe_fail _).from
        · exact (safe_fail _).from
        -- it is pending: an at-most-once call is not made again
        · split
          · next hdelivery =>
            subst hdelivery
            exact (unknownCall_keeps E _ _ _ _).mono (fun s _ hp => ⟨_, hp.1⟩) fun _ _ _ => id
          · next hdelivery =>
            split
            · refine (dispatch_keeps E _ _ _ _ _).mono (fun s _ hp => ⟨?_, fun h => absurd h hdelivery⟩)
                fun _ _ _ => id
              cases oldDelivery with
              | atMostOnce => exact absurd rfl hdelivery
              | atLeastOnce => exact .again hp.1
            · exact (safe_fail _).from
    · exact (quiet_interrupt _).safe.from
    -- without a host that knows the function nothing is saved
    · split
      · exact (safe_fail _).from
      · split
        -- in a later attempt the earlier ones are looked through first
        · refine Upholds.bind (keeps_gets _) (fun found => ?_) fun _ _ _ => trivial
          split
          · exact (quiet_lift _).safe.from
          · refine (dispatch_keeps E _ _ _ _ _).mono (fun s hs hp => ?_) fun _ _ _ => id
            obtain ⟨hfound, hnone, hlogical⟩ := hp
            exact ⟨hintent s hs hnone hlogical fun _ => (Except.ok.inj hfound).symm, fun _ => hnone⟩
        · next hfirst =>
          refine (dispatch_keeps E _ _ _ _ _).mono (fun s hs hp => ?_) fun _ _ _ => id
          exact ⟨hintent s hs hp.1 hp.2 fun h => absurd h hfirst, fun _ => hp.1⟩
  · rintro s hs ⟨hold, hlogical, -⟩
    exact ⟨(Except.ok.inj hold).symm, (Except.ok.inj hlogical).trans (Around.logical hs)⟩

end Ouro.Interp
