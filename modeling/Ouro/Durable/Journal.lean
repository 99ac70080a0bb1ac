import Ouro.Durable.Evidence

/-!
# The journal of a run

Records are written by four calls with different guards: a save, a listen, a decision on the budget
and an expiry. `RecordStep` says what a move does to the record under one key. Where no caller writes
under the keys the store keeps for itself (`Op.Plain`), a record only advances as `checkTransition`
allows until a sweep removes it, so every answer of a call is added to the totals of its run once.
The result is `journal_exact`.
-/

namespace Ouro

open Lib Engine Tx

variable {env : Env} {now : Int} {may : String → Act → Prop}

/-! ### One record -/

/-- What a move from `c` to `c'` does to the record of run `i` under `k`. -/
inductive RecordStep (c c' : Core) (may : String → Act → Prop) (i k : String) :
    Option Record → Option Record → Prop
  | same (o : Option Record) : RecordStep c c' may i k o o
  | saved {o : Option Record} {r : Record} (hr : Recorded o r) (hkey : may i (.record k r))
      (hmay : committedElsewhere r = none ∨ o = some r ∨ may i .spend)
      (hs : ∃ s, c.run.get i = some s ∧ s.run.endedMs = none) :
      RecordStep c c' may i k o (some r)
  | expired {o : Option Record} {n : Nat} {e : StoredEvent} {taken : Json} (hk : k = expiredKey n)
      (hp : Pend c i n e) (he : (c'.event i).get n = some (asConsumed e k))
      (hs : ∃ s, c.run.get i = some s ∧ s.run.endedMs = none) :
      RecordStep c c' may i k o (some (.expired taken))
  | taken {o : Option Record} {types : List String} {event : Json} (hfree : Free c i k)
      (hmay : may i (.take k types)) (hs : ∃ s, c.run.get i = some s ∧ s.run.endedMs = none) :
      RecordStep c c' may i k o (some (.event event))
  /-- The journal of an ended run goes as a whole. -/
  | forgotten {o : Option Record} {s : StoredRun} {at_ : Int} (hs : c'.run.get i = some s)
      (hl : s.run.endedMs = some at_) (hmay : may i (.forget at_)) (hempty : c'.record i = .empty) :
      RecordStep c c' may i k o none

/-- A write of one record leaves the others. -/
private theorem RecordStep.putAt {c c' : Core} {run k' : String} {r : Record}
    (hrecord : c'.record = Table.putAt c.record run k' r)
    (h : RecordStep c c' may run k' ((c.record run).get k') (some r)) (i k : String) :
    RecordStep c c' may i k ((c.record i).get k) ((c'.record i).get k) := by
  rw [hrecord, Table.get_putAt]
  split
  · next heq =>
    obtain ⟨rfl, rfl⟩ := heq
    exact h
  · exact .same _

theorem Move.record_step {c c' : Core} (h : Move env now may c c') (hinv : Inv c) (i k : String) :
    RecordStep c c' may i k ((c.record i).get k) ((c'.record i).get k) := by
  have hlive : ∀ {s : StoredRun}, c.run.get s.id = some s → s.run.state = .running →
      ∃ s', c.run.get s.id = some s' ∧ s'.run.endedMs = none :=
    fun hs hr => ⟨_, hs, (hinv.sane _ _ hs).live_of_running hr⟩
  -- most moves touch no record
  cases h with
  | admission | refuse | bear | rewrite | accept | notify | offer | finish | spend | dropBudget =>
    exact .same _
  | @record s k' r hs hr hev hrec hkey hmay =>
    exact .putAt rfl (.saved hrec hkey hmay (hlive hs hr)) i k
  -- an expiry writes under its own key, over the copy it consumes
  | @expire s n e at_ taken hs hl hx hat he =>
    obtain ⟨n', e', at', hp, hexp, hk, -⟩ := (hinv.mails.mail _ _ hs).get_expiry.mp hx
    obtain ⟨rfl, rfl⟩ : at_ = at' ∧ n = n' := by simpa using hk
    have hcopy : (Table.putAt c.event s.id n (asConsumed e (expiredKey n)) s.id).get n =
        some (asConsumed e (expiredKey n)) := by
      rw [Table.get_putAt, if_pos ⟨rfl, rfl⟩]
    obtain rfl : e' = e := Option.some.inj (hp.1.symm.trans he)
    exact .putAt rfl (.expired rfl hp hcopy ⟨s, hs, hl⟩) i k
  -- a take writes under a key that is free, or over the record of an expiry
  | @take s k' types n e event hs hr hm hfree hn he hmay =>
    exact .putAt rfl (.taken hfree hmay (hlive hs hr)) i k
  -- a sweep removes all records of its run
  | @forget s at_ hs hl hmay =>
    change RecordStep c _ may i k _ (((forgetRows c s.id).record i).get k)
    by_cases hrun : i = s.id
    · subst hrun
      have hempty : (forgetRows c s.id).record s.id = .empty := by
        rw [record_forgetRows, Function.update_self]
      rw [hempty, Table.get_empty]
      refine .forgotten (s := forgotten s) ?_ hl hmay hempty
      rw [Core.get_set]
      exact if_pos rfl
    · rw [record_forgetRows, Function.update_of_ne hrun]
      exact .same _

/-! ### The keys of the store -/

/-- How the keys begin that the store keeps for the records of expiries. -/
def expiredMark : String := "mailbox#expired["

/-- A caller's own key is none of those the store writes under. -/
def PlainKey (k : String) : Prop := ¬expiredMark.toList <+: k.toList ∧ k ≠ exceededKey

instance (k : String) : Decidable (PlainKey k) := inferInstanceAs (Decidable (_ ∧ _))

/-- The key a call gives for a record. -/
def Op.recordKey : Op → Option String
  | .saveRecord _ k _ _ | .takeEvent _ k _ _ | .spend _ k _ _ => some k
  | _ => none

/-- A call gives no key of the store. -/
def Op.Plain (op : Op) : Prop := ∀ k ∈ op.recordKey, PlainKey k

instance (op : Op) : Decidable op.Plain :=
  inferInstanceAs (Decidable (∀ k ∈ op.recordKey, PlainKey k))

/-- The letters of the key of an expiry. -/
theorem expiredKey_toList (n : Nat) :
    (expiredKey n).toList = expiredMark.toList ++ (Nat.toDigits 10 n ++ [']']) := by
  have hkey : expiredKey n = expiredMark ++ n.repr ++ "]" := rfl
  rw [hkey, String.toList_append, String.toList_append, Nat.toList_repr, List.append_assoc]
  rfl

theorem expiredKey_injective : Function.Injective expiredKey := by
  intro n m h
  have hchars := congrArg String.toList h
  rw [expiredKey_toList, expiredKey_toList] at hchars
  have hdigits := List.append_cancel_right (List.append_cancel_left hchars)
  have hvalue := congrArg (Nat.ofDigitChars 10 · 0) hdigits
  simpa only [Nat.ofDigitChars_toDigits (b := 10) (by decide) (by decide)] using hvalue

theorem PlainKey.not_reserved {k : String} (h : PlainKey k) : ¬Reserved k := by
  rintro ⟨n, rfl⟩
  exact h.1 ⟨_, (expiredKey_toList n).symm⟩

theorem exceededKey_not_reserved : ¬Reserved exceededKey := by
  rintro ⟨n, hn⟩
  -- the two keys differ in their first letter
  have hchars := congrArg String.toList hn
  rw [expiredKey_toList] at hchars
  simp [exceededKey, expiredMark] at hchars

/-- A caller writes under keys of its own, apart from the record of a first refusal. -/
structure PlainMay (may : String → Act → Prop) : Prop where
  record : ∀ i k r, may i (.record k r) → ¬Reserved k ∧ (k = exceededKey → ∃ by_, r = .exceeded by_)
  spend : ∀ i k by_, may i .spend → may i (.record k (.exceeded by_)) → k = exceededKey
  take : ∀ i k types, may i (.take k types) → ¬Reserved k

theorem Op.Plain.plainMay {op : Op} (h : op.Plain) : PlainMay op.may where
  record i k r hmay := by
    cases op with
    | saveRecord f k' r' t =>
      obtain ⟨-, rfl, rfl⟩ := hmay
      have hk : PlainKey k' := h k' rfl
      exact ⟨hk.not_reserved, fun heq => absurd heq hk.2⟩
    | spend f k' limit t =>
      have hk : PlainKey k' := h k' rfl
      obtain ⟨-, ⟨rfl, granted, n, first, rfl⟩ | ⟨rfl, rfl⟩⟩ := hmay
      · exact ⟨hk.not_reserved, fun heq => absurd heq hk.2⟩
      · exact ⟨exceededKey_not_reserved, fun _ => ⟨_, rfl⟩⟩
    | applyControl request command t => cases command <;> exact hmay.elim
    | _ => exact hmay.elim
  spend i k by_ hspend hmay := by
    cases op with
    | spend f k' limit t =>
      obtain ⟨-, ⟨-, granted, n, first, hr⟩ | ⟨rfl, -⟩⟩ := hmay
      · simp at hr
      · rfl
    | applyControl request command t => cases command <;> exact hmay.elim
    | _ => exact hspend.elim
  take i k types hmay := by
    cases op with
    | takeEvent f k' types' t =>
      obtain ⟨-, rfl, -⟩ := hmay
      exact (h k' rfl).not_reserved
    | applyControl request command t => cases command <;> exact hmay.elim
    | _ => exact hmay.elim

/-! ### Records only advance -/

/-- Where the store's own records are: each expiry has consumed its copy, and the first refusal is
under its key. -/
structure Journaled (c : Core) : Prop where
  expired : ∀ i n r, (c.record i).get (expiredKey n) = some r →
    Cleared c i ∨ ∃ e, (c.event i).get n = some e ∧ e.consumedKey ≠ none
  exceeded : ∀ i k by_, (c.record i).get k = some (.exceeded by_) → k = exceededKey

theorem Journaled.empty : Journaled Rows.empty.toCore where
  expired i n r h := by simp [Rows.empty] at h
  exceeded i k by_ h := by simp [Rows.empty] at h

theorem Journaled.move {c c' : Core} (h : Journaled c) (hinv : Inv c) (hplain : PlainMay may)
    (hmove : Move env now may c c') : Journaled c' where
  expired i n r hr := by
    -- by what the move does to this record
    have hstep := hmove.record_step hinv i (expiredKey n)
    rw [hr] at hstep
    generalize hold : (c.record i).get (expiredKey n) = o at hstep
    cases hstep with
    | same =>
      rcases h.expired i n r hold with hcleared | ⟨e, he, hc⟩
      · exact .inl (hmove.cleared hinv hcleared)
      · rcases hmove.consumed hinv he hc with hsame | hcleared
        · exact .inr ⟨e, hsame, hc⟩
        · exact .inl hcleared
    | saved _ hkey => exact absurd ⟨n, rfl⟩ (hplain.record _ _ _ hkey).1
    -- the record was put together with the consumption of its copy
    | @expired m e taken hk hp he =>
      obtain rfl : n = m := expiredKey_injective hk
      exact .inr ⟨_, he, by simp [asConsumed]⟩
    | taken _ hmay => exact absurd ⟨n, rfl⟩ (hplain.take _ _ _ hmay)
  exceeded i k by_ hr := by
    have hstep := hmove.record_step hinv i k
    rw [hr] at hstep
    generalize hold : (c.record i).get k = o at hstep
    -- only the budget writes this record, and then as it is
    cases hstep with
    | same => exact h.exceeded i k by_ hold
    | saved _ hkey hmay =>
      rcases hmay with helse | hsame | hspend
      · simp [committedElsewhere] at helse
      · exact h.exceeded i k by_ (hold.trans hsame)
      · exact hplain.spend _ _ _ hspend hkey

/-- The record cannot change any more. -/
def Record.settled : Record → Bool
  | .task _ none => false
  | .call _ _ _ _ state _ => state.isDone
  | _ => true

/-- How a record may go on: the task or the call gets its result under the same bindings. -/
inductive Continues : Record → Record → Prop
  | same (r : Record) : Continues r r
  | task (startedMs : Int) (result : Option TaskResult) :
      Continues (.task startedMs none) (.task startedMs result)
  | call (logical function : String) (arguments : Json) (delivery : Delivery) {state : CallState}
      (annotations : Table String Annotation) (state' : CallState)
      (annotations' : Table String Annotation) (hstate : state.isDone = false) :
      Continues (.call logical function arguments delivery state annotations)
        (.call logical function arguments delivery state' annotations')

theorem Continues.trans {r r' r'' : Record} (h : Continues r r') (h' : Continues r' r'') :
    Continues r r'' := by
  cases h with
  | same => exact h'
  | task startedMs result =>
    cases h' with
    | same => exact .task _ _
    | task => exact .task _ _
  | call logical function arguments delivery annotations state' annotations' hstate =>
    cases h' with
    | same => exact .call _ _ _ _ _ _ _ hstate
    | call => exact .call _ _ _ _ _ _ _ hstate

theorem Continues.of_checkTransition {r r' : Record} (h : checkTransition r r' = true) :
    Continues r r' := by
  simp only [checkTransition, Bool.or_eq_true, decide_eq_true_eq] at h
  rcases h with rfl | h
  · exact .same _
  split at h
  · obtain rfl := of_decide_eq_true h
    exact .task _ _
  · simp only [Bool.and_eq_true, Bool.not_eq_true', decide_eq_true_eq] at h
    obtain ⟨⟨⟨⟨hstate, rfl⟩, rfl⟩, rfl⟩, rfl⟩ := h
    exact .call _ _ _ _ _ _ _ hstate
  · simp at h

/-- A settled record does not go on. -/
theorem Continues.settled {r r' : Record} (h : Continues r r') (hr : r.settled = true) : r' = r := by
  cases h with
  | same => rfl
  | task => simp [Record.settled] at hr
  | call logical function arguments delivery annotations state' annotations' hstate =>
    simp [Record.settled, hstate] at hr

/-- The journal of the run was removed after its end. -/
def Removed (may : String → Act → Prop) (c : Core) (i : String) : Prop :=
  ∃ s at_, c.run.get i = some s ∧ s.run.endedMs = some at_ ∧ may i (.forget at_) ∧
    c.record i = .empty

theorem Move.continues {c c' : Core} (h : Move env now may c c') (hinv : Inv c)
    (hplain : PlainMay may) (hj : Journaled c) {i k : String} {r : Record}
    (hr : (c.record i).get k = some r) :
    (∃ r', (c'.record i).get k = some r' ∧ Continues r r') ∨ Removed may c' i := by
  have hstep := h.record_step hinv i k
  rw [hr] at hstep
  generalize hnew : (c'.record i).get k = o at hstep
  -- one case for each way a record is written; the key's own call decides which may meet it
  cases hstep with
  | same => exact .inl ⟨r, rfl, .same r⟩
  -- a save passed `checkTransition`
  | saved hrec hkey =>
    refine .inl ⟨_, rfl, ?_⟩
    cases hrec with
    | saved _ ht => exact .of_checkTransition (by simpa using ht)
    | same => exact .same _
    | overwritten by_ =>
      -- only a caller that gives the key of first refusals writes over one
      obtain rfl := hj.exceeded i k by_ hr
      obtain ⟨by', hby⟩ := (hplain.record _ _ _ hkey).2 rfl
      simp at hby
  | @expired n e taken hk hp he =>
    -- a copy is consumed by its first expiry
    subst hk
    rcases hj.expired i n r hr with ⟨s, -, -, hempty⟩ | ⟨e', he', hc⟩
    · have := hp.1
      simp [hempty] at this
    · rw [hp.1] at he'
      rw [← Option.some.inj he', hp.2] at hc
      exact absurd rfl hc
  -- a take finds its key free, or taken over from an expiry, which no plain caller asks for
  | taken hfree hmay =>
    rcases hfree with hnone | ⟨n, taken, hk, -⟩
    · rw [hr] at hnone
      simp at hnone
    · exact absurd ⟨n, hk⟩ (hplain.take _ _ _ hmay)
  | forgotten hs hl hmay hempty => exact .inr ⟨_, _, hs, hl, hmay, hempty⟩

/-- A run whose journal was removed gets no record. -/
theorem Move.removed {c c' : Core} (h : Move env now may c c') (hinv : Inv c) {i : String}
    (hi : Removed may c i) : Removed may c' i := by
  obtain ⟨s, at_, hs, hl, hmay, hempty⟩ := hi
  have hended : s.run.endedMs ≠ none := by simp [hl]
  have hpath : Path env now may c c' := .single h
  obtain ⟨s', hs', hframe⟩ := hpath.stored (R := fun s s' => s.run.endedMs ≠ none → Frozen s s') hinv
    (fun s _ => .refl s) (fun _ _ _ h h' hne => (h hne).trans (h' (by rw [(h hne).ended]; exact hne)))
    (fun c s s' _ hsane h hne => h.frozen hsane hne) hs
  refine ⟨s', at_, hs', (hframe hended).ended.trans hl, hmay, Table.ext_get fun k => ?_⟩
  have hdead : ¬∃ t, c.run.get i = some t ∧ t.run.endedMs = none := by
    rintro ⟨t, ht, hlive⟩
    rw [hs] at ht
    rw [Option.some.inj ht] at hended
    exact hended hlive
  have hstep := h.record_step hinv i k
  rw [hempty, Table.get_empty] at hstep
  generalize hnew : (c'.record i).get k = o at hstep
  cases hstep with
  | same => rfl
  | saved _ _ _ hlive => exact absurd hlive hdead
  | expired _ _ _ hlive => exact absurd hlive hdead
  | taken _ _ hlive => exact absurd hlive hdead
  | forgotten => rfl

/-! ### Records over histories -/

theorem Journaled.step {σ : Rows} (hj : Journaled σ.toCore) (hσ : Good σ) {op : Op}
    (hop : op.Plain) : Journaled (step env σ op).toCore :=
  (step_path env hσ op).keep hσ.inv (fun _ _ hinv hmove h => h.move hinv hop.plainMay hmove) hj

theorem journaled_after (env : Env) (history : List Op) (hplain : ∀ op ∈ history, op.Plain) :
    Journaled (after env history).toCore := by
  induction history using List.reverseRecOn with
  | nil => exact .empty
  | append_singleton history op ih =>
    rw [after_concat]
    have hhistory : ∀ op ∈ history, op.Plain := fun op h => hplain op (by simp [h])
    exact (ih hhistory).step (good_after env history) (hplain op (by simp))

/-- A sweep at `now` removed the journal of run `i`, which had ended by its horizon. -/
structure SweptAt (σ : Rows) (i : String) (now kept : Int) : Prop where
  ended : ∃ s at_, σ.run.get i = some s ∧ s.run.endedMs = some at_ ∧ at_ ≤ satSub now kept
  record : σ.record i = .empty

/-- A call lets a record go on, or it is the sweep that removes it. -/
theorem step_continues (env : Env) {σ : Rows} (hσ : Good σ) (hj : Journaled σ.toCore) {op : Op} (hop : op.Plain)
    {i k : String} {r : Record} (hr : (σ.record i).get k = some r) :
    (∃ r', ((step env σ op).record i).get k = some r' ∧ Continues r r') ∨
      ∃ now kept, op = .sweep now kept ∧ SweptAt (step env σ op) i now kept := by
  have hpath := step_path env hσ op
  obtain ⟨-, hcase⟩ := hpath.keep hσ.inv (P := fun c => Journaled c ∧
      ((∃ r', (c.record i).get k = some r' ∧ Continues r r') ∨ Removed op.may c i)) (by
    rintro c c' hinv hmove ⟨hj, ⟨r', hr', hcont⟩ | hgone⟩
    · refine ⟨hj.move hinv hop.plainMay hmove, ?_⟩
      rcases hmove.continues hinv hop.plainMay hj hr' with ⟨r'', hr'', hcont'⟩ | hgone
      · exact .inl ⟨r'', hr'', hcont.trans hcont'⟩
      · exact .inr hgone
    · exact ⟨hj.move hinv hop.plainMay hmove, .inr (hmove.removed hinv hgone)⟩)
    ⟨hj, .inl ⟨r, hr, .same r⟩⟩
  refine hcase.imp id ?_
  rintro ⟨s, at_, hs, hl, hmay, hempty⟩
  cases op with
  | sweep now kept => exact ⟨now, kept, rfl, ⟨s, at_, hs, hl, hmay⟩, hempty⟩
  | applyControl request command now => cases command <;> exact hmay.elim
  | _ => exact hmay.elim

/-- Over a history a record goes on until a sweep removes it. -/
theorem runs_continues (env : Env) {before later : List Op}
    (hplain : ∀ op ∈ before ++ later, op.Plain) {i k : String} {r : Record}
    (hr : ((after env before).record i).get k = some r) :
    (∃ r', ((after env (before ++ later)).record i).get k = some r' ∧ Continues r r') ∨
      ∃ between now kept rest, later = between ++ .sweep now kept :: rest ∧
        SweptAt (after env (before ++ between ++ [.sweep now kept])) i now kept := by
  induction later using List.reverseRecOn with
  | nil => exact .inl ⟨r, by simpa using hr, .same r⟩
  | append_singleton later op ih =>
    have hlater : ∀ op ∈ before ++ later, op.Plain := by
      intro op h
      exact hplain op (by rw [← List.append_assoc]; exact List.mem_append_left _ h)
    rcases ih hlater with ⟨r', hr', hcont⟩ | ⟨between, now, kept, rest, rfl, hswept⟩
    · have hop : op.Plain := hplain op (by simp)
      rw [← List.append_assoc, after_concat]
      rcases step_continues env (good_after env _) (journaled_after env _ hlater) hop hr' with
        ⟨r'', hr'', hcont'⟩ | ⟨now, kept, rfl, hswept⟩
      · exact .inl ⟨r'', hr'', hcont.trans hcont'⟩
      · refine .inr ⟨later, now, kept, [], rfl, ?_⟩
        rw [after_concat]
        exact hswept
    · exact .inr ⟨between, now, kept, rest ++ [op], by simp, hswept⟩

/-! ### Answers -/

/-- The annotations of a call that has its answer. -/
def Record.answered : Record → Option (Table String Annotation)
  | .call _ _ _ _ (.done _) annotations => some annotations
  | _ => none

/-- The calls of a journal that became done from one state to another. -/
def newAnswers (old new : Table String Record) : List (String × Table String Annotation) :=
  new.rows.filterMap fun row =>
    if ((old.get row.1).bind Record.answered).isSome then none else row.2.answered.map (row.1, ·)

/-- The answers a run gets over a history, in the order of their commits. -/
def answersFrom (env : Env) (i : String) (σ : Rows) : List Op → List (String × Table String Annotation)
  | [] => []
  | op :: rest =>
    newAnswers (σ.record i) ((step env σ op).record i) ++ answersFrom env i (step env σ op) rest

/-- The answers of a run since the store was empty. -/
def answersOf (env : Env) (i : String) (history : List Op) : List (String × Table String Annotation) :=
  answersFrom env i .empty history

/-- The totals of a list of answers. -/
def totalsOf (env : Env) (l : List (String × Table String Annotation)) : Totals :=
  l.foldl (fun totals answer => accumulate env.addFloat totals (numbers answer.2)) .empty

theorem answersFrom_concat (env : Env) (i : String) (σ : Rows) (history : List Op) (op : Op) :
    answersFrom env i σ (history ++ [op]) = answersFrom env i σ history ++
      newAnswers ((runs (step env) σ history).record i)
        ((step env (runs (step env) σ history) op).record i) := by
  induction history generalizing σ with
  | nil => simp [answersFrom]
  | cons op' history ih =>
    simp only [List.cons_append, answersFrom, ih, List.append_assoc]
    rfl

theorem answersOf_concat (env : Env) (i : String) (history : List Op) (op : Op) :
    answersOf env i (history ++ [op]) = answersOf env i history ++
      newAnswers ((after env history).record i) ((step env (after env history) op).record i) :=
  answersFrom_concat env i .empty history op

theorem mem_newAnswers {old new : Table String Record} {k : String} {a : Table String Annotation} :
    (k, a) ∈ newAnswers old new ↔ ((old.get k).bind Record.answered) = none ∧
      ∃ r, new.get k = some r ∧ r.answered = some a := by
  simp only [newAnswers, List.mem_filterMap, Prod.exists, Table.mem_rows, Option.ite_none_left_eq_some,
    Option.map_eq_some_iff, Prod.mk.injEq, Bool.not_eq_true, Option.isSome_eq_false_iff,
    Option.isNone_iff_eq_none]
  constructor
  · rintro ⟨k', r, hr, hold, a', ha, rfl, rfl⟩
    exact ⟨hold, r, hr, ha⟩
  · rintro ⟨hold, r, hr, ha⟩
    exact ⟨k, r, hr, hold, a, ha, rfl, rfl⟩

/-- One row of a table decides what a filter of its rows keeps, when it keeps none of the others. -/
private theorem filterMap_rows {β : Type} {t : Table String Record} {k : String} {r : Record}
    {f : String × Record → Option β} (hk : t.get k = some r) (hf : ∀ k' r', k' ≠ k → t.get k' = some r' → f (k', r') = none) :
    t.rows.filterMap f = (f (k, r)).toList := by
  obtain ⟨l₁, l₂, hrows⟩ := List.append_of_mem (t.mem_rows.mpr hk)
  have hsorted := t.rows_sorted
  have hmem : ∀ row, row ∈ l₁ ∨ row ∈ l₂ → f row = none := by
    rintro ⟨k', r'⟩ hrow
    have hget : t.get k' = some r' := t.mem_rows.mp (by rw [hrows]; simp; tauto)
    refine hf k' r' ?_ hget
    rw [hrows, List.pairwise_append] at hsorted
    obtain ⟨-, hafter, hbefore⟩ := hsorted
    rcases hrow with h | h
    · exact (hbefore _ h (k, r) (by simp)).ne
    · exact ((List.pairwise_cons.mp hafter).1 _ h).ne'
  rw [hrows, List.filterMap_append, List.filterMap_cons,
    List.filterMap_eq_nil_iff.mpr fun row h => hmem row (.inl h)]
  have hrest : l₂.filterMap f = [] := List.filterMap_eq_nil_iff.mpr fun row h => hmem row (.inr h)
  cases hval : f (k, r) with
  | none => simp [hrest]
  | some b => simp [hrest]

/-- A journal in which no call became done gives no answers. -/
theorem newAnswers_eq_nil {old new : Table String Record}
    (h : ∀ k r, new.get k = some r → r.answered ≠ none → old.get k = some r) : newAnswers old new = [] := by
  refine List.eq_nil_iff_forall_not_mem.mpr ?_
  rintro ⟨k, a⟩ hmem
  obtain ⟨hold, r, hr, ha⟩ := mem_newAnswers.mp hmem
  rw [h k r hr (by simp [ha])] at hold
  simp [ha] at hold

/-- The answers of a journal in which one record was written. -/
theorem newAnswers_put (old : Table String Record) (k : String) (r : Record) :
    newAnswers old (old.put k r) =
      (if ((old.get k).bind Record.answered).isSome then none else r.answered.map (k, ·)).toList := by
  refine filterMap_rows (old.get_put_self k r) fun k' r' hne hr' => ?_
  rw [old.get_put_ne r (Ne.symm hne)] at hr'
  rw [hr']
  cases ha : r'.answered <;> simp [ha]

theorem Record.answered_eq_some {r : Record} {a : Table String Annotation} :
    r.answered = some a ↔ ∃ logical function arguments delivery result,
      r = .call logical function arguments delivery (.done result) a := by
  constructor
  · intro h
    unfold Record.answered at h
    split at h
    · obtain rfl := Option.some.inj h
      exact ⟨_, _, _, _, _, rfl⟩
    · simp at h
  · rintro ⟨logical, function, arguments, delivery, result, rfl⟩
    rfl

/-- A done call adds nothing more; another adds what its answer has. -/
theorem newAnnotations_eq (o : Option Record) (r : Record) :
    newAnnotations o r =
      if (o.bind Record.answered).isSome then [] else (r.answered.map numbers).getD [] := by
  unfold newAnnotations
  split
  · rfl
  · next hold =>
    rw [if_neg]
    · rfl
    · rw [Option.isSome_iff_exists]
      rintro ⟨a, ha⟩
      obtain ⟨r', rfl, hr'⟩ := Option.bind_eq_some_iff.mp ha
      obtain ⟨l, f, x, d, result, rfl⟩ := Record.answered_eq_some.mp hr'
      exact hold _ _ _ _ _ _ rfl
  · next hnew =>
    have hnone : r.answered = none := by
      by_contra hne
      obtain ⟨a, ha⟩ := Option.ne_none_iff_exists'.mp hne
      obtain ⟨l, f, x, d, result, rfl⟩ := Record.answered_eq_some.mp ha
      exact hnew _ _ _ _ _ _ rfl
    simp [hnone]

/-- What a save adds to the totals is what the new answer has. -/
theorem accumulate_newAnswers (env : Env) (totals : Totals) (old : Table String Record) (k : String)
    (r : Record) :
    accumulate env.addFloat totals (newAnnotations (old.get k) r) =
      (newAnswers old (old.put k r)).foldl
        (fun totals answer => accumulate env.addFloat totals (numbers answer.2)) totals := by
  rw [newAnswers_put, newAnnotations_eq]
  split
  · rfl
  · cases r.answered <;> rfl

/-! ### Answers of calls -/

/-- Without a save no call gets its answer. -/
theorem Path.newAnswers {c c' : Core} (h : Path env now may c c') (hinv : Inv c) {i : String}
    (hmay : ∀ k r, may i (.record k r) → r.answered = none) :
    newAnswers (c.record i) (c'.record i) = [] := by
  refine newAnswers_eq_nil (h.keep hinv (P := fun c' => ∀ k r, (c'.record i).get k = some r →
    r.answered ≠ none → (c.record i).get k = some r) ?_ fun _ _ hr _ => hr)
  intro c₁ c₂ hinv₁ hmove hold k r hr ha
  have hstep := hmove.record_step hinv₁ i k
  rw [hr] at hstep
  generalize hbefore : (c₁.record i).get k = o at hstep
  cases hstep with
  | same => exact hold k r hbefore ha
  | saved _ hkey => exact absurd (hmay k r hkey) ha
  | expired => exact absurd rfl ha
  | taken => exact absurd rfl ha

/-- A run for which no one adds annotations keeps its totals. -/
theorem RowChange.annotations {c : Core} {s s' : StoredRun} (h : RowChange env c now may s s')
    (hmay : ¬may s.id .annotate) : s'.run.annotations = s.run.annotations := by
  cases h with
  | rewrite h =>
    cases h with
    | park outcome =>
      obtain ⟨state, wakeAtMs, interruptions, heq⟩ := finished_eq c s outcome now
      rw [heq]
      rfl
    | register => simp
    | unregister => simp
    | settle => simp
    | mark a hr ha => exact ha.resolve_right hmay
    | _ => rfl
  | accept e =>
    rw [counted_run]
    split <;> rfl
  | notify t =>
    rw [counted_run]
    split <;> rfl
  | take => simp
  | _ => rfl

/-- The totals of a run after a path on which no one adds to them. -/
theorem Path.annotations {c c' : Core} (h : Path env now may c c') (hinv : Inv c) {i : String}
    (hmay : ¬may i .annotate) {s' : StoredRun} (hs' : c'.run.get i = some s') :
    (∃ s, c.run.get i = some s ∧ s'.run.annotations = s.run.annotations) ∨
      c.run.get i = none ∧ s'.run.annotations = .empty := by
  -- rows are never removed, so a run that is new on the path was not stored before it
  refine (h.keep hinv (P := fun c' => (c'.run.get i = none → c.run.get i = none) ∧
    ∀ s', c'.run.get i = some s' →
      (∃ s, c.run.get i = some s ∧ s'.run.annotations = s.run.annotations) ∨
        c.run.get i = none ∧ s'.run.annotations = .empty) ?_
    ⟨fun hnone => hnone, fun s hs => .inl ⟨s, hs, rfl⟩⟩).2 s' hs'
  rintro c₁ c₂ hinv₁ hmove ⟨hnone, hold⟩
  have hrow := hmove.row i
  generalize hs₁ : c₁.run.get i = o at hrow
  generalize hs₂ : c₂.run.get i = o' at hrow
  cases hrow with
  | same => exact ⟨fun h => hnone (hs₁.trans h), fun s h => hold s (hs₁.trans h)⟩
  | new hid hnew =>
    refine ⟨by simp, fun s h => .inr ⟨hnone hs₁, ?_⟩⟩
    obtain rfl := Option.some.inj h
    cases hnew <;> rfl
  | @change s₁ s₂ hid hchange =>
    refine ⟨by simp, fun s h => ?_⟩
    obtain rfl := Option.some.inj h
    rw [hchange.annotations (by rwa [hid])]
    exact hold _ hs₁

/-- What a call does to the answers and the totals of a run: nothing, or it saves one record of the
live run and adds what its answer has. -/
theorem step_answers (env : Env) {σ : Rows} (hσ : Good σ) (op : Op) (i : String) :
    (newAnswers (σ.record i) ((step env σ op).record i) = [] ∧
      ∀ s', (step env σ op).run.get i = some s' →
        (∃ s, σ.run.get i = some s ∧ s'.run.annotations = s.run.annotations) ∨
          σ.run.get i = none ∧ s'.run.annotations = .empty) ∨
    ∃ s s', σ.run.get i = some s ∧ s.run.endedMs = none ∧ (step env σ op).run.get i = some s' ∧
      (∃ k r, (step env σ op).record i = (σ.record i).put k r) ∧
      s'.run.annotations = (newAnswers (σ.record i) ((step env σ op).record i)).foldl
        (fun totals answer => accumulate env.addFloat totals (numbers answer.2)) s.run.annotations := by
  -- only a save can bring an answer
  have hpath := step_path env hσ op
  have hother : (∀ k r, op.may i (.record k r) → r.answered = none) → ¬op.may i .annotate →
      newAnswers (σ.record i) ((step env σ op).record i) = [] ∧
        ∀ s', (step env σ op).run.get i = some s' →
          (∃ s, σ.run.get i = some s ∧ s'.run.annotations = s.run.annotations) ∨
            σ.run.get i = none ∧ s'.run.annotations = .empty :=
    fun hrecord hannotate =>
      ⟨hpath.newAnswers hσ.inv hrecord, fun _ hs' => hpath.annotations hσ.inv hannotate hs'⟩
  cases op with
  | saveRecord f k r t =>
    by_cases hi : f.runId = i
    · subst hi
      -- a save that fails changes nothing
      rcases step_cases env σ (.saveRecord f k r t) with ⟨heq, -⟩ | ⟨result, htx, -⟩
      · rw [heq]
        exact .inl ⟨newAnswers_eq_nil fun _ _ hr _ => hr, fun s' hs' => .inl ⟨s', hs', rfl⟩⟩
      -- a save that goes through adds the annotations of the new answer
      · obtain ⟨u, hsave, -⟩ := map_ok.mp htx
        obtain ⟨s, hs, hid, hrunning, -, -, -, hcore⟩ := saveRecord_ok hσ hsave
        rw [← hid]
        have hrecord : (step env σ (.saveRecord f k r t)).record s.id = (σ.record s.id).put k r := by
          rw [show (step env σ (.saveRecord f k r t)).record = Table.putAt σ.record s.id k r from
            congrArg Core.record hcore, Table.putAt, Function.update_self]
        have hrow : (step env σ (.saveRecord f k r t)).run.get s.id = some (marked s
            (accumulate env.addFloat s.run.annotations (newAnnotations ((σ.record s.id).get k) r))) := by
          rw [show (step env σ (.saveRecord f k r t)).run = _ from congrArg Core.run hcore]
          exact get_marked _ _ _
        refine .inr ⟨s, _, hs, (hσ.inv.sane _ _ hs).live_of_running hrunning, hrow, ⟨k, r, hrecord⟩, ?_⟩
        · rw [hrecord]
          exact accumulate_newAnswers env _ _ _ _
    · exact .inl (hother (fun _ _ h => absurd h.1 hi) hi)
  -- decisions on the budget are no answers
  | spend f k limit t =>
    refine .inl (hother ?_ fun h => h.elim)
    rintro k' r ⟨-, ⟨-, granted, n, first, rfl⟩ | ⟨-, rfl⟩⟩
    · rfl
    · rfl
  -- nor does a control save any
  | applyControl request command t =>
    refine .inl (hother (fun _ _ h => ?_) fun h => ?_)
    · cases command <;> exact h.elim
    · cases command <;> exact h.elim
  | _ => exact .inl (hother (fun _ _ h => h.elim) fun h => h.elim)

/-- The totals of a run are those of its answers, each of which is one call that is done. -/
structure Totalled (env : Env) (i : String) (history : List Op) : Prop where
  totals : ∀ s, (after env history).run.get i = some s →
    s.run.annotations = totalsOf env (answersOf env i history)
  absent : (after env history).run.get i = none → answersOf env i history = []
  nodup : ((answersOf env i history).map Prod.fst).Nodup
  /-- An answer stays done, until its run has ended. -/
  answered : ∀ k a, (k, a) ∈ answersOf env i history →
    (∃ r, ((after env history).record i).get k = some r ∧ r.answered = some a) ∨
      ∃ s, (after env history).run.get i = some s ∧ s.run.endedMs ≠ none
  complete : ∀ k r a, ((after env history).record i).get k = some r → r.answered = some a →
    (k, a) ∈ answersOf env i history

/-- A done call is settled. -/
theorem Record.settled_of_answered {r : Record} {a : Table String Annotation}
    (h : r.answered = some a) : r.settled = true := by
  obtain ⟨logical, function, arguments, delivery, result, rfl⟩ := Record.answered_eq_some.mp h
  rfl

theorem Totalled.concat {i : String} {history : List Op} {op : Op} (h : Totalled env i history)
    (hplain : ∀ op ∈ history, op.Plain) (hop : op.Plain) : Totalled env i (history ++ [op]) := by
  have hσ := good_after env history
  have hj := journaled_after env history hplain
  have hrun := step_answers env hσ op i
  -- what a call leaves of a stored answer: the answer, or an ended run
  have hkeeps : ∀ k a, (k, a) ∈ answersOf env i history →
      (∃ r, ((step env (after env history) op).record i).get k = some r ∧ r.answered = some a) ∨
        ∃ s, (step env (after env history) op).run.get i = some s ∧ s.run.endedMs ≠ none := by
    intro k a hmem
    rcases h.answered k a hmem with ⟨r, hr, ha⟩ | ⟨s, hs, hended⟩
    · rcases step_continues env hσ hj hop hr with ⟨r', hr', hcont⟩ | ⟨t, kept, rfl, hswept⟩
      · rw [hcont.settled (Record.settled_of_answered ha)] at hr'
        exact .inl ⟨r, hr', ha⟩
      · obtain ⟨s, at_, hs, hl, -⟩ := hswept.ended
        exact .inr ⟨s, hs, by simp [hl]⟩
    · exact .inr (step_ended hσ op hs hended)
  -- an answer in the rows after the call is one of the list
  have hcomplete : ∀ k r a, ((step env (after env history) op).record i).get k = some r →
      r.answered = some a → (k, a) ∈ answersOf env i (history ++ [op]) := by
    intro k r a hr ha
    rw [answersOf_concat, List.mem_append]
    cases hold : (((after env history).record i).get k).bind Record.answered with
    | none => exact .inr (mem_newAnswers.mpr ⟨hold, r, hr, ha⟩)
    | some a₀ =>
      -- it was done before, and is the same record since
      obtain ⟨r₀, hr₀, ha₀⟩ := Option.bind_eq_some_iff.mp hold
      rcases step_continues env hσ hj hop hr₀ with ⟨r', hr', hcont⟩ | ⟨t, kept, rfl, hswept⟩
      · rw [hcont.settled (Record.settled_of_answered ha₀), hr] at hr'
        obtain rfl := Option.some.inj hr'
        exact .inl (h.complete k r a hr₀ ha)
      · rw [hswept.record] at hr
        simp at hr
  -- the call brought no answer, or exactly one
  rcases hrun with ⟨hnil, hrows⟩ | ⟨s, s', hs, hlive, hs', ⟨k, r, hput⟩, htotals⟩
  · have heq : answersOf env i (history ++ [op]) = answersOf env i history := by
      rw [answersOf_concat, hnil, List.append_nil]
    -- nothing new: totals, absence and order are as before
    refine ⟨fun s' hs' => ?_, fun hnone => ?_, by rw [heq]; exact h.nodup, ?_, ?_⟩
    · rw [after_concat] at hs'
      rw [heq]
      rcases hrows s' hs' with ⟨s, hs, hsame⟩ | ⟨hnone, hempty⟩
      · rw [hsame, h.totals s hs]
      · rw [hempty, h.absent hnone]
        rfl
    -- a run that is absent now was absent before
    · rw [heq]
      refine h.absent ?_
      by_contra hne
      obtain ⟨s, hs⟩ := Option.ne_none_iff_exists'.mp hne
      obtain ⟨s', hs', -⟩ := (step_path env hσ op).stored (R := fun _ _ => True) hσ.inv
        (fun _ => trivial) (fun _ _ _ _ _ => trivial) (fun _ _ _ _ _ _ => trivial) hs
      rw [after_concat, hs'] at hnone
      simp at hnone
    · rw [heq, after_concat]
      exact hkeeps
    · rw [after_concat]
      exact hcomplete
  -- one new answer, under a key that has none in the list yet
  · have hnew : ∀ k' a, (k', a) ∈ newAnswers ((after env history).record i)
        ((step env (after env history) op).record i) → k' ∉ (answersOf env i history).map Prod.fst := by
      intro k' a hmem hin
      obtain ⟨hold, -⟩ := mem_newAnswers.mp hmem
      obtain ⟨⟨k'', a'⟩, hmem', rfl⟩ := List.mem_map.mp hin
      rcases h.answered k'' a' hmem' with ⟨r', hr', ha'⟩ | ⟨s₀, hs₀, hended⟩
      · rw [hr', Option.bind_some, ha'] at hold
        simp at hold
      · rw [hs] at hs₀
        rw [← Option.some.inj hs₀] at hended
        exact hended hlive
    -- the totals grow by it, and the list by its key
    refine ⟨fun s'' hs'' => ?_, fun hnone => ?_, ?_, ?_, ?_⟩
    · rw [after_concat, hs'] at hs''
      rw [← Option.some.inj hs'', htotals, h.totals s hs, answersOf_concat, totalsOf, totalsOf,
        List.foldl_append]
    · rw [after_concat, hs'] at hnone
      simp at hnone
    · rw [answersOf_concat, List.map_append, List.nodup_append]
      refine ⟨h.nodup, ?_, fun k₁ hk₁ k₂ hk₂ heq => ?_⟩
      · rw [hput, newAnswers_put]
        split
        · simp
        · cases r.answered <;> simp
      · obtain ⟨⟨k', a⟩, hmem, rfl⟩ := List.mem_map.mp hk₂
        rw [heq] at hk₁
        exact hnew k' a hmem hk₁
    -- old answers are kept as above, the new one is stored
    · intro k' a hmem
      rw [answersOf_concat, List.mem_append] at hmem
      rw [after_concat]
      rcases hmem with hmem | hmem
      · exact hkeeps k' a hmem
      · obtain ⟨-, r', hr', ha'⟩ := mem_newAnswers.mp hmem
        exact .inl ⟨r', hr', ha'⟩
    · rw [after_concat]
      exact hcomplete

theorem totalled_after (env : Env) (i : String) (history : List Op)
    (hplain : ∀ op ∈ history, op.Plain) : Totalled env i history := by
  induction history using List.reverseRecOn with
  | nil =>
    exact ⟨fun s hs => by simp [after, Rows.empty] at hs, fun _ => rfl, List.nodup_nil,
      fun k a h => by simp [answersOf, answersFrom] at h,
      fun k r a h => by simp [after, Rows.empty] at h⟩
  | append_singleton history op ih =>
    have hhistory : ∀ op ∈ history, op.Plain := fun op h => hplain op (by simp [h])
    exact (ih hhistory).concat hhistory (hplain op (by simp))

/-- A save that fails stores nothing. -/
theorem saveRecord_rejected {f : Fence} {k : String} {r : Record} {σ : Rows} {e : Error}
    (h : (call env σ (.saveRecord f k r now)).1 = .error e) :
    call env σ (.saveRecord f k r now) = (.error e, σ) := by
  rcases step_cases env σ (.saveRecord f k r now) with ⟨-, e', hcall⟩ | ⟨result, htx, hcall⟩
  · rw [hcall] at h ⊢
    rw [Except.error.inj h]
  · obtain ⟨u, -, rfl⟩ := map_ok.mp htx
    rw [hcall] at h
    simp at h

/-- The journal is exact where no caller writes under the keys of the store. A record that was stored is
stored still: a settled one as it was, a task and a call with what they began with; otherwise a sweep
removed it with its run. A rejected save leaves the store as it was. The totals of a stored run are those
of the answers of its calls, each added once. -/
theorem journal_exact (env : Env) (history : List Op) (hplain : ∀ op ∈ history, op.Plain) :
    -- a record stays, settled for good and task and call by their own outline, or a sweep removed it
    (∀ before later i k r, history = before ++ later →
      ((after env before).record i).get k = some r →
      (∃ r', ((after env history).record i).get k = some r' ∧ (r.settled = true → r' = r) ∧
        (∀ startedMs result, r = .task startedMs result → ∃ result', r' = .task startedMs result') ∧
        ∀ logical function arguments delivery state annotations,
          r = .call logical function arguments delivery state annotations →
          ∃ state' annotations', r' = .call logical function arguments delivery state' annotations') ∨
      ∃ between now kept rest, later = between ++ .sweep now kept :: rest ∧
        SweptAt (after env (before ++ between ++ [.sweep now kept])) i now kept) ∧
    -- a rejected save changes nothing
    (∀ f k r now e, (call env (after env history) (.saveRecord f k r now)).1 = .error e →
      (call env (after env history) (.saveRecord f k r now)).2 = after env history) ∧
    -- the totals are those of the answers, each counted once
    ∀ i, (∀ s, (after env history).run.get i = some s →
        s.run.annotations = totalsOf env (answersOf env i history)) ∧
      ((answersOf env i history).map Prod.fst).Nodup ∧
      ∀ k r annotations, ((after env history).record i).get k = some r →
        r.answered = some annotations → (k, annotations) ∈ answersOf env i history := by
  -- the three parts: the record's life, rejected saves, and the totals
  refine ⟨?_, fun f k r now e h => ?_, fun i => ?_⟩
  · rintro before later i k r rfl hr
    refine (runs_continues env hplain hr).imp ?_ id
    rintro ⟨r', hr', hcont⟩
    refine ⟨r', hr', hcont.settled, ?_, ?_⟩
    · rintro startedMs result rfl
      cases hcont with
      | same => exact ⟨_, rfl⟩
      | task => exact ⟨_, rfl⟩
    · rintro logical function arguments delivery state annotations rfl
      cases hcont with
      | same => exact ⟨_, _, rfl⟩
      | call => exact ⟨_, _, rfl⟩
  · rw [saveRecord_rejected h]
  · have htotalled := totalled_after env i history hplain
    exact ⟨htotalled.totals, htotalled.nodup, htotalled.complete⟩

/-- A call is saved, answered, and its answer saved again by the next owner. -/
def savedTwice : List Op :=
  let answer (f : Fence) (state : CallState) (t : Int) : Op :=
    .saveRecord f "call" (.call "/do/0/a" "f" .null .atMostOnce state
      (.ofList [("tokens", .number (.int 7))])) t
  [.start (.plain "r") 0 "o", answer (.plain "r" 1) .pending 1,
    answer (.plain "r" 1) (.done (.ok .null)) 2, .release (.plain "r" 1) 3,
    .claimAs "r" 4 { version := none, accepts := [] } "o",
    answer (.plain "r" 2) (.done (.ok .null)) 5]

/-- The answer of a call is saved again by the next owner; the totals count it once. -/
theorem saved_twice_counted_once :
    (∀ op ∈ savedTwice, op.Plain) ∧
      answersOf .plain "r" savedTwice = [("call", .ofList [("tokens", .number (.int 7))])] ∧
      ∀ s, (after .plain savedTwice).run.get "r" = some s →
        s.run.annotations = totalsOf .plain (answersOf .plain "r" savedTwice) :=
  have hplain : ∀ op ∈ savedTwice, op.Plain := by decide +kernel
  ⟨hplain, by decide +kernel, ((journal_exact .plain savedTwice hplain).2.2 "r").1⟩

end Ouro
