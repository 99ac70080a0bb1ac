import Ouro.Ows.Course

/-!
# What a run guarantees

Of every run of the interpreter, however often its executions stop and wherever, whatever becomes of its
saves and whatever the calls answer (`Given.history`):

* a call is handed over only while its intent is in the journal, unanswered, and one that is delivered at
  most once right after its first intent (`history_announced`);
* of the calls with one logical identity that are delivered at most once, another is sent only when the
  journal says that those before it did not run (`history_sentOnce`);
* an answer stays, and what it answers is not sent again (`history_answers`);
* what is done for a task is done before the task and those around it have a result, and in a list only along
  the flow of the results before it (`history_inOrder`);
* the attempts of a `try` follow one another, each after the decision on it, and are bounded
  (`history_attempts`).
-/

namespace Ouro.Interp

open Lib Ows

/-- The key that an act is about. -/
def Act.key : Act → Option String
  | .begin_ => none
  | .save key _ _ | .send key _ _ _ _ => some key

variable {w : Ows.Workflow} {ceiling : Nat} {J : Table String Record} {l m later : List Segment}
  {after before log : List Act} {a : Act} {kind : RecordKind} {key logical name : String} {args : Json}
  {delivery : Delivery} {state : CallState} {ann : Table String Annotation} {r : Record}

/-! ### Calls -/

/-- Each call was handed over while its intent was pending, and one that is delivered at most once right after
its first intent was saved. -/
def Announced (log : List Act) : Prop :=
  ∀ after before key logical name args delivery,
    log = after ++ .send key logical name args delivery :: before →
    (journalOf before).get key = some (.call logical name args delivery .pending .empty) ∧
    (delivery = .atMostOnce → ∃ rest,
      before = .save key none (.call logical name args .atMostOnce .pending .empty) :: rest)

/-- A call that is delivered at most once was handed over again, under whichever key, only when the journal
said of each time before that the call did not run. -/
def SentOnce (log : List Act) : Prop :=
  ∀ after before key key' logical name name' args args',
    log = after ++ .send key' logical name' args' .atMostOnce :: before →
    .send key logical name args .atMostOnce ∈ before →
    ∃ e ann, (journalOf before).get key = some (.call logical name args .atMostOnce (.notExecuted e) ann)

/-- An answer is not changed, and what it answers is not handed over again. -/
def Answered (log : List Act) : Prop :=
  ∀ after before key logical name args delivery state ann, log = after ++ before →
    (journalOf before).get key = some (.call logical name args delivery state ann) → state ≠ .pending →
    (journalOf log).get key = some (.call logical name args delivery state ann) ∧
    ∀ logical' name' args' delivery', .send key logical' name' args' delivery' ∉ after

theorem Legal.send (h : Legal w ceiling (.send key logical name args delivery :: before)) :
    (journalOf before).get key = some (.call logical name args delivery .pending .empty) ∧
    (delivery = .atMostOnce → ∃ rest,
      before = .save key none (.call logical name args .atMostOnce .pending .empty) :: rest) := by
  cases h with
  | act _ hdoes =>
    cases hdoes with
    | send _ _ hpending hfresh => exact ⟨hpending, hfresh⟩

/-- A save notes what it replaces. -/
theorem Legal.save {old : Option Record} (h : Legal w ceiling (.save key old r :: before)) :
    old = (journalOf before).get key := by
  cases h with
  | own => rfl
  | act _ hdoes =>
    cases hdoes
    rfl

theorem Legal.announced (h : Legal w ceiling log) : Announced log := by
  rintro after before key logical name args delivery rfl
  exact h.before.send

/-- Only an unanswered call is saved over, and its identity and arguments stay. -/
theorem Rule.over_call (h : Rule w ceiling J m kind r) (hsound : Sound w ceiling J)
    (hvalid : (w.follow w.top m).isSome)
    (hget : J.get (recordKey m kind) = some (.call logical name args delivery state ann)) :
    state = .pending ∧ ∃ state' ann', r = .call logical name args delivery state' ann' := by
  obtain ⟨m', hvalid', hkey, -⟩ := hsound.named _ _ _ _ _ _ _ hget
  obtain ⟨-, rfl⟩ := recordKey_inj hvalid hvalid' hkey
  cases h with
  | intent hnone => rw [hnone] at hget; cases hget
  | again hpending =>
    rw [hpending] at hget
    cases hget
    exact ⟨rfl, _, _, rfl⟩
  | answer hpending =>
    rw [hpending] at hget
    cases hget
    exact ⟨rfl, _, _, rfl⟩

/-- What one act leaves of a call in the journal. -/
theorem Legal.call_stays (h : Legal w ceiling (a :: log))
    (hget : (journalOf log).get key = some (.call logical name args delivery state ann)) :
    (∃ state' ann', (journalOf (a :: log)).get key = some (.call logical name args delivery state' ann')) ∧
    (state ≠ .pending → (journalOf (a :: log)).get key = some (.call logical name args delivery state ann) ∧
      ∀ logical' name' args' delivery', a ≠ .send key logical' name' args' delivery') := by
  have hsound : Sound w ceiling (journalOf log) := (show Legal w ceiling ([a] ++ log) from h).before.sound
  -- by what was done last: the run's own records are no call's
  cases h with
  | begin_ => exact ⟨⟨_, _, hget⟩, fun _ => ⟨hget, fun _ _ _ _ h => by cases h⟩⟩
  | own _ hown =>
    obtain ⟨m, -, rfl, -⟩ := hsound.named _ _ _ _ _ _ _ hget
    rw [journalOf, Table.get_put_ne _ _ (own_ne_recordKey hown m .call), hget]
    exact ⟨⟨_, _, rfl⟩, fun _ => ⟨rfl, fun _ _ _ _ h => by cases h⟩⟩
  | act _ hdoes =>
    cases hdoes with
    | send _ _ hpending =>
      -- a request is made for a pending call only
      refine ⟨⟨_, _, hget⟩, fun hstate => ⟨hget, ?_⟩⟩
      rintro _ _ _ _ h
      cases h
      rw [hpending] at hget
      cases hget
      exact hstate rfl
    | @save m kind r t _ hcurrent _ hrule =>
      rw [journalOf, Table.get_put]
      split
      -- a save over the call's record: it was pending, and stays the same call
      · next hkey =>
        obtain ⟨rfl, state', ann', rfl⟩ := hrule.over_call hsound hcurrent.isSome (hkey ▸ hget)
        exact ⟨⟨_, _, rfl⟩, fun hstate => absurd rfl hstate⟩
      · exact ⟨⟨_, _, hget⟩, fun _ => ⟨hget, fun _ _ _ _ h => by cases h⟩⟩

theorem Legal.answered (h : Legal w ceiling log) : Answered log := by
  rintro after before key logical name args delivery state ann rfl hget hstate
  induction after with
  | nil => exact ⟨hget, fun _ _ _ _ h => by cases h⟩
  | cons a after ih =>
    obtain ⟨hstays, hnot⟩ := ih (show Legal w ceiling ([a] ++ (after ++ before)) from h).before
    obtain ⟨hget', hne⟩ := (h.call_stays hstays).2 hstate
    refine ⟨hget', fun logical' name' args' delivery' hmem => ?_⟩
    rcases List.mem_cons.mp hmem with heq | hmem
    · exact hne _ _ _ _ heq.symm
    · exact hnot _ _ _ _ hmem

/-- The journal has every call that was handed over. -/
theorem Legal.accounted (h : Legal w ceiling log) (hsend : .send key logical name args delivery ∈ log) :
    ∃ state ann, (journalOf log).get key = some (.call logical name args delivery state ann) := by
  induction log with
  | nil => cases hsend
  | cons a log ih =>
    rcases List.mem_cons.mp hsend with rfl | hsend
    · exact ⟨_, _, h.send.1⟩
    · obtain ⟨state, ann, hget⟩ := ih (show Legal w ceiling ([a] ++ log) from h).before hsend
      exact (h.call_stays hget).1

theorem Legal.sentOnce (h : Legal w ceiling log) : SentOnce log := by
  rintro after before key key' logical name name' args args' rfl hsend
  have hlegal := h.before
  obtain ⟨hpending, hfresh⟩ := hlegal.send
  obtain ⟨rest, rfl⟩ := hfresh rfl
  have hbefore := (show Legal w ceiling ([.send key' logical name' args' .atMostOnce] ++ _) from hlegal).before
  obtain ⟨state, ann, hget⟩ := hbefore.accounted hsend
  cases hstanding : standing state with
  | false =>
    cases state with
    | notExecuted e => exact ⟨e, ann, hget⟩
    | pending => cases hstanding
    | done result => cases hstanding
  | true =>
    -- both stand, so they are one, and there was none when its intent was first saved
    exfalso
    obtain rfl : key = key' := hbefore.sound.single _ _ logical _ _ hget hpending
      (stands_iff.mpr ⟨_, _, _, _, rfl, hstanding⟩) (stands_iff.mpr ⟨_, _, _, _, rfl, rfl⟩)
    rcases List.mem_cons.mp hsend with heq | hsend
    · cases heq
    · have hrest := (show Legal w ceiling ([.save key none _] ++ rest) from hbefore).before
      obtain ⟨state', ann', hold⟩ := hrest.accounted hsend
      rw [← hbefore.save] at hold
      cases hold

/-! ### Tasks -/

/-- An execution comes to a task of a list along the flow of the results saved before, and leaves it no more
once it has a result itself. -/
structure OnTheWay (w : Ows.Workflow) (J : Table String Record) (m : List Segment) : Prop where
  leads : (w.follow w.top m).isSome
  /-- Neither the task nor one around it has a result. -/
  unended : ∀ l seg later, m = l ++ seg :: later → ¬Ended J (l ++ [seg])
  /-- The tasks before it in its list, and in the lists around it, have the results that lead to it. -/
  along : ∀ l nest index name visit later, m = l ++ .list nest index name visit :: later →
    ∃ t tasks n visits, w.follow w.top l = some t ∧ t.nested w nest = some tasks ∧
      passed J l nest (tasks.map Prod.fst) n = some (index, visits) ∧ visits index = visit

/-- What was done was done for the run itself, or for a task that an execution was at. -/
def InOrder (w : Ows.Workflow) (log : List Act) : Prop :=
  ∀ (after before : List Act) (a : Act) (key : String), log = after ++ a :: before → a.key = some key →
    key = executionKey ∨ key = finishedKey ∨ ∃ m kind, key = recordKey m kind ∧ OnTheWay w (journalOf before) m

theorem Current.onTheWay {t : Ows.Task} (h : Current w J m t) : OnTheWay w J m where
  leads := h.isSome
  unended := by
    rintro l seg later rfl
    obtain ⟨-, -, -, hopen⟩ := h.around
    exact hopen
  along := by
    rintro l nest index name visit later rfl
    obtain ⟨t₀, hcurrent, ⟨tasks, n, visits, htasks, hpassed, hvisit, -⟩, -⟩ := h.around
    exact ⟨t₀, tasks, n, visits, hcurrent.follow, htasks, hpassed, hvisit⟩

/-- The act of a legal run, unless it is about no task, is one for a task in progress. -/
theorem Legal.acts (h : Legal w ceiling (a :: before)) (hkey : a.key = some key) :
    key = executionKey ∨ key = finishedKey ∨
      ∃ m kind t, key = recordKey m kind ∧ Current w (journalOf before) m t := by
  cases h with
  | begin_ => cases hkey
  | own _ hown =>
    obtain rfl := Option.some.inj hkey
    exact hown.elim .inl fun h => .inr (.inl h)
  | act _ hdoes =>
    cases hdoes with
    | save _ hcurrent =>
      obtain rfl := Option.some.inj hkey
      exact .inr (.inr ⟨_, _, _, rfl, hcurrent⟩)
    | send _ hcurrent =>
      obtain rfl := Option.some.inj hkey
      exact .inr (.inr ⟨_, _, _, rfl, hcurrent⟩)

theorem Legal.inOrder (h : Legal w ceiling log) : InOrder w log := by
  rintro after before a key rfl hkey
  rcases h.before.acts hkey with hown | hown | ⟨m, kind, t, rfl, hcurrent⟩
  · exact .inl hown
  · exact .inr (.inl hown)
  · exact .inr (.inr ⟨m, kind, rfl, hcurrent.onTheWay⟩)

/-! ### Attempts -/

/-- What is done in an attempt of a `try` is done before it or a later one is decided on, and after the
decision for it, of which there are fewer than the ceiling. -/
def Attempted (w : Ows.Workflow) (ceiling : Nat) (log : List Act) : Prop :=
  ∀ (after before : List Act) (a : Act) (l : List Segment) (k index : Nat) (name : String) (visit : Nat)
    (later : List Segment) (kind : RecordKind), log = after ++ a :: before →
    (w.follow w.top (l ++ .list (.attempt k) index name visit :: later)).isSome →
    a.key = some (recordKey (l ++ .list (.attempt k) index name visit :: later) kind) →
    (∀ j, k ≤ j → (journalOf before).get (recordKey l (.decision j)) = none) ∧
    (2 ≤ k → ∃ delay, (journalOf before).get (recordKey l (.decision (k - 1))) = some (.retry (some delay))) ∧
    k ≤ max 1 ceiling

theorem Legal.attempted (h : Legal w ceiling log) : Attempted w ceiling log := by
  rintro after before a l k index name visit later kind rfl hvalid hkey
  have hlegal := h.before
  have hsound : Sound w ceiling (journalOf before) := (show Legal w ceiling ([a] ++ before) from hlegal).before.sound
  have hl : (w.follow w.top l).isSome := follow_initial hvalid
  obtain ⟨t, hcurrent⟩ : ∃ t, Current w (journalOf before)
      (l ++ .list (.attempt k) index name visit :: later) t := by
    rcases hlegal.acts hkey with hown | hown | ⟨m, kind', t, heq, hcurrent⟩
    · exact absurd hown.symm (own_ne_recordKey (.inl rfl) _ _)
    · exact absurd hown.symm (own_ne_recordKey (.inr rfl) _ _)
    · obtain ⟨rfl, -⟩ := recordKey_inj hvalid hcurrent.isSome heq
      exact ⟨t, hcurrent⟩
  obtain ⟨-, -, ⟨-, -, -, -, -, -, hbegun⟩, -⟩ := hcurrent.around
  refine ⟨fun j hj => ?_, hbegun, ?_⟩
  · rw [Option.eq_none_iff_forall_ne_some]
    intro r hget
    have hk : 1 ≤ k := Nat.one_le_iff_ne_zero.mpr (attempt_positive hvalid)
    exact (hsound.failed_before hl (hsound.failed l j r hl hget) hk hj).excludes hcurrent
  · rcases Nat.lt_or_ge k 2 with hk | hk
    · omega
    · obtain ⟨delay, hdecision⟩ := hbegun hk
      have hceiling := hsound.bounded l (k - 1) delay hl hdecision
      omega

/-! ### Of a run -/

variable (G : Given) (runs : List (Weather × Nat))

/-- Each call is handed over while the journal holds its intent, and one that is delivered at most once
right after the intent was saved. -/
theorem history_announced : Announced (G.history runs).2 := (history_legal G runs).2.announced

/-- No call that is delivered at most once is handed over again, in a later attempt or execution, unless
the journal says of every time before that it did not run. -/
theorem history_sentOnce : SentOnce (G.history runs).2 := (history_legal G runs).2.sentOnce

/-- What is answered stays answered, and no later execution asks again. -/
theorem history_answers : Answered (G.history runs).2 := (history_legal G runs).2.answered

/-- Every task is entered where the results saved before it lead, and nothing is done in it or inside it
once it has a result. -/
theorem history_inOrder : InOrder G.wf.erase (G.history runs).2 := (history_legal G runs).2.inOrder

/-- The attempts of a `try` come one after the other, each allowed by the decision on the one before, up to
the host's ceiling. -/
theorem history_attempts : Attempted G.wf.erase G.host.limits.maxAttempts.toNat (G.history runs).2 :=
  (history_legal G runs).2.attempted

end Ouro.Interp
