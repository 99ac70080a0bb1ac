import Ouro.Durable.Promotion

/-!
# What a call does to the plan

The rows of triggers, slots, definitions, markers and notices are the plan of the store. Most calls
leave it alone and only work on runs, ending none (`Works`). The others are few, and `Turn` lists
them: a drain of deferred slots before an admission, the end of a run, a firing, an activation, a
definition saved, a notice acknowledged, and the commands that pause, resume and stop. Every call
that commits is one of these turns (`Op.turn`).

An invariant of the plan is shown turn by turn.
-/

namespace Ouro

open Lib Engine Tx

variable {env : Env} {now : Int}

/-! ### Working on runs -/

/-- Words under which no run ends and none is admitted for a trigger. -/
def Idles (_ : String) (a : Act) : Prop := a ≠ .finish ∧ a ≠ .book

/-- Runs are worked on: none ends, none is admitted for a trigger, and the plan stays. -/
structure Works (env : Env) (now : Int) (σ σ' : Rows) : Prop where
  plan : SamePlan σ σ'
  runs : Reaches env now Idles σ σ'

instance : IsPreorder Rows (Works env now) where
  refl σ := ⟨refl_of SamePlan σ, refl_of (Reaches env now Idles) σ⟩
  trans _ _ _ h h' := ⟨trans_of SamePlan h.plan h'.plan, trans_of (Reaches env now Idles) h.runs h'.runs⟩

theorem Works.of_steps {α : Type} {m : Txn α} (hplan : Steps SamePlan m)
    (hruns : Steps (Reaches env now Idles) m) : Steps (Works env now) m :=
  fun _ _ _ h => ⟨hplan h, hruns h⟩

/-- A row of the plan's own is not touched, and no run is. -/
theorem Works.of_quiet {σ σ' : Rows} (hplan : SamePlan σ σ') (h : Quiet σ σ') : Works env now σ σ' :=
  ⟨hplan, h.reaches⟩

/-- Stored runs stay as they were born, and live or ended as they were, unless their definition is
one that lost runs. -/
def Carries (lost : String → Prop) (c c' : Core) : Prop :=
  ∀ i s, c.run.get i = some s → ∃ s', c'.run.get i = some s' ∧ SameBirth s s' ∧
    (¬lost s.run.admission.name → s'.run.endedMs = s.run.endedMs)

theorem Carries.refl (lost : String → Prop) (c : Core) : Carries lost c c :=
  fun _ s hs => ⟨s, hs, .refl s, fun _ => rfl⟩

theorem Carries.trans {lost : String → Prop} {c c' c'' : Core} (h : Carries lost c c')
    (h' : Carries lost c' c'') : Carries lost c c'' := by
  intro i s hs
  obtain ⟨s', hs', hbirth, hended⟩ := h i s hs
  obtain ⟨s'', hs'', hbirth', hended'⟩ := h' i s' hs'
  refine ⟨s'', hs'', hbirth.trans hbirth', fun hlost => (hended' ?_).trans (hended hlost)⟩
  rw [hbirth.admission]
  exact hlost

/-- The runs stored afterwards were stored before, or are new and bound to no trigger. -/
def Unbound (c c' : Core) : Prop :=
  ∀ i s', c'.run.get i = some s' → (∃ s, c.run.get i = some s ∧ SameBirth s s') ∨
    c.run.get i = none ∧ s'.trigger = none ∧ s'.rearm = none

theorem Unbound.trans {lost : String → Prop} {c c' c'' : Core} (h : Unbound c c')
    (hc : Carries lost c c') (h' : Unbound c' c'') : Unbound c c'' := by
  intro i s'' hs''
  obtain ⟨s', hs', hbirth'⟩ | ⟨hnone, hunbound⟩ := h' i s'' hs''
  · obtain ⟨s, hs, hbirth⟩ | ⟨hnone, htrigger, hrearm⟩ := h i s' hs'
    · exact .inl ⟨s, hs, hbirth.trans hbirth'⟩
    · exact .inr ⟨hnone, hbirth'.trigger.trans htrigger, hbirth'.rearm.trans hrearm⟩
  · refine .inr ⟨?_, hunbound⟩
    by_contra hsome
    obtain ⟨s, hs⟩ := Option.ne_none_iff_exists'.mp hsome
    obtain ⟨s', hs', -⟩ := hc i s hs
    rw [hnone] at hs'
    simp at hs'

theorem Move.carries {c c' : Core} (h : Move env now Idles c c') :
    Carries (fun _ => False) c c' ∧ Unbound c c' := by
  -- nothing finishes here, so no run ends
  have hended : ∀ i s s', c.run.get i = some s → c'.run.get i = some s' →
      s'.run.endedMs = s.run.endedMs := by
    rcases h.live_or_finish with hended | ⟨root, -, hmay, -⟩
    · exact hended
    · exact absurd rfl hmay.1
  refine ⟨fun i s hs => ?_, fun i s' hs' => ?_⟩
  · obtain ⟨s', hs', rfl | hchange⟩ := h.stored hs
    · exact ⟨s', hs', .refl s', fun _ => rfl⟩
    · exact ⟨s', hs', hchange.birth, fun _ => hended i s s' hs hs'⟩
  -- a run that is there now was there, or is new and bound to no trigger
  · have hrow := h.row i
    rw [hs'] at hrow
    generalize hold : c.run.get i = row at hrow
    cases hrow with
    | same => exact .inl ⟨s', rfl, .refl s'⟩
    | change hid hchange => exact .inl ⟨_, rfl, hchange.birth⟩
    | new hid hnew =>
      refine .inr ⟨rfl, ?_⟩
      cases hnew with
      | admission a digest epoch trigger rearm hmay =>
        rcases hmay with ⟨rfl, rfl⟩ | hmay
        · exact ⟨rfl, rfl⟩
        · exact absurd rfl hmay.2
      | refuse | bear => exact ⟨rfl, rfl⟩

theorem Works.carries {σ σ' : Rows} (h : Works env now σ σ') (hσ : Good σ) :
    Carries (fun _ => False) σ.toCore σ'.toCore ∧ Unbound σ.toCore σ'.toCore := by
  have hpath := (h.runs hσ).2
  generalize σ'.toCore = c' at hpath ⊢
  induction hpath with
  | refl => exact ⟨.refl _ _, fun i s hs => .inl ⟨s, hs, .refl s⟩⟩
  | tail _ hmove ih => exact ⟨ih.1.trans hmove.carries.1, ih.2.trans ih.1 hmove.carries.2⟩

/-! ### The end of a tree -/

namespace Engine

theorem ending_birth (s : StoredRun) (status : Status) (spent : Nat) :
    SameBirth s (ending s status spent now) := ⟨rfl, rfl, rfl, rfl⟩

/-- The end of a tree: the definitions it gathered are all that lost runs. -/
theorem endTree_carries {c : Core} {s₀ s : StoredRun} {σ σ' : Rows} {status : Status} {acc : Cascade}
    (h : Limbo c s₀ σ s) (ht : status.terminal = true)
    (htree : endTree env s₀.id status now σ = .ok (acc, σ')) :
    Good σ' ∧ Carries (fun name => acc.names.contains name = true) σ.toCore σ'.toCore ∧
      Unbound σ.toCore σ'.toCore ∧ σ'.run.get s₀.id = some (ending s₀ status (spentBy c s₀) now) := by
  -- the cascade as it always ends: the root and the visited runs ended, the others as they were
  obtain ⟨acc', σ₁, htotal, hindexed, hsub, hnoted, hcore⟩ := endTree_total env h status now
  obtain ⟨rfl, rfl⟩ : acc' = acc ∧ σ₁ = σ' := by
    rw [htotal] at htree
    simpa using htree
  have hrow : ∀ i, σ₁.run.get i = if s₀.id = i then some (ending s₀ status (spentBy c s₀) now)
      else if i ∈ acc'.visited then (c.run.get i).map (ending · .cancelled (spentBy c s₀) now)
      else c.run.get i := by
    rw [show σ₁.run = _ from congrArg Core.run hcore]
    exact get_endedRows hsub.nodup
  have hold : ∀ i, σ.run.get i = if s₀.id = i then some s else c.run.get i := by
    intro i
    rw [show σ.run = _ from congrArg Core.run h.core, Core.get_set, h.id]
  -- the row that waits for its end was born as the run it is about
  have hbirth : SameBirth s s₀ := by
    have hend := h.ending .cancelled 0 0
    exact ⟨congrArg (·.run.admission) hend.symm, congrArg (·.run.epoch) hend.symm,
      congrArg (·.trigger) hend.symm, congrArg (·.rearm) hend.symm⟩
  -- every run that ended has its name among those gathered
  have hnamed : ∀ i t, i ∈ s₀.id :: acc'.visited → c.run.get i = some t →
      acc'.names.contains t.run.admission.name = true := fun i t hi htget =>
    (hnoted.noted _).mpr ⟨i, hi, t, htget, rfl⟩
  have hgood : Good σ₁ := by
    refine ⟨hindexed, h.inv.path (?_ : Path env now (fun _ _ => True) c _)⟩
    rw [hcore]
    exact endTree_path h.stored h.live ht hsub trivial
  refine ⟨hgood, fun i t hi => ?_, fun i t' hi => ?_, by rw [hrow, if_pos rfl]⟩
  -- a run stored before is stored after, of the same birth, and lives unless its name was gathered
  · rw [hold] at hi
    rw [hrow]
    -- the root
    by_cases hroot : s₀.id = i
    · rw [if_pos hroot] at hi ⊢
      obtain rfl := Option.some.inj hi
      refine ⟨_, rfl, hbirth.trans (ending_birth s₀ status _), fun hnot => absurd ?_ hnot⟩
      rw [← hbirth.admission]
      exact hnamed s₀.id s₀ List.mem_cons_self h.stored
    · rw [if_neg hroot] at hi ⊢
      -- a visited run, and one that was not
      by_cases hmem : i ∈ acc'.visited
      · rw [if_pos hmem, hi]
        exact ⟨_, rfl, ending_birth t .cancelled _,
          fun hnot => absurd (hnamed i t (List.mem_cons_of_mem _ hmem) hi) hnot⟩
      · rw [if_neg hmem]
        exact ⟨t, hi, .refl t, fun _ => rfl⟩
  -- and a run stored after was stored before, bound to the same trigger
  · rw [hrow] at hi
    rw [hold]
    by_cases hroot : s₀.id = i
    · rw [if_pos hroot] at hi ⊢
      obtain rfl := Option.some.inj hi
      exact .inl ⟨s, rfl, hbirth.trans (ending_birth s₀ status _)⟩
    · rw [if_neg hroot] at hi ⊢
      split at hi
      · obtain ⟨t, ht, rfl⟩ := Option.map_eq_some_iff.mp hi
        exact .inl ⟨t, ht, ending_birth t .cancelled _⟩
      · exact .inl ⟨t', hi, .refl t'⟩

/-- The parent of a run that ended hears of it. -/
theorem lifecycle_works {id : String} {status : Status} {s : StoredRun} {σ σ' : Rows} {u : Unit}
    (hs : σ.run.get id = some s) (houtcome : s.run.outcome = some status)
    (h : lifecycle id status now σ = .ok (u, σ')) : Works env now σ σ' := by
  refine ⟨lifecycle_frame _ _ h, fun hσ => lifecycle_path env hσ (fun t _ _ ht _ => ?_)
    (fun _ => .inr ⟨by simp, by simp⟩) h⟩
  rw [← Option.some.inj (hs.symm.trans ht)]
  exact houtcome

end Engine

/-! ### Turns -/

/-- The call activates a version of the definition. -/
def Op.Activates (op : Op) (name : String) : Prop :=
  ∃ version, (∃ t, op = .activate name version t) ∨
    ∃ epoch arming activation, op = .activateWith name version epoch arming activation

/-- What a call that commits does to the rows it finds. -/
inductive Turn (env : Env) (op : Op) (σ : Rows) : Rows → Prop
  | works {now : Int} {σ' : Rows} (h : Works env now σ σ') : Turn env op σ σ'
  /-- Deferred slots of a definition are drained before runs are worked on. -/
  | drains {now : Int} {name : String} {b : Bool} {σ₁ σ' : Rows}
      (hdrain : drainMarked env name now σ = .ok (b, σ₁)) (h : Works env now σ₁ σ') : Turn env op σ σ'
  | pending {now : Int} {limit : Nat} {u : Unit} {σ' : Rows}
      (h : drainPending env now limit σ = .ok (u, σ')) : Turn env op σ σ'
  | ends {now : Int} {id : String} {σ₁ σ' : Rows} (h : Ends env now id σ σ₁)
      (hrest : Works env now σ₁ σ') : Turn env op σ σ'
  | fires {now : Int} {f : Firing} {r : Except Error Fired} {σ' : Rows} (hop : op = .fire f now)
      (h : fire env f now σ = .ok (r, σ')) : Turn env op σ σ'
  | activates {name : String} {version : Nat} {epoch : Option Nat} {triggers : Table String Trigger}
      {activation : Activation} {r : Option Definitions} {σ' : Rows} (hop : op.Activates name)
      (h : activate name version epoch triggers activation σ = .ok (r, σ')) : Turn env op σ σ'
  | saves {name yaml : String} {breaker : Breaker} {r : Definition} {σ' : Rows}
      (h : saveDefinition env name yaml breaker σ = .ok (r, σ')) : Turn env op σ σ'
  | acknowledges {key : Int ×ₗ String} {b : Bool} {σ' : Rows}
      (h : acknowledge key σ = .ok (b, σ')) : Turn env op σ σ'
  | pauses {now : Int} {request : Request} {name note : String} {b : Bool} {σ₁ σ' : Rows}
      (h : pause request name note now σ = .ok (b, σ₁)) (hrest : Works env now σ₁ σ') : Turn env op σ σ'
  | resumes {now : Int} {name : String} {b : Bool} {σ₁ σ' : Rows}
      (h : resume env name now σ = .ok (b, σ₁)) (hrest : Works env now σ₁ σ') : Turn env op σ σ'
  | stops {now : Int} {enabled b : Bool} {σ₁ σ' : Rows}
      (h : stop env enabled now σ = .ok (b, σ₁)) (hrest : Works env now σ₁ σ') : Turn env op σ σ'

namespace Engine

theorem admitRun_turn {op : Op} {a : Admission} {σ σ' : Rows} {r : Except Error Bool}
    (h : admitRun env a now σ = .ok (r, σ')) : Turn env op σ σ' := by
  simp only [admitRun, bind_ok] at h
  obtain ⟨drained, σ₁, hdrain, refusal, σ₂, hrefusal, h⟩ := h
  obtain rfl := drainedRefusal_reads _ _ hrefusal
  refine .drains hdrain ?_
  cases refusal with
  | some refusal =>
    rw [(pure_ok.mp h).2]
    exact refl_of (Works env now) _
  | none =>
    obtain ⟨b, hinsert, -⟩ := map_ok.mp h
    exact ⟨insert_frame a hinsert, (insert_fills a hinsert).reaches⟩

theorem start_turn {op : Op} {a : Admission} {owner : String} {σ σ' : Rows}
    {r : Except Error (Option Fence)} (h : start env a now owner σ = .ok (r, σ')) :
    Turn env op σ σ' := by
  obtain ⟨b, σ₁, hdrain, ⟨-, rfl⟩ | ⟨digest, epoch, u, hnone, hstore, -⟩⟩ := start_ok h
  · exact .drains hdrain (refl_of (Works env now) _)
  · exact .drains hdrain ⟨storeRun_frame _ hstore, started_reaches hnone hstore⟩

theorem startChild_turn {op : Op} {parent : Fence} {a : Admission} {link : ChildLink} {owner : String}
    {σ σ' : Rows} {r : Except Error (Option Fence)} (hσ : Good σ)
    (h : startChild env parent a link now owner σ = .ok (r, σ')) : Turn env op σ σ' := by
  obtain ⟨p, b, σ₁, hp, hr, hdrain, ⟨rfl, -⟩ | ⟨hlink, -, u, σ₂, hadopt, hrest⟩⟩ := startChild_ok h
  · exact .drains hdrain (refl_of (Works env now) _)
  have hp₁ : σ₁.run.get parent.runId = some p := (drainMarked_fills books _ hdrain hσ).2 _ _ hp
  have hadopted : SamePlan σ₁ σ₂ := storeRun_frame _ hadopt
  refine .drains hdrain ⟨trans_of SamePlan hadopted ?_,
    adopted_reaches owner ⟨by simp, by simp⟩ ⟨by simp, by simp⟩ hp₁ hr hlink hadopt ?_⟩
  · rcases hrest with ⟨digest, epoch, u₂, -, hstore, -⟩ | ⟨c, u₂, -, -, hrejoin, -⟩
    · exact storeRun_frame _ hstore
    · exact rejoin_frame c hrejoin
  · rcases hrest with ⟨digest, epoch, u₂, hnone, hstore, -⟩ | ⟨c, u₂, hc, -, hrejoin, -⟩
    · exact .inl ⟨digest, epoch, u₂, hnone, hstore⟩
    · exact .inr ⟨c, u₂, hc, hrejoin⟩

theorem dueAs_turn {op : Op} {limit : Nat} {worker : Compatibility} {σ σ' : Rows} {ids : List String}
    (h : dueAs env now limit worker σ = .ok (ids, σ')) : Turn env op σ σ' := by
  have hdue : ∀ row, Steps (· = ·) (dueRun row) := by
    intro row
    unfold dueRun
    split
    · exact .pure
    · exact .fail
  simp only [dueAs, isStopped, bind_ok, read_ok] at h
  obtain ⟨stopped, σ₁, ⟨-, rfl⟩, h⟩ := h
  split at h
  · rw [(pure_ok.mp h).2]
    exact .works (refl_of (Works env now) _)
  · obtain ⟨u, σ₂, hdrain, h⟩ := bind_ok.mp h
    -- the due rows are read only
    suffices hread : σ₂ = σ' by rw [← hread]; exact .pending hdrain
    cases hversion : worker.version with
    | none =>
      rw [hversion] at h
      exact Steps.bind (R := (· = ·)) .read (fun _ => .collect hdue _) h
    | some own =>
      rw [hversion] at h
      exact Steps.bind (R := (· = ·)) .read (fun _ => .bind (.collect hdue _) fun _ => .pure) h

theorem finish_turn {op : Op} {f : Fence} {outcome r : Status} {threshold : Nat} {σ σ' : Rows}
    (hσ : Good σ) (h : finish env f outcome now threshold σ = .ok (r, σ')) : Turn env op σ σ' := by
  rcases finish_cases Idles hσ h with ⟨hreach, s, u, σ₁, u', hstore, hlife⟩ | hend
  · have hparked : SamePlan σ σ₁ := storeRun_frame _ hstore
    have hworks : Works env now σ σ' := ⟨trans_of SamePlan hparked (lifecycle_frame _ _ hlife), hreach⟩
    exact .works hworks
  · exact .ends hend (refl_of (Works env now) _)

theorem cancelRun_turn {op : Op} {id : String} {r : Bool} {σ σ₁ σ' : Rows} (hσ : Good σ)
    (h : cancelRun env id now σ = .ok (r, σ₁)) (hrest : Works env now σ₁ σ') : Turn env op σ σ' := by
  rcases cancelRun_cases hσ h with rfl | hend
  · exact .works hrest
  · exact .ends hend hrest

theorem sweep_plan (kept : Int) : Steps SamePlan (sweep env now kept) := by
  have hwrite : ∀ {f : Rows → Rows}, (∀ σ, SamePlan σ (f σ)) → Steps SamePlan (Tx.write f : Txn Unit) :=
    fun h => .write h
  refine .bind .ensure fun _ => .bind (indexedRuns_frame _ _ _) fun ended =>
    .bind (.fold (fun records s => ?_) 0 ended) fun _ => .bind (indexedRuns_frame _ _ _) fun boxes =>
    .bind (.fold (fun expired s => ?_) 0 boxes) fun _ => .bind .read fun _ =>
    .bind (hwrite fun _ => ⟨rfl, rfl, rfl, rfl, rfl, rfl, rfl, rfl⟩) fun _ => .bind .read fun _ =>
    .bind (hwrite fun _ => ⟨rfl, rfl, rfl, rfl, rfl, rfl, rfl, rfl⟩) fun _ => .pure
  · unfold sweepFinished
    split
    · exact .bind (forget_frame s) fun _ => .bind (storeRun_frame _) fun _ => .pure
    · exact .pure
  · exact .bind (expire_frame s) fun _ => .bind (storeRun_frame _) fun _ => .pure

theorem beat_plan (w : Worker) : Steps SamePlan (beat w) := by
  refine .bind .ensure fun _ => .write fun σ => ?_
  simp only
  split
  · exact ⟨rfl, rfl, rfl, rfl, rfl, rfl, rfl, rfl⟩
  · split
    · exact ⟨rfl, rfl, rfl, rfl, rfl, rfl, rfl, rfl⟩
    · split <;> exact ⟨rfl, rfl, rfl, rfl, rfl, rfl, rfl, rfl⟩

/-- A command does its own turn, and its entry is stored. -/
theorem perform_turn {op : Op} {request : Request} {command canonical : Command} {reply : Reply}
    {σ σ₁ σ' : Rows} (hσ : Good σ)
    (h : perform env request command canonical now σ = .ok (reply, σ₁))
    (hrest : Works env now σ₁ σ') : Turn env op σ σ' := by
  -- only a cancel ends a run; the commands on definitions are turns of their own
  have hworks : ∀ {α : Type} {m : Txn α} {a : α}, Steps SamePlan m →
      Steps (Reaches env now Idles) m → m σ = .ok (a, σ₁) → Turn env op σ σ' :=
    fun hplan hruns h => .works (trans_of (Works env now) (Works.of_steps hplan hruns h) hrest)
  cases command with
  | cancel run =>
    obtain ⟨b, h, -⟩ := map_ok.mp h
    exact cancelRun_turn hσ h hrest
  | pause name note =>
    obtain ⟨b, h, -⟩ := map_ok.mp h
    exact .pauses h hrest
  | resume name =>
    obtain ⟨b, h, -⟩ := map_ok.mp h
    exact .resumes h hrest
  | stop enabled =>
    obtain ⟨b, h, -⟩ := map_ok.mp h
    exact .stops h hrest
  | hold run note => exact hworks (.map (setHold_frame run _)) (.map (setHold_reaches run _)) h
  | release run => exact hworks (.map (setHold_frame run none)) (.map (setHold_reaches run none)) h
  | respond id key event =>
    refine hworks ?_ (respond_reaches request canonical id key event fun t _ => ⟨by simp, by simp⟩) h
    refine .bind .orFail fun i => .bind .read fun found => ?_
    split
    · exact .bind .ensure fun _ => .pure
    · exact .bind (answerWait_frame _ _ _ _) fun _ =>
        .bind (.write fun _ => ⟨rfl, rfl, rfl, rfl, rfl, rfl, rfl, rfl⟩) fun _ => .pure

theorem applyControl_turn {op : Op} {request : Request} {command : Command} {a : Applied}
    {σ σ' : Rows} (hσ : Good σ) (h : applyControl env request command now σ = .ok (a, σ')) :
    Turn env op σ σ' := by
  simp only [applyControl, bind_ok, ensure_ok, read_ok] at h
  obtain ⟨u, σ₁, ⟨-, rfl⟩, found, σ₂, ⟨-, rfl⟩, h⟩ := h
  cases found with
  | some entry =>
    simp only [bind_ok, ensure_ok, pure_ok] at h
    obtain ⟨u', σ₃, ⟨-, rfl⟩, -, rfl⟩ := h
    exact .works (refl_of (Works env now) _)
  | none =>
    simp only [bind_ok, pure_ok] at h
    obtain ⟨reply, σ₃, hperform, u', σ₄, haudit, -, rfl⟩ := h
    refine perform_turn hσ hperform (.of_quiet ?_ (audit_quiet _ haudit))
    rw [write_ok.mp haudit]
    exact ⟨rfl, rfl, rfl, rfl, rfl, rfl, rfl, rfl⟩

end Engine

/-- Every call that commits is a turn. -/
theorem Op.turn {op : Op} {r : Except Error Result} {σ σ' : Rows} (hσ : Good σ)
    (h : op.tx env σ = .ok (r, σ')) : Turn env op σ σ' := by
  -- most calls only work: they leave the plan, and their moves neither finish a run nor book one
  have hworks : ∀ (t : Int) {α : Type} {m : Txn α} {a : α}, Steps SamePlan m →
      Steps (Reaches env t Idles) m → m σ = .ok (a, σ') → Turn env op σ σ' :=
    fun _ _ _ _ hplan hruns h => .works (Works.of_steps hplan hruns h)
  have hfree : ∀ {a : Act}, a ≠ .finish → a ≠ .book → ∀ {i}, Idles i a := fun h h' _ => ⟨h, h'⟩
  cases op with
  | admitRun a t =>
    obtain ⟨r, h, -⟩ := map_ok.mp h
    exact admitRun_turn h
  | start a t owner =>
    obtain ⟨r, h, -⟩ := map_ok.mp h
    exact start_turn h
  | claimAs id t worker owner =>
    exact hworks t (.map (claimAs_frame id worker owner)) (.map (claimAs_reaches id worker owner)) h
  | checkLease f t =>
    exact hworks t (.map (checkLease_frame f)) (.map ((checkLease_quiet f).mono fun _ _ => Quiet.reaches)) h
  | renew f t => exact hworks t (.map (renew_frame f)) (.map (renew_reaches f)) h
  | release f t => exact hworks t (.map (release_frame f)) (.map (release_reaches f)) h
  | loadRecords f t =>
    exact hworks t (.map (loadRecords_frame f)) (.map ((loadRecords_quiet f).mono fun _ _ => Quiet.reaches)) h
  | saveRecord f k r t =>
    exact hworks t (.map (saveRecord_frame f k r))
      (.map (saveRecord_reaches f k r (hfree (by simp) (by simp)) (hfree (by simp) (by simp)))) h
  | registerWait f types t =>
    exact hworks t (.map (registerWait_frame f types))
      (.map (registerWait_reaches f types (hfree (by simp) (by simp)))) h
  | unregisterWait f k types t =>
    exact hworks t (.map (unregisterWait_frame f k types))
      (.map (unregisterWait_reaches f k types (hfree (by simp) (by simp)))) h
  | describeWait f k wait t =>
    exact hworks t (.map (describeWait_frame f k wait)) (.map (describeWait_reaches f k wait)) h
  | deliver event target t =>
    exact hworks t (.map (deliver_frame event target))
      (.map (deliver_reaches event target fun _ _ _ _ => hfree (by simp) (by simp))) h
  | takeEvent f k types t =>
    exact hworks t (.map (takeEvent_frame f k types))
      (.map (takeEvent_reaches f k types (hfree (by simp) (by simp)) (hfree (by simp) (by simp)))) h
  | subscribe f k types t =>
    exact hworks t (.map (subscribe_frame f k types)) (.map (subscribe_reaches f k types)) h
  | unsubscribe f k t =>
    exact hworks t (.map (unsubscribe_frame f k)) (.map (unsubscribe_reaches f k)) h
  | publish event target t =>
    exact hworks t (.map (publish_frame event target))
      (.map (publish_reaches event target fun _ _ _ _ => hfree (by simp) (by simp))) h
  | fire f t =>
    obtain ⟨r, h, -⟩ := map_ok.mp h
    exact .fires rfl h
  | finish f outcome t threshold =>
    obtain ⟨r, h, -⟩ := map_ok.mp h
    exact finish_turn hσ h
  | startChild p a link t owner =>
    obtain ⟨r, h, -⟩ := map_ok.mp h
    exact startChild_turn hσ h
  | spend f k limit t =>
    exact hworks t (.map (spend_frame f k limit))
      (.map (spend_reaches f k limit (hfree (by simp) (by simp))
        (fun _ _ _ => hfree (by simp) (by simp)) (hfree (by simp) (by simp)))) h
  | dueAs t limit worker =>
    obtain ⟨ids, h, -⟩ := map_ok.mp h
    exact dueAs_turn h
  | cancel id t =>
    obtain ⟨r, h, -⟩ := map_ok.mp h
    exact cancelRun_turn hσ h (refl_of (Works env t) _)
  | sweep t kept =>
    exact hworks t (.map (sweep_plan kept))
      (.map (sweep_reaches kept fun _ _ _ => hfree (by simp) (by simp))) h
  | saveDefinition name yaml breaker =>
    obtain ⟨d, h, -⟩ := map_ok.mp h
    exact .saves h
  | activate name version t =>
    obtain ⟨d, h, -⟩ := map_ok.mp h
    exact .activates ⟨version, .inl ⟨t, rfl⟩⟩ h
  | activateWith name version epoch arming activation =>
    obtain ⟨d, h, -⟩ := map_ok.mp h
    exact .activates ⟨version, .inr ⟨epoch, arming, activation, rfl⟩⟩ h
  | acknowledge key =>
    obtain ⟨b, h, -⟩ := map_ok.mp h
    exact .acknowledges h
  | beat worker =>
    exact hworks 0 (.map (beat_plan worker)) (.map ((beat_quiet worker).mono fun _ _ => Quiet.reaches)) h
  | applyControl request command t =>
    obtain ⟨a, h, -⟩ := map_ok.mp h
    exact applyControl_turn hσ h

/-- A call that fails stores nothing; one that commits is a turn. -/
theorem step_turn (env : Env) {σ : Rows} (hσ : Good σ) (op : Op) :
    step env σ op = σ ∨ Turn env op σ (step env σ op) := by
  rcases step_cases env σ op with ⟨heq, -⟩ | ⟨r, h, -⟩
  · exact .inl heq
  · exact .inr (op.turn hσ h)

end Ouro
