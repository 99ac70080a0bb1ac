import Ouro.Durable.Taking

/-!
# Calls as paths of moves: the end of a run

`endTree` ends a run and then its live owned descendants by a worklist that reads the index it is
rewriting. `Ending` holds of the rows while it runs: they are those of the start with the runs visited
so far ended. What makes the loop work out:

* a run that was visited has ended, so it is no longer in the index of its parent's live children,
  and no run is visited twice;
* the parent of a visited run has ended before it, so the notice of its end reaches nobody and
  changes nothing;
* every pass takes a run off the worklist and puts only unvisited ones on it, so the number of
  stored runs bounds the passes (`cascade_total`).

The runs visited are the live owned subtree (`Subtree`), and the whole is one move.
-/

namespace Ouro

open Lib Engine Tx

variable {env : Env} {now : Int} {may : String → Act → Prop}

namespace Engine

/-! ### Notices of the visited runs -/

/-- A report to an ended parent changes nothing. -/
theorem lifecycle_ended {id : String} {status : Status} {σ : Rows} {s p : StoredRun}
    {link : ChildLink} (hs : σ.run.get id = some s) (hlink : s.run.child = some link)
    (hp : σ.run.get link.parent = some p) (hended : p.run.endedMs ≠ none)
    (hawaits : p.awaits = .empty) : lifecycle id status now σ = .ok ((), σ) := by
  -- a parent that has ended takes no notice, and waits for nothing
  have hnotify : ∀ t data, notify link.parent t data now σ = .ok ((), σ) := by
    intro t data
    refine bind_ok.mpr ⟨p, σ, run_ok.mpr ⟨hp, rfl⟩, ?_⟩
    rw [if_pos]
    · rfl
    · simp [Option.isSome_iff_ne_none, hended]
  have hclose : closeWaiting link.parent id σ = .ok ((), σ) := by
    refine bind_ok.mpr ⟨p, σ, run_ok.mpr ⟨hp, rfl⟩, ?_⟩
    rw [if_neg]
    · rfl
    · simp [hawaits, Table.contains]
  refine bind_ok.mpr ⟨s, σ, run_ok.mpr ⟨hs, rfl⟩, ?_⟩
  cases hnotice : lifecycleNotice id status with
  | none => simp only [hlink]; rfl
  | some n =>
    -- the notice, preceded by the end of its registration when the child is done
    obtain ⟨done, t, data⟩ := n
    simp only [hlink]
    refine bind_ok.mpr ⟨_, σ, read_ok.mpr ⟨rfl, rfl⟩, ?_⟩
    split
    · rfl
    · cases done with
      | false => exact hnotify t data
      | true => exact bind_ok.mpr ⟨(), σ, hclose, hnotify t data⟩

/-! ### The loop -/

section Cascade

variable (c : Core) (root : StoredRun) (status : Status) (spent : Nat) (budget : Table String Nat)

/-- The rows once `root` and the runs of `visited` have ended. -/
def endedRows (now : Int) (visited : List String) : Core :=
  { (c.set (ending root status spent now)).ended (ending · .cancelled spent now) visited with budget }

/-- The state of a termination under way: `visited` are the runs ended beside `root`. -/
structure Ending (now : Int) (σ : Rows) (visited : List String) : Prop where
  indexed : Indexed σ
  core : σ.toCore = endedRows c root status spent budget now visited
  nodup : (root.id :: visited).Nodup
  owned : ∀ i ∈ visited, ∃ s link, s.id = i ∧ c.run.get i = some s ∧ s.run.endedMs = none ∧
    s.run.child = some link ∧ link.parent ∈ root.id :: visited

/-- What the worklist adds: it holds visited runs, and the live children of every visited run that is
off it were visited. -/
structure Working (now : Int) (σ : Rows) (work visited : List String) : Prop
    extends Ending c root status spent budget now σ visited where
  listed : ∀ p ∈ work, p ∈ root.id :: visited
  closed : ∀ p ∈ root.id :: visited, p ∉ work → ∀ s link, c.run.get s.id = some s →
    s.run.endedMs = none → s.run.child = some link → link.parent = p → s.id ∈ root.id :: visited

variable {c root status spent budget}

/-- A run that was not visited is stored as it was. -/
theorem Ending.get_other {σ : Rows} {visited : List String}
    (h : Ending c root status spent budget now σ visited) {i : String}
    (hi : i ∉ root.id :: visited) : σ.run.get i = c.run.get i := by
  obtain ⟨hne, hmem⟩ : i ≠ root.id ∧ i ∉ visited := by simpa using hi
  rw [show σ.run = _ from congrArg Core.run h.core]
  change ((c.set _).ended _ visited).run.get i = _
  rw [Core.get_ended (List.nodup_cons.mp h.nodup).2, if_neg hmem, Core.get_set, if_neg]
  exact Ne.symm hne

/-- A visited run has ended. -/
theorem Ending.get_visited {σ : Rows} {visited : List String}
    (h : Ending c root status spent budget now σ visited) {i : String}
    (hi : i ∈ root.id :: visited) :
    ∃ s status', σ.run.get i = some (ending s status' spent now) ∧
      (i ≠ root.id → c.run.get i = some s) := by
  obtain ⟨hroot, hnodup⟩ := List.nodup_cons.mp h.nodup
  rw [show σ.run = _ from congrArg Core.run h.core]
  change ∃ s status', ((c.set _).ended _ visited).run.get i = _ ∧ _
  rw [Core.get_ended hnodup, Core.get_set]
  by_cases hir : root.id = i
  · subst hir
    rw [if_neg hroot]
    exact ⟨root, status, if_pos rfl, fun h => absurd rfl h⟩
  · have hmem : i ∈ visited := by simpa [Ne.symm hir] using hi
    obtain ⟨s, link, -, hs, -⟩ := h.owned i hmem
    rw [if_pos hmem, if_neg (show (ending root status spent now).id ≠ i from hir), hs]
    exact ⟨s, .cancelled, rfl, fun _ => rfl⟩

/-- A live run was not visited. -/
theorem Ending.not_visited {σ : Rows} {visited : List String}
    (h : Ending c root status spent budget now σ visited) {s : StoredRun}
    (hs : σ.run.get s.id = some s) (hl : s.run.endedMs = none) : s.id ∉ root.id :: visited := by
  intro hmem
  obtain ⟨s', status', hs', -⟩ := h.get_visited hmem
  rw [← Option.some.inj (hs'.symm.trans hs)] at hl
  simp [ending] at hl

/-- Ending one child of a visited run. -/
theorem endChild_total (env : Env) {σ : Rows} {acc : Cascade} {child : StoredRun} {link : ChildLink}
    (h : Ending c root status spent budget now σ acc.visited)
    (hchild : σ.run.get child.id = some child) (hl : child.run.endedMs = none)
    (hlink : child.run.child = some link) (hparent : link.parent ∈ root.id :: acc.visited) :
    ∃ σ', endChild env spent now acc child σ = .ok (acc.note env child, σ') ∧
      Ending c root status spent budget now σ' (acc.visited ++ [child.id]) := by
  -- a live child is none of the visited runs, so its row is still that of the start
  have hnot := h.not_visited hchild hl
  have hget : c.run.get child.id = some child := by rw [← h.get_other hnot]; exact hchild
  obtain ⟨σ₁, hstore⟩ : ∃ σ₁, storeRunIndexed (ending child .cancelled spent now) (indexes child) σ =
      .ok ((), σ₁) := ⟨_, rfl⟩
  have hindexed : Indexed σ₁ := h.indexed.storeRunIndexed (s := ending child .cancelled spent now)
    hchild hstore
  -- writing its end extends the fold of `endedRows` by one run
  have hcore : σ₁.toCore = endedRows c root status spent budget now (acc.visited ++ [child.id]) := by
    rw [storeRunIndexed_ok hstore]
    have hrun : ((c.set (ending root status spent now)).ended (ending · .cancelled spent now)
        acc.visited).run.get child.id = some child := by
      rw [← hchild, show σ.run = _ from congrArg Core.run h.core]
      rfl
    change (σ.toCore.set (ending child .cancelled spent now)) = _
    rw [h.core]
    unfold endedRows Core.ended at *
    simp only at hrun
    simp only [List.foldl_append, List.foldl_cons, List.foldl_nil, hrun]
    rfl
  -- the invariant with the child appended to the visited runs
  have hending : Ending c root status spent budget now σ₁ (acc.visited ++ [child.id]) :=
    { indexed := hindexed
      core := hcore
      nodup := by
        rw [← List.cons_append]
        refine h.nodup.append (List.nodup_singleton _) ?_
        simpa using hnot
      owned := by
        -- the new owned run is the child; its parent was visited before it
        intro i hi
        rcases List.mem_append.mp hi with hi | hi
        · obtain ⟨s, link', hid, hs, hsl, hlink', hp⟩ := h.owned i hi
          exact ⟨s, link', hid, hs, hsl, hlink', by
            rw [← List.cons_append]; exact List.mem_append_left _ hp⟩
        · obtain rfl := List.mem_singleton.mp hi
          exact ⟨child, link, rfl, hget, hl, hlink, by
            rw [← List.cons_append]; exact List.mem_append_left _ hparent⟩ }
  -- its parent has ended: nobody is told
  obtain ⟨p, status', hp, -⟩ := hending.get_visited
    (show link.parent ∈ root.id :: (acc.visited ++ [child.id]) by
      rw [← List.cons_append]; exact List.mem_append_left _ hparent)
  have hself : σ₁.run.get child.id = some (ending child .cancelled spent now) := by
    rw [storeRunIndexed_ok hstore]
    exact Table.get_put_self _ _ _
  have hnotice : lifecycle child.id .cancelled now σ₁ = .ok ((), σ₁) :=
    lifecycle_ended hself hlink hp (by simp [ending]) rfl
  -- the pass is the write of the row and a notice that changes nothing
  refine ⟨σ₁, ?_, hending⟩
  exact bind_ok.mpr ⟨(), σ₁, hstore, bind_ok.mpr ⟨(), σ₁, hnotice, rfl⟩⟩

theorem Cascade.note_visited (env : Env) (acc : Cascade) (s : StoredRun) :
    (acc.note env s).visited = acc.visited ++ [s.id] := rfl

theorem Cascade.note_names (env : Env) (acc : Cascade) (s : StoredRun) (name : String) :
    (acc.note env s).names.contains name = true ↔
      acc.names.contains name = true ∨ s.run.admission.name = name := by
  change (acc.names.put s.run.admission.name ()).contains name = true ↔ _
  simp only [Table.contains_iff, Table.get_put]
  split
  · next heq => simp [heq]
  · next hne => simp [hne]

/-- The definitions a cascade gathered are those of the runs it ended. -/
def Cascade.Noted (c : Core) (root : StoredRun) (acc : Cascade) : Prop :=
  ∀ name, acc.names.contains name = true ↔ ∃ i ∈ root.id :: acc.visited, ∃ s, c.run.get i = some s ∧
    s.run.admission.name = name

theorem Cascade.Noted.note {acc : Cascade} (h : acc.Noted c root) (env : Env) {child : StoredRun}
    (hchild : c.run.get child.id = some child) : (acc.note env child).Noted c root := by
  intro name
  rw [Cascade.note_names, h name, Cascade.note_visited, ← List.cons_append]
  constructor
  · rintro (⟨i, hi, hs⟩ | hname)
    · exact ⟨i, List.mem_append_left _ hi, hs⟩
    · exact ⟨child.id, List.mem_append_right _ (List.mem_singleton_self _), child, hchild, hname⟩
  · rintro ⟨i, hi, s, hs, hname⟩
    rcases List.mem_append.mp hi with hi | hi
    · exact .inl ⟨i, hi, s, hs, hname⟩
    · obtain rfl := List.mem_singleton.mp hi
      obtain rfl := Option.some.inj (hs.symm.trans hchild)
      exact .inr hname

/-- The run's annotation totals count for the definition. -/
def annotates (r : SavedRun) (name : String) : Bool :=
  decide (r.admission.name = name) && !r.annotations.isEmpty

/-- The runs of a list that count for the totals of a definition. -/
def annotating (c : Core) (name : String) (ids : List String) : List String :=
  ids.filter fun i => (c.run.get i).any fun s => annotates s.run name

/-- The runs counted for a definition. -/
def Ended.runs (ended : Ended) (name : String) : Nat := ((ended.get name).map Prod.fst).getD 0

theorem runs_tally (env : Env) (ended : Ended) (r : SavedRun) (name : String) :
    (tally env ended r).runs name = ended.runs name + if annotates r name then 1 else 0 := by
  unfold tally
  split
  · next hempty => simp [annotates, hempty]
  · next hsome =>
    simp only [Ended.runs, Table.get_put, annotates]
    by_cases hname : r.admission.name = name
    · subst hname
      cases hrow : ended.get r.admission.name <;> simp [hsome]
    · simp [hname]

/-- What a cascade gathered is about the runs it ended: their definitions, and how many of them have
annotation totals. -/
structure Cascade.Gathered (c : Core) (root : StoredRun) (acc : Cascade) : Prop where
  noted : acc.Noted c root
  runs : ∀ name, acc.ended.runs name = (annotating c name (root.id :: acc.visited)).length

theorem Cascade.Gathered.note {acc : Cascade} (h : acc.Gathered c root) (env : Env) {child : StoredRun}
    (hchild : c.run.get child.id = some child) : (acc.note env child).Gathered c root where
  noted := h.noted.note env hchild
  runs name := by
    change (tally env acc.ended child.run).runs name = _
    rw [runs_tally, h.runs, Cascade.note_visited, ← List.cons_append, annotating, annotating,
      List.filter_append, List.length_append]
    congr 1
    cases hcounts : annotates child.run name <;> simp [hchild, hcounts]

/-- Ending the children of a visited run. -/
theorem endChildren_total (env : Env) {children : List StoredRun} {parent : String} :
    ∀ {σ : Rows} {acc : Cascade}, Ending c root status spent budget now σ acc.visited →
      acc.Gathered c root → parent ∈ root.id :: acc.visited → (children.map StoredRun.id).Nodup →
      (∀ s ∈ children, σ.run.get s.id = some s ∧ s.run.endedMs = none ∧
        ∃ link, s.run.child = some link ∧ link.parent = parent) →
      ∃ acc' σ', fold (endChild env spent now) acc children σ = .ok (acc', σ') ∧
        acc'.visited = acc.visited ++ children.map StoredRun.id ∧ acc'.Gathered c root ∧
        Ending c root status spent budget now σ' acc'.visited := by
  -- induction on the children that are left; `acc` is what the ones before them left behind
  induction children with
  | nil => exact fun {σ acc} h hnoted _ _ _ => ⟨acc, σ, rfl, by simp, hnoted, h⟩
  | cons child children ih =>
    intro σ acc h hnoted hparent hnodup hall
    -- the first child is live and stored, so it can be ended
    obtain ⟨hfirst, hnodup⟩ := List.nodup_cons.mp hnodup
    obtain ⟨hchild, hl, link, hlink, hlp⟩ := hall child List.mem_cons_self
    obtain ⟨σ₁, hend, h₁⟩ := endChild_total env h hchild hl hlink (by rw [hlp]; exact hparent)
    rw [← Cascade.note_visited env] at h₁
    have hget : c.run.get child.id = some child := by
      rw [← h.get_other (h.not_visited hchild hl)]
      exact hchild
    obtain ⟨acc', σ', hfold, hvisited, hnoted', h'⟩ := ih h₁ (hnoted.note env hget)
      (by rw [Cascade.note_visited, ← List.cons_append]; exact List.mem_append_left _ hparent) hnodup
      -- the other children are other runs, and the write does not touch their rows
      (fun s hs => by
        obtain ⟨hs₀, hsl, hrest⟩ := hall s (List.mem_cons_of_mem _ hs)
        refine ⟨?_, hsl, hrest⟩
        have hne : s.id ≠ child.id := fun heq => hfirst (heq ▸ List.mem_map_of_mem hs)
        have hnot := h.not_visited hs₀ hsl
        rw [h₁.get_other, ← h.get_other hnot]
        · exact hs₀
        · rw [Cascade.note_visited, ← List.cons_append, List.mem_append]
          simp [hnot, hne])
    refine ⟨acc', σ', bind_ok.mpr ⟨_, σ₁, hend, hfold⟩, ?_, hnoted', h'⟩
    rw [hvisited, Cascade.note_visited]
    simp

/-- The worklist runs dry within as many passes as there are runs left, and then every live owned
descendant was visited. -/
theorem cascade_total (env : Env) {ids : List String}
    (hids : ∀ i s, c.run.get i = some s → i ∈ ids) (hroot : root.id ∈ ids) :
    ∀ {fuel : Nat} {work : List String} {acc : Cascade} {σ : Rows},
      Working c root status spent budget now σ work acc.visited → acc.Gathered c root →
      work.length + (ids.length - (acc.visited.length + 1)) ≤ fuel →
      ∃ acc' σ', cascade env spent now fuel work acc σ = .ok (acc', σ') ∧ acc'.Gathered c root ∧
        Working c root status spent budget now σ' [] acc'.visited := by
  -- induction on the passes that are left
  intro fuel
  induction fuel with
  | zero =>
    intro work acc σ h hnoted hfuel
    -- no pass left: the bound says that the worklist is empty
    obtain rfl : work = [] := List.length_eq_zero_iff.mp (by omega)
    exact ⟨acc, σ, rfl, hnoted, h⟩
  | succ fuel ih =>
    intro work acc σ h hnoted hfuel
    cases work with
    | nil => exact ⟨acc, σ, rfl, hnoted, h⟩
    | cons parent work =>
      -- the index row of this parent lists its live children, each once
      obtain ⟨children, hchildren⟩ := indexedRuns_total (.children parent) anyId
        none h.indexed fun s i v hv => (mem_entries_children.mp hv).2.2.2
      have hnodup := indexedRuns_nodup h.indexed (fun s i j v w hi hj => by
        rw [(mem_entries_children.mp hi).2.2.1, (mem_entries_children.mp hj).2.2.1]) hchildren
      have hall : ∀ s ∈ children, σ.run.get s.id = some s ∧ s.run.endedMs = none ∧
          ∃ link, s.run.child = some link ∧ link.parent = parent := by
        intro s hs
        obtain ⟨hget, i, -, hentry⟩ := mem_indexedRuns h.indexed hchildren hs
        obtain ⟨hl, hlink, -⟩ := mem_entries_children.mp hentry
        exact ⟨hget, hl, hlink⟩
      obtain ⟨acc₁, σ₁, hfold, hvisited, hnoted₁, h₁⟩ := endChildren_total env h.toEnding hnoted
        (h.listed parent List.mem_cons_self) hnodup hall
      -- visited runs stay visited
      have hsub : ∀ {i}, i ∈ root.id :: acc.visited → i ∈ root.id :: acc₁.visited := by
        intro i hi
        rw [hvisited, ← List.cons_append]
        exact List.mem_append_left _ hi
      have hwork : Working c root status spent budget now σ₁
          ((children.map StoredRun.id).reverse ++ work) acc₁.visited :=
        { h₁ with
          listed := by
            intro p hp
            rcases List.mem_append.mp hp with hp | hp
            -- a run put on the worklist by this pass was visited by it
            · rw [hvisited, ← List.cons_append]
              exact List.mem_append_right _ (List.mem_reverse.mp hp)
            · exact hsub (h.listed p (List.mem_cons_of_mem _ hp))
          closed := by
            intro p hp hoff s link hs hl hlink hparent
            by_contra hnot
            have hnot₀ : s.id ∉ root.id :: acc.visited := fun hmem => hnot (hsub hmem)
            -- an unvisited live child of this pass's parent is in its index row
            have hnew : p ≠ parent := by
              rintro rfl
              have hstored : σ.run.get s.id = some s := by rw [h.get_other hnot₀]; exact hs
              have hs' : s ∈ children := indexedRuns_complete h.indexed hchildren hstored rfl
                (mem_entries_children.mpr ⟨hl, ⟨link, hlink, hparent⟩, rfl, rfl⟩)
              apply hnot
              rw [hvisited, ← List.cons_append]
              exact List.mem_append_right _ (List.mem_map_of_mem hs')
            -- a run visited before: either its children were closed already, or it is on the worklist still
            rw [hvisited, ← List.cons_append] at hp
            rcases List.mem_append.mp hp with hp | hp
            · refine hnot₀ (h.closed p hp ?_ s link hs hl hlink hparent)
              intro hmem
              rcases List.mem_cons.mp hmem with heq | hmem
              · exact hnew heq
              · exact hoff (List.mem_append_right _ hmem)
            · exact hoff (List.mem_append_left _ (List.mem_reverse.mpr hp)) }
      -- visited runs are stored and distinct, so there are at most as many as stored runs
      have hlength : (root.id :: acc₁.visited).length ≤ ids.length := by
        refine (List.subperm_of_subset h₁.nodup fun i hi => ?_).length_le
        rcases List.mem_cons.mp hi with rfl | hi
        · exact hroot
        · obtain ⟨s, link, -, hs, -⟩ := h₁.owned i hi
          exact hids i s hs
      have hcount : acc₁.visited.length = acc.visited.length + children.length := by
        rw [hvisited]; simp
      -- this pass took one run off and put its children on, which are now visited: the bound holds on
      obtain ⟨acc', σ', hrest, hnoted', hdone⟩ := ih hwork hnoted₁ (by
        simp only [List.length_append, List.length_reverse, List.length_map, List.length_cons] at *
        omega)
      exact ⟨acc', σ', bind_ok.mpr ⟨children, σ, hchildren,
        bind_ok.mpr ⟨acc₁, σ₁, hfold, hrest⟩⟩, hnoted', hdone⟩

/-- Once the worklist is empty, the visited runs are the live owned subtree. -/
theorem Working.subtree {σ : Rows} {visited : List String}
    (h : Working c root status spent budget now σ [] visited) : Subtree c root.id visited where
  nodup := h.nodup
  owned := h.owned
  closed s link hs hl hlink hparent := h.closed _ hparent (by simp) s link hs hl hlink rfl

end Cascade

/-! ### The end of a tree -/

theorem rearmTrigger_total (s : StoredRun) (now : Int) (σ : Rows) :
    ∃ σ', rearmTrigger s now σ = .ok ((), σ') := by
  unfold rearmTrigger
  cases s.rearm with
  | none => exact ⟨σ, rfl⟩
  | some r =>
    obtain ⟨rearm, armed⟩ := r
    cases hfound : σ.trigger.get rearm.trigger with
    | none => exact ⟨σ, bind_ok.mpr ⟨none, σ, read_ok.mpr ⟨hfound.symm, rfl⟩, rfl⟩⟩
    | some t =>
      by_cases harmed : t = armed ∧ t.atMs = none
      · obtain ⟨σ', hstore⟩ : ∃ σ', storeTrigger rearm.trigger (some t)
            (some { t with atMs := some (satAdd now rearm.delayMs) }) σ = .ok ((), σ') := ⟨_, rfl⟩
        refine ⟨σ', bind_ok.mpr ⟨some t, σ, read_ok.mpr ⟨hfound.symm, rfl⟩, ?_⟩⟩
        simp only [if_pos harmed]
        exact hstore
      · refine ⟨σ, bind_ok.mpr ⟨some t, σ, read_ok.mpr ⟨hfound.symm, rfl⟩, ?_⟩⟩
        simp only [if_neg harmed]
        rfl

/-- The budget counters once a run ended: a root takes its own with it. -/
def budgetAfter (c : Core) (s : StoredRun) : Table String Nat :=
  if s.run.root.isNone then c.budget.delete s.id else c.budget

/-- The units the tree of a run spent. -/
def spentBy (c : Core) (s : StoredRun) : Nat := (c.budget.get (s.run.root.getD s.id)).getD 0

theorem endRow_total {σ : Rows} {s : StoredRun} (status : Status) (now : Int) (hσ : Indexed σ)
    (hs : σ.run.get s.id = some s) :
    ∃ σ', endRow s.id status now σ = .ok ((s, spentBy σ.toCore s), σ') ∧ Indexed σ' ∧
      σ'.toCore = { σ.toCore.set (ending s status (spentBy σ.toCore s) now) with
        budget := budgetAfter σ.toCore s } := by
  -- the write of the row and the trigger's wake-up succeed always; what is left is the budget row
  obtain ⟨σ₁, hstore⟩ : ∃ σ₁, storeRun (ending s status (spentBy σ.toCore s) now) σ = .ok ((), σ₁) :=
    ⟨_, rfl⟩
  have hindexed := hσ.storeRun hstore
  have hcore := storeRun_core hstore
  have hbudget : σ₁.budget = σ.budget := (congrArg Core.budget hcore).trans rfl
  unfold budgetAfter
  by_cases hroot : s.run.root.isNone = true
  -- a root run gives its budget row up
  · obtain ⟨σ₂, hσ₂⟩ : ∃ σ₂ : Rows, σ₂ = { σ₁ with budget := σ₁.budget.delete s.id } := ⟨_, rfl⟩
    obtain ⟨σ₃, hrearm⟩ := rearmTrigger_total s now σ₂
    have hquiet := rearmTrigger_quiet s now hrearm
    refine ⟨σ₃, ?_, hquiet.indexed (by rw [hσ₂]; exact hindexed.of_eq rfl rfl), ?_⟩
    · refine bind_ok.mpr ⟨s, σ, run_ok.mpr ⟨hs, rfl⟩, bind_ok.mpr ⟨_, σ, read_ok.mpr ⟨rfl, rfl⟩,
        bind_ok.mpr ⟨(), σ₁, hstore, ?_⟩⟩⟩
      simp only [hroot, if_true]
      exact bind_ok.mpr ⟨(), σ₂, write_ok.mpr hσ₂, bind_ok.mpr ⟨(), σ₃, hrearm, rfl⟩⟩
    · rw [hquiet.1, hσ₂, if_pos hroot]
      change { σ₁.toCore with budget := σ₁.budget.delete s.id } = _
      rw [hbudget, hcore]
  -- a child run keeps the budget row of its root
  · obtain ⟨σ₃, hrearm⟩ := rearmTrigger_total s now σ₁
    have hquiet := rearmTrigger_quiet s now hrearm
    refine ⟨σ₃, ?_, hquiet.indexed hindexed, ?_⟩
    · refine bind_ok.mpr ⟨s, σ, run_ok.mpr ⟨hs, rfl⟩, bind_ok.mpr ⟨_, σ, read_ok.mpr ⟨rfl, rfl⟩,
        bind_ok.mpr ⟨(), σ₁, hstore, ?_⟩⟩⟩
      simp only [hroot]
      exact bind_ok.mpr ⟨(), σ₃, hrearm, rfl⟩
    · rw [hquiet.1, hcore, if_neg hroot]
      rfl

/-- A run that is about to end, and the row it is stored with meanwhile: the end overwrites what
differs. -/
structure Limbo (c : Core) (s₀ : StoredRun) (σ : Rows) (s : StoredRun) : Prop where
  inv : Inv c
  stored : c.run.get s₀.id = some s₀
  live : s₀.run.endedMs = none
  indexed : Indexed σ
  core : σ.toCore = c.set s
  id : s.id = s₀.id
  root : s.run.root = s₀.run.root
  ending : ∀ status spent now, ending s status spent now = ending s₀ status spent now

/-- Ending a tree always succeeds, visits its live owned descendants, each once, and ends them with
the run. -/
theorem endTree_total (env : Env) {c : Core} {s₀ s : StoredRun} {σ : Rows} (h : Limbo c s₀ σ s)
    (status : Status) (now : Int) :
    ∃ acc σ', endTree env s₀.id status now σ = .ok (acc, σ') ∧ Indexed σ' ∧
      Subtree c s₀.id acc.visited ∧ acc.Gathered c s₀ ∧
      σ'.toCore = endedRows c s₀ status (spentBy c s₀) (budgetAfter c s₀) now acc.visited := by
  -- the state between the terminal write and the cascade agrees with the start on the root's budget
  have hs : σ.run.get s.id = some s := by
    rw [show σ.run = _ from congrArg Core.run h.core, Core.get_set, if_pos rfl]
  have hbudget : σ.budget = c.budget := (congrArg Core.budget h.core).trans rfl
  have hspent : spentBy σ.toCore s = spentBy c s₀ := by
    unfold spentBy
    rw [hbudget, h.root, h.id]
  have hafter : budgetAfter σ.toCore s = budgetAfter c s₀ := by
    unfold budgetAfter
    rw [hbudget, h.root, h.id]
  -- the root's own row first
  obtain ⟨σ₁, hend, hindexed, hcore⟩ := endRow_total status now h.indexed hs
  rw [hspent, hafter, h.core, Core.set_set (by rw [h.ending]; exact h.id.symm), h.ending] at hcore
  rw [hspent, h.id] at hend
  obtain ⟨first, hfirst⟩ : ∃ first : Cascade, first =
      { names := Table.empty.put s.run.admission.name (), ended := tally env .empty s.run,
        visited := [] } := ⟨_, rfl⟩
  -- the worklist starts with the root alone, and no run visited
  have hstart : Working c s₀ status (spentBy c s₀) (budgetAfter c s₀) now σ₁ [s₀.id]
      first.visited := by
    rw [hfirst]
    exact
      { indexed := hindexed
        core := hcore
        nodup := List.nodup_singleton _
        owned := by simp
        listed := by simp
        closed := by simp }
  have hkeys : ∀ i t, σ₁.run.get i = some t → i ∈ σ₁.run.keys := fun i t ht =>
    (Table.mem_keys _).mpr ⟨t, ht⟩
  -- the stored runs are those of the start: ending writes rows and adds none
  have hids : ∀ i t, c.run.get i = some t → i ∈ σ₁.run.keys := by
    intro i t ht
    by_cases hi : i ∈ [s₀.id]
    · obtain ⟨t', status', ht', -⟩ := hstart.get_visited (by rw [hfirst]; exact hi)
      exact hkeys _ _ ht'
    · refine hkeys i t ?_
      rw [hstart.get_other (by rw [hfirst]; exact hi)]
      exact ht
  -- the root's tallies are counted from its ended row, which names the same annotations
  have hrow := h.ending .cancelled 0 0
  have hname : s.run.admission.name = s₀.run.admission.name :=
    congrArg (·.run.admission.name) hrow
  have hannotates : ∀ name, annotates s.run name = annotates s₀.run name := by
    intro name
    exact congrArg (annotates ·.run name) hrow
  have hnoted : first.Gathered c s₀ := by
    refine ⟨fun name => ?_, fun name => ?_⟩
    swap
    · rw [hfirst]
      change (tally env .empty s.run).runs name = _
      rw [runs_tally, hannotates]
      cases hcounts : annotates s₀.run name <;> simp [Ended.runs, annotating, h.stored, hcounts]
    rw [hfirst, Table.contains_iff]
    -- the names that were gathered are those of the visited runs
    constructor
    · rintro ⟨u, hget⟩
      refine ⟨s₀.id, List.mem_cons_self, s₀, h.stored, ?_⟩
      rw [← hname]
      by_contra hne
      rw [Table.get_put_ne _ _ hne] at hget
      simp at hget
    · rintro ⟨i, hi, t, ht, rfl⟩
      obtain rfl := List.mem_singleton.mp hi
      obtain rfl := Option.some.inj (ht.symm.trans h.stored)
      exact ⟨(), by rw [← hname, Table.get_put_self]⟩
  -- the worklist from there
  obtain ⟨acc, σ', hcascade, hnoted', hdone⟩ := cascade_total env hids (hids _ _ h.stored) hstart hnoted
    (show [s₀.id].length + (σ₁.run.keys.length - (first.visited.length + 1)) ≤
      σ₁.run.rows.length + 1 by
        simp only [Table.keys, List.length_map, List.length_singleton]
        omega)
  refine ⟨acc, σ', ?_, hdone.indexed, hdone.subtree, hnoted', hdone.core⟩
  refine bind_ok.mpr ⟨_, σ₁, hend, ?_⟩
  refine bind_ok.mpr ⟨_, σ₁, read_ok.mpr ⟨rfl, rfl⟩, ?_⟩
  rw [hfirst] at hcascade
  exact hcascade

/-- A run once a tree has ended. -/
theorem get_endedRows {c : Core} {root : StoredRun} {status : Status} {spent : Nat}
    {budget : Table String Nat} {ids : List String} (h : (root.id :: ids).Nodup) (i : String) :
    (endedRows c root status spent budget now ids).run.get i =
      if root.id = i then some (ending root status spent now)
      else if i ∈ ids then (c.run.get i).map (ending · .cancelled spent now) else c.run.get i := by
  obtain ⟨hnot, hnodup⟩ := List.nodup_cons.mp h
  change ((c.set _).ended _ ids).run.get i = _
  rw [Core.get_ended hnodup, Core.get_set, ending_id]
  by_cases hi : root.id = i
  · subst hi
    simp [hnot]
  · simp [hi]

/-- The root of an ended tree, as it is stored then. -/
theorem get_endedRows_root {c : Core} {s₀ : StoredRun} {status : Status} {spent : Nat}
    {budget : Table String Nat} {ids : List String} (h : (s₀.id :: ids).Nodup) :
    (endedRows c s₀ status spent budget now ids).run.get s₀.id =
      some (ending s₀ status spent now) :=
  (get_endedRows h s₀.id).trans (if_pos rfl)

/-- The end of a tree is one move, and one more for a root's budget counter. -/
theorem endTree_path {c : Core} {s₀ : StoredRun} {status : Status} {ids : List String}
    (hstored : c.run.get s₀.id = some s₀) (hl : s₀.run.endedMs = none)
    (ht : status.terminal = true) (hids : Subtree c s₀.id ids) (hmay : may s₀.id .finish) :
    Path env now may c (endedRows c s₀ status (spentBy c s₀) (budgetAfter c s₀) now ids) := by
  have hmove : Move env now may c _ :=
    .finish status (spentBy c s₀) ids hstored hl ht hids hmay
  refine Relation.ReflTransGen.head hmove ?_
  unfold budgetAfter
  split
  · next hroot =>
    have hget : (endedRows c s₀ status (spentBy c s₀) c.budget now ids).run.get s₀.id = _ :=
      get_endedRows_root hids.nodup
    exact .single (.dropBudget (s := ending s₀ status (spentBy c s₀) now) hget (by simp [ending])
      (show s₀.run.root = none by simpa using hroot))
  · exact .refl

/-- Ending a run ends its tree, reports to its parent, and fills the slots that became free. -/
theorem terminate_cases (may : String → Act → Prop) (hbook : ∀ i, may i .book) {c : Core}
    {s₀ s : StoredRun} {σ σ' : Rows} {status : Status} {u : Unit} (h : Limbo c s₀ σ s) (ht : status.terminal = true)
    (hterm : terminate env s₀.id status now σ = .ok (u, σ')) :
    ∃ ids σ₁ σ₂, Subtree c s₀.id ids ∧ Good σ₁ ∧
      σ₁.toCore = endedRows c s₀ status (spentBy c s₀) (budgetAfter c s₀) now ids ∧
      lifecycle s₀.id status now σ₁ = .ok ((), σ₂) ∧ Reaches env now may σ₂ σ' := by
  obtain ⟨acc, σ₁, hend, hindexed, hsub, -, hcore⟩ := endTree_total env h status now
  simp only [terminate, bind_ok] at hterm
  obtain ⟨acc', σ₁', hend', u₁, σ₂, hlife, u₂, σ₃, hdrain, hbucket⟩ := hterm
  obtain ⟨rfl, rfl⟩ : acc = acc' ∧ σ₁ = σ₁' := by
    rw [hend] at hend'
    simpa using hend'
  have hinv : Inv σ₁.toCore := by
    have hpath : Path env now (fun _ _ => True) c σ₁.toCore := by
      rw [hcore]
      exact endTree_path h.stored h.live ht hsub trivial
    exact h.inv.path hpath
  exact ⟨acc.visited, σ₁, σ₂, hsub, ⟨hindexed, hinv⟩, hcore, hlife, trans_of (Reaches env now may)
    (Steps.each (fun name => drainQueues_fills hbook name) _ hdrain).reaches
    (Steps.each (fun row : String × (Nat × Totals) => addBucket_quiet row.1 now row.2.1 row.2.2) _
      hbucket).reaches⟩

theorem terminate_path {c : Core} {s₀ s : StoredRun} {σ σ' : Rows} {status : Status} {u : Unit}
    (h : Limbo c s₀ σ s) (ht : status.terminal = true) (hmay : may s₀.id .finish)
    (hbook : ∀ i, may i .book) (hterm : terminate env s₀.id status now σ = .ok (u, σ')) :
    Indexed σ' ∧ Path env now may c σ'.toCore := by
  obtain ⟨ids, σ₁, σ₂, hsub, hσ₁, hcore, hlife, hrest⟩ := terminate_cases may hbook h ht hterm
  have hpath : Path env now may c σ₁.toCore := by
    rw [hcore]
    exact endTree_path h.stored h.live ht hsub hmay
  obtain ⟨hindexed₂, hpath₂⟩ := lifecycle_path env hσ₁ (fun t _ _ hget _ => by
    rw [show σ₁.run = _ from congrArg Core.run hcore, get_endedRows_root hsub.nodup] at hget
    rw [← Option.some.inj hget]
    rfl) (fun _ => .inl hmay) hlife
  obtain ⟨hindexed', hpath'⟩ := hrest ⟨hindexed₂, hσ₁.inv.path hpath₂⟩
  exact ⟨hindexed', hpath.trans (hpath₂.trans hpath')⟩

/-- A stored live run is its own limbo. -/
theorem Good.limbo {σ : Rows} {s : StoredRun} (hσ : Good σ) (hs : σ.run.get s.id = some s)
    (hl : s.run.endedMs = none) : Limbo σ.toCore s σ s :=
  { inv := hσ.inv, stored := hs, live := hl, indexed := hσ.indexed, core := (Core.set_self hs).symm
    id := rfl, root := rfl, ending := fun _ _ _ => rfl }

end Engine

end Ouro
