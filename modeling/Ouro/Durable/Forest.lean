import Ouro.Durable.Authority

/-!
# The index and the forest of runs

Over every history of calls:

* `index_exact`: the index holds the rows the stored runs yield, and no others;
* `trees_end_together`: the parent links form a forest, a child's root is its topmost ancestor, a live
  run has a live parent, a call that ends a run ends its live descendants, and the loop of `terminate`
  ends, having visited each of them once.

The last clause is about the rows `terminate` is called on (`Terminates`), which for `finish` are not
those of the store: the row of the run was given back before. Owning and living are the same in both.
-/

namespace Ouro

open Lib Engine Tx

variable {env : Env} {now : Int}

/-! ### The index -/

/-- The index is exact. In every store that a history leads to, a key of the index has a value if and only
if some stored run yields that row (`indexes`). -/
theorem index_exact (env : Env) (history : List Op) (k : IndexKey) (v : IndexValue) :
    (after env history).index.get k = some v ↔
      ∃ i s, (after env history).run.get i = some s ∧ (indexes s).get k = some v := by
  have hσ := (good_after env history).indexed
  rw [hσ.get_index_iff]
  constructor
  · rintro ⟨s, hs, hentry⟩
    exact ⟨_, s, hs, mem_indexes.mpr hentry⟩
  · rintro ⟨i, s, hs, hrow⟩
    have hentry := mem_indexes.mp hrow
    refine ⟨s, ?_, hentry⟩
    rw [owner_of_mem_entries hentry, hσ.keyed i s hs]
    exact hs

/-! ### Descendants -/

/-- A run is stored and has not ended. -/
def Live (c : Core) (i : String) : Prop := ∃ s, c.run.get i = some s ∧ s.run.endedMs = none

/-- A run is stored and has ended. -/
def Ended (c : Core) (i : String) : Prop := ∃ s, c.run.get i = some s ∧ s.run.endedMs.isSome = true

theorem Ended.not_live {c : Core} {i : String} (h : Ended c i) : ¬Live c i := by
  rintro ⟨s, hs, hl⟩
  obtain ⟨s', hs', hended⟩ := h
  obtain rfl := Option.some.inj (hs.symm.trans hs')
  simp [hl] at hended

theorem Tree.live_parent {c : Core} (h : Tree c) {i j : String} (hown : Owns c i j)
    (hl : Live c j) : Live c i := by
  obtain ⟨s, link, hs, hlink, rfl⟩ := hown
  obtain ⟨s', hs', hlive⟩ := hl
  obtain rfl := Option.some.inj (hs.symm.trans hs')
  obtain ⟨p, hp, -, hplive⟩ := h.parent j s link hs hlink
  exact ⟨p, hp, hplive hlive⟩

/-- The ancestors of a live run are live. -/
theorem Tree.live_ancestor {c : Core} (h : Tree c) {i j : String}
    (hij : Relation.TransGen (Owns c) i j) (hl : Live c j) : Live c i := by
  induction hij with
  | single hown => exact h.live_parent hown hl
  | tail _ hown ih => exact ih (h.live_parent hown hl)

/-- The runs a termination ends beside its own are the live descendants. -/
theorem Subtree.mem_iff {c : Core} {id : String} {ids : List String} (hsub : Subtree c id ids)
    (htree : Tree c) (j : String) :
    j ∈ ids ↔ Live c j ∧ Relation.TransGen (Owns c) id j := by
  constructor
  -- the ids were gathered by following links down from the run: on the rank of the links, each is below it
  · obtain ⟨rank, hrank⟩ := htree.rank
    intro hj
    induction hn : rank j using Nat.strong_induction_on generalizing j with
    | _ n ih =>
      obtain ⟨s, link, -, hs, hl, hlink, hparent⟩ := hsub.owned j hj
      have hown : Owns c link.parent j := ⟨s, link, hs, hlink, rfl⟩
      refine ⟨⟨s, hs, hl⟩, ?_⟩
      rcases List.mem_cons.mp hparent with heq | hmem
      · exact .single (heq ▸ hown)
      · exact (ih _ (hn ▸ hrank j s link hs hlink) _ hmem rfl).2.tail hown
  -- the other way round by induction on the path: the ids are closed under live children
  · rintro ⟨hl, hid⟩
    -- a live child of the run or of a listed one is listed, and no run is its own descendant
    have hclosed : ∀ {i j}, Owns c i j → Live c j → i ∈ id :: ids →
        Relation.TransGen (Owns c) id j → j ∈ ids := by
      rintro i j ⟨s, link, hs, hlink, rfl⟩ ⟨s', hs', hl⟩ hmem htrans
      obtain rfl := Option.some.inj (hs.symm.trans hs')
      obtain rfl := htree.keyed j s hs
      rcases List.mem_cons.mp (hsub.closed s link hs hl hlink hmem) with heq | hmem
      · exact absurd (heq ▸ htrans) (htree.acyclic id)
      · exact hmem
    induction hid with
    | single hown => exact hclosed hown hl List.mem_cons_self (.single hown)
    | tail hpath hown ih =>
      have hmem := ih (htree.live_parent hown hl)
      exact hclosed hown hl (List.mem_cons_of_mem _ hmem) (hpath.tail hown)

/-! ### The loop of `terminate` -/

/-- Rows with the same parents and ends give the same forest and the same live runs. -/
theorem forest_congr {c c' : Core}
    (h : ∀ i, (c'.run.get i).map (fun s => (s.run.child, s.run.endedMs)) =
      (c.run.get i).map fun s => (s.run.child, s.run.endedMs)) :
    Owns c' = Owns c ∧ Live c' = Live c := by
  -- a property of a row's parent and end alone is read through that pair
  have hget : ∀ (P : Option ChildLink × Option Int → Prop) (i : String),
      (∃ t, c'.run.get i = some t ∧ P (t.run.child, t.run.endedMs)) ↔
        ∃ t, c.run.get i = some t ∧ P (t.run.child, t.run.endedMs) := by
    intro P i
    have hpair : ∀ o : Option StoredRun, (∃ t, o = some t ∧ P (t.run.child, t.run.endedMs)) ↔
        ∃ p, o.map (fun s => (s.run.child, s.run.endedMs)) = some p ∧ P p := by
      intro o
      cases o <;> simp
    rw [hpair, hpair, h i]
  constructor
  · funext i j
    simp only [Owns, exists_and_left]
    exact propext (hget (fun p => ∃ link, p.1 = some link ∧ link.parent = i) j)
  · funext i
    exact propext (hget (fun p => p.2 = none) i)

/-- A rewrite of one row that keeps its parent and its end keeps the forest and who lives. -/
theorem forest_set {c : Core} {s : StoredRun} (s' : StoredRun) (hs : c.run.get s.id = some s)
    (hid : s'.id = s.id)
    (hchild : s'.run.child = s.run.child) (hended : s'.run.endedMs = s.run.endedMs) :
    Owns (c.set s') = Owns c ∧ Live (c.set s') = Live c := by
  refine forest_congr fun i => ?_
  rw [Core.get_set, hid]
  split
  · next heq => subst heq; simp [hs, hchild, hended]
  · rfl

theorem Engine.Terminates.forest {σ σ' : Rows} {s : StoredRun} {status : Status} (hσ : Good σ)
    (h : Terminates env now σ s status σ') :
    ∃ c s₀ s', Limbo c s₀ σ' s' ∧ s₀.id = s.id ∧ Owns c = Owns σ.toCore ∧
      Live c = Live σ.toCore := by
  obtain ⟨hget, -, n, s', hlimbo, -⟩ := h.limbo hσ
  obtain ⟨howns, hlive⟩ := forest_set { s with run := { s.run with interruptions := n } } hget rfl rfl rfl
  exact ⟨_, _, s', hlimbo, rfl, howns, hlive⟩

/-- The loop of `terminate` ends, having visited every live descendant once and ended it. -/
theorem cascade_exact {σ σ' : Rows} {s : StoredRun} {status : Status} (hσ : Good σ)
    (h : Terminates env now σ s status σ') :
    ∃ acc σ₁, endTree env s.id status now σ' = .ok (acc, σ₁) ∧ acc.visited.Nodup ∧
      (∀ j, j ∈ acc.visited ↔ Live σ.toCore j ∧ Relation.TransGen (Owns σ.toCore) s.id j) ∧
      ∀ j ∈ s.id :: acc.visited, ∃ t, σ₁.run.get j = some t ∧ t.run.endedMs = some now := by
  obtain ⟨c, s₀, s', hlimbo, hid, howns, hlive⟩ := h.forest hσ
  obtain ⟨acc, σ₁, hend, hindexed, hsub, -, hcore⟩ := endTree_total env hlimbo status now
  rw [hid] at hend
  refine ⟨acc, σ₁, hend, (List.nodup_cons.mp hsub.nodup).2, fun j => ?_, fun j hj => ?_⟩
  · rw [hsub.mem_iff hlimbo.inv.tree, howns, hlive, hid]
  · have hending : Ending c s₀ status _ _ now σ₁ acc.visited :=
      { indexed := hindexed, core := hcore, nodup := hsub.nodup, owned := hsub.owned }
    obtain ⟨t, status', ht, -⟩ := hending.get_visited (hid ▸ hj)
    exact ⟨_, ht, rfl⟩

/-! ### Histories -/

/-- Who owns whom stays. -/
theorem step_owns {σ : Rows} (hσ : Good σ) (op : Op) {i j : String} (h : Owns σ.toCore i j) :
    Owns (step env σ op).toCore i j := by
  obtain ⟨s, link, hs, hlink, hparent⟩ := h
  obtain ⟨s', hs', hchild⟩ := (step_path env hσ op).stored hσ.inv
    (R := fun s s' => s'.run.child = s.run.child) (fun _ => rfl) (fun _ _ _ h h' => h'.trans h)
    (fun _ _ _ _ _ h => h.lineage.1) hs
  exact ⟨s', link, hs', by rw [hchild, hlink], hparent⟩

/-- A call that ends a run ends every descendant of it. -/
theorem step_ends_descendants {σ : Rows} (hσ : Good σ) (op : Op) {i j : String}
    (hi : Ended (step env σ op).toCore i) (hij : Relation.TransGen (Owns σ.toCore) i j) :
    Ended (step env σ op).toCore j := by
  have hij' : Relation.TransGen (Owns (step env σ op).toCore) i j :=
    Relation.TransGen.mono (fun _ _ => step_owns hσ op) _ _ hij
  obtain ⟨b, -, s, link, hs, -⟩ := Relation.TransGen.tail'_iff.mp hij'
  refine ⟨s, hs, ?_⟩
  by_contra hl
  exact hi.not_live ((step_good env hσ op).inv.tree.live_ancestor hij' ⟨s, hs, by simpa using hl⟩)

/-- Trees end together. The parent links of a reachable store have no cycle; a child has a stored parent,
which is live as long as the child is, and its recorded root is its topmost ancestor. Whatever call ends a
run ends its descendants with it. And the loop of `terminate` ends, has visited each live descendant once
and nothing else, and leaves them all ended at its instant. -/
theorem trees_end_together (env : Env) (history : List Op) :
    (∀ i, ¬Relation.TransGen (Owns (after env history).toCore) i i) ∧
    (∀ i s link, (after env history).run.get i = some s → s.run.child = some link →
      ∃ p, (after env history).run.get link.parent = some p ∧
        (s.run.endedMs = none → p.run.endedMs = none)) ∧
    (∀ i s link, (after env history).run.get i = some s → s.run.child = some link →
      ∃ root r, s.run.root = some root ∧ (after env history).run.get root = some r ∧
        r.run.child = none ∧ Relation.TransGen (Owns (after env history).toCore) root i) ∧
    (∀ op i j, Live (after env history).toCore i → Ended (step env (after env history) op).toCore i →
      Relation.TransGen (Owns (after env history).toCore) i j →
      Ended (step env (after env history) op).toCore j) ∧
    (∀ now s status σ, Terminates env now (after env history) s status σ →
      ∃ acc σ₁, endTree env s.id status now σ = .ok (acc, σ₁) ∧ acc.visited.Nodup ∧
        (∀ j, j ∈ acc.visited ↔ Live (after env history).toCore j ∧
          Relation.TransGen (Owns (after env history).toCore) s.id j) ∧
        ∀ j ∈ s.id :: acc.visited, ∃ t, σ₁.run.get j = some t ∧ t.run.endedMs = some now) := by
  -- acyclic, a parent and a root are the invariant `Tree`; what a call ends is `step_ends_descendants`, and
  -- the last clause is the cascade of `terminate`
  have hσ := good_after env history
  have htree := hσ.inv.tree
  refine ⟨htree.acyclic, fun i s link hs hlink => ?_, fun i s link hs hlink => ?_,
    fun op i j _ hi hij => step_ends_descendants hσ op hi hij,
    fun now s status σ h => cascade_exact hσ h⟩
  · obtain ⟨p, hp, -, hl⟩ := htree.parent i s link hs hlink
    exact ⟨p, hp, hl⟩
  · obtain ⟨p, hp, hroot, -⟩ := htree.parent i s link hs hlink
    -- the root of the parent is that of the child
    obtain ⟨hreach, r, hr, hnone⟩ := htree.topmost hp
    exact ⟨_, r, hroot, hr, hnone, .tail' hreach ⟨s, link, hs, hlink, rfl⟩⟩

end Ouro
