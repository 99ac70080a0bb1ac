import Ouro.Durable.MailMoves

/-!
# The invariant of the rows of runs

`Mails` says that every stored run has an exact mailbox and that a run that is not stored has none.
`Inv` joins it with the invariant of each row by itself (`Sane`) and of the links between rows
(`Tree`). One move keeps it (`Inv.move`), so a path of moves does (`Inv.path`).
-/

namespace Ouro

open Lib Engine

variable {env : Env} {now : Int} {may : String → Act → Prop}

/-! ### The first copy a listen may take -/

/-- A pending copy that a listen for `types` may take: of a listed type, or published when every type
is listed. -/
def Takeable (c : Core) (run : String) (types : List String) (n : Nat) (e : StoredEvent) : Prop :=
  Pend c run n e ∧ (e.type_ ∈ types ∨ "*" ∈ types ∧ Engine.published e = true)

private theorem least_firstCopy {copies : Table Nat Nat}
    (h : ∀ n m, copies.get n = some m → m = n) :
    Table.Least {n | ∃ m, copies.get n = some m} (firstCopy copies) := by
  have hleast := copies.least_scan Table.all
  unfold firstCopy
  rcases copies.scan_one Table.all with ⟨hnil, -⟩ | ⟨k, v, hone, hget, -⟩
  · rw [hnil] at hleast ⊢
    simpa [Table.all] using hleast
  · rw [hone] at hleast ⊢
    obtain rfl := h k v hget
    simpa [Table.all] using hleast

private theorem least_earlier {s t : Set Nat} {o o' : Option Nat} (h : Table.Least s o)
    (h' : Table.Least t o') : Table.Least (s ∪ t) (earlier o o') := by
  cases o with
  | none =>
    obtain rfl : s = ∅ := h
    rw [Set.empty_union]
    exact h'
  | some a =>
    cases o' with
    | none =>
      obtain rfl : t = ∅ := h'
      rw [Set.union_empty]
      exact h
    | some b => exact IsLeast.union h h'

private theorem least_foldl_earlier {sets : List (Set Nat)} {firsts : List (Option Nat)}
    (h : List.Forall₂ Table.Least sets firsts) {s : Set Nat} {o : Option Nat}
    (ho : Table.Least s o) :
    Table.Least (s ∪ ⋃₀ {t | t ∈ sets}) (firsts.foldl earlier o) := by
  induction h generalizing s o with
  | nil => simpa using ho
  | @cons t p sets firsts htp _ ih =>
    have hnext := ih (least_earlier ho htp)
    have hset : s ∪ ⋃₀ {u | u ∈ t :: sets} = s ∪ t ∪ ⋃₀ {u | u ∈ sets} := by
      ext n
      simp [or_assoc]
    rw [hset]
    exact hnext

/-- The candidate of a listen is the first copy, in arrival order, that it may take. -/
theorem Mail.least_candidate {c : Core} {s : StoredRun} (h : Mail c s) (types : List String) :
    Table.Least {n | ∃ e, Takeable c s.id types n e} (candidate c s.id types) := by
  -- one candidate a type: the first copy in the index of that type
  have htyped : ∀ types : List String, List.Forall₂ Table.Least
      (types.map fun t => {n | ∃ m, (c.pending (s.id, t)).get n = some m})
      (types.map fun t => firstCopy (c.pending (s.id, t))) := by
    intro types
    induction types with
    | nil => exact .nil
    | cons t types ih => exact .cons (least_firstCopy fun n m hn => (h.get_pending.mp hn).1) ih
  -- and one for the wildcard: the first copy of the published ones
  have hpub : Table.Least {n | ∃ m, (c.published s.id).get n = some m}
      (firstCopy (c.published s.id)) := least_firstCopy fun n m hn => (h.get_published.mp hn).1
  have hempty : Table.Least (∅ : Set Nat) none := rfl
  unfold candidate
  simp only [List.contains_iff_mem]
  split
  -- a listen with the wildcard: the least of all the candidates
  · next hstar =>
    have hall := List.rel_append (htyped types) (.cons hpub .nil)
    have := least_foldl_earlier hall hempty
    convert this using 1
    -- a copy is takeable when it is in one of the rows
    ext n
    simp only [Takeable, hstar, true_and, Set.mem_ofPred_eq, Set.empty_union, Set.mem_sUnion,
      List.mem_append, List.mem_map, List.mem_singleton]
    constructor
    · rintro ⟨e, hp, ht | hpub⟩
      · exact ⟨_, .inl ⟨e.type_, ht, rfl⟩, n, h.get_pending.mpr ⟨rfl, e, hp, rfl⟩⟩
      · exact ⟨_, .inr rfl, n, h.get_published.mpr ⟨rfl, e, hp, hpub⟩⟩
    · rintro ⟨_, ⟨t, ht, rfl⟩ | rfl, m, hm⟩
      · obtain ⟨-, e, hp, rfl⟩ := h.get_pending.mp hm
        exact ⟨e, hp, .inl ht⟩
      · obtain ⟨-, e, hp, hpub⟩ := h.get_published.mp hm
        exact ⟨e, hp, .inr hpub⟩
  -- without it, the published copies do not count
  · next hstar =>
    have := least_foldl_earlier (htyped types) hempty
    convert this using 1
    ext n
    simp only [Takeable, hstar, false_and, or_false, Set.mem_ofPred_eq, Set.empty_union,
      Set.mem_sUnion, List.mem_map]
    constructor
    · rintro ⟨e, hp, ht⟩
      exact ⟨_, ⟨e.type_, ht, rfl⟩, n, h.get_pending.mpr ⟨rfl, e, hp, rfl⟩⟩
    · rintro ⟨_, ⟨t, ht, rfl⟩, m, hm⟩
      obtain ⟨-, e, hp, rfl⟩ := h.get_pending.mp hm
      exact ⟨e, hp, ht⟩

theorem Mail.takeable {c : Core} {s : StoredRun} (h : Mail c s) {types : List String} {n : Nat}
    (hn : candidate c s.id types = some n) {e : StoredEvent} (he : (c.event s.id).get n = some e) :
    Takeable c s.id types n e := by
  have hleast := h.least_candidate types
  rw [hn] at hleast
  obtain ⟨e', he'⟩ := hleast.1
  obtain rfl : e' = e := Option.some.inj (he'.1.1.symm.trans he)
  exact he'

/-! ### Counters under moves -/

theorem SameCounters.trans {s s' s'' : StoredRun} (h : SameCounters s s')
    (h' : SameCounters s' s'') : SameCounters s s'' :=
  ⟨h'.id.trans h.id, h'.accepted.trans h.accepted, h'.pending.trans h.pending,
    h'.published.trans h.published, h'.mailbox.trans h.mailbox⟩

theorem close_counters (s : StoredRun) (types : List String) : SameCounters s (close s types) :=
  ⟨close_id _ _, close_accepted _ _, close_pending _ _, close_published _ _, close_mailbox _ _⟩

theorem registered_counters (s : StoredRun) (types : List String) (now : Int) :
    SameCounters s (registered s types now) := by
  rw [registered_eq]
  exact ⟨rfl, rfl, rfl, rfl, rfl⟩

theorem tookEvent_counters (s : StoredRun) (k : String) (types : List String) :
    SameCounters s (tookEvent s k types) := by
  refine .trans ?_ (close_counters _ types)
  exact ⟨rfl, rfl, rfl, rfl, rfl⟩

/-- What a rewrite changes of a row is none of its counters. -/
theorem Rewrite.counters {c : Core} {s s' : StoredRun} (h : Rewrite c now may s s') :
    SameCounters s s' := by
  cases h with
  | park outcome =>
    obtain ⟨state, wakeAtMs, interruptions, heq⟩ := finished_eq c s outcome now
    rw [heq]
    exact ⟨rfl, rfl, rfl, rfl, rfl⟩
  | register types => exact registered_counters s types now
  | unregister k types =>
    refine .trans ?_ (close_counters _ types)
    exact ⟨rfl, rfl, rfl, rfl, rfl⟩
  | settle child => exact close_counters s _
  | _ => exact ⟨rfl, rfl, rfl, rfl, rfl⟩

/-! ### Every mailbox -/

/-- Every stored run has an exact mailbox, and a run that is not stored has none. -/
structure Mails (c : Core) : Prop where
  mail : ∀ i s, c.run.get i = some s → Mail c s
  vacant : ∀ i, c.run.get i = none → Vacant c i

theorem Mails.empty : Mails Rows.empty.toCore where
  mail i s h := by simp [Rows.empty] at h
  vacant i _ := ⟨rfl, rfl, rfl, fun _ => rfl, fun _ => rfl, rfl, rfl, rfl⟩

/-- A change of run rows that leaves every mailbox row and every counter. -/
theorem Mails.of_same {c c' : Core} (h : Mails c) (hsame : ∀ r, SameMail c c' r)
    (hrow : ∀ i s', c'.run.get i = some s' → ∃ s, c.run.get i = some s ∧ SameCounters s s')
    (hnone : ∀ i, c'.run.get i = none → c.run.get i = none) : Mails c' where
  mail i s' hs' := by
    obtain ⟨s, hs, hcounters⟩ := hrow i s' hs'
    exact (h.mail i s hs).congr (hsame s.id) hcounters
  vacant i hi := (h.vacant i (hnone i hi)).of_same (hsame i)

/-- A change of one stored run's mailbox and row. -/
theorem Mails.write {c d : Core} {s s' : StoredRun} (h : Mails c)
    (hkeyed : ∀ k s, c.run.get k = some s → s.id = k)
    (hd : d.run = c.run) (hid : s'.id = s.id) (hother : ∀ r, r ≠ s.id → SameMail c d r)
    (hmail : Mail d s') : Mails (d.set s') where
  mail i t ht := by
    rw [Core.get_set, hd, hid] at ht
    split at ht
    · obtain rfl := Option.some.inj ht
      exact hmail.congr (.of_eq _ rfl rfl rfl rfl rfl rfl rfl rfl) (.refl _)
    · next hne =>
      have hti := hkeyed i t ht
      exact (h.mail i t ht).congr
        ((hother t.id (by rw [hti]; exact Ne.symm hne)).trans
          (.of_eq _ rfl rfl rfl rfl rfl rfl rfl rfl)) (.refl _)
  vacant i hi := by
    rw [Core.get_set, hd, hid] at hi
    split at hi
    · simp at hi
    · next hne =>
      exact (h.vacant i hi).of_same ((hother i (Ne.symm hne)).trans
        (.of_eq _ rfl rfl rfl rfl rfl rfl rfl rfl))

/-- A first row with empty counters. -/
theorem Mails.insert {c : Core} {s' : StoredRun} (h : Mails c) (hs : c.run.get s'.id = none)
    (hpending : s'.pending = .empty) (hpublished : s'.published = 0) (hmailbox : s'.mailbox = none) :
    Mails (c.set s') where
  mail i t ht := by
    have hsame : ∀ r, SameMail c (c.set s') r := fun r => .of_eq r rfl rfl rfl rfl rfl rfl rfl rfl
    rw [Core.get_set] at ht
    split at ht
    · obtain rfl := Option.some.inj ht
      exact .of_vacant ((h.vacant _ hs).of_same (hsame _)) hpending hpublished hmailbox
    · exact (h.mail i t ht).congr (hsame _) (.refl _)
  vacant i hi := by
    rw [Core.get_set] at hi
    split at hi
    · simp at hi
    · exact (h.vacant i hi).of_same (.of_eq i rfl rfl rfl rfl rfl rfl rfl rfl)

theorem Mails.move {c c' : Core} (h : Mails c)
    (hkeyed : ∀ k s, c.run.get k = some s → s.id = k) (hmove : Move env now may c c') : Mails c' := by
  -- no move forgets a stored run
  have hnone : ∀ i, c'.run.get i = none → c.run.get i = none := by
    intro i hi
    by_contra hne
    obtain ⟨s, hs⟩ := Option.ne_none_iff_exists'.mp hne
    obtain ⟨s', hs', -⟩ := hmove.stored hs
    simp [hi] at hs'
  -- a row that is new has no mailbox yet; a row that is rewritten keeps its counters
  cases hmove with
  | admission a digest epoch trigger rearm ha => exact h.insert ha rfl rfl rfl
  | refuse a digest epoch error ha => exact h.insert ha rfl rfl rfl
  | bear a digest epoch link ha => exact h.insert ha rfl rfl rfl
  | @rewrite s s' hs hrw =>
    exact h.write hkeyed rfl hrw.id_eq (fun r _ => .refl c r)
      ((h.mail _ _ hs).congr (.refl c _) hrw.counters)
  | record | spend | dropBudget =>
    exact h.of_same (fun r => .of_eq r rfl rfl rfl rfl rfl rfl rfl rfl)
      (fun i s' hs' => ⟨s', hs', .refl s'⟩) hnone
  -- an accepted event is pushed on the mailbox of its run
  | @accept s e hs hl he hi =>
    refine h.write hkeyed rfl ?_ (fun r hr => pushed_same hr) ?_
    · rw [counted_id]; split <;> rfl
    · have hcloud : e.envelope ≠ none := by
        have := he.cloud
        -- whether or not the row was parked, its counters move by this one copy
        rintro hnone
        simp [hnone] at this
      have hpush : ∀ s₀ : StoredRun, SameCounters s s₀ →
          Mail (pushed c s.id s.accepted e) (counted s₀ e) := by
        intro s₀ h₀
        have hmail := (h.mail _ _ hs).congr (.refl c _) h₀
        have := hmail.push he.pending (by rw [h₀.id]; exact hi) (fun hn => absurd hn hcloud)
          (fun hn => absurd hn hcloud)
        rwa [h₀.id, h₀.accepted] at this
      split
      · exact hpush _ ⟨rfl, rfl, rfl, rfl, rfl⟩
      · exact hpush _ (.refl s)
  -- a notice is pushed as an event is, under no identity
  | @notify s t data hs hl ha hp =>
    refine h.write hkeyed rfl ?_ (fun r hr => pushed_same hr) ?_
    · rw [counted_id]; split <;> rfl
    · have hpush : ∀ s₀ : StoredRun, SameCounters s s₀ →
          Mail (pushed c s.id s.accepted (notice t data now)) (counted s₀ (notice t data now)) := by
        intro s₀ h₀
        have hmail := (h.mail _ _ hs).congr (.refl c _) h₀
        have := hmail.push (e := notice t data now) rfl (by simp [identityOf, notice])
          (fun _ => ⟨rfl, rfl⟩) (fun _ => by rw [h₀.pending]; exact hp)
        rwa [h₀.id, h₀.accepted] at this
      split
      · exact hpush _ ⟨rfl, rfl, rfl, rfl, rfl⟩
      · exact hpush _ (.refl s)
  | @expire s n e at_ taken hs hl hx hat he =>
    -- the expiry row leads to the copy that is consumed
    have hmail := h.mail _ _ hs
    obtain ⟨m, e', at', hp, -, hk, -⟩ := hmail.get_expiry.mp hx
    obtain ⟨rfl, rfl⟩ : at_ = at' ∧ n = m := by simpa using hk
    obtain rfl : e' = e := Option.some.inj (hp.1.symm.trans he)
    have hsame : ∀ r, SameMail (consumeRows c s.id n e' (expiredKey n))
        (consumeRows (c.setRecord s.id (expiredKey n) (.expired taken)) s.id n e' (expiredKey n))
        r := fun r => .of_eq r rfl rfl rfl rfl rfl rfl rfl rfl
    exact h.write hkeyed rfl rfl (fun r hr => (consumed_same hr).trans (hsame r))
      ((hmail.consume hp).congr (hsame _) (.refl _))
  -- a taken copy is consumed in the same way, and its event is saved with it
  | @take s k types n e event hs hr hm hk hn he =>
    have hmail := h.mail _ _ hs
    have hp := (hmail.takeable hn he).1
    have hsame : ∀ r, SameMail (consumeRows c s.id n e k)
        ((consumeRows c s.id n e k).setRecord s.id k (.event event)) r := fun r =>
      .of_eq r rfl rfl rfl rfl rfl rfl rfl rfl
    refine h.write hkeyed rfl (by simp) (fun r hr => (consumed_same hr).trans (hsame r)) ?_
    refine (hmail.consume (k := k) hp).congr (hsame _) (.trans ?_ (tookEvent_counters _ k types))
    rw [joined_eq]
    exact ⟨rfl, rfl, rfl, rfl, rfl⟩
  -- an offer marks one copy
  | @offer s n e hs hl he hp hd hn =>
    exact h.write hkeyed rfl rfl (fun r hr => offered_same hr)
      ((h.mail _ _ hs).offer ⟨he, hp⟩ hd)
  -- after a sweep the run has no mailbox at all
  | @forget s at_ hs hl =>
    exact h.write hkeyed (run_forgetRows c s.id) rfl (fun r hr => forgetRows_same hr)
      (.of_vacant (.forget (h.mail _ _ hs)) rfl rfl rfl)
  -- an end touches no mailbox
  | @finish s status spent ids hs hl ht hids =>
    refine h.of_same (fun r => .of_eq r rfl rfl rfl rfl rfl rfl rfl rfl) (fun i s' hs' => ?_) hnone
    obtain ⟨s₀, hs₀, rfl | ⟨o, rfl⟩⟩ := Core.get_finished hs hids.nodup hs'
    · exact ⟨_, hs₀, .refl _⟩
    · exact ⟨s₀, hs₀, rfl, rfl, rfl, rfl, rfl⟩

/-! ### The invariant -/

/-- The invariant of the rows of runs. -/
structure Inv (c : Core) : Prop where
  sane : ∀ i s, c.run.get i = some s → Sane s
  tree : Tree c
  mails : Mails c

theorem Inv.empty : Inv Rows.empty.toCore where
  sane i s h := by simp [Rows.empty] at h
  tree := .empty
  mails := .empty

theorem Inv.move {c c' : Core} (h : Inv c) (hmove : Move env now may c c') : Inv c' where
  sane i s' hs' := by
    have hrow := hmove.row i
    rw [hs'] at hrow
    generalize hold : c.run.get i = row at hrow
    cases hrow with
    | same => exact h.sane i s' hold
    | new hid hnew => exact hnew.sane
    | change hid hchange => exact hchange.sane (h.sane i _ hold)
  tree := h.tree.move h.sane hmove
  mails := h.mails.move h.tree.keyed hmove

theorem Inv.path {c c' : Core} (h : Inv c) (hpath : Path env now may c c') : Inv c' := by
  induction hpath with
  | refl => exact h
  | tail _ hmove ih => exact ih.move hmove

end Ouro
