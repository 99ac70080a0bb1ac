import Mathlib.Tactic

/-!
# Transactions

A transaction reads and writes a state and may fail; a failed transaction leaves no state behind.
`Tx σ ε α` is the state monad over exceptions, so a failure inside a transaction discards every
write made before it, and `Tx.commit` runs one against a stored state: its result and the state that
is stored afterwards, which is the old one when it failed.

Proofs take a successful transaction apart with the inversion lemmas `bind_ok`, `pure_ok`,
`read_ok`, `write_ok`, `ensure_ok`, one state at a time, and carry a fact across a loop with
`each_keeps` and `fold_keeps`. `Steps R` says that a transaction relates the state it finds to the
one it leaves; for a preorder it composes along the transaction's text. `runs_keep` is the induction
over a whole history.
-/

namespace Lib

/-- A computation on a stored state `σ` that returns `α` or fails with `ε`. -/
abbrev Tx (σ ε : Type) (α : Type) : Type := StateT σ (Except ε) α

namespace Tx

variable {σ ε α β : Type}

/-- Reads the state. -/
def read (f : σ → α) : Tx σ ε α := fun s => .ok (f s, s)

/-- Writes the state. -/
def write (f : σ → σ) : Tx σ ε Unit := fun s => .ok ((), f s)

/-- Fails. -/
def fail (e : ε) : Tx σ ε α := fun _ => .error e

/-- Fails unless `c` holds. -/
def ensure (c : Bool) (e : ε) : Tx σ ε Unit := if c then pure () else fail e

/-- The value, or a failure when there is none. -/
def orFail (o : Option α) (e : ε) : Tx σ ε α :=
  match o with
  | some a => pure a
  | none => fail e

/-- Lifts a plain result. -/
def ofExcept (r : Except ε α) : Tx σ ε α := fun s => r.map fun a => (a, s)

/-- Runs `f` for each element, in order. -/
def each (f : α → Tx σ ε Unit) : List α → Tx σ ε Unit
  | [] => pure ()
  | a :: l => do
    f a
    each f l

/-- Threads an accumulator through `f` for each element, in order. -/
def fold (f : β → α → Tx σ ε β) : β → List α → Tx σ ε β
  | b, [] => pure b
  | b, a :: l => do
    let b' ← f b a
    fold f b' l

/-- The results of `f` for each element, in order. -/
def collect (f : α → Tx σ ε β) : List α → Tx σ ε (List β)
  | [] => pure []
  | a :: l => do
    let b ← f a
    let bs ← collect f l
    pure (b :: bs)

/-- Runs a transaction on a stored state: its result, and the state stored afterwards. -/
def commit (m : Tx σ ε α) (s : σ) : Except ε α × σ :=
  match m s with
  | .ok (a, s') => (.ok a, s')
  | .error e => (.error e, s)

/-! ### Taking a successful transaction apart -/

@[simp] theorem bind_ok {x : Tx σ ε α} {f : α → Tx σ ε β} {s s'' : σ} {b : β} :
    (x >>= f) s = .ok (b, s'') ↔ ∃ a s', x s = .ok (a, s') ∧ f a s' = .ok (b, s'') := by
  change (x s >>= fun p => f p.1 p.2) = _ ↔ _
  cases h : x s with
  | error e => simp [bind, Except.bind]
  | ok p =>
    obtain ⟨a, s'⟩ := p
    simp [bind, Except.bind]

/-- A transaction goes on where its first part got to. -/
theorem bind_of_ok {x : Tx σ ε α} {f : α → Tx σ ε β} {s s' : σ} {a : α} (h : x s = .ok (a, s')) :
    (x >>= f) s = f a s' := by
  change Except.bind (x s) _ = _
  rw [h]
  rfl

/-- A transaction succeeds when its first part does and the rest does from there. -/
theorem exists_bind_ok {x : Tx σ ε α} {f : α → Tx σ ε β} {s s' : σ} {a : α} {b : β} {P : σ → Prop}
    (hx : x s = .ok (a, s')) (h : ∃ s'', f a s' = .ok (b, s'') ∧ P s'') :
    ∃ s'', (x >>= f) s = .ok (b, s'') ∧ P s'' := by
  obtain ⟨s'', hf, hP⟩ := h
  exact ⟨s'', bind_ok.mpr ⟨a, s', hx, hf⟩, hP⟩

@[simp] theorem pure_ok {a b : α} {s s' : σ} :
    (pure a : Tx σ ε α) s = .ok (b, s') ↔ b = a ∧ s' = s := by
  change Except.ok (a, s) = Except.ok (b, s') ↔ _
  simp only [Except.ok.injEq, Prod.mk.injEq]
  exact ⟨fun ⟨h₁, h₂⟩ => ⟨h₁.symm, h₂.symm⟩, fun ⟨h₁, h₂⟩ => ⟨h₁.symm, h₂.symm⟩⟩

@[simp] theorem read_ok {f : σ → α} {s s' : σ} {a : α} :
    (read f : Tx σ ε α) s = .ok (a, s') ↔ a = f s ∧ s' = s := by
  simp only [read, Except.ok.injEq, Prod.mk.injEq]
  exact ⟨fun ⟨h₁, h₂⟩ => ⟨h₁.symm, h₂.symm⟩, fun ⟨h₁, h₂⟩ => ⟨h₁.symm, h₂.symm⟩⟩

@[simp] theorem write_ok {f : σ → σ} {s s' : σ} {u : Unit} :
    (write f : Tx σ ε Unit) s = .ok (u, s') ↔ s' = f s := by
  simp only [write, Except.ok.injEq, Prod.mk.injEq, true_and]
  exact ⟨fun h => h.symm, fun h => h.symm⟩

@[simp] theorem fail_ok {e : ε} {s s' : σ} {a : α} :
    (fail e : Tx σ ε α) s = .ok (a, s') ↔ False := by
  simp [fail]

@[simp] theorem ensure_ok {c : Bool} {e : ε} {s s' : σ} {u : Unit} :
    (ensure c e : Tx σ ε Unit) s = .ok (u, s') ↔ c = true ∧ s' = s := by
  cases c <;> simp [ensure]

@[simp] theorem orFail_ok {o : Option α} {e : ε} {s s' : σ} {a : α} :
    (orFail o e : Tx σ ε α) s = .ok (a, s') ↔ o = some a ∧ s' = s := by
  cases o with
  | none => simp [orFail]
  | some b =>
    simp only [orFail, pure_ok, Option.some.injEq]
    exact ⟨fun ⟨h₁, h₂⟩ => ⟨h₁.symm, h₂⟩, fun ⟨h₁, h₂⟩ => ⟨h₁.symm, h₂⟩⟩

@[simp] theorem ofExcept_ok {r : Except ε α} {s s' : σ} {a : α} :
    (ofExcept r : Tx σ ε α) s = .ok (a, s') ↔ r = .ok a ∧ s' = s := by
  cases r with
  | error e => simp [ofExcept, Except.map]
  | ok b =>
    simp only [ofExcept, Except.map, Except.ok.injEq, Prod.mk.injEq]
    exact ⟨fun ⟨h₁, h₂⟩ => ⟨h₁, h₂.symm⟩, fun ⟨h₁, h₂⟩ => ⟨h₁, h₂.symm⟩⟩

@[simp] theorem map_ok {x : Tx σ ε α} {f : α → β} {s s' : σ} {b : β} :
    (f <$> x) s = .ok (b, s') ↔ ∃ a, x s = .ok (a, s') ∧ b = f a := by
  change (x s >>= fun p => pure (f p.1, p.2)) = _ ↔ _
  cases h : x s with
  | error e => simp [bind, Except.bind]
  | ok p =>
    obtain ⟨a, t⟩ := p
    simp only [bind, Except.bind, pure, Except.pure, Except.ok.injEq, Prod.mk.injEq]
    constructor
    · rintro ⟨rfl, rfl⟩
      exact ⟨a, ⟨rfl, rfl⟩, rfl⟩
    · rintro ⟨a', ⟨rfl, rfl⟩, rfl⟩
      exact ⟨rfl, rfl⟩

/-! ### Taking a failed transaction apart -/

/-- A sequence fails where its first part does, or the rest does from there. -/
theorem bind_error {x : Tx σ ε α} {f : α → Tx σ ε β} {s : σ} {e : ε} :
    (x >>= f) s = .error e ↔ x s = .error e ∨ ∃ a s', x s = .ok (a, s') ∧ f a s' = .error e := by
  change (x s >>= fun p => f p.1 p.2) = _ ↔ _
  cases h : x s with
  | error e' => simp [bind, Except.bind]
  | ok p =>
    obtain ⟨a, s'⟩ := p
    simp [bind, Except.bind]

theorem pure_error {a : α} {s : σ} {e : ε} : (pure a : Tx σ ε α) s = .error e ↔ False := by
  change Except.ok (a, s) = Except.error e ↔ _
  simp

theorem read_error {f : σ → α} {s : σ} {e : ε} : (read f : Tx σ ε α) s = .error e ↔ False := by
  simp [read]

theorem write_error {f : σ → σ} {s : σ} {e : ε} : (write f : Tx σ ε Unit) s = .error e ↔ False := by
  simp [write]

theorem ensure_error {c : Bool} {e e' : ε} {s : σ} :
    (ensure c e : Tx σ ε Unit) s = .error e' ↔ c = false ∧ e = e' := by
  cases c with
  | false => simp [ensure, fail]
  | true => simp [ensure, pure_error]

theorem orFail_error {o : Option α} {e e' : ε} {s : σ} :
    (orFail o e : Tx σ ε α) s = .error e' ↔ o = none ∧ e = e' := by
  cases o with
  | none => simp [orFail, fail]
  | some a => simp [orFail, pure_error]

theorem map_error {x : Tx σ ε α} {f : α → β} {s : σ} {e : ε} :
    (f <$> x) s = .error e ↔ x s = .error e := by
  change (x s >>= fun p => pure (f p.1, p.2)) = _ ↔ _
  cases h : x s with
  | error e' => simp [bind, Except.bind]
  | ok p => simp [bind, Except.bind, pure, Except.pure]

/-- A committed transaction stores what it computed. -/
theorem commit_ok {m : Tx σ ε α} {s s' : σ} {a : α} (h : m s = .ok (a, s')) :
    m.commit s = (.ok a, s') := by
  simp [commit, h]

/-- A failed transaction leaves the state it found. -/
theorem commit_error {m : Tx σ ε α} {s : σ} {e : ε} (h : m s = .error e) :
    m.commit s = (.error e, s) := by
  simp [commit, h]

/-! ### Loops -/

/-- A fact every pass of a loop keeps holds after the loop. -/
theorem each_keeps {I : σ → Prop} {f : α → Tx σ ε Unit} :
    ∀ {l : List α}, (∀ a ∈ l, ∀ s s' u, I s → f a s = .ok (u, s') → I s') →
      ∀ {s s' : σ} {u : Unit}, I s → each f l s = .ok (u, s') → I s' := by
  intro l
  induction l with
  | nil =>
    intro _ s s' u hI h
    obtain ⟨-, rfl⟩ := pure_ok.mp h
    exact hI
  | cons a l ih =>
    -- the first pass, and then the others
    intro hf s s' u hI h
    obtain ⟨u₁, s₁, h₁, h₂⟩ := bind_ok.mp h
    exact ih (fun b hb => hf b (List.mem_cons_of_mem a hb)) (hf a List.mem_cons_self _ _ _ hI h₁) h₂

/-- A fact about the accumulator and the state that every pass keeps holds after the loop. -/
theorem fold_keeps {I : β → σ → Prop} {f : β → α → Tx σ ε β} :
    ∀ {l : List α}, (∀ a ∈ l, ∀ b s b' s', I b s → f b a s = .ok (b', s') → I b' s') →
      ∀ {b b' : β} {s s' : σ}, I b s → fold f b l s = .ok (b', s') → I b' s' := by
  intro l
  induction l with
  | nil =>
    intro _ b b' s s' hI h
    obtain ⟨rfl, rfl⟩ := pure_ok.mp h
    exact hI
  | cons a l ih =>
    intro hf b b' s s' hI h
    obtain ⟨b₁, s₁, h₁, h₂⟩ := bind_ok.mp h
    exact ih (fun c hc => hf c (List.mem_cons_of_mem a hc)) (hf a List.mem_cons_self _ _ _ _ hI h₁) h₂

/-- A loop that only reads returns its pointwise results and leaves the state. -/
theorem collect_read {f : α → Tx σ ε β} {s : σ}
    (hf : ∀ a b s', f a s = .ok (b, s') → s' = s) :
    ∀ {l : List α} {bs : List β} {s' : σ}, collect f l s = .ok (bs, s') →
      s' = s ∧ List.Forall₂ (fun a b => f a s = .ok (b, s)) l bs := by
  intro l
  induction l with
  | nil =>
    intro bs s' h
    obtain ⟨rfl, rfl⟩ := pure_ok.mp h
    exact ⟨rfl, .nil⟩
  | cons a l ih =>
    intro bs s' h
    -- one result in front of the others
    simp only [collect, bind_ok, pure_ok] at h
    obtain ⟨b, s₁, hb, bs', s₂, hbs, rfl, rfl⟩ := h
    obtain rfl := hf a b s₁ hb
    obtain ⟨rfl, hall⟩ := ih hbs
    exact ⟨rfl, .cons hb hall⟩

/-- Every result of a pointwise loop comes from one of its arguments. -/
theorem exists_of_mem_right {R : α → β → Prop} {l : List α} {bs : List β}
    (h : List.Forall₂ R l bs) {b : β} (hb : b ∈ bs) : ∃ a ∈ l, R a b := by
  -- the result is the first one, or further on
  induction h with
  | nil => simp at hb
  | @cons a b' l bs hR _ ih =>
    rcases List.mem_cons.mp hb with rfl | hb
    · exact ⟨a, List.mem_cons_self, hR⟩
    · obtain ⟨a', ha', hR'⟩ := ih hb
      exact ⟨a', List.mem_cons_of_mem _ ha', hR'⟩

/-- Every argument of a pointwise loop has a result. -/
theorem exists_of_mem_left {R : α → β → Prop} {l : List α} {bs : List β}
    (h : List.Forall₂ R l bs) {a : α} (ha : a ∈ l) : ∃ b ∈ bs, R a b :=
  exists_of_mem_right h.flip ha

/-! ### Relations between states

A relation that every part of a transaction keeps is kept by the whole, when it is a preorder. -/

/-- Every successful run of the transaction relates the state it found to the one it leaves. -/
def Steps (R : σ → σ → Prop) (m : Tx σ ε α) : Prop := ∀ ⦃s a s'⦄, m s = .ok (a, s') → R s s'

namespace Steps

variable {R R' : σ → σ → Prop}

theorem mono {m : Tx σ ε α} (h : Steps R m) (hR : ∀ s s', R s s' → R' s s') : Steps R' m :=
  fun _ _ _ hm => hR _ _ (h hm)

theorem fail {e : ε} : Steps R (Tx.fail e : Tx σ ε α) := fun _ _ _ h => (fail_ok.mp h).elim

theorem write {f : σ → σ} (h : ∀ s, R s (f s)) : Steps R (Tx.write f : Tx σ ε Unit) := by
  intro s _ s' hm
  obtain rfl := write_ok.mp hm
  exact h s

variable [IsPreorder σ R]

theorem pure {a : α} : Steps R (Pure.pure a : Tx σ ε α) := by
  intro s _ s' hm
  obtain ⟨-, rfl⟩ := pure_ok.mp hm
  exact refl_of R _

theorem read {f : σ → α} : Steps R (Tx.read f : Tx σ ε α) := by
  intro s _ s' hm
  obtain ⟨-, rfl⟩ := read_ok.mp hm
  exact refl_of R _

theorem ensure {b : Bool} {e : ε} : Steps R (Tx.ensure b e : Tx σ ε Unit) := by
  intro s _ s' hm
  obtain ⟨-, rfl⟩ := ensure_ok.mp hm
  exact refl_of R _

theorem orFail {o : Option α} {e : ε} : Steps R (Tx.orFail o e : Tx σ ε α) := by
  intro s _ s' hm
  obtain ⟨-, rfl⟩ := orFail_ok.mp hm
  exact refl_of R _

theorem ofExcept {r : Except ε α} : Steps R (Tx.ofExcept r : Tx σ ε α) := by
  intro s _ s' hm
  obtain ⟨-, rfl⟩ := ofExcept_ok.mp hm
  exact refl_of R _

theorem bind {x : Tx σ ε α} {f : α → Tx σ ε β} (hx : Steps R x) (hf : ∀ a, Steps R (f a)) :
    Steps R (x >>= f) := by
  intro s b s'' hm
  obtain ⟨a, s', h₁, h₂⟩ := bind_ok.mp hm
  exact trans_of R (hx h₁) (hf a h₂)

omit [IsPreorder σ R] in
theorem map {x : Tx σ ε α} {f : α → β} (hx : Steps R x) : Steps R (f <$> x) := by
  intro s b s' hm
  obtain ⟨a, h, -⟩ := map_ok.mp hm
  exact hx h

theorem each {f : α → Tx σ ε Unit} (hf : ∀ a, Steps R (f a)) (l : List α) :
    Steps R (Tx.each f l) := by
  induction l with
  | nil => exact .pure
  | cons a l ih => exact (hf a).bind fun _ => ih

theorem fold {f : β → α → Tx σ ε β} (hf : ∀ b a, Steps R (f b a)) (b : β) (l : List α) :
    Steps R (Tx.fold f b l) := by
  induction l generalizing b with
  | nil => exact .pure
  | cons a l ih => exact (hf b a).bind ih

/-- A transaction that writes nothing. -/
theorem of_eq {m : Tx σ ε α} (h : Steps (· = ·) m) : Steps R m := by
  intro s a s' hok
  rw [h hok]
  exact refl_of R s'

theorem collect {f : α → Tx σ ε β} (hf : ∀ a, Steps R (f a)) (l : List α) :
    Steps R (Tx.collect f l) := by
  induction l with
  | nil => exact .pure
  | cons a l ih => exact (hf a).bind fun _ => ih.bind fun _ => .pure

end Steps

/-- A fact that holds before holds after. -/
def Keeps (I : σ → Prop) (s s' : σ) : Prop := I s → I s'

instance (I : σ → Prop) : IsPreorder σ (Keeps I) where
  refl _ h := h
  trans _ _ _ h h' hs := h' (h hs)

end Tx

/-! ### Histories -/

/-- The state after a history of steps. -/
def runs {σ ι : Type} (step : σ → ι → σ) (init : σ) (history : List ι) : σ :=
  history.foldl step init

section Runs

variable {σ ι : Type} {step : σ → ι → σ} {init : σ}

@[simp] theorem runs_nil : runs step init [] = init := rfl

theorem runs_append (h₁ h₂ : List ι) :
    runs step init (h₁ ++ h₂) = runs step (runs step init h₁) h₂ :=
  List.foldl_append

theorem runs_concat (h : List ι) (i : ι) :
    runs step init (h ++ [i]) = step (runs step init h) i := by
  rw [runs_append]; rfl

/-- What holds at the start and is kept by every step holds after every history. -/
theorem runs_keep {I : σ → Prop} (h₀ : I init) (hstep : ∀ s i, I s → I (step s i)) :
    ∀ h : List ι, I (runs step init h) := by
  intro h
  -- by what was done last
  induction h using List.reverseRecOn with
  | nil => exact h₀
  | append_singleton h i ih =>
    rw [runs_concat]
    exact hstep _ _ ih

end Runs

end Lib
