import Mathlib.Tactic

/-!
# Programs in a weather

A program runs in a weather, which decides what the program does not: whether a write is kept, what the
time is, what it is told. It ends with a value or with a fault, and in a state, whichever of the two.

`Prog.Upholds` is the triple of a program whose states stay within an invariant and only go where a preorder
lets them: what every part of a program keeps and every sequence of such parts.
-/

namespace Lib

/-- A program: in a weather and from a state it ends with a value or a fault, and in a state. -/
def Prog (W σ ε α : Type) : Type := W → σ → Except ε α × σ

namespace Prog

variable {W σ ε α β : Type}

/-- Goes on with whatever the first program ends with. -/
def handle (m : Prog W σ ε α) (f : Except ε α → Prog W σ ε β) : Prog W σ ε β :=
  fun w s => f (m w s).1 w (m w s).2

def fail (e : ε) : Prog W σ ε α := fun _ s => (.error e, s)

/-- Goes on with a value; a fault ends the program. -/
def after (f : α → Prog W σ ε β) : Except ε α → Prog W σ ε β
  | .ok a => f a
  | .error e => fail e

instance : Monad (Prog W σ ε) where
  pure a := fun _ s => (.ok a, s)
  bind m f := handle m (after f)

/-- Reads the state. -/
def gets (f : σ → α) : Prog W σ ε α := fun _ s => (.ok (f s), s)

/-- Changes the state. -/
def sets (f : σ → σ) : Prog W σ ε Unit := fun _ s => (.ok (), f s)

/-- A value worked out elsewhere, or a fault. -/
def lift (r : Except ε α) : Prog W σ ε α := fun _ s => (r, s)

theorem bind_eq (m : Prog W σ ε α) (f : α → Prog W σ ε β) : m >>= f = m.handle (after f) := rfl

theorem bind_ok {m : Prog W σ ε α} {f : α → Prog W σ ε β} {w : W} {s : σ} {a : α} {s' : σ}
    (h : m w s = (.ok a, s')) : (m >>= f) w s = f a w s' := by
  rw [bind_eq, handle, h]
  rfl

theorem bind_error {m : Prog W σ ε α} {f : α → Prog W σ ε β} {w : W} {s : σ} {e : ε} {s' : σ}
    (h : m w s = (.error e, s')) : (m >>= f) w s = (.error e, s') := by
  rw [bind_eq, handle, h]
  rfl

/-! ### Triples -/

/-- What holds between the states of a program of a part of a system: `inv` of both, and `step` from the
first to the last. -/
structure Frame (σ : Type) where
  inv : σ → Prop
  step : σ → σ → Prop
  refl : ∀ s, step s s
  trans : ∀ {s s' s''}, step s s' → step s' s'' → step s s''

variable (F : Frame σ)

/-- From states of the frame with `pre`, the program ends in one of the frame with `post`, and has only done
what the frame lets it do. -/
def Upholds (pre : σ → Prop) (m : Prog W σ ε α) (post : Except ε α → σ → Prop) : Prop :=
  ∀ w s, F.inv s → pre s → F.step s (m w s).2 ∧ F.inv (m w s).2 ∧ post (m w s).1 (m w s).2

variable {F} {pre pre' : σ → Prop} {m : Prog W σ ε α} {post post' : Except ε α → σ → Prop}

theorem Upholds.mono (h : Upholds F pre m post) (hpre : ∀ s, F.inv s → pre' s → pre s)
    (hpost : ∀ r s, F.inv s → post r s → post' r s) : Upholds F pre' m post' := by
  intro w s hs hp
  obtain ⟨hstep, hinv, hq⟩ := h w s hs (hpre s hs hp)
  exact ⟨hstep, hinv, hpost _ _ hinv hq⟩

theorem Upholds.weaken (h : Upholds F pre m post) (hpost : ∀ r s, post r s → post' r s) : Upholds F pre m post' :=
  h.mono (fun _ _ => id) fun r s _ => hpost r s

/-- A program that may be run from more states. -/
theorem Upholds.at_ (pre : σ → Prop) (h : Upholds F pre m post) (hpre : ∀ s, F.inv s → pre' s → pre s) :
    Upholds F pre' m post := h.mono hpre fun _ _ _ => id

/-- What every step of the frame leaves true stays true. -/
theorem Upholds.lasts {P : σ → Prop} (h : Upholds F pre m post)
    (hP : ∀ s s', F.inv s → F.inv s' → F.step s s' → P s → P s') :
    Upholds F (fun s => pre s ∧ P s) m fun r s => post r s ∧ P s := by
  rintro w s hs ⟨hpre, hp⟩
  obtain ⟨hstep, hinv, hpost⟩ := h w s hs hpre
  exact ⟨hstep, hinv, hpost, hP _ _ hs hinv hstep hp⟩

theorem Upholds.of_exists {ι : Type} {P : ι → σ → Prop} (h : ∀ i, Upholds F (P i) m post) :
    Upholds F (fun s => ∃ i, P i s) m post := fun w s hs ⟨i, hp⟩ => h i w s hs hp

/-- What a state before the program says of everything may be used of the program. -/
theorem Upholds.intro (h : ∀ s, F.inv s → pre s → Upholds F pre m post) : Upholds F pre m post :=
  fun w s hs hp => h s hs hp w s hs hp

theorem keeps_pure (a : α) : Upholds F pre (pure a : Prog W σ ε α) fun r s => r = .ok a ∧ pre s :=
  fun _ s hs hp => ⟨F.refl s, hs, rfl, hp⟩

theorem keeps_fail (e : ε) : Upholds F pre (fail e : Prog W σ ε α) fun r s => r = .error e ∧ pre s :=
  fun _ s hs hp => ⟨F.refl s, hs, rfl, hp⟩

theorem keeps_lift (r : Except ε α) : Upholds F pre (lift r : Prog W σ ε α) fun r' s => r' = r ∧ pre s :=
  fun _ s hs hp => ⟨F.refl s, hs, rfl, hp⟩

theorem keeps_gets (f : σ → α) : Upholds F pre (gets f : Prog W σ ε α) fun r s => r = .ok (f s) ∧ pre s :=
  fun _ s hs hp => ⟨F.refl s, hs, rfl, hp⟩

theorem Upholds.handle {f : Except ε α → Prog W σ ε β} {post' : Except ε β → σ → Prop}
    (hm : Upholds F pre m post) (hf : ∀ r, Upholds F (post r) (f r) post') : Upholds F pre (m.handle f) post' := by
  intro w s hs hp
  obtain ⟨hstep, hinv, hq⟩ := hm w s hs hp
  obtain ⟨hstep', hinv', hq'⟩ := hf _ w _ hinv hq
  exact ⟨F.trans hstep hstep', hinv', hq'⟩

theorem Upholds.bind {f : α → Prog W σ ε β} {post' : Except ε β → σ → Prop} (hm : Upholds F pre m post)
    (hf : ∀ a, Upholds F (post (.ok a)) (f a) post') (he : ∀ e s, post (.error e) s → post' (.error e) s) :
    Upholds F pre (m >>= f) post' := by
  refine Upholds.handle hm fun r => ?_
  cases r with
  | ok a => exact hf a
  | error e => exact (keeps_fail e).weaken fun r s ⟨hr, hp⟩ => hr ▸ he e s hp

/-- The same, with what holds in between given first. -/
theorem Upholds.via (post : Except ε α → σ → Prop) {f : α → Prog W σ ε β} {post' : Except ε β → σ → Prop}
    (hm : Upholds F pre m post) (hf : ∀ a, Upholds F (post (.ok a)) (f a) post')
    (he : ∀ e s, post (.error e) s → post' (.error e) s) : Upholds F pre (m >>= f) post' := hm.bind hf he

end Prog

end Lib
