import Ouro.Lib.Pages
import Ouro.Durable.Digest
import Ouro.Durable.Turns

/-!
# What a tripped breaker refuses

Digests identify contents: the canonical form is faithful, and the catalog keeps for each version the
digest of its own text. A breaker's trip names the version that tripped and has that version's digest
(`Catalogued`, in every store). So an admission under an automatic trip is refused exactly when its
version has the tripped content, unless two texts of the catalog collide under the hash.
-/

namespace Ouro

open Lib Engine Tx

/-! ### Digests -/

namespace Digest

variable {parse : String → Option Document} {sha256 : ByteArray → List UInt8}

/-- Two definitions have one content: documents that are the same value, or texts without a document
that are equal. -/
def SameContent (parse : String → Option Document) (x y : String) : Prop :=
  match parse x, parse y with
  | some a, some b => a.value.Same b.value
  | none, none => x = y
  | _, _ => False

theorem hashed_some {x : String} {a : Document} (h : parse x = some a) :
    hashed parse x = "yaml:" ++ canonical a.value := by
  rw [hashed, h]

theorem hashed_none {x : String} (h : parse x = none) : hashed parse x = "raw:" ++ x := by
  rw [hashed, h]

theorem hashed_eq_iff_same {x y : String} {a b : Document} (hx : parse x = some a)
    (hy : parse y = some b) : hashed parse x = hashed parse y ↔ a.value.Same b.value := by
  rw [hashed_some hx, hashed_some hy, (append_left_injective "yaml:").eq_iff, canonical_eq_iff]

/-- The prefixes tell a text with a document from one without. -/
theorem hashed_ne {x y : String} {a : Document} (hx : parse x = some a) (hy : parse y = none) :
    hashed parse x ≠ hashed parse y := by
  rw [hashed_some hx, hashed_none hy]
  intro h
  have htext := congrArg String.toList h
  simp at htext

theorem hashed_raw_inj {x y : String} (hx : parse x = none) (hy : parse y = none)
    (h : hashed parse x = hashed parse y) : x = y := by
  rw [hashed_none hx, hashed_none hy] at h
  exact append_left_injective "raw:" h

/-- The texts hashed are equal exactly for equal contents. -/
theorem hashed_eq_iff (x y : String) : hashed parse x = hashed parse y ↔ SameContent parse x y := by
  cases hx : parse x with
  | some a =>
    cases hy : parse y with
    | some b => simp only [SameContent, hx, hy, hashed_eq_iff_same hx hy]
    | none =>
      simp only [SameContent, hx, hy]
      exact iff_of_false (hashed_ne hx hy) id
  | none =>
    cases hy : parse y with
    | some b =>
      simp only [SameContent, hx, hy]
      exact iff_of_false (hashed_ne hy hx).symm id
    | none =>
      simp only [SameContent, hx, hy]
      exact ⟨hashed_raw_inj hx hy, fun h => by rw [h]⟩

theorem hexDigit_injOn (m n : Fin 16) (h : hexDigit m = hexDigit n) : m = n := by
  revert m n
  decide

theorem hex_injective : Function.Injective hex := by
  intro b c h
  simp only [hex, List.cons.injEq, and_true] at h
  have hb := b.toNat_lt
  have hc := c.toNat_lt
  have hhigh := hexDigit_injOn ⟨b.toNat / 16, by omega⟩ ⟨c.toNat / 16, by omega⟩ h.1
  have hlow := hexDigit_injOn ⟨b.toNat % 16, by omega⟩ ⟨c.toNat % 16, by omega⟩ h.2
  simp only [Fin.mk.injEq] at hhigh hlow
  exact UInt8.toNat_inj.mp (by omega)

theorem flatMap_hex_injective : Function.Injective fun l : List UInt8 => l.flatMap hex := by
  intro l
  induction l with
  | nil =>
    intro l' h
    cases l' with
    | nil => rfl
    | cons b l' => simp [hex] at h
  | cons a l ih =>
    intro l' h
    cases l' with
    | nil => simp [hex] at h
    | cons b l' =>
      obtain ⟨hab, hrest⟩ := List.append_inj (by simpa using h) (by simp [hex])
      rw [hex_injective hab, ih hrest]

theorem digestOf_ne_empty (hsha : ∀ text, sha256 text ≠ []) (x : String) :
    digestOf parse sha256 x ≠ "" := by
  intro h
  have hempty : (sha256 (hashed parse x).toUTF8).flatMap hex = [].flatMap hex := by
    simpa [digestOf] using congrArg String.toList h
  exact hsha _ (flatMap_hex_injective hempty)

/-- The hash confuses the texts hashed for two definitions. -/
def Collides (parse : String → Option Document) (sha256 : ByteArray → List UInt8) (x y : String) :
    Prop :=
  hashed parse x ≠ hashed parse y ∧
    sha256 (hashed parse x).toUTF8 = sha256 (hashed parse y).toUTF8

theorem digestOf_eq_iff {x y : String} (h : ¬Collides parse sha256 x y) :
    digestOf parse sha256 x = digestOf parse sha256 y ↔ SameContent parse x y := by
  rw [← hashed_eq_iff]
  constructor
  · intro heq
    by_contra hne
    exact h ⟨hne, flatMap_hex_injective (String.ofList_injective heq)⟩
  · intro heq
    rw [digestOf, heq, digestOf]

end Digest

/-! ### The catalog -/

variable {env : Env} {now : Int}

/-- The versions have the digests of their texts, and the active version and the tripped one are among
them; a trip has the digest of its version. -/
structure Catalogued (env : Env) (defs : Definitions) : Prop where
  digest : ∀ v d, defs.versions.get v = some d → d.digest = env.digestOf d.yaml
  active : ∀ v, defs.active = some v → ∃ d, defs.versions.get v = some d
  tripped : ∀ t, defs.tripped = some t → ∃ d, defs.versions.get t.version = some d ∧ t.digest = d.digest

theorem Catalogued.default (env : Env) : Catalogued env .default :=
  ⟨by simp [Definitions.default], by simp [Definitions.default], by simp [Definitions.default]⟩

/-- The rows of definitions in the store. -/
def Contents (env : Env) (σ : Rows) : Prop :=
  ∀ name defs, σ.definitions.get name = some defs → Catalogued env defs

namespace Contents

variable {σ σ' : Rows} {name : String} {defs : Definitions}

theorem of_eq (hσ : Contents env σ) (h : σ'.definitions = σ.definitions) : Contents env σ' := by
  intro name defs hdefs
  rw [h] at hdefs
  exact hσ name defs hdefs

theorem getD (hσ : Contents env σ) (name : String) :
    Catalogued env ((σ.definitions.get name).getD .default) := by
  cases h : σ.definitions.get name with
  | none => exact .default env
  | some defs => exact hσ name defs h

/-- One row is written. -/
theorem put (hσ : Contents env σ) (h : σ'.definitions = σ.definitions.put name defs)
    (hdefs : Catalogued env defs) : Contents env σ' := by
  intro n d hd
  rw [h, Table.get_put] at hd
  split at hd
  · rwa [← Option.some.inj hd]
  · exact hσ n d hd

end Contents

theorem versionDigest_of_get {defs : Definitions} {v : Nat} {d : Definition}
    (h : defs.versions.get v = some d) : versionDigest defs v = d.digest := by
  simp [versionDigest, h]

theorem Observes.contents {r : SavedRun} {fault : Option WorkflowError} {success : Bool} {default : Nat}
    {σ σ' : Rows} (h : Observes env r fault success default now σ σ') {env' : Env}
    (hσ : Contents env' σ) : Contents env' σ' := by
  cases h with
  | nothing => exact hσ
  | reset defs hdefs =>
    have hrow := hσ _ defs hdefs
    exact hσ.put rfl ⟨hrow.digest, hrow.active, hrow.tripped⟩
  | counted defs reason hdefs =>
    have hrow := hσ _ defs hdefs
    exact hσ.put rfl ⟨hrow.digest, hrow.active, hrow.tripped⟩
  | tripped defs reason threshold σ₁ hdefs hcounts hfault hthreshold hreached harm =>
    have hrow := hσ _ defs hdefs
    have hσ₁ : Contents env' σ₁ := hσ.of_eq harm.definitions
    refine hσ₁.put rfl ⟨hrow.digest, hrow.active, ?_⟩
    -- the version that trips is the active one
    rintro t ht
    obtain rfl := Option.some.inj ht
    obtain ⟨d, hd⟩ := hrow.active _ hcounts.active
    exact ⟨d, hd, versionDigest_of_get hd⟩

instance : RunFrame (Tx.Keeps (Contents env)) where
  core _ _ _ hσ := hσ.of_eq rfl

instance : TotalFrame (Tx.Keeps (Contents env)) where
  book _ _ h hσ := hσ.of_eq h.definitions
  trigger _ _ := .bind .read fun _ => .write fun _ hσ => hσ.of_eq rfl
  breaker _ _ _ _ _ _ _ _ _ h hσ := (breaker_ok h).contents hσ
  bucket _ _ _ _ _ := .write fun _ hσ => hσ.of_eq rfl

namespace Engine

variable {σ σ' : Rows}

/-- A new version has a number of its own. -/
theorem nextVersion_fresh {defs : Definitions} {n : Nat} (h : nextVersion defs = some n) :
    defs.versions.get n = none := by
  by_contra hsome
  obtain ⟨d, hd⟩ := Option.ne_none_iff_exists'.mp hsome
  have hmem : n ∈ defs.versions.keys := (Table.mem_keys _).mpr ⟨d, hd⟩
  unfold nextVersion at h
  cases hlast : defs.versions.keys.getLast? with
  | none =>
    rw [List.getLast?_eq_none_iff.mp hlast] at hmem
    simp at hmem
  | some v =>
    have hsorted : defs.versions.keys.Pairwise (· < ·) := by
      rw [Table.keys, List.pairwise_map]
      exact defs.versions.rows_sorted
    have hle := le_getLast hsorted hmem hlast
    simp only [hlast] at h
    split at h
    · simp only [Option.some.injEq] at h
      omega
    · simp at h

theorem saveDefinition_contents {name yaml : String} {breaker : Breaker} {r : Definition}
    (hσ : Contents env σ) (h : saveDefinition env name yaml breaker σ = .ok (r, σ')) :
    Contents env σ' := by
  simp only [saveDefinition, bind_ok, read_ok, orFail_ok, storeDefinitions, write_ok, pure_ok] at h
  obtain ⟨found, σ₁, ⟨rfl, rfl⟩, version, σ₂, ⟨hversion, rfl⟩, u, σ₃, rfl, -, rfl⟩ := h
  have hrow := hσ.getD name
  have hfresh := nextVersion_fresh hversion
  -- the other versions stay
  have hkept : ∀ {v d} (d' : Definition), ((σ₂.definitions.get name).getD .default).versions.get v = some d →
      (((σ₂.definitions.get name).getD .default).versions.put version d').get v = some d := by
    intro v d d' hd
    rw [Table.get_put, if_neg, hd]
    rintro rfl
    rw [hfresh] at hd
    simp at hd
  refine hσ.put rfl ⟨fun v d hd => ?_, fun v hv => ?_, fun t ht => ?_⟩
  · rw [Table.get_put] at hd
    split at hd
    · rw [← Option.some.inj hd]
    · exact hrow.digest v d hd
  · obtain ⟨d, hd⟩ := hrow.active v hv
    exact ⟨d, hkept _ hd⟩
  · obtain ⟨d, hd, heq⟩ := hrow.tripped t ht
    exact ⟨d, hkept _ hd, heq⟩

theorem activate_contents {name : String} {version : Nat} {epoch : Option Nat}
    {triggers : Table String Trigger} {activation : Activation} {r : Option Definitions}
    (hσ : Contents env σ) (h : activate name version epoch triggers activation σ = .ok (r, σ')) :
    Contents env σ' := by
  simp only [activate, bind_ok, read_ok, ensure_ok] at h
  obtain ⟨found, σ₁, ⟨rfl, rfl⟩, u, σ₂, ⟨hstored, rfl⟩, h⟩ := h
  split at h
  · rw [(pure_ok.mp h).2]
    exact hσ
  · simp only [bind_ok, ensure_ok, write_ok, pure_ok, storeDefinitions] at h
    obtain ⟨u₁, σ₃, ⟨-, rfl⟩, u₂, σ₄, rfl, defs, σ₅, harm, u₃, σ₆, rfl, -, rfl⟩ := h
    obtain ⟨rfl, harmed⟩ := arm_ok harm
    have hrow := hσ.getD name
    have hσ₅ : Contents env σ₅ := hσ.of_eq harmed.definitions
    refine hσ₅.put rfl ⟨hrow.digest, fun v hv => ?_, fun t ht => ?_⟩
    · -- the version activated is a stored one
      obtain rfl := Option.some.inj hv
      exact Option.isSome_iff_exists.mp hstored
    · cases ht

theorem pause_contents {request : Request} {name note : String} {b : Bool} (hσ : Contents env σ)
    (h : pause request name note now σ = .ok (b, σ')) : Contents env σ' := by
  simp only [pause, knownDefinitions, bind_ok, read_ok, orFail_ok] at h
  obtain ⟨defs, σ₁, ⟨found, σ₂, ⟨hfound, rfl⟩, hdefs, rfl⟩, h⟩ := h
  have hrow := hσ name defs (hfound.symm.trans hdefs)
  cases htrip : defs.tripped with
  | some trip =>
    simp only [htrip] at h
    split at h
    · simp only [suspend, bind_ok, storeDefinitions, write_ok, pure_ok] at h
      obtain ⟨defs', σ₃, ⟨u, σ₅, rfl, harm⟩, u', σ₄, rfl, -, rfl⟩ := h
      obtain ⟨rfl, harmed⟩ := arm_ok harm
      have hσ₃ : Contents env σ₃ := hσ.of_eq harmed.definitions
      refine hσ₃.put rfl ⟨hrow.digest, hrow.active, fun t ht => ?_⟩
      -- the pause stands beside the breaker's report
      obtain rfl := Option.some.inj ht
      exact hrow.tripped trip htrip
    · rw [(pure_ok.mp h).2]
      exact hσ
  | none =>
    simp only [htrip, suspend, bind_ok, orFail_ok, storeDefinitions, write_ok, pure_ok] at h
    obtain ⟨version, σ₃, ⟨hactive, rfl⟩, defs', σ₄, ⟨u, σ₆, rfl, harm⟩, u', σ₅, rfl, -, rfl⟩ := h
    obtain ⟨rfl, harmed⟩ := arm_ok harm
    have hσ₄ : Contents env σ₄ := hσ.of_eq harmed.definitions
    refine hσ₄.put rfl ⟨hrow.digest, hrow.active, fun t ht => ?_⟩
    obtain rfl := Option.some.inj ht
    obtain ⟨d, hd⟩ := hrow.active version hactive
    exact ⟨d, hd, versionDigest_of_get hd⟩

theorem resume_contents {name : String} {b : Bool} (hσ : Contents env σ)
    (h : resume env name now σ = .ok (b, σ')) : Contents env σ' := by
  simp only [resume, knownDefinitions, bind_ok, read_ok, orFail_ok] at h
  obtain ⟨defs, σ₁, ⟨found, σ₂, ⟨hfound, rfl⟩, hdefs, rfl⟩, h⟩ := h
  have hrow := hσ name defs (hfound.symm.trans hdefs)
  cases htrip : defs.tripped with
  | none =>
    simp only [htrip, pure_ok] at h
    rw [h.2]
    exact hσ
  | some trip =>
    simp only [htrip, bind_ok, ensure_ok, read_ok, orFail_ok, storeDefinitions, write_ok, pure_ok] at h
    obtain ⟨u₁, σ₃, ⟨-, rfl⟩, p, σ₄, ⟨rfl, rfl⟩, held, σ₅, ⟨hheld, rfl⟩, u₂, σ₆, ⟨-, rfl⟩, defs', σ₇,
      harm, u₃, σ₈, hrestore, u₄, σ₉, rfl, u₅, σ₁₀, rfl, u₆, σ₁₁, hdrain, -, rfl⟩ := h
    obtain ⟨rfl, -⟩ := arm_ok harm
    have harmed : Contents env σ₇ := arm_catalog (R := Tx.Keeps (Contents env)) _ _ harm hσ
    have hrestored : Contents env σ₈ := by
      refine Steps.each (R := Tx.Keeps (Contents env)) (fun row => ?_) _ hrestore harmed
      exact .bind .ensure fun _ => .write fun _ hσ => hσ.of_eq rfl
    refine drainQueues_catalog (R := Tx.Keeps (Contents env)) name hdrain
      (hrestored.put rfl ⟨hrow.digest, hrow.active, fun t ht => ?_⟩)
    -- a breaker's trip under the pause stays
    by_cases hbreaker : trip.breaker = true
    · simp only [hbreaker, if_true, Option.some.injEq] at ht
      obtain rfl := ht
      exact hrow.tripped trip htrip
    · simp [hbreaker] at ht

end Engine

/-- Every turn keeps the digests of the catalog. -/
theorem Turn.contents {op : Op} {σ σ' : Rows} (hσ : Contents env σ) (h : Turn env op σ σ') :
    Contents env σ' := by
  have hworks : ∀ {now σ σ'}, Contents env σ → Works env now σ σ' → Contents env σ' :=
    fun hσ h => hσ.of_eq h.plan.definitions
  cases h with
  -- the calls that write no definition
  | works h => exact hworks hσ h
  | drains hdrain h => exact hworks (drainMarked_catalog (R := Tx.Keeps (Contents env)) _ hdrain hσ) h
  | pending h => exact drainPending_catalog (R := Tx.Keeps (Contents env)) _ h hσ
  -- the end of a run: the breaker may store a trip, of the run's own version
  | ends h hrest =>
    obtain ⟨s, status, σ₂, -, hterm, hend⟩ := h
    refine hworks (terminate_catalog (R := Tx.Keeps (Contents env)) _ _ hend ?_) hrest
    cases hterm with
    | cancel => exact hσ
    | finish hs ht hstore hb =>
      exact (breaker_ok hb).contents (storeRun_frame (R := Tx.Keeps (Contents env)) _ hstore hσ)
  -- a firing stores triggers, not definitions
  | fires hop h =>
    exact fire_catalog (R := Tx.Keeps (Contents env))
      (fun _ _ _ => .write fun _ hσ => hσ.of_eq rfl) _ h hσ
  | activates hop h => exact activate_contents hσ h
  | saves h => exact saveDefinition_contents hσ h
  -- an acknowledged notice is taken off the notices
  | acknowledges h =>
    refine hσ.of_eq ?_
    simp only [acknowledge, bind_ok, read_ok] at h
    obtain ⟨found, σ₁, ⟨-, rfl⟩, h⟩ := h
    split at h
    · simp only [bind_ok, write_ok, pure_ok] at h
      obtain ⟨u, σ₂, rfl, -, rfl⟩ := h
      rfl
    · rw [(pure_ok.mp h).2]
  | pauses h hrest => exact hworks (pause_contents hσ h) hrest
  | resumes h hrest => exact hworks (resume_contents hσ h) hrest
  -- a stop sets the flag, and one that is lifted drains what was deferred
  | stops h hrest =>
    refine hworks ?_ hrest
    simp only [stop, isStopped, bind_ok, read_ok] at h
    obtain ⟨stopped, σ₁, ⟨-, rfl⟩, h⟩ := h
    split at h
    · rw [(pure_ok.mp h).2]
      exact hσ
    · split at h
      · simp only [bind_ok, write_ok, pure_ok] at h
        obtain ⟨u, σ₂, rfl, -, rfl⟩ := h
        exact hσ.of_eq rfl
      · simp only [bind_ok, write_ok, pure_ok] at h
        obtain ⟨u, σ₂, rfl, u', σ₃, hdrain, -, rfl⟩ := h
        exact drainPending_catalog (R := Tx.Keeps (Contents env)) _ hdrain (hσ.of_eq rfl)

/-- In every store the versions have the digests of their texts, and the trips those of their
versions. -/
theorem contents_after (env : Env) (history : List Op) : Contents env (after env history) := by
  have hkept : Good (after env history) ∧ Contents env (after env history) := by
    refine runs_keep (I := fun σ => Good σ ∧ Contents env σ)
      ⟨Good.empty, fun name defs h => by simp [Rows.empty] at h⟩ ?_ history
    rintro σ op ⟨hgood, hσ⟩
    refine ⟨step_good env hgood op, ?_⟩
    rcases step_turn env hgood op with heq | hturn
    · rwa [heq]
    · exact hturn.contents hσ
  exact hkept.2

/-! ### What a trip refuses -/

/-- An automatic trip refuses the tripped digest, and a version the catalog does not hold. -/
theorem barred_automatic {defs : Definitions} {a : Admission} {t : Trip} (ht : defs.tripped = some t)
    (hauto : t.manual = none) : (barred (some defs) a).isSome = true ↔
      digest (some defs) a = "" ∨ digest (some defs) a = t.digest := by
  simp [barred, ht, hauto]

theorem digest_of_get {defs : Definitions} {a : Admission} {d : Definition}
    (h : defs.versions.get a.version = some d) : digest (some defs) a = d.digest := by
  simp [digest, h]

/-- The digest's canonical form is faithful. The texts hashed for two definitions with documents are
equal exactly when the documents are the same value, objects being unordered; a text without a document
is hashed apart from those and from every other one. So in every store an automatic trip stands for the
content of the version it names, and refuses a version of the catalog exactly when it has that content,
unless the two texts collide under the hash. -/
theorem canonical_form_faithful (parse : String → Option Document) (sha256 : ByteArray → List UInt8)
    (hsha : ∀ text, sha256 text ≠ []) :
    (∀ x y a b, parse x = some a → parse y = some b →
      (Digest.hashed parse x = Digest.hashed parse y ↔ a.value.Same b.value)) ∧
    (∀ x y a, parse x = some a → parse y = none → Digest.hashed parse x ≠ Digest.hashed parse y) ∧
    (∀ x y, parse x = none → parse y = none → Digest.hashed parse x = Digest.hashed parse y → x = y) ∧
    ∀ (env : Env) (history : List Op) (name : String) (defs : Definitions) (t : Trip),
      env.digestOf = Digest.digestOf parse sha256 →
      (after env history).definitions.get name = some defs → defs.tripped = some t → t.manual = none →
      ∃ tripped, defs.versions.get t.version = some tripped ∧
        ∀ (a : Admission) (d : Definition), defs.versions.get a.version = some d →
          ¬Digest.Collides parse sha256 d.yaml tripped.yaml →
          ((barred (some defs) a).isSome = true ↔ Digest.SameContent parse d.yaml tripped.yaml) := by
  refine ⟨fun x y a b => Digest.hashed_eq_iff_same, fun x y a => Digest.hashed_ne,
    fun x y => Digest.hashed_raw_inj, ?_⟩
  intro env history name defs t henv hdefs ht hauto
  have hrow : Catalogued env defs := contents_after env history name defs hdefs
  obtain ⟨tripped, htripped, hdigest⟩ := hrow.tripped t ht
  refine ⟨tripped, htripped, fun a d hd hcollide => ?_⟩
  -- both digests are those of stored texts, and no digest is empty
  have hd' : d.digest = Digest.digestOf parse sha256 d.yaml := by
    rw [hrow.digest _ d hd, henv]
  have ht' : t.digest = Digest.digestOf parse sha256 tripped.yaml := by
    rw [hdigest, hrow.digest _ tripped htripped, henv]
  have hne : d.digest ≠ "" := by
    rw [hd']
    exact Digest.digestOf_ne_empty hsha d.yaml
  rw [barred_automatic ht hauto, digest_of_get hd, or_iff_right hne, hd', ht',
    Digest.digestOf_eq_iff hcollide]

/-- A document with two members, in two orders, and a text without a document. -/
def spelled (text : String) : Option Document :=
  let document (m m' : String × Int) (h : m.1 ≠ m'.1) : Document :=
    { value := .obj [(m.1, .num (.int m.2)), (m'.1, .num (.int m'.2))]
      wellFormed := .obj (by simpa using h) (by simp [Json.WellFormed.num (Number.printed_int _)]) }
  if text = "b: 2\na: 1" then some (document ("b", 2) ("a", 1) (by decide))
  else if text = "\x7ba: 1, b: 2\x7d" then some (document ("a", 1) ("b", 2) (by decide))
  else none

/-- The hash of the text of that document; 32 other bytes elsewhere. -/
def hashOf (text : ByteArray) : List UInt8 :=
  if text.data = "yaml:\x7b\"a\":1,\"b\":2\x7d".toUTF8.data then
    [229, 5, 163, 252, 5, 243, 101, 7, 127, 69, 149, 73, 69, 131, 109, 16, 171, 1, 1, 196, 7, 69, 168, 98,
      176, 136, 235, 196, 82, 18, 153, 5]
  else List.replicate 32 0

/-- Key order does not matter. -/
theorem spellings_hashed_alike :
    Digest.hashed spelled "b: 2\na: 1" = Digest.hashed spelled "\x7ba: 1, b: 2\x7d" := by
  refine ((canonical_form_faithful spelled hashOf ?_).1 _ _ _ _ rfl rfl).mpr ?_
  · intro text
    unfold hashOf
    split <;> simp
  · refine .obj (by simp [or_comm]) fun k v v' hv hv' => ?_
    simp only [List.mem_cons, Prod.mk.injEq, List.not_mem_nil, or_false] at hv hv'
    rcases hv with ⟨rfl, rfl⟩ | ⟨rfl, rfl⟩ <;> simp at hv' <;> exact hv' ▸ .num rfl

end Ouro
