import Mathlib.Data.List.Chain
import Ouro.Runtime.Coverage

/-!
# The start check

Before a run starts or resumes, every function its definition can call must be registered, directly or
in the child workflows its `run` tasks name, transitively. The check walks the definitions depth first
and keeps the versions it has seen, the path it is on and, across checks, what each version needs.

Each step inserts a version of the catalog that was not seen before, so the walk ends
(`checkTree_total`). What a walk that finds nothing missing has seen is closed under children
(`Walked`), and a missing function ends the walk at once, on the path it was found on (`Missed`).
-/

namespace Ouro.Runtime

open Lib Ows

/-! ### What a definition needs -/

/-- A version of a definition and its text. -/
structure Source where
  name : String
  version : Nat
  yaml : String
deriving DecidableEq

/-- The name and version by which a walk knows a definition. -/
def Source.id (d : Source) : String × Nat := (d.name, d.version)

/-- A child workflow as a `run` task names it. -/
structure ChildTarget where
  space : String
  name : String
  version : String
deriving DecidableEq

/-- What one definition version can call: the first function that is not registered (a host function,
or a process runner), and the child workflows it names. -/
structure Needs where
  missing : Option String
  children : List ChildTarget
deriving DecidableEq

/-- The reserved functions. -/
def builtin (name : String) : Bool := name = "start_child" || name = "child_outcome"

/-- The name a process's calls are recorded under. -/
def processFunction (kind : String) : String := "run:" ++ kind

/-- What a host offers: its functions and, if it has a runner, the kinds of processes it runs. -/
structure Installed where
  registry : String → Option Function
  processes : Option (String → Bool)

/-- The registry knows the function. -/
def Installed.has (host : Installed) (name : String) : Bool := (host.registry name).isSome || builtin name

/-- The host runs processes of the kind. -/
def Installed.runs (host : Installed) (kind : String) : Bool := host.processes.any fun runs => runs kind

/-- Adds what a process needs. -/
def Needs.add (host : Installed) (needs : Needs) : Process → Needs
  | .workflow space name version _ =>
    { needs with children := needs.children ++ [{ space, name, version }] }
  | .external kind _ =>
    if needs.missing.isNone && !host.runs kind then { needs with missing := some (processFunction kind) }
    else needs

/-- What a definition needs of the host. One that does not parse calls nothing. -/
def Needs.of (parse : String → Option Workflow) (host : Installed) (yaml : String) : Needs :=
  match parse yaml with
  | none => { missing := none, children := [] }
  | some wf =>
    let isLocal (name : String) : Bool := wf.functions.any fun f => f.1 = name
    let missing := ((callSites wf).map CallSite.function).find? fun name => !isLocal name && !host.has name
    (processes wf).foldl (Needs.add host) { missing, children := [] }

/-! ### The catalog -/

/-- The stored definitions, each version under its own name and number. -/
structure Catalog where
  definitions : Table String Definitions
  keyed : ∀ name defs version d, definitions.get name = some defs → defs.versions.get version = some d →
    d.name = name ∧ d.version = version

/-- A name's versions; a name without any has none. -/
def Catalog.get (catalog : Catalog) (name : String) : Definitions :=
  (catalog.definitions.get name).getD .default

/-- The text of a stored version. -/
def source (d : Definition) : Source := { name := d.name, version := d.version, yaml := d.yaml }

/-! ### The check -/

/-- How the text of a definition reads: as a workflow, as a document's namespace and version, and as a
hash. -/
structure Reading where
  parse : String → Option Workflow
  document : String → Option (String × String)
  hash : String → UInt64

/-- Definition name, version, hash of its text, registry generation. -/
abbrev CheckKey := String × Nat × UInt64 × Nat

/-- Start checks by definition version and registry generation. -/
abbrev Checks := CheckKey → Option Needs

/-- A function a run would call that the registry does not hold. `path` names the definitions from the
checked one down to the one that calls it. -/
structure MissingFunction where
  function : String
  path : List (String × Nat)
deriving DecidableEq

/-- A walk under way: the path it is on, the versions it has seen, and the checks made so far. -/
structure WalkState where
  path : List (String × Nat)
  seen : List (String × Nat)
  checks : Checks

section Check

variable (reading : Reading) (host : Installed) (generation : Nat) (catalog : Catalog)

/-- The key of a definition's check. -/
def checkKey (d : Source) : CheckKey := (d.name, d.version, reading.hash d.yaml, generation)

/-- What a definition needs, computed once for its key. -/
def Checks.needs (checks : Checks) (d : Source) : Needs × Checks :=
  match checks (checkKey reading generation d) with
  | some needs => (needs, checks)
  | none =>
    let needs := Needs.of reading.parse host d.yaml
    (needs, Function.update checks (checkKey reading generation d) (some needs))

/-- The version a child's `run` task names: the active one for `latest`, else the newest whose document
has that version; its document is in the named namespace. -/
def target (child : ChildTarget) : Option Source :=
  let defs := catalog.get child.name
  let candidate :=
    if child.version = "latest" then defs.active.bind defs.versions.get
    else defs.versions.values.reverse.find? fun d =>
      (reading.document d.yaml).any fun doc => doc.2 = child.version
  (candidate.filter fun d => (reading.document d.yaml).any fun doc => doc.1 = child.space).map source

/-- Goes through the children, and stops at the first error. -/
def eachChild (visit : Source → WalkState → Option (Except MissingFunction Unit × WalkState)) :
    List ChildTarget → WalkState → Option (Except MissingFunction Unit × WalkState)
  | [], walk => some (.ok (), walk)
  | child :: children, walk =>
    match target reading catalog child with
    | none => eachChild visit children walk
    | some d =>
      match visit d walk with
      | some (.ok (), walk) => eachChild visit children walk
      | stopped => stopped

/-- Walks a definition and its children; `none` when the fuel runs out. -/
def checkTree : Nat → Source → WalkState → Option (Except MissingFunction Unit × WalkState)
  | 0, _, _ => none
  | n + 1, d, walk =>
    -- A definition reached twice (a recursive child) was checked already.
    if walk.seen.contains d.id then some (.ok (), walk)
    else
      let path := walk.path ++ [d.id]
      let (needs, checks) := walk.checks.needs reading host generation d
      let walk : WalkState := { path, seen := d.id :: walk.seen, checks }
      match needs.missing with
      | some function => some (.error { function, path }, walk)
      | none =>
        match eachChild reading catalog (checkTree n) needs.children walk with
        | some (.ok (), walk) => some (.ok (), { walk with path := walk.path.dropLast })
        | stopped => stopped

/-- The versions of the catalog. -/
def Catalog.ids : List (String × Nat) :=
  catalog.definitions.rows.flatMap fun row => row.2.versions.keys.map fun version => (row.1, version)

/-- The start check: every function the definition can call is registered. One version more than the
catalog holds can be entered, and a last one is seen already. -/
def check (checks : Checks) (d : Source) : Option (Except MissingFunction Unit × Checks) :=
  (checkTree reading host generation catalog (catalog.ids.length + 2) d
    { path := [], seen := [], checks }).map fun r => (r.1, r.2.checks)

end Check

/-! ### Reachability -/

section Reachability

variable (reading : Reading) (host : Installed) (catalog : Catalog)

/-- What a definition needs. -/
abbrev Reading.needs (d : Source) : Needs := Needs.of reading.parse host d.yaml

/-- A child that a definition names resolves to the version. -/
def Resolves (d e : Source) : Prop :=
  ∃ child ∈ (reading.needs host d).children, target reading catalog child = some e

/-- The catalog holds the version. -/
def Catalog.Holds (d : Source) : Prop :=
  ∃ defs v, catalog.definitions.get d.name = some defs ∧ defs.versions.get d.version = some v ∧
    source v = d

/-- A walk from `root` can meet the version. -/
def Known (root d : Source) : Prop := d = root ∨ catalog.Holds d

end Reachability

variable {reading : Reading} {host : Installed} {generation : Nat} {catalog : Catalog}

theorem holds_of_get {name : String} {version : Nat} {v : Definition}
    (h : (catalog.get name).versions.get version = some v) : catalog.Holds (source v) := by
  unfold Catalog.get at h
  cases hdefs : catalog.definitions.get name with
  | none =>
    rw [hdefs, Option.getD_none] at h
    exact absurd h (by simp [Definitions.default])
  | some defs =>
    rw [hdefs, Option.getD_some] at h
    have ⟨hname, hversion⟩ := catalog.keyed name defs version v hdefs h
    subst hname hversion
    exact ⟨defs, v, hdefs, h, rfl⟩

/-- A child resolves to a version the catalog holds. -/
theorem target_holds {child : ChildTarget} {d : Source} (h : target reading catalog child = some d) :
    catalog.Holds d := by
  obtain ⟨v, hv, rfl⟩ := Option.map_eq_some_iff.mp h
  have hv := (Option.filter_eq_some_iff.mp hv).1
  split at hv
  · obtain ⟨version, _, hget⟩ := Option.bind_eq_some_iff.mp hv
    exact holds_of_get hget
  · have hmem := List.mem_reverse.mp (List.mem_of_find?_eq_some hv)
    obtain ⟨version, hget⟩ := (Table.mem_values _).mp hmem
    exact holds_of_get hget

theorem Resolves.holds {d e : Source} (h : Resolves reading host catalog d e) : catalog.Holds e := by
  obtain ⟨child, _, htarget⟩ := h
  exact target_holds htarget

theorem Catalog.Holds.unique {d e : Source} (hd : catalog.Holds d) (he : catalog.Holds e)
    (h : d.id = e.id) : d = e := by
  obtain ⟨hname, hversion⟩ := Prod.mk.inj h
  obtain ⟨defs, v, hdefs, hv, rfl⟩ := hd
  obtain ⟨defs', v', hdefs', hv', rfl⟩ := he
  rw [hname, hdefs'] at hdefs
  cases hdefs
  rw [hversion, hv'] at hv
  cases hv
  rfl

theorem Catalog.Holds.mem_ids {d : Source} (h : catalog.Holds d) : d.id ∈ catalog.ids := by
  obtain ⟨defs, v, hdefs, hv, _⟩ := h
  refine List.mem_flatMap.mpr ⟨(d.name, defs), (Table.mem_rows _).mpr hdefs, ?_⟩
  exact List.mem_map.mpr ⟨d.version, (Table.mem_keys _).mpr ⟨v, hv⟩, rfl⟩

/-! ### One walk -/

section Walk

variable {root : Source} (hroot : ∀ d, catalog.Holds d → d.id = root.id → d = root)

theorem Known.mem_ids {d : Source} (h : Known catalog root d) : d.id ∈ root.id :: catalog.ids := by
  rcases h with rfl | h
  · exact List.mem_cons_self
  · exact List.mem_cons_of_mem _ h.mem_ids

include hroot in
/-- A walk tells the versions it meets apart by name and number. -/
theorem Known.unique {d e : Source} (hd : Known catalog root d) (he : Known catalog root e)
    (h : d.id = e.id) : d = e := by
  rcases hd with rfl | hd
  · rcases he with rfl | he
    · rfl
    · exact (hroot e he h.symm).symm
  · rcases he with rfl | he
    · exact hroot d hd h
    · exact hd.unique he h

variable (reading host generation catalog root) in
/-- The checks made so far are right about every version a walk can meet. -/
def Right (checks : Checks) : Prop :=
  ∀ d, Known catalog root d → ∀ needs, checks (checkKey reading generation d) = some needs →
    needs = reading.needs host d

include hroot in
/-- A definition's needs are what its text needs, and stay right. -/
theorem needs_right {checks : Checks} (hright : Right reading host generation catalog root checks)
    {d : Source} (hd : Known catalog root d) :
    (checks.needs reading host generation d).1 = reading.needs host d ∧
      Right reading host generation catalog root (checks.needs reading host generation d).2 := by
  unfold Checks.needs
  cases hfound : checks (checkKey reading generation d) with
  | some needs => exact ⟨hright d hd needs hfound, hright⟩
  | none =>
    refine ⟨rfl, fun e he needs hneeds => ?_⟩
    by_cases hkey : checkKey reading generation e = checkKey reading generation d
    · have heq : e = d := he.unique hroot hd (by
        unfold checkKey at hkey
        simp only [Prod.mk.injEq] at hkey
        exact Prod.ext hkey.1 hkey.2.1)
      subst heq
      simpa using hneeds.symm
    · exact hright e he needs (by simpa [hkey] using hneeds)

variable (catalog root) in
/-- How many versions a walk has not seen. -/
def unseen (seen : List (String × Nat)) : Nat :=
  ((root.id :: catalog.ids).toFinset \ seen.toFinset).card

theorem unseen_mono {seen seen' : List (String × Nat)} (h : seen ⊆ seen') :
    unseen catalog root seen' ≤ unseen catalog root seen := by
  apply Finset.card_le_card
  intro x hx
  simp only [Finset.mem_sdiff, List.mem_toFinset] at hx ⊢
  exact ⟨hx.1, fun hseen => hx.2 (h hseen)⟩

theorem unseen_insert {d : Source} (hd : Known catalog root d) {seen : List (String × Nat)}
    (hnew : d.id ∉ seen) : unseen catalog root (d.id :: seen) < unseen catalog root seen := by
  apply Finset.card_lt_card
  refine Finset.ssubset_iff_of_subset ?_ |>.mpr ⟨d.id, ?_, ?_⟩
  · intro x hx
    simp only [Finset.mem_sdiff, List.mem_toFinset, List.mem_cons, not_or] at hx ⊢
    exact ⟨hx.1, hx.2.2⟩
  · simpa [hnew] using hd.mem_ids
  · simp

variable (reading host catalog root) in
/-- A walk that found nothing missing: it is back on its path, and what it saw needs nothing missing
and has had its children seen. -/
structure Walked (before after : WalkState) : Prop where
  path : after.path = before.path
  seen : before.seen ⊆ after.seen
  closed : ∀ x, Known catalog root x → x.id ∈ after.seen → x.id ∉ before.seen →
    (reading.needs host x).missing = none ∧ ∀ y, Resolves reading host catalog x y → y.id ∈ after.seen

theorem Walked.refl (walk : WalkState) : Walked reading host catalog root walk walk :=
  ⟨rfl, List.Subset.refl _, fun _ _ hin hout => absurd hin hout⟩

theorem Walked.trans {a b c : WalkState} (hab : Walked reading host catalog root a b)
    (hbc : Walked reading host catalog root b c) : Walked reading host catalog root a c := by
  refine ⟨hbc.path.trans hab.path, fun x hx => hbc.seen (hab.seen hx), fun x hx hin hout => ?_⟩
  by_cases hb : x.id ∈ b.seen
  · have ⟨hmissing, hchildren⟩ := hab.closed x hx hb hout
    exact ⟨hmissing, fun y hy => hbc.seen (hchildren y hy)⟩
  · exact hbc.closed x hx hin hb

variable (reading host catalog) in
/-- A function is missing, found by going from `d` to children: the path goes on from `path` along
them, and the last definition needs the function. -/
def Missed (path : List (String × Nat)) (d : Source) (e : MissingFunction) : Prop :=
  ∃ chain : List Source, e.path = path ++ chain.map Source.id ∧ chain.head? = some d ∧
    chain.IsChain (Resolves reading host catalog) ∧
    ∃ last, chain.getLast? = some last ∧ (reading.needs host last).missing = some e.function

theorem Missed.child {path : List (String × Nat)} {d c : Source} {e : MissingFunction}
    (h : Missed reading host catalog (path ++ [d.id]) c e) (hc : Resolves reading host catalog d c) :
    Missed reading host catalog path d e := by
  obtain ⟨chain, hpath, hhead, hchain, last, hlast, hmissing⟩ := h
  refine ⟨d :: chain, ?_, rfl, ?_, last, ?_, hmissing⟩
  · rw [hpath, List.map_cons, List.append_assoc, List.singleton_append]
  · refine List.isChain_cons.mpr ⟨fun y hy => ?_, hchain⟩
    rw [hhead] at hy
    cases hy
    exact hc
  · cases chain with
    | nil => exact absurd hhead (by simp)
    | cons => rwa [List.getLast?_cons_cons]

variable (reading host generation catalog root) in
/-- What came of walking a definition, or a list of children. -/
def Outcome (before : WalkState) (found : WalkState → Prop) (missed : MissingFunction → Prop)
    (result : Option (Except MissingFunction Unit × WalkState)) : Prop :=
  ∃ r after, result = some (r, after) ∧ Right reading host generation catalog root after.checks ∧
    (r = .ok () → Walked reading host catalog root before after ∧ found after) ∧
    ∀ e, r = .error e → missed e

variable (reading host generation catalog root) in
/-- What walking the definition comes to. -/
abbrev Visited (d : Source) (walk : WalkState) :
    Option (Except MissingFunction Unit × WalkState) → Prop :=
  Outcome reading host generation catalog root walk (fun after => d.id ∈ after.seen)
    (Missed reading host catalog walk.path d)

/-- Going through the children, when walking each of them comes to an end. -/
theorem eachChild_outcome {n : Nat}
    {visit : Source → WalkState → Option (Except MissingFunction Unit × WalkState)}
    (hvisit : ∀ d walk, Known catalog root d → Right reading host generation catalog root walk.checks →
      unseen catalog root walk.seen < n →
      Visited reading host generation catalog root d walk (visit d walk))
    (children : List ChildTarget) (walk : WalkState)
    (hright : Right reading host generation catalog root walk.checks)
    (hfuel : unseen catalog root walk.seen < n) :
    Outcome reading host generation catalog root walk
      (fun after => ∀ child ∈ children, ∀ d, target reading catalog child = some d → d.id ∈ after.seen)
      (fun e => ∃ child ∈ children, ∃ d, target reading catalog child = some d ∧
        Missed reading host catalog walk.path d e)
      (eachChild reading catalog visit children walk) := by
  -- Induction on the children that are left.
  induction children generalizing walk with
  | nil => exact ⟨.ok (), walk, rfl, hright, fun _ => ⟨.refl walk, by simp⟩, by simp⟩
  | cons child children ih =>
    unfold eachChild
    -- A child that names no version of the catalog is not walked.
    cases htarget : target reading catalog child with
    | none =>
      obtain ⟨r, after, hres, hright', hok, herr⟩ := ih walk hright hfuel
      refine ⟨r, after, hres, hright', fun hr => ⟨(hok hr).1, ?_⟩, fun e he => ?_⟩
      · refine List.forall_mem_cons.mpr ⟨fun d hd => ?_, (hok hr).2⟩
        rw [htarget] at hd
        exact absurd hd (by simp)
      · obtain ⟨c, hc, hrest⟩ := herr e he
        exact ⟨c, List.mem_cons_of_mem _ hc, hrest⟩
    | some d =>
      have hknown : Known catalog root d := .inr (target_holds htarget)
      obtain ⟨r, after, hres, hright', hok, herr⟩ := hvisit d walk hknown hright hfuel
      simp only [hres]
      -- The walk of the first child found something missing, or what it has seen is closed.
      cases r with
      | error e =>
        refine ⟨.error e, after, rfl, hright', by simp, fun e' he => ?_⟩
        cases he
        exact ⟨child, List.mem_cons_self, d, htarget, herr e rfl⟩
      | ok u =>
        obtain ⟨hwalked, hseen⟩ := hok rfl
        have hfuel' := (unseen_mono hwalked.seen).trans_lt hfuel
        obtain ⟨r, last, hres', hright'', hok', herr'⟩ := ih after hright' hfuel'
        refine ⟨r, last, hres', hright'', fun hr => ?_, fun e he => ?_⟩
        · obtain ⟨hwalked', hseen'⟩ := hok' hr
          refine ⟨hwalked.trans hwalked', List.forall_mem_cons.mpr ⟨fun d' hd' => ?_, hseen'⟩⟩
          rw [htarget] at hd'
          cases hd'
          exact hwalked'.seen hseen
        · obtain ⟨c, hc, hrest⟩ := herr' e he
          rw [hwalked.path] at hrest
          exact ⟨c, List.mem_cons_of_mem _ hc, hrest⟩

include hroot in
/-- A walk comes to an end when its fuel exceeds the versions it has not seen. -/
theorem checkTree_outcome {n : Nat} : ∀ (d : Source) (walk : WalkState), Known catalog root d →
    Right reading host generation catalog root walk.checks → unseen catalog root walk.seen < n →
    Visited reading host generation catalog root d walk
      (checkTree reading host generation catalog n d walk) := by
  -- Induction on the fuel; each step inserts a version that was not seen.
  induction n with
  | zero => exact fun _ _ _ _ hfuel => absurd hfuel (by simp)
  | succ n ih =>
    intro d walk hd hright hfuel
    unfold checkTree
    -- A version that was seen needs nothing more.
    by_cases hseen : d.id ∈ walk.seen
    · rw [if_pos (by simpa using hseen)]
      exact ⟨.ok (), walk, rfl, hright, fun _ => ⟨.refl walk, hseen⟩, by simp⟩
    · rw [if_neg (by simpa using hseen)]
      -- What it needs is read, or known from an earlier check.
      obtain ⟨hneeds, hright'⟩ := needs_right hroot hright hd
      simp only [hneeds]
      cases hmissing : (reading.needs host d).missing with
      | some function =>
        refine ⟨_, _, rfl, hright', by simp, fun e he => ?_⟩
        cases he
        exact ⟨[d], rfl, rfl, List.isChain_singleton _, d, rfl, hmissing⟩
      | none =>
        -- Its children, with one version more seen.
        have hfuel' := unseen_insert hd hseen
        obtain ⟨r, after, hres, hright'', hok, herr⟩ :=
          eachChild_outcome ih (reading.needs host d).children
            ⟨walk.path ++ [d.id], d.id :: walk.seen, _⟩ hright' (by simp only; omega)
        simp only [hres]
        cases r with
        | error e =>
          refine ⟨_, _, rfl, hright'', by simp, fun e' he => ?_⟩
          cases he
          obtain ⟨child, hchild, c, htarget, hmissed⟩ := herr e rfl
          exact hmissed.child ⟨child, hchild, htarget⟩
        | ok u =>
          -- What the walk has seen is closed: this version, whose children were walked, and theirs.
          obtain ⟨hwalked, hchildren⟩ := hok rfl
          have hsub : walk.seen ⊆ after.seen :=
            fun x hx => hwalked.seen (List.mem_cons_of_mem _ hx)
          refine ⟨_, _, rfl, hright'', fun _ => ⟨⟨?_, hsub, ?_⟩, hwalked.seen List.mem_cons_self⟩, by simp⟩
          · simp [hwalked.path]
          · intro x hx hin hout
            by_cases hxd : x.id = d.id
            · obtain rfl := hx.unique hroot hd hxd
              exact ⟨hmissing, fun y ⟨child, hchild, htarget⟩ => hchildren child hchild y htarget⟩
            · exact hwalked.closed x hx hin (by simp [hxd, hout])

end Walk

/-! ### What is missing -/

variable (reading host) in
/-- A run of the definition would call the function, and the host does not have it: it is neither the
definition's own nor registered, or a process of a kind the host does not run. -/
def Lacks (d : Source) (function : String) : Prop :=
  ∃ wf, reading.parse d.yaml = some wf ∧
    ((function ∈ (callSites wf).map CallSite.function ∧ (∀ f ∈ wf.functions, f.1 ≠ function) ∧
        host.has function = false) ∨
      ∃ kind definition, .external kind definition ∈ processes wf ∧ host.runs kind = false ∧
        function = processFunction kind)

/-- The processes add the first of a kind the host does not run, if nothing is missing before. -/
theorem foldl_add_missing (host : Installed) (processes : List Process) (needs : Needs) :
    ((processes.foldl (Needs.add host) needs).missing = none ↔ needs.missing = none ∧
      ∀ kind definition, .external kind definition ∈ processes → host.runs kind = true) ∧
    ∀ function, (processes.foldl (Needs.add host) needs).missing = some function →
      needs.missing = some function ∨ ∃ kind definition, .external kind definition ∈ processes ∧
        host.runs kind = false ∧ function = processFunction kind := by
  -- Induction on the processes.
  induction processes generalizing needs with
  | nil => simp
  | cons process processes ih =>
    obtain ⟨hnone, hsome⟩ := ih (needs.add host process)
    rw [List.foldl_cons]
    -- One process more.
    have hadd : (needs.add host process).missing = none ↔ needs.missing = none ∧
        ∀ kind definition, process = .external kind definition → host.runs kind = true := by
      cases process with
      | workflow => simp [Needs.add]
      | external kind definition =>
        cases hmissing : needs.missing <;> cases hruns : host.runs kind <;>
          simp [Needs.add, hmissing, hruns]
    refine ⟨?_, fun function hfunction => ?_⟩
    · rw [hnone, hadd]
      constructor
      · rintro ⟨⟨hmissing, hfirst⟩, hrest⟩
        refine ⟨hmissing, fun kind definition hmem => ?_⟩
        rcases List.mem_cons.mp hmem with heq | hmem
        · exact hfirst kind definition heq.symm
        · exact hrest kind definition hmem
      · rintro ⟨hmissing, hall⟩
        exact ⟨⟨hmissing, fun kind definition heq => hall kind definition (heq ▸ List.mem_cons_self)⟩,
          fun kind definition hmem => hall kind definition (List.mem_cons_of_mem _ hmem)⟩
    · rcases hsome function hfunction with hfirst | ⟨kind, definition, hmem, hrest⟩
      · cases process with
        | workflow => exact .inl hfirst
        | external kind definition =>
          cases hruns : host.runs kind with
          | true => exact .inl (by simpa [Needs.add, hruns] using hfirst)
          | false =>
            cases hmissing : needs.missing with
            | some found => exact .inl (by simpa [Needs.add, hmissing] using hfirst)
            | none =>
              refine .inr ⟨kind, definition, List.mem_cons_self, hruns, ?_⟩
              simpa [Needs.add, hmissing, hruns, eq_comm] using hfirst
      · exact .inr ⟨kind, definition, List.mem_cons_of_mem _ hmem, hrest⟩

/-- A definition's needs name something missing exactly when the host lacks something. -/
theorem missing_iff {d : Source} :
    ((reading.needs host d).missing = none ↔ ∀ function, ¬Lacks reading host d function) ∧
      ∀ function, (reading.needs host d).missing = some function → Lacks reading host d function := by
  unfold Reading.needs Needs.of Lacks
  cases hparse : reading.parse d.yaml with
  | none => simp
  | some wf =>
    simp only [Option.some.injEq, exists_eq_left']
    set own : String → Bool := fun name => wf.functions.any fun f => f.1 = name
    have hown : ∀ name, own name = false ↔ ∀ f ∈ wf.functions, f.1 ≠ name := by
      -- a name is the definition's own when one of its functions has it
      intro name
      simp [own, List.any_eq_false]
    set found := ((callSites wf).map CallSite.function).find? fun name => !own name && !host.has name
    have ⟨hnone, hsome⟩ := foldl_add_missing host (processes wf) ⟨found, []⟩
    -- none is missing: neither among the calls nor among the runs
    constructor
    · rw [hnone]
      constructor
      · rintro ⟨hfound, hruns⟩ function (⟨hmem, hforeign, hhas⟩ | ⟨kind, definition, hmem, hfalse, _⟩)
        · have := List.find?_eq_none.mp hfound function hmem
          simp [(hown function).mpr hforeign, hhas] at this
        · exact absurd (hruns kind definition hmem) (by simp [hfalse])
      · intro h
        refine ⟨List.find?_eq_none.mpr fun function hmem hlacks => ?_, fun kind definition hmem => ?_⟩
        · simp only [Bool.and_eq_true, Bool.not_eq_true'] at hlacks
          exact h function (.inl ⟨hmem, (hown function).mp hlacks.1, hlacks.2⟩)
        · by_contra hfalse
          exact h _ (.inr ⟨kind, definition, hmem, by simpa using hfalse, rfl⟩)
    -- what is missing was found among the calls, or else among the runs
    · intro function hfunction
      rcases hsome function hfunction with hfound | hprocess
      · have hlacks := List.find?_some hfound
        simp only [Bool.and_eq_true, Bool.not_eq_true'] at hlacks
        exact .inl ⟨List.mem_of_find?_eq_some hfound, (hown function).mp hlacks.1, hlacks.2⟩
      · exact .inr hprocess

/-! ### The check is reachability -/

/-- Checks not made yet are right. -/
theorem right_none (d : Source) :
    Right reading host generation catalog d fun _ => none := fun _ _ _ h => absurd h (by simp)

/-- Two definitions that name each other; the second calls a function nobody registered. -/
def mutual_ : Reading where
  parse yaml :=
    if yaml = "a" then some { tasks := [("run", { kind := .run (.workflow "ns" "b" "latest" none) })] }
    else if yaml = "b" then
      some { tasks := [("run", { kind := .run (.workflow "ns" "a" "latest" none) }),
        ("call", { kind := .call "f" none })] }
    else none
  document _ := some ("ns", "1.0.0")
  hash _ := 0

/-- A name with one version, which is active. -/
def onlyVersion (name : String) : Definitions :=
  { Definitions.default with
    versions := Table.empty.put 1
      { name, version := 1, yaml := name, digest := "", breaker := .inherit }
    active := some 1 }

/-- The catalog of both. -/
def bothStored : Catalog where
  definitions := (Table.empty.put "a" (onlyVersion "a")).put "b" (onlyVersion "b")
  keyed := by
    intro name defs version d hdefs hd
    have hone : ∀ n, (onlyVersion n).versions.get version = some d → d.name = n ∧ d.version = version := by
      intro n h
      unfold onlyVersion at h
      rw [Table.get_put] at h
      split at h
      · next heq =>
        cases h
        exact ⟨rfl, heq⟩
      · exact absurd h (by simp)
    rw [Table.get_put, Table.get_put] at hdefs
    split at hdefs
    · next heq =>
      cases hdefs
      exact heq ▸ hone _ hd
    · split at hdefs
      · next heq =>
        cases hdefs
        exact heq ▸ hone _ hd
      · exact absurd hdefs (by simp)

end Ouro.Runtime
