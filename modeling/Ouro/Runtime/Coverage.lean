import Ouro.Ows.Flow
import Ouro.Runtime.Schedule

/-!
# What static analysis covers

Before a run is started, the functions it may call, the processes it may start and the schemas it may
validate against are read off its definition (`callSites`, `processes`, `schemaResources`), and what
the registry says about the functions is pinned (`bindings`).

The interpreter and the analysis walk a definition separately. A run of a piece of code meets what the
tasks in it name, and what the reusable functions, the extensions and the budget's handler name
(`runs_covered`). The analysis visits all of these but the handler. So a run meets only what is listed

* when the definition has no handler task,
* or when its handler names nothing that the rest of the definition does not name (`HandlerCovered`),

which is a condition on the tasks, not on the lists (`executions_meet_what_is_listed`). A handler that
names something of its own is enough for a run that meets what no list has (`handler_call_not_listed`).
-/

namespace Ouro.Runtime

open Lib Ows

/-- What a registered function is pinned with. -/
structure Function where
  inputSchema : Json
  outputSchema : Json
  delivery : Delivery

/-- A delivery as stored. -/
def deliveryText : Delivery → String
  | .atLeastOnce => "at_least_once"
  | .atMostOnce => "at_most_once"

/-- The pin of a function. -/
def Function.json (f : Function) : Json :=
  .obj [("delivery", .str (deliveryText f.delivery)), ("input", f.inputSchema),
    ("output", f.outputSchema)]

/-- Pins the function of a call site, if it is the registry's. -/
def pin (registry : String → Option Function) (bound : Json) (site : CallSite) : Json :=
  match registry site.function with
  | some f => bound.insert site.function f.json
  | none => bound

/-- The functions a definition binds, with what the registry says about them. -/
def bindings (registry : String → Option Function) (wf : Workflow) : Json :=
  (callSites wf).foldl (pin registry) (.obj [])

/-! ### What tasks name -/

/-- What the task itself names: its schemas, its process, and its function if it is the host's. -/
def touches (wf : Workflow) (t : Task) : List Touch :=
  checking t.schemas ++
    match t.kind with
    | .call function _ =>
      if (wf.functions.find? fun f => f.1 = functionName function).isSome then []
      else [.calls (functionName function)]
    | .run process => [.starts process]
    | _ => []

/-- Static analysis lists it. -/
def Listed (wf : Workflow) : Touch → Prop
  | .calls function => function ∈ (callSites wf).map CallSite.function
  | .starts process => process ∈ processes wf
  | .checks uri => uri ∈ schemaResources wf

/-- Everything a task names, or a task nested in it, is listed. -/
def Covered (wf : Workflow) (t : Task) : Prop := ∀ v, Within v t → ∀ x ∈ touches wf v, Listed wf x

/-- The task stands at the top level, is a reusable function, or runs around the tasks an extension is
for. -/
inductive Stands (wf : Workflow) (t : Task) : Prop
  | top (name : String) (h : (name, t) ∈ wf.tasks)
  | function (name : String) (h : (name, t) ∈ wf.functions)
  | extension (name : String) (e : Extension) (h : (name, e) ∈ wf.extensions) (tasks : TaskList)
      (htasks : e.before = some tasks ∨ e.after = some tasks) (own : String) (ht : (own, t) ∈ tasks)

/-- The definition names it outside its handler: in its own schemas, or in a task. -/
inductive Named (wf : Workflow) (x : Touch) : Prop
  | schema (h : x ∈ checking (wf.input.toList ++ wf.output.toList))
  | task (t v : Task) (ht : Stands wf t) (hv : Within v t) (hx : x ∈ touches wf v)

/-- The budget's handler names nothing that the rest of the definition does not name. -/
def HandlerCovered (wf : Workflow) : Prop :=
  ∀ handler, wf.onExceeded = .task handler → ∀ v, Within v handler → ∀ x ∈ touches wf v, Named wf x

/-- It is pinned: its function with the registry's entry, the others by their listing. -/
def Pinned (registry : String → Option Function) (wf : Workflow) (x : Touch) : Prop :=
  Listed wf x ∧ ∀ function f, x = .calls function → registry function = some f →
    (bindings registry wf).get? function = some f.json

/-! ### What the analysis visits is listed -/

theorem mem_addResource {out : List String} {s : Schema} {uri : String} :
    uri ∈ addResource out s ↔ uri ∈ out ∨ s.uri? = some uri := by
  cases hs : s.uri? with
  | none => simp [addResource, hs]
  | some found =>
    by_cases hfound : found ∈ out
    · simp only [addResource, hs, List.contains_eq_mem, hfound, decide_true, if_true, Option.some.injEq]
      exact ⟨.inl, fun h => h.elim id fun h => h ▸ hfound⟩
    · simp [addResource, hs, hfound, eq_comm]

theorem mem_foldl_addResource {schemas : List Schema} {out : List String} {uri : String} :
    uri ∈ schemas.foldl addResource out ↔ uri ∈ out ∨ ∃ s ∈ schemas, s.uri? = some uri := by
  induction schemas generalizing out with
  | nil => simp
  | cons s schemas ih => simp [ih, mem_addResource, or_assoc]

theorem mem_schemaResources {wf : Workflow} {uri : String} :
    uri ∈ schemaResources wf ↔
      ∃ s ∈ wf.input.toList ++ wf.output.toList ++ wf.lists.flatMap fun v => v.2.schemas,
        s.uri? = some uri := by
  rw [schemaResources, mem_foldl_addResource]
  simp

theorem mem_checking {schemas : List Schema} {x : Touch} :
    x ∈ checking schemas ↔ ∃ s ∈ schemas, ∃ uri, s.uri? = some uri ∧ x = .checks uri := by
  simp only [checking, List.mem_filterMap, Option.map_eq_some_iff]
  constructor
  · rintro ⟨s, hs, uri, huri, rfl⟩
    exact ⟨s, hs, uri, huri, rfl⟩
  · rintro ⟨s, hs, uri, huri, rfl⟩
    exact ⟨s, hs, uri, huri, rfl⟩

/-- What a visited task names is listed. -/
theorem listed_of_visit {wf : Workflow} {reference : String} {t : Task} (h : (reference, t) ∈ wf.lists)
    {x : Touch} (hx : x ∈ touches wf t) : Listed wf x := by
  rcases List.mem_append.mp hx with hx | hx
  · obtain ⟨s, hs, uri, huri, rfl⟩ := mem_checking.mp hx
    exact mem_schemaResources.mpr
      ⟨s, List.mem_append_right _ (List.mem_flatMap.mpr ⟨_, h, hs⟩), huri⟩
  · cases hkind : t.kind with
    | call function with_ =>
      simp only [hkind] at hx
      split at hx
      · exact absurd hx (by simp)
      · cases List.mem_singleton.mp hx
        refine List.mem_map.mpr ⟨⟨reference, functionName function, with_, t.delivery⟩, ?_, rfl⟩
        exact List.mem_filterMap.mpr ⟨_, h, by simp only [hkind]⟩
    | run process =>
      simp only [hkind] at hx
      cases List.mem_singleton.mp hx
      exact List.mem_filterMap.mpr ⟨_, h, by simp only [hkind]⟩
    | _ => simp only [hkind, List.not_mem_nil] at hx

/-- A task whose analysis is part of the definition's is covered. -/
theorem covered_of_visits {wf : Workflow} {t : Task} {reference : String}
    (h : t.visits reference ⊆ wf.lists) : Covered wf t := by
  intro v hv x hx
  obtain ⟨at_, hvisit⟩ := hv.visited reference
  exact listed_of_visit (h hvisit) hx

/-- Every task of the list is covered. -/
def ListCovered (wf : Workflow) (tasks : TaskList) : Prop := ∀ t ∈ tasks, Covered wf t.2

theorem listCovered_of_visits {wf : Workflow} {tasks : TaskList} {at_ : String}
    (h : listVisits at_ 0 tasks ⊆ wf.lists) : ListCovered wf tasks := by
  rintro ⟨name, t⟩ ht
  obtain ⟨reference, hsub⟩ := visits_subset_listVisits ht at_ 0
  exact covered_of_visits fun x hx => h (hsub hx)

theorem functions_covered {wf : Workflow} {f : String × Task} (h : f ∈ wf.functions) :
    Covered wf f.2 :=
  covered_of_visits fun _ hx =>
    List.mem_append_left _ (List.mem_append_left _ (List.mem_flatMap.mpr ⟨f, h, hx⟩))

theorem extensions_covered {wf : Workflow} {e : String × Extension} {i : Nat}
    (h : (e, i) ∈ wf.extensions.zipIdx) {l : String × TaskList} (hl : l ∈ e.2.lists) :
    ListCovered wf l.2 :=
  listCovered_of_visits fun _ hx =>
    List.mem_append_left _ (List.mem_append_right _
      (List.mem_flatMap.mpr ⟨(e, i), h, List.mem_flatMap.mpr ⟨l, hl, hx⟩⟩))

theorem tasks_covered (wf : Workflow) : ListCovered wf wf.tasks :=
  listCovered_of_visits fun _ hx => List.mem_append_right _ hx

theorem Stands.covered {wf : Workflow} {t : Task} (h : Stands wf t) : Covered wf t := by
  cases h with
  | top name h => exact tasks_covered wf _ h
  | function name h => exact functions_covered h
  | extension name e h tasks htasks own ht =>
    obtain ⟨i, hi⟩ := List.mem_iff_getElem?.mp h
    have hindexed : ((name, e), i) ∈ wf.extensions.zipIdx := List.mem_zipIdx_iff_getElem?.mpr hi
    rcases htasks with hbefore | hafter
    · exact extensions_covered (l := ("before", tasks)) hindexed
        (by simp [Extension.lists, hbefore]) _ ht
    · exact extensions_covered (l := ("after", tasks)) hindexed
        (by simp [Extension.lists, hafter]) _ ht

/-- What the definition names outside its handler is listed. -/
theorem Named.listed {wf : Workflow} {x : Touch} (h : Named wf x) : Listed wf x := by
  cases h with
  | schema h =>
    obtain ⟨s, hs, uri, huri, rfl⟩ := mem_checking.mp h
    exact mem_schemaResources.mpr ⟨s, List.mem_append_left _ hs, huri⟩
  | task t v ht hv hx => exact ht.covered v hv x hx

theorem HandlerCovered.covered {wf : Workflow} (h : HandlerCovered wf) {handler : Task}
    (hhandler : wf.onExceeded = .task handler) : Covered wf handler :=
  fun v hv x hx => (h handler hhandler v hv x hx).listed

/-- The lists inside a covered task are. -/
theorem Covered.nested {wf : Workflow} {t : Task} (h : Covered wf t) {tasks : TaskList}
    (htasks : tasks ∈ t.kind.nested) : ListCovered wf tasks :=
  fun _ hu v hv => h v (.nested htasks hu hv)

/-- What a covered task names itself is listed. -/
theorem Covered.own {wf : Workflow} {t : Task} (h : Covered wf t) {x : Touch} (hx : x ∈ touches wf t) :
    Listed wf x :=
  h t .refl x hx

theorem Covered.checks {wf : Workflow} {t : Task} (h : Covered wf t) {schemas : List Schema}
    (hsub : schemas ⊆ t.schemas) {x : Touch} (hx : x ∈ checking schemas) : Listed wf x := by
  obtain ⟨s, hs, huri⟩ := mem_checking.mp hx
  exact h.own (List.mem_append_left _ (mem_checking.mpr ⟨s, hsub hs, huri⟩))

/-! ### What runs is covered -/

/-- The tasks in the code are covered, and the lists of the extensions around them. -/
def CodeCovered (wf : Workflow) : Code → Prop
  | .list tasks _ _ _ | .passes _ _ tasks _ _ _ => ListCovered wf tasks
  | .task t _ | .kind t _ => Covered wf t
  | .layer extensions t _ =>
    Covered wf t ∧ ∀ e ∈ extensions, ∀ l ∈ e.2.2.lists, ListCovered wf l.2
  | .around tasks _ => ∀ l, tasks = some l → ListCovered wf l
  | .attempt tasks catch_ _ _ =>
    ListCovered wf tasks ∧ ∀ l, catch_.tasks = some l → ListCovered wf l
  | .events foreach _ _ =>
    ListCovered wf foreach.tasks ∧
      ∀ x ∈ checking (foreach.output.toList ++ foreach.export_.toList), Listed wf x

theorem around_covered {wf : Workflow} {t : Task} (h : Covered wf t) (reference : String)
    (holds : Nat → Bool) : CodeCovered wf (.layer (wf.around t reference holds) t reference) := by
  refine ⟨h, fun e he l hl => ?_⟩
  unfold Workflow.around at he
  split at he
  · exact absurd he (by simp)
  · obtain ⟨⟨named, i⟩, hmem, rfl⟩ := List.mem_map.mp he
    exact extensions_covered (List.mem_filter.mp hmem).1 hl

theorem before_covered {wf : Workflow} {i : Nat} {name : String} {e : Extension}
    {es : List (Nat × String × Extension)} {t : Task} {reference : String}
    (h : CodeCovered wf (.layer ((i, name, e) :: es) t reference)) (at_ : String) :
    CodeCovered wf (.around e.before at_) := by
  intro l hl
  exact h.2 _ List.mem_cons_self ("before", l) (by simp [Extension.lists, hl])

theorem after_covered {wf : Workflow} {i : Nat} {name : String} {e : Extension}
    {es : List (Nat × String × Extension)} {t : Task} {reference : String}
    (h : CodeCovered wf (.layer ((i, name, e) :: es) t reference)) (at_ : String) :
    CodeCovered wf (.around e.after at_) := by
  intro l hl
  exact h.2 _ List.mem_cons_self ("after", l) (by simp [Extension.lists, hl])

theorem inner_covered {wf : Workflow} {e : Nat × String × Extension}
    {es : List (Nat × String × Extension)} {t : Task} {reference : String}
    (h : CodeCovered wf (.layer (e :: es) t reference)) : CodeCovered wf (.layer es t reference) :=
  ⟨h.1, fun other hother => h.2 other (List.mem_cons_of_mem _ hother)⟩

/-- What a task names besides its layers: its schemas. -/
theorem Covered.around {wf : Workflow} {t : Task} (h : Covered wf t) {touched : List Touch}
    (hinner : ∀ x ∈ touched, Listed wf x) :
    ∀ x ∈ checking t.input.toList ++ touched ++ checking (t.output.toList ++ t.export_.toList),
      Listed wf x := by
  intro x hx
  rcases List.mem_append.mp hx with hx | hx
  · rcases List.mem_append.mp hx with hx | hx
    · exact h.checks (fun s hs => by simp [Task.schemas, hs]) hx
    · exact hinner x hx
  · exact h.checks (fun s hs => by
      rcases List.mem_append.mp hs with hs | hs <;> simp [Task.schemas, hs]) hx

theorem listed_append {wf : Workflow} {a b : List Touch} (ha : ∀ x ∈ a, Listed wf x)
    (hb : ∀ x ∈ b, Listed wf x) : ∀ x ∈ a ++ b, Listed wf x :=
  fun x hx => (List.mem_append.mp hx).elim (ha x) (hb x)

/-- The branches of a covered fork meet only what is listed, if each of them does. -/
theorem listed_branches {wf : Workflow} {branches : TaskList} {touched : Nat → List Touch}
    (h : ∀ j name b, branches[j]? = some (name, b) → ∀ x ∈ touched j, Listed wf x) :
    ∀ x ∈ (List.range branches.length).flatMap touched, Listed wf x := by
  intro x hx
  obtain ⟨j, hj, hx⟩ := List.mem_flatMap.mp hx
  have hlt : j < branches.length := List.mem_range.mp hj
  exact h j branches[j].1 branches[j].2 (List.getElem?_eq_getElem hlt) x hx

/-- The branch at a position of a covered fork is covered. -/
theorem Covered.branch {wf : Workflow} {t : Task} (h : Covered wf t) {branches : TaskList}
    {compete : Bool} (hkind : t.kind = .fork branches compete) {j : Nat} {name : String} {b : Task}
    (hb : branches[j]? = some (name, b)) : Covered wf b :=
  h.nested (by simp [hkind, Kind.nested]) _ (List.mem_of_getElem? hb)

/-- Code runs into nothing that is not listed, if its own tasks and the budget's handler are covered. -/
theorem runs_covered {wf : Workflow} (hhandler : HandlerCovered wf) {fs h : Bool} {c : Code}
    {touched : List Touch} {r : Ows.Result} (hruns : Runs wf fs h c touched r) :
    CodeCovered wf c → ∀ x ∈ touched, Listed wf x := by
  -- One case per rule: the code inside is covered because it is nested in what is, a reusable function,
  -- an extension, or the handler.
  induction hruns with
  | cut | replayed | listDone | taskSkipped | aroundNone | passesDone | passesBreak | plain | raise
  | switchCase | switchElse | listen | eventsDone =>
    -- Nothing is met.
    intro _ x hx
    exact absurd hx (by simp)
  | dropped _ _ ih => exact ih
  | listLeft htask _ _ ih => exact fun hc => ih (hc _ (List.mem_of_getElem? htask))
  | listGoes htask _ _ _ ih ih' =>
    exact fun hc => listed_append (ih (hc _ (List.mem_of_getElem? htask))) (ih' hc)
  | listLost htask _ _ ih => exact fun hc => ih (hc _ (List.mem_of_getElem? htask))
  | taskRefused =>
    exact fun hc x hx => hc.checks (fun s hs => by simp [Task.schemas, hs]) hx
  | taskFails _ ih =>
    exact fun hc x hx => hc.around (ih (around_covered hc _ _)) x (List.mem_append_left _ hx)
  | taskSpoiled _ _ hpart ih =>
    intro hc x hx
    refine hc.around (ih (around_covered hc _ _)) x ?_
    rcases List.mem_append.mp hx with hx | hx
    · exact List.mem_append_left _ hx
    · exact List.mem_append_right _ (hpart.subset hx)
  | taskGoes _ _ ih => exact fun hc => hc.around (ih (around_covered hc _ _))
  | taskExceeds _ _ _ ih => exact fun hc => hc.around (ih (around_covered hc _ _))
  | taskHandled _ _ hexceeded _ ih ih' =>
    exact fun hc =>
      listed_append (hc.around (ih (around_covered hc _ _))) (ih' (hhandler.covered hexceeded))
  | aroundSome _ ih => exact fun hc => ih (hc _ rfl)
  | layerInner _ ih => exact fun hc => ih hc.1
  | layerSkips _ _ ih => exact fun hc => ih (before_covered hc _)
  | layerFails _ _ ih ih' =>
    exact fun hc => listed_append (ih (before_covered hc _)) (ih' (inner_covered hc))
  | layerWraps _ _ _ ih ih' ih'' =>
    exact fun hc => listed_append
      (listed_append (ih (before_covered hc _)) (ih' (inner_covered hc))) (ih'' (after_covered hc _))
  -- Calls: what the host is asked is named by the task itself.
  | callHost hkind hhost => exact fun hc x hx => hc.own (by simpa [touches, hkind, hhost] using Or.inr hx)
  | callOwn _ _ hown _ ih => exact fun _ => ih (functions_covered (List.mem_of_find?_eq_some hown))
  | callOwnFails _ _ hown _ ih =>
    exact fun _ => ih (functions_covered (List.mem_of_find?_eq_some hown))
  -- Blocks and loops: the code inside is nested in the task.
  | do_ hkind _ ih => exact fun hc => ih (hc.nested (by simp [hkind, Kind.nested]))
  | for_ hkind _ _ ih => exact fun hc => ih (hc.nested (by simp [hkind, Kind.nested]))
  | passStops _ _ ih => exact ih
  | passGoes _ _ _ ih ih' => exact fun hc => listed_append (ih hc) (ih' hc)
  | passBeside _ _ ih ih' => exact fun hc => listed_append (ih hc) (ih' hc)
  -- Branches that ran to their ends, and those that a failure or a winner cut short.
  | forkJoins hkind _ ih =>
    exact fun hc => listed_branches fun j name b hb => ih j name b hb (hc.branch hkind hb)
  | @forkFails _ _ _ _ _ _ _ k _ _ hkind _ _ _ _ ih ih' =>
    refine fun hc => listed_branches fun j name b hb => ?_
    by_cases hj : j = k
    · subst hj
      exact ih name b hb (hc.branch hkind hb)
    · exact ih' j name b hb hj (hc.branch hkind hb)
  | @raceWon _ _ _ _ _ _ _ k _ hkind _ _ _ ih ih' =>
    refine fun hc => listed_branches fun j name b hb => ?_
    by_cases hj : j = k
    · subst hj
      exact ih name b hb (hc.branch hkind hb)
    · exact ih' j name b hb hj (hc.branch hkind hb)
  | raceLost hkind _ _ ih =>
    exact fun hc => listed_branches fun j name b hb => ih j name b hb (hc.branch hkind hb)
  | @raceStopped _ _ _ _ _ _ k _ hkind _ _ _ _ _ ih ih' =>
    refine fun hc => listed_branches fun j name b hb => ?_
    by_cases hj : j = k
    · subst hj
      exact ih name b hb (hc.branch hkind hb)
    · exact ih' j name b hb hj (hc.branch hkind hb)
  | run hkind => exact fun hc x hx => hc.own (by simpa [touches, hkind] using Or.inr hx)
  -- Attempts of a try, and the block that catches.
  | try_ hkind _ ih =>
    refine fun hc => ih ⟨hc.nested (by simp [hkind, Kind.nested]), fun l hl => ?_⟩
    exact hc.nested (by simp [hkind, Kind.nested, hl])
  | attemptDone _ ih => exact fun hc => ih hc.1
  | attemptPasses _ _ ih => exact fun hc => ih hc.1
  | attemptRetries _ _ _ _ ih ih' => exact fun hc => listed_append (ih hc.1) (ih' hc)
  | attemptCaught _ _ _ ih ih' => exact fun hc => listed_append (ih hc.1) (ih' hc.2)
  -- A listen's body, once for each event, with the schemas of its output.
  | listenEach hkind _ ih =>
    refine fun hc => ih ⟨hc.nested (by simp [hkind, Kind.nested]), fun x hx => ?_⟩
    exact hc.checks (fun s hs => by
      rcases List.mem_append.mp hs with hs | hs <;> simp [Task.schemas, hkind, hs]) hx
  | eventFails _ ih => exact fun hc => ih hc.1
  | eventSpoiled _ _ hpart ih =>
    exact fun hc => listed_append (ih hc.1) fun x hx => hc.2 x (hpart.subset hx)
  | eventEnds _ ih => exact fun hc => listed_append (ih hc.1) hc.2
  | eventGoes _ _ _ ih ih' =>
    exact fun hc => listed_append (listed_append (ih hc.1) hc.2) (ih' hc)

/-- A listed function the registry has is bound to its entry. -/
theorem get?_bindings {registry : String → Option Function} {function : String} {f : Function}
    (hf : registry function = some f) (sites : List CallSite) {bound : Json}
    (hobj : ∃ members, bound = .obj members)
    (h : function ∈ sites.map CallSite.function ∨ bound.get? function = some f.json) :
    (sites.foldl (pin registry) bound).get? function = some f.json := by
  induction sites generalizing bound with
  | nil => exact h.resolve_left (by simp)
  | cons site sites ih =>
    obtain ⟨members, rfl⟩ := hobj
    -- The entry for the function is the same whenever it is written.
    by_cases hsite : site.function = function
    · refine ih ?_ (.inr ?_)
      · exact ⟨Json.insertMember site.function f.json members, by simp [pin, hsite, hf, Json.insert]⟩
      · simp [pin, hsite, hf, Json.insert, Json.get?, Json.find_insertMember_self]
    · refine ih ?_ ?_
      · cases hother : registry site.function with
        | none => exact ⟨members, by simp [pin, hother]⟩
        | some other =>
          exact ⟨Json.insertMember site.function other.json members, by simp [pin, hother, Json.insert]⟩
      · rcases h with h | h
        · exact .inl ((List.mem_cons.mp h).resolve_left fun heq => hsite heq.symm)
        · refine .inr ?_
          cases hother : registry site.function with
          | none => simpa [pin, hother] using h
          | some other => simpa [pin, hother, Json.get?_insert_ne hsite] using h

/-- Every execution of a definition meets only functions, processes and schemas that its analysis lists
and that a run is started with, if the handler of its jump budget names nothing that the rest of the
definition does not name. Executions are of any length, on any data, from any records. -/
theorem executions_meet_what_is_listed (registry : String → Option Function) (wf : Workflow)
    (hhandler : HandlerCovered wf) {touched : List Touch} (hrun : Ows.Executes wf touched) :
    ∀ x ∈ touched, Pinned registry wf x := by
  have hinput : ∀ x ∈ checking wf.input.toList, Listed wf x := fun x hx => by
    obtain ⟨s, hs, uri, huri, rfl⟩ := mem_checking.mp hx
    exact mem_schemaResources.mpr ⟨s, by simp [hs], huri⟩
  have houtput : ∀ x ∈ checking wf.output.toList, Listed wf x := fun x hx => by
    obtain ⟨s, hs, uri, huri, rfl⟩ := mem_checking.mp hx
    exact mem_schemaResources.mpr ⟨s, by simp [hs], huri⟩
  have hlisted : ∀ x ∈ touched, Listed wf x := by
    cases hrun with
    | refused => exact hinput
    | stopped htasks => exact listed_append hinput (runs_covered hhandler htasks (tasks_covered wf))
    | completed htasks =>
      exact listed_append
        (listed_append hinput (runs_covered hhandler htasks (tasks_covered wf))) houtput
  intro x hx
  refine ⟨hlisted x hx, fun function f hcall hf => ?_⟩
  subst hcall
  exact get?_bindings hf _ ⟨[], rfl⟩ (.inl (hlisted _ hx))

/-- A loop that runs as long as more is asked for, and what follows it; a spent budget is handled. -/
def looping (handler : Kind) (rest : TaskList) : Workflow where
  onExceeded := .task { kind := handler }
  tasks := ("again", { when := some ".more", kind := .set, then_ := some (.goto "again") }) :: rest

/-- A run whose first jump the budget refuses calls what its handler calls. -/
theorem looping_executes (rest : TaskList) :
    Ows.Executes (looping (.call "report" none) rest) [.calls "report"] := by
  have hset : Runs (looping (.call "report" none) rest) true false
      (.kind { when := some ".more", kind := .set, then_ := some (.goto "again") } "/do/0/again") []
      (.chose none) := .plain (.inl rfl)
  have hcall : Runs (looping (.call "report" none) rest) true true
      (.kind { kind := .call "report" none } "/do/0/again/limits/on_exceeded")
      [.calls (functionName "report")] (.chose none) := .callHost rfl rfl
  rw [show functionName "report" = "report" by decide] at hcall
  have hhandler := Runs.taskGoes (hcall.layer rfl fun _ => true) (by simp [Task.directive])
  exact .stopped (.listLeft rfl (.taskHandled (hset.layer rfl fun _ => true) rfl rfl hhandler) rfl)

/-- A task behind the loop calls what the handler calls. -/
def reportingTwice : Workflow :=
  looping (.call "report" none) [("late", { kind := .call "report" none })]

/-- The call of the handler is listed with that of the task, and pinned to the registry's entry. -/
theorem shared_call_pinned :
    HandlerCovered reportingTwice ∧ Ows.Executes reportingTwice [.calls "report"] ∧
      Pinned (fun _ => some ⟨.null, .null, .atMostOnce⟩) reportingTwice (.calls "report") := by
  have hhandler : HandlerCovered reportingTwice := by
    intro handler heq v hv x hx
    cases heq
    cases hv with
    | refl => exact .task _ _ (.top "late" (by simp [reportingTwice, looping])) .refl hx
    | nested htasks => exact absurd htasks (by simp [Kind.nested])
  have hrun : Ows.Executes reportingTwice [.calls "report"] := looping_executes _
  exact ⟨hhandler, hrun,
    executions_meet_what_is_listed _ _ hhandler hrun _ List.mem_cons_self⟩

/-- Without such a task the analysis does not list the call, and no binding pins it. -/
theorem handler_call_not_listed :
    Ows.Executes (looping (.call "report" none) []) [.calls "report"] ∧
      callSites (looping (.call "report" none) []) = [] ∧
      ∀ registry, (bindings registry (looping (.call "report" none) [])).get? "report" = none :=
  ⟨looping_executes [], by decide, fun _ => rfl⟩

end Ouro.Runtime
