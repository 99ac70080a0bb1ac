import Ouro.Lib.Overlay
import Ouro.Ows.Secrets

/-!
# Redacted texts come back

Redacting is a sequence of replacements, and each of them may find its secret in a marker that those
before it have written. A text is `Clear` when this does not happen to it and its markers can be read
back. Then

* what is written are the pieces into which the secrets cut the text, one marker for one occurrence
  (`text_eq_flat`);
* restoring reads these pieces (`restoreFrom_flat`), so the text comes back (`restoreText_text`);
* values and records come back string by string (`secrets_round_trip`).

Which texts are clear is a matter of the secrets alone when no secret string contains the mark
(`clear_iff`): every text is when no secret occurs in the path of one that is written before it.
-/

namespace Ouro

open Lib Replace Markers

/-! ### Texts -/

/-- A secret string with its path, as characters. -/
def asEntry (entry : String × String) : Replacement Char := (entry.1.toList, entry.2.toList)

/-- The secrets cut the text into markers that can be read back, and none of them is found where it
overlaps a marker that is there already.

`apart` is about one pass: the text is cut by the secrets before this one, and the search for this one in
what is then written takes no occurrence that touches a marker. A secret whose marker is spelled like its
escaped string has nothing to say, since its pass changes nothing. `path` and `unique` are about the
markers that the whole cut holds. -/
structure Clear (r : Redaction) (t : String) : Prop where
  apart : ∀ earlier entry later, r.texts = earlier ++ entry :: later → ¬Inert mark (asEntry entry) →
    Apart mark entry.1.toList (cut mark (earlier.map asEntry) t.toList)
  path : ∀ entry, .marker entry ∈ cut mark (r.texts.map asEntry) t.toList →
    entry.2 ≠ [] ∧ mark ∉ entry.2
  unique : ∀ entry, .marker entry ∈ cut mark (r.texts.map asEntry) t.toList → ∀ other,
    r.texts.find? (fun other => other.2.toList == entry.2) = some other → other.1.toList = entry.1

namespace Redaction

variable {r : Redaction} {t : String}

theorem asEntry_ne (hne : ∀ entry ∈ r.texts, entry.1 ≠ "") :
    ∀ entry ∈ r.texts.map asEntry, entry.1 ≠ [] := by
  intro entry hentry hnil
  obtain ⟨entry, hmem, rfl⟩ := List.mem_map.mp hentry
  exact hne entry hmem (String.toList_eq_nil_iff.mp hnil)

/-- The written text is the pieces into which the secrets cut it. -/
theorem text_eq_flat (hclear : Clear r t) (hne : ∀ entry ∈ r.texts, entry.1 ≠ "") :
    r.texts.foldl replace (escape mark t.toList) =
      flat mark (cut mark (r.texts.map asEntry) t.toList) := by
  have hfold := foldl_flat (m := mark) (t := t.toList) (asEntry_ne hne) ?_
  · rw [List.foldl_map] at hfold
    exact hfold
  · intro earlier entry later heq hinert
    -- a splitting of the entries is one of the secrets
    obtain ⟨earlier, rest, htexts, rfl, hrest⟩ := List.map_eq_append_iff.mp heq
    obtain ⟨entry, later, rfl, rfl, rfl⟩ := List.map_eq_cons_iff.mp hrest
    exact hclear.apart earlier entry later htexts hinert

theorem found_path (hclear : Clear r t) (hne : ∀ entry ∈ r.texts, entry.1 ≠ "")
    {entry : Replacement Char} (hentry : .marker entry ∈ cut mark (r.texts.map asEntry) t.toList) :
    r.found entry.2 = .ok entry.1 := by
  unfold found
  rw [if_neg (hclear.path entry hentry).1]
  cases hfind : r.texts.find? fun other => other.2.toList == entry.2 with
  | none =>
    obtain ⟨secret, hsecret, rfl⟩ := List.mem_map.mp (mem_cut (asEntry_ne hne) hentry).mem
    have hnone := List.find?_eq_none.mp hfind secret hsecret
    simp [asEntry] at hnone
  | some other => exact congrArg Except.ok (hclear.unique entry hentry other hfind)

/-- A path is read up to the mark that ends it. -/
theorem restoreFrom_path {path : List Char} (hpath : mark ∉ path) (read rest : List Char) :
    r.restoreFrom (some read) (path ++ mark :: rest) =
      r.found (read ++ path) >>= fun s => (s ++ ·) <$> r.restoreFrom none rest := by
  induction path generalizing read with
  | nil =>
    rw [List.nil_append, List.append_nil, restoreFrom, if_pos rfl]
  | cons c path ih =>
    rw [List.mem_cons, not_or] at hpath
    rw [List.cons_append, restoreFrom, if_neg (Ne.symm hpath.1), ih hpath.2, List.append_assoc,
      List.singleton_append]

/-- Restoring reads the pieces. -/
theorem restoreFrom_flat {ps : List (Piece Char)} (hps : Marked mark ps)
    (hread : ∀ entry, .marker entry ∈ ps → mark ∉ entry.2 ∧ r.found entry.2 = .ok entry.1) :
    r.restoreFrom none (flat mark ps) = .ok (meaning mark ps) := by
  induction ps with
  | nil => rfl
  | cons p ps ih =>
    have ih := ih (hps.mono fun q hq => List.mem_cons_of_mem _ hq)
      fun entry hentry => hread entry (List.mem_cons_of_mem _ hentry)
    rw [flat_cons, meaning_cons]
    cases p with
    | char c =>
      have hc : c ≠ mark := by
        rintro rfl
        exact hps List.mem_cons_self
      rw [spell, List.singleton_append, restoreFrom, if_neg hc, ih]
      rfl
    | mark =>
      rw [spell, List.cons_append, List.singleton_append, restoreFrom, if_pos rfl, restoreFrom,
        if_pos rfl, ih]
      rfl
    | marker entry =>
      obtain ⟨hpath, hfound⟩ := hread entry List.mem_cons_self
      have hmarker := restoreFrom_path (r := r) hpath [] (flat mark ps)
      rw [List.nil_append, hfound, ih] at hmarker
      rw [spell, List.cons_append, List.cons_append, List.append_assoc, List.singleton_append,
        restoreFrom, if_pos rfl]
      exact hmarker

/-- A redacted text comes back. Without secrets nothing is redacted, and nothing is escaped. -/
theorem restoreText_text (hclear : Clear r t) (hne : ∀ entry ∈ r.texts, entry.1 ≠ "")
    (h : r.active = true ∨ mark ∉ t.toList) : r.restoreText (r.text t) = .ok t := by
  unfold text
  split
  -- what is read back of the pieces is what they stand for
  · have hrestore := restoreFrom_flat (r := r) (marked_cut (asEntry_ne hne) t.toList)
      fun entry hentry => ⟨(hclear.path entry hentry).2, found_path hclear hne hentry⟩
    have hmeaning := meaning_cut (m := mark) (asEntry_ne hne) t.toList
    rw [hmeaning] at hrestore
    rw [text_eq_flat hclear hne]
    unfold restoreText
    rw [String.toList_ofList, hrestore]
    split
    -- without a mark in the text nothing was written, and the text is its own meaning
    · exact congrArg Except.ok String.ofList_toList
    · next hmark =>
      rw [flat_eq_meaning hmark, hmeaning, String.ofList_toList]
  · next hactive =>
    unfold restoreText
    rw [if_neg (h.resolve_left hactive)]

end Redaction

/-! ### Objects -/

namespace Json

/-- Writing a member of a new key keeps the order of keys and adds the member. -/
theorem insertMember_new {k : String} (v : Json) {members : List (String × Json)}
    (hsorted : members.Pairwise fun a b => a.1 < b.1) (hnew : ∀ m ∈ members, m.1 ≠ k) :
    (insertMember k v members).Perm ((k, v) :: members) ∧
      (insertMember k v members).Pairwise fun a b => a.1 < b.1 := by
  induction members with
  | nil => exact ⟨.refl _, List.pairwise_singleton _ _⟩
  | cons m members ih =>
    obtain ⟨l, w⟩ := m
    obtain ⟨hlt, hsorted⟩ := List.pairwise_cons.mp hsorted
    have hl : l ≠ k := hnew (l, w) List.mem_cons_self
    -- in key order the first key decides whether all are greater
    have hall : (((l, w) :: members).all fun m => decide (k < m.1)) = true ↔ k < l := by
      simp only [List.all_eq_true, decide_eq_true_eq, List.mem_cons, forall_eq_or_imp]
      exact ⟨fun h => h.1, fun h => ⟨h, fun m hm => lt_trans h (hlt m hm)⟩⟩
    simp only [insertMember, if_neg hl, hall]
    -- the new key comes first, or behind the members before it
    split
    · next hk =>
      refine ⟨.refl _, List.pairwise_cons.mpr ⟨fun m hm => ?_, List.pairwise_cons.mpr ⟨hlt, hsorted⟩⟩⟩
      rcases List.mem_cons.mp hm with rfl | hm
      · exact hk
      · exact lt_trans hk (hlt m hm)
    · next hk =>
      obtain ⟨hperm, hpairwise⟩ := ih hsorted fun m hm => hnew m (List.mem_cons_of_mem _ hm)
      refine ⟨(hperm.cons _).trans (.swap _ _ _), List.pairwise_cons.mpr ⟨fun m hm => ?_, hpairwise⟩⟩
      rcases List.mem_cons.mp (hperm.subset hm) with rfl | hm
      · exact lt_of_le_of_ne (not_lt.mp hk) hl
      · exact hlt m hm

/-- Writing members of different keys, one after the other, leaves them in the order of keys. -/
theorem foldl_insertMember {l : List (String × Json)} (hl : (l.map Prod.fst).Nodup)
    {out : List (String × Json)} (hout : out.Pairwise fun a b => a.1 < b.1)
    (hnew : ∀ a ∈ l, ∀ b ∈ out, b.1 ≠ a.1) :
    (l.foldl (fun out m => insertMember m.1 m.2 out) out).Perm (l ++ out) ∧
      (l.foldl (fun out m => insertMember m.1 m.2 out) out).Pairwise fun a b => a.1 < b.1 := by
  induction l generalizing out with
  | nil => exact ⟨.refl _, hout⟩
  | cons m l ih =>
    obtain ⟨hm, hl⟩ := List.nodup_cons.mp hl
    obtain ⟨hperm, hsorted⟩ := insertMember_new m.2 hout (hnew m List.mem_cons_self)
    -- the keys that are still to come are not those written
    have hnew' : ∀ a ∈ l, ∀ b ∈ insertMember m.1 m.2 out, b.1 ≠ a.1 := by
      intro a ha b hb heq
      rcases List.mem_cons.mp (hperm.subset hb) with rfl | hb
      · exact hm (List.mem_map.mpr ⟨a, ha, heq.symm⟩)
      · exact hnew a (List.mem_cons_of_mem _ ha) b hb heq
    obtain ⟨hperm', hsorted'⟩ := ih hl hsorted hnew'
    refine ⟨hperm'.trans ?_, hsorted'⟩
    exact (hperm.append_left l).trans List.perm_middle

mutual

/-- The members of every object of the value are in the order of their keys. -/
def Sorted : Json → Prop
  | .arr items => SortedItems items
  | .obj members => (members.Pairwise fun a b => a.1 < b.1) ∧ SortedMembers members
  | .null | .bool _ | .num _ | .str _ => True

def SortedItems : List Json → Prop
  | [] => True
  | v :: items => v.Sorted ∧ SortedItems items

def SortedMembers : List (String × Json) → Prop
  | [] => True
  | (_, v) :: members => v.Sorted ∧ SortedMembers members

end

mutual

/-- The strings of a value, keys included. -/
def strings : Json → List String
  | .str s => [s]
  | .arr items => itemStrings items
  | .obj members => memberStrings members
  | .null | .bool _ | .num _ => []

def itemStrings : List Json → List String
  | [] => []
  | v :: items => v.strings ++ itemStrings items

def memberStrings : List (String × Json) → List String
  | [] => []
  | (k, v) :: members => k :: v.strings ++ memberStrings members

end

end Json

/-! ### Values -/

/-- What the first map makes of `x`, the second takes back. -/
def Returns {α ε : Type} (f g : α → Except ε α) (x : α) : Prop := ∃ y, f x = .ok y ∧ g y = .ok x

section Returns

variable {ε : Type} {f g : String → Except ε String}

/-- A member and what it is mapped to. -/
def MapsTo (f : String → Except ε String) (a b : String × Json) : Prop :=
  f a.1 = .ok b.1 ∧ mapStrings f a.2 = .ok b.2

theorem mapMembers_ok {members mapped : List (String × Json)}
    (h : List.Forall₂ (MapsTo f) members mapped) (out : List (String × Json)) :
    mapMembers f members out = .ok (mapped.foldl (fun out m => Json.insertMember m.1 m.2 out) out) := by
  induction h generalizing out with
  | nil => rfl
  | cons hab _ ih =>
    rw [mapMembers, hab.1]
    change (mapStrings f _ >>= fun v => mapMembers f _ (Json.insertMember _ v out)) = _
    rw [hab.2]
    exact ih _

/-- An object comes back when its members do. -/
theorem returns_obj {members mapped : List (String × Json)}
    (hsorted : members.Pairwise fun a b => a.1 < b.1)
    (hmapped : List.Forall₂ (MapsTo f) members mapped)
    (hback : List.Forall₂ (MapsTo g) mapped members) :
    Returns (mapStrings f) (mapStrings g) (.obj members) := by
  -- the members are mapped to different keys, so all of them are written
  have hkeys : (mapped.map Prod.fst).Nodup := by
    -- the map of keys is injective: it is taken back
    clear hmapped
    induction hback with
    | nil => exact List.nodup_nil
    | @cons a b mapped members hab hrest ih =>
      obtain ⟨hlt, hsorted⟩ := List.pairwise_cons.mp hsorted
      refine List.nodup_cons.mpr ⟨fun hmem => ?_, ih hsorted⟩
      obtain ⟨a', ha', heq⟩ := List.mem_map.mp hmem
      obtain ⟨i, hi, rfl⟩ := List.getElem_of_mem ha'
      have hlen := hrest.length_eq
      have hsame := (List.forall₂_iff_get.mp hrest).2 i hi (hlen ▸ hi)
      have hfirst := hab.1
      rw [← heq] at hfirst
      have hkey := Except.ok.inj (hfirst.symm.trans hsame.1)
      exact absurd (hlt _ (List.getElem_mem (hlen ▸ hi))) (by simp [hkey])
  obtain ⟨hperm, hsorted₁⟩ := Json.foldl_insertMember hkeys List.Pairwise.nil (by simp)
  rw [List.append_nil] at hperm
  -- what is taken back are the members, in some order
  obtain ⟨members', hback', hperm'⟩ := List.perm_comp_forall₂ hperm hback
  have hkeys' : (members'.map Prod.fst).Nodup := by
    refine (hperm'.map Prod.fst).nodup_iff.mpr ?_
    exact List.pairwise_map.mpr (hsorted.imp fun hab => ne_of_lt hab)
  obtain ⟨hperm₂, hsorted₂⟩ := Json.foldl_insertMember hkeys' List.Pairwise.nil (by simp)
  rw [List.append_nil] at hperm₂
  -- written again in the order of keys, they are the members as they were
  refine ⟨.obj (mapped.foldl (fun out m => Json.insertMember m.1 m.2 out) []), ?_, ?_⟩
  · rw [mapStrings, mapMembers_ok hmapped]
    rfl
  · rw [mapStrings, mapMembers_ok hback']
    have hsame := (hperm₂.trans hperm').eq_of_pairwise
      (fun a b _ _ hab hba => absurd hab (lt_asymm hba)) hsorted₂ hsorted
    rw [hsame]
    rfl

mutual

theorem returns_value : ∀ v : Json, v.Sorted → (∀ s ∈ v.strings, Returns f g s) →
    Returns (mapStrings f) (mapStrings g) v
  | .null, _, _ => ⟨.null, rfl, rfl⟩
  | .bool b, _, _ => ⟨.bool b, rfl, rfl⟩
  | .num n, _, _ => ⟨.num n, rfl, rfl⟩
  | .str s, _, hf => by
    obtain ⟨s', hs, hs'⟩ := hf s List.mem_cons_self
    exact ⟨.str s', by rw [mapStrings, hs]; rfl, by rw [mapStrings, hs']; rfl⟩
  | .arr items, h, hf => by
    obtain ⟨items', hitems, hitems'⟩ := returns_items items h hf
    exact ⟨.arr items', by rw [mapStrings, hitems]; rfl, by rw [mapStrings, hitems']; rfl⟩
  | .obj members, h, hf => by
    obtain ⟨mapped, hmapped, hback⟩ := returns_members members h.2 hf
    exact returns_obj h.1 hmapped hback

theorem returns_items : ∀ items : List Json, Json.SortedItems items →
    (∀ s ∈ Json.itemStrings items, Returns f g s) → Returns (mapItems f) (mapItems g) items
  | [], _, _ => ⟨[], rfl, rfl⟩
  | v :: items, h, hf => by
    obtain ⟨v', hv, hv'⟩ := returns_value v h.1 fun s hs => hf s (List.mem_append_left _ hs)
    obtain ⟨items', hitems, hitems'⟩ :=
      returns_items items h.2 fun s hs => hf s (List.mem_append_right _ hs)
    refine ⟨v' :: items', ?_, ?_⟩
    · rw [mapItems, hv, hitems]
      rfl
    · rw [mapItems, hv', hitems']
      rfl

theorem returns_members : ∀ members : List (String × Json), Json.SortedMembers members →
    (∀ s ∈ Json.memberStrings members, Returns f g s) →
      ∃ mapped, List.Forall₂ (MapsTo f) members mapped ∧ List.Forall₂ (MapsTo g) mapped members
  | [], _, _ => ⟨[], .nil, .nil⟩
  | (k, v) :: members, h, hf => by
    obtain ⟨k', hk, hk'⟩ := hf k List.mem_cons_self
    obtain ⟨v', hv, hv'⟩ := returns_value v h.1 fun s hs =>
      hf s (List.mem_cons_of_mem _ (List.mem_append_left _ hs))
    obtain ⟨mapped, hmapped, hback⟩ := returns_members members h.2 fun s hs =>
      hf s (List.mem_cons_of_mem _ (List.mem_append_right _ hs))
    exact ⟨(k', v') :: mapped, .cons ⟨hk, hv⟩ hmapped, .cons ⟨hk', hv'⟩ hback⟩

end

/-! ### Records -/

theorem returns_text {o : Option String} (hf : ∀ s ∈ o.toList, Returns f g s) :
    Returns (mapText f) (mapText g) o := by
  cases o with
  | none => exact ⟨none, rfl, rfl⟩
  | some s =>
    obtain ⟨s', hs, hs'⟩ := hf s List.mem_cons_self
    exact ⟨some s', by rw [mapText, hs]; rfl, by rw [mapText, hs']; rfl⟩

/-- The texts of an error. -/
def WorkflowError.strings (e : WorkflowError) : List String :=
  e.type_ :: (e.title.toList ++ e.detail.toList ++ e.instance_.toList)

theorem returns_error {e : WorkflowError} (hf : ∀ s ∈ e.strings, Returns f g s) :
    Returns (mapError f) (mapError g) e := by
  unfold WorkflowError.strings at hf
  rw [List.forall_mem_cons] at hf
  simp only [List.mem_append, or_imp, forall_and] at hf
  obtain ⟨⟨type_, htype, htype'⟩, ⟨ht, hd⟩, hi⟩ := hf
  obtain ⟨title, htitle, htitle'⟩ := returns_text ht
  obtain ⟨detail, hdetail, hdetail'⟩ := returns_text hd
  obtain ⟨instance_, hinstance, hinstance'⟩ := returns_text hi
  refine ⟨{ type_, status := e.status, title, detail, instance_ }, ?_, ?_⟩
  · rw [mapError, htype, htitle, hdetail, hinstance]
    rfl
  · rw [mapError, htype', htitle', hdetail', hinstance']
    rfl

/-- The values of an outcome have their members in order. -/
def StepOutcome.Sorted : StepOutcome → Prop
  | .completed output _ => output.Sorted
  | .faulted _ _ => True

def StepOutcome.strings : StepOutcome → List String
  | .completed output _ => output.strings
  | .faulted error _ => error.strings

theorem returns_outcome {outcome : StepOutcome} (h : outcome.Sorted)
    (hf : ∀ s ∈ outcome.strings, Returns f g s) : Returns (mapOutcome f) (mapOutcome g) outcome := by
  cases outcome with
  | completed output flow =>
    obtain ⟨output', hout, hout'⟩ := returns_value output h hf
    exact ⟨.completed output' flow, by rw [mapOutcome, hout]; rfl, by rw [mapOutcome, hout']; rfl⟩
  | faulted error fatal =>
    obtain ⟨error', herr, herr'⟩ := returns_error hf
    exact ⟨.faulted error' fatal, by rw [mapOutcome, herr]; rfl, by rw [mapOutcome, herr']; rfl⟩

def TaskResult.strings (r : TaskResult) : List String := r.context.strings ++ r.outcome.strings

theorem returns_result {result : Option TaskResult}
    (h : ∀ r, result = some r → r.context.Sorted ∧ r.outcome.Sorted)
    (hf : ∀ r, result = some r → ∀ s ∈ r.strings, Returns f g s) :
    Returns (mapResult f) (mapResult g) result := by
  cases result with
  | none => exact ⟨none, rfl, rfl⟩
  | some r =>
    obtain ⟨hcontext, houtcome⟩ := h r rfl
    obtain ⟨context, hc, hc'⟩ :=
      returns_value r.context hcontext fun s hs => hf r rfl s (List.mem_append_left _ hs)
    obtain ⟨outcome, ho, ho'⟩ :=
      returns_outcome houtcome fun s hs => hf r rfl s (List.mem_append_right _ hs)
    exact ⟨some { context, outcome }, by rw [mapResult, hc, ho]; rfl, by rw [mapResult, hc', ho']; rfl⟩

/-- The values of a call's state have their members in order. -/
def CallState.Sorted : CallState → Prop
  | .done (.ok v) => v.Sorted
  | .done (.error _) | .pending | .notExecuted _ => True

def CallState.strings : CallState → List String
  | .done (.ok v) => v.strings
  | .done (.error e) | .notExecuted e => e.strings
  | .pending => []

theorem returns_state {state : CallState} (h : state.Sorted)
    (hf : ∀ s ∈ state.strings, Returns f g s) : Returns (mapState f) (mapState g) state := by
  cases state with
  | pending => exact ⟨.pending, rfl, rfl⟩
  | notExecuted e =>
    obtain ⟨e', he, he'⟩ := returns_error hf
    exact ⟨.notExecuted e', by rw [mapState, he]; rfl, by rw [mapState, he']; rfl⟩
  | done result =>
    cases result with
    | ok v =>
      obtain ⟨v', hv, hv'⟩ := returns_value v h hf
      exact ⟨.done (.ok v'), by rw [mapState, hv]; rfl, by rw [mapState, hv']; rfl⟩
    | error e =>
      obtain ⟨e', he, he'⟩ := returns_error hf
      exact ⟨.done (.error e'), by rw [mapState, he]; rfl, by rw [mapState, he']; rfl⟩

/-- An annotation and what it is mapped to, under the same name. -/
def AnnotationTo (f : String → Except ε String) (a b : String × Annotation) : Prop :=
  a.1 = b.1 ∧ mapNote f a.2 = .ok b.2

theorem mapNotes_ok {l l' : List (String × Annotation)}
    (h : List.Forall₂ (AnnotationTo f) l l') (out : Table String Annotation) :
    mapNotes f l out = .ok (l'.foldl (fun t row => t.put row.1 row.2) out) := by
  induction h generalizing out with
  | nil => rfl
  | cons hab _ ih =>
    rw [mapNotes, hab.2, hab.1]
    exact ih _

theorem annotationTo_keys {l l' : List (String × Annotation)}
    (h : List.Forall₂ (AnnotationTo f) l l') : l.map Prod.fst = l'.map Prod.fst := by
  induction h with
  | nil => rfl
  | cons hab _ ih => rw [List.map_cons, List.map_cons, hab.1, ih]

/-- The text of an annotation. -/
def Annotation.strings : Annotation → List String
  | .number _ => []
  | .text t => [t]

theorem returns_annotation {a : Annotation} (hf : ∀ s ∈ a.strings, Returns f g s) :
    Returns (mapNote f) (mapNote g) a := by
  cases a with
  | number n => exact ⟨.number n, rfl, rfl⟩
  | text t =>
    obtain ⟨t', ht, ht'⟩ := hf t List.mem_cons_self
    exact ⟨.text t', by rw [mapNote, ht]; rfl, by rw [mapNote, ht']; rfl⟩

theorem returns_annotations {annotations : Table String Annotation}
    (hf : ∀ s ∈ annotations.rows.flatMap fun row => row.2.strings, Returns f g s) :
    Returns (fun t => mapNotes f t.rows .empty) (fun t => mapNotes g t.rows .empty)
      annotations := by
  -- the annotations are mapped in place, under their own names
  obtain ⟨mapped, hmapped, hback⟩ : ∃ mapped, List.Forall₂ (AnnotationTo f) annotations.rows mapped ∧
      List.Forall₂ (AnnotationTo g) mapped annotations.rows := by
    generalize annotations.rows = rows at hf
    induction rows with
    | nil => exact ⟨[], .nil, .nil⟩
    | cons row rows ih =>
      rw [List.flatMap_cons] at hf
      obtain ⟨mapped, hmapped, hback⟩ := ih fun s hs => hf s (List.mem_append_right _ hs)
      obtain ⟨a, ha, ha'⟩ := returns_annotation fun s hs => hf s (List.mem_append_left _ hs)
      exact ⟨(row.1, a) :: mapped, .cons ⟨rfl, ha⟩ hmapped, .cons ⟨rfl, ha'⟩ hback⟩
  -- the names do not change, so their order is kept
  have hsorted : mapped.Pairwise fun a b => a.1 < b.1 := by
    have hkeys := annotationTo_keys hback
    have hrows : (annotations.rows.map Prod.fst).Pairwise (· < ·) :=
      List.pairwise_map.mpr annotations.rows_sorted
    rw [← hkeys] at hrows
    exact List.pairwise_map.mp hrows
  -- a sorted list of annotations is the list of its table
  have hlist : ∀ {l : List (String × Annotation)}, (l.Pairwise fun a b => a.1 < b.1) →
      (Table.ofList l).rows = l := by
    intro l hl
    refine Table.rows_eq_of_sorted hl fun k v => (Table.get_ofList ?_).symm
    intro k v w hv hw
    exact (Prod.mk.inj (List.inj_on_of_nodup_map (Table.keys_nodup hl) hv hw rfl)).2
  refine ⟨Table.ofList mapped, mapNotes_ok hmapped _, ?_⟩
  change mapNotes g (Table.ofList mapped).rows .empty = _
  rw [hlist hsorted, mapNotes_ok hback]
  exact congrArg Except.ok (Table.rows_injective (hlist annotations.rows_sorted))

/-- The values of a record that are mapped have their members in order. -/
def Record.Sorted : Record → Prop
  | .execution _ _ definition input runtime _ _ _ => definition.Sorted ∧ input.Sorted ∧ runtime.Sorted
  | .task _ result => ∀ r, result = some r → r.context.Sorted ∧ r.outcome.Sorted
  | .call _ _ arguments _ state _ => arguments.Sorted ∧ state.Sorted
  | .winner output => output.Sorted
  | .finished (.completed v) => v.Sorted
  | _ => True

/-- The strings of a record that are mapped. -/
def Record.strings : Record → List String
  | .execution _ _ definition input runtime _ _ _ =>
    definition.strings ++ input.strings ++ runtime.strings
  | .task _ (some result) => result.strings
  | .call _ _ arguments _ state annotations =>
    arguments.strings ++ state.strings ++ annotations.rows.flatMap fun row => row.2.strings
  | .winner output => output.strings
  | .finished (.completed v) => v.strings
  | .finished (.faulted e) => e.strings
  | _ => []

theorem returns_record {rec : Record} (h : rec.Sorted) (hf : ∀ s ∈ rec.strings, Returns f g s) :
    Returns (convert f) (convert g) rec := by
  -- one case for each kind of record; only what `convert` maps has to come back
  cases rec with
  | execution version runId definition input runtime startedMs maxTasks maxAttempts =>
    unfold Record.strings at hf
    simp only [List.mem_append, or_imp, forall_and] at hf
    obtain ⟨⟨hdefinition, hinput⟩, hruntime⟩ := hf
    obtain ⟨d, hd, hd'⟩ := returns_value definition h.1 hdefinition
    obtain ⟨i, hi, hi'⟩ := returns_value input h.2.1 hinput
    obtain ⟨r, hr, hr'⟩ := returns_value runtime h.2.2 hruntime
    refine ⟨.execution version runId d i r startedMs maxTasks maxAttempts, ?_, ?_⟩
    · rw [convert, hd, hi, hr]
      rfl
    · rw [convert, hd', hi', hr']
      rfl
  | task startedMs result =>
    obtain ⟨r, hr, hr'⟩ := returns_result h fun r hr => by rwa [hr] at hf
    exact ⟨.task startedMs r, by rw [convert, hr]; rfl, by rw [convert, hr']; rfl⟩
  | call logical function arguments delivery state annotations =>
    unfold Record.strings at hf
    simp only [List.mem_append, or_imp, forall_and] at hf
    obtain ⟨⟨harguments, hstate⟩, hnotes⟩ := hf
    obtain ⟨a, ha, ha'⟩ := returns_value arguments h.1 harguments
    obtain ⟨s, hs, hs'⟩ := returns_state h.2 hstate
    obtain ⟨n, hn, hn'⟩ := returns_annotations hnotes
    refine ⟨.call logical function a delivery s n, ?_, ?_⟩
    · rw [convert, ha, hs]
      simp only at hn
      rw [hn]
      rfl
    · rw [convert, ha', hs']
      simp only at hn'
      rw [hn']
      rfl
  | winner output =>
    obtain ⟨o, ho, ho'⟩ := returns_value output h hf
    exact ⟨.winner o, by rw [convert, ho]; rfl, by rw [convert, ho']; rfl⟩
  | finished status =>
    cases status with
    | completed v =>
      obtain ⟨v', hv, hv'⟩ := returns_value v h hf
      exact ⟨.finished (.completed v'), by rw [convert, hv]; rfl, by rw [convert, hv']; rfl⟩
    | faulted e =>
      obtain ⟨e', he, he'⟩ := returns_error hf
      exact ⟨.finished (.faulted e'), by rw [convert, he]; rfl, by rw [convert, he']; rfl⟩
    | cancelled => exact ⟨_, rfl, rfl⟩
    | waiting at_ => exact ⟨_, rfl, rfl⟩
    | interrupted e => exact ⟨_, rfl, rfl⟩
  | event e => exact ⟨_, rfl, rfl⟩
  | expired e => exact ⟨_, rfl, rfl⟩
  | timer at_ => exact ⟨_, rfl, rfl⟩
  | retry delay => exact ⟨_, rfl, rfl⟩
  | budget granted spent first => exact ⟨_, rfl, rfl⟩
  | exceeded by_ => exact ⟨_, rfl, rfl⟩

end Returns

/-! ### Resolved secrets -/

mutual

/-- Only non-empty strings are secret. -/
theorem leaves_ne (path : String) : ∀ (v : Json), ∀ entry ∈ leaves path v, entry.1 ≠ ""
  | .null, entry, h => by simp [leaves] at h
  | .bool b, entry, h => by simp [leaves] at h
  | .num n, entry, h => by simp [leaves] at h
  | .str s, entry, h => by
    rw [leaves] at h
    split at h
    · simp at h
    · next hs =>
      rw [List.mem_singleton.mp h]
      exact hs
  | .arr items, entry, h => itemLeaves_ne path 0 items entry h
  | .obj members, entry, h => memberLeaves_ne path members entry h

theorem itemLeaves_ne (path : String) (i : Nat) :
    ∀ (items : List Json), ∀ entry ∈ itemLeaves path i items, entry.1 ≠ ""
  | [], entry, h => by simp [itemLeaves] at h
  | v :: items, entry, h => by
    rcases List.mem_append.mp h with h | h
    · exact leaves_ne _ v entry h
    · exact itemLeaves_ne path (i + 1) items entry h

theorem memberLeaves_ne (path : String) :
    ∀ (members : List (String × Json)), ∀ entry ∈ memberLeaves path members, entry.1 ≠ ""
  | [], entry, h => by simp [memberLeaves] at h
  | (k, v) :: members, entry, h => by
    rcases List.mem_append.mp h with h | h
    · exact leaves_ne _ v entry h
    · exact memberLeaves_ne path members entry h

end

namespace Redaction

theorem dedup_sublist (l : List (String × String)) (last : Option String) :
    (dedup last l).Sublist l := by
  induction l generalizing last with
  | nil => exact List.Sublist.slnil
  | cons a l ih =>
    rw [dedup]
    split
    · exact (ih last).cons a
    · exact (ih (some a.1)).cons_cons a

/-- Longer strings come first. -/
theorem texts_long (values : List (String × Option Json)) :
    (ofValues values).texts.Pairwise fun a b => b.1.utf8ByteSize ≤ a.1.utf8ByteSize := by
  have : Std.Total precedes := ⟨fun a b => by unfold precedes; grind⟩
  have : IsTrans (String × String) precedes := ⟨fun a b c => by unfold precedes; grind⟩
  refine ((List.pairwise_insertionSort precedes _).sublist (dedup_sublist _ none)).imp fun h => ?_
  exact h.elim le_of_lt fun h => le_of_eq h.1

theorem texts_ne {values : List (String × Option Json)} :
    ∀ entry ∈ (ofValues values).texts, entry.1 ≠ "" := by
  intro entry hentry
  have hfound := (List.perm_insertionSort precedes _).subset ((dedup_sublist _ none).subset hentry)
  obtain ⟨⟨name, value⟩, -, hleaf⟩ := List.mem_flatMap.mp hfound
  cases value with
  | none => simp at hleaf
  | some v => exact leaves_ne name v entry hleaf

end Redaction

/-- **Secrets round trip.** What was redacted comes back: a text that is clear for the resolved secrets,
a value whose strings are, and a record whose mapped strings are.

For a text alone there is one more case. Without any secret string nothing is redacted and nothing is
escaped, but a text with a mark is still read as if it were. -/
theorem secrets_round_trip (declared : List String) (store : String → Except String (Option Json))
    (r : Redaction) (hresolve : Redaction.resolve declared store = .ok r) :
    (∀ rec : Record, rec.Sorted → (∀ s ∈ rec.strings, Clear r s) → r.restore (r.record rec) = .ok rec) ∧
      (∀ v : Json, v.Sorted → (∀ s ∈ v.strings, Clear r s) → r.restoreValue (r.value v) = .ok v) ∧
      ∀ t, Clear r t → r.active = true ∨ mark ∉ t.toList → r.restoreText (r.text t) = .ok t := by
  -- an empty string is not secret
  have hne : ∀ entry ∈ r.texts, entry.1 ≠ "" := by
    obtain ⟨values, rfl⟩ : ∃ values, Redaction.ofValues values = r := by
      unfold Redaction.resolve at hresolve
      cases hvalues : declared.mapM fun name => (name, ·) <$> store name with
      | error e => simp [hvalues] at hresolve
      | ok values =>
        rw [hvalues] at hresolve
        exact ⟨values, Except.ok.inj hresolve⟩
    exact Redaction.texts_ne
  have hback : r.active = true → ∀ s, Clear r s → Returns (fun s => .ok (r.text s)) r.restoreText s :=
    fun hactive s hs => ⟨r.text s, rfl, Redaction.restoreText_text hs hne (.inl hactive)⟩
  refine ⟨fun rec hrec hclear => ?_, fun v hv hclear => ?_, fun t ht => Redaction.restoreText_text ht hne⟩
  -- without secrets a record is left as it is
  · cases hactive : r.active with
    | false => simp [Redaction.restore, Redaction.record, hactive]
    | true =>
      obtain ⟨rec', hto, hfrom⟩ := returns_record hrec fun s hs => hback hactive s (hclear s hs)
      simp only [Redaction.restore, Redaction.record, hactive, if_true, hto]
      exact hfrom
  · cases hactive : r.active with
    | false => simp [Redaction.restoreValue, Redaction.value, hactive]
    | true =>
      obtain ⟨v', hto, hfrom⟩ := returns_value v hv fun s hs => hback hactive s (hclear s hs)
      simp only [Redaction.restoreValue, Redaction.value, hactive, if_true, hto]
      exact hfrom

/-! ### Secrets without the mark -/

/-- What makes every text clear when no secret string contains the mark: markers that are written are
read back, and no secret occurs in the path of one written before it. -/
structure Separable (r : Redaction) : Prop where
  path : ∀ entry, Written mark (r.texts.map asEntry) entry → entry.2 ≠ [] ∧ mark ∉ entry.2
  unique : ∀ entry, Written mark (r.texts.map asEntry) entry → ∀ other,
    r.texts.find? (fun other => other.2.toList == entry.2) = some other → other.1.toList = entry.1
  apart : ∀ earlier entry later, r.texts = earlier ++ entry :: later →
    ∀ other, Written mark (earlier.map asEntry) other → ¬entry.1.toList <:+: other.2

section Separable

variable {r : Redaction}

theorem clear_of_separable (hne : ∀ entry ∈ r.texts, entry.1 ≠ "")
    (hplain : ∀ entry ∈ r.texts, mark ∉ entry.1.toList) (h : Separable r) (t : String) : Clear r t where
  apart earlier entry later heq _ := by
    refine apart_of_paths (hplain entry (by simp [heq])) fun other hother => ?_
    have hearlier : ∀ e ∈ earlier.map asEntry, e.1 ≠ [] := fun e he =>
      Redaction.asEntry_ne hne e (by rw [heq, List.map_append]; exact List.mem_append_left _ he)
    exact h.apart earlier entry later heq other (mem_cut hearlier hother)
  path entry hentry := h.path entry (mem_cut (Redaction.asEntry_ne hne) hentry)
  unique entry hentry := h.unique entry (mem_cut (Redaction.asEntry_ne hne) hentry)

/-- A string that occurs in one that is not longer is that string. -/
theorem eq_of_within {a b : String} (h : a.toList <:+: b.toList)
    (hsize : b.utf8ByteSize ≤ a.utf8ByteSize) : a = b := by
  obtain ⟨x, y, heq⟩ := h
  have hb : b = String.ofList x ++ a ++ String.ofList y := by
    rw [← String.toList_inj]
    simp [← heq]
  -- what stands before and behind it is empty, as the sizes say
  rw [hb, String.utf8ByteSize_append, String.utf8ByteSize_append] at hsize
  have hx : (String.ofList x).utf8ByteSize = 0 := by omega
  have hy : (String.ofList y).utf8ByteSize = 0 := by omega
  rw [String.utf8ByteSize_eq_zero_iff] at hx hy
  rw [hb, hx, hy]
  simp

/-- Longer secrets come first, so a secret that is written is cut out of its own string. -/
theorem cut_secret (hne : ∀ entry ∈ r.texts, entry.1 ≠ "")
    (hlong : r.texts.Pairwise fun a b => b.1.utf8ByteSize ≤ a.1.utf8ByteSize)
    {first rest : List (String × String)} (heq : r.texts = first ++ rest) {entry : Replacement Char}
    (h : Written mark (first.map asEntry) entry) :
    cut mark (first.map asEntry) entry.1 = [.marker entry] := by
  obtain ⟨hinert, earlier, later, hsplit, hfirst⟩ := h
  obtain ⟨before, behind, rfl, rfl, hbehind⟩ := List.map_eq_append_iff.mp hsplit
  obtain ⟨secret, behind, rfl, rfl, rfl⟩ := List.map_eq_cons_iff.mp hbehind
  -- an earlier secret that is found in it would be as long, hence the same
  refine cut_word (fun e he => ?_) hsplit hinert fun e he hactive hin => ?_
  · refine Redaction.asEntry_ne hne e ?_
    rw [heq, List.map_append]
    exact List.mem_append_left _ he
  · obtain ⟨other, hother, rfl⟩ := List.mem_map.mp he
    rw [heq, List.append_assoc] at hlong
    have hsize := (List.pairwise_append.mp hlong).2.2 other hother secret (by simp)
    exact hactive (hfirst _ he (congrArg String.toList (eq_of_within hin hsize)))

/-- Which secrets without the mark leave every text clear. A secret that is written is found in its own
string, with its marker and nothing else to show for it. -/
theorem clear_iff {values : List (String × Option Json)} (hr : Redaction.ofValues values = r)
    (hplain : ∀ entry ∈ r.texts, mark ∉ entry.1.toList) : (∀ t, Clear r t) ↔ Separable r := by
  have hne : ∀ entry ∈ r.texts, entry.1 ≠ "" := hr ▸ Redaction.texts_ne
  have hlong := hr ▸ Redaction.texts_long values
  refine ⟨fun h => ?_, fun h t => clear_of_separable hne hplain h t⟩
  -- the string of a written secret is cut out as a whole, which leaves its marker alone
  have hwhole : ∀ entry, Written mark (r.texts.map asEntry) entry →
      .marker entry ∈ cut mark (r.texts.map asEntry) (String.ofList entry.1).toList := by
    intro entry hentry
    rw [String.toList_ofList, cut_secret hne hlong (List.append_nil _).symm hentry]
    exact List.mem_cons_self
  refine ⟨fun entry hentry => (h _).path entry (hwhole entry hentry),
    fun entry hentry => (h _).unique entry (hwhole entry hentry), ?_⟩
  -- so a marker that shows a later secret is one in a text
  intro earlier entry later heq other hother
  have hentry : entry ∈ r.texts := by simp [heq]
  have hapart := (h (String.ofList other.1)).apart earlier entry later heq (not_inert (hplain entry hentry))
  rw [String.toList_ofList, cut_secret hne hlong heq hother] at hapart
  exact not_infix_of_apart (hplain entry hentry)
    (fun hnil => hne entry hentry (String.toList_eq_nil_iff.mp hnil)) hapart

/-- Secrets without the mark leave every text clear when their paths are read back and contain none of
them. -/
theorem clear_of_plain (hne : ∀ entry ∈ r.texts, entry.1 ≠ "")
    (hpath : ∀ entry ∈ r.texts, entry.2 ≠ "" ∧ mark ∉ entry.2.toList)
    (hunique : ∀ a ∈ r.texts, ∀ b ∈ r.texts, a.2 = b.2 → a.1 = b.1)
    (hplain : ∀ a ∈ r.texts, mark ∉ a.1.toList ∧ ∀ b ∈ r.texts, ¬a.1.toList <:+: b.2.toList)
    (t : String) : Clear r t := by
  -- every secret that is written is one of the secrets
  refine clear_of_separable hne (fun entry hentry => (hplain entry hentry).1) ⟨?_, ?_, ?_⟩ t
  · intro entry hentry
    obtain ⟨secret, hsecret, rfl⟩ := List.mem_map.mp hentry.mem
    exact ⟨fun hnil => (hpath secret hsecret).1 (String.toList_eq_nil_iff.mp hnil), (hpath secret hsecret).2⟩
  · intro entry hentry other hfind
    obtain ⟨secret, hsecret, rfl⟩ := List.mem_map.mp hentry.mem
    have hsame : other.2 = secret.2 := by
      have hfound := List.find?_some hfind
      exact String.toList_inj.mp (by simpa [asEntry] using hfound)
    exact congrArg String.toList (hunique other (List.mem_of_find?_eq_some hfind) secret hsecret hsame)
  · intro earlier entry later heq other hother
    obtain ⟨secret, hsecret, rfl⟩ := List.mem_map.mp hother.mem
    exact (hplain entry (by simp [heq])).2 secret (by simp [heq, hsecret])

end Separable

/-- A service's token and user, and a pin that is part of the token. -/
def sampleSecrets : List (String × Option Json) :=
  [("api", some (.obj [("token", .str "s3cr3t-token"), ("user", .str "bob")])),
    ("pin", some (.str "s3cr3t")), ("absent", none)]

/-- The store that holds some secrets. -/
def storeOf (secrets : List (String × Option Json)) (name : String) : Except String (Option Json) :=
  .ok ((secrets.find? (·.1 == name)).bind Prod.snd)

/-- A record, a value and a text come back: one secret contains another, and a text has a mark of its own. -/
theorem sample_round_trip :
    (Redaction.ofValues sampleSecrets).restore ((Redaction.ofValues sampleSecrets).record
        (.winner (.arr [.str "Bearer s3cr3t-token", .str "bob's s3cr3t"]))) =
        .ok (.winner (.arr [.str "Bearer s3cr3t-token", .str "bob's s3cr3t"])) ∧
      (Redaction.ofValues sampleSecrets).restoreValue ((Redaction.ofValues sampleSecrets).value
        (.obj [("bob", .str "s3cr3t\x01")])) = .ok (.obj [("bob", .str "s3cr3t\x01")]) ∧
      (Redaction.ofValues sampleSecrets).restoreText
        ((Redaction.ofValues sampleSecrets).text "Bearer s3cr3t-token") = .ok "Bearer s3cr3t-token" := by
  have hclear : ∀ t, Clear (Redaction.ofValues sampleSecrets) t :=
    clear_of_plain (by decide +kernel) (by decide +kernel) (by decide +kernel) (by decide +kernel)
  have hresolve : Redaction.resolve ["api", "pin", "absent"] (storeOf sampleSecrets) =
      .ok (Redaction.ofValues sampleSecrets) := rfl
  obtain ⟨hrecord, hvalue, htext⟩ := secrets_round_trip _ _ _ hresolve
  refine ⟨hrecord _ ?_ fun s _ => hclear s, hvalue _ ?_ fun s _ => hclear s,
    htext _ (hclear _) (.inl (by decide +kernel))⟩
  · exact ⟨trivial, trivial, trivial⟩
  · exact ⟨List.pairwise_singleton _ _, trivial, trivial⟩

/-! ### A secret inside a marker -/

/-- One secret is the name of another. -/
def nameSecrets : List (String × Option Json) := [("x", some (.str "hello")), ("y", some (.str "x"))]

/-- The second secret is found in the marker of the first, and neither a text, a value nor a record comes
back. -/
theorem marker_redacted :
    Redaction.resolve ["x", "y"] (storeOf nameSecrets) = .ok (Redaction.ofValues nameSecrets) ∧
      (Redaction.ofValues nameSecrets).restoreText ((Redaction.ofValues nameSecrets).text "hello") =
        .ok "\x01y\x01" ∧
      (Redaction.ofValues nameSecrets).restoreValue
        ((Redaction.ofValues nameSecrets).value (.str "hello")) = .ok (.str "\x01y\x01") ∧
      (Redaction.ofValues nameSecrets).restore
        ((Redaction.ofValues nameSecrets).record (.winner (.str "hello"))) =
        .ok (.winner (.str "\x01y\x01")) := by
  refine ⟨rfl, ?_, ?_, ?_⟩ <;> decide +kernel

/-- A secret found in a marker may leave a text that comes back all the same: here `x` in the marker of the
first secret becomes the marker of `q`, and what is then written reads as `1`, `q` and `2`. -/
def spelledSecrets : List (String × Option Json) :=
  [("axb", some (.str "1q2")), ("a", some (.str "1")), ("b", some (.str "2")), ("q", some (.str "x"))]

example : (Redaction.ofValues spelledSecrets).text "1q2" = "\x01a\x01q\x01b\x01" ∧
    (Redaction.ofValues spelledSecrets).restoreText "\x01a\x01q\x01b\x01" = .ok "1q2" := by
  decide +kernel

end Ouro
