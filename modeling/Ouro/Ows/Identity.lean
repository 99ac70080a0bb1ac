import Ouro.Ows.References

/-!
# Identities of invocations

A record of a run is kept under the reference of an invocation and what it records (`recordKey`), so
no two invocations share a record. An attempt of a `try` is an invocation of its own; to recognise what an
earlier attempt did, a call is also known by its logical identity, its reference with every enclosing
attempt replaced by the first (`logical`).
-/

namespace Ouro.Ows

open Lib

/-! ### Records -/

/-- What a record under an invocation is about. -/
inductive RecordKind where
  | task | call | jump | winner | child | wait
  | event (i : Nat)
  | retry (k : Nat)
  | decision (k : Nat)
  | attempt (k : Nat)
deriving DecidableEq

/-- What a record's key adds to the reference. -/
def RecordKind.spell : RecordKind → String
  | .task => "#task"
  | .call => "#call"
  | .jump => "#jump"
  | .winner => "#winner"
  | .child => "#child"
  | .wait => "#wait"
  | .event i => "#event[" ++ toString i ++ "]"
  | .retry k => "#retry[" ++ toString k ++ "]"
  | .decision k => "#retry-decision[" ++ toString k ++ "]"
  | .attempt k => "#attempt[" ++ toString k ++ "]"

/-- The key of a record of an invocation. -/
def recordKey (l : List Segment) (kind : RecordKind) : String := reference l ++ kind.spell

/-- The words of record keys, from the end. -/
inductive RecordWord where
  | task | call | jump | winner | child | wait | event | retry | decision | attempt
deriving DecidableEq

def RecordWord.letters : RecordWord → List Char
  | .task => ['k', 's', 'a', 't', '#']
  | .call => ['l', 'l', 'a', 'c', '#']
  | .jump => ['p', 'm', 'u', 'j', '#']
  | .winner => ['r', 'e', 'n', 'n', 'i', 'w', '#']
  | .child => ['d', 'l', 'i', 'h', 'c', '#']
  | .wait => ['t', 'i', 'a', 'w', '#']
  | .event => ['t', 'n', 'e', 'v', 'e', '#']
  | .retry => ['y', 'r', 't', 'e', 'r', '#']
  | .decision => ['n', 'o', 'i', 's', 'i', 'c', 'e', 'd', '-', 'y', 'r', 't', 'e', 'r', '#']
  | .attempt => ['t', 'p', 'm', 'e', 't', 't', 'a', '#']

theorem letters_prefix_free (c d : RecordWord) (h : c.letters <+: d.letters) : c = d := by
  cases c <;> cases d <;> first | rfl | exact absurd h (by decide)

/-- The word of a kind, and its counter. -/
def RecordKind.parts : RecordKind → RecordWord × Option Nat
  | .task => (.task, none)
  | .call => (.call, none)
  | .jump => (.jump, none)
  | .winner => (.winner, none)
  | .child => (.child, none)
  | .wait => (.wait, none)
  | .event i => (.event, some i)
  | .retry k => (.retry, some k)
  | .decision k => (.decision, some k)
  | .attempt k => (.attempt, some k)

theorem parts_injective : Function.Injective RecordKind.parts := by
  intro k k' h
  cases k <;> cases k' <;> simp_all [RecordKind.parts]

/-- A counter in brackets, from the end. -/
def counterLetters : Option Nat → List Char
  | none => []
  | some n => ']' :: ((Nat.toDigits 10 n).reverse ++ ['['])

theorem RecordKind.spell_reverse (k : RecordKind) :
    k.spell.toList.reverse = counterLetters k.parts.2 ++ k.parts.1.letters := by
  cases k with
  | event | retry | decision | attempt =>
    simp only [RecordKind.spell, RecordKind.parts, counterLetters, String.toList_append, toList_toString,
      List.reverse_append, List.cons_append, List.append_assoc]
    rfl
  | _ => rfl

/-- A record's key says whose record it is and what it is about. -/
theorem spell_inj {x y : List Char} {k k' : RecordKind} (h : x ++ k.spell.toList = y ++ k'.spell.toList) :
    x = y ∧ k = k' := by
  have hrev := congrArg List.reverse h
  rw [List.reverse_append, List.reverse_append, RecordKind.spell_reverse, RecordKind.spell_reverse,
    List.append_assoc, List.append_assoc] at hrev
  -- no word ends with the bracket that closes a counter
  have hword : ∀ (c : RecordWord) (r s : List Char), c.letters ++ r ≠ ']' :: s := by
    intro c r s
    cases c <;> simp [RecordWord.letters]
  have hkey : k.parts.2 = k'.parts.2 ∧
      k.parts.1.letters ++ x.reverse = k'.parts.1.letters ++ y.reverse := by
    -- a counter is closed by a bracket, and a kind without one ends in a letter
    cases hn : k.parts.2 with
    | none =>
      cases hm : k'.parts.2 with
      | none => exact ⟨rfl, by rwa [hn, hm] at hrev⟩
      | some m =>
        rw [hn, hm] at hrev
        exact absurd hrev (hword _ _ _)
    | some n =>
      cases hm : k'.parts.2 with
      | none =>
        rw [hn, hm] at hrev
        exact absurd hrev.symm (hword _ _ _)
      | some m =>
        rw [hn, hm] at hrev
        simp only [counterLetters, List.cons_append, List.append_assoc, List.cons.injEq,
          true_and] at hrev
        obtain ⟨rfl, -, hrest⟩ := Words.digits_reverse_inj (by decide) (by decide) hrev
        exact ⟨rfl, hrest⟩
  -- the same counter, and then the same word
  obtain ⟨hcounter, hrest⟩ := hkey
  obtain ⟨hletters, hxy⟩ := Words.tag_inj letters_prefix_free hrest
  exact ⟨List.reverse_injective hxy, parts_injective (Prod.ext hletters hcounter)⟩

theorem recordKey_inj {w : Workflow} {t : Task} {l m : List Segment} {k k' : RecordKind}
    (hl : (w.follow t l).isSome) (hm : (w.follow t m).isSome) (h : recordKey l k = recordKey m k') :
    l = m ∧ k = k' := by
  have hchars := congrArg String.toList h
  rw [recordKey, recordKey, String.toList_append, String.toList_append] at hchars
  obtain ⟨href, hk⟩ := spell_inj hchars
  exact ⟨reference_injective hl hm (String.toList_inj.mp href), hk⟩

/-! ### Logical identities -/

/-- A running attempt of a `try`: its prefix, that of the first attempt, and its number. -/
abbrev Attempt := String × String × Nat

/-- The attempt's prefix is one of the reference's, up to a slash, and not the first attempt's. -/
def folds (reference : String) (a : Attempt) : Bool :=
  decide (a.1 ≠ a.2.1) && a.1.toList.isPrefixOf reference.toList &&
    ((reference.toList.drop a.1.toList.length).head?.all (· = '/'))

/-- The longest of the prefixes that apply; of equally long ones the last. -/
def innermost (attempts : List Attempt) (reference : String) : Option Attempt :=
  (attempts.filter (folds reference)).foldl
    (fun best a => if best.any fun b => decide (a.1.toList.length < b.1.toList.length) then best else some a)
    none

/-- The reference as the first attempt of every enclosing `try` names it. -/
def logical (attempts : List Attempt) : Nat → String → Option String
  | 0, _ => none
  | fuel + 1, reference =>
    match innermost attempts reference with
    | none => some reference
    | some a =>
      logical attempts fuel (a.2.1 ++ String.ofList (reference.toList.drop a.1.toList.length))

/-- A later attempt of a `try`. -/
def Segment.later : Segment → Bool
  | .list (.attempt k) _ _ _ => decide (k ≠ 1)
  | _ => false

/-- The same in the first attempt. -/
def Segment.toFirst : Segment → Segment
  | .list (.attempt _) index name visit => .list (.attempt 1) index name visit
  | s => s

/-- The invocation with the first attempt of every `try` around it. -/
def firstAttempts (l : List Segment) : List Segment := l.map Segment.toFirst

/-- Attempts are registered by tries of the definition. -/
def Workflow.Registers (w : Workflow) (attempts : List Attempt) : Prop :=
  ∀ a ∈ attempts, ∃ l t tasks, w.follow w.top l = some t ∧ t.nested w (.attempt a.2.2) = some tasks ∧
    a.1 = reference l ++ (Nest.attempt a.2.2).spell ∧ a.2.1 = reference l ++ (Nest.attempt 1).spell

/-- The later attempts around an invocation are registered. -/
def Registered (attempts : List Attempt) (l : List Segment) : Prop :=
  ∀ first k index name visit later, l = first ++ .list (.attempt k) index name visit :: later → k ≠ 1 →
    ∃ a ∈ attempts, a.1 = reference first ++ (Nest.attempt k).spell ∧ a.2.2 = k

/-! ### Folding -/

variable {w : Workflow} {attempts : List Attempt}

theorem attempt_spell_toList (k : Nat) : (Nest.attempt k).spell.toList =
    '/' :: 't' :: 'r' :: 'y' :: (if k = 1 then [] else '[' :: (Nat.toDigits 10 k ++ [']'])) := by
  unfold Nest.spell
  by_cases hk : k = 1
  · simp only [if_pos hk]
    rfl
  · simp only [if_neg hk, String.toList_append, toList_toString]
    rfl

/-- The longest of a list of attempts, the last of equally long ones. -/
theorem innermost_cases (attempts : List Attempt) (r : String) :
    (innermost attempts r = none ∧ ∀ a ∈ attempts, folds r a = false) ∨
      ∃ a ∈ attempts, innermost attempts r = some a ∧ folds r a = true ∧
        ∀ b ∈ attempts, folds r b = true → b.1.toList.length ≤ a.1.toList.length := by
  -- by induction at the end of the list
  induction attempts using List.reverseRecOn with
  | nil => exact .inl ⟨rfl, by simp⟩
  | append_singleton attempts x ih =>
    unfold innermost at ih ⊢
    rw [List.filter_append, List.foldl_append]
    -- the last attempt applies: it is the longest, or one before it is longer
    by_cases hx : folds r x = true
    · rw [List.filter_cons_of_pos hx, List.filter_nil, List.foldl_cons, List.foldl_nil]
      right
      rcases ih with ⟨hnone, hall⟩ | ⟨a, ha, hsome, hfolds, hmax⟩
      · refine ⟨x, by simp, by simp [hnone], hx, fun b hb hb' => ?_⟩
        rcases List.mem_append.mp hb with hb | hb
        · simp [hall b hb] at hb'
        · rw [List.mem_singleton.mp hb]
      · rw [hsome]
        by_cases hlt : x.1.toList.length < a.1.toList.length
        · refine ⟨a, List.mem_append_left _ ha, by simp [hlt], hfolds, fun b hb hb' => ?_⟩
          rcases List.mem_append.mp hb with hb | hb
          · exact hmax b hb hb'
          · rw [List.mem_singleton.mp hb]
            exact hlt.le
        · refine ⟨x, by simp, by simp [hlt], hx, fun b hb hb' => ?_⟩
          rcases List.mem_append.mp hb with hb | hb
          · exact (hmax b hb hb').trans (not_lt.mp hlt)
          · rw [List.mem_singleton.mp hb]
    -- it does not apply
    · rw [List.filter_cons_of_neg hx, List.filter_nil, List.foldl_nil]
      rcases ih with ⟨hnone, hall⟩ | ⟨a, ha, hsome, hfolds, hmax⟩
      · refine .inl ⟨hnone, fun a ha => ?_⟩
        rcases List.mem_append.mp ha with ha | ha
        · exact hall a ha
        · rw [List.mem_singleton.mp ha]
          simpa using hx
      · refine .inr ⟨a, List.mem_append_left _ ha, hsome, hfolds, fun b hb hb' => ?_⟩
        rcases List.mem_append.mp hb with hb | hb
        · exact hmax b hb hb'
        · rw [List.mem_singleton.mp hb] at hb'
          exact absurd hb' hx

theorem folds_iff {r : String} {a : Attempt} : folds r a = true ↔
    a.1 ≠ a.2.1 ∧ ∃ z, r.toList = a.1.toList ++ z ∧ ∀ c x, z = c :: x → c = '/' := by
  unfold folds
  rw [Bool.and_eq_true, Bool.and_eq_true, decide_eq_true_iff, List.isPrefixOf_iff_prefix, and_assoc]
  refine and_congr_right fun _ => ⟨?_, ?_⟩
  · rintro ⟨⟨z, hz⟩, hhead⟩
    refine ⟨z, hz.symm, fun c x hx => ?_⟩
    rw [← hz, List.drop_left, hx] at hhead
    simpa using hhead
  · rintro ⟨z, hz, hhead⟩
    refine ⟨⟨z, hz.symm⟩, ?_⟩
    rw [hz, List.drop_left]
    cases z with
    | nil => rfl
    | cons c x => simpa using hhead c x rfl

theorem Segment.later_eq_true {s : Segment} (h : s.later = true) :
    ∃ k index name visit, s = .list (.attempt k) index name visit ∧ k ≠ 1 := by
  unfold Segment.later at h
  split at h
  · exact ⟨_, _, _, _, rfl, of_decide_eq_true h⟩
  · cases h

theorem Segment.toFirst_of_first {s : Segment} (h : s.later = false) : s.toFirst = s := by
  unfold Segment.toFirst
  split
  · next k index name visit =>
    have hk : k = 1 := not_not.mp (of_decide_eq_false h)
    rw [hk]
  · rfl

/-- The segment leads to the same task in every attempt. -/
theorem Segment.task_toFirst {t t' : Task} {s : Segment} (h : s.task w t = some t') :
    s.toFirst.task w t = some t' := by
  unfold Segment.toFirst
  split
  · next k index name visit =>
    obtain ⟨tasks, hnested, htask⟩ := Segment.task_list h
    have hfirst : t.nested w (.attempt 1) = some tasks := by
      cases hkind : t.kind with
      | try_ body catch_ =>
        by_cases hk : k = 0
        · simp [Task.nested, hkind, hk] at hnested
        · simpa [Task.nested, hkind, hk] using hnested
      | _ => simp [Task.nested, hkind] at hnested
    rw [Segment.task, hfirst, Option.bind_some, htask]
  · exact h

/-- The number of later attempts around an invocation. -/
def laterAttempts (l : List Segment) : Nat := l.countP Segment.later

/-- Either every attempt around the invocation is the first, or one is the innermost later one. -/
theorem innermost_later (l : List Segment) : (∀ s ∈ l, s.later = false) ∨
    ∃ first s later, l = first ++ s :: later ∧ s.later = true ∧ ∀ s ∈ later, s.later = false := by
  induction l with
  | nil => exact .inl (by simp)
  | cons s l ih =>
    rcases ih with hnone | ⟨first, s', later, rfl, hs', hlater⟩
    · cases hs : s.later with
      | true => exact .inr ⟨[], s, l, rfl, hs, hnone⟩
      | false => exact .inl (List.forall_mem_cons.mpr ⟨hs, hnone⟩)
    · exact .inr ⟨s :: first, s', later, rfl, hs', hlater⟩

theorem firstAttempts_eq_self {l : List Segment} (h : ∀ s ∈ l, s.later = false) : firstAttempts l = l := by
  unfold firstAttempts
  rw [List.map_congr_left fun s hs => Segment.toFirst_of_first (h s hs), List.map_id']

/-- Two ways to cut a list at a segment. -/
theorem cut_cases {first first' later later' : List Segment} {s s' : Segment}
    (h : first ++ s :: later = first' ++ s' :: later') :
    (first = first' ∧ s = s' ∧ later = later') ∨ s' ∈ later ∨ ∃ mid, first = first' ++ s' :: mid := by
  rcases List.append_eq_append_iff.mp h with ⟨mid, rfl, hmid⟩ | ⟨mid, rfl, hmid⟩
  · cases mid with
    | nil =>
      obtain ⟨rfl, rfl⟩ := List.cons.inj hmid
      exact .inl ⟨(List.append_nil _).symm, rfl, rfl⟩
    | cons c mid =>
      obtain ⟨rfl, rfl⟩ := List.cons.inj hmid
      exact .inr (.inl (by simp))
  · cases mid with
    | nil =>
      obtain ⟨rfl, rfl⟩ := List.cons.inj hmid
      exact .inl ⟨List.append_nil _, rfl, rfl⟩
    | cons c mid =>
      obtain ⟨rfl, rfl⟩ := List.cons.inj hmid
      exact .inr (.inr ⟨mid, rfl⟩)

theorem append_right_cancel {x y z : String} (h : x ++ z = y ++ z) : x = y := by
  have hchars := congrArg String.toList h
  rw [String.toList_append, String.toList_append] at hchars
  exact String.toList_inj.mp (List.append_cancel_right hchars)

theorem append_attempt_inj {x : String} {k k' : Nat}
    (h : x ++ (Nest.attempt k).spell = x ++ (Nest.attempt k').spell) (hk : k ≠ 1) : k' ≠ 1 := by
  have hchars := congrArg String.toList h
  rw [String.toList_append, String.toList_append, attempt_spell_toList, attempt_spell_toList,
    if_neg hk] at hchars
  rintro rfl
  simp at hchars

/-- A registered attempt that names a part of the reference is one around the invocation. -/
theorem Workflow.Registers.around {l : List Segment} {a : Attempt} (hw : w.Registers attempts)
    (hvalid : (w.follow w.top l).isSome) (ha : a ∈ attempts) (hfolds : folds (reference l) a = true) :
    ∃ first index name visit later, l = first ++ .list (.attempt a.2.2) index name visit :: later ∧
      a.2.2 ≠ 1 ∧ a.1 = reference first ++ (Nest.attempt a.2.2).spell ∧
      a.2.1 = reference first ++ (Nest.attempt 1).spell := by
  obtain ⟨first, t, tasks, ht, hnested, hpath, hone⟩ := hw a ha
  obtain ⟨hne, z, hz, hslash⟩ := folds_iff.mp hfolds
  have hk : a.2.2 ≠ 1 := by
    intro hk
    rw [hpath, hone, hk] at hne
    exact hne rfl
  rw [hpath] at hz
  -- the reference goes on with a slash, or ends
  obtain ⟨z', hz'⟩ : ∃ z', z ++ ['/'] = '/' :: z' := by
    cases z with
    | nil => exact ⟨[], rfl⟩
    | cons c x => exact ⟨x ++ ['/'], by rw [hslash c x rfl, List.cons_append]⟩
  obtain ⟨index, name, visit, later, hl⟩ :=
    nest_around hvalid ht hnested Construct.noConfusion (by rw [hz, List.append_assoc, hz'])
  exact ⟨first, index, name, visit, later, hl, hk, hpath, hone⟩

/-- The innermost registered attempt that names a part of the reference is the innermost later attempt
around the invocation. -/
theorem innermost_reference {first later : List Segment} {k index visit : Nat} {name : String}
    (hvalid : (w.follow w.top (first ++ .list (.attempt k) index name visit :: later)).isSome)
    (hk : k ≠ 1) (hlater : ∀ s ∈ later, s.later = false) (hw : w.Registers attempts)
    (hregistered : Registered attempts (first ++ .list (.attempt k) index name visit :: later)) :
    ∃ a, innermost attempts (reference (first ++ .list (.attempt k) index name visit :: later)) = some a ∧
      a.1 = reference first ++ (Nest.attempt k).spell ∧ a.2.1 = reference first ++ (Nest.attempt 1).spell := by
  -- the attempt itself is registered, so some attempt applies
  obtain ⟨a₀, ha₀, hpath₀, hk₀⟩ := hregistered first k index name visit later rfl hk
  have hfolds₀ : folds (reference (first ++ .list (.attempt k) index name visit :: later)) a₀ = true := by
    obtain ⟨first', -, -, -, -, hpath, hone⟩ := hw a₀ ha₀
    rw [hk₀, hpath₀] at hpath
    rw [← append_right_cancel hpath] at hone
    refine folds_iff.mpr ⟨fun heq => ?_, '/' :: (slotChars index name visit ++ (reference later).toList),
      ?_, fun c x hx => (List.cons.inj hx).1.symm⟩
    · rw [hpath₀, hone] at heq
      exact append_attempt_inj heq hk rfl
    · rw [hpath₀]
      exact reference_cut ..
  -- the longest that applies names a part of the reference
  rcases innermost_cases attempts (reference (first ++ .list (.attempt k) index name visit :: later)) with
    ⟨-, hnone⟩ | ⟨a, ha, hsome, hfolds, hmax⟩
  · simp [hnone a₀ ha₀] at hfolds₀
  obtain ⟨first', index', name', visit', later', hcut, hk', hpath, hone⟩ := hw.around hvalid ha hfolds
  refine ⟨a, hsome, ?_⟩
  -- it is this attempt, one further in, or one further out
  rcases cut_cases hcut with ⟨rfl, hs, -⟩ | hmem | ⟨mid, rfl⟩
  · cases hs
    exact ⟨hpath, hone⟩
  · have hfalse := hlater _ hmem
    simp [Segment.later, hk'] at hfalse
  · -- an attempt further out has a shorter prefix
    have hlong := hmax a₀ ha₀ hfolds₀
    rw [hpath, hpath₀, String.toList_append, reference_cut, String.toList_append] at hlong
    simp only [List.length_append, List.length_cons] at hlong
    omega

/-- Folding a reference gives that of the invocation in the first attempts. -/
theorem logical_reference {l : List Segment} (hvalid : (w.follow w.top l).isSome) (hw : w.Registers attempts)
    (hregistered : Registered attempts l) {fuel : Nat} (hfuel : laterAttempts l < fuel) :
    logical attempts fuel (reference l) = some (reference (firstAttempts l)) := by
  -- induction on the later attempts around the invocation
  induction fuel generalizing l with
  | zero => exact absurd hfuel (Nat.not_lt_zero _)
  | succ fuel ih =>
    -- there is none, or an innermost one
    rcases innermost_later l with hnone | ⟨first, s, later, rfl, hs, hlater⟩
    -- without one nothing applies, and the reference is as it is
    · have hinnermost : innermost attempts (reference l) = none := by
        rcases innermost_cases attempts (reference l) with ⟨hnone, -⟩ | ⟨a, ha, -, hfolds, -⟩
        · exact hnone
        · obtain ⟨first, index, name, visit, later, rfl, hk, -⟩ := hw.around hvalid ha hfolds
          have hfalse := hnone _ (List.mem_append_right _ List.mem_cons_self)
          simp [Segment.later, hk] at hfalse
      rw [logical, hinnermost, firstAttempts_eq_self hnone]
    -- with one, its prefix is replaced by that of the first attempt
    · obtain ⟨k, index, name, visit, rfl, hk⟩ := Segment.later_eq_true hs
      obtain ⟨a, hsome, hpath, hone⟩ := innermost_reference hvalid hk hlater hw hregistered
      -- the rest of the reference after the attempt's prefix is kept
      have hfold : a.2.1 ++ String.ofList ((reference (first ++ .list (.attempt k) index name visit :: later)
          ).toList.drop a.1.toList.length) =
          reference (first ++ .list (.attempt 1) index name visit :: later) := by
        refine String.toList_inj.mp ?_
        rw [String.toList_append, String.toList_ofList, hone, hpath, reference_cut, List.drop_left,
          reference_cut]
      rw [logical, hsome]
      simp only
      rw [hfold]
      -- one later attempt less, and no attempt further out has changed
      have hvalid' : (w.follow w.top (first ++ .list (.attempt 1) index name visit :: later)).isSome := by
        rw [follow_append] at hvalid ⊢
        cases hfirst : w.follow w.top first with
        | none => simp [hfirst] at hvalid
        | some t =>
          rw [hfirst, Option.bind_some] at hvalid
          obtain ⟨t', htask, hvalid⟩ := follow_cons hvalid
          have hfirst' := Segment.task_toFirst htask
          rw [Option.bind_some, Workflow.follow, show Segment.task w t
            (.list (.attempt 1) index name visit) = some t' from hfirst', Option.bind_some]
          exact hvalid
      have hregistered' : Registered attempts (first ++ .list (.attempt 1) index name visit :: later) := by
        intro first' k' index' name' visit' later' hcut hk'
        rcases cut_cases hcut with ⟨-, hs, -⟩ | hmem | ⟨mid, rfl⟩
        · cases hs
          exact absurd rfl hk'
        · have hfalse := hlater _ hmem
          simp [Segment.later, hk'] at hfalse
        · refine hregistered first' k' index' name' visit'
            (mid ++ .list (.attempt k) index name visit :: later) ?_ hk'
          rw [List.append_assoc, List.cons_append]
      -- one later attempt less is counted
      have hcount : laterAttempts (first ++ .list (.attempt k) index name visit :: later) =
          laterAttempts (first ++ .list (.attempt 1) index name visit :: later) + 1 := by
        unfold laterAttempts
        rw [List.countP_append, List.countP_append, List.countP_cons_of_pos hs,
          List.countP_cons_of_neg (by simp [Segment.later]), Nat.add_assoc]
      have hsame : firstAttempts (first ++ .list (.attempt 1) index name visit :: later) =
          firstAttempts (first ++ .list (.attempt k) index name visit :: later) := by
        unfold firstAttempts
        rw [List.map_append, List.map_append]
        rfl
      rw [ih hvalid' hregistered' (by omega), hsame]

theorem follow_firstAttempts {t : Task} {l : List Segment} (h : (w.follow t l).isSome) :
    (w.follow t (firstAttempts l)).isSome := by
  induction l generalizing t with
  | nil => exact h
  | cons s l ih =>
    obtain ⟨t', hs, hl⟩ := follow_cons h
    rw [firstAttempts, List.map_cons, Workflow.follow, Segment.task_toFirst hs, Option.bind_some]
    exact ih hl

/-- In a run of a definition, whatever its names: two invocations share neither a reference nor the key
of a record, and two kinds of records of one invocation share no key. Folding the reference of an
invocation ends, whichever other attempts are registered, and two of them fold to the same identity
exactly when they are the same up to the attempts around them. -/
theorem invocation_identity (w : Workflow) :
    (∀ l m, w.Invokes l → w.Invokes m → reference l = reference m → l = m) ∧
    (∀ l m k k', w.Invokes l → w.Invokes m → recordKey l k = recordKey m k' → l = m ∧ k = k') ∧
    ∀ l m attempts attempts', w.Invokes l → w.Invokes m → w.Registers attempts → w.Registers attempts' →
      Registered attempts l → Registered attempts' m →
      ∃ r r', (∀ fuel, laterAttempts l < fuel → logical attempts fuel (reference l) = some r) ∧
        (∀ fuel, laterAttempts m < fuel → logical attempts' fuel (reference m) = some r') ∧
        (r = r' ↔ firstAttempts l = firstAttempts m) := by
  refine ⟨fun l m hl hm => reference_injective hl.leads hm.leads,
    fun l m k k' hl hm => recordKey_inj hl.leads hm.leads, ?_⟩
  intro l m attempts attempts' hl hm hw hw' hregistered hregistered'
  refine ⟨_, _, fun fuel hfuel => logical_reference hl.leads hw hregistered hfuel,
    fun fuel hfuel => logical_reference hm.leads hw' hregistered' hfuel, ?_⟩
  exact ⟨reference_injective (follow_firstAttempts hl.leads) (follow_firstAttempts hm.leads),
    fun h => by rw [h]⟩

/-- A `try` named like its own attempts, around a call named like a visit of another. -/
def misnamed : Workflow :=
  { tasks := [("try", { kind := .try_ [("0/x[1]", { kind := .call "f" none })] { retry := true } })] }

/-- The call in an attempt of it. -/
def misnamedCall (k : Nat) : List Segment := [.list .do_ 0 "try" 0, .list (.attempt k) 0 "0/x[1]" 0]

/-- What its second attempt registers. -/
def secondAttempt : List Attempt := [("/do/0/try/try[2]", "/do/0/try/try", 2)]

theorem secondAttempt_registers : misnamed.Registers secondAttempt := by
  intro a ha
  obtain rfl := List.mem_singleton.mp ha
  exact ⟨[.list .do_ 0 "try" 0], _, _, rfl, rfl, by decide, by decide⟩

theorem secondAttempt_registered : Registered secondAttempt (misnamedCall 2) := by
  intro first k index name visit later hcut hk
  have hcall : [.list .do_ 0 "try" 0] ++ .list (.attempt 2) 0 "0/x[1]" 0 :: [] =
      first ++ .list (.attempt k) index name visit :: later := hcut
  rcases cut_cases hcall with ⟨rfl, hs, -⟩ | hmem | ⟨mid, hmid⟩
  · cases hs
    exact ⟨_, List.mem_singleton.mpr rfl, by decide, rfl⟩
  · cases hmem
  · cases first with
    | nil => cases hmid
    | cons s first => simp at hmid

/-- Names that spell brackets and slashes: two calls keep their own records, and an attempt its logical
identity. -/
theorem misnamed_identities :
    recordKey (misnamedCall 1) .call ≠ recordKey (misnamedCall 2) .call ∧
      ∀ fuel, 1 < fuel → logical secondAttempt fuel "/do/0/try/try[2]/0/0/x[1]" =
        some "/do/0/try/try/0/0/x[1]" := by
  have hone : misnamed.Invokes (misnamedCall 1) := ⟨⟨0, "try", 0, _, rfl⟩, rfl⟩
  have htwo : misnamed.Invokes (misnamedCall 2) := ⟨⟨0, "try", 0, _, rfl⟩, rfl⟩
  have hnone : Registered [] (misnamedCall 1) := by
    intro first k index name visit later hcut hk
    have hcall : [.list .do_ 0 "try" 0] ++ .list (.attempt 1) 0 "0/x[1]" 0 :: [] =
        first ++ .list (.attempt k) index name visit :: later := hcut
    rcases cut_cases hcall with ⟨rfl, hs, -⟩ | hmem | ⟨mid, hmid⟩
    · cases hs
      exact absurd rfl hk
    · cases hmem
    · cases first with
      | nil => cases hmid
      | cons s first => simp at hmid
  obtain ⟨-, hkeys, hlogical⟩ := invocation_identity misnamed
  refine ⟨fun h => absurd (hkeys _ _ _ _ hone htwo h).1 (by decide), fun fuel hfuel => ?_⟩
  obtain ⟨r, r', hr, hr', hiff⟩ := hlogical _ _ _ _ htwo hone secondAttempt_registers
    (fun a ha => by cases ha) secondAttempt_registered hnone
  have hreference : reference (misnamedCall 2) = "/do/0/try/try[2]/0/0/x[1]" := by decide
  have hfirst : reference (misnamedCall 1) = "/do/0/try/try/0/0/x[1]" := by decide
  have hsame : logical [] 1 (reference (misnamedCall 1)) = some (reference (misnamedCall 1)) := rfl
  rw [← hreference, hr fuel hfuel, hiff.mpr rfl, ← hr' 1 (by decide), hsame, hfirst]

end Ouro.Ows
