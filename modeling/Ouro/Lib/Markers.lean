import Ouro.Lib.Replace

/-!
# Text with markers

A text in which a mark delimits markers: a doubled mark is the mark itself, and `mark path mark` stands
for the word of that path. Redacting a text replaces the occurrences of each word in turn by its marker.

The abstract side treats a marker as one piece. A text is a list of pieces, at first its characters, and
each word in turn takes its occurrences in what is still plain (`put`, `cut`); what the pieces stand for
never changes (`meaning_cut`), and a word that was taken once has no occurrence left
(`mem_cut`).

The concrete side replaces in the pieces as they are written (`flat`), where a word may be found in a
marker already there. The two sides agree as long as no occurrence that the search takes overlaps a
marker (`Apart`): then what is taken are the pieces of the word (`replaceAll_flat`), pass by pass
(`foldl_flat`).
-/

namespace Lib

namespace Markers

open Replace

variable {α : Type} [DecidableEq α]

/-! ### Pieces -/

/-- A word and the path of its marker. -/
abbrev Replacement (α : Type) := List α × List α

/-- A piece of a marked text. -/
inductive Piece (α : Type) where
  | char (c : α)
  | mark
  | marker (entry : Replacement α)
  deriving DecidableEq

/-- The pieces of an unmarked text. -/
def pieces (m : α) (t : List α) : List (Piece α) := t.map fun c => if c = m then .mark else .char c

/-- How a piece is written. -/
def spell (m : α) : Piece α → List α
  | .char c => [c]
  | .mark => [m, m]
  | .marker entry => m :: entry.2 ++ [m]

/-- How pieces are written. -/
def flat (m : α) (ps : List (Piece α)) : List α := ps.flatMap (spell m)

/-- What a piece stands for. -/
def stands (m : α) : Piece α → List α
  | .char c => [c]
  | .mark => [m]
  | .marker entry => entry.1

/-- What pieces stand for. -/
def meaning (m : α) (ps : List (Piece α)) : List α := ps.flatMap (stands m)

/-- A text with its marks doubled. -/
def escape (m : α) (t : List α) : List α := t.flatMap fun c => if c = m then [m, m] else [c]

/-- A mark is never a plain character. -/
def Marked (m : α) (ps : List (Piece α)) : Prop := .char m ∉ ps

/-- Replacing the word by its marker changes nothing: they are written alike. -/
def Inert (m : α) (entry : Replacement α) : Prop := m :: entry.2 ++ [m] = escape m entry.1

instance (m : α) (entry : Replacement α) : Decidable (Inert m entry) :=
  inferInstanceAs (Decidable (_ = _))

/-- Puts the marker of a word in place of its occurrences. -/
def put (m : α) (ps : List (Piece α)) (entry : Replacement α) : List (Piece α) :=
  if Inert m entry then ps else replaceAll (pieces m entry.1) [.marker entry] ps

/-- The pieces into which the words cut a text, each taking what those before it have left plain. -/
def cut (m : α) (entries : List (Replacement α)) (t : List α) : List (Piece α) :=
  entries.foldl (put m) (pieces m t)

/-- No occurrence of the word that a search takes in the written pieces overlaps a marker. -/
def Apart (m : α) (word : List α) (ps : List (Piece α)) : Prop :=
  ∀ before entry behind i, ps = before ++ .marker entry :: behind →
    Taken (escape m word) (flat m ps) i →
    i + (escape m word).length ≤ (flat m before).length ∨
      (flat m (before ++ [.marker entry])).length ≤ i

theorem flat_pieces (m : α) (t : List α) : flat m (pieces m t) = escape m t := by
  unfold flat pieces escape
  rw [List.flatMap_map]
  congr 1
  funext c
  split <;> rfl

theorem meaning_pieces (m : α) (t : List α) : meaning m (pieces m t) = t := by
  unfold meaning pieces
  rw [List.flatMap_map]
  refine Eq.trans ?_ (List.flatMap_singleton' t)
  congr 1
  funext c
  split
  · next h => rw [h]; rfl
  · rfl

theorem marked_pieces (m : α) (t : List α) : Marked m (pieces m t) := by
  intro hmem
  obtain ⟨c, -, hc⟩ := List.mem_map.mp hmem
  split at hc
  · cases hc
  · next hne => exact hne (Piece.char.inj hc)

theorem pieces_ne_nil {m : α} {t : List α} (h : t ≠ []) : pieces m t ≠ [] := by
  unfold pieces
  rwa [Ne, List.map_eq_nil_iff]

theorem marker_notMem_pieces (m : α) (t : List α) (entry : Replacement α) :
    .marker entry ∉ pieces m t := by
  intro hmem
  obtain ⟨c, -, hc⟩ := List.mem_map.mp hmem
  split at hc <;> cases hc

theorem escape_ne_nil {m : α} {t : List α} (h : t ≠ []) : escape m t ≠ [] := by
  obtain ⟨c, t, rfl⟩ := List.exists_cons_of_ne_nil h
  unfold escape
  rw [List.flatMap_cons]
  split <;> simp

/-! ### Replacing a word -/

section Replace

variable {m : α} {word : List α}

section Written

omit [DecidableEq α]

@[simp] theorem flat_nil : flat m [] = [] := rfl

@[simp] theorem flat_cons (p : Piece α) (ps : List (Piece α)) :
    flat m (p :: ps) = spell m p ++ flat m ps := List.flatMap_cons

@[simp] theorem flat_append (ps qs : List (Piece α)) : flat m (ps ++ qs) = flat m ps ++ flat m qs :=
  List.flatMap_append

@[simp] theorem meaning_cons (p : Piece α) (ps : List (Piece α)) :
    meaning m (p :: ps) = stands m p ++ meaning m ps := List.flatMap_cons

@[simp] theorem meaning_append (ps qs : List (Piece α)) :
    meaning m (ps ++ qs) = meaning m ps ++ meaning m qs := List.flatMap_append

theorem Marked.mono {ps qs : List (Piece α)} (h : Marked m ps) (hsub : ∀ q ∈ qs, q ∈ ps) :
    Marked m qs := fun hmem => h (hsub _ hmem)

end Written

theorem escape_cons_mark (t : List α) : escape m (m :: t) = m :: m :: escape m t := by
  simp [escape]

theorem escape_cons_ne {c : α} (hc : c ≠ m) (t : List α) : escape m (c :: t) = c :: escape m t := by
  simp [escape, hc]

theorem escape_append (s t : List α) : escape m (s ++ t) = escape m s ++ escape m t :=
  List.flatMap_append

/-- What is found behind pieces in which no search takes anything overlaps no marker either. -/
theorem Apart.behind {ps qs : List (Piece α)} (h : Apart m word (ps ++ qs))
    (htaken : ∀ i, Taken (escape m word) (flat m qs) i →
      Taken (escape m word) (flat m (ps ++ qs)) ((flat m ps).length + i)) : Apart m word qs := by
  intro before entry behind i heq hi
  have hfar := h (ps ++ before) entry behind _ (by rw [heq, List.append_assoc]) (htaken i hi)
  simp only [flat_append, List.length_append] at hfar ⊢
  omega

/-- An occurrence of the word that starts with a piece covers the pieces of the word. -/
theorem pieces_ahead {ps : List (Piece α)} (hapart : Apart m word ps) (hps : Marked m ps)
    (h : escape m word <+: flat m ps) : pieces m word <+: ps := by
  -- the word is read up to `left`, and so are the pieces
  suffices hread : ∀ left done ps', word = done ++ left → ps = pieces m done ++ ps' →
      escape m left <+: flat m ps' → pieces m left <+: ps' by
    exact hread word [] ps rfl rfl h
  intro left
  induction left with
  | nil => exact fun done ps' _ _ _ => List.nil_prefix
  | cons c left ih =>
    intro done ps' hword hps' hleft
    -- one more piece read
    have hnext : ∀ p rest, ps' = p :: rest → pieces m [c] = [p] → escape m left <+: flat m rest →
        pieces m (c :: left) <+: ps' := by
      intro p rest heq hp hrest
      have hsplit : pieces m (done ++ [c]) = pieces m done ++ [p] := by
        rw [← hp]
        simp [pieces]
      have hlater := ih (done ++ [c]) rest (by rw [hword]; simp) (by rw [hsplit, hps', heq]; simp) hrest
      have hcons : pieces m (c :: left) = p :: pieces m left := by
        have hmap : pieces m (c :: left) = pieces m [c] ++ pieces m left := by simp [pieces]
        rw [hmap, hp, List.singleton_append]
      rw [heq, hcons]
      exact List.cons_prefix_cons.mpr ⟨rfl, hlater⟩
    -- by the piece that comes next
    cases ps' with
    | nil =>
      have hnil := List.prefix_nil.mp hleft
      exact absurd hnil (escape_ne_nil (List.cons_ne_nil c left))
    | cons p rest =>
      rw [flat_cons] at hleft
      cases p with
      -- a plain character is read alone
      | char c' =>
        have hc' : c' ≠ m := by
          rintro rfl
          exact hps (by simp [hps'])
        by_cases hc : c = m
        · rw [hc, escape_cons_mark] at hleft
          exact absurd (List.cons_prefix_cons.mp hleft).1.symm hc'
        · rw [escape_cons_ne hc] at hleft
          obtain ⟨rfl, hrest⟩ := List.cons_prefix_cons.mp hleft
          exact hnext _ rest rfl (by simp [pieces, hc]) hrest
      -- an escaped mark is read as a whole
      | mark =>
        by_cases hc : c = m
        · rw [hc, escape_cons_mark] at hleft
          have hrest := (List.cons_prefix_cons.mp (List.cons_prefix_cons.mp hleft).2).2
          exact hnext _ rest rfl (by simp [pieces, hc]) hrest
        · rw [escape_cons_ne hc] at hleft
          exact absurd (List.cons_prefix_cons.mp hleft).1 hc
      | marker entry =>
        -- the occurrence would run into the marker
        have hfar := hapart (pieces m done) entry rest 0 hps' (.at_front h)
        have hpos : 0 < (escape m (c :: left)).length :=
          List.length_pos_of_ne_nil (escape_ne_nil (List.cons_ne_nil c left))
        rw [flat_pieces, hword, escape_append, List.length_append] at hfar
        simp only [flat_append, flat_cons, flat_nil, spell, List.length_append, List.length_cons,
          List.length_nil] at hfar
        omega

/-- A word that starts one character before a piece starts with it too, or runs into a marker. -/
theorem prefix_or_marker {w : List α} {ps : List (Piece α)} (hps : Marked m ps)
    (h : m :: escape m w <+: flat m ps) :
    escape m w <+: flat m ps ∨ ∃ done entry behind, ps = done ++ .marker entry :: behind ∧
      (flat m done).length < (m :: escape m w).length := by
  induction w generalizing ps with
  | nil => exact .inl List.nil_prefix
  | cons c w ih =>
    -- the piece in front is the mark that the word begins with, or a marker
    cases ps with
    | nil => exact absurd (List.prefix_nil.mp h) (List.cons_ne_nil _ _)
    | cons p rest =>
      rw [flat_cons] at h
      cases p with
      | char c' =>
        obtain ⟨rfl, -⟩ := List.cons_prefix_cons.mp h
        exact absurd List.mem_cons_self hps
      | marker entry => exact .inr ⟨[], entry, rest, rfl, by simp⟩
      | mark =>
        have hafter := (List.cons_prefix_cons.mp h).2
        -- two marks more: the question is the same one piece further
        by_cases hc : c = m
        · subst hc
          rw [escape_cons_mark] at hafter
          have hrest : c :: escape c w <+: flat c rest := (List.cons_prefix_cons.mp hafter).2
          rcases ih (hps.mono fun q hq => List.mem_cons_of_mem _ hq) hrest with
            hw | ⟨done, entry, behind, rfl, hlt⟩
          · refine .inl ?_
            rw [escape_cons_mark, flat_cons]
            exact List.cons_prefix_cons.mpr ⟨rfl, List.cons_prefix_cons.mpr ⟨rfl, hw⟩⟩
          · refine .inr ⟨.mark :: done, entry, behind, rfl, ?_⟩
            rw [escape_cons_mark]
            simp only [flat_cons, spell, List.length_append, List.length_cons, List.length_nil] at hlt ⊢
            omega
        · rw [escape_cons_ne hc] at hafter
          exact absurd (List.cons_prefix_cons.mp hafter).1 hc

/-- An occurrence does not start in the middle of an escaped mark, unless one starts with it. -/
theorem not_prefix_of_mark {rest : List (Piece α)} (hapart : Apart m word (.mark :: rest))
    (hword : word ≠ []) (hrest : Marked m rest) (h : ¬escape m word <+: flat m (.mark :: rest)) :
    ¬escape m word <+: m :: flat m rest := by
  intro hmiddle
  obtain ⟨c, w, rfl⟩ := List.exists_cons_of_ne_nil hword
  by_cases hc : c = m
  -- the word begins with a mark, which in the middle would be the second of the two
  · subst hc
    have hodd : c :: escape c w <+: flat c rest := by
      rw [escape_cons_mark] at hmiddle
      exact (List.cons_prefix_cons.mp hmiddle).2
    rcases prefix_or_marker hrest hodd with hw | ⟨done, entry, behind, rfl, hlt⟩
    · refine h ?_
      rw [escape_cons_mark, flat_cons]
      exact List.cons_prefix_cons.mpr ⟨rfl, List.cons_prefix_cons.mpr ⟨rfl, hw⟩⟩
    · -- the search takes the occurrence in the middle, which runs into the marker
      have htaken : Taken (escape c (c :: w)) (flat c (.mark :: (done ++ .marker entry :: behind))) 1 :=
        .next h (.at_front hmiddle)
      have hfar := hapart (.mark :: done) entry behind 1 rfl htaken
      rw [escape_cons_mark] at hfar
      simp only [flat_append, flat_cons, spell, List.length_append, List.length_cons,
        List.length_nil] at hfar hlt
      omega
  · rw [escape_cons_ne hc] at hmiddle
    exact hc (List.cons_prefix_cons.mp hmiddle).1

/-- Where no pieces of the word start, no occurrence starts in the first piece. -/
theorem not_prefix_of_next {p : Piece α} {ps : List (Piece α)} (hapart : Apart m word (p :: ps))
    (hword : word ≠ []) (hps : Marked m (p :: ps)) (h : ¬pieces m word <+: p :: ps) :
    ∀ u v, spell m p = u ++ v → v ≠ [] → ¬escape m word <+: v ++ flat m ps := by
  -- nothing starts with the first piece itself
  have hfront : ¬escape m word <+: flat m (p :: ps) := fun hpre => h (pieces_ahead hapart hps hpre)
  have hpos : 0 < (escape m word).length := List.length_pos_of_ne_nil (escape_ne_nil hword)
  intro u v hspell hv
  -- a character cannot be split, and of a mark only its second half is left
  cases p with
  | char c =>
    have hu : u = [] := by
      rcases List.append_eq_singleton_iff.mp hspell.symm with ⟨hu, -⟩ | ⟨-, hv'⟩
      · exact hu
      · exact absurd hv' hv
    subst hu
    rw [List.nil_append] at hspell
    rwa [← hspell, ← flat_cons]
  | mark =>
    cases u with
    | nil =>
      rw [List.nil_append] at hspell
      rwa [← hspell, ← flat_cons]
    | cons c u =>
      obtain ⟨-, htail⟩ := List.cons.inj hspell
      obtain rfl : v = [m] := by
        rcases List.append_eq_singleton_iff.mp htail.symm with ⟨-, hv'⟩ | ⟨-, hv'⟩
        · exact hv'
        · exact absurd hv' hv
      exact not_prefix_of_mark hapart hword (hps.mono fun q hq => List.mem_cons_of_mem _ hq) hfront
  | marker entry =>
    -- the first occurrence that starts in the marker would be taken
    intro hin
    have hdrop : (flat m (.marker entry :: ps)).drop u.length = v ++ flat m ps := by
      rw [flat_cons, hspell, List.append_assoc, List.drop_left]
    obtain ⟨j, hj, htaken⟩ := exists_taken (hdrop ▸ hin)
    have hshort : u.length < (spell m (.marker entry)).length := by
      have := List.length_pos_of_ne_nil hv
      rw [hspell, List.length_append]
      omega
    have hfar := hapart [] entry ps j rfl htaken
    simp only [List.nil_append, flat_cons, flat_nil, List.append_nil, List.length_nil] at hfar
    omega

/-- Replacing a word by its marker in the written pieces is replacing its pieces. -/
theorem replaceAll_flat {ps : List (Piece α)} (hapart : Apart m word ps) (hword : word ≠ [])
    (path : List α) (hps : Marked m ps) :
    replaceAll (escape m word) (m :: path ++ [m]) (flat m ps) =
      flat m (replaceAll (pieces m word) [.marker (word, path)] ps) := by
  -- induction along the search for the word among the pieces
  induction ps using search_induction (pieces_ne_nil (m := m) hword) with
  | nil => rfl
  | taken rest ih =>
    have hrest : Apart m word rest := by
      refine hapart.behind fun i hi => ?_
      rw [flat_append, flat_pieces]
      exact hi.past
    rw [flat_append, flat_pieces, replaceAll_found (escape_ne_nil hword),
      replaceAll_found (pieces_ne_nil hword), flat_append,
      ih hrest (hps.mono fun q hq => List.mem_append_right _ hq)]
    simp [flat, spell]
  -- no occurrence starts inside the first piece, so both searches go past it
  | next p rest hp ih =>
    have hnone := not_prefix_of_next hapart hword hps hp
    have hrest : Apart m word rest := by
      have hhead : Apart m word ([p] ++ rest) := hapart
      refine hhead.behind fun i hi => ?_
      rw [flat_append, flat_cons, flat_nil, List.append_nil]
      exact hi.append hnone
    rw [flat_cons, replaceAll_append _ hnone, replaceAll_cons _ hp, flat_cons,
      ih hrest (hps.mono fun q hq => List.mem_cons_of_mem _ hq)]

/-! ### Cutting a text -/

/-- A word and its marker stand for the same. -/
theorem meaning_put (ps : List (Piece α)) {entry : Replacement α} (hword : entry.1 ≠ []) :
    meaning m (put m ps entry) = meaning m ps := by
  unfold put
  split
  · rfl
  · induction ps using search_induction (pieces_ne_nil (m := m) hword) with
    | nil => rfl
    | taken rest ih =>
      rw [replaceAll_found (pieces_ne_nil hword), meaning_append, meaning_append, meaning_pieces, ih]
      simp [meaning, stands]
    | next p rest hp ih => rw [replaceAll_cons _ hp, meaning_cons, meaning_cons, ih]

theorem mem_of_mem_put {ps : List (Piece α)} {entry : Replacement α} (hword : entry.1 ≠ [])
    {p : Piece α} (h : p ∈ put m ps entry) : p = .marker entry ∨ p ∈ ps := by
  unfold put at h
  split at h
  · exact .inr h
  · exact (mem_of_mem_replaceAll (pieces_ne_nil hword) h).imp_left List.mem_singleton.mp

theorem Marked.put {ps : List (Piece α)} (h : Marked m ps) {entry : Replacement α}
    (hword : entry.1 ≠ []) : Marked m (put m ps entry) := by
  intro hmem
  rcases mem_of_mem_put hword hmem with heq | hmem
  · cases heq
  · exact h hmem

/-- One pass: what is written is replaced as the pieces are. -/
theorem flat_put {ps : List (Piece α)} (hps : Marked m ps) {entry : Replacement α}
    (hword : entry.1 ≠ []) (hapart : ¬Inert m entry → Apart m entry.1 ps) :
    replaceAll (escape m entry.1) (m :: entry.2 ++ [m]) (flat m ps) = flat m (put m ps entry) := by
  unfold put
  split
  -- an inert word is written like its marker
  · next hinert =>
    unfold Inert at hinert
    rw [hinert, replaceAll_self (escape_ne_nil hword)]
  · next hinert => exact replaceAll_flat (hapart hinert) hword entry.2 hps

section Cut

variable {entries : List (Replacement α)}

theorem cut_append_singleton (entries : List (Replacement α)) (entry : Replacement α) (t : List α) :
    cut m (entries ++ [entry]) t = put m (cut m entries t) entry := List.foldl_concat _ _ _ _

theorem marked_cut (hne : ∀ entry ∈ entries, entry.1 ≠ []) (t : List α) : Marked m (cut m entries t) := by
  induction entries using List.reverseRecOn with
  | nil => exact marked_pieces m t
  | append_singleton entries entry ih =>
    rw [cut_append_singleton]
    exact (ih fun e he => hne e (List.mem_append_left _ he)).put (hne entry (by simp))

theorem meaning_cut (hne : ∀ entry ∈ entries, entry.1 ≠ []) (t : List α) :
    meaning m (cut m entries t) = t := by
  induction entries using List.reverseRecOn with
  | nil => exact meaning_pieces m t
  | append_singleton entries entry ih =>
    rw [cut_append_singleton, meaning_put _ (hne entry (by simp))]
    exact ih fun e he => hne e (List.mem_append_left _ he)

/-- All passes: the words replaced in turn in the written text leave what the words cut it into. -/
theorem foldl_flat (hne : ∀ entry ∈ entries, entry.1 ≠ []) {t : List α}
    (hapart : ∀ earlier entry later, entries = earlier ++ entry :: later → ¬Inert m entry →
      Apart m entry.1 (cut m earlier t)) :
    entries.foldl (fun out entry => replaceAll (escape m entry.1) (m :: entry.2 ++ [m]) out)
      (escape m t) = flat m (cut m entries t) := by
  -- the last pass is made over what the earlier ones have written
  induction entries using List.reverseRecOn with
  | nil => exact (flat_pieces m t).symm
  | append_singleton entries entry ih =>
    have hearlier := ih (fun e he => hne e (List.mem_append_left _ he))
      fun earlier e later heq => hapart earlier e (later ++ [entry]) (by simp [heq])
    rw [List.foldl_concat, hearlier, cut_append_singleton]
    refine flat_put (marked_cut (fun e he => hne e (List.mem_append_left _ he)) t)
      (hne entry (by simp)) (hapart entries entry [] rfl)

/-- What has been taken once does not occur in the plain pieces any more. -/
theorem not_infix_cut (hne : ∀ entry ∈ entries, entry.1 ≠ []) {entry : Replacement α}
    (hentry : entry ∈ entries) (hinert : ¬Inert m entry) (t : List α) :
    ¬pieces m entry.1 <:+: cut m entries t := by
  induction entries using List.reverseRecOn with
  | nil => exact absurd hentry List.not_mem_nil
  | append_singleton entries last ih =>
    have hlast := pieces_ne_nil (m := m) (hne last (by simp))
    rw [cut_append_singleton, Markers.put]
    rcases List.mem_append.mp hentry with hearlier | hthis
    -- a word taken earlier does not come back with this pass
    · have hbefore := ih (fun e he => hne e (List.mem_append_left _ he)) hearlier
      split
      · exact hbefore
      · exact fun hin => hbefore (infix_of_replaceAll hlast (marker_notMem_pieces m _ _) hin)
    -- this pass takes its own
    · obtain rfl := List.mem_singleton.mp hthis
      rw [if_neg hinert]
      exact not_infix_replaceAll hlast (marker_notMem_pieces m _ _)

/-- The marker of an entry can be written: none before it has taken its word. -/
def Written (m : α) (entries : List (Replacement α)) (entry : Replacement α) : Prop :=
  ¬Inert m entry ∧ ∃ earlier later, entries = earlier ++ entry :: later ∧
    ∀ e ∈ earlier, e.1 = entry.1 → Inert m e

theorem Written.mem {entry : Replacement α} (h : Written m entries entry) : entry ∈ entries := by
  obtain ⟨-, earlier, later, rfl, -⟩ := h
  simp

theorem Written.append {entry : Replacement α} (h : Written m entries entry)
    (later : List (Replacement α)) : Written m (entries ++ later) entry := by
  obtain ⟨hinert, before, behind, rfl, hall⟩ := h
  exact ⟨hinert, before, behind ++ later, by simp, hall⟩

/-- A text is cut only into markers that can be written. -/
theorem mem_cut (hne : ∀ entry ∈ entries, entry.1 ≠ []) {t : List α} {entry : Replacement α}
    (h : .marker entry ∈ cut m entries t) : Written m entries entry := by
  induction entries using List.reverseRecOn with
  | nil => exact absurd h (marker_notMem_pieces m t entry)
  | append_singleton entries last ih =>
    have hne' : ∀ e ∈ entries, e.1 ≠ [] := fun e he => hne e (List.mem_append_left _ he)
    rw [cut_append_singleton] at h
    by_cases hold : .marker entry ∈ cut m entries t
    · exact (ih hne' hold).append _
    · -- the last pass wrote it, so its word was still there
      have hinert : ¬Inert m last := by
        intro hinert
        rw [put, if_pos hinert] at h
        exact hold h
      obtain rfl : entry = last := by
        rcases mem_of_mem_put (hne last (by simp)) h with heq | hmem
        · exact Piece.marker.inj heq
        · exact absurd hmem hold
      refine ⟨hinert, entries, [], rfl, fun e he hsame => ?_⟩
      by_contra hactive
      have hgone := not_infix_cut hne' he hactive t
      rw [hsame] at hgone
      rw [put, if_neg hinert, replaceAll_eq_self _ hgone] at h
      exact hold h

theorem infix_of_pieces {w t : List α} (h : pieces m w <:+: pieces m t) : w <:+: t := by
  obtain ⟨a, b, heq⟩ := h
  refine ⟨meaning m a, meaning m b, ?_⟩
  rw [← meaning_pieces m t, ← heq, meaning_append, meaning_append, meaning_pieces]

/-- The word of an entry is cut into its marker when no word before it occurs in it. -/
theorem cut_word (hne : ∀ entry ∈ entries, entry.1 ≠ []) {earlier later : List (Replacement α)}
    {entry : Replacement α} (heq : entries = earlier ++ entry :: later) (hinert : ¬Inert m entry)
    (hearlier : ∀ e ∈ earlier, ¬Inert m e → ¬e.1 <:+: entry.1) :
    cut m entries entry.1 = [.marker entry] := by
  have hword : entry.1 ≠ [] := hne entry (by simp [heq])
  subst heq
  -- the words before it leave it plain
  have hplain : cut m earlier entry.1 = pieces m entry.1 := by
    clear hne
    induction earlier using List.reverseRecOn with
    | nil => rfl
    | append_singleton earlier e ih =>
      rw [cut_append_singleton, ih fun e he => hearlier e (List.mem_append_left _ he), put]
      split
      · rfl
      · next hactive =>
        exact replaceAll_eq_self _ fun hin => hearlier e (by simp) hactive (infix_of_pieces hin)
  -- its own pass takes the whole
  have hmarker : put m (pieces m entry.1) entry = [.marker entry] := by
    have hall := replaceAll_found (pieces_ne_nil (m := m) hword) [.marker entry] []
    rw [List.append_nil] at hall
    rw [put, if_neg hinert, hall]
    rfl
  -- later words find a marker and no character
  induction later using List.reverseRecOn with
  | nil => rw [cut_append_singleton, hplain, hmarker]
  | append_singleton later last ih =>
    rw [← List.cons_append, ← List.append_assoc, cut_append_singleton,
      ih fun e he => hne e (by simp at he ⊢; tauto), put]
    split
    · rfl
    -- pieces of a word are no markers
    · refine replaceAll_eq_self _ fun hin => ?_
      obtain ⟨p, rest, hp⟩ := List.exists_cons_of_ne_nil (pieces_ne_nil (m := m) (hne last (by simp)))
      rw [hp] at hin
      have hmem := hin.subset List.mem_cons_self
      refine marker_notMem_pieces m last.1 entry ?_
      rw [hp, ← List.mem_singleton.mp hmem]
      exact List.mem_cons_self

end Cut

omit [DecidableEq α] in
/-- Pieces that are written without a mark are characters. -/
theorem flat_eq_meaning {ps : List (Piece α)} (h : m ∉ flat m ps) : flat m ps = meaning m ps := by
  induction ps with
  | nil => rfl
  | cons p ps ih =>
    rw [flat_cons, List.mem_append, not_or] at h
    rw [flat_cons, meaning_cons, ih h.2]
    cases p with
    | char c => rfl
    | mark => exact absurd (by simp [spell]) h.1
    | marker entry => exact absurd (by simp [spell]) h.1

/-- A text without marks is its own escape. -/
theorem escape_eq_self {t : List α} (h : m ∉ t) : escape m t = t := by
  induction t with
  | nil => rfl
  | cons c t ih =>
    rw [List.mem_cons, not_or] at h
    rw [escape_cons_ne (Ne.symm h.1), ih h.2]

theorem not_inert {entry : Replacement α} (h : m ∉ entry.1) : ¬Inert m entry := by
  intro hinert
  rw [Inert, escape_eq_self h] at hinert
  exact h (hinert ▸ List.mem_cons_self)

omit [DecidableEq α] in
/-- What precedes a mark and has none in it ends before the mark. -/
theorem append_eq_cons_mark {w v y l : List α} (hw : m ∉ w) (h : w ++ v = y ++ m :: l) :
    ∃ z, y = w ++ z := by
  rcases List.append_eq_append_iff.mp h with ⟨z, rfl, -⟩ | ⟨z, rfl, hz⟩
  · exact ⟨z, rfl⟩
  · cases z with
    | nil => exact ⟨[], by simp⟩
    | cons c z =>
      obtain ⟨rfl, -⟩ := List.cons.inj hz
      exact absurd (by simp) hw

/-- A word without marks stays apart from markers whose paths do not contain it. -/
theorem apart_of_paths {ps : List (Piece α)} (hword : m ∉ word)
    (h : ∀ entry, .marker entry ∈ ps → ¬word <:+: entry.2) : Apart m word ps := by
  intro before entry behind i hps htaken
  have hentry := h entry (by simp [hps])
  obtain ⟨u, v, hflat, rfl⟩ := htaken.exists_eq
  rw [escape_eq_self hword] at hflat ⊢
  replace hflat : flat m before ++ m :: (entry.2 ++ m :: flat m behind) = u ++ (word ++ v) := by
    simpa [hps, spell] using hflat
  -- before the marker, inside it, or behind it
  rcases List.append_eq_append_iff.mp hflat with ⟨a, rfl, ha⟩ | ⟨y, hbefore, hy⟩
  · -- the occurrence starts after what precedes the marker
    cases a with
    | nil =>
      rw [List.nil_append] at ha
      obtain ⟨z, hz⟩ := append_eq_cons_mark (y := []) hword ha.symm
      obtain ⟨rfl, -⟩ := List.append_eq_nil_iff.mp hz.symm
      exact absurd List.nil_infix hentry
    | cons c a =>
      obtain ⟨rfl, hrest⟩ := List.cons.inj ha
      rcases List.append_eq_append_iff.mp hrest with ⟨x, rfl, hx⟩ | ⟨y, hpath, hy⟩
      -- it starts inside the path, hence ends in it or runs over the mark behind it
      · cases x with
        | nil =>
          rw [List.nil_append] at hx
          obtain ⟨z, hz⟩ := append_eq_cons_mark (y := []) hword hx.symm
          obtain ⟨rfl, -⟩ := List.append_eq_nil_iff.mp hz.symm
          exact absurd List.nil_infix hentry
        | cons c x =>
          refine .inr ?_
          simp only [flat_append, flat_cons, flat_nil, spell, List.length_append, List.length_cons,
            List.length_nil]
          omega
      · obtain ⟨z, rfl⟩ := append_eq_cons_mark hword hy
        exact absurd ⟨a, z, by rw [hpath, List.append_assoc]⟩ hentry
  -- it starts before the marker, and so ends before it
  · obtain ⟨z, rfl⟩ := append_eq_cons_mark hword hy
    refine .inl ?_
    rw [hbefore]
    simp only [List.length_append]
    omega

/-- A word without marks is found in a marker whose path contains it. -/
theorem not_infix_of_apart {entry : Replacement α} (hword : m ∉ word) (hne : word ≠ [])
    (h : Apart m word [.marker entry]) : ¬word <:+: entry.2 := by
  rintro ⟨a, b, hpath⟩
  have hflat : flat m [.marker entry] = (m :: a) ++ (word ++ (b ++ [m])) := by
    simp [spell, ← hpath]
  -- the word occurs where the path does
  have hin : escape m word <+: (flat m [.marker entry]).drop (m :: a).length := by
    rw [hflat, List.drop_left, escape_eq_self hword]
    exact List.prefix_append _ _
  obtain ⟨j, hj, htaken⟩ := exists_taken hin
  have hpos := List.length_pos_of_ne_nil hne
  -- the search takes it inside the marker, so it is not apart
  rcases h [] entry [] j rfl htaken with hle | hle
  · rw [escape_eq_self hword, flat_nil, List.length_nil] at hle
    omega
  · rw [List.nil_append, hflat] at hle
    simp only [List.length_append, List.length_cons] at hle hj
    omega

end Replace

end Markers

end Lib
