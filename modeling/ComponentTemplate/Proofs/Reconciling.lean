import ComponentTemplate.Proofs.Padding

/-!
# Siblings and the blanks between them

Reconciling the blanks of a sequence of siblings keeps every node and the core of every text, in
order, and forgets of the blanks all but their classes. Blanks of these classes are reconciled to
the same classes, whatever indentation a line break is followed by.
-/

namespace ComponentTemplate

open List

/-! ## Dropping at both ends of a list -/

section Ends

variable {α : Type} {p : α → Bool} {xs extra : List α}

def dropEnds (p : α → Bool) (xs : List α) : List α := ((xs.dropWhile p).reverse.dropWhile p).reverse

structure Bounded (p : α → Bool) (xs : List α) : Prop where
  head : ∀ x ∈ xs.head?, p x = false
  last : ∀ x ∈ xs.getLast?, p x = false

lemma exists_eq_dropEnds (p : α → Bool) (xs : List α) : ∃ before after,
    xs = before ++ (dropEnds p xs ++ after) ∧ (∀ x ∈ before, p x = true) ∧
      ∀ x ∈ after, p x = true := by
  refine ⟨xs.takeWhile p, ((xs.dropWhile p).reverse.takeWhile p).reverse, ?_,
    fun x hx => mem_takeWhile_imp hx, fun x hx => ?_⟩
  · rw [dropEnds, ← reverse_append, takeWhile_append_dropWhile, reverse_reverse,
      takeWhile_append_dropWhile]
  · exact mem_takeWhile_imp (mem_reverse.mp hx)

lemma head_dropWhile (p : α → Bool) (xs : List α) : ∀ x ∈ (xs.dropWhile p).head?, p x = false := by
  intro x hx
  have hnot := head?_dropWhile_not p xs
  rw [show (xs.dropWhile p).head? = some x from hx] at hnot
  simpa using hnot

lemma bounded_dropEnds (p : α → Bool) (xs : List α) : Bounded p (dropEnds p xs) := by
  constructor
  · -- what is dropped at the end leaves the first element in place
    intro x hx
    have hprefix : dropEnds p xs <+: xs.dropWhile p := by
      have hsuffix := dropWhile_suffix p (l := (xs.dropWhile p).reverse)
      rw [← reverse_prefix, reverse_reverse] at hsuffix
      exact hsuffix
    obtain ⟨rest, hrest⟩ := hprefix
    refine head_dropWhile p xs x ?_
    rw [← hrest, head?_append, hx]
    rfl
  · intro x hx
    rw [dropEnds, getLast?_reverse] at hx
    exact head_dropWhile p _ x hx

lemma dropWhile_of_head (h : ∀ x ∈ xs.head?, p x = false) : xs.dropWhile p = xs := by
  cases xs with
  | nil => rfl
  | cons x xs => exact dropWhile_cons_of_neg (by simp [h x rfl])

lemma Bounded.dropEnds_append (h : Bounded p xs) (hextra : ∀ x ∈ extra, p x = true) :
    dropEnds p (xs ++ extra) = xs := by
  by_cases hne : xs = []
  · subst hne
    rw [dropEnds, nil_append, dropWhile_eq_nil_iff.mpr hextra]
    rfl
  · have hhead : ∀ x ∈ (xs ++ extra).head?, p x = false := by
      rw [head?_append_of_ne_nil _ hne]
      exact h.head
    have hreverse : ∀ x ∈ xs.reverse.head?, p x = false := by
      rw [head?_reverse]
      exact h.last
    rw [dropEnds, dropWhile_of_head hhead, reverse_append,
      dropWhile_append_of_pos (by simpa using hextra), dropWhile_of_head hreverse,
      reverse_reverse]

lemma Bounded.of_map_eq {β : Type} {q : β → Bool} {ys : List β} (h : Bounded q ys)
    (heq : xs.map p = ys.map q) : Bounded p xs := by
  constructor
  · intro x hx
    have hhead : (ys.map q).head? = some (p x) := by rw [← heq, head?_map, hx]; rfl
    rw [head?_map] at hhead
    obtain ⟨y, hy, hq⟩ := Option.map_eq_some_iff.mp hhead
    rw [← hq, h.head y hy]
  · intro x hx
    have hlast : (ys.map q).getLast? = some (p x) := by rw [← heq, getLast?_map, hx]; rfl
    rw [getLast?_map] at hlast
    obtain ⟨y, hy, hq⟩ := Option.map_eq_some_iff.mp hlast
    rw [← hq, h.last y hy]

end Ends

/-! ## What reconciling keeps -/

open Text (Blank Trimmed)

lemma Text.isBlankText_eq (cs : List Char) : Text.isBlankText cs = (Text.trim cs).isEmpty := by
  rw [Bool.eq_iff_iff, List.isEmpty_iff, Text.isBlankText, all_eq_true]
  constructor
  · exact Sibling.trim_of_blank
  · intro hnil
    obtain ⟨before, after, hbefore, hafter, heq⟩ := Text.exists_trim_eq cs
    rw [heq, hnil]
    exact hbefore.append hafter

section Siblings

variable {α : Type} {trim first last : Bool} {siblings rewritten : List (Sibling α)}

/-- **What a sibling contributes besides blanks**: a blank text nothing, any other text its core,
and a node itself. -/
def Sibling.content? : Sibling α → Option (Sibling α)
  | .text data => if Text.isBlankText data then none else some (.text (Text.trim data))
  | .node value => some (.node value)

def Padded.content? : Padded α → Option (Sibling α)
  | .text _ data _ => if data.isEmpty then none else some (.text data)
  | .node value => some (.node value)

namespace Sibling

lemma isNone_content? (s : Sibling α) : s.content?.isNone = s.isBlank := by
  cases s with
  | node value => rfl
  | text data => cases h : Text.isBlankText data <;> simp [content?, isBlank, h]

lemma content?_pad (s : Sibling α) : (s.pad trim first last).content? = s.content? := by
  cases s with
  | node value => rfl
  | text raw =>
    obtain ⟨lead, core, trail, hpad⟩ := exists_pad_text (α := α) trim first last raw
    rw [hpad, Padded.content?, content?, Text.isBlankText_eq, (core_of_pad hpad).1]

lemma map_content?_padFrom (trim first : Bool) (siblings : List (Sibling α)) :
    (padFrom trim first siblings).map Padded.content? = siblings.map content? := by
  induction siblings generalizing first with
  | nil => rfl
  | cons s rest ih => simp [padFrom, content?_pad, ih]

lemma filterMap_content?_eq_nil_iff :
    siblings.filterMap content? = [] ↔ ∀ s ∈ siblings, s.isBlank = true := by
  simp [← isNone_content?]

lemma filterMap_content?_dropEnds (siblings : List (Sibling α)) :
    (dropEnds isBlank siblings).filterMap content? = siblings.filterMap content? := by
  obtain ⟨before, after, heq, hbefore, hafter⟩ := exists_eq_dropEnds isBlank siblings
  conv_rhs => rw [heq]
  rw [filterMap_append, filterMap_append, filterMap_content?_eq_nil_iff.mpr hbefore,
    filterMap_content?_eq_nil_iff.mpr hafter, nil_append, append_nil]

/-- The siblings that are padded: with `trim`, those between the blank texts at both ends. -/
def kept (trim : Bool) (siblings : List (Sibling α)) : List (Sibling α) :=
  if trim then dropEnds isBlank siblings else siblings

lemma filterMap_content?_kept (trim : Bool) (siblings : List (Sibling α)) :
    (kept trim siblings).filterMap content? = siblings.filterMap content? := by
  cases trim with
  | false => rfl
  | true => exact filterMap_content?_dropEnds siblings

lemma reconcile_of_all (h : ∀ s ∈ siblings, s.isBlank = true) : reconcile trim siblings = [] := by
  rw [reconcile, if_pos (all_eq_true.mpr h)]

lemma reconcile_of_not_all (h : ¬ ∀ s ∈ siblings, s.isBlank = true) :
    reconcile trim siblings = padFrom trim true (kept trim siblings) := by
  rw [reconcile, if_neg (by simpa using h)]
  rfl

/-- **Every node and the core of every text is kept**, in order, and nothing else but blanks. -/
theorem filterMap_content?_reconcile (trim : Bool) (siblings : List (Sibling α)) :
    (reconcile trim siblings).filterMap Padded.content? = siblings.filterMap content? := by
  by_cases hall : ∀ s ∈ siblings, s.isBlank = true
  · rw [reconcile_of_all hall, filterMap_content?_eq_nil_iff.mpr hall, filterMap_nil]
  · rw [reconcile_of_not_all hall, ← filterMap_content?_kept trim]
    have hmap : ((padFrom trim true (kept trim siblings)).map Padded.content?).filterMap id =
        ((kept trim siblings).map content?).filterMap id := by rw [map_content?_padFrom]
    simpa only [filterMap_map, Function.id_comp] using hmap

lemma reconcile_eq_nil_iff : reconcile trim siblings = [] ↔ ∀ s ∈ siblings, s.isBlank = true := by
  constructor
  · intro hnil
    rw [← filterMap_content?_eq_nil_iff, ← filterMap_content?_reconcile trim, hnil,
      filterMap_nil]
  · exact reconcile_of_all

end Sibling

/-! ## Reconciling again -/

/-- **A padded sibling written out**: the core of a text stands between blanks of its classes. -/
inductive Padded.Written : Padded α → Sibling α → Prop
  | node (value : α) : Written (.node value) (.node value)
  | text {lead trail : Padding} {before data after : List Char} (hlead : lead.Fits before)
      (htrail : trail.Fits after) :
      Written (.text lead data trail) (.text (before ++ (data ++ after)))

namespace Sibling

lemma pad_of_written {s s' : Sibling α} (h : (s.pad trim first last).Written s') :
    s'.pad trim first last = s.pad trim first last := by
  cases s with
  | node value => cases h with | node => rfl
  | text raw =>
    obtain ⟨lead, core, trail, hpad⟩ := exists_pad_text (α := α) trim first last raw
    rw [hpad] at h ⊢
    cases h with
    | text hlead htrail =>
      have hsame := pad_text_eq hpad hlead htrail .nil fun hne => absurd rfl hne
      simpa only [append_nil] using hsame

lemma padFrom_of_written (h : Forall₂ Padded.Written (padFrom trim first siblings) rewritten) :
    padFrom trim first rewritten = padFrom trim first siblings := by
  induction siblings generalizing first rewritten with
  | nil =>
    cases h
    rfl
  | cons s rest ih =>
    cases h with
    | @cons _ s' _ rest' hs hrest =>
      -- the last sibling is padded as the last one again
      have hlast : rest'.isEmpty = rest.isEmpty := by
        cases hrest' : rest with
        | nil | cons =>
          rw [hrest'] at hrest
          cases hrest
          rfl
      rw [padFrom, padFrom, hlast, pad_of_written hs, ih hrest]

/-- **What is written is reconciled as it was**, whatever the indentation after line breaks. -/
theorem reconcile_of_written
    (h : Forall₂ Padded.Written (reconcile trim siblings) rewritten) :
    reconcile trim rewritten = reconcile trim siblings := by
  by_cases hall : ∀ s ∈ siblings, s.isBlank = true
  · rw [reconcile_of_all hall] at h ⊢
    cases h
    exact reconcile_of_all (by simp)
  · rw [reconcile_of_not_all hall] at h ⊢
    have hsame := padFrom_of_written h
    have hcontent : rewritten.map content? = (kept trim siblings).map content? := by
      rw [← map_content?_padFrom trim true, hsame, map_content?_padFrom]
    have hblank : rewritten.map isBlank = (kept trim siblings).map isBlank := by
      simpa only [map_map, Function.comp_def, isNone_content?] using
        congrArg (map Option.isNone) hcontent
    have hkept : kept trim rewritten = rewritten := by
      cases trim with
      | false => rfl
      | true =>
        have hbounded := (bounded_dropEnds isBlank siblings).of_map_eq hblank
        show dropEnds isBlank rewritten = rewritten
        simpa only [append_nil] using hbounded.dropEnds_append (forall_mem_nil _)
    have hall' : ¬ ∀ s ∈ rewritten, s.isBlank = true := by
      rw [← filterMap_content?_eq_nil_iff, ← filterMap_content?_kept trim] at hall
      intro hblanks
      have hnil := filterMap_content?_eq_nil_iff.mpr hblanks
      rw [← Function.id_comp content?, ← filterMap_map, hcontent, filterMap_map] at hnil
      exact hall hnil
    rw [reconcile_of_not_all hall', hkept, hsame]

/-- **Reconciling the blanks of siblings keeps their content and is stable.** Nothing is left of
siblings exactly when all are blank texts. What is left are the nodes and the cores of the other
texts, in order, with classes of blanks. Written out with blanks of these classes, the siblings are
reconciled to the same classes. -/
theorem reconcile_keeps_content (trim : Bool) (siblings : List (Sibling α)) :
    (reconcile trim siblings = [] ↔ ∀ s ∈ siblings, s.isBlank = true) ∧
    (reconcile trim siblings).filterMap Padded.content? = siblings.filterMap content? ∧
    ∀ rewritten, Forall₂ Padded.Written (reconcile trim siblings) rewritten →
      reconcile trim rewritten = reconcile trim siblings :=
  ⟨reconcile_eq_nil_iff, filterMap_content?_reconcile trim siblings,
    fun _ hwritten => reconcile_of_written hwritten⟩

/-- A line break before a text and one between nodes, written with indentation after them. -/
theorem reconcile_keeps_content_indented :
    Forall₂ Padded.Written
      (reconcile false [.text ['\n', 'a', ' '], .node 0, .text [' ', '\n'], .node 1])
      [.text ['\n', '\t', 'a', ' '], .node 0, .text ['\n', '\t'], .node 1] ∧
    reconcile false [.text ['\n', '\t', 'a', ' '], .node 0, .text ['\n', '\t'], .node 1] =
      reconcile false [.text ['\n', 'a', ' '], .node 0, .text [' ', '\n'], .node 1] := by
  have hbreak : Padding.newline.Fits ['\n', '\t'] :=
    ⟨['\t'], rfl, by simp [Blank, Text.isBlank], by decide⟩
  have hfirst : Padded.Written (α := Nat) (.text .newline ['a'] .space)
      (.text ['\n', '\t', 'a', ' ']) := .text hbreak rfl
  have hbetween : Padded.Written (α := Nat) (.text .newline [] .none) (.text ['\n', '\t']) :=
    .text hbreak rfl
  have hwritten : Forall₂ Padded.Written
      (reconcile false [.text ['\n', 'a', ' '], .node 0, .text [' ', '\n'], .node 1])
      [.text ['\n', '\t', 'a', ' '], .node 0, .text ['\n', '\t'], .node 1] := by
    exact .cons hfirst (.cons (.node 0) (.cons hbetween (.cons (.node 1) .nil)))
  exact ⟨hwritten, (reconcile_keeps_content false _).2.2 _ hwritten⟩

end Sibling

end Siblings

end ComponentTemplate
