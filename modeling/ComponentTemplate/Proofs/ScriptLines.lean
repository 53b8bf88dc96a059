import ComponentTemplate.Proofs.SetApart

/-!
# Lines of foreign scripts

Re-indenting code is described by the lines of the code: which of them stay, and how much of
their indentation goes. The lines of a script that has been written between its tags are the
lines it was written from, all of them indented alike, so that re-indenting them again gives
the same code.
-/

namespace ComponentTemplate

open Text Writer MarkupGrammar
open List (append_assoc cons map_congr_left map_id map_map mem_cons_of_mem mem_cons_self mem_map
  prefix_rfl)

/-! ## Lines -/

namespace Text

variable {line rest cs : List Char} {ls : List (List Char)}

lemma cutLine_append (h : '\n' ∉ line) (rest : List Char) :
    cutLine (line ++ '\n' :: rest) = (line, some rest) := by
  induction line with
  | nil => simp [cutLine]
  | cons c line ih =>
    obtain ⟨hc, hline⟩ := List.ne_and_not_mem_of_not_mem_cons h
    simp [cutLine, hc.symm, ih hline]

lemma cutLine_of_not_mem (h : '\n' ∉ line) : cutLine line = (line, none) := by
  induction line with
  | nil => rfl
  | cons c line ih =>
    obtain ⟨hc, hline⟩ := List.ne_and_not_mem_of_not_mem_cons h
    simp [cutLine, hc.symm, ih hline]

lemma lines_append (h : '\n' ∉ line) (rest : List Char) :
    lines (line ++ '\n' :: rest) = dropReturn line :: lines rest := by
  rw [lines]
  split <;> simp_all [cutLine_append h]

lemma lines_of_not_mem (h : '\n' ∉ line) : lines line = if line = [] then [] else [line] := by
  rw [lines]
  split <;> simp_all [cutLine_of_not_mem h]

lemma linesInduction {motive : List Char → Prop} (last : ∀ line, '\n' ∉ line → motive line)
    (more : ∀ line rest, '\n' ∉ line → motive rest → motive (line ++ '\n' :: rest))
    (cs : List Char) : motive cs := by
  induction hn : cs.length using Nat.strong_induction_on generalizing cs with
  | h n ih =>
    by_cases hmem : '\n' ∈ cs
    · obtain ⟨line, rest, rfl, hline⟩ := List.eq_append_cons_of_mem hmem
      exact more line rest hline (ih rest.length (by simp at hn; omega) rest rfl)
    · exact last cs hmem

lemma isInfix_of_mem_lines (h : line ∈ lines cs) : '\n' ∉ line ∧ line <:+: cs := by
  induction cs using linesInduction with
  | last last hlast =>
    rw [lines_of_not_mem hlast] at h
    split at h
    · simp at h
    · rw [List.mem_singleton.mp h]
      exact ⟨hlast, List.infix_rfl⟩
  | more first rest hfirst ih =>
    rw [lines_append hfirst] at h
    rcases List.mem_cons.mp h with rfl | h
    · have hdrop : dropReturn first <+: first := by
        rw [dropReturn]
        split
        · exact List.dropLast_prefix first
        · exact prefix_rfl
      exact ⟨fun hmem => hfirst (hdrop.subset hmem),
        hdrop.isInfix.trans (List.prefix_append ..).isInfix⟩
    · obtain ⟨hline, hinfix⟩ := ih h
      exact ⟨hline, hinfix.trans (List.suffix_append_of_suffix (List.suffix_cons ..)).isInfix⟩

lemma lines_flatMap_append (h : ∀ line ∈ ls, '\n' ∉ line ∧ line.getLast? ≠ some '\r')
    (rest : List Char) : lines (ls.flatMap (· ++ ['\n']) ++ rest) = ls ++ lines rest := by
  induction ls with
  | nil => rfl
  | cons line ls ih =>
    obtain ⟨hline, hreturn⟩ := h line mem_cons_self
    have hls := ih fun l hl => h l (mem_cons_of_mem _ hl)
    rw [List.flatMap_cons, append_assoc, append_assoc, List.singleton_append,
      lines_append hline, hls, dropReturn, if_neg hreturn, List.cons_append]

lemma unlines_concat (ls : List (List Char)) (line : List Char) :
    unlines (ls ++ [line]) = ls.flatMap (· ++ ['\n']) ++ line := by
  induction ls with
  | nil => simp [unlines]
  | cons first ls ih =>
    rw [unlines, List.cons_append, List.intercalate_cons_of_ne_nil (by simp), ← unlines, ih]
    simp

/-- **Joined lines are read again**, if the last one is not empty. -/
theorem lines_unlines (h : ∀ line ∈ ls, '\n' ∉ line ∧ line.getLast? ≠ some '\r')
    (hlast : ls.getLast? ≠ some []) : lines (unlines ls) = ls := by
  rcases List.eq_nil_or_concat ls with rfl | ⟨ls, line, rfl⟩
  · simp [unlines, lines_of_not_mem]
  · rw [List.concat_eq_append] at *
    have hline : line ≠ [] := by simpa using hlast
    rw [unlines_concat, lines_flatMap_append fun l hl => h l (by simp [hl]),
      lines_of_not_mem (h line (by simp)).1, if_neg hline]

end Text

/-! ## Base indentation -/

variable {p q a b line code : List Char} {ls core : List (List Char)}

lemma isPrefix_commonStart : q <+: commonStart a b ↔ q <+: a ∧ q <+: b := by
  induction q generalizing a b with
  | nil => simp
  | cons c q ih =>
    rcases a with - | ⟨x, a⟩
    · simp [commonStart]
    · rcases b with - | ⟨y, b⟩
      · simp [commonStart]
      · rw [commonStart]
        split <;> grind

lemma isPrefix_commonStartAll (hne : ls ≠ []) :
    q <+: commonStartAll ls ↔ ∀ line ∈ ls, q <+: line := by
  obtain ⟨first, rest, rfl⟩ := List.exists_cons_of_ne_nil hne
  have hfold : ∀ start, q <+: rest.foldl commonStart start ↔
      q <+: start ∧ ∀ line ∈ rest, q <+: line := by
    induction rest with
    | nil => simp
    | cons line rest ih => simp [ih, isPrefix_commonStart, and_assoc]
  simp [commonStartAll, hfold]

/-- **A text starts all lines** that are not blank. -/
def StartsAll (p : List Char) (ls : List (List Char)) : Prop :=
  ∀ line ∈ ls, ¬ Blank line → p <+: blankStart line

/-- **The base indentation of lines**: the longest indentation of all lines that are not
blank. -/
structure IsBaseIndentation (p : List Char) (ls : List (List Char)) : Prop where
  startsAll : StartsAll p ls
  longest : (∃ line ∈ ls, ¬ Blank line) → ∀ q, StartsAll q ls → q <+: p

/-- **The core of lines**: all of them but the blank ones at both ends. -/
structure IsCore (core ls : List (List Char)) : Prop where
  exists_ends : ∃ before after, ls = before ++ (core ++ after) ∧
    (∀ line ∈ before, Blank line) ∧ ∀ line ∈ after, Blank line
  bounded : Bounded isBlankText core

/-- Lines without an indentation and without blanks at their ends. -/
def outdented (p : List Char) (ls : List (List Char)) : List (List Char) :=
  ls.map fun line => (trimEnd line).drop p.length

lemma isBlankText_iff : isBlankText line = true ↔ Blank line := List.all_eq_true

lemma trimEnd_eq_nil_iff : trimEnd line = [] ↔ Blank line := by
  simp [trimEnd, trimStart, List.dropWhile_eq_nil_iff, Blank]

lemma exists_indented (h : ¬ Blank line) : ∃ core after, Trimmed core ∧ core ≠ [] ∧
    Blank after ∧ line = blankStart line ++ (core ++ after) ∧
      trimEnd line = blankStart line ++ core := by
  obtain ⟨before, after, hbefore, hafter, heq⟩ := exists_trim_eq line
  have hcore := trimmed_trim line
  have hne : trim line ≠ [] := by
    intro hnil
    rw [hnil, List.nil_append] at heq
    exact h (heq ▸ hbefore.append hafter)
  generalize trim line = core at heq hcore hne
  have hstart : blankStart line = before := by
    rw [heq, blankStart_append hbefore hcore hne]
  refine ⟨core, after, hcore, hne, hafter, by rw [hstart, ← heq], ?_⟩
  rw [hstart, heq, trimEnd_append_core hafter hcore hne]

lemma blankStart_trimEnd (h : ¬ Blank line) :
    blankStart (trimEnd line) = blankStart line := by
  obtain ⟨core, after, hcore, hne, -, -, heq⟩ := exists_indented h
  rw [heq]
  simpa using blankStart_append (blank_blankStart line) hcore hne []

lemma Bounded.exists_mem (h : Bounded isBlankText core) (hne : core ≠ []) :
    ∃ line ∈ core, ¬ Blank line := by
  obtain ⟨line, rest, rfl⟩ := List.exists_cons_of_ne_nil hne
  refine ⟨line, mem_cons_self, fun hblank => ?_⟩
  simpa [isBlankText_iff.mpr hblank] using h.head line rfl

lemma IsCore.exists_mem_iff (h : IsCore core ls) :
    (∃ line ∈ ls, ¬ Blank line) ↔ core ≠ [] := by
  obtain ⟨before, after, rfl, hbefore, hafter⟩ := h.exists_ends
  constructor
  · rintro ⟨line, hline, hblank⟩ rfl
    rcases List.mem_append.mp hline with hline | hline
    · exact hblank (hbefore line hline)
    · exact hblank (hafter line hline)
  · intro hne
    obtain ⟨line, hline, hblank⟩ := h.bounded.exists_mem hne
    exact ⟨line, by simp [hline], hblank⟩

lemma exists_isCore (ls : List (List Char)) : ∃ core, IsCore core ls := by
  obtain ⟨before, after, heq, hbefore, hafter⟩ := exists_eq_dropEnds isBlankText ls
  exact ⟨_, ⟨before, after, heq, fun line hline => isBlankText_iff.mp (hbefore line hline),
    fun line hline => isBlankText_iff.mp (hafter line hline)⟩, bounded_dropEnds _ ls⟩

lemma isPrefix_common_iff (h : ∃ line ∈ ls, ¬ Blank line) :
    q <+: commonStartAll (((ls.map trimEnd).filter (!·.isEmpty)).map blankStart) ↔
      StartsAll q ls := by
  have hempty : ∀ line, (!(trimEnd line).isEmpty) = true ↔ ¬ Blank line := by
    simp [trimEnd_eq_nil_iff]
  obtain ⟨filled, hmem, hfilled⟩ := h
  rw [isPrefix_commonStartAll]
  · simp only [StartsAll, mem_map, List.mem_filter]
    constructor
    · intro h line hline hblank
      rw [← blankStart_trimEnd hblank]
      exact h _ ⟨_, ⟨⟨line, hline, rfl⟩, (hempty line).mpr hblank⟩, rfl⟩
    · rintro h _ ⟨_, ⟨⟨line, hline, rfl⟩, hne⟩, rfl⟩
      rw [blankStart_trimEnd ((hempty line).mp hne)]
      exact h line hline ((hempty line).mp hne)
  · have hline : trimEnd filled ∈ (ls.map trimEnd).filter (!·.isEmpty) :=
      List.mem_filter.mpr ⟨List.mem_map_of_mem hmem, (hempty filled).mpr hfilled⟩
    exact fun hnil => List.ne_nil_of_mem hline (List.map_eq_nil_iff.mp hnil)

lemma exists_isBaseIndentation (ls : List (List Char)) : ∃ p, IsBaseIndentation p ls := by
  by_cases h : ∃ line ∈ ls, ¬ Blank line
  · exact ⟨_, (isPrefix_common_iff h).mp prefix_rfl, fun _ q => (isPrefix_common_iff h).mpr⟩
  · exact ⟨[], fun _ _ _ => List.nil_prefix, fun h' => absurd h' h⟩

/-- **Re-indenting keeps the core of the lines**, without the base indentation. -/
theorem reindent_eq (hcore : IsCore core (lines code))
    (hp : IsBaseIndentation p (lines code)) :
    reindent code = unlines (outdented p core) := by
  have hkept : dropEmptyEnds ((lines code).map trimEnd) = core.map trimEnd := by
    obtain ⟨before, after, heq, hbefore, hafter⟩ := hcore.exists_ends
    have hends : ∀ blank : List (List Char), (∀ line ∈ blank, Blank line) →
        ∀ line ∈ blank.map trimEnd, line.isEmpty = true := by
      intro blank hblank line hline
      obtain ⟨line, hmem, rfl⟩ := mem_map.mp hline
      exact List.isEmpty_iff.mpr (trimEnd_eq_nil_iff.mpr (hblank line hmem))
    have hbounded : Bounded List.isEmpty (core.map trimEnd) := by
      refine hcore.bounded.of_map_eq ?_
      rw [map_map]
      refine map_congr_left fun line _ => ?_
      rw [Bool.eq_iff_iff, isBlankText_iff, ← trimEnd_eq_nil_iff]
      exact List.isEmpty_iff
    rw [heq, List.map_append, List.map_append]
    refine Eq.trans ?_ (hbounded.dropEnds_append (hends after hafter))
    unfold dropEmptyEnds dropEnds
    rw [List.dropWhile_append_of_pos (hends before hbefore)]
  rw [reindent, hkept, outdented, map_map]
  congr 1
  refine map_congr_left fun line hline => ?_
  obtain ⟨before, after, heq, -⟩ := hcore.exists_ends
  have hmem : line ∈ lines code := by simp [heq, hline]
  have hfilled := hcore.exists_mem_iff.mpr (List.ne_nil_of_mem hline)
  -- the common start of the indentations is the longest one, so it is the base indentation
  have hcommon : commonStartAll ((((lines code).map trimEnd).filter (!·.isEmpty)).map
      blankStart) = p :=
    (hp.longest hfilled _ ((isPrefix_common_iff hfilled).mp prefix_rfl)).eq_of_length_le
      ((isPrefix_common_iff hfilled).mpr hp.startsAll).length_le
  rw [hcommon, Function.comp_apply, dropStart]
  by_cases hblank : Blank line
  · simp [trimEnd_eq_nil_iff.mpr hblank]
  · have hstart : p <+: trimEnd line := by
      obtain ⟨core, -, -, -, -, -, htrim⟩ := exists_indented hblank
      exact (hp.startsAll line hmem hblank).trans ⟨core, htrim.symm⟩
    rw [if_pos (List.isPrefixOf_iff_prefix.mpr hstart)]

/-! ## Lines without base indentation -/

/-- **Lines as re-indenting leaves them**: they end with no blanks, the first and the last of
them are not blank, and they have no indentation in common. -/
structure IsReindented (out : List (List Char)) : Prop where
  line : ∀ line ∈ out, '\n' ∉ line ∧ ∀ c ∈ line.getLast?, isBlank c = false
  bounded : Bounded isBlankText out
  base : IsBaseIndentation [] out

lemma last_trimEnd (line : List Char) :
    ∀ c ∈ (trimEnd line).getLast?, isBlank c = false := by
  rw [trimEnd, List.getLast?_reverse]
  exact head_trimStart _

lemma exists_outdented (h : ¬ Blank line) (hp : p <+: blankStart line) :
    ∃ core, Trimmed core ∧ core ≠ [] ∧
      blankStart line = p ++ (blankStart line).drop p.length ∧
      (trimEnd line).drop p.length = (blankStart line).drop p.length ++ core := by
  obtain ⟨core, after, hcore, hne, -, -, htrim⟩ := exists_indented h
  refine ⟨core, hcore, hne, (List.prefix_append_drop hp), ?_⟩
  rw [htrim, List.drop_append_of_le_length hp.length_le]

lemma blankStart_outdented (h : ¬ Blank line) (hp : p <+: blankStart line) :
    blankStart ((trimEnd line).drop p.length) = (blankStart line).drop p.length := by
  obtain ⟨core, hcore, hne, -, heq⟩ := exists_outdented h hp
  have hblank : Blank ((blankStart line).drop p.length) :=
    fun c hc => blank_blankStart line c (List.mem_of_mem_drop hc)
  rw [heq]
  simpa using blankStart_append hblank hcore hne []

lemma blank_outdented_iff (hp : ¬ Blank line → p <+: blankStart line) :
    Blank ((trimEnd line).drop p.length) ↔ Blank line := by
  constructor
  · intro hblank
    by_contra h
    obtain ⟨core, hcore, hne, -, heq⟩ := exists_outdented h (hp h)
    exact hne (hcore.eq_nil fun c hc => hblank c (by simp [heq, hc]))
  · intro h
    simp [trimEnd_eq_nil_iff.mpr h, Blank.nil]

lemma map_isBlankText_outdented (hp : StartsAll p ls) :
    (outdented p ls).map isBlankText = ls.map isBlankText := by
  rw [outdented, map_map]
  refine map_congr_left fun line hline => ?_
  rw [Bool.eq_iff_iff, Function.comp_apply, isBlankText_iff, isBlankText_iff,
    blank_outdented_iff (hp line hline)]

lemma startsAll_outdented_iff (hp : StartsAll p ls) :
    StartsAll q (outdented p ls) ↔ StartsAll (p ++ q) ls := by
  simp only [StartsAll, outdented, List.forall_mem_map]
  refine forall₂_congr fun line hline => ?_
  rw [blank_outdented_iff (hp line hline)]
  refine forall_congr' fun hblank => ?_
  obtain ⟨core, -, -, hstart, -⟩ := exists_outdented hblank (hp line hline hblank)
  rw [blankStart_outdented hblank (hp line hline hblank), hstart, List.prefix_append_right_inj,
    ← hstart]

lemma IsCore.startsAll_iff (h : IsCore core ls) : StartsAll q core ↔ StartsAll q ls := by
  obtain ⟨before, after, rfl, hbefore, hafter⟩ := h.exists_ends
  simp only [StartsAll, List.forall_mem_append]
  exact ⟨fun h => ⟨fun line hline hne => absurd (hbefore line hline) hne, h,
    fun line hline hne => absurd (hafter line hline) hne⟩, fun h => h.2.1⟩

lemma isReindented_outdented (hcore : IsCore core (lines code))
    (hp : IsBaseIndentation p (lines code)) : IsReindented (outdented p core) := by
  have hstarts : StartsAll p core := hcore.startsAll_iff.mpr hp.startsAll
  obtain ⟨before, after, heq, -⟩ := hcore.exists_ends
  refine ⟨?_, ?_, fun _ _ _ => List.nil_prefix, ?_⟩
  · intro line hline
    obtain ⟨line, hmem, rfl⟩ := mem_map.mp hline
    obtain ⟨hfeed, -⟩ := isInfix_of_mem_lines (show line ∈ lines code by simp [heq, hmem])
    refine ⟨fun h => hfeed ?_, fun c hc => ?_⟩
    · rw [← trimEnd_append_blankEnd line]
      exact List.mem_append_left _ (List.mem_of_mem_drop h)
    · rw [List.getLast?_drop] at hc
      split at hc
      · simp at hc
      · exact last_trimEnd line c hc
  · exact hcore.bounded.of_map_eq (map_isBlankText_outdented hstarts)
  · -- an indentation that is left would go with the base indentation
    rintro ⟨line, hline, -⟩ q hq
    rw [startsAll_outdented_iff hstarts, hcore.startsAll_iff] at hq
    have hne : core ≠ [] := by
      rintro rfl
      simp [outdented] at hline
    have hle := (hp.longest (hcore.exists_mem_iff.mpr hne) _ hq).length_le
    rw [List.length_append] at hle
    rw [List.eq_nil_of_length_eq_zero (show q.length = 0 by omega)]

def indentLine (indentation line : List Char) : List Char :=
  if line = [] then [] else indentation ++ line

section Indented

variable {out before after : List (List Char)} {indentation : List Char}

lemma IsReindented.outdented_map (h : IsReindented out) (indentation : List Char) :
    outdented indentation (out.map (indentLine indentation)) = out := by
  rw [outdented, map_map]
  refine (map_congr_left fun line hline => ?_).trans (map_id out)
  rw [Function.comp_apply, indentLine]
  split
  · simp_all [trimEnd, trimStart]
  · rw [trimEnd_of_last, List.drop_left, id]
    rw [List.getLast?_append_of_ne_nil _ ‹_›]
    exact (h.line line hline).2

lemma startsAll_map_indentLine (h : Blank indentation) (out : List (List Char)) :
    StartsAll indentation (out.map (indentLine indentation)) := by
  simp only [StartsAll, List.forall_mem_map]
  intro line _ hblank
  rw [indentLine] at hblank ⊢
  split at hblank
  · exact absurd .nil hblank
  · rw [if_neg ‹_›, blankStart, List.takeWhile_append_of_pos h]
    exact List.prefix_append ..

/-- **Lines that are indented alike, between blank lines, are re-indented to what they were.** -/
theorem IsReindented.reindent_eq (h : IsReindented out) (hindentation : Blank indentation)
    (hlines : lines code = before ++ (out.map (indentLine indentation) ++ after))
    (hbefore : ∀ line ∈ before, Blank line) (hafter : ∀ line ∈ after, Blank line) :
    reindent code = unlines out := by
  have hstarts := startsAll_map_indentLine hindentation out
  have hblank := map_isBlankText_outdented hstarts
  rw [h.outdented_map] at hblank
  have hcore : IsCore (out.map (indentLine indentation)) (lines code) :=
    ⟨⟨before, after, hlines, hbefore, hafter⟩, h.bounded.of_map_eq hblank.symm⟩
  have hbase : IsBaseIndentation indentation (lines code) := by
    refine ⟨hcore.startsAll_iff.mp hstarts, ?_⟩
    intro hfilled q hq
    have hout : out ≠ [] := fun hnil => hcore.exists_mem_iff.mp hfilled (by rw [hnil]; rfl)
    obtain ⟨filled, hmem, hfilled⟩ := hfilled
    rcases List.prefix_or_prefix_of_prefix (hq filled hmem hfilled)
      (hcore.startsAll_iff.mp hstarts filled hmem hfilled) with hle | ⟨rest, rfl⟩
    · exact hle
    · -- what a longer indentation adds is an indentation of the lines as they were
      have hrest := (startsAll_outdented_iff hstarts).mpr (hcore.startsAll_iff.mpr hq)
      rw [h.outdented_map] at hrest
      have hnil := h.base.longest (h.bounded.exists_mem hout) rest hrest
      rw [List.prefix_nil.mp hnil, List.append_nil]
  rw [ComponentTemplate.reindent_eq hcore hbase, h.outdented_map]

end Indented

lemma IsReindented.lines_unlines (h : IsReindented out) : lines (unlines out) = out := by
  refine Text.lines_unlines (fun line hline => ⟨(h.line line hline).1, fun hreturn => ?_⟩) ?_
  · exact absurd ((h.line line hline).2 _ hreturn) (by decide)
  · exact fun hnil => absurd (h.bounded.last [] hnil) (by decide)

/-- **Re-indenting keeps the lines of the code from the first to the last that is not blank**,
without blanks at their ends and without the longest indentation of all lines that are not
blank, and re-indenting twice gives no more. -/
theorem reindent_spec (code : List Char) :
    ∃ core p, IsCore core (lines code) ∧ IsBaseIndentation p (lines code) ∧
      reindent code = unlines (outdented p core) ∧
      lines (reindent code) = outdented p core ∧
      reindent (reindent code) = reindent code := by
  obtain ⟨core, hcore⟩ := exists_isCore (lines code)
  obtain ⟨p, hp⟩ := exists_isBaseIndentation (lines code)
  have hout := isReindented_outdented hcore hp
  refine ⟨core, p, hcore, hp, reindent_eq hcore hp, ?_, ?_⟩
  · rw [reindent_eq hcore hp, hout.lines_unlines]
  · rw [reindent_eq hcore hp]
    refine hout.reindent_eq .nil ?_ (List.forall_mem_nil _) (List.forall_mem_nil _)
    have hsame : (outdented p core).map (indentLine []) = outdented p core :=
      (map_congr_left fun line _ => by simp [indentLine, eq_comm]).trans (map_id _)
    rw [hsame, hout.lines_unlines, List.nil_append, List.append_nil]

/-! ## Scripts between their tags -/

section Content

variable {out : List (List Char)} {w : Writer} {t : List Char} {c : Char}

/-- What the lines of a script become between its tags: a line feed, the lines, and the
indentation of the closing tag. -/
def scriptContent (inner outer : List Char) (out : List (List Char)) : List Char :=
  '\n' :: ((out.map (indentLine inner)).flatMap (· ++ ['\n']) ++ outer)

lemma written_linesDoc (hw : w.atLineStart = true) (hout : ∀ line ∈ out, '\n' ∉ line) :
    ((Doc.concat (out.map fun line => .text (String.ofList line) ++ Doc.line)).write w) =
      { w with written := ((out.map (indentLine w.indentation)).flatMap
        (· ++ ['\n'])).reverse ++ w.written } := by
  induction out generalizing w with
  | nil => rfl
  | cons line out ih =>
    have hline : (w.add line).add ['\n'] =
        { w with written := '\n' :: ((indentLine w.indentation line).reverse ++ w.written) } := by
      rcases line with - | ⟨c, line⟩
      · simp [add, indentLine]
      · have hc : c ≠ '\n' := fun hc => hout _ mem_cons_self (by simp [hc])
        simp [add, indentLine, hw, hc]
    have hrest := @ih ((w.add line).add ['\n']) (by rfl)
      fun l hl => hout l (mem_cons_of_mem _ hl)
    have hindentation : ((w.add line).add ['\n']).indentation = w.indentation := by
      simp [indentation]
    rw [hindentation, hline] at hrest
    simpa [Doc.concat, Doc.write, Doc.write_append, Doc.line, hline] using hrest

lemma write_scriptDoc (hout : lines (reindent code) = out)
    (hline : ∀ line ∈ out, '\n' ∉ line) (w : Writer) :
    ((((">" : Doc) ++ scriptDoc reindentScript (String.ofList code)) ++ "</script>").write
        w).written.reverse = (w.add ['>']).written.reverse ++ ((if Blank code then [] else
      scriptContent w.indent.indentation w.indentation out) ++ "</script>".toList) := by
  have hstart : (w.add ['>']).atLineStart = false := by simp [add, atLineStart]
  by_cases hblank : Blank code
  · have hdoc : scriptDoc reindentScript (String.ofList code) = .empty := by
      simp [scriptDoc, isBlankText_iff.mpr hblank, Doc.onlyIf]
    rw [if_pos hblank, hdoc]
    simp [Doc.write_append, Doc.write, add_of_not_atLineStart hstart]
  · have htext : isBlankText code = false := by
      rw [← Bool.not_eq_true, isBlankText_iff]
      exact hblank
    -- the line feed after the opening tag puts every line at the start of a line
    have hwritten := @written_linesDoc out ((w.add ['>']).add ['\n']).indent
      (by simp [add_of_not_atLineStart hstart, indent, atLineStart]) hline
    have hend : ∀ ls : List (List Char), (ls.flatMap (· ++ ['\n'])).getLast?.getD '\n' = '\n' := by
      intro ls
      rcases List.eq_nil_or_concat ls with rfl | ⟨ls, line, rfl⟩ <;> simp
    have hdoc : scriptDoc reindentScript (String.ofList code) = Doc.line ++ .nest (.concat
        (out.map fun line => .text (String.ofList line) ++ Doc.line)) := by
      simp [scriptDoc, htext, Doc.onlyIf, reindentScript, hout]
    rw [if_neg hblank, hdoc]
    change (((Doc.nest _).write ((w.add ['>']).add ['\n'])).add
      "</script>".toList).written.reverse = _
    rw [Doc.write, hwritten]
    simp [indentation, indent, scriptContent, add, atLineStart, hend]

lemma isInfix_append_cons (hc : c ∉ t) (h : t <:+: a ++ c :: b) : t <:+: a ∨ t <:+: b := by
  obtain ⟨s, r, h⟩ := h
  rw [append_assoc] at h
  rcases List.append_eq_append_iff.mp h with ⟨x, rfl, hx⟩ | ⟨x, rfl, hx⟩
  · rcases List.append_eq_append_iff.mp hx with ⟨y, rfl, -⟩ | ⟨y, rfl, hy⟩
    · exact .inl ⟨s, y, by simp⟩
    · rcases y with - | ⟨d, y⟩
      · exact .inl ⟨s, [], by simp⟩
      · exact absurd (show c ∈ x ++ d :: y by simp [(cons.inj hy).1]) hc
  · rcases x with - | ⟨d, x⟩
    · rcases t with - | ⟨d, t⟩
      · exact .inl List.nil_infix
      · exact absurd (by simp [(cons.inj hx).1]) hc
    · exact .inr ⟨x, r, by simpa using (cons.inj hx).2.symm⟩

lemma isInfix_of_blank_append (hc : isBlank c = false) (ha : Blank a)
    (h : c :: t <:+: a ++ b) : c :: t <:+: b := by
  induction a with
  | nil => exact h
  | cons d a ih =>
    rcases List.infix_cons_iff.mp h with h | h
    · have hd := ha d mem_cons_self
      rw [← (List.cons_prefix_cons.mp h).1, hc] at hd
      cases hd
    · exact ih (fun x hx => ha x (mem_cons_of_mem _ hx)) h

lemma exists_isInfix_of_scriptContent {inner outer : List Char} (hinner : Blank inner)
    (houter : Blank outer) (hc : isBlank c = false) (ht : '\n' ∉ c :: t)
    (h : c :: t <:+: scriptContent inner outer out) : ∃ line ∈ out, c :: t <:+: line := by
  have h' : c :: t <:+: (out.map (indentLine inner)).flatMap (· ++ ['\n']) ++ outer := by
    rcases isInfix_append_cons (a := []) ht h with h | h
    · simp at h
    · exact h
  clear h
  induction out with
  | nil =>
    have := isInfix_of_blank_append (b := []) hc houter (by simpa using h')
    simp at this
  | cons line out ih =>
    rw [List.map_cons, List.flatMap_cons, append_assoc, append_assoc,
      List.singleton_append] at h'
    rcases isInfix_append_cons ht h' with h | h
    · refine ⟨line, mem_cons_self, ?_⟩
      rw [indentLine] at h
      split at h
      · simp at h
      · exact isInfix_of_blank_append hc hinner h
    · obtain ⟨line, hline, h⟩ := ih h
      exact ⟨line, mem_cons_of_mem _ hline, h⟩

lemma IsReindented.reindent_scriptContent {inner outer : List Char} (h : IsReindented out)
    (hinner : Blank inner) (houter : Blank outer)
    (hfeed : '\n' ∉ inner ∧ '\n' ∉ outer) :
    reindent (scriptContent inner outer out) = unlines out := by
  have hlines : ∀ line ∈ out.map (indentLine inner), '\n' ∉ line ∧ line.getLast? ≠ some '\r' := by
    simp only [List.forall_mem_map]
    intro line hline
    obtain ⟨hnot, hlast⟩ := h.line line hline
    rw [indentLine]
    split
    · simp
    · rw [List.getLast?_append_of_ne_nil _ ‹_›]
      exact ⟨by simp [hfeed.1, hnot], fun hreturn => absurd (hlast _ hreturn) (by decide)⟩
  have hcontent : lines (scriptContent inner outer out) =
      [[]] ++ (out.map (indentLine inner) ++ lines outer) := by
    have hfirst := @lines_append [] (by simp)
    rw [scriptContent, ← lines_flatMap_append hlines]
    exact hfirst _
  refine h.reindent_eq hinner hcontent (by simp [Blank.nil]) fun line hline => ?_
  exact fun c hc => houter c ((isInfix_of_mem_lines hline).2.subset hc)

lemma blank_of_forall_mem_lines (h : ∀ line ∈ lines code, Blank line) :
    Blank code := by
  induction code using linesInduction with
  | last last hlast =>
    rw [lines_of_not_mem hlast] at h
    split at h
    · simp_all [Blank.nil]
    · simpa using h
  | more first rest hfirst ih =>
    rw [lines_append hfirst] at h
    obtain ⟨hline, hlines⟩ := List.forall_mem_cons.mp h
    have hblank : Blank first := by
      rw [dropReturn] at hline
      split at hline
      · rename_i hreturn
        rw [← List.dropLast_append_getLast? '\r' hreturn]
        exact hline.append (by simp [Blank, isBlank])
      · exact hline
    exact hblank.append (List.forall_mem_cons.mpr ⟨by decide, ih hlines⟩)

lemma reindent_eq_nil_iff : reindent code = [] ↔ Blank code := by
  obtain ⟨core, hcore⟩ := exists_isCore (lines code)
  obtain ⟨p, hp⟩ := exists_isBaseIndentation (lines code)
  have hout := isReindented_outdented hcore hp
  rw [reindent_eq hcore hp]
  constructor
  · intro hnil
    have hlines := hout.lines_unlines
    rw [hnil, lines_of_not_mem (by simp), if_pos rfl, eq_comm, outdented,
      List.map_eq_nil_iff] at hlines
    refine blank_of_forall_mem_lines fun line hline => ?_
    by_contra hblank
    exact hcore.exists_mem_iff.mp ⟨line, hline, hblank⟩ hlines
  · intro hblank
    by_contra hne
    obtain ⟨line, hline, hfilled⟩ := hcore.exists_mem_iff.mpr (by rintro rfl; exact hne rfl)
    exact hfilled fun c hc => hblank c ((isInfix_of_mem_lines hline).2.subset hc)

lemma scriptDoc_congr (h : reindent content = reindent code) :
    scriptDoc reindentScript (String.ofList content) =
      scriptDoc reindentScript (String.ofList code) := by
  have hblank : isBlankText content = isBlankText code := by
    rw [Bool.eq_iff_iff, isBlankText_iff, isBlankText_iff, ← reindent_eq_nil_iff, h,
      reindent_eq_nil_iff]
  simp [scriptDoc, reindentScript, hblank, h]

lemma isInfix_of_mem_outdented (hcore : IsCore core (lines code))
    (h : line ∈ outdented p core) : line <:+: code := by
  obtain ⟨before, after, heq, -⟩ := hcore.exists_ends
  obtain ⟨line, hline, rfl⟩ := mem_map.mp h
  have hmem : line ∈ lines code := by simp [heq, hline]
  have hprefix : trimEnd line <+: line := ⟨_, trimEnd_append_blankEnd line⟩
  exact (List.drop_suffix ..).isInfix.trans
    (List.IsPrefix.isInfix hprefix |>.trans (isInfix_of_mem_lines hmem).2)

end Content

lemma MarkupGrammar.not_isInfix_of_rawContent
    (h : Gives (rawContent name cur) (code, codeSpan) next) :
    ¬ ("</" ++ name ++ ">").toList <:+: code := by
  unfold rawContent at h
  dsimp only at h
  split at h
  · exact absurd h not_gives_error
  · rename_i found hfound
    obtain ⟨hpair, -⟩ := gives_ok.mp h
    obtain ⟨rfl, -⟩ := Prod.mk.inj hpair
    exact not_isInfix_of_beforeText? (by simp) hfound

/-- **The content that is written for a script between its tags**, as a fixed point: it does not
hold the closing tag, so it is read again as it stands, and it is re-indented and printed as the
code it was written from. -/
structure IsScriptContent (w : Writer) (code content : List Char) : Prop where
  written : ((((">" : Doc) ++ scriptDoc reindentScript (String.ofList code)) ++
    "</script>").write w).written.reverse =
      (w.add ['>']).written.reverse ++ (content ++ "</script>".toList)
  not_isInfix : ¬ "</script>".toList <:+: content
  reindent_eq : reindent content = reindent code
  doc_eq : scriptDoc reindentScript (String.ofList content) =
    scriptDoc reindentScript (String.ofList code)
  read : ∀ offset after, ∃ contentSpan next, Gives (rawContent "script"
    ⟨offset, content ++ ("</script>".toList ++ after)⟩) (content, contentSpan) next

lemma IsScriptContent.of_reindent_eq
    (hwritten : ((((">" : Doc) ++ scriptDoc reindentScript (String.ofList code)) ++
      "</script>").write w).written.reverse =
        (w.add ['>']).written.reverse ++ (content ++ "</script>".toList))
    (hnone : ¬ "</script>".toList <:+: content) (hreindent : reindent content = reindent code) :
    IsScriptContent w code content := by
  refine ⟨hwritten, hnone, hreindent, scriptDoc_congr hreindent, fun offset after => ?_⟩
  rw [← show "</" ++ "script" ++ ">" = "</script>" by decide] at hnone ⊢
  obtain ⟨contentSpan, hread⟩ :=
    exists_gives_rawContent (by decide) hnone offset after
  exact ⟨contentSpan, _, hread⟩

/-- **Scripts are a fixed point at every level**, for every unit of tabs or spaces. -/
theorem exists_isScriptContent {cur next : Cursor} {code : List Char} {codeSpan : Span}
    (hread : Gives (rawContent "script" cur) (code, codeSpan) next) (w : Writer)
    (hunit : ∀ c ∈ w.unit, c = '\t' ∨ c = ' ') :
    ∃ content, IsScriptContent w code content := by
  obtain ⟨core, hcore⟩ := exists_isCore (lines code)
  obtain ⟨p, hp⟩ := exists_isBaseIndentation (lines code)
  have hout := isReindented_outdented hcore hp
  have hlines : lines (reindent code) = outdented p core := by
    rw [reindent_eq hcore hp, hout.lines_unlines]
  have hwrite := write_scriptDoc hlines (fun line hline => (hout.line line hline).1) w
  by_cases hcode : Blank code
  · rw [if_pos hcode] at hwrite
    exact ⟨[], .of_reindent_eq hwrite (by simp)
      (by rw [reindent_eq_nil_iff.mpr hcode, reindent_eq_nil_iff.mpr .nil])⟩
  · rw [if_neg hcode] at hwrite
    have hblank : ∀ c ∈ w.unit, isBlank c = true := by
      intro c hc
      rcases hunit c hc with rfl | rfl <;> decide
    have hfeed : '\n' ∉ w.unit := by
      intro hmem
      rcases hunit _ hmem with h | h <;> simp at h
    have hinner : Blank w.indent.indentation := isBlank_indentation hblank
    have houter : Blank w.indentation := isBlank_indentation hblank
    refine ⟨_, .of_reindent_eq hwrite (fun hinfix => ?_) ?_⟩
    · obtain ⟨line, hline, hinfix⟩ := exists_isInfix_of_scriptContent hinner houter
        (by decide) (by decide) hinfix
      refine not_isInfix_of_rawContent hread ?_
      exact hinfix.trans (isInfix_of_mem_outdented hcore hline)
    · rw [reindent_eq hcore hp]
      exact hout.reindent_scriptContent hinner houter
        ⟨fun h => hfeed (mem_unit_of_mem_indentation (w := w.indent) h),
          fun h => hfeed (mem_unit_of_mem_indentation h)⟩

/-- Code whose lines start with the unit of indentation themselves, two levels deep. -/
theorem exists_isScriptContent_tabs :
    (∃ codeSpan next, Gives (rawContent "script"
      ⟨0, "\n\tif (a) \x7b\n\n\t\tb\n\t\x7d </scrip>".toList ++ ("</script>".toList ++ [])⟩)
        ("\n\tif (a) \x7b\n\n\t\tb\n\t\x7d </scrip>".toList, codeSpan) next) ∧
    (∀ c ∈ ['\t'], c = '\t' ∨ c = ' ') ∧
    ∃ content, IsScriptContent ⟨['\t'], 2, []⟩
      "\n\tif (a) \x7b\n\n\t\tb\n\t\x7d </scrip>".toList content := by
  obtain ⟨codeSpan, hread⟩ := @exists_gives_rawContent "script"
    "\n\tif (a) \x7b\n\n\t\tb\n\t\x7d </scrip>".toList (by decide) (by decide) 0 []
  exact ⟨⟨codeSpan, _, hread⟩, by simp, exists_isScriptContent hread ⟨['\t'], 2, []⟩ (by simp)⟩

end ComponentTemplate
