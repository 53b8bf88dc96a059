import ComponentTemplate.Proofs.Blanks
import ComponentTemplate.Markup.Printer
import ComponentTemplate.Proofs.Writing

/-!
# Padding of texts

Of the blanks around a text only their class is kept. The blanks that a class is written as are
of this class again, with the indentation that follows a line break.
-/

namespace ComponentTemplate

open Text Writer Padding

open Text (Blank Trimmed trim trimStart trimEnd blankStart blankEnd isBlank)

/-! ## Classes of blanks -/

/-- **Blanks are those of a padding.** -/
def Padding.Fits : Padding → List Char → Prop
  | none, blanks => blanks = []
  | space, blanks => blanks = [' ']
  | newline, blanks => ∃ indentation, blanks = '\n' :: indentation ∧ Blank indentation ∧
      '\n' ∉ indentation
  | blankLine, blanks => ∃ indentation, blanks = '\n' :: '\n' :: indentation ∧
      Blank indentation ∧ '\n' ∉ indentation

variable {blanks : List Char} {padding : Padding} {w : Writer}

lemma Padding.Fits.blank (h : padding.Fits blanks) : Blank blanks := by
  have hfeed : isBlank '\n' = true := by decide
  cases padding with
  | none => simp [show blanks = [] from h, Blank]
  | space => simp [show blanks = [' '] from h, Blank, isBlank]
  | newline =>
    obtain ⟨indentation, rfl, hblank, -⟩ := h
    exact List.forall_mem_cons.mpr ⟨hfeed, hblank⟩
  | blankLine =>
    obtain ⟨indentation, rfl, hblank, -⟩ := h
    exact List.forall_mem_cons.mpr ⟨hfeed, List.forall_mem_cons.mpr ⟨hfeed, hblank⟩⟩

lemma Padding.fits_nil_iff : padding.Fits [] ↔ padding = .none := by cases padding <;> simp [Fits]

lemma Padding.of_eq_none_iff : of true true blanks = .none ↔ blanks = [] := by
  constructor
  · unfold of
    split_ifs with hwide hone hinner
    all_goals simp_all
  · rintro rfl
    rfl

lemma Padding.of_eq_of_fits {wide inner : Bool} {blanks' : List Char}
    (h : (of wide inner blanks).Fits blanks') :
    of wide inner blanks' = of wide inner blanks := by
  have hcount {cs : List Char} (hcs : '\n' ∉ cs) : cs.count '\n' = 0 := List.count_eq_zero.mpr hcs
  generalize hpadding : of wide inner blanks = padding at h
  cases padding with
  | none =>
    obtain rfl : blanks' = [] := h
    simp [of, lineFeeds]
  | space =>
    obtain rfl : blanks' = [' '] := h
    unfold of at hpadding
    split_ifs at hpadding with hwide hone hinner
    simp_all [of, lineFeeds]
  | newline =>
    obtain ⟨indentation, rfl, -, hfeed⟩ := h
    simp [of, lineFeeds, hcount hfeed]
  | blankLine =>
    obtain ⟨indentation, rfl, -, hfeed⟩ := h
    unfold of at hpadding
    split_ifs at hpadding with hwide
    simp_all [of, lineFeeds]

namespace Text

variable {before core after : List Char}

lemma head_append_of_trimmed (hcore : Trimmed core) (hne : core ≠ []) (after : List Char) :
    ∀ c ∈ (core ++ after).head?, isBlank c = false := by
  intro c hc
  rw [List.head?_append_of_ne_nil _ hne] at hc
  exact hcore.head c hc

lemma blankStart_append (hbefore : Blank before) (hcore : Trimmed core) (hne : core ≠ [])
    (after : List Char) : blankStart (before ++ (core ++ after)) = before :=
  takeWhile_append_of_all hbefore (head_append_of_trimmed hcore hne after)

lemma blankEnd_append (hafter : Blank after) (hcore : Trimmed core) (hne : core ≠ [])
    (before : List Char) : blankEnd (before ++ (core ++ after)) = after := by
  have hreverse : Blank after.reverse := fun c hc => hafter c (List.mem_reverse.mp hc)
  rw [blankEnd, List.reverse_append, List.reverse_append, List.append_assoc,
    blankStart_append hreverse hcore.reverse (by simpa using hne), List.reverse_reverse]

lemma trimStart_append_core (hbefore : Blank before) (hcore : Trimmed core) (hne : core ≠ [])
    (after : List Char) : trimStart (before ++ (core ++ after)) = core ++ after := by
  rw [trimStart_append hbefore, trimStart_of_head (head_append_of_trimmed hcore hne after)]

lemma trimEnd_append_core (hafter : Blank after) (hcore : Trimmed core) (hne : core ≠ [])
    (before : List Char) : trimEnd (before ++ (core ++ after)) = before ++ core := by
  rw [← List.append_assoc, trimEnd_append hafter, trimEnd_of_last]
  intro c hc
  rw [List.getLast?_append_of_ne_nil _ hne] at hc
  exact hcore.last c hc

end Text

namespace Sibling

variable {α : Type} {trim first last : Bool} {raw core : List Char} {lead trail : Padding}

lemma pad_text_append (hbefore : Blank before) (hafter : Blank after) (hcore : Trimmed core)
    (hne : core ≠ []) :
    (Sibling.text (before ++ (core ++ after)) : Sibling α).pad trim first last =
      .text (of true (!first) (if trim && first then [] else before)) core
        (of (!last) (!last) (if trim && last then [] else after)) := by
  have hstart : (if trim && first then trimStart (before ++ (core ++ after))
      else before ++ (core ++ after)) =
        (if trim && first then [] else before) ++ (core ++ after) := by
    split
    · rw [trimStart_append_core hbefore hcore hne, List.nil_append]
    · rfl
  have hbefore' : Blank (if trim && first then [] else before) := by
    split
    · exact .nil
    · exact hbefore
  generalize (if trim && first then [] else before) = before' at hstart hbefore' ⊢
  have hend : (if trim && last then trimEnd (before' ++ (core ++ after))
      else before' ++ (core ++ after)) =
        before' ++ (core ++ if trim && last then [] else after) := by
    split
    · rw [trimEnd_append_core hafter hcore hne, List.append_nil]
    · rfl
  have hafter' : Blank (if trim && last then [] else after) := by
    split
    · exact .nil
    · exact hafter
  generalize (if trim && last then [] else after) = after' at hend hafter' ⊢
  have hempty : core.isEmpty = false := by simpa using hne
  simp only [pad, hstart, hend, padText, trim_append hbefore' hafter' hcore, hempty,
    blankStart_append hbefore' hcore hne, blankEnd_append hafter' hcore hne,
    Bool.false_and, Bool.not_false, Bool.false_eq_true, if_false]

lemma trim_of_blank (h : Blank blanks) : Text.trim blanks = [] := by
  simpa using trim_append h .nil .nil

lemma pad_text_blank (hblanks : Blank blanks) :
    (Sibling.text blanks : Sibling α).pad trim first last =
      .text (of (!last) (!first) (if trim && (first || last) then [] else blanks)) []
        .none := by
  have hstart : trimStart blanks = [] := List.dropWhile_eq_nil_iff.mpr hblanks
  have hend : trimEnd blanks = [] := trimEnd_append hblanks []
  have hwhole : blankStart blanks = blanks := List.takeWhile_eq_self_iff.mpr hblanks
  have htrim := trim_of_blank hblanks
  have hnil : trimEnd [] = [] ∧ blankStart [] = [] := ⟨rfl, rfl⟩
  cases trim <;> cases first <;> cases last <;>
    simp [pad, padText, hstart, hend, hwhole, htrim, hnil, trim_of_blank .nil]

lemma core_of_pad (h : (Sibling.text raw : Sibling α).pad trim first last = .text lead core trail) :
    core = Text.trim raw ∧ (core = [] → trail = .none) := by
  obtain ⟨before, after, hbefore, hafter, hraw⟩ := exists_trim_eq raw
  by_cases hne : Text.trim raw = []
  · have hblank : Blank raw := by
      rw [hraw, hne]
      exact hbefore.append hafter
    rw [pad_text_blank hblank] at h
    cases h
    exact ⟨hne.symm, fun _ => rfl⟩
  · rw [hraw, pad_text_append hbefore hafter (trimmed_trim raw) hne] at h
    cases h
    exact ⟨rfl, fun hnil => absurd hnil hne⟩

lemma getLast?_eq_some_iff (hc : Text.isBlank c = false)
    (h : (Sibling.text raw : Sibling α).pad trim first false = .text lead core trail) :
    raw.getLast? = some c ↔ core.getLast? = some c ∧ trail = .none := by
  obtain ⟨start, stop, hstart, hstop, hraw⟩ := Text.exists_trim_eq raw
  have hnot {cs : List Char} (hcs : Blank cs) : cs.getLast? ≠ some c := fun hlast => by
    rw [hcs c (List.mem_of_getLast? hlast)] at hc
    cases hc
  rw [← (core_of_pad h).1] at hraw
  have htrimmed : Trimmed core := (core_of_pad h).1 ▸ Text.trimmed_trim raw
  by_cases hne : core = []
  · subst hne
    have hblank : Blank raw := hraw ▸ hstart.append hstop
    simp [hnot hblank]
  · rw [hraw, pad_text_append hstart hstop htrimmed hne] at h
    simp only [Bool.and_false, Bool.false_eq_true, if_false, Bool.not_false, Padded.text.injEq] at h
    rw [← h.2.2, of_eq_none_iff, hraw, ← List.append_assoc]
    by_cases hnil : stop = []
    · simp [hnil, List.getLast?_append_of_ne_nil _ hne]
    · simp [hnot hstop, hnil]

lemma exists_pad_text (trim first last : Bool) (raw : List Char) : ∃ lead core trail,
    (Sibling.text raw : Sibling α).pad trim first last = .text lead core trail :=
  ⟨_, _, _, rfl⟩

lemma trim_eq_of_pad
    (h : (Sibling.text raw' : Sibling α).pad trim' first' last' =
      (Sibling.text raw : Sibling α).pad trim first last) :
    Text.trim raw' = Text.trim raw := by
  obtain ⟨lead, core, trail, hpad⟩ := exists_pad_text (α := α) trim first last raw
  rw [hpad] at h
  rw [← (core_of_pad h).1, (core_of_pad hpad).1]

/-- **Classifying the blanks of a text again** gives its padding again. Blanks that are dropped may
follow the text. -/
theorem pad_text_eq (h : (Sibling.text raw : Sibling α).pad trim first last = .text lead core trail)
    (hlead : lead.Fits before) (htrail : trail.Fits after) (htail : Blank tail)
    (hdropped : tail ≠ [] → trim = true ∧ last = true) :
    (Sibling.text (before ++ (core ++ (after ++ tail))) : Sibling α).pad trim first last =
      .text lead core trail := by
  obtain ⟨start, stop, hstart, hstop, hraw⟩ := exists_trim_eq raw
  obtain ⟨hcore, hnone⟩ := core_of_pad h
  have htrimmed : Trimmed core := hcore ▸ trimmed_trim raw
  rw [hraw, ← hcore] at h
  have hend : Blank (after ++ tail) := htrail.blank.append htail
  by_cases hne : core = []
  · subst hne
    obtain rfl := hnone rfl
    obtain rfl : after = [] := htrail
    have hblank : Blank (start ++ ([] ++ stop)) := hstart.append hstop
    rw [pad_text_blank hblank, Padded.text.injEq] at h
    rw [List.nil_append, List.nil_append, pad_text_blank (hlead.blank.append htail), ← h.1]
    by_cases hends : (trim && (first || last)) = true
    · rw [if_pos hends, if_pos hends]
    · have htail : tail = [] := by
        by_contra hne
        simp [hdropped hne] at hends
      rw [if_neg hends, htail, List.append_nil]
      rw [← h.1, if_neg hends] at hlead
      rw [if_neg hends, of_eq_of_fits hlead]
  · rw [pad_text_append hstart hstop htrimmed hne, Padded.text.injEq] at h
    obtain ⟨rfl, -, rfl⟩ := h
    rw [pad_text_append hlead.blank hend htrimmed hne]
    congr 1
    · split at hlead
      · rw [if_pos ‹_›, if_pos ‹_›]
      · rw [if_neg ‹_›, if_neg ‹_›, of_eq_of_fits hlead]
    · split at htrail
      · rw [if_pos ‹_›, if_pos ‹_›]
      · rename_i hkept
        have htail : tail = [] := by
          by_contra hne
          simp [hdropped hne] at hkept
        rw [if_neg ‹_›, if_neg ‹_›, htail, List.append_nil, of_eq_of_fits htrail]

end Sibling

/-! ## Writing padded texts -/

/-- **Padding is written as blanks of its class**; the indentation after a line break is counted
in, at any level. -/
theorem Padding.exists_front (padding : Padding) (hw : w.Indents) (hstart : w.atLineStart = false)
    (level : Nat) :
    ∃ blanks, padding.Fits blanks ∧
      (((Doc.text padding.text).write w).atLevel level).front = w.front ++ blanks := by
  have hblank : Blank (w.atLevel level).indentation :=
    isBlank_indentation (hw.atLevel level).isBlank
  have hfeed := (hw.atLevel level).ne_lineFeed
  rw [Doc.write_text, add_of_not_atLineStart hstart, front_of_not_atLineStart hstart]
  cases padding with
  | none =>
    refine ⟨[], rfl, ?_⟩
    rw [List.append_nil]
    exact front_of_not_atLineStart hstart
  | space => exact ⟨[' '], rfl, by simp [text, front, atLineStart]⟩
  | newline =>
    refine ⟨'\n' :: (w.atLevel level).indentation, ⟨_, rfl, hblank, hfeed⟩, ?_⟩
    simp [text, front, atLineStart, indentation, atLevel]
  | blankLine =>
    refine ⟨'\n' :: '\n' :: (w.atLevel level).indentation, ⟨_, rfl, hblank, hfeed⟩, ?_⟩
    simp [text, front, atLineStart, indentation, atLevel]

lemma Padded.write_text (lead trail : Padding) (core : List Char) (w : Writer) :
    (Padded.text lead core trail).doc.write w =
      (Doc.text trail.text).write (((Doc.text lead.text).write w).add core) := by
  simp [Padded.doc, Doc.write_append, Doc.write_text]

/-- **A padded text is written as its core between blanks** of the two classes. -/
theorem Padded.exists_front (hcore : Trimmed core) (hnone : core = [] → trail = .none)
    (hw : w.Indents) (hstart : w.atLineStart = false) (level : Nat) :
    ∃ before after, lead.Fits before ∧ trail.Fits after ∧
      (((Padded.text lead core trail).doc.write w).atLevel level).front =
        w.front ++ (before ++ (core ++ after)) := by
  rw [Padded.write_text]
  by_cases hne : core = []
  · subst hne
    obtain rfl := hnone rfl
    obtain ⟨before, hbefore, hfront⟩ := lead.exists_front hw hstart level
    refine ⟨before, [], hbefore, rfl, ?_⟩
    rw [List.append_nil, List.append_nil]
    exact hfront
  · obtain ⟨before, hbefore, hfront⟩ := lead.exists_front hw hstart w.level
    generalize hw₁ : (Doc.text lead.text).write w = w₁ at hfront
    have hlevel : w₁.atLevel w.level = w₁ := by
      rw [← hw₁, ← Doc.level_write (Doc.text lead.text) w]
      rfl
    rw [hlevel] at hfront
    have hhead : core.head? ≠ some '\n' := fun hhead => absurd (hcore.head _ hhead) (by decide)
    have hlast : core.getLast? ≠ some '\n' := fun hlast => absurd (hcore.last _ hlast) (by decide)
    have hstart₁ : (w₁.add core).atLineStart = false := by
      rw [atLineStart_add hne]
      simpa using hlast
    have hindents : (w₁.add core).Indents := by
      rw [← hw₁]
      exact (hw.write (Doc.text lead.text)).add core
    obtain ⟨after, hafter, hend⟩ := trail.exists_front hindents hstart₁ level
    refine ⟨before, after, hbefore, hafter, ?_⟩
    rw [hend, front_of_not_atLineStart hstart₁, reverse_written_add hne hhead, hfront]
    simp

end ComponentTemplate
