import ComponentTemplate.Layout.Doc
import ComponentTemplate.Proofs.Spelling

/-!
# Writing pieces

What a writer has written, as a sequence of pieces and the blanks that wait for the next one.
Indentation goes into the blanks, so that the level of indentation and its unit disappear from
the statements as soon as the unit is blank.
-/

namespace ComponentTemplate

open List

namespace Writer

variable {w : Writer} {before : List Char} {ps : List Piece} {gap : Gap}

/-- **A writer has written pieces** after a given text, and blanks after the pieces. -/
structure Wrote (before : List Char) (ps : List Piece) (gap : Gap) (w : Writer) : Prop where
  unit : ∀ c ∈ w.unit, Text.isBlank c = true
  lineStart : w.atLineStart = true → gap = .line
  text : ∃ cs blanks, w.written.reverse = before ++ (cs ++ blanks) ∧ Spells ps cs ∧ gap.Fits blanks

lemma mem_unit_of_mem_indentation (h : c ∈ w.indentation) : c ∈ w.unit := by
  obtain ⟨unit, hunit, hc⟩ := mem_flatten.mp h
  exact eq_of_mem_replicate hunit ▸ hc

lemma isBlank_indentation (h : ∀ c ∈ w.unit, Text.isBlank c = true) :
    ∀ c ∈ w.indentation, Text.isBlank c = true :=
  fun c hc => h c (mem_unit_of_mem_indentation hc)

lemma add_of_not_atLineStart (h : w.atLineStart = false) (text : List Char) :
    w.add text = { w with written := text.reverse ++ w.written } := by
  cases text with
  | nil => rfl
  | cons c cs => simp [add, h]

lemma exists_written_add (h : ∀ c ∈ w.unit, Text.isBlank c = true) (text : List Char) :
    ∃ indentation, (∀ c ∈ indentation, Text.isBlank c = true) ∧
      (w.add text).written.reverse = w.written.reverse ++ (indentation ++ text) := by
  cases text with
  | nil => exact ⟨[], by simp, by simp [add]⟩
  | cons c cs =>
    refine ⟨if w.atLineStart && c ≠ '\n' then w.indentation else [], ?_, by simp [add]⟩
    intro d hd
    split at hd
    · exact isBlank_indentation h d hd
    · simp at hd

lemma add_append (ha : a ≠ []) (hlast : a.getLast? ≠ some '\n') :
    w.add (a ++ b) = (w.add a).add b := by
  obtain ⟨c, cs, rfl⟩ := exists_cons_of_ne_nil ha
  have hstart : (w.add (c :: cs)).atLineStart = false := by
    rw [← head?_reverse] at hlast
    simp only [atLineStart, add, decide_eq_false_iff_not, head?_append]
    cases hrev : (c :: cs).reverse.head? with
    | none => simp at hrev
    | some x =>
      rw [hrev] at hlast
      simpa using hlast
  rw [add_of_not_atLineStart hstart]
  simp [add]

lemma Wrote.token (h : w.Wrote before ps gap) (hl : l.IsWritten) :
    (w.add l.chars).Wrote before (ps ++ [⟨gap, l⟩]) .none := by
  obtain ⟨cs, blanks, hwritten, hspells, hfits⟩ := h.text
  obtain ⟨c, chars, hchars, hblank⟩ := hl.exists_cons
  -- the indentation of a line belongs to the blanks
  obtain ⟨blanks', hadd, hfits'⟩ : ∃ blanks', (w.add l.chars).written.reverse =
      before ++ (cs ++ (blanks' ++ l.chars)) ∧ gap.Fits blanks' := by
    by_cases hstart : w.atLineStart = true
    · obtain rfl := h.lineStart hstart
      obtain ⟨indentation, rfl, hindentation⟩ := hfits
      have hne : c ≠ '\n' := by
        rintro rfl
        exact absurd hblank (by decide)
      refine ⟨'\n' :: (indentation ++ w.indentation), ?_, _, rfl, fun d hd => ?_⟩
      · simp [add, hchars, hstart, hne, hwritten]
      · rcases mem_append.mp hd with hd | hd
        · exact hindentation d hd
        · exact isBlank_indentation h.unit d hd
    · exact ⟨blanks, by simp [add_of_not_atLineStart (by simpa using hstart), hwritten], hfits⟩
  refine ⟨by simpa using h.unit, fun hstart => ?_, _, [], ?_, hspells.snoc hfits', rfl⟩
  · have hlast := hl.getLast?_ne
    rw [← head?_reverse] at hlast
    rw [atLineStart, decide_eq_true_iff, ← reverse_reverse (w.add l.chars).written,
      head?_reverse, hadd] at hstart
    rw [head?_reverse] at hlast
    simp [getLast?_append, hchars] at hstart hlast
    exact absurd hstart hlast
  · simpa using hadd

lemma Wrote.space (h : w.Wrote before ps .none) : (w.add [' ']).Wrote before ps .space := by
  obtain ⟨cs, blanks, hwritten, hspells, rfl⟩ := h.text
  have hstart : w.atLineStart = false :=
    Bool.eq_false_iff.mpr fun hstart => nomatch h.lineStart hstart
  rw [add_of_not_atLineStart hstart]
  exact ⟨h.unit, by simp [atLineStart], cs, [' '], by simp [hwritten], hspells, rfl⟩

lemma Wrote.line (h : w.Wrote before ps .none) : (w.add ['\n']).Wrote before ps .line := by
  obtain ⟨cs, blanks, hwritten, hspells, rfl⟩ := h.text
  have hstart : w.atLineStart = false :=
    Bool.eq_false_iff.mpr fun hstart => nomatch h.lineStart hstart
  rw [add_of_not_atLineStart hstart]
  exact ⟨h.unit, fun _ => rfl, cs, ['\n'], by simp [hwritten], hspells, [], rfl, by simp⟩

lemma Wrote.congr (h : w.Wrote before ps gap) (hps : ps = ps') : w.Wrote before ps' gap := hps ▸ h

lemma Wrote.indent (h : w.Wrote before ps gap) : w.indent.Wrote before ps gap :=
  ⟨h.unit, h.lineStart, h.text⟩

lemma Wrote.nest (h : (doc.write w.indent).Wrote before ps gap) :
    ((Doc.nest doc).write w).Wrote before ps gap :=
  ⟨h.unit, h.lineStart, h.text⟩

end Writer

namespace Doc

/-- **A document writes pieces**, after whatever blanks. -/
def Prints (doc : Doc) (pieces : Gap → List Piece) : Prop :=
  ∀ ⦃before : List Char⦄ ⦃ps : List Piece⦄ ⦃gap : Gap⦄ ⦃w : Writer⦄, w.Wrote before ps gap →
    (doc.write w).Wrote before (ps ++ pieces gap) .none

variable {a b c : Doc} {P Q R : Gap → List Piece}

lemma write_append (w : Writer) : (a ++ b).write w = b.write (a.write w) := rfl

lemma write_text (text : String) (w : Writer) : (Doc.text text).write w = w.add text.toList := rfl

lemma write_text_append (text first second : String) (htext : text = first ++ second)
    (hfirst : first.toList.getLast?.any (· != '\n') = true) (w : Writer) :
    (Doc.text text).write w = (Doc.text second).write ((Doc.text first).write w) := by
  have hne : first.toList ≠ [] := by
    intro hnil
    simp [hnil] at hfirst
  have hlast : first.toList.getLast? ≠ some '\n' := by
    intro hend
    simp [hend] at hfirst
  rw [write_text, htext, String.toList_append, Writer.add_append hne hlast]
  rfl

lemma Prints.append (ha : a.Prints P) (hb : b.Prints Q) :
    (a ++ b).Prints fun gap => P gap ++ Q .none := by
  intro before ps gap w h
  rw [write_append, ← append_assoc]
  exact hb (ha h)

lemma Prints.nest (ha : a.Prints P) : (Doc.nest a).Prints P := by
  intro before ps gap w h
  exact (ha h.indent).nest

/-! ## Texts with a property -/

/-- **A document writes a text with a property**, whatever was written before it, as long as
indentation is blank. -/
def Writes (doc : Doc) (P : List Char → Prop) : Prop :=
  ∀ w : Writer, (∀ c ∈ w.unit, Text.isBlank c = true) →
    ∃ cs, (doc.write w).written.reverse = w.written.reverse ++ cs ∧ P cs

section Writes

variable {P Q : List Char → Prop}

lemma Writes.mono (h : a.Writes P) (himp : ∀ cs, P cs → Q cs) : a.Writes Q := by
  intro w hw
  obtain ⟨cs, hwritten, hcs⟩ := h w hw
  exact ⟨cs, hwritten, himp cs hcs⟩

lemma Writes.congr (h : a.Writes P) (hwrite : ∀ w, b.write w = a.write w) : b.Writes P := by
  intro w hw
  rw [hwrite]
  exact h w hw

lemma writes_empty : Doc.empty.Writes (· = []) := fun _ _ => ⟨[], by simp [write], rfl⟩

lemma writes_text (text : String) : (Doc.text text).Writes fun cs =>
    ∃ blanks, (∀ c ∈ blanks, Text.isBlank c = true) ∧ cs = blanks ++ text.toList := by
  intro w hw
  obtain ⟨blanks, hblanks, hwritten⟩ := Writer.exists_written_add hw text.toList
  exact ⟨_, hwritten, blanks, hblanks, rfl⟩

lemma writes_line : Doc.line.Writes (· = ['\n']) := by
  intro w _
  refine ⟨['\n'], ?_, rfl⟩
  show (w.add ['\n']).written.reverse = _
  simp [Writer.add]

lemma Writes.append (ha : a.Writes P) (hb : b.Writes Q) : (a ++ b).Writes fun cs =>
    ∃ first second, cs = first ++ second ∧ P first ∧ Q second := by
  intro w hw
  obtain ⟨first, hfirst, hP⟩ := ha w hw
  obtain ⟨second, hsecond, hQ⟩ := hb (a.write w) (by rwa [unit_write])
  refine ⟨first ++ second, ?_, first, second, rfl, hP, hQ⟩
  rw [write_append, hsecond, hfirst, append_assoc]

lemma Writes.nest (ha : a.Writes P) : (Doc.nest a).Writes P := fun w hw => ha w.indent hw

end Writes

/-- **The texts of a document** one after another, without indentation. -/
def chars : Doc → List Char
  | empty => []
  | text s => s.toList
  | append a b => a.chars ++ b.chars
  | nest d => d.chars

lemma chars_append : (a ++ b).chars = a.chars ++ b.chars := rfl

end Doc

/-! ## Texts with the indentation around them -/

namespace Writer

variable {w : Writer}

/-- **What stands before the next text**: what is written, and the indentation that the next text
gets. -/
def front (w : Writer) : List Char :=
  w.written.reverse ++ if w.atLineStart then w.indentation else []

/-- **Indentation is blank** and breaks no line. -/
def Indents (w : Writer) : Prop := ∀ c ∈ w.unit, Text.isBlank c = true ∧ c ≠ '\n'

lemma Indents.isBlank (h : w.Indents) : ∀ c ∈ w.unit, Text.isBlank c = true :=
  fun c hc => (h c hc).1

lemma Indents.ne_lineFeed (h : w.Indents) : '\n' ∉ w.indentation := by
  intro hmem
  obtain ⟨unit, hunit, hc⟩ := mem_flatten.mp hmem
  obtain ⟨-, rfl⟩ := mem_replicate.mp hunit
  exact (h _ hc).2 rfl

lemma Indents.add (h : w.Indents) (text : List Char) : (w.add text).Indents := by
  rwa [Indents, unit_add]

lemma Indents.write (h : w.Indents) (doc : Doc) : (doc.write w).Indents := by
  rwa [Indents, Doc.unit_write]

def atLevel (w : Writer) (level : Nat) : Writer := { w with level }

@[simp]
lemma written_atLevel (w : Writer) (level : Nat) : (w.atLevel level).written = w.written := rfl

lemma atLevel_level (w : Writer) : w.atLevel w.level = w := rfl

lemma Indents.atLevel (h : w.Indents) (level : Nat) : (w.atLevel level).Indents := h

lemma front_of_not_atLineStart (h : w.atLineStart = false) : w.front = w.written.reverse := by
  simp [front, h]

lemma reverse_written_add (hne : text ≠ []) (hhead : text.head? ≠ some '\n') :
    (w.add text).written.reverse = w.front ++ text := by
  obtain ⟨c, cs, rfl⟩ := exists_cons_of_ne_nil hne
  have hc : c ≠ '\n' := by simpa using hhead
  simp only [add, front, hc, ne_eq, not_false_eq_true, decide_true, Bool.and_true]
  split <;> simp

lemma atLineStart_add (hne : text ≠ []) :
    (w.add text).atLineStart = decide (text.getLast? = some '\n') := by
  obtain ⟨c, cs, rfl⟩ := exists_cons_of_ne_nil hne
  rw [← head?_reverse]
  simp only [atLineStart, add, head?_append]
  cases hhead : (c :: cs).reverse.head? with
  | none => simp at hhead
  | some d => rfl

end Writer

namespace Doc

variable {a b : Doc} {P Q : List Char → Prop}

/-- **A document lays out a text**, whatever stands before it. The indentation before it and after
it is counted in. -/
def Lays (doc : Doc) (P : List Char → Prop) : Prop :=
  ∀ w : Writer, w.Indents → ∃ cs, (doc.write w).front = w.front ++ cs ∧ P cs

/-- **A document sets a text**: it lays it out, and does not end its line. -/
def Sets (doc : Doc) (P : List Char → Prop) : Prop :=
  ∀ w : Writer, w.Indents → ∃ cs, (doc.write w).front = w.front ++ cs ∧
    (doc.write w).atLineStart = false ∧ P cs

/-- **A document fills a place** that starts no line. -/
def Fills (doc : Doc) (P : List Char → Prop) : Prop :=
  ∀ w : Writer, w.Indents → w.atLineStart = false → ∃ cs, (doc.write w).front = w.front ++ cs ∧ P cs

lemma Sets.lays (h : a.Sets P) : a.Lays P := by
  intro w hw
  obtain ⟨cs, hfront, -, hcs⟩ := h w hw
  exact ⟨cs, hfront, hcs⟩

lemma Sets.mono (h : a.Sets P) (himp : ∀ cs, P cs → Q cs) : a.Sets Q := by
  intro w hw
  obtain ⟨cs, hfront, hstart, hcs⟩ := h w hw
  exact ⟨cs, hfront, hstart, himp cs hcs⟩

lemma Lays.mono (h : a.Lays P) (himp : ∀ cs, P cs → Q cs) : a.Lays Q := by
  intro w hw
  obtain ⟨cs, hfront, hcs⟩ := h w hw
  exact ⟨cs, hfront, himp cs hcs⟩

lemma Fills.mono (h : a.Fills P) (himp : ∀ cs, P cs → Q cs) : a.Fills Q := by
  intro w hw hstart
  obtain ⟨cs, hfront, hcs⟩ := h w hw hstart
  exact ⟨cs, hfront, himp cs hcs⟩

lemma Sets.congr (h : a.Sets P) (hwrite : ∀ w, b.write w = a.write w) : b.Sets P := by
  intro w hw
  rw [hwrite]
  exact h w hw

lemma lays_empty : Doc.empty.Lays (· = []) := fun w _ => ⟨[], by simp [write], rfl⟩

lemma sets_text (text : String) (hhead : text.toList.head?.any (· != '\n') = true)
    (hlast : text.toList.getLast?.any (· != '\n') = true) :
    (Doc.text text).Sets (· = text.toList) := by
  intro w _
  have hne : text.toList ≠ [] := fun hnil => by simp [hnil] at hhead
  have hlast' : text.toList.getLast? ≠ some '\n' := fun hend => by simp [hend] at hlast
  have hhead' : text.toList.head? ≠ some '\n' := fun hstart => by simp [hstart] at hhead
  have hstart : (w.add text.toList).atLineStart = false := by
    rw [Writer.atLineStart_add hne]
    simpa using hlast'
  refine ⟨_, ?_, hstart, rfl⟩
  rw [write_text, Writer.front_of_not_atLineStart hstart, Writer.reverse_written_add hne hhead']

lemma Sets.fills (ha : a.Sets P) (hb : b.Fills Q) : (a ++ b).Lays fun cs =>
    ∃ first second, cs = first ++ second ∧ P first ∧ Q second := by
  intro w hw
  obtain ⟨first, hfirst, hstart, hP⟩ := ha w hw
  obtain ⟨second, hsecond, hQ⟩ := hb (a.write w) (hw.write a) hstart
  refine ⟨first ++ second, ?_, first, second, rfl, hP, hQ⟩
  rw [write_append, hsecond, hfirst, append_assoc]

lemma Fills.append (ha : a.Fills P) (hb : b.Lays Q) : (a ++ b).Fills fun cs =>
    ∃ first second, cs = first ++ second ∧ P first ∧ Q second := by
  intro w hw hstart
  obtain ⟨first, hfirst, hP⟩ := ha w hw hstart
  obtain ⟨second, hsecond, hQ⟩ := hb (a.write w) (hw.write a)
  refine ⟨first ++ second, ?_, first, second, rfl, hP, hQ⟩
  rw [write_append, hsecond, hfirst, append_assoc]

lemma Lays.sets (ha : a.Lays P) (hb : b.Sets Q) : (a ++ b).Sets fun cs =>
    ∃ first second, cs = first ++ second ∧ P first ∧ Q second := by
  intro w hw
  obtain ⟨first, hfirst, hP⟩ := ha w hw
  obtain ⟨second, hsecond, hstart, hQ⟩ := hb (a.write w) (hw.write a)
  refine ⟨first ++ second, ?_, hstart, first, second, rfl, hP, hQ⟩
  rw [write_append, hsecond, hfirst, append_assoc]

lemma Lays.fills (h : a.Lays P) : a.Fills P := fun w hw _ => h w hw

lemma Sets.and (hP : a.Sets P) (hQ : a.Sets Q) : a.Sets fun cs => P cs ∧ Q cs := by
  intro w hw
  obtain ⟨cs, hfront, hstart, hcs⟩ := hP w hw
  obtain ⟨ds, hfront', -, hds⟩ := hQ w hw
  obtain rfl : cs = ds := append_cancel_left (hfront.symm.trans hfront')
  exact ⟨cs, hfront, hstart, hcs, hds⟩

lemma Fills.and (hP : a.Fills P) (hQ : a.Fills Q) : a.Fills fun cs => P cs ∧ Q cs := by
  intro w hw hstart
  obtain ⟨cs, hfront, hcs⟩ := hP w hw hstart
  obtain ⟨ds, hfront', hds⟩ := hQ w hw hstart
  obtain rfl : cs = ds := append_cancel_left (hfront.symm.trans hfront')
  exact ⟨cs, hfront, hcs, hds⟩

end Doc

end ComponentTemplate
