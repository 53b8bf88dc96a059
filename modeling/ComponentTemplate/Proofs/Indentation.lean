import Mathlib
import ComponentTemplate.Format

/-!
# The unit of indentation

A writer looks at its own output to decide where to indent. The lines of the output, each with
the number of units it is indented by, are nevertheless the same for all units: whether a line
has just begun depends on the texts written and not on the indentation between them.
-/

namespace ComponentTemplate

open List

/-- **A line of the output**: how many units of indentation stand before it, and the rest of
the line. -/
structure MarginLine where
  margin : Nat
  rest : List Char
  deriving DecidableEq, Repr

namespace MarginLine

def chars (unit : List Char) (line : MarginLine) : List Char :=
  (replicate line.margin unit).flatten ++ line.rest

def text (unit : String) (line : MarginLine) : String := String.ofList (line.chars unit.toList)

def blank : MarginLine := ⟨0, []⟩

@[simp]
lemma chars_blank (unit : List Char) : blank.chars unit = [] := rfl

end MarginLine

/-- **Lines under construction**: those that are finished, the last one first, and the line
that is being written. No line has a line feed of its own, and only a line with a text is
indented. -/
structure Outline where
  finished : List MarginLine
  current : MarginLine
  no_lineFeed : ∀ line ∈ current :: finished, '\n' ∉ line.rest
  margin_eq_zero : current.rest = [] → current.margin = 0

namespace Outline

variable (unit : List Char) (o : Outline)

def start : Outline := ⟨[], .blank, by simp [MarginLine.blank], fun _ => rfl⟩

def lines : List MarginLine := (o.current :: o.finished).reverse

/-- The characters of the finished lines, each with the line feed that ended it. -/
def finishedChars : List Char := o.finished.reverse.flatMap fun line => line.chars unit ++ ['\n']

def chars : List Char := o.finishedChars unit ++ o.current.chars unit

def atLineStart : Bool := !o.finished.isEmpty && o.current.rest.isEmpty

def endLine : Outline where
  finished := o.current :: o.finished
  current := .blank
  no_lineFeed := by
    intro line hline
    rcases mem_cons.mp hline with rfl | hline
    · simp [MarginLine.blank]
    · exact o.no_lineFeed line hline
  margin_eq_zero _ := rfl

def extend (margin : Nat) {c : Char} (hc : c ≠ '\n') : Outline where
  finished := o.finished
  current := ⟨margin, o.current.rest ++ [c]⟩
  no_lineFeed := by
    intro line hline
    rcases mem_cons.mp hline with rfl | hline
    · simpa [hc.symm] using o.no_lineFeed o.current (by simp)
    · exact o.no_lineFeed line (mem_cons_of_mem _ hline)
  margin_eq_zero h := by simp at h

def push (c : Char) : Outline := if hc : c = '\n' then o.endLine else o.extend o.current.margin hc

/-- Write a text as a writer does that indents by `level` units: the indentation goes before
a text that starts a line. -/
def add (level : Nat) : List Char → Outline
  | [] => o
  | c :: cs =>
    cs.foldl push <|
      if hc : c = '\n' then o.endLine
      else o.extend (if o.atLineStart then level else o.current.margin) hc

lemma chars_endLine : o.endLine.chars unit = o.chars unit ++ ['\n'] := by
  simp [endLine, chars, finishedChars]

lemma chars_extend (margin : Nat) (hc : c ≠ '\n') :
    (o.extend margin hc).chars unit =
      o.finishedChars unit ++ (replicate margin unit).flatten ++ o.current.rest ++ [c] := by
  simp [extend, chars, finishedChars, MarginLine.chars]

lemma chars_push (c : Char) : (o.push c).chars unit = o.chars unit ++ [c] := by
  by_cases hc : c = '\n'
  · subst hc
    exact o.chars_endLine unit
  · rw [push, dif_neg hc, chars_extend]
    simp [chars, MarginLine.chars]

lemma chars_foldl_push (cs : List Char) : (cs.foldl push o).chars unit = o.chars unit ++ cs := by
  induction cs generalizing o with
  | nil => simp
  | cons c cs ih => simp [ih, chars_push]

lemma getLast?_chars_eq_lineFeed_iff :
    (o.chars unit).getLast? = some '\n' ↔ o.atLineStart = true := by
  rcases eq_nil_or_concat o.current.rest with hrest | ⟨rest, c, hrest⟩
  · -- the open line is empty, so the text ends as the finished lines do
    have hcurrent : o.current.chars unit = [] := by
      simp [MarginLine.chars, hrest, o.margin_eq_zero hrest]
    rw [chars, hcurrent, append_nil, atLineStart, hrest]
    cases hfinished : o.finished with
    | nil | cons line lines => simp [finishedChars, hfinished]
  · -- the open line ends with a character of its own
    have hc : c ≠ '\n' := by
      rintro rfl
      exact o.no_lineFeed o.current (by simp) (by simp [hrest])
    have hlast : (o.chars unit).getLast? = some c := by
      simp [chars, MarginLine.chars, hrest, ← append_assoc]
    simp [hlast, atLineStart, hrest, hc]

end Outline

namespace Writer

variable {w : Writer} {o : Outline}

/-- **The text of a writer is that of an outline**, for the writer's own unit. -/
def Shows (w : Writer) (o : Outline) : Prop := w.written.reverse = o.chars w.unit

lemma shows_start (unit : String) : (start unit).Shows .start := rfl

lemma Shows.atLineStart_eq (h : w.Shows o) : w.atLineStart = o.atLineStart := by
  rw [Bool.eq_iff_iff, ← o.getLast?_chars_eq_lineFeed_iff w.unit, ← h]
  simp [atLineStart]

lemma Shows.add (h : w.Shows o) (text : List Char) : (w.add text).Shows (o.add w.level text) := by
  cases text with
  | nil => exact h
  | cons c cs =>
    unfold Shows at h ⊢
    rw [unit_add, Outline.add, Outline.chars_foldl_push]
    by_cases hc : c = '\n'
    · simp [Writer.add, hc, h, Outline.chars_endLine]
    · rw [dif_neg hc, Outline.chars_extend]
      by_cases hstart : o.atLineStart = true
      · -- nothing stands on the line yet, so the indentation goes right after the line feed
        have hrest : o.current.rest = [] := by
          simp only [Outline.atLineStart, Bool.and_eq_true, List.isEmpty_iff] at hstart
          exact hstart.2
        have hchars : o.chars w.unit = o.finishedChars w.unit := by
          simp [Outline.chars, MarginLine.chars, hrest, o.margin_eq_zero hrest]
        simp [Writer.add, Shows.atLineStart_eq h, hstart, hc, h, hchars, hrest, indentation]
      · simp [Writer.add, Shows.atLineStart_eq h, hstart, h, Outline.chars, MarginLine.chars]

end Writer

namespace Doc

/-- **Writing a document keeps writers and an outline in step**: what it does to the outline
does not depend on the writer, only on the level of indentation. -/
theorem exists_shows_write (d : Doc) (level : Nat) (o : Outline) :
    ∃ o', ∀ w : Writer, w.level = level → w.Shows o → (d.write w).Shows o' := by
  induction d generalizing level o with
  | empty => exact ⟨o, fun w _ h => h⟩
  | text s =>
    refine ⟨o.add level s.toList, fun w hlevel h => ?_⟩
    subst hlevel
    exact h.add s.toList
  | append a b iha ihb =>
    obtain ⟨o₁, ha⟩ := iha level o
    obtain ⟨o₂, hb⟩ := ihb level o₁
    refine ⟨o₂, fun w hlevel h => ?_⟩
    exact hb (a.write w) (by simpa using hlevel) (ha w hlevel h)
  | nest d ih =>
    obtain ⟨o', hd⟩ := ih (level + 1) o
    refine ⟨o', fun w hlevel h => ?_⟩
    exact hd w.indent (by simp [hlevel]) h

end Doc

lemma intercalate_concat (lines : List (List Char)) (last : List Char) :
    ['\n'].intercalate (lines ++ [last]) = lines.flatMap (· ++ ['\n']) ++ last := by
  induction lines with
  | nil => simp
  | cons line lines ih =>
    rw [cons_append, intercalate_cons_of_ne_nil (by simp), ih]
    simp

lemma Outline.ofList_chars (o : Outline) (unit : String) :
    String.ofList (o.chars unit.toList) = "\n".intercalate (o.lines.map (·.text unit)) := by
  apply String.toList_injective
  have hlines : (o.lines.map (·.text unit)).map String.toList =
      o.finished.reverse.map (·.chars unit.toList) ++ [o.current.chars unit.toList] := by
    simp [Outline.lines, MarginLine.text, Function.comp_def]
  rw [String.toList_ofList, String.toList_intercalate, hlines]
  have hsep : "\n".toList = ['\n'] := rfl
  rw [hsep, intercalate_concat, flatMap_map]
  rfl

lemma Doc.exists_render_eq_lines (d : Doc) :
    ∃ lines : List MarginLine, (∀ line ∈ lines, '\n' ∉ line.rest) ∧
      ∀ unit, d.render unit = "\n".intercalate (lines.map (·.text unit)) := by
  obtain ⟨o, ho⟩ := d.exists_shows_write 0 .start
  refine ⟨o.lines, fun line hline => o.no_lineFeed line (mem_reverse.mp hline), fun unit => ?_⟩
  have hshows : (d.write (Writer.start unit)).Shows o := ho _ rfl (Writer.shows_start unit)
  rw [← o.ofList_chars unit, Doc.render, Writer.output, hshows, Doc.unit_write]
  rfl

/-- **Formatting does not depend on the unit of indentation.** Either it fails, in the same way
for all units, or there are lines, each with the number of units before it, that make up the
output for every unit. -/
theorem formatWith_eq_lines (special : String) (script : String → String) (source : String) :
    (∃ diagnostic, ∀ unit, formatWith special unit script source = .error diagnostic) ∨
    ∃ lines : List MarginLine, (∀ line ∈ lines, '\n' ∉ line.rest) ∧
      ∀ unit, formatWith special unit script source =
        .ok ("\n".intercalate (lines.map (·.text unit))) := by
  -- the unit is not looked at before there is a document
  cases hcomponent : Component.ofChars special source.toList with
  | error failure =>
    left
    exact ⟨_, fun unit => formatWith_of_ofChars_eq_error hcomponent⟩
  | ok component =>
    cases hsheet : component.stylesheet source.toList with
    | error failure =>
      left
      exact ⟨_, fun unit => formatWith_of_stylesheet_eq_error hcomponent hsheet⟩
    | ok sheet =>
      right
      obtain ⟨lines, hlines, hrender⟩ := Doc.exists_render_eq_lines
        (component.doc ⟨(LineBreaks.ofSource source.toList).atLeast, script⟩ sheet)
      refine ⟨lines, hlines, fun unit => ?_⟩
      rw [formatWith_of_eq_ok hcomponent hsheet, hrender unit]

end ComponentTemplate
