import ComponentTemplate.Format
import ComponentTemplate.Proofs.MarkupFailures

/-!
# Where failures are reported

A failure is reported as a range of lines and columns. Positions are ordered by line, and in a line
by column; a longer text ends at a later position, so a region of the source is reported as a range
that starts before it ends and ends before the document does. Code that is read from a copy of the
source that stops with it is reported in the same place as in the whole source.
-/

namespace ComponentTemplate

open Component

variable {source : List Char}

/-! ## Positions -/

instance : LE Position := ⟨fun p q => p.line < q.line ∨ p.line = q.line ∧ p.column ≤ q.column⟩

instance (p q : Position) : Decidable (p ≤ q) := inferInstanceAs (Decidable (_ ∨ _))

namespace Position

lemma le_def {p q : Position} : p ≤ q ↔ p.line < q.line ∨ p.line = q.line ∧ p.column ≤ q.column :=
  Iff.rfl

lemma le_next (p : Position) (c : Char) : p ≤ p.next c := by
  unfold next
  split <;> simp [le_def]

lemma le_trans {p q r : Position} (hpq : p ≤ q) (hqr : q ≤ r) : p ≤ r := by
  rw [le_def] at *
  omega

lemma le_foldl_next (p : Position) (cs : List Char) : p ≤ cs.foldl next p := by
  induction cs generalizing p with
  | nil => exact .inr ⟨rfl, Nat.le_refl _⟩
  | cons c cs ih => exact le_trans (p.le_next c) (ih (p.next c))

lemma ofOffset_append (before after : List Char) :
    ofOffset (before ++ after) (byteLength before) = before.foldl next ⟨0, 0⟩ := by
  rw [ofOffset, charsBefore_append]

end Position

/-! ## Regions -/

variable {span : Span} {failure : Failure} {special : String} {diagnostic : Diagnostic}

lemma Span.IsIn.exists_eq_append (h : span.IsIn source) :
    ∃ before part after, source = before ++ (part ++ after) ∧
      span = ⟨byteLength before, byteLength before + byteLength part⟩ := by
  obtain ⟨start, stop⟩ := span
  obtain ⟨⟨before, after, rfl, rfl⟩, ⟨before', after', heq, rfl⟩, hle⟩ := h
  obtain ⟨part, rfl, rfl⟩ | ⟨part, rfl, rfl⟩ := List.append_eq_append_iff.mp heq
  · exact ⟨before, part, after', rfl, by rw [byteLength_append]⟩
  · -- the region stops before it starts, unless nothing stands in it
    have hpart : byteLength part = 0 := by simpa using hle
    exact ⟨before' ++ part, [], after, rfl, by simp [hpart]⟩

lemma Range.ofSpan_append (h : span.IsIn copy) (tail : List Char) :
    Range.ofSpan (copy ++ tail) span = Range.ofSpan copy span := by
  obtain ⟨before, part, after, rfl, rfl⟩ := h.exists_eq_append
  have hstop := Position.ofOffset_append (before ++ part)
  simp only [byteLength_append, List.append_assoc] at hstop
  simp [Range.ofSpan, Position.ofOffset_append, hstop]

lemma Range.ofSpan_le (h : span.IsIn source) :
    (ofSpan source span).start ≤ (ofSpan source span).stop ∧
      (ofSpan source span).stop ≤ (ofDocument source).stop := by
  obtain ⟨before, part, after, rfl, rfl⟩ := h.exists_eq_append
  have hstop := Position.ofOffset_append (before ++ part) after
  have hend := Position.ofOffset_append (before ++ (part ++ after)) []
  simp only [List.append_nil, byteLength_append, List.append_assoc] at hstop hend
  simp only [ofSpan, ofDocument, Position.ofOffset_append, byteLength_append, hstop, hend,
    List.foldl_append]
  exact ⟨Position.le_foldl_next .., Position.le_foldl_next ..⟩

lemma Span.IsIn.within (h : span.IsIn source) :
    ∃ tail, source = charsBefore span.stop source ++ tail ∧
      (Cursor.within source span).IsIn (charsBefore span.stop source) := by
  obtain ⟨before, part, after, rfl, rfl⟩ := h.exists_eq_append
  have hcopy := charsBefore_append (before ++ part) after
  rw [byteLength_append, List.append_assoc] at hcopy
  rw [hcopy, Cursor.within_append]
  exact ⟨after, (List.append_assoc ..).symm, before, rfl, (Nat.zero_add _).symm⟩

/-! ## Failures -/

/-- **The range of a diagnostic lies in the document**: it is the range of a region of the source,
which a failure names, and its ends are positions of the document in their order. -/
def Diagnostic.LiesIn (source : List Char) (diagnostic : Diagnostic) : Prop :=
  (∃ failure : Failure, failure.span.IsIn source ∧ diagnostic = failure.toDiagnostic source) ∧
    diagnostic.range.start ≤ diagnostic.range.stop ∧
    diagnostic.range.stop ≤ (Range.ofDocument source).stop

lemma Failure.liesIn (h : failure.span.IsIn source) : (failure.toDiagnostic source).LiesIn source :=
  ⟨⟨failure, h, rfl⟩, Range.ofSpan_le h⟩

lemma Component.isIn_of_ofChars_error (h : ofChars special source = .error failure) :
    failure.span.IsIn source :=
  isIn_of_error (ofCursor_within _ _ _ _) (Cursor.isIn_ofSource source) h

lemma Component.isIn_of_stylesheet_error
    (hread : ofChars special source = .ok component)
    (h : component.stylesheet source = .error failure) : failure.span.IsIn source := by
  obtain ⟨_, hderives⟩ := ofChars_eq_ok_iff.mp hread
  have hspans := hderives.spansIn (Cursor.isIn_ofSource source)
  unfold stylesheet at h
  split at h
  · cases h
  · rename_i block hstyle
    have hcode : block.codeSpan.IsIn source := hspans _ (by simp [spans, hstyle, StyleBlock.spans])
    obtain ⟨tail, hsource, hcursor⟩ := hcode.within
    rw [hsource]
    exact (isIn_of_error (StyleNode.ofCursor_within _) hcursor h).append tail

lemma liesIn_of_formatWith_error {unit source : String} {script : String → String}
    (h : formatWith special unit script source = .error diagnostic) :
    diagnostic.LiesIn source.toList := by
  cases hread : ofChars special source.toList with
  | error failure =>
    rw [formatWith_of_ofChars_eq_error hread] at h
    cases h
    exact Failure.liesIn (isIn_of_ofChars_error hread)
  | ok component =>
    cases hsheet : component.stylesheet source.toList with
    | error failure =>
      rw [formatWith_of_stylesheet_eq_error hread hsheet] at h
      cases h
      exact Failure.liesIn (isIn_of_stylesheet_error hread hsheet)
    | ok sheet =>
      rw [formatWith_of_eq_ok hread hsheet] at h
      cases h

lemma liesIn_of_formatSource_error {options : FormatOptions} {source : String}
    (h : formatSource options source = .error diagnostic) : diagnostic.LiesIn source.toList := by
  unfold formatSource at h
  cases hformat : formatWith options.specialPart options.indentUnit reindentScript source with
  | error found =>
    rw [hformat] at h
    cases h
    exact liesIn_of_formatWith_error hformat
  | ok output =>
    rw [hformat] at h
    cases h

lemma liesIn_of_parse_error {source : String}
    (h : parse source special = .error diagnostic) : diagnostic.LiesIn source.toList := by
  unfold parse at h
  cases hread : ofChars special source.toList with
  | error failure =>
    rw [hread] at h
    cases h
    exact Failure.liesIn (isIn_of_ofChars_error hread)
  | ok component =>
    rw [hread] at h
    cases h

/-- **The range of a failure lies in the document**, whatever fails: reading a component, printing
it with any indentation, or formatting by options. A script that is read from a copy of the source
that stops with its code fails in the same range of that copy. -/
theorem error_range_isIn (source : String) :
    (∀ special diagnostic, parse source special = .error diagnostic →
      diagnostic.LiesIn source.toList) ∧
    (∀ special unit script diagnostic, formatWith special unit script source = .error diagnostic →
      diagnostic.LiesIn source.toList) ∧
    (∀ options diagnostic, formatSource options source = .error diagnostic →
      diagnostic.LiesIn source.toList) ∧
    ∀ (code : Span) (failure : Failure), code.IsIn source.toList →
      Statement.ofCursor (.within source.toList code) = .error failure →
      (failure.toDiagnostic source.toList).LiesIn source.toList ∧
        failure.toDiagnostic (charsBefore code.stop source.toList) =
          failure.toDiagnostic source.toList := by
  refine ⟨fun _ _ => liesIn_of_parse_error, fun _ _ _ _ => liesIn_of_formatWith_error,
    fun _ _ => liesIn_of_formatSource_error, fun code failure hcode h => ?_⟩
  obtain ⟨tail, hsource, hcursor⟩ := hcode.within
  have hcopy := isIn_of_error (Statement.ofCursor_within _) hcursor h
  have hrange := Range.ofSpan_append hcopy tail
  have hisIn := hcopy.append tail
  rw [← hsource] at hrange hisIn
  exact ⟨Failure.liesIn hisIn, by rw [Failure.toDiagnostic, Failure.toDiagnostic,
    Diagnostic.ofSpan, Diagnostic.ofSpan, hrange]⟩

/-- In the last line of a script, after which the source goes on. -/
theorem error_range_isIn_script :
    formatSource {} "<script lang=\"zs\">\n\ta = b;\n\ta b;\n</script>é" =
      .error ⟨"Expected `;`, found `b`", ⟨⟨2, 3⟩, ⟨2, 4⟩⟩⟩ ∧
    Diagnostic.LiesIn "<script lang=\"zs\">\n\ta = b;\n\ta b;\n</script>é".toList
      ⟨"Expected `;`, found `b`", ⟨⟨2, 3⟩, ⟨2, 4⟩⟩⟩ := by
  have h : formatSource {} "<script lang=\"zs\">\n\ta = b;\n\ta b;\n</script>é" =
      .error ⟨"Expected `;`, found `b`", ⟨⟨2, 3⟩, ⟨2, 4⟩⟩⟩ := by decide +kernel
  exact ⟨h, (error_range_isIn _).2.2.1 _ _ h⟩

end ComponentTemplate
