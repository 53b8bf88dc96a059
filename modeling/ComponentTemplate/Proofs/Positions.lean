import ComponentTemplate.Proofs.ErrorRanges

/-!
# Positions order the places of a source

Lines and columns order the places of a source as byte offsets do. A position says how many line
feeds stand before a place and how many characters since the last of them, and it does not depend
on what follows the place.
-/

namespace ComponentTemplate

variable {source before after : List Char} {o o' : Nat}

/-! ## The characters before an offset -/

lemma charsBefore_of_le (cs : List Char) (h : byteLength cs ≤ o) : charsBefore o cs = cs := by
  fun_induction charsBefore o cs with
  | case1 cs =>
    cases cs with
    | nil => rfl
    | cons c cs =>
      have hpos := c.utf8Size_pos
      rw [byteLength_cons] at h
      omega
  | case2 => rfl
  | case3 n c cs ih =>
    rw [byteLength_cons] at h
    rw [ih (by omega)]

lemma charsBefore_append_of_le (h : o ≤ byteLength before) (after : List Char) :
    charsBefore o (before ++ after) = charsBefore o before := by
  fun_induction charsBefore o before with
  | case1 => simp [charsBefore]
  | case2 n hn =>
    rw [byteLength_nil] at h
    exact absurd (Nat.le_zero.mp h) hn
  | case3 n c cs ih =>
    rw [byteLength_cons] at h
    rw [List.cons_append, charsBefore, ih (by omega)]

namespace Position

/-! ## The order of positions -/

/-- Strictly earlier positions: on an earlier line, or in the same line at an earlier column. -/
instance : LT Position := ⟨fun p q => p.line < q.line ∨ p.line = q.line ∧ p.column < q.column⟩

lemma lt_def {p q : Position} : p < q ↔ p.line < q.line ∨ p.line = q.line ∧ p.column < q.column :=
  Iff.rfl

lemma lt_irrefl (p : Position) : ¬ p < p := by
  rw [lt_def]
  omega

lemma lt_asymm {p q : Position} (h : p < q) : ¬ q < p := by
  rw [lt_def] at *
  omega

lemma lt_of_lt_of_le {p q r : Position} (hpq : p < q) (hqr : q ≤ r) : p < r := by
  rw [lt_def, le_def] at *
  omega

lemma lt_next (p : Position) (c : Char) : p < p.next c := by
  unfold next
  split <;> simp [lt_def]

lemma lt_foldl_next (p : Position) {cs : List Char} (h : cs ≠ []) : p < cs.foldl next p := by
  cases cs with
  | nil => exact absurd rfl h
  | cons c cs => exact lt_of_lt_of_le (p.lt_next c) (le_foldl_next (p.next c) cs)

/-! ## The position of a place -/

def lastLine (cs : List Char) : List Char := (cs.reverse.takeWhile (· ≠ '\n')).reverse

lemma foldl_next_eq (cs : List Char) :
    cs.foldl next ⟨0, 0⟩ = ⟨cs.count '\n', (lastLine cs).length⟩ := by
  induction cs using List.reverseRecOn with
  | nil => rfl
  | append_singleton cs c ih =>
    rw [List.foldl_append, List.foldl_cons, List.foldl_nil, ih, next]
    by_cases hc : c = '\n'
    · simp [hc, lastLine]
    · simp [hc, lastLine]

/-- **The line and the column of a place**: the line feeds before it, and the characters since the
last of them. -/
theorem ofOffset_eq (hsource : source = before ++ after) :
    ofOffset source (byteLength before) = ⟨before.count '\n', (lastLine before).length⟩ := by
  rw [hsource, ofOffset_append, foldl_next_eq]

lemma ofOffset_lt (h : IsBoundary source o) (h' : IsBoundary source o') (hlt : o < o') :
    ofOffset source o < ofOffset source o' := by
  obtain ⟨before, after, hsource, rfl⟩ := h
  obtain ⟨before', after', hsource', rfl⟩ := h'
  -- the longer of two texts before a place goes on after the shorter one
  have hpart : ∃ part, before' = before ++ part ∧ part ≠ [] := by
    obtain ⟨part, rfl, -⟩ | ⟨part, rfl, -⟩ :=
      List.append_eq_append_iff.mp (hsource.symm.trans hsource')
    · exact ⟨part, rfl, by rintro rfl; simp at hlt⟩
    · rw [byteLength_append] at hlt
      omega
  obtain ⟨part, rfl, hne⟩ := hpart
  have hlater := ofOffset_append (before ++ part) after'
  rw [← hsource'] at hlater
  rw [hlater, hsource, ofOffset_append, List.foldl_append]
  exact lt_foldl_next _ hne

lemma ofOffset_lt_iff (h : IsBoundary source o) (h' : IsBoundary source o') :
    ofOffset source o < ofOffset source o' ↔ o < o' := by
  refine ⟨fun hlt => ?_, ofOffset_lt h h'⟩
  rcases Nat.lt_trichotomy o o' with hlt' | rfl | hgt
  · exact hlt'
  · exact absurd hlt (lt_irrefl _)
  · exact absurd hlt (lt_asymm (ofOffset_lt h' h hgt))

/-- **Positions are an embedding of the places of a source**, in the order of lines and columns. The
line of a place is the number of line feeds before it, and its column the number of characters since
the last of them. Past the end there is no further position, and the position of an offset in a text
that is cut at a place after it is the one in the whole text. -/
theorem ofOffset_isEmbedding (source : List Char) :
    (∀ before after, source = before ++ after → ofOffset source (byteLength before) =
      ⟨before.count '\n', (lastLine before).length⟩) ∧
    (∀ o o', IsBoundary source o → IsBoundary source o' →
      (ofOffset source o < ofOffset source o' ↔ o < o') ∧
      (ofOffset source o = ofOffset source o' → o = o')) ∧
    (∀ o, byteLength source ≤ o → ofOffset source o = ofOffset source (byteLength source)) ∧
    ∀ before after, source = before ++ after → ∀ o ≤ byteLength before,
      ofOffset before o = ofOffset source o := by
  refine ⟨fun before after => ofOffset_eq, fun o o' h h' => ⟨ofOffset_lt_iff h h', fun heq => ?_⟩,
    fun o ho => ?_, fun before after hsource o ho => ?_⟩
  · have hle := (ofOffset_lt_iff h h').not.mp (heq ▸ lt_irrefl _)
    have hge := (ofOffset_lt_iff h' h).not.mp (heq ▸ lt_irrefl _)
    omega
  · rw [ofOffset, ofOffset, charsBefore_of_le source ho, charsBefore_of_le source (Nat.le_refl _)]
  · rw [hsource, ofOffset, ofOffset, charsBefore_append_of_le ho]

end Position

end ComponentTemplate
