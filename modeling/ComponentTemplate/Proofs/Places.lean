import Mathlib
import ComponentTemplate.Source.LineBreaks

/-!
# Line breaks between places

Between two places of a text stand as many line breaks as the text between them has line
feeds. What is asked of them most is whether there is one at all: this is a property of the
text between the places, and two regions in a row have one if either does.
-/

namespace ComponentTemplate

lemma lineFeedsFrom_append (offset : Nat) (cs ds : List Char) :
    lineFeedsFrom offset (cs ++ ds) =
      lineFeedsFrom offset cs ++ lineFeedsFrom (offset + byteLength cs) ds := by
  induction cs generalizing offset with
  | nil => simp [lineFeedsFrom]
  | cons c cs ih =>
    have hoffset : offset + c.utf8Size + byteLength cs = offset + (c.utf8Size + byteLength cs) := by
      omega
    simp only [List.cons_append, lineFeedsFrom, ih, byteLength_cons, hoffset]
    split <;> rfl

lemma mem_lineFeedsFrom (h : place ∈ lineFeedsFrom offset cs) :
    offset ≤ place ∧ place < offset + byteLength cs := by
  induction cs generalizing offset with
  | nil => simp [lineFeedsFrom] at h
  | cons c cs ih =>
    have hpos := c.utf8Size_pos
    have hrest : place ∈ lineFeedsFrom (offset + c.utf8Size) cs →
        offset ≤ place ∧ place < offset + byteLength (c :: cs) := by
      intro hmem
      have := ih hmem
      rw [byteLength_cons]
      omega
    simp only [lineFeedsFrom] at h
    split at h
    · rcases List.mem_cons.mp h with rfl | h
      · rw [byteLength_cons]
        omega
      · exact hrest h
    · exact hrest h

lemma length_lineFeedsFrom (offset : Nat) (cs : List Char) :
    (lineFeedsFrom offset cs).length = cs.count '\n' := by
  induction cs generalizing offset with
  | nil => rfl
  | cons c cs ih =>
    by_cases hc : c = '\n'
    · simp [lineFeedsFrom, hc, ih]
    · simp [lineFeedsFrom, hc, ih]

namespace LineBreaks

variable {lb : LineBreaks}

/-- **The line breaks between two places of a text** are those of the text between them. -/
theorem atLeast_ofSource (count : Nat) (before between after : List Char) :
    (ofSource (before ++ between ++ after)).atLeast count (byteLength before)
      (byteLength before + byteLength between) = decide (count ≤ between.count '\n') := by
  have hbefore : (lineFeedsFrom 0 before).countP (fun place =>
      byteLength before ≤ place && place < byteLength before + byteLength between) = 0 := by
    rw [List.countP_eq_zero]
    intro place hplace
    have := mem_lineFeedsFrom hplace
    simp only [Bool.and_eq_true, decide_eq_true_eq]
    omega
  have hbetween : (lineFeedsFrom (byteLength before) between).countP (fun place =>
      byteLength before ≤ place && place < byteLength before + byteLength between) =
        between.count '\n' := by
    rw [← length_lineFeedsFrom (byteLength before), List.countP_eq_length]
    intro place hplace
    simpa using mem_lineFeedsFrom hplace
  have hafter : (lineFeedsFrom (byteLength before + byteLength between) after).countP
      (fun place => byteLength before ≤ place &&
        place < byteLength before + byteLength between) = 0 := by
    rw [List.countP_eq_zero]
    intro place hplace
    have := mem_lineFeedsFrom hplace
    simp only [Bool.and_eq_true, decide_eq_true_eq]
    omega
  simp only [atLeast, ofSource, lineFeedsFrom_append, List.countP_append, byteLength_append,
    Nat.zero_add, hbefore, hbetween, hafter, Nat.add_zero]
  simp

variable {a b c : Nat}

lemma atLeast_one_trans (hab : a ≤ b) (hbc : b ≤ c) (hc : c ≤ lb.size) :
    lb.atLeast 1 a c = (lb.atLeast 1 a b || lb.atLeast 1 b c) := by
  have hone (start stop : Nat) (hle : start ≤ stop) (hsize : stop ≤ lb.size) :
      lb.atLeast 1 start stop = lb.offsets.any fun place => start ≤ place && place < stop := by
    rw [Bool.eq_iff_iff]
    simp [atLeast, hle, hsize, Nat.succ_le_iff, List.countP_pos_iff]
  rw [hone a c (hab.trans hbc) hc, hone a b hab (hbc.trans hc), hone b c hbc hc, Bool.eq_iff_iff]
  simp only [Bool.or_eq_true, List.any_eq_true, Bool.and_eq_true, decide_eq_true_eq]
  constructor
  · rintro ⟨place, hmem, hle, hlt⟩
    by_cases hplace : place < b
    · exact .inl ⟨place, hmem, hle, hplace⟩
    · exact .inr ⟨place, hmem, by omega, hlt⟩
  · rintro (⟨place, hmem, hle, hlt⟩ | ⟨place, hmem, hle, hlt⟩)
    · exact ⟨place, hmem, hle, by omega⟩
    · exact ⟨place, hmem, by omega, hlt⟩

/-- **No line break stands between two places.** -/
structure SameLine (lb : LineBreaks) (a b : Nat) : Prop where
  le : a ≤ b
  le_size : b ≤ lb.size
  atLeast_eq : lb.atLeast 1 a b = false

lemma SameLine.refl (h : a ≤ lb.size) : lb.SameLine a a :=
  ⟨le_rfl, h, by
    simp only [atLeast, Bool.and_eq_false_iff, decide_eq_false_iff_not, Nat.not_le]
    refine .inr (Nat.lt_one_iff.mpr (List.countP_eq_zero.mpr fun place _ => ?_))
    simp only [Bool.and_eq_true, decide_eq_true_eq]
    omega⟩

lemma SameLine.trans (hab : lb.SameLine a b) (hbc : lb.SameLine b c) : lb.SameLine a c :=
  ⟨hab.le.trans hbc.le, hbc.le_size, by
    rw [atLeast_one_trans hab.le hbc.le hbc.le_size, hab.atLeast_eq, hbc.atLeast_eq]
    rfl⟩

lemma SameLine.atLeast_left (hab : lb.SameLine a b) (hbc : b ≤ c) (hc : c ≤ lb.size) :
    lb.atLeast 1 a c = lb.atLeast 1 b c := by
  rw [atLeast_one_trans hab.le hbc hc, hab.atLeast_eq, Bool.false_or]

lemma SameLine.atLeast_right (hbc : lb.SameLine b c) (hab : a ≤ b) :
    lb.atLeast 1 a c = lb.atLeast 1 a b := by
  rw [atLeast_one_trans hab hbc.le hbc.le_size, hbc.atLeast_eq, Bool.or_false]

end LineBreaks

end ComponentTemplate
