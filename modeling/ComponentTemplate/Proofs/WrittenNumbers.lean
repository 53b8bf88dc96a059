import ComponentTemplate.Format
import ComponentTemplate.Proofs.LongestTokens
import ComponentTemplate.Proofs.WholeNumber

/-!
# Numbers that are written as numbers

The text of a finite number is a numeral, so it is read back as one number. A literal from
`2 ^ 1024 - 2 ^ 970` on rounds to infinity, and what is written for it is a word.
-/

namespace ComponentTemplate

open List

/-- **A text is read as one number** and nothing else. -/
def ReadsNumber (cs : List Char) : Prop :=
  Token.read (.ofSource cs) =
    .ok (⟨.number (String.ofList cs), ⟨0, byteLength cs⟩⟩, ⟨byteLength cs, []⟩)

lemma IsNumeral.readsNumber {cs : List Char} (h : IsNumeral cs) : ReadsNumber cs := by
  have hstart := h.startsNumber []
  have hlength := h.length_le []
  rw [append_nil] at hstart hlength
  have hnumber : numberLength cs = cs.length := Nat.le_antisymm (numberLength_le cs) hlength
  obtain ⟨c, cs, rfl⟩ := exists_cons_of_ne_nil (l := cs) (by rintro rfl; cases hstart)
  have hc : isWordStart c = false ∧ Text.isBlank c = false := by
    simp only [ComponentTemplate.startsNumber, Bool.or_eq_true, Bool.and_eq_true, beq_iff_eq] at hstart
    rcases hstart with hdigit | ⟨rfl, -⟩
    · refine ⟨isWordStart_of_isDigit hdigit, ?_⟩
      by_contra hblank
      have hword := isWordChar_eq_false_of_isBlank (by simpa using hblank)
      rw [isWordChar_of_isDigit hdigit] at hword
      cases hword
    · decide
  have htake := Token.take_append .number 0 (c :: cs) []
  simp only [append_nil, Nat.zero_add] at htake
  unfold ReadsNumber Token.read
  have hskip : (Cursor.ofSource (c :: cs)).skipBlanks = ⟨0, c :: cs⟩ := by
    simp [Cursor.skipBlanks, Cursor.skipRun, Cursor.run, Cursor.ofSource, Cursor.skip, hc.2]
  rw [hskip, Token.readAt]
  simp only [hc.1, hstart, hnumber]
  exact congrArg Except.ok htake

lemma isNumeral_natText (n : Nat) : IsNumeral (natText n) :=
  .whole Nat.toDigits_ne_nil fun _ => Nat.isDigit_of_mem_toDigits (by norm_num) (by norm_num)

lemma Decimal.isNumeral_positional (d : Decimal) : IsNumeral d.positional := by
  have hdigits : ∀ c ∈ natText d.digits, c.isDigit = true := fun _ =>
    Nat.isDigit_of_mem_toDigits (by norm_num) (by norm_num)
  have hne : natText d.digits ≠ [] := Nat.toDigits_ne_nil
  have hzeros (n : Nat) : ∀ c ∈ replicate n '0', c.isDigit = true := fun c hc => by
    rw [eq_of_mem_replicate hc]
    decide
  unfold positional
  dsimp only
  split
  · exact .whole (by simp [hne]) (forall_mem_append.mpr ⟨hdigits, hzeros _⟩)
  · split
    · refine .fraction (fun c hc => hdigits c (mem_of_mem_take hc)) ?_
        fun c hc => hdigits c (mem_of_mem_drop hc)
      simp only [ne_eq, drop_eq_nil_iff, not_le]
      omega
    · exact .fraction (hzeros 1) (by simp [hne]) (forall_mem_append.mpr ⟨hzeros _, hdigits⟩)

namespace Binary64

lemma isNumeral_text {value : Binary64} (h : value ≠ .infinite) : IsNumeral value.text := by
  have hpositional : IsNumeral value.positional := by
    cases value with
    | infinite => exact absurd rfl h
    | finite mantissa exponent =>
      unfold positional
      dsimp only
      split
      · exact isNumeral_natText 0
      · exact Decimal.isNumeral_positional _
  unfold text
  split
  · split
    · exact isNumeral_natText _
    · exact hpositional
  · exact hpositional

/-! ## Numbers that are too great -/

lemma le_roundDiv_iff {a b k : Nat} (hb : 0 < b) (hk : k % 2 = 0) (hpos : 0 < k) :
    k ≤ roundDiv a b ↔ (2 * k - 1) * b ≤ 2 * a := by
  have hsplit := Nat.div_add_mod a b
  have hmod := Nat.mod_lt a hb
  simp only [roundDiv]
  generalize a / b = q at hsplit
  generalize a % b = m at hsplit hmod
  subst hsplit
  obtain ⟨j, rfl⟩ : ∃ j, k = j + 1 := ⟨k - 1, by omega⟩
  have hmul : (2 * (j + 1) - 1) * b = 2 * (b * j) + b := by
    rw [show 2 * (j + 1) - 1 = 2 * j + 1 by omega]
    ring
  rw [hmul]
  rcases lt_trichotomy j q with hlt | rfl | hlt
  · have : b * (j + 1) ≤ b * q := Nat.mul_le_mul_left b hlt
    rw [Nat.mul_add] at this
    constructor
    · omega
    · intro
      split
      · omega
      · split <;> omega
  · split
    · omega
    · split <;> omega
  · have : b * (q + 1) ≤ b * j := Nat.mul_le_mul_left b hlt
    rw [Nat.mul_add] at this
    constructor
    · split
      · omega
      · split <;> omega
    · omega

/-- **The least number that rounds to infinity**: half way from the greatest finite number to
the next power of two. -/
def tooGreat : ℚ := (2 ^ 54 - 1) * 2 ^ (970 : Int)

lemma ofRatio_eq_infinite_iff {num den : Nat} (hden : 0 < den) :
    ofRatio num den = .infinite ↔ tooGreat ≤ (num : ℚ) / den := by
  have hunit : (0 : ℚ) < 2 ^ (970 : Int) := by positivity
  by_cases hnum : num = 0
  · have hpos : 0 < tooGreat := mul_pos (by norm_num) hunit
    simp [ofRatio, hnum, hpos]
  obtain ⟨hlow, hhigh⟩ := floorLog2_spec (Nat.pos_of_ne_zero hnum) hden
  have hbounds := roundDiv_scale_bounds (Nat.pos_of_ne_zero hnum) hden rfl
  have hpow (n : Nat) : (2 : ℚ) ^ (970 + n : Int) = 2 ^ n * 2 ^ (970 : Int) := by
    rw [zpow_add₀ (by norm_num), zpow_natCast, mul_comm]
  have hmono {m n : Int} (h : m ≤ n) : (2 : ℚ) ^ m ≤ 2 ^ n := zpow_le_zpow_right₀ (by norm_num) h
  simp only [ofRatio, hnum, if_false]
  rcases lt_trichotomy (floorLog2 num den) 1023 with hlog | hlog | hlog
  · have hlt : (num : ℚ) / den < tooGreat :=
      calc (num : ℚ) / den < 2 ^ (floorLog2 num den + 1) := hhigh
        _ ≤ 2 ^ (970 + 53 : Int) := hmono (by omega)
        _ = 2 ^ 53 * 2 ^ (970 : Int) := hpow 53
        _ < tooGreat := mul_lt_mul_of_pos_right (by norm_num) hunit
    have hexp : max (floorLog2 num den - 52) (-1074) + 1 ≤ 971 := by omega
    simp only [not_le.mpr hlt, iff_false]
    split
    · rw [if_neg (by simpa using hexp)]
      exact Binary64.noConfusion
    · rw [if_neg (by simp only [not_lt]; omega)]
      exact Binary64.noConfusion
  · -- the numbers of this magnitude are `2 ^ 971` apart
    have hexp : max (floorLog2 num den - 52) (-1074) = 971 := by omega
    have hb := scale_den_pos num hden 971
    have hratio := scale_ratio num den 971
    rw [hexp] at hbounds ⊢
    generalize (scale num den 971).1 = a at hbounds hratio ⊢
    generalize (scale num den 971).2 = b at hbounds hratio hb ⊢
    have hb' : (0 : ℚ) < b := by exact_mod_cast hb
    have hvalue : (num : ℚ) / den = 2 * a / b * 2 ^ (970 : Int) := by
      rw [mul_div_assoc, hratio, zpow_neg, show (971 : Int) = 970 + (1 : Nat) by norm_num, hpow]
      field_simp
    have hround : roundDiv a b = 2 ^ 53 ↔ (2 * 2 ^ 53 - 1) * b ≤ 2 * a := by
      rw [← le_roundDiv_iff hb (by norm_num) (by norm_num)]
      exact ⟨fun h => h.ge, Nat.le_antisymm hbounds.1⟩
    have hiff : roundDiv a b = 2 ^ 53 ↔ tooGreat ≤ (num : ℚ) / den := by
      rw [hround, hvalue, tooGreat, mul_le_mul_iff_left₀ hunit, le_div_iff₀ hb']
      norm_num
      exact_mod_cast Iff.rfl
    rw [← hiff]
    split
    · rename_i hcarry
      exact ⟨fun _ => hcarry, fun _ => rfl⟩
    · rename_i hcarry
      exact ⟨Binary64.noConfusion, fun h => absurd h hcarry⟩
  · have hle : tooGreat ≤ (num : ℚ) / den :=
      calc tooGreat ≤ 2 ^ 54 * 2 ^ (970 : Int) :=
            mul_le_mul_of_nonneg_right (by norm_num) hunit.le
        _ = 2 ^ (970 + 54 : Int) := (hpow 54).symm
        _ ≤ 2 ^ floorLog2 num den := hmono (by omega)
        _ ≤ (num : ℚ) / den := hlow
    have hexp : 971 < max (floorLog2 num den - 52) (-1074) := by omega
    simp only [hle, iff_true]
    split
    · exact if_pos (hexp.trans (Int.lt_succ _))
    · rfl

end Binary64

/-- **The value that a literal writes.** -/
def literalValue (literal : List Char) : ℚ :=
  let whole := literal.takeWhile Char.isDigit
  let fraction := (literal.dropWhile Char.isDigit).drop 1
  Binary64.digitsValue (whole ++ fraction) / 10 ^ fraction.length

lemma ofLiteral_eq_infinite_iff (literal : List Char) :
    Binary64.ofLiteral literal = .infinite ↔ Binary64.tooGreat ≤ literalValue literal := by
  simp only [Binary64.ofLiteral, Binary64.ofDecimal, literalValue, Nat.pow_eq]
  rw [Binary64.ofRatio_eq_infinite_iff (by positivity), Nat.cast_pow, Nat.cast_ofNat]

lemma not_readsNumber_infinite : ¬ ReadsNumber (Binary64.infinite.text) := by
  unfold ReadsNumber
  decide

/-- **A number literal is written as a number**, one token of the same kind, if and only if its
value is below the least number that rounds to infinity. -/
theorem Binary64.readsNumber_text_iff (literal : List Char) :
    ReadsNumber (ofLiteral literal).text ↔ literalValue literal < tooGreat := by
  rw [← not_le, ← ofLiteral_eq_infinite_iff]
  constructor
  · intro htext hinfinite
    rw [hinfinite] at htext
    exact not_readsNumber_infinite htext
  · exact fun hfinite => (isNumeral_text hfinite).readsNumber

/-- A number of 310 digits is written as a word. -/
theorem Binary64.text_of_tooGreat :
    ReadsNumber ('1' :: replicate 309 '0') ∧
      (ofLiteral ('1' :: replicate 309 '0')).text = "inf".toList ∧
      ¬ ReadsNumber "inf".toList := by
  refine ⟨IsNumeral.readsNumber (.whole (cons_ne_nil _ _) ?_), by decide +kernel,
    not_readsNumber_infinite⟩
  refine forall_mem_cons.mpr ⟨by decide, fun c hc => ?_⟩
  rw [eq_of_mem_replicate hc]
  decide

end ComponentTemplate
