import Mathlib
import ComponentTemplate.Number.Text

/-!
# Whole numbers read back

A whole number below `10 ^ 15` is written with all its digits. The digits read back as the
same binary64 number, since a number that rounding gives has only one form.
-/

namespace ComponentTemplate

/-! ## Rounded division -/

lemma roundDiv_one (n : Nat) : roundDiv n 1 = n := by simp [roundDiv, Nat.mod_one]

lemma roundDiv_le (hb : 0 < b) (h : a ≤ k * b) : roundDiv a b ≤ k := by
  have hdiv : a / b ≤ k := Nat.div_le_of_le_mul (by rwa [Nat.mul_comm])
  have hsplit := Nat.div_add_mod a b
  rcases Nat.eq_or_lt_of_le hdiv with heq | hlt
  · -- nothing is left to round up
    have hzero : a % b = 0 := by
      rw [heq, Nat.mul_comm] at hsplit
      omega
    simp [roundDiv, hzero, hb, heq]
  · simp only [roundDiv]
    split
    · omega
    · split <;> omega

lemma le_roundDiv (hb : 0 < b) (h : k * b ≤ a) : k ≤ roundDiv a b := by
  have hdiv : k ≤ a / b := (Nat.le_div_iff_mul_le hb).mpr h
  simp only [roundDiv]
  split
  · exact hdiv
  · split <;> omega

namespace Binary64

/-! ## Scaling by powers of two -/

lemma scale_ratio (num den : Nat) (exponent : Int) :
    ((scale num den exponent).1 : ℚ) / (scale num den exponent).2
      = (num : ℚ) / den * 2 ^ (-exponent) := by
  simp only [scale, Nat.pow_eq, Nat.cast_mul, Nat.cast_pow, Nat.cast_ofNat]
  rcases le_total 0 exponent with h | h
  · have hneg : (-exponent).toNat = 0 := by omega
    have hpos : ((2 : ℚ) ^ exponent.toNat) = 2 ^ exponent := by
      rw [← zpow_natCast, Int.toNat_of_nonneg h]
    rw [hneg, pow_zero, mul_one, hpos, zpow_neg, div_mul_eq_div_div, div_eq_mul_inv _ (2 ^ exponent)]
  · have hzero : exponent.toNat = 0 := by omega
    have hpow : ((2 : ℚ) ^ (-exponent).toNat) = 2 ^ (-exponent) := by
      rw [← zpow_natCast, Int.toNat_of_nonneg (by omega)]
    rw [hzero, pow_zero, mul_one, hpow]
    ring

variable {den n num : Nat} {exponent : Int} {value : Binary64}

lemma scale_den_pos (num : Nat) (hden : 0 < den) (exponent : Int) :
    0 < (scale num den exponent).2 := by
  simp only [scale, Nat.pow_eq]
  positivity

/-- **The greatest power of two** that is at most a positive fraction. -/
theorem floorLog2_spec (hnum : 0 < num) (hden : 0 < den) :
    (2 : ℚ) ^ floorLog2 num den ≤ (num : ℚ) / den ∧
      (num : ℚ) / den < 2 ^ (floorLog2 num den + 1) := by
  have hden' : (0 : ℚ) < den := by exact_mod_cast hden
  have hn₁ : ((2 : ℚ) ^ num.log2) ≤ num := by exact_mod_cast Nat.log2_self_le hnum.ne'
  have hn₂ : (num : ℚ) < 2 ^ (num.log2 + 1) := by exact_mod_cast Nat.lt_log2_self
  have hd₁ : ((2 : ℚ) ^ den.log2) ≤ den := by exact_mod_cast Nat.log2_self_le hden.ne'
  have hd₂ : (den : ℚ) < 2 ^ (den.log2 + 1) := by exact_mod_cast Nat.lt_log2_self
  -- the quotient lies within a factor of two of the guess
  have hlow : (2 : ℚ) ^ ((num.log2 : Int) - den.log2 - 1) ≤ (num : ℚ) / den := by
    rw [le_div_iff₀ hden']
    calc (2 : ℚ) ^ ((num.log2 : Int) - den.log2 - 1) * den
        ≤ 2 ^ ((num.log2 : Int) - den.log2 - 1) * 2 ^ ((den.log2 : Int) + 1) := by
          have : (den : ℚ) ≤ 2 ^ ((den.log2 : Int) + 1) := by exact_mod_cast hd₂.le
          gcongr
      _ = 2 ^ num.log2 := by
          rw [← zpow_add₀ (by norm_num), ← zpow_natCast]
          congr 1
          omega
      _ ≤ num := hn₁
  have hhigh : (num : ℚ) / den < 2 ^ ((num.log2 : Int) - den.log2 + 1) := by
    rw [div_lt_iff₀ hden']
    calc (num : ℚ) < 2 ^ (num.log2 + 1) := hn₂
      _ = 2 ^ ((num.log2 : Int) - den.log2 + 1) * 2 ^ (den.log2) := by
          rw [← zpow_natCast (2 : ℚ) den.log2, ← zpow_add₀ (by norm_num), ← zpow_natCast]
          congr 1
          omega
      _ ≤ 2 ^ ((num.log2 : Int) - den.log2 + 1) * den := by gcongr
  have hguess : ∀ {a b : Nat}, 0 < b → (a : ℚ) / b = (num : ℚ) / den *
      2 ^ (-((num.log2 : Int) - den.log2)) →
      (b ≤ a ↔ (2 : ℚ) ^ ((num.log2 : Int) - den.log2) ≤ (num : ℚ) / den) := by
    intro a b hb hab
    have hb' : (0 : ℚ) < b := by exact_mod_cast hb
    have hone : b ≤ a ↔ (1 : ℚ) ≤ (a : ℚ) / b := by
      rw [le_div_iff₀ hb', one_mul]
      exact_mod_cast Iff.rfl
    rw [hone, hab, zpow_neg, ← div_eq_mul_inv, le_div_iff₀ (by positivity), one_mul]
  have hiff := hguess (scale_den_pos num hden _) (scale_ratio num den ((num.log2 : Int) - den.log2))
  simp only [floorLog2]
  split
  · exact ⟨hiff.mp ‹_›, hhigh⟩
  · refine ⟨hlow, ?_⟩
    rw [sub_add_cancel]
    exact lt_of_not_ge fun h => ‹¬ _› (hiff.mpr h)

/-! ## Canonical numbers -/

/-- **The form of the numbers that rounding gives**: the mantissa has fifty-three bits, but
for the least exponent, for which it may have fewer. -/
def Canonical : Binary64 → Prop
  | .finite mantissa exponent =>
    mantissa < 2 ^ 53 ∧ -1074 ≤ exponent ∧ (mantissa < 2 ^ 52 → exponent = -1074)
  | .infinite => True

lemma roundDiv_scale_bounds (hnum : 0 < num) (hden : 0 < den)
    (he : exponent = max (floorLog2 num den - 52) (-1074)) :
    roundDiv (scale num den exponent).1 (scale num den exponent).2 ≤ 2 ^ 53 ∧
      (exponent ≠ -1074 →
        2 ^ 52 ≤ roundDiv (scale num den exponent).1 (scale num den exponent).2) := by
  obtain ⟨hlow, hhigh⟩ := floorLog2_spec hnum hden
  have hb := scale_den_pos num hden exponent
  have hb' : (0 : ℚ) < (scale num den exponent).2 := by exact_mod_cast hb
  have hratio := scale_ratio num den exponent
  have htwo : (0 : ℚ) < 2 ^ (-exponent) := by positivity
  constructor
  · refine roundDiv_le hb ?_
    have hle : ((scale num den exponent).1 : ℚ) / (scale num den exponent).2 ≤ 2 ^ 53 := by
      rw [hratio]
      calc (num : ℚ) / den * 2 ^ (-exponent)
          ≤ 2 ^ (floorLog2 num den + 1) * 2 ^ (-exponent) := by gcongr
        _ = 2 ^ (floorLog2 num den + 1 - exponent) := by
            rw [← zpow_add₀ (by norm_num), sub_eq_add_neg]
        _ ≤ (2 : ℚ) ^ (53 : Int) := by
            apply zpow_le_zpow_right₀ (by norm_num)
            omega
        _ = 2 ^ 53 := by norm_num
    rw [div_le_iff₀ hb'] at hle
    exact_mod_cast hle
  · intro hne
    refine le_roundDiv hb ?_
    have hle : (2 : ℚ) ^ 52 ≤ ((scale num den exponent).1 : ℚ) / (scale num den exponent).2 := by
      rw [hratio]
      calc (2 : ℚ) ^ 52 = 2 ^ (floorLog2 num den) * 2 ^ (-exponent) := by
            rw [← zpow_add₀ (by norm_num), ← zpow_natCast]
            congr 1
            omega
        _ ≤ (num : ℚ) / den * 2 ^ (-exponent) := by gcongr
    rw [le_div_iff₀ hb'] at hle
    exact_mod_cast hle

lemma canonical_ofRatio (num : Nat) (hden : 0 < den) : (ofRatio num den).Canonical := by
  unfold ofRatio
  split
  · exact ⟨by norm_num, le_refl _, fun _ => rfl⟩
  · rename_i hnum
    simp only [Nat.pow_eq]
    generalize hexp : max (floorLog2 num den - 52) (-1074) = exponent
    have hbounds := roundDiv_scale_bounds (Nat.pos_of_ne_zero hnum) hden hexp.symm
    generalize roundDiv (scale num den exponent).1 (scale num den exponent).2 = mantissa
      at hbounds ⊢
    have hleast : -1074 ≤ exponent := by omega
    by_cases hcarry : mantissa = 2 ^ 53
    · simp only [hcarry, if_true]
      split
      · trivial
      · exact ⟨by norm_num, by omega, fun h => by omega⟩
    · simp only [hcarry, if_false]
      split
      · trivial
      · refine ⟨by omega, hleast, fun h => ?_⟩
        by_contra hne
        exact absurd (hbounds.2 hne) (by omega)

/-! ## Whole numbers -/

lemma cast_toNat? (h : (finite mantissa exponent).toNat? = some n) :
    (n : ℚ) = mantissa * 2 ^ exponent := by
  simp only [toNat?, Nat.pow_eq] at h
  split at h
  · rename_i hmod
    cases h
    have hdvd := Nat.div_mul_cancel (Nat.dvd_of_mod_eq_zero hmod)
    have hcast : (mantissa : ℚ)
        = (mantissa / 2 ^ (-exponent).toNat : Nat) * 2 ^ (-exponent).toNat := by
      exact_mod_cast hdvd.symm
    rw [hcast]
    push_cast
    rw [mul_assoc]
    congr 1
    rw [← zpow_natCast, ← zpow_natCast, ← zpow_add₀ (by norm_num)]
    congr 1
    omega
  · cases h

lemma ofRatio_one {k : Nat} (hlow : 2 ^ k ≤ n) (hhigh : n < 2 ^ (k + 1)) (hk : k ≤ 52) :
    ofRatio n 1 = finite (n * 2 ^ (52 - k)) ((k : Int) - 52) := by
  have hpos : 0 < n := lt_of_lt_of_le (by positivity) hlow
  have hlog : floorLog2 n 1 = k := by
    obtain ⟨h₁, h₂⟩ := floorLog2_spec hpos one_pos
    simp only [Nat.cast_one, div_one] at h₁ h₂
    have hlow' : (2 : ℚ) ^ (k : Int) ≤ n := by exact_mod_cast hlow
    have hhigh' : (n : ℚ) < 2 ^ ((k : Int) + 1) := by exact_mod_cast hhigh
    have hle : floorLog2 n 1 < (k : Int) + 1 :=
      (zpow_lt_zpow_iff_right₀ (by norm_num : (1 : ℚ) < 2)).mp (h₁.trans_lt hhigh')
    have hge : (k : Int) < floorLog2 n 1 + 1 :=
      (zpow_lt_zpow_iff_right₀ (by norm_num : (1 : ℚ) < 2)).mp (hlow'.trans_lt h₂)
    omega
  have hmax : max ((k : Int) - 52) (-1074) = (k : Int) - 52 := by omega
  have hscale : scale n 1 ((k : Int) - 52) = (n * 2 ^ (52 - k), 1) := by
    have hneg : (-((k : Int) - 52)).toNat = 52 - k := by omega
    have hzero : ((k : Int) - 52).toNat = 0 := by omega
    rw [scale, hneg, hzero, Nat.pow_eq, Nat.pow_eq, pow_zero, one_mul]
  have hsmall : n * 2 ^ (52 - k) ≠ 2 ^ 53 := by
    have hlt : n * 2 ^ (52 - k) < 2 ^ (k + 1) * 2 ^ (52 - k) :=
      Nat.mul_lt_mul_of_pos_right hhigh (by positivity)
    rw [← pow_add, show k + 1 + (52 - k) = 53 by omega] at hlt
    exact hlt.ne
  simp only [ofRatio, hpos.ne', if_false, hlog, hmax, hscale, roundDiv_one, Nat.pow_eq, hsmall]
  rw [if_neg (by omega)]

/-- **A canonical whole number is the rounding of its value**, if it has at most fifty-three
bits. -/
theorem ofRatio_eq_of_toNat? (hc : value.Canonical) (h : value.toNat? = some n) (hn : n < 2 ^ 53) :
    ofRatio n 1 = value := by
  cases value with
  | infinite => cases h
  | finite mantissa exponent =>
    obtain ⟨hm, -, hsub⟩ := hc
    have hvalue := cast_toNat? h
    by_cases hsmall : mantissa < 2 ^ 52
    · -- the value of a subnormal number is below one
      obtain rfl := hsub hsmall
      have hlt : (n : ℚ) < 1 := by
        rw [hvalue]
        calc (mantissa : ℚ) * 2 ^ (-1074 : Int) < 2 ^ 52 * 2 ^ (-1074 : Int) := by
              have : (mantissa : ℚ) < 2 ^ 52 := by exact_mod_cast hsmall
              gcongr
          _ = 2 ^ ((52 : Int) + -1074) := by
              rw [zpow_add₀ (by norm_num)]
              norm_cast
          _ ≤ 1 := zpow_le_one_of_nonpos₀ (by norm_num) (by norm_num)
      have hzero : n = 0 := by
        have : n < 1 := by exact_mod_cast hlt
        omega
      subst hzero
      have hm0 : mantissa = 0 := by
        have h0 : (mantissa : ℚ) * 2 ^ (-1074 : Int) = 0 := by rw [← hvalue]; simp
        rcases mul_eq_zero.mp h0 with h | h
        · exact_mod_cast h
        · exact absurd h (by positivity)
      subst hm0
      rfl
    · -- the bits of the mantissa and of the value differ by the exponent
      have hone : 1 ≤ n := by
        rcases Nat.eq_zero_or_pos n with rfl | hpos
        · have h0 : (mantissa : ℚ) * 2 ^ exponent = 0 := by rw [← hvalue]; simp
          rcases mul_eq_zero.mp h0 with h | h
          · have : mantissa = 0 := by exact_mod_cast h
            omega
          · exact absurd h (by positivity)
        · exact hpos
      have hk₁ : 2 ^ n.log2 ≤ n := Nat.log2_self_le (by omega)
      have hk₂ : n < 2 ^ (n.log2 + 1) := Nat.lt_log2_self
      have hk : n.log2 ≤ 52 := by
        have := (Nat.pow_lt_pow_iff_right (by norm_num : 1 < 2)).mp (hk₁.trans_lt hn)
        omega
      have hexp : exponent = (n.log2 : Int) - 52 := by
        have h₁ : (2 : ℚ) ^ ((52 : Int) + exponent) ≤ n := by
          rw [hvalue, zpow_add₀ (by norm_num)]
          have : (2 : ℚ) ^ (52 : Int) ≤ mantissa := by exact_mod_cast not_lt.mp hsmall
          gcongr
        have h₂ : (n : ℚ) < 2 ^ ((53 : Int) + exponent) := by
          rw [hvalue, zpow_add₀ (by norm_num)]
          have : (mantissa : ℚ) < 2 ^ (53 : Int) := by exact_mod_cast hm
          gcongr
        have hk₁' : (2 : ℚ) ^ (n.log2 : Int) ≤ n := by exact_mod_cast hk₁
        have hk₂' : (n : ℚ) < 2 ^ ((n.log2 : Int) + 1) := by exact_mod_cast hk₂
        have hlt₁ : (52 : Int) + exponent < (n.log2 : Int) + 1 :=
          (zpow_lt_zpow_iff_right₀ (by norm_num : (1 : ℚ) < 2)).mp (h₁.trans_lt hk₂')
        have hlt₂ : (n.log2 : Int) < (53 : Int) + exponent :=
          (zpow_lt_zpow_iff_right₀ (by norm_num : (1 : ℚ) < 2)).mp (hk₁'.trans_lt h₂)
        omega
      have hmant : n * 2 ^ (52 - n.log2) = mantissa := by
        have : (n : ℚ) * 2 ^ (52 - n.log2) = mantissa := by
          rw [hvalue, hexp, mul_assoc, ← zpow_natCast, ← zpow_add₀ (by norm_num),
            show (n.log2 : Int) - 52 + ((52 - n.log2 : Nat) : Int) = 0 by omega, zpow_zero,
            mul_one]
        exact_mod_cast this
      rw [ofRatio_one hk₁ hk₂ hk, hmant, hexp]

lemma canonical_ofLiteral (literal : List Char) : (ofLiteral literal).Canonical :=
  canonical_ofRatio _ (Nat.pow_pos (by decide))

lemma ofLiteral_natText (n : Nat) : ofLiteral (natText n) = ofRatio n 1 := by
  have hdigits : ∀ c ∈ natText n, c.isDigit = true := fun c hc =>
    Nat.isDigit_of_mem_toDigits (by norm_num) (by norm_num) hc
  have hvalue : digitsValue (natText n) = n := by
    rw [digitsValue, natText, ← Nat.ofDigitChars_eq_foldl, Nat.ofDigitChars_ten_toDigits]
  simp [ofLiteral, List.takeWhile_eq_self_iff.mpr hdigits, List.dropWhile_eq_nil_iff.mpr hdigits,
    hvalue, ofDecimal]

def isShortWhole (value : Binary64) : Bool := value.toNat?.any (· < 10 ^ 15)

lemma text_of_isShortWhole (h : value.isShortWhole = true) :
    ∃ n, value.text = natText n ∧ (value.Canonical → ofLiteral (natText n) = value) := by
  cases hn : value.toNat? with
  | none => simp [isShortWhole, hn] at h
  | some n =>
    have hlt : n < 10 ^ 15 := by simpa [isShortWhole, hn] using h
    refine ⟨n, by simp only [text, hn, Nat.pow_eq, if_pos hlt], fun hc => ?_⟩
    rw [ofLiteral_natText]
    exact ofRatio_eq_of_toNat? hc hn (by omega)

end Binary64

end ComponentTemplate
