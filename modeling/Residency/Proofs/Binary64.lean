import Mathlib.Algebra.Order.Field.Power
import Mathlib.Algebra.Order.Floor.Semifield
import Mathlib.Data.Rat.Floor
import Mathlib.Tactic.FieldSimp
import Mathlib.Tactic.GCongr
import Mathlib.Tactic.Linarith
import Mathlib.Tactic.NormNum
import Mathlib.Tactic.Positivity
import Mathlib.Tactic.Ring
import Residency.Binary64
import Residency.Counter

/-!
# Rounded fractions keep their order

A fraction is rounded to the nearest number of 53 significant bits, with a relative error of at most
`2 ^ -53`. Equal fractions are rounded to the same number, however they are written. Fractions whose
cross products stay below `2 ^ 52` lie too far apart for their rounded values to change places, so a
comparison of the rounded values is a comparison of the fractions.
-/

namespace Residency

namespace Binary64

variable {num den num' den' : Nat}

/-- The rational number that a number is. -/
def toRat (x : Binary64) : ℚ :=
  x.significand * 2 ^ x.exponent

theorem lt_iff_toRat_lt {x y : Binary64} : x < y ↔ x.toRat < y.toRat := by
  have hscale (z : Binary64) (low : Int) (hlow : low ≤ z.exponent) :
      z.toRat = ((z.significand <<< (z.exponent - low).toNat : Nat) : ℚ) * 2 ^ low := by
    have hexponent : z.exponent = ((z.exponent - low).toNat : Int) + low := by omega
    rw [toRat, Nat.shiftLeft_eq, Nat.cast_mul, Nat.cast_pow, Nat.cast_ofNat, mul_assoc,
      ← zpow_natCast, ← zpow_add₀ two_ne_zero, ← hexponent]
  rw [hscale x _ (min_le_left x.exponent y.exponent),
    hscale y _ (min_le_right x.exponent y.exponent),
    mul_lt_mul_iff_of_pos_right (by positivity), Nat.cast_lt]
  rfl

/-! ## Rounding to a natural number -/

/-- The natural number nearest to a rational one, the even one of two. -/
def roundHalfEven (q : ℚ) : Nat :=
  if q - ⌊q⌋₊ < 1 / 2 then ⌊q⌋₊
  else if 1 / 2 < q - ⌊q⌋₊ then ⌊q⌋₊ + 1
  else ⌊q⌋₊ + ⌊q⌋₊ % 2

/-- How a quotient is rounded depends on its value only. -/
theorem roundDiv_eq (hden : 0 < den) : roundDiv num den = roundHalfEven (num / den) := by
  have hdenq : (0 : ℚ) < den := Nat.cast_pos.2 hden
  have hfloor : ⌊(num / den : ℚ)⌋₊ = num / den := Nat.floor_div_eq_div num den
  have hrest : (num / den : ℚ) - (num / den : Nat) = (num % den : Nat) / den := by
    rw [eq_div_iff hdenq.ne', sub_mul, div_mul_cancel₀ _ hdenq.ne', sub_eq_iff_eq_add,
      ← Nat.cast_mul, ← Nat.cast_add, Nat.mod_add_div' num den]
  have hlt : ((num % den : Nat) / den : ℚ) < 1 / 2 ↔ 2 * (num % den) < den := by
    rw [div_lt_div_iff₀ hdenq two_pos, one_mul, mul_comm]
    exact_mod_cast Iff.rfl
  have hgt : (1 / 2 : ℚ) < (num % den : Nat) / den ↔ den < 2 * (num % den) := by
    rw [div_lt_div_iff₀ two_pos hdenq, one_mul, mul_comm]
    exact_mod_cast Iff.rfl
  simp only [roundDiv, roundHalfEven, hfloor, hrest, hlt, hgt]

theorem abs_roundHalfEven_sub_le {q : ℚ} (hq : 0 ≤ q) : |(roundHalfEven q : ℚ) - q| ≤ 1 / 2 := by
  have hle := Nat.floor_le hq
  have hlt := Nat.lt_floor_add_one q
  rw [abs_le, roundHalfEven]
  split_ifs with hdown hup
  · constructor <;> linarith
  · push_cast
    constructor <;> linarith
  · -- Exactly between two numbers either of them is near enough.
    rcases Nat.mod_two_eq_zero_or_one ⌊q⌋₊ with hmod | hmod <;> rw [hmod] <;> push_cast <;>
      constructor <;> linarith

/-! ## Rounding to 53 bits -/

/-- The scaled fraction is the fraction by the power of two. -/
theorem unscale_eq (num : Nat) (hden : 0 < den) (e : Int) :
    0 < (unscale num den e).2 ∧
      ((unscale num den e).1 / (unscale num den e).2 : ℚ) = num / den / 2 ^ e := by
  have hsplit : (2 : ℚ) ^ e = 2 ^ e.toNat / 2 ^ (-e).toNat := by
    rw [eq_div_iff (by positivity), ← zpow_natCast, ← zpow_natCast, ← zpow_add₀ two_ne_zero]
    congr 1
    omega
  refine ⟨by simp [unscale, Nat.shiftLeft_eq, hden], ?_⟩
  simp only [unscale, Nat.shiftLeft_eq]
  push_cast
  rw [hsplit]
  have hdenq : (0 : ℚ) < den := Nat.cast_pos.2 hden
  field_simp

theorem two_zpow_log2_le (hnum : num ≠ 0) :
    (2 : ℚ) ^ (num.log2 : Int) ≤ num ∧ (num : ℚ) < 2 ^ (num.log2 + 1 : Int) := by
  constructor
  · rw [zpow_natCast]
    exact_mod_cast Nat.log2_self_le hnum
  · rw [← Nat.cast_succ, zpow_natCast]
    exact_mod_cast Nat.lt_log2_self

/-- The scaled fraction has an integer part of 53 bits. -/
theorem leadExponent_spec (hnum : num ≠ 0) (hden : 0 < den) :
    2 ^ 52 ≤ (num / den / 2 ^ leadExponent num den : ℚ) ∧
      (num / den / 2 ^ leadExponent num den : ℚ) < 2 ^ 53 := by
  obtain ⟨hnum_le, hnum_lt⟩ := two_zpow_log2_le hnum
  obtain ⟨hden_le, hden_lt⟩ := two_zpow_log2_le hden.ne'
  have hdenq : (0 : ℚ) < den := Nat.cast_pos.2 hden
  let low : Int := (num.log2 : Int) - den.log2 - 53
  obtain ⟨hpos, hratio⟩ := unscale_eq num hden low
  have hlow : 2 ^ 52 ≤ (num / den / 2 ^ low : ℚ) := by
    have hnum_eq : (2 : ℚ) ^ (num.log2 : Int) = 2 ^ 52 * 2 ^ low * 2 ^ (den.log2 + 1 : Int) := by
      rw [← zpow_natCast, ← zpow_add₀ two_ne_zero, ← zpow_add₀ two_ne_zero]
      congr 1
      simp only [low]
      omega
    rw [le_div_iff₀ (by positivity), le_div_iff₀ hdenq]
    calc (2 : ℚ) ^ 52 * 2 ^ low * den
        ≤ 2 ^ 52 * 2 ^ low * 2 ^ (den.log2 + 1 : Int) := by gcongr
      _ ≤ (num : ℚ) := hnum_eq ▸ hnum_le
  have hhigh : (num / den / 2 ^ low : ℚ) < 2 ^ 54 := by
    have hnum_eq : (2 : ℚ) ^ (num.log2 + 1 : Int) = 2 ^ 54 * 2 ^ low * 2 ^ (den.log2 : Int) := by
      rw [← zpow_natCast, ← zpow_add₀ two_ne_zero, ← zpow_add₀ two_ne_zero]
      congr 1
      simp only [low]
      omega
    rw [div_lt_iff₀ (by positivity), div_lt_iff₀ hdenq]
    calc (num : ℚ) < 2 ^ 54 * 2 ^ low * 2 ^ (den.log2 : Int) := hnum_eq ▸ hnum_lt
      _ ≤ 2 ^ 54 * 2 ^ low * den := by gcongr
  have hpart : (unscale num den low).1 / (unscale num den low).2 < 2 ^ 53 ↔
      (num / den / 2 ^ low : ℚ) < 2 ^ 53 := by
    rw [← hratio, Nat.div_lt_iff_lt_mul hpos, div_lt_iff₀ (Nat.cast_pos.2 hpos)]
    exact_mod_cast Iff.rfl
  have hlead : leadExponent num den =
      if (unscale num den low).1 / (unscale num den low).2 < 2 ^ 53 then low else low + 1 := rfl
  rw [hlead]
  split_ifs with hfits
  · exact ⟨hlow, hpart.1 hfits⟩
  · have hge := le_of_not_gt (mt hpart.2 hfits)
    rw [zpow_add_one₀ two_ne_zero, ← div_div]
    constructor <;> linarith

/-- The power of two with that property is the only one. -/
theorem eq_of_two_zpow_bounds {q : ℚ} {e e' : Int} (h : 2 ^ 52 ≤ q / 2 ^ e ∧ q / 2 ^ e < 2 ^ 53)
    (h' : 2 ^ 52 ≤ q / 2 ^ e' ∧ q / 2 ^ e' < 2 ^ 53) : e = e' := by
  have hlt {a b : Int} (ha : q / 2 ^ a < 2 ^ 53) (hb : 2 ^ 52 ≤ q / 2 ^ b) : b < a + 1 := by
    rw [div_lt_iff₀ (by positivity), ← zpow_natCast, ← zpow_add₀ two_ne_zero] at ha
    rw [le_div_iff₀ (by positivity), ← zpow_natCast, ← zpow_add₀ two_ne_zero] at hb
    have := (zpow_lt_zpow_iff_right₀ one_lt_two).1 (hb.trans_lt ha)
    omega
  have := hlt h.2 h'.1
  have := hlt h'.2 h.1
  omega

/-- A fraction that is not zero is scaled, rounded and scaled back. -/
theorem toRat_ofRatio (hnum : num ≠ 0) (hden : 0 < den) :
    (ofRatio num den).toRat =
      roundHalfEven (num / den / 2 ^ leadExponent num den) * 2 ^ leadExponent num den := by
  obtain ⟨hpos, hratio⟩ := unscale_eq num hden (leadExponent num den)
  simp only [ofRatio, if_neg hnum, roundDiv_eq hpos, hratio]
  split_ifs with hcarry
  · rw [hcarry, toRat, zpow_add_one₀ two_ne_zero]
    push_cast
    ring
  · rfl

/-- The relative error is at most `2 ^ -53`. -/
theorem abs_toRat_ofRatio_sub_le (num : Nat) (hden : 0 < den) :
    |(ofRatio num den).toRat - num / den| ≤ num / den / 2 ^ 53 := by
  by_cases hnum : num = 0
  · simp [hnum, ofRatio, toRat]
  have hunit : (0 : ℚ) < 2 ^ leadExponent num den := by positivity
  obtain ⟨hlead, -⟩ := leadExponent_spec hnum hden
  have hscaled : (num / den / 2 ^ leadExponent num den * 2 ^ leadExponent num den : ℚ) =
      num / den :=
    div_mul_cancel₀ _ hunit.ne'
  have hround := abs_roundHalfEven_sub_le (le_trans (by positivity) hlead)
  rw [toRat_ofRatio hnum hden]
  generalize (2 : ℚ) ^ leadExponent num den = unit at *
  generalize hq : (num / den / unit : ℚ) = q at *
  rw [← hscaled, ← sub_mul, abs_mul, abs_of_pos hunit]
  calc |(roundHalfEven q : ℚ) - q| * unit ≤ 1 / 2 * unit := by gcongr
    _ = 2 ^ 52 * unit / 2 ^ 53 := by ring
    _ ≤ q * unit / 2 ^ 53 := by gcongr

/-- Equal fractions are rounded to the same value. -/
theorem toRat_ofRatio_congr (hden : 0 < den) (hden' : 0 < den') (h : num * den' = num' * den) :
    (ofRatio num den).toRat = (ofRatio num' den').toRat := by
  have hratio : (num / den : ℚ) = num' / den' := by
    rw [div_eq_div_iff (Nat.cast_pos.2 hden).ne' (Nat.cast_pos.2 hden').ne']
    exact_mod_cast h
  by_cases hnum : num = 0
  · have hnum' : num' = 0 := by
      rw [hnum, Nat.zero_mul] at h
      exact (Nat.mul_eq_zero.1 h.symm).resolve_right hden.ne'
    simp [hnum, hnum', ofRatio, toRat]
  · have hnum' : num' ≠ 0 := by
      rintro rfl
      rw [Nat.zero_mul] at h
      exact hnum ((Nat.mul_eq_zero.1 h).resolve_right hden'.ne')
    have hlead := leadExponent_spec hnum' hden'
    rw [← hratio] at hlead
    rw [toRat_ofRatio hnum hden, toRat_ofRatio hnum' hden', ← hratio,
      eq_of_two_zpow_bounds (leadExponent_spec hnum hden) hlead]

/-! ## Comparing rounded fractions -/

/-- A fraction that is less by more than the rounding errors is rounded to a lesser value. -/
theorem toRat_ofRatio_lt (hden : 0 < den) (hden' : 0 < den') (h : num * den' < num' * den)
    (hsmall : num' * den < 2 ^ 52) : (ofRatio num den).toRat < (ofRatio num' den').toRat := by
  have hdenq : (0 : ℚ) < den := Nat.cast_pos.2 hden
  have hdenq' : (0 : ℚ) < den' := Nat.cast_pos.2 hden'
  have hgap : (num / den : ℚ) + 1 / (den * den') ≤ num' / den' := by
    have hcross : (num * den' + 1 : ℚ) ≤ num' * den := by exact_mod_cast h
    rw [div_add_div _ _ hdenq.ne' (by positivity), div_le_div_iff₀ (by positivity) hdenq']
    nlinarith [mul_pos hdenq hdenq', mul_le_mul_of_nonneg_left hcross (mul_pos hdenq hdenq').le]
  have herror : (num' / den' / 2 ^ 52 : ℚ) < 1 / (den * den') := by
    have hbound : (num' * den : ℚ) < 2 ^ 52 := by exact_mod_cast hsmall
    rw [div_div, div_lt_div_iff₀ (by positivity) (by positivity)]
    nlinarith
  have hlow := (abs_le.1 (abs_toRat_ofRatio_sub_le num hden)).2
  have hhigh := (abs_le.1 (abs_toRat_ofRatio_sub_le num' hden')).1
  have hle : (num / den : ℚ) ≤ num' / den' := le_trans (by simp; positivity) hgap
  have hsplit : (num' / den' / 2 ^ 52 : ℚ) = num' / den' / 2 ^ 53 + num' / den' / 2 ^ 53 := by ring
  have hmono : (num / den / 2 ^ 53 : ℚ) ≤ num' / den' / 2 ^ 53 := by gcongr
  linarith

/-- Fractions with small cross products are compared exactly by their rounded values. -/
theorem ofRatio_lt_ofRatio_iff (hden : 0 < den) (hden' : 0 < den') (hleft : num * den' < 2 ^ 52)
    (hright : num' * den < 2 ^ 52) :
    ofRatio num den < ofRatio num' den' ↔ num * den' < num' * den := by
  rw [lt_iff_toRat_lt]
  constructor
  · intro hlt
    by_contra hge
    rcases Nat.lt_or_eq_of_le (Nat.le_of_not_lt hge) with hgt | heq
    · exact absurd hlt (toRat_ofRatio_lt hden' hden hgt hleft).not_gt
    · exact absurd hlt (toRat_ofRatio_congr hden' hden heq).le.not_gt
  · intro hlt
    exact toRat_ofRatio_lt hden hden' hlt hright

end Binary64

/-- Whether a counter stands below a percentage of full scale is decided without a rounding
error. -/
theorem Counter.saturation_lt_iff {counter : Counter} {percent : Nat} (hpos : 0 < counter.max)
    (hmax : counter.max < 2 ^ 32) (hpercent : percent ≤ 100) :
    counter.saturation < .ofRatio percent 100 ↔ 100 * counter.value < percent * counter.max := by
  have hvalue := counter.value_le
  have hproduct : percent * counter.max ≤ 100 * counter.max := Nat.mul_le_mul_right _ hpercent
  rw [saturation, Binary64.ofRatio_lt_ofRatio_iff hpos (by decide) (by omega) (by omega),
    Nat.mul_comm 100]

end Residency
