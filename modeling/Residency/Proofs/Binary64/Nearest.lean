import Residency.Prefetch.Dbcp
import Residency.Proofs.Binary64

/-!
# The nearest number

Rounding to the nearest number of 53 significant bits, an even significand of two equally near ones,
determines the number: between two numbers with even significands there is always another one. The
rounded fractions are rounded in this way, and so a confidence and a percentage, however they have
been rounded to the nearest number, are compared as the fractions that they stand for.
-/

namespace Residency

namespace Binary64

variable {num den : Nat} {x y : Binary64} {q t : ℚ}

/-- A rational number of either sign that has no more than 53 significant bits. -/
def Representable (q : ℚ) : Prop :=
  ∃ significand exponent : Int, |significand| < 2 ^ 53 ∧ q = significand * 2 ^ exponent

/-- The significand is zero or uses all of its 53 bits. -/
def Canonical (x : Binary64) : Prop :=
  x.significand = 0 ∨ 2 ^ 52 ≤ x.significand ∧ x.significand < 2 ^ 53

/-- No representable number is nearer to a rational number, and if another one is as near, then the
significand is the even one. -/
structure IsNearest (q : ℚ) (x : Binary64) : Prop where
  canonical : x.Canonical
  nearest : ∀ z, Representable z → |x.toRat - q| ≤ |z - q|
  even : ∀ z, Representable z → |z - q| = |x.toRat - q| → z = x.toRat ∨ x.significand % 2 = 0

theorem Canonical.lt (h : x.Canonical) : x.significand < 2 ^ 53 := by
  rcases h with hzero | ⟨-, hlt⟩ <;> omega

theorem Canonical.representable (h : x.Canonical) : Representable x.toRat := by
  refine ⟨x.significand, x.exponent, ?_, by rw [toRat, Int.cast_natCast]⟩
  rw [abs_of_nonneg (Int.natCast_nonneg _)]
  exact_mod_cast h.lt

/-! ## There is only one nearest number -/

theorem Canonical.exponent_le (hx : 2 ^ 52 ≤ x.significand) (hy : y.Canonical)
    (h : x.toRat < y.toRat) : x.exponent ≤ y.exponent := by
  by_contra hlt
  have hsucc : y.exponent + 1 ≤ x.exponent := by omega
  have hupper : y.toRat ≤ x.toRat :=
    calc y.toRat ≤ 2 ^ 53 * 2 ^ y.exponent := by
          rw [toRat]
          gcongr
          exact_mod_cast hy.lt.le
      _ = 2 ^ 52 * 2 ^ (y.exponent + 1) := by
          rw [zpow_add_one₀ two_ne_zero]
          ring
      _ ≤ 2 ^ 52 * 2 ^ x.exponent := by
          gcongr
          exact one_le_two
      _ ≤ x.toRat := by
          rw [toRat]
          gcongr
          exact_mod_cast hx
  exact absurd h hupper.not_gt

/-- Between two numbers with even significands lies another number. -/
theorem exists_representable_between (hx : x.Canonical) (hy : y.Canonical)
    (hxe : x.significand % 2 = 0) (hye : y.significand % 2 = 0) (h : x.toRat < y.toRat) :
    ∃ z, Representable z ∧ x.toRat < z ∧ z < y.toRat := by
  rcases hx with hzero | ⟨hle, hlt⟩
  · -- Half of a number is always there, since exponents are not bounded.
    have hx0 : x.toRat = 0 := by simp [toRat, hzero]
    rw [hx0] at h ⊢
    have hhalf : y.toRat / 2 = (y.significand : Int) * 2 ^ (y.exponent - 1) := by
      rw [toRat, zpow_sub_one₀ two_ne_zero, Int.cast_natCast]
      ring
    refine ⟨y.toRat / 2, ⟨y.significand, y.exponent - 1, ?_, hhalf⟩, by linarith, by linarith⟩
    rw [abs_of_nonneg (Int.natCast_nonneg _)]
    exact_mod_cast hy.lt
  · -- The next significand is odd, so that the other number, which is an even multiple of the same
    -- power of two, lies behind it.
    have hexp := Canonical.exponent_le hle hy h
    obtain ⟨k, hk⟩ := Int.le.dest hexp
    have hunit : (0 : ℚ) < 2 ^ x.exponent := by positivity
    have hytoRat : y.toRat = (y.significand * 2 ^ k : Nat) * 2 ^ x.exponent := by
      rw [toRat, ← hk, zpow_add₀ two_ne_zero, zpow_natCast]
      push_cast
      ring
    have hstep : x.significand < y.significand * 2 ^ k := by
      rw [hytoRat, toRat, mul_lt_mul_iff_of_pos_right hunit] at h
      exact_mod_cast h
    have hmultiple : y.significand * 2 ^ k % 2 = 0 := by
      rw [Nat.mul_mod, hye, Nat.zero_mul, Nat.zero_mod]
    refine ⟨(x.significand + 1 : Nat) * 2 ^ x.exponent,
      ⟨(x.significand + 1 : Nat), x.exponent, ?_, by rw [Int.cast_natCast]⟩, ?_, ?_⟩
    · rw [abs_of_nonneg (Int.natCast_nonneg _)]
      exact_mod_cast (by omega : x.significand + 1 < 2 ^ 53)
    · rw [toRat, mul_lt_mul_iff_of_pos_right hunit]
      exact_mod_cast Nat.lt_succ_self _
    · rw [hytoRat, mul_lt_mul_iff_of_pos_right hunit]
      exact_mod_cast (by omega : x.significand + 1 < y.significand * 2 ^ k)

theorem IsNearest.not_toRat_lt (hx : IsNearest q x) (hy : IsNearest q y) : ¬ x.toRat < y.toRat := by
  intro hlt
  have hxr := hx.canonical.representable
  have hyr := hy.canonical.representable
  have hequal : |y.toRat - q| = |x.toRat - q| := le_antisymm (hy.nearest _ hxr) (hx.nearest _ hyr)
  have hxe := (hx.even _ hyr hequal).resolve_left hlt.ne'
  have hye := (hy.even _ hxr hequal.symm).resolve_left hlt.ne
  obtain ⟨z, hz, hxz, hzy⟩ :=
    exists_representable_between hx.canonical hy.canonical hxe hye hlt
  -- The two are equally far from the rational number, which lies halfway between them.
  have hmiddle : q - x.toRat = y.toRat - q := by
    rcases abs_eq_abs.1 hequal with hsame | hopposite
    · exact absurd (sub_left_injective hsame) hlt.ne'
    · linarith
  have hnearer : |z - q| < |x.toRat - q| := by
    rw [abs_of_nonpos (by linarith : x.toRat - q ≤ 0), abs_lt]
    constructor <;> linarith
  exact absurd (hx.nearest z hz) hnearer.not_ge

theorem IsNearest.toRat_eq (hx : IsNearest q x) (hy : IsNearest q y) : x.toRat = y.toRat :=
  le_antisymm (not_lt.1 (hy.not_toRat_lt hx)) (not_lt.1 (hx.not_toRat_lt hy))

/-- It does not matter which nearest numbers are compared. -/
theorem IsNearest.lt_iff_lt {r : ℚ} {x' y' : Binary64} (hx : IsNearest q x) (hx' : IsNearest q x')
    (hy : IsNearest r y) (hy' : IsNearest r y') : x < y ↔ x' < y' := by
  rw [lt_iff_toRat_lt, lt_iff_toRat_lt, hx.toRat_eq hx', hy.toRat_eq hy']

/-! ## Rounded fractions are nearest -/

/-- A rational number is not near to two integers. -/
theorem one_le_abs_sub_add {n k : Int} (h : k ≠ n) (t : ℚ) :
    1 ≤ |(n : ℚ) - t| + |(k : ℚ) - t| := by
  have hapart : (1 : ℚ) ≤ |(k : ℚ) - n| := by exact_mod_cast Int.one_le_abs (sub_ne_zero.2 h)
  have htriangle := abs_sub_le (k : ℚ) t n
  rw [abs_sub_comm t] at htriangle
  linarith

/-- No integer is nearer. -/
theorem abs_roundHalfEven_sub_le_abs_sub (ht : 0 ≤ t) (k : Int) :
    |(roundHalfEven t : ℚ) - t| ≤ |(k : ℚ) - t| := by
  by_cases hk : k = roundHalfEven t
  · rw [hk, Int.cast_natCast]
  · have hround := abs_roundHalfEven_sub_le ht
    have hapart := one_le_abs_sub_add hk t
    rw [Int.cast_natCast] at hapart
    linarith

/-- If another integer is as near, then the even one of the two is taken. -/
theorem eq_or_roundHalfEven_even (ht : 0 ≤ t) {k : Int}
    (h : |(k : ℚ) - t| = |(roundHalfEven t : ℚ) - t|) :
    k = roundHalfEven t ∨ roundHalfEven t % 2 = 0 := by
  by_cases hk : k = roundHalfEven t
  · exact .inl hk
  · refine .inr ?_
    have hhalf := one_le_abs_sub_add hk t
    rw [Int.cast_natCast, h] at hhalf
    have hle := Nat.floor_le ht
    have hlt := Nat.lt_floor_add_one t
    -- Only the middle of two integers is as far as a half from the rounded one.
    unfold roundHalfEven at hhalf ⊢
    split_ifs at hhalf ⊢ with hdown hup
    · rw [abs_of_nonpos (by linarith)] at hhalf
      linarith
    · rw [abs_of_nonneg (by push_cast; linarith)] at hhalf
      push_cast at hhalf
      linarith
    · omega

theorem roundHalfEven_bounds (hlow : 2 ^ 52 ≤ t) (hhigh : t < 2 ^ 53) :
    2 ^ 52 ≤ roundHalfEven t ∧ roundHalfEven t ≤ 2 ^ 53 := by
  have hfloor : 2 ^ 52 ≤ ⌊t⌋₊ := Nat.le_floor (by exact_mod_cast hlow)
  have hfloor' : ⌊t⌋₊ < 2 ^ 53 := by
    rw [Nat.floor_lt (le_trans (by positivity) hlow)]
    exact_mod_cast hhigh
  rw [roundHalfEven]
  split_ifs <;> omega

/-- The significand is the rounded one, or half of it where that takes 54 bits. -/
theorem significand_ofRatio (hnum : num ≠ 0) (hden : 0 < den) :
    (ofRatio num den).Canonical ∧
      (roundHalfEven (num / den / 2 ^ leadExponent num den) % 2 = 0 →
        (ofRatio num den).significand % 2 = 0) := by
  obtain ⟨hpos, hratio⟩ := unscale_eq num hden (leadExponent num den)
  obtain ⟨hlow, hhigh⟩ := leadExponent_spec hnum hden
  obtain ⟨hmin, hmax⟩ := roundHalfEven_bounds hlow hhigh
  simp only [ofRatio, if_neg hnum, roundDiv_eq hpos, hratio]
  split_ifs with hcarry
  · have hlead : 1 <<< 52 = 2 ^ 52 := Nat.one_shiftLeft 52
    refine ⟨.inr ?_, fun _ => ?_⟩ <;> dsimp only <;> rw [hlead] <;> norm_num
  · refine ⟨.inr ⟨hmin, ?_⟩, id⟩
    have hne : roundHalfEven (num / den / 2 ^ leadExponent num den) ≠ 2 ^ 53 := hcarry
    exact lt_of_le_of_ne hmax hne

/-- A number is a multiple of the last place of the rational one, or lies below its leading
place. -/
theorem Representable.multiple_or_lt {z : ℚ} (hz : Representable z) (e : Int) :
    (∃ k : Int, z = k * 2 ^ e) ∨ z < 2 ^ 52 * 2 ^ e := by
  obtain ⟨s, f, hs, rfl⟩ := hz
  by_cases hfe : e ≤ f
  · obtain ⟨k, rfl⟩ := Int.le.dest hfe
    refine .inl ⟨s * 2 ^ k, ?_⟩
    rw [zpow_add₀ two_ne_zero, zpow_natCast]
    push_cast
    ring
  · refine .inr ?_
    have hsucc : f + 1 ≤ e := by omega
    have hsq : (s : ℚ) < 2 ^ 53 := by exact_mod_cast (abs_lt.1 hs).2
    calc (s : ℚ) * 2 ^ f < 2 ^ 53 * 2 ^ f := by gcongr
      _ = 2 ^ 52 * 2 ^ (f + 1) := by
        rw [zpow_add_one₀ two_ne_zero]
        ring
      _ ≤ 2 ^ 52 * 2 ^ e := by
        gcongr
        exact one_le_two

/-- What is rounded at the leading place is nearest among all numbers. Those that are no multiples
of the last place lie below the leading place, and the least number of the leading place is
nearer. -/
theorem Representable.not_nearer {z : ℚ} (hz : Representable z) (hlow : 2 ^ 52 ≤ t) (e : Int) :
    |roundHalfEven t * 2 ^ e - t * 2 ^ e| ≤ |z - t * 2 ^ e| ∧
      (|z - t * 2 ^ e| = |roundHalfEven t * 2 ^ e - t * 2 ^ e| →
        z = roundHalfEven t * 2 ^ e ∨ roundHalfEven t % 2 = 0) := by
  have ht : 0 ≤ t := le_trans (by positivity) hlow
  have hunit : (0 : ℚ) < 2 ^ e := by positivity
  have hscale (a : ℚ) : |a * 2 ^ e - t * 2 ^ e| = |a - t| * 2 ^ e := by
    rw [← sub_mul, abs_mul, abs_of_pos hunit]
  rw [hscale]
  rcases hz.multiple_or_lt e with ⟨k, rfl⟩ | hbelow
  · rw [hscale]
    refine ⟨mul_le_mul_of_nonneg_right (abs_roundHalfEven_sub_le_abs_sub ht k) hunit.le, ?_⟩
    intro hequal
    rcases eq_or_roundHalfEven_even ht (mul_right_cancel₀ hunit.ne' hequal) with rfl | heven
    · exact .inl (by rw [Int.cast_natCast])
    · exact .inr heven
  · have hleast : |(roundHalfEven t : ℚ) - t| ≤ t - 2 ^ 52 := by
      have hround := abs_roundHalfEven_sub_le_abs_sub ht (2 ^ 52)
      rwa [Int.cast_pow, Int.cast_ofNat, abs_sub_comm (2 ^ 52), abs_of_nonneg (sub_nonneg.2 hlow)]
        at hround
    have hfar : |(roundHalfEven t : ℚ) - t| * 2 ^ e < |z - t * 2 ^ e| :=
      calc |(roundHalfEven t : ℚ) - t| * 2 ^ e ≤ (t - 2 ^ 52) * 2 ^ e := by gcongr
        _ = t * 2 ^ e - 2 ^ 52 * 2 ^ e := sub_mul ..
        _ < t * 2 ^ e - z := sub_lt_sub_left hbelow _
        _ ≤ |z - t * 2 ^ e| := by rw [abs_sub_comm]; exact le_abs_self _
    exact ⟨hfar.le, fun hequal => absurd hequal hfar.ne'⟩

theorem isNearest_ofRatio (num : Nat) (hden : 0 < den) :
    IsNearest (num / den) (ofRatio num den) := by
  by_cases hnum : num = 0
  · subst hnum
    have hzero : (ofRatio 0 den).toRat = ((0 : Nat) / den : ℚ) := by simp [ofRatio, toRat]
    refine ⟨.inl (by simp [ofRatio]), fun z _ => ?_, fun z _ hz => .inl ?_⟩
    · rw [hzero, sub_self, abs_zero]
      exact abs_nonneg _
    · rw [hzero, sub_self, abs_zero, abs_eq_zero, sub_eq_zero] at hz
      rw [hz, hzero]
  · obtain ⟨hcanonical, heven⟩ := significand_ofRatio hnum hden
    obtain ⟨hlow, -⟩ := leadExponent_spec hnum hden
    have hvalue := toRat_ofRatio hnum hden
    have hscaled : (num / den / 2 ^ leadExponent num den * 2 ^ leadExponent num den : ℚ) =
        num / den :=
      div_mul_cancel₀ _ (zpow_ne_zero _ two_ne_zero)
    have hround {z : ℚ} (hz : Representable z) := hz.not_nearer hlow (leadExponent num den)
    rw [hscaled, ← hvalue] at hround
    exact ⟨hcanonical, fun z hz => (hround hz).1, fun z hz hequal =>
      ((hround hz).2 hequal).imp_right heven⟩

end Binary64

/-! ## Confidence against a percentage -/

open Binary64

theorem DbcpSettings.isNearest_threshold (settings : DbcpSettings) :
    IsNearest (settings.confidenceThreshold.toNat / 100) settings.threshold := by
  have hratio := isNearest_ofRatio settings.confidenceThreshold.toNat (show 0 < 100 by decide)
  rwa [Nat.cast_ofNat] at hratio

theorem Counter.isNearest_saturation {counter : Counter} (hpos : 0 < counter.max) :
    IsNearest (counter.value / counter.max) counter.saturation :=
  isNearest_ofRatio counter.value hpos

namespace DeadBlockEntry

/-- **The confidence test is exact.** For a counter of up to 32 bits and a threshold of up to 100
percent, whatever numbers are nearest to the two fractions are compared as the fractions. What the
entry compares are such numbers, so it is doubted just if its confidence is below that percentage of
full scale. -/
theorem doubts_exactly {bits : Nat} (hpos : 1 ≤ bits) (hwide : bits ≤ 32) {entry : DeadBlockEntry}
    (hmax : entry.confidence.max = 2 ^ bits - 1) {settings : DbcpSettings}
    (hpercent : settings.confidenceThreshold.toNat ≤ 100) :
    let value := entry.confidence.value
    let full := entry.confidence.max
    let percent := settings.confidenceThreshold.toNat
    (∀ x y : Binary64, IsNearest (value / full) x → IsNearest (percent / 100) y →
        (x < y ↔ 100 * value < percent * full)) ∧
      IsNearest (value / full) entry.confidence.saturation ∧
      IsNearest (percent / 100) settings.threshold ∧
      (entry.doubts settings.threshold = true ↔ 100 * value < percent * full) := by
  intro value full percent
  have hlow : 2 ^ 1 ≤ 2 ^ bits := Nat.pow_le_pow_right (by decide) hpos
  have hhigh : 2 ^ bits ≤ 2 ^ 32 := Nat.pow_le_pow_right (by decide) hwide
  have hfull : 0 < entry.confidence.max := by omega
  have hlt : entry.confidence.max < 2 ^ 32 := by omega
  have hsaturation := Counter.isNearest_saturation hfull
  have hthreshold := settings.isNearest_threshold
  have hcompare : entry.confidence.saturation < settings.threshold ↔
      100 * value < percent * full :=
    Counter.saturation_lt_iff hfull hlt hpercent
  refine ⟨fun x y hx hy => ?_, hsaturation, hthreshold, ?_⟩
  · rw [hx.lt_iff_lt hsaturation hy hthreshold, hcompare]
  · rw [doubts, decide_eq_true_eq, hcompare]

/-- The half of an odd full scale of 32 bits lies between two values, and the test tells them
apart. -/
theorem doubts_exactly_around_half :
    let settings : DbcpSettings := { confidenceBits := 32, confidenceThreshold := 50 }
    let below : DeadBlockEntry :=
      .blank ⟨2147483647, 0, 4294967295, by decide, by decide⟩
    let above : DeadBlockEntry :=
      .blank ⟨2147483648, 0, 4294967295, by decide, by decide⟩
    1 ≤ 32 ∧ 32 ≤ 32 ∧ below.confidence.max = 2 ^ 32 - 1 ∧ above.confidence.max = 2 ^ 32 - 1 ∧
      settings.confidenceThreshold.toNat ≤ 100 ∧ below.doubts settings.threshold = true ∧
        above.doubts settings.threshold = false := by
  intro settings below above
  have hpos : 1 ≤ 32 := by decide
  have hwide : 32 ≤ 32 := le_rfl
  have hbelow : below.confidence.max = 2 ^ 32 - 1 := by norm_num [below, blank]
  have habove : above.confidence.max = 2 ^ 32 - 1 := by norm_num [above, blank]
  have hpercent : settings.confidenceThreshold.toNat ≤ 100 := by decide
  have hlow := (doubts_exactly hpos hwide hbelow hpercent).2.2.2.2 (by decide)
  have hhigh := mt (doubts_exactly hpos hwide habove hpercent).2.2.2.1 (by decide)
  exact ⟨hpos, hwide, hbelow, habove, hpercent, hlow, Bool.not_eq_true _ ▸ hhigh⟩

end DeadBlockEntry

end Residency
