import Mathlib.Algebra.Group.Nat.Defs
import Mathlib.Tactic.SplitIfs
import Residency.Document.Numeral
import Residency.Proofs.Document.Texts

/-!
# Numbers

A number is read up to the character that ends it. A natural number of at most 64 bits, written in
plain decimal, is read exactly, and the double that approximates it is finite.
-/

namespace Residency

/-! ## The range of a product -/

namespace Binary64

theorem roundDiv_le (num den : Nat) : roundDiv num den ≤ num + 1 := by
  have := Nat.div_le_self num den
  have hzero : num = 0 → num / den = 0 := by
    rintro rfl
    exact Nat.zero_div den
  simp only [roundDiv]
  split_ifs <;> omega

theorem leadExponent_bounds (num den : Nat) :
    (num.log2 : Int) - den.log2 - 53 ≤ leadExponent num den ∧
      leadExponent num den ≤ (num.log2 : Int) - den.log2 - 52 := by
  simp only [leadExponent]
  split_ifs <;> omega

theorem exponent_ofRatio_le (num den : Nat) : (ofRatio num den).exponent ≤ num.log2 := by
  have := leadExponent_bounds num den
  simp only [ofRatio]
  split_ifs <;> dsimp only <;> omega

theorem significand_ofRatio_le (num den : Nat) :
    (ofRatio num den).significand ≤
      num <<< (-leadExponent num den).toNat + 1 + 2 ^ 52 := by
  have hround := roundDiv_le (num <<< (-leadExponent num den).toNat)
    (den <<< (leadExponent num den).toNat)
  rw [ofRatio]
  split
  · exact Nat.zero_le _
  · dsimp only [unscale]
    split
    · exact Nat.le_add_left _ _
    · exact Nat.le_add_right_of_le hround

theorem significand_ofNat_le (n : Nat) : (ofNat n).significand ≤ n * 2 ^ 53 + 1 + 2 ^ 52 := by
  have hlead := (leadExponent_bounds n 1).1
  have hone : Nat.log2 1 = 0 := rfl
  have hshift : n <<< (-leadExponent n 1).toNat ≤ n * 2 ^ 53 := by
    rw [Nat.shiftLeft_eq]
    exact Nat.mul_le_mul_left n (Nat.pow_le_pow_right (by decide) (by omega))
  have hratio := significand_ofRatio_le n 1
  rw [ofNat]
  omega

theorem log2_lt_of_lt {n k : Nat} (hk : 0 < k) (h : n < 2 ^ k) : n.log2 < k := by
  by_cases hn : n = 0
  · simpa [hn] using hk
  · exact (Nat.log2_lt hn).2 h

/-- A number of at most 64 bits, times one, is far below the end of the range. -/
theorem isFinite_ofNat_mul_one {n : Nat} (hn : n < 2 ^ 64) :
    ((ofNat n).mul (ofNat 1)).isFinite = true := by
  have hone : ofNat 1 = ⟨2 ^ 52, -52⟩ := by decide +kernel
  have hexponent : (ofNat n).exponent ≤ 63 := by
    have hofRatio : (ofNat n).exponent ≤ n.log2 := exponent_ofRatio_le n 1
    have hlog : n.log2 < 64 := log2_lt_of_lt (by decide) hn
    omega
  have hsignificand : (ofNat n).significand ≤ 2 ^ 118 := by
    have := significand_ofNat_le n
    omega
  have hshift : ((ofNat n).exponent + -52).toNat ≤ 11 := by omega
  have hproduct : ((ofNat n).significand * 2 ^ 52) <<< ((ofNat n).exponent + -52).toNat <
      2 ^ 200 := by
    rw [Nat.shiftLeft_eq]
    calc (ofNat n).significand * 2 ^ 52 * 2 ^ ((ofNat n).exponent + -52).toNat
        ≤ 2 ^ 118 * 2 ^ 52 * 2 ^ 11 :=
          Nat.mul_le_mul (Nat.mul_le_mul_right _ hsignificand)
            (Nat.pow_le_pow_right (by decide) hshift)
      _ < 2 ^ 200 := by decide
  have hlog := log2_lt_of_lt (by decide) hproduct
  have hmul := exponent_ofRatio_le
    (((ofNat n).significand * 2 ^ 52) <<< ((ofNat n).exponent + -52).toNat)
    (1 <<< (-((ofNat n).exponent + -52)).toNat)
  simp only [isFinite, mul, hone, Bool.or_eq_true, decide_eq_true_eq]
  right
  omega

end Binary64

namespace Document

variable {digits whole fraction exponent text rest : List Char}

/-! ## The form of a number -/

/-- Digits, at least one. -/
def Digits (cs : List Char) : Prop :=
  cs ≠ [] ∧ ∀ c ∈ cs, c.isDigit = true

/-- Digits with no zero in front of others. -/
def WholeForm (cs : List Char) : Prop :=
  Digits cs ∧ (cs.head? = some '0' → cs = ['0'])

/-- A point with digits behind it, or nothing. -/
def FractionForm (cs : List Char) : Prop :=
  cs = [] ∨ ∃ digits, Digits digits ∧ cs = '.' :: digits

/-- The letter of an exponent with digits behind it that may have a sign, or nothing. -/
def ExponentForm (cs : List Char) : Prop :=
  cs = [] ∨ ∃ letter sign digits, letter ∈ ['e', 'E'] ∧ sign ∈ [[], ['+'], ['-']] ∧
    Digits digits ∧ cs = letter :: (sign ++ digits)

/-- A number. -/
inductive NumberForm : List Char → Prop
  | intro {sign whole fraction exponent : List Char} : sign ∈ [[], ['-']] → WholeForm whole →
      FractionForm fraction → ExponentForm exponent →
      NumberForm (sign ++ (whole ++ (fraction ++ exponent)))

/-! ## Reading a number -/

theorem someDigits_append (h : Digits digits) (hrest : ∀ c ∈ rest.head?, c.isDigit = false) :
    someDigits (digits ++ rest) = .ok (digits, rest) := by
  obtain ⟨hne, hall⟩ := h
  have hend : rest.takeWhile Char.isDigit = [] ∧ rest.dropWhile Char.isDigit = rest := by
    cases rest with
    | nil => simp
    | cons c cs => simp [hrest c rfl]
  cases digits with
  | nil => exact absurd rfl hne
  | cons d ds =>
    have hds : ∀ c ∈ ds, c.isDigit = true := fun c hc => hall c (by simp [hc])
    simp [someDigits, hall d (by simp), List.takeWhile_append_of_pos hds,
      List.dropWhile_append_of_pos hds, hend]

theorem wholeDigits_append (h : WholeForm whole)
    (hrest : ∀ c ∈ rest.head?, c.isDigit = false) :
    wholeDigits (whole ++ rest) = .ok (whole, rest) := by
  have hzero : ¬ (whole.head? = some '0' ∧ whole ≠ ['0']) := by
    rintro ⟨hhead, hne⟩
    exact hne (h.2 hhead)
  simp [wholeDigits, someDigits_append h.1 hrest, hzero, bind, Except.bind, pure, Except.pure]

theorem fractionPart_append (h : FractionForm fraction)
    (hrest : ∀ c ∈ rest.head?, c.isDigit = false ∧ c ≠ '.') :
    fractionPart (fraction ++ rest) = .ok (fraction.tail, rest) := by
  rcases h with rfl | ⟨digits, hdigits, rfl⟩
  · cases rest with
    | nil => rfl
    | cons c cs =>
      have hpoint := (hrest c rfl).2
      simp [fractionPart, hpoint]
  · simp [fractionPart, someDigits_append hdigits fun c hc => (hrest c hc).1]

/-- What may follow a value does not continue a number. -/
theorem Delimited.ends_number (hrest : Delimited rest) :
    ∀ c ∈ rest.head?, c.isDigit = false ∧ c ≠ '.' ∧ c ≠ 'e' ∧ c ≠ 'E' := by
  intro c hc
  have hmem := hrest c hc
  simp only [List.mem_cons, List.not_mem_nil, or_false] at hmem
  rcases hmem with rfl | rfl | rfl | rfl | rfl | rfl | rfl <;> decide

theorem exponentSign_append {sign : List Char} (hsign : sign ∈ [[], ['+'], ['-']])
    (h : Digits digits) (rest : List Char) :
    ∃ s, exponentSign (sign ++ (digits ++ rest)) = (s, digits ++ rest) := by
  simp only [List.mem_cons, List.not_mem_nil, or_false] at hsign
  rcases hsign with rfl | rfl | rfl
  · obtain ⟨hne, hall⟩ := h
    cases digits with
    | nil => exact absurd rfl hne
    | cons d ds =>
      have hd : d ≠ '-' ∧ d ≠ '+' := by
        have := hall d (by simp)
        constructor <;> rintro rfl <;> simp at this
      exact ⟨1, by simp [exponentSign, hd]⟩
  · exact ⟨1, rfl⟩
  · exact ⟨-1, rfl⟩

theorem exponentPart_append (h : ExponentForm exponent) (hrest : Delimited rest) :
    ∃ e, exponentPart (exponent ++ rest) = .ok (e, rest) ∧ (exponent = [] → e = none) := by
  have hends := hrest.ends_number
  rcases h with rfl | ⟨letter, sign, digits, hletter, hsign, hdigits, rfl⟩
  · refine ⟨none, ?_, fun _ => rfl⟩
    cases rest with
    | nil => rfl
    | cons c cs =>
      obtain ⟨-, -, he, hE⟩ := hends c rfl
      simp [exponentPart, he, hE]
  · obtain ⟨s, hs⟩ := exponentSign_append hsign hdigits rest
    have hsome := someDigits_append hdigits fun c hc => (hends c hc).1
    have hletter' : letter = 'e' ∨ letter = 'E' := by simpa using hletter
    refine ⟨some (s * digitsValue digits), ?_, by simp⟩
    simp [exponentPart, hletter', hs, hsome, bind, Except.bind, pure, Except.pure]

/-- Neither a fraction nor an exponent nor what follows a number starts with a digit. -/
theorem head_fraction_exponent (hfraction : FractionForm fraction)
    (hexponent : ExponentForm exponent) (hrest : Delimited rest) :
    (∀ c ∈ (fraction ++ (exponent ++ rest)).head?, c.isDigit = false) ∧
      ∀ c ∈ (exponent ++ rest).head?, c.isDigit = false ∧ c ≠ '.' := by
  have hbehind : ∀ c ∈ (exponent ++ rest).head?, c.isDigit = false ∧ c ≠ '.' := by
    rcases hexponent with rfl | ⟨letter, sign, digits, hletter, -, -, rfl⟩
    · intro c hc
      obtain ⟨hdigit, hpoint, -, -⟩ := hrest.ends_number c hc
      exact ⟨hdigit, hpoint⟩
    · simp only [List.mem_cons, List.not_mem_nil, or_false] at hletter
      rcases hletter with rfl | rfl <;> simp
  refine ⟨?_, hbehind⟩
  rcases hfraction with rfl | ⟨digits, -, rfl⟩
  · exact fun c hc => (hbehind c hc).1
  · simp

theorem numeral_append {sign : List Char} (hsign : sign ∈ [[], ['-']]) (hwhole : WholeForm whole)
    (hfraction : FractionForm fraction) (hexponent : ExponentForm exponent)
    (hrest : Delimited rest) :
    ∃ e, numeral (sign ++ (whole ++ (fraction ++ (exponent ++ rest)))) =
        .ok (⟨sign = ['-'], whole, fraction.tail, e⟩, rest) ∧ (exponent = [] → e = none) := by
  obtain ⟨hfirst, hsecond⟩ := head_fraction_exponent hfraction hexponent hrest
  obtain ⟨e, he, hnone⟩ := exponentPart_append hexponent hrest
  have hunsigned (negative : Bool) :
      unsignedNumeral negative (whole ++ (fraction ++ (exponent ++ rest))) =
        .ok (⟨negative, whole, fraction.tail, e⟩, rest) := by
    simp [unsignedNumeral, wholeDigits_append hwhole hfirst,
      fractionPart_append hfraction hsecond, he, bind, Except.bind, pure, Except.pure]
  refine ⟨e, ?_, hnone⟩
  simp only [List.mem_cons, List.not_mem_nil, or_false] at hsign
  rcases hsign with rfl | rfl
  · obtain ⟨⟨hne, hall⟩, -⟩ := hwhole
    cases whole with
    | nil => exact absurd rfl hne
    | cons d ds =>
      have hd : d ≠ '-' := by
        rintro rfl
        simpa using hall '-' (by simp)
      simpa [numeral, hd] using hunsigned false
  · simpa [numeral] using hunsigned true

theorem NumberForm.head (h : NumberForm text) :
    ∃ c cs, text = c :: cs ∧ (c = '-' ∨ c.isDigit = true) := by
  obtain ⟨hsign, ⟨⟨hne, hall⟩, -⟩, -, -⟩ := h
  simp only [List.mem_cons, List.not_mem_nil, or_false] at hsign
  rcases hsign with rfl | rfl
  · obtain ⟨d, ds, rfl⟩ := List.exists_cons_of_ne_nil hne
    exact ⟨d, _, rfl, .inr (hall d (by simp))⟩
  · exact ⟨'-', _, rfl, .inl rfl⟩

/-- No other token starts with the first character of a number. -/
theorem not_mem_of_starts_number {c : Char} (h : c = '-' ∨ c.isDigit = true) :
    c ∉ [' ', '\t', '\n', '\r', '[', ']', '{', '}', '"', 'n', 't', 'f'] := by
  intro hmem
  simp only [List.mem_cons, List.not_mem_nil, or_false] at hmem
  rcases hmem with rfl | rfl | rfl | rfl | rfl | rfl | rfl | rfl | rfl | rfl | rfl | rfl <;>
    simp at h

theorem NumberForm.solid (h : NumberForm text) : Solid text := by
  obtain ⟨c, cs, rfl, hc⟩ := h.head
  have := not_mem_of_starts_number hc
  simp_all [Solid, isBlank]

/-! ## Plain decimals -/

theorem digits_toDigits (n : Nat) : Digits (Nat.toDigits 10 n) :=
  ⟨Nat.toDigits_ne_nil, fun _ hc => Nat.isDigit_of_mem_toDigits (by decide) (by decide) hc⟩

theorem digitsValue_toDigits (n : Nat) : digitsValue (Nat.toDigits 10 n) = n := by
  have h := Nat.ofDigitChars_ten_toDigits (n := n)
  rw [Nat.ofDigitChars_eq_foldl] at h
  simpa only [digitsValue, Nat.mul_comm] using h

/-- Plain decimals have no leading zero. -/
theorem wholeForm_toDigits (n : Nat) : WholeForm (Nat.toDigits 10 n) := by
  refine ⟨digits_toDigits n, ?_⟩
  induction n using Nat.strongRecOn with
  | ind n ih =>
    intro hhead
    by_cases hn : n < 10
    · rw [Nat.toDigits_of_lt_base hn] at hhead ⊢
      simpa using hhead
    · rw [Nat.toDigits_of_base_le (by decide) (by omega)] at hhead
      rw [List.head?_append, List.head?_eq_some_head Nat.toDigits_ne_nil, Option.some_or,
        ← List.head?_eq_some_head] at hhead
      have hzero := digitsValue_toDigits (n / 10)
      rw [ih (n / 10) (by omega) hhead] at hzero
      have : digitsValue ['0'] = 0 := rfl
      omega

theorem numberForm_toDigits (n : Nat) : NumberForm (Nat.toDigits 10 n) := by
  simpa using NumberForm.intro (List.mem_cons_self (a := []) (l := [['-']]))
    (wholeForm_toDigits n) (.inl rfl) (.inl rfl)

/-- The digits of a number of at most 64 bits all fit the significand. -/
theorem absorb_eq (digits : List Char) (significand : Nat)
    (h : Nat.ofDigitChars 10 digits significand < UInt64.size) :
    absorb significand digits = (Nat.ofDigitChars 10 digits significand, []) := by
  induction digits generalizing significand with
  | nil => rfl
  | cons d ds ih =>
    rw [Nat.ofDigitChars_cons] at h ⊢
    have hnext : 10 * significand + (d.toNat - '0'.toNat) < UInt64.size := by
      rw [Nat.ofDigitChars_eq_ofDigitChars_zero] at h
      have := Nat.le_mul_of_pos_left (10 * significand + (d.toNat - '0'.toNat))
        (Nat.pow_pos (n := ds.length) (show 0 < 10 by decide))
      omega
    rw [absorb, Nat.mul_comm significand]
    exact (if_pos hnext).trans (ih _ h)

theorem finiteNumeral_toDigits {n : Nat} (hn : n < UInt64.size) (hrest : Delimited rest) :
    finiteNumeral (Nat.toDigits 10 n ++ rest) =
      .ok (⟨false, Nat.toDigits 10 n, [], none⟩, rest) := by
  have hsign : ([] : List Char) ∈ [[], ['-']] := by simp
  obtain ⟨e, hread, hnone⟩ :=
    numeral_append hsign (wholeForm_toDigits n) (.inl rfl) (.inl rfl) hrest
  rw [hnone rfl] at hread
  have habsorb : absorb 0 (Nat.toDigits 10 n) = (n, []) := by
    rw [absorb_eq] <;> simp [Nat.ofDigitChars_ten_toDigits, hn]
  have happroximation :
      Numeral.approximation ⟨false, Nat.toDigits 10 n, [], none⟩ = (n, 0) := by
    simp [Numeral.approximation, habsorb, absorb]
  have hfinite : Numeral.isFinite ⟨false, Nat.toDigits 10 n, [], none⟩ = true := by
    simp [Numeral.isFinite, happroximation, Binary64.isFinite_ofNat_mul_one hn]
  have hplain : numeral (Nat.toDigits 10 n ++ rest) =
      .ok (⟨false, Nat.toDigits 10 n, [], none⟩, rest) := by
    simpa using hread
  simp [finiteNumeral, hplain, hfinite, bind, Except.bind, pure, Except.pure]

theorem natural?_toDigits {n : Nat} (hn : n < UInt64.size) :
    Numeral.natural? ⟨false, Nat.toDigits 10 n, [], none⟩ = some n := by
  simpa [Numeral.natural?, digitsValue_toDigits] using hn

end Document

end Residency
