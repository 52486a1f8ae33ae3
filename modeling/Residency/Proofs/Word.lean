import Mathlib.Data.FinEnum
import Mathlib.Data.Nat.ModEq
import Mathlib.Data.Nat.Prime.Basic
import Mathlib.Data.Set.Card
import Residency.Word

/-!
# Mixing loses no word

A map that respects exclusive-or tells all words apart if it takes no word but zero to zero. To add
a shifted copy of a word to it is such a map. An odd factor can be cancelled modulo a power of two.
So each stage of the mixer gives its word back, and two keys that share a slot have been told apart
up to the reduction modulo the number of slots.
-/

namespace Residency

/-! ## Maps that respect exclusive-or -/

/-- The map takes exclusive-or to exclusive-or. -/
def RespectsXor (f : UInt64 → UInt64) : Prop :=
  ∀ x y, f (x ^^^ y) = f x ^^^ f y

theorem respectsXor_zero : RespectsXor fun _ => 0 :=
  fun _ _ => UInt64.xor_self.symm

theorem respectsXor_id : RespectsXor fun x => x :=
  fun _ _ => rfl

theorem respectsXor_shiftRight (n : UInt64) : RespectsXor (· >>> n) :=
  fun _ _ => UInt64.shiftRight_xor

theorem respectsXor_shiftLeft (n : UInt64) : RespectsXor (· <<< n) :=
  fun _ _ => UInt64.shiftLeft_xor

/-- Exclusive-or with the top bit of a number clears it. -/
theorem xor_two_pow_lt {m n : Nat} (hle : 2 ^ n ≤ m) (hlt : m < 2 ^ (n + 1)) :
    m ^^^ 2 ^ n < 2 ^ n := by
  refine Nat.lt_pow_two_of_testBit _ fun i hi => ?_
  rw [Nat.testBit_xor, Nat.testBit_two_pow]
  by_cases heq : n = i
  · subst heq
    rw [Nat.testBit_of_two_pow_le_and_two_pow_add_one_gt hle hlt]
    simp
  · have hbelow : m < 2 ^ i :=
      Nat.lt_of_lt_of_le hlt (Nat.pow_le_pow_right (by decide) (by omega))
    simp [heq, Nat.testBit_lt_two_pow hbelow]

namespace RespectsXor

variable {f g : UInt64 → UInt64}

theorem comp (hf : RespectsXor f) (hg : RespectsXor g) : RespectsXor (f ∘ g) := by
  intro x y
  rw [Function.comp_apply, hg x y, hf (g x)]
  rfl

/-- To add the images under two maps respects exclusive-or as well. -/
theorem xor (hf : RespectsXor f) (hg : RespectsXor g) : RespectsXor fun x => f x ^^^ g x := by
  intro x y
  dsimp only
  rw [hf x y, hg x y]
  ac_rfl

/-- So does to add a word to its image. -/
theorem self_xor (hf : RespectsXor f) : RespectsXor fun x => x ^^^ f x :=
  respectsXor_id.xor hf

theorem map_zero (hf : RespectsXor f) : f 0 = 0 := by
  have h := hf 0 0
  rwa [UInt64.xor_self, UInt64.xor_self] at h

/-- The difference of two words with one image is taken to zero. -/
theorem injective (hf : RespectsXor f) (hzero : ∀ x, f x = 0 → x = 0) :
    Function.Injective f := by
  intro x y hxy
  have hlost : f (x ^^^ y) = 0 := by rw [hf, hxy, UInt64.xor_self]
  exact UInt64.xor_eq_zero_iff.1 (hzero _ hlost)

/-- A map that takes all powers of two to zero takes every word to zero. -/
theorem eq_zero_of_powers (hf : RespectsXor f) (h : ∀ i < 64, f (.ofNat (2 ^ i)) = 0)
    (x : UInt64) : f x = 0 := by
  -- By induction on the number of bits, where exclusive-or splits the top bit off.
  have hbits : ∀ n ≤ 64, ∀ m < 2 ^ n, f (.ofNat m) = 0 := by
    intro n
    induction n with
    | zero =>
      intro _ m hm
      obtain rfl : m = 0 := by simpa using hm
      exact hf.map_zero
    | succ n ih =>
      intro hn m hm
      rcases Nat.lt_or_ge m (2 ^ n) with hlt | hle
      · exact ih (by omega) m hlt
      · have hrest := ih (by omega) _ (xor_two_pow_lt hle hm)
        rwa [UInt64.ofNat_xor, hf, h n (by omega), UInt64.xor_zero] at hrest
  have hx := hbits 64 (Nat.le_refl _) x.toNat x.toNat_lt
  rwa [UInt64.ofNat_toNat] at hx

end RespectsXor

/-! ## Shifts and odd factors -/

variable {x n c : UInt64}

theorem eq_zero_of_shiftRight_eq (hn : n.toNat % 64 ≠ 0) (h : x >>> n = x) : x = 0 := by
  have hdiv : x.toNat / 2 ^ (n.toNat % 64) = x.toNat := by
    rw [← Nat.shiftRight_eq_div_pow, ← UInt64.toNat_shiftRight, h]
  by_contra hx
  have hpos : 0 < x.toNat := Nat.pos_of_ne_zero fun h0 => hx (UInt64.toNat_inj.1 h0)
  exact Nat.ne_of_lt (Nat.div_lt_self hpos (Nat.one_lt_two_pow hn)) hdiv

theorem eq_zero_of_shiftLeft_eq (hn : n.toNat % 64 ≠ 0) (h : x <<< n = x) : x = 0 := by
  have hmul : x.toNat * 2 ^ (n.toNat % 64) % 2 ^ 64 = x.toNat := by
    rw [← Nat.shiftLeft_eq, ← UInt64.toNat_shiftLeft, h]
  -- With each shift, one more of the low bits is known to be clear.
  have hdvd : ∀ i ≤ 64, 2 ^ i ∣ x.toNat := by
    intro i
    induction i with
    | zero => exact fun _ => ⟨x.toNat, (Nat.one_mul _).symm⟩
    | succ i ih =>
      intro hi
      have hshifted : 2 ^ (i + 1) ∣ x.toNat * 2 ^ (n.toNat % 64) := by
        rw [Nat.pow_succ]
        exact Nat.mul_dvd_mul (ih (by omega)) (dvd_pow_self 2 hn)
      rw [← hmul]
      exact (Nat.dvd_mod_iff (Nat.pow_dvd_pow 2 hi)).2 hshifted
  exact UInt64.toNat_inj.1 (Nat.eq_zero_of_dvd_of_lt (hdvd 64 (Nat.le_refl _)) x.toNat_lt)

theorem xor_shiftRight_injective (hn : n.toNat % 64 ≠ 0) :
    Function.Injective fun x : UInt64 => x ^^^ (x >>> n) :=
  (respectsXor_shiftRight n).self_xor.injective fun _ h =>
    eq_zero_of_shiftRight_eq hn (UInt64.xor_eq_zero_iff.1 h).symm

theorem xor_shiftLeft_injective (hn : n.toNat % 64 ≠ 0) :
    Function.Injective fun x : UInt64 => x ^^^ (x <<< n) :=
  (respectsXor_shiftLeft n).self_xor.injective fun _ h =>
    eq_zero_of_shiftLeft_eq hn (UInt64.xor_eq_zero_iff.1 h).symm

/-- An odd factor can be cancelled. -/
theorem mul_injective_of_odd (hc : c.toNat % 2 = 1) :
    Function.Injective fun x : UInt64 => x * c := by
  intro x y hxy
  have hmod : x.toNat * c.toNat ≡ y.toNat * c.toNat [MOD 2 ^ 64] := by
    have h := congrArg UInt64.toNat hxy
    rwa [UInt64.toNat_mul, UInt64.toNat_mul] at h
  have hcoprime : Nat.Coprime (2 ^ 64) c.toNat :=
    Nat.Coprime.pow_left 64 (Nat.coprime_two_left.2 (Nat.odd_iff.2 hc))
  have hsame := Nat.ModEq.cancel_right_of_coprime hcoprime hmod
  exact UInt64.toNat_inj.1 (hsame.eq_of_lt_of_lt x.toNat_lt y.toNat_lt)

/-! ## The mixer -/

theorem mix_injective : Function.Injective mix :=
  (xor_shiftRight_injective (n := 31) (by decide)).comp <|
    (mul_injective_of_odd (c := 0x94d049bb133111eb) (by decide)).comp <|
    (xor_shiftRight_injective (n := 27) (by decide)).comp <|
    (mul_injective_of_odd (c := 0xbf58476d1ce4e5b9) (by decide)).comp <|
    xor_shiftRight_injective (n := 30) (by decide)

/-- There are no more mixed words than words, so every word is one. -/
theorem mix_bijective : Function.Bijective mix :=
  Finite.injective_iff_bijective.1 mix_injective

/-- **The mixer loses nothing.** It is a bijection of the words. So two keys have two mixed words,
and fall on one slot of a table just where the reduction modulo its size takes these to one
remainder; and on each slot fall as many keys as there are words with its remainder. -/
theorem mix_loses_nothing :
    Function.Bijective mix ∧
      ∀ size : Nat, size ≠ 0 →
        (∀ key, ∃ slot, hashIndex key size = .ok slot ∧ slot < size) ∧
        (∀ key other : UInt64, key ≠ other → mix key ≠ mix other ∧
          (hashIndex key size = hashIndex other size ↔
            (mix key).toNat % size = (mix other).toNat % size)) ∧
        ∀ slot, {key | hashIndex key size = .ok slot}.ncard =
          {word : UInt64 | word.toNat % size = slot}.ncard := by
  refine ⟨mix_bijective, fun size hsize => ⟨?slot, ?shared, ?load⟩⟩
  case slot =>
    intro key
    exact ⟨_, hashIndex_eq_ok hsize, Nat.mod_lt _ (Nat.pos_of_ne_zero hsize)⟩
  case shared =>
    intro key other hne
    rw [hashIndex_eq_ok hsize, hashIndex_eq_ok hsize, Except.ok.injEq]
    exact ⟨mix_injective.ne hne, Iff.rfl⟩
  case load =>
    intro slot
    have hpreimage : {key | hashIndex key size = .ok slot} =
        Set.preimage mix {word : UInt64 | word.toNat % size = slot} := by
      ext key
      simp [hashIndex_eq_ok hsize]
    rw [hpreimage, Set.ncard_preimage_of_injective_subset_range mix_injective]
    exact fun word _ => mix_bijective.surjective word

/-- The blocks at 256 and 320 share a slot of 256, although their mixed words differ. -/
theorem mix_loses_nothing_two_blocks :
    256 ≠ 0 ∧ (256 : UInt64) ≠ 320 ∧ hashIndex 256 256 = hashIndex 320 256 ∧ mix 256 ≠ mix 320 := by
  have hsize : 256 ≠ 0 := by decide
  have hne : (256 : UInt64) ≠ 320 := by decide
  obtain ⟨hmixed, hshared⟩ := (mix_loses_nothing.2 256 hsize).2.1 256 320 hne
  exact ⟨hsize, hne, hshared.2 (by decide), hmixed⟩

end Residency
