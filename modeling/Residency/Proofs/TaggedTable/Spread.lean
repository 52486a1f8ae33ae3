import Mathlib.Algebra.Group.Nat.Defs
import Mathlib.Data.Set.Card
import Mathlib.Order.Interval.Finset.Nat
import Residency.Proofs.TaggedTable

/-!
# Indices spread evenly over the sets

Without its lowest bit, an index is read as digits of `k` bits, and the set is the exclusive-or of
the last two of them. So among the indices that agree in all digits but the last, the last one takes
each set once, and the lowest bit of the index makes two of each.
-/

namespace Residency

/-- As many words have a given quotient by `d` as there are remainders. -/
theorem ncard_toNat_div_eq {d q : Nat} (hd : 0 < d) (h : (q + 1) * d ≤ 2 ^ 64) :
    {x : UInt64 | x.toNat / d = q}.ncard = d := by
  have himage : UInt64.toNat '' {x : UInt64 | x.toNat / d = q} =
      Finset.Ico (q * d) ((q + 1) * d) := by
    ext n
    rw [Finset.coe_Ico, Set.mem_Ico, ← Nat.le_div_iff_mul_le hd, ← Nat.div_lt_iff_lt_mul hd]
    constructor
    · rintro ⟨x, rfl, rfl⟩
      exact ⟨Nat.le_refl _, Nat.lt_succ_self _⟩
    · rintro ⟨hle, hlt⟩
      have hn : n < 2 ^ 64 := Nat.lt_of_lt_of_le ((Nat.div_lt_iff_lt_mul hd).1 hlt) h
      refine ⟨.ofNat n, ?_, UInt64.toNat_ofNat_of_lt' hn⟩
      show (UInt64.ofNat n).toNat / d = q
      rw [UInt64.toNat_ofNat_of_lt' hn]
      omega
  rw [← Set.ncard_image_of_injective _ fun _ _ => UInt64.toNat_inj.1, himage,
    Set.ncard_coe_finset, Nat.card_Ico, Nat.succ_mul, Nat.add_sub_cancel_left]

namespace TaggedTable

variable {σ E : Type} {t : TaggedTable σ E} {index : UInt64} {k u set : Nat}

/-- Where the slots of a table can be counted in a word, so can its sets. -/
theorem fits_numSets_of_new {entries assoc : Nat} {blank : E} {policy : σ}
    (h : TaggedTable.new entries assoc blank policy = .ok t) (hentries : FitsWord entries) :
    FitsWord t.numSets := by
  rw [(new_spec h).2.1]
  exact Nat.lt_of_le_of_lt (Nat.div_le_self ..) hentries

/-- The set is the exclusive-or of the last two digits. -/
theorem setOf_eq_xor (hk : k < 64) (hsets : t.numSets = 2 ^ k) (index : UInt64) :
    t.setOf index = (index.toNat / 2 % 2 ^ k) ^^^ (index.toNat / 2 ^ (k + 1) % 2 ^ k) := by
  have hbits : t.setBits = k := by
    rw [numSets, Nat.one_shiftLeft] at hsets
    exact Nat.pow_right_injective (Nat.le_refl 2) hsets
  have hshift : (UInt64.ofNat k).toNat % 64 = k := by
    rw [UInt64.toNat_ofNat_of_lt' (Nat.lt_trans hk (by decide)), Nat.mod_eq_of_lt hk]
  have hupper : (index >>> 1).toNat = index.toNat / 2 := by
    rw [UInt64.toNat_shiftRight, Nat.shiftRight_eq_div_pow]
    rfl
  rw [setOf, hsets, hbits, UInt64.toNat_xor, UInt64.toNat_shiftRight (index >>> 1), hshift, hupper,
    Nat.shiftRight_eq_div_pow, Nat.div_div_eq_div_mul, ← Nat.pow_succ', Nat.xor_mod_two_pow]

theorem xor_digit_lt (hset : set < 2 ^ k) (u : Nat) : set ^^^ (u % 2 ^ k) < 2 ^ k :=
  Nat.xor_lt_two_pow hset (Nat.mod_lt _ (Nat.two_pow_pos k))

/-- The indices of one set that agree in all digits but the last agree in that one as well. -/
theorem setOf_eq_iff (hk : k < 64) (hsets : t.numSets = 2 ^ k) (hset : set < 2 ^ k) :
    index.toNat / 2 ^ (k + 1) = u ∧ t.setOf index = set ↔
      index.toNat / 2 = u * 2 ^ k + (set ^^^ (u % 2 ^ k)) := by
  have hdigit := xor_digit_lt hset u
  have hhigh : index.toNat / 2 ^ (k + 1) = index.toNat / 2 / 2 ^ k := by
    rw [Nat.div_div_eq_div_mul, ← Nat.pow_succ']
  rw [setOf_eq_xor hk hsets, hhigh]
  constructor
  · rintro ⟨rfl, rfl⟩
    rw [Nat.xor_assoc, Nat.xor_self, Nat.xor_zero, Nat.mul_comm, Nat.div_add_mod]
  · intro h
    have hquotient : index.toNat / 2 / 2 ^ k = u := by
      rw [h, Nat.add_comm, Nat.add_mul_div_right _ _ (Nat.two_pow_pos k), Nat.div_eq_of_lt hdigit,
        Nat.zero_add]
    have hremainder : index.toNat / 2 % 2 ^ k = set ^^^ (u % 2 ^ k) := by
      rw [h, Nat.add_comm, Nat.add_mul_mod_self_right, Nat.mod_eq_of_lt hdigit]
    rw [hquotient, hremainder, Nat.xor_assoc, Nat.xor_self, Nat.xor_zero]
    exact ⟨rfl, rfl⟩

/-- Where one number with some higher bits is a word, so are all numbers with these bits. -/
theorem succ_mul_le_of_high (hk : k < 64) (h : index.toNat / 2 ^ (k + 1) = u) :
    (u + 1) * 2 ^ (k + 1) ≤ 2 ^ 64 := by
  have hword : 2 ^ (63 - k) * 2 ^ (k + 1) = 2 ^ 64 := by
    rw [← Nat.pow_add]
    congr 1
    omega
  have hlt : u < 2 ^ (63 - k) := by
    rw [← h, Nat.div_lt_iff_lt_mul (Nat.two_pow_pos _), hword]
    exact index.toNat_lt
  rw [← hword]
  exact Nat.mul_le_mul_right _ hlt

/-- **Indices spread evenly.** In a table of `2 ^ k` sets, which a word can count, every index has
one of these sets; and of the `2 ^ (k + 1)` indices that agree in all higher bits, every set has
exactly two. -/
theorem setOf_spreads_evenly (hsets : t.numSets = 2 ^ k) (hfits : FitsWord t.numSets) :
    (∀ index, t.setOf index < 2 ^ k) ∧
      ∀ u, (∃ index : UInt64, index.toNat / 2 ^ (k + 1) = u) →
        {index : UInt64 | index.toNat / 2 ^ (k + 1) = u}.ncard = 2 ^ (k + 1) ∧
        ∀ set, set < 2 ^ k →
          {index : UInt64 | index.toNat / 2 ^ (k + 1) = u ∧ t.setOf index = set}.ncard = 2 := by
  have hk : k < 64 := (Nat.pow_lt_pow_iff_right (by decide)).1 (hsets ▸ hfits)
  refine ⟨fun index => hsets ▸ t.setOf_lt index, ?_⟩
  rintro u ⟨index, hindex⟩
  have hu := succ_mul_le_of_high hk hindex
  refine ⟨ncard_toNat_div_eq (Nat.two_pow_pos _) hu, ?_⟩
  intro set hset
  simp only [setOf_eq_iff hk hsets hset]
  apply ncard_toNat_div_eq (by decide)
  calc (u * 2 ^ k + (set ^^^ (u % 2 ^ k)) + 1) * 2 ≤ (u * 2 ^ k + 2 ^ k) * 2 :=
        Nat.mul_le_mul_right 2 (Nat.add_le_add_left (xor_digit_lt hset u) _)
    _ = (u + 1) * 2 ^ (k + 1) := by rw [Nat.pow_succ, ← Nat.succ_mul, Nat.mul_assoc]
    _ ≤ 2 ^ 64 := hu

/-- In a table of four sets, the last set has two of the eight highest indices. -/
theorem setOf_spreads_evenly_highest :
    ∃ t : TaggedTable Unit Nat, TaggedTable.new 12 3 0 () = .ok t ∧ t.numSets = 2 ^ 2 ∧
      FitsWord t.numSets ∧ (∃ index : UInt64, index.toNat / 2 ^ (2 + 1) = 2 ^ 61 - 1) ∧
      {index : UInt64 | index.toNat / 2 ^ (2 + 1) = 2 ^ 61 - 1}.ncard = 8 ∧ 3 < 2 ^ 2 ∧
      {index : UInt64 | index.toNat / 2 ^ (2 + 1) = 2 ^ 61 - 1 ∧ t.setOf index = 3}.ncard = 2 := by
  have hnew : TaggedTable.new 12 3 0 () =
      .ok (⟨.uniform 4 3 ⟨0, false, false, 0⟩, 2, 0, ()⟩ : TaggedTable Unit Nat) := rfl
  have hsets : (⟨.uniform 4 3 ⟨0, false, false, 0⟩, 2, 0, ()⟩ : TaggedTable Unit Nat).numSets =
      2 ^ 2 := rfl
  have hfits := fits_numSets_of_new hnew (by decide)
  have hindex : ∃ index : UInt64, index.toNat / 2 ^ (2 + 1) = 2 ^ 61 - 1 := ⟨-1, by decide⟩
  obtain ⟨hall, htwo⟩ := (setOf_spreads_evenly hsets hfits).2 _ hindex
  exact ⟨_, hnew, hsets, hfits, hindex, hall, by decide, htwo 3 (by decide)⟩

end TaggedTable

end Residency
