import Mathlib.Algebra.Group.Nat.Defs
import Residency.Access
import Residency.Geometry

/-!
# Blocks and their place

For a line size that is a power of two, clearing the low bits of an address rounds it down to a
multiple of the line size. Set and tag of an address are quotient and remainder of the number of its
block, so the block can be put together from them again.
-/

namespace Residency

/-- Masking with the complement of `2 ^ k - 1` rounds down to a multiple of `2 ^ k`. -/
theorem and_compl_two_pow_sub_one {x n k : Nat} (hx : x < 2 ^ n) (hk : k ≤ n) :
    x &&& (2 ^ n - 1 - (2 ^ k - 1)) = x / 2 ^ k * 2 ^ k := by
  have hpos := Nat.two_pow_pos k
  have hle := Nat.pow_le_pow_right (show 0 < 2 by decide) hk
  -- The mask has the bits from `k` on, and the quotient keeps the same ones.
  apply Nat.eq_of_testBit_eq
  intro i
  rw [show 2 ^ n - 1 - (2 ^ k - 1) = 2 ^ n - ((2 ^ k - 1) + 1) by omega, Nat.testBit_and,
    Nat.testBit_two_pow_sub_succ (by omega), Nat.testBit_two_pow_sub_one, Nat.testBit_mul_two_pow,
    Nat.testBit_div_two_pow]
  by_cases hi : i < k
  · simp [hi, Nat.not_le_of_lt hi]
  · have hki := Nat.le_of_not_lt hi
    rw [Nat.sub_add_cancel hki]
    by_cases hn : i < n
    · simp [hi, hn, hki]
    · have hlt := Nat.lt_of_lt_of_le hx (Nat.pow_le_pow_right (by decide) (Nat.le_of_not_lt hn))
      simp [Nat.testBit_lt_two_pow hlt]

theorem toNat_blockAddress {lineBytes : UInt64} (h : lineBytes.toNat.isPowerOfTwo)
    (addr : UInt64) :
    (blockAddress lineBytes addr).toNat = addr.toNat / lineBytes.toNat * lineBytes.toNat := by
  obtain ⟨k, hk⟩ := h
  have hlt : 2 ^ k < 2 ^ 64 := hk ▸ lineBytes.toNat_lt
  have hpos := Nat.two_pow_pos k
  have hone : (lineBytes - 1).toNat = 2 ^ k - 1 := by
    rw [UInt64.toNat_sub_of_le _ _ (UInt64.le_iff_toNat_le.2 _), hk]
    · rfl
    · rw [hk]
      exact hpos
  rw [blockAddress, UInt64.toNat_and, UInt64.toNat_not, hone, hk]
  exact and_compl_two_pow_sub_one addr.toNat_lt
    (Nat.le_of_lt ((Nat.pow_lt_pow_iff_right (by decide)).1 hlt))

namespace Geometry

variable {g : Geometry} {addr other : UInt64}

/-- The block that an address lies in. -/
def blockOf (g : Geometry) (addr : UInt64) : UInt64 :=
  blockAddress (.ofNat g.lineBytes) addr

theorem toNat_ofNat_lineBytes (g : Geometry) :
    (UInt64.ofNat g.lineBytes).toNat = g.lineBytes := by
  rw [UInt64.toNat_ofNat', Nat.mod_eq_of_lt]
  exact Nat.lt_of_le_of_lt (Nat.le_mul_of_pos_right _ g.sets_pos) g.span_lt

theorem toNat_blockOf (h : g.lineBytes.isPowerOfTwo) (addr : UInt64) :
    (g.blockOf addr).toNat = addr.toNat / g.lineBytes * g.lineBytes := by
  have hsize := g.toNat_ofNat_lineBytes
  rw [blockOf, toNat_blockAddress (hsize.symm ▸ h), hsize]

/-- Tag and set are quotient and remainder of the number of the block. -/
theorem tagOf_mul_add_setOf (g : Geometry) (addr : UInt64) :
    (g.tagOf addr).toNat * g.sets + g.setOf addr = addr.toNat / g.lineBytes := by
  rw [toNat_tagOf, setOf, ← Nat.div_div_eq_div_mul, Nat.mul_comm]
  exact Nat.div_add_mod ..

theorem setOf_blockOf (h : g.lineBytes.isPowerOfTwo) (addr : UInt64) :
    g.setOf (g.blockOf addr) = g.setOf addr := by
  rw [setOf, toNat_blockOf h, Nat.mul_div_cancel _ g.lineBytes_pos, setOf]

theorem blockOf_blockOf (h : g.lineBytes.isPowerOfTwo) (addr : UInt64) :
    g.blockOf (g.blockOf addr) = g.blockOf addr := by
  apply UInt64.toNat_inj.1
  rw [toNat_blockOf h, toNat_blockOf h, Nat.mul_div_cancel _ g.lineBytes_pos]

/-- Two addresses agree on set and tag exactly if they lie in one block. -/
theorem blockOf_eq_iff (h : g.lineBytes.isPowerOfTwo) :
    g.blockOf addr = g.blockOf other ↔
      g.setOf addr = g.setOf other ∧ g.tagOf addr = g.tagOf other := by
  rw [← UInt64.toNat_inj, toNat_blockOf h, toNat_blockOf h]
  constructor
  · intro heq
    have hnumber := Nat.mul_right_cancel g.lineBytes_pos heq
    refine ⟨by rw [setOf, setOf, hnumber], UInt64.toNat_inj.1 ?_⟩
    rw [toNat_tagOf, toNat_tagOf, ← Nat.div_div_eq_div_mul, hnumber, Nat.div_div_eq_div_mul]
  · rintro ⟨hset, htag⟩
    rw [← tagOf_mul_add_setOf, ← tagOf_mul_add_setOf, hset, htag]

/-- A block is put together from its set and its tag. -/
theorem rebuild_eq (h : g.lineBytes.isPowerOfTwo) (addr : UInt64) :
    g.rebuild (g.setOf addr) (g.tagOf addr) = .ok (g.blockOf addr) := by
  have hnumber := g.tagOf_mul_add_setOf addr
  have hle : addr.toNat / g.lineBytes * g.lineBytes ≤ addr.toNat := Nat.div_mul_le_self ..
  have hdiv : addr.toNat / g.lineBytes ≤ addr.toNat := Nat.div_le_self ..
  have hlt : addr.toNat < UInt64.size := addr.toNat_lt
  have hfits : FitsWord ((g.tagOf addr).toNat * g.sets) := by
    show _ < _
    omega
  have hsum : FitsWord (addr.toNat / g.lineBytes) := Nat.lt_of_le_of_lt hdiv hlt
  have hblock : FitsWord (addr.toNat / g.lineBytes * g.lineBytes) := Nat.lt_of_le_of_lt hle hlt
  have heq : UInt64.ofNat (addr.toNat / g.lineBytes * g.lineBytes) = g.blockOf addr := by
    rw [← toNat_blockOf h, UInt64.ofNat_toNat]
  rw [rebuild, require_eq_ok hfits, hnumber, require_eq_ok hsum, require_eq_ok hblock, heq]
  rfl

end Geometry

end Residency
