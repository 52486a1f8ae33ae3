import Residency.Prefetch.NextLine
import Residency.Proofs.Delivers
import Residency.Proofs.Geometry

/-!
# The blocks behind the accessed one

The next-line prefetcher asks for blocks at multiples of the line size behind the accessed one.
The addresses wrap, and the distances do not: the distance to the last block has to fit in a word,
also where the block lies within the address space.
-/

namespace Residency

namespace NextLine

variable {lineBytes : UInt64} {degree : Nat}

/-- The address that lies `k` lines behind the start of a block. Behind the last block comes the
first. -/
def following (lineBytes addr : UInt64) (k : Nat) : UInt64 :=
  blockAddress lineBytes addr + .ofNat (lineBytes.toNat * k)

theorem toNat_following (h : lineBytes.toNat.isPowerOfTwo) (addr : UInt64) (k : Nat) :
    (following lineBytes addr k).toNat =
      (addr.toNat / lineBytes.toNat * lineBytes.toNat + k * lineBytes.toNat) % 2 ^ 64 := by
  rw [following, UInt64.toNat_add, toNat_blockAddress h, UInt64.toNat_ofNat', Nat.add_mod_mod,
    Nat.mul_comm k]

theorem lineBytes_ne_zero (h : lineBytes.toNat.isPowerOfTwo) : lineBytes ≠ 0 := by
  intro hzero
  have hpos := Nat.pos_of_isPowerOfTwo h
  simp [hzero] at hpos

theorem targets_of_fits (hline : lineBytes ≠ 0) (access : Access)
    (hfits : FitsWord (lineBytes.toNat * max degree 1)) :
    (new lineBytes degree).targets access =
      .ok ((List.range' 1 (max degree 1)).map (following lineBytes access.addr)) := by
  rw [targets, new, Access.block_eq_ok hline, ok_bind, require_eq_ok hfits]
  rfl

theorem targets_of_not_fits (hline : lineBytes ≠ 0) (access : Access)
    (hfar : ¬ FitsWord (lineBytes.toNat * max degree 1)) :
    (new lineBytes degree).targets access = .error .overflow := by
  rw [targets, new, Access.block_eq_ok hline, ok_bind, require, if_neg hfar]
  rfl

/-- **The following blocks are asked for in order, wherever they lie.** For every line size that is
a power of two, every degree and every access, the prefetcher asks for as many blocks as its degree,
one at least, at the multiples of the line size behind the accessed block, modulo `2 ^ 64`. It does
so just if the distance to the last of them fits in a word; otherwise the product of line size and
degree overflows, and nothing is asked for. -/
theorem targets_follow (h : lineBytes.toNat.isPowerOfTwo) (degree : Nat) (access : Access) :
    (lineBytes.toNat * max degree 1 < 2 ^ 64 → ∃ targets,
      (new lineBytes degree).targets access = .ok targets ∧
        targets.map (·.toNat) = (List.range' 1 (max degree 1)).map fun k =>
          (access.addr.toNat / lineBytes.toNat * lineBytes.toNat + k * lineBytes.toNat) % 2 ^ 64) ∧
      (2 ^ 64 ≤ lineBytes.toNat * max degree 1 →
        (new lineBytes degree).targets access = .error .overflow) := by
  have hline := lineBytes_ne_zero h
  constructor
  · intro hfits
    refine ⟨_, targets_of_fits hline access hfits, ?_⟩
    rw [List.map_map]
    apply List.map_congr_left
    intro k _
    exact toNat_following h access.addr k
  · intro hfar
    exact targets_of_not_fits hline access (Nat.not_lt_of_le hfar)

/-- From the last block of the address space the prefetcher goes on with the first two. -/
theorem targets_follow_last_block :
    (64 : UInt64).toNat.isPowerOfTwo ∧ (64 : UInt64).toNat * max 2 1 < 2 ^ 64 ∧
      ∃ targets, (new 64 2).targets { addr := 0xffffffffffffffff } = .ok targets ∧
        targets.map (·.toNat) = [0, 64] := by
  have h : (64 : UInt64).toNat.isPowerOfTwo := ⟨6, rfl⟩
  exact ⟨h, by decide, (targets_follow h 2 { addr := 0xffffffffffffffff }).1 (by decide)⟩

/-- With lines of half the address space, the second following block of the first one is this one
again, but the distance to it takes more than 64 bits. -/
theorem targets_too_far : ∃ (lineBytes : UInt64) (degree : Nat) (access : Access),
    lineBytes.toNat.isPowerOfTwo ∧ (new lineBytes degree).targets access = .error .overflow ∧
      [following lineBytes access.addr 1, following lineBytes access.addr 2] =
        [0x8000000000000000, 0] :=
  ⟨0x8000000000000000, 2, { addr := 0 }, ⟨63, rfl⟩, rfl, rfl⟩

end NextLine

end Residency
