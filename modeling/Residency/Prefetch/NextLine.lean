import Residency.Access

/-!
Next-line prefetching: the blocks behind the accessed one, at every access.
-/

namespace Residency

/-- A prefetcher of the next `degree` blocks. -/
structure NextLine where
  lineBytes : UInt64
  degree : Nat
deriving DecidableEq, Repr

namespace NextLine

/-- At least one block is prefetched. -/
def new (lineBytes : UInt64) (degree : Nat) : NextLine :=
  ⟨lineBytes, max degree 1⟩

/-- The blocks to prefetch, nearest first. Addresses wrap at the top of the address space, but the
distance to the last block has to fit in a word. -/
def targets (p : NextLine) (access : Access) : Checked (List UInt64) := do
  let base ← access.block p.lineBytes
  require (FitsWord (p.lineBytes.toNat * p.degree)) .overflow
  return (List.range' 1 p.degree).map fun k => base + .ofNat (p.lineBytes.toNat * k)

end NextLine

end Residency
