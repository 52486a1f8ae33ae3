import Residency.Word

/-!
One memory access as the cache and its predictors see it.
-/

namespace Residency

/-- A memory access. A secure and a non-secure access to one address concern different lines. -/
structure Access where
  addr : UInt64
  /-- The program counter of the issuing instruction, if known. -/
  pc : Option UInt64 := none
  secure : Bool := false
deriving DecidableEq, Repr

namespace Access

/-- Whether the issuing instruction is known. -/
def hasPc (access : Access) : Bool :=
  access.pc.isSome

/-- The block that is accessed. A block holds at least one byte. -/
def block (access : Access) (lineBytes : UInt64) : Checked UInt64 := do
  require (lineBytes ≠ 0) .overflow
  return blockAddress lineBytes access.addr

theorem block_eq_ok {access : Access} {lineBytes : UInt64} (h : lineBytes ≠ 0) :
    access.block lineBytes = .ok (blockAddress lineBytes access.addr) := by
  simp [block, require, h, bind, Except.bind, pure, Except.pure]

end Access

end Residency
