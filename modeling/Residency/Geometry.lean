import Residency.Fault
import Residency.Rejection

/-!
The geometry of a cache: how an address splits into a set and a tag, and how the two are put
together again.
-/

namespace Residency

/-- Line size, number of sets and number of ways. The lines of one way span less than the address
space. -/
structure Geometry where
  lineBytes : Nat
  sets : Nat
  ways : Nat
  lineBytes_pos : 0 < lineBytes
  sets_pos : 0 < sets
  span_lt : lineBytes * sets < UInt64.size

namespace Geometry

/-- The geometry of the given sizes. -/
def new (lineBytes sets ways : Nat) : Except Rejection Geometry :=
  if hl : lineBytes = 0 then
    .error (.zeroSize .lineBytes)
  else if hs : sets = 0 then
    .error (.zeroSize .sets)
  else if h : lineBytes * sets < UInt64.size then
    .ok ⟨lineBytes, sets, ways, Nat.pos_of_ne_zero hl, Nat.pos_of_ne_zero hs, h⟩
  else
    .error .tooLarge

/-- The set of an address. -/
def setOf (g : Geometry) (addr : UInt64) : Nat :=
  addr.toNat / g.lineBytes % g.sets

/-- The tag of an address. -/
def tagOf (g : Geometry) (addr : UInt64) : UInt64 :=
  .ofNat (addr.toNat / (g.lineBytes * g.sets))

theorem setOf_lt (g : Geometry) (addr : UInt64) : g.setOf addr < g.sets :=
  Nat.mod_lt _ g.sets_pos

theorem toNat_tagOf (g : Geometry) (addr : UInt64) :
    (g.tagOf addr).toNat = addr.toNat / (g.lineBytes * g.sets) := by
  have h : addr.toNat / (g.lineBytes * g.sets) < UInt64.size :=
    Nat.lt_of_le_of_lt (Nat.div_le_self _ _) addr.toNat_lt
  rw [tagOf, UInt64.toNat_ofNat', Nat.mod_eq_of_lt h]

/-- The block that a line of a set holds under a tag. -/
def rebuild (g : Geometry) (set : Nat) (tag : UInt64) : Checked UInt64 := do
  require (FitsWord (tag.toNat * g.sets)) .overflow
  require (FitsWord (tag.toNat * g.sets + set)) .overflow
  require (FitsWord ((tag.toNat * g.sets + set) * g.lineBytes)) .overflow
  return .ofNat ((tag.toNat * g.sets + set) * g.lineBytes)

end Geometry

end Residency
