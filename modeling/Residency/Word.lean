import Residency.Fault

/-!
Sixty-four-bit words: the mixer that spreads block addresses over untagged tables, and the
combiner that folds an access history into a signature of fixed width.
-/

namespace Residency

/-- The finaliser of the splitmix generator: three shifted exclusive-ors around two
multiplications by odd constants. -/
def mix (x : UInt64) : UInt64 :=
  let x := (x ^^^ (x >>> 30)) * 0xbf58476d1ce4e5b9
  let x := (x ^^^ (x >>> 27)) * 0x94d049bb133111eb
  x ^^^ (x >>> 31)

/-- The slot of an untagged table of `size` slots that `key` falls on. -/
def hashIndex (key : UInt64) (size : Nat) : Checked Nat := do
  require (size ≠ 0) .zeroDivisor
  return (mix key).toNat % size

theorem hashIndex_eq_ok {key : UInt64} {size : Nat} (h : size ≠ 0) :
    hashIndex key size = .ok ((mix key).toNat % size) := by
  simp [hashIndex, require, h, bind, Except.bind, pure, Except.pure]

/-- The low `bits` bits of a word; all of it from 64 bits on. -/
def lowBits (bits : Nat) (x : UInt64) : UInt64 :=
  .ofNat (x.toNat % (1 <<< min bits 64))

theorem toNat_lowBits (bits : Nat) (x : UInt64) :
    (lowBits bits x).toNat = x.toNat % (1 <<< min bits 64) := by
  have h : x.toNat % (1 <<< min bits 64) < UInt64.size :=
    Nat.lt_of_le_of_lt (Nat.mod_le _ _) x.toNat_lt
  rw [lowBits, UInt64.toNat_ofNat', Nat.mod_eq_of_lt h]

/-- Folds `b` into the signature `a` of `bits` bits: addition modulo a power of two. -/
def combine (bits : Nat) (a b : UInt64) : UInt64 :=
  lowBits bits (a + b)

/-- The start of the block that holds `addr`, for a block size that is a power of two. -/
def blockAddress (lineBytes addr : UInt64) : UInt64 :=
  addr &&& ~~~(lineBytes - 1)

end Residency
