import Residency.Rejection
import Residency.Replacement.Policy

/-!
Random replacement.

Vacant lines come first; among occupied ones a shift-register generator with a fixed start decides,
so that runs can be repeated.
-/

namespace Residency

/-- The state of the random policy. -/
structure RandomChoice where
  valid : Slots Bool
  /-- The state of the generator. -/
  seed : UInt64

namespace RandomChoice

/-- A policy for `sets` sets of `ways` ways, all vacant. -/
def new (sets ways : Nat) : Except Rejection RandomChoice := do
  refuseIf (¬ FitsWord (sets * ways)) .tooLarge
  return ⟨.uniform sets ways false, 123456789⟩

/-- The next state of the generator: three shifted exclusive-ors. -/
def advance (x : UInt64) : UInt64 :=
  let x := x ^^^ (x <<< 13)
  let x := x ^^^ (x >>> 7)
  x ^^^ (x <<< 17)

/-- The first vacant candidate, or else the one that the generator selects. -/
def victim (p : RandomChoice) (candidates : List LineId) :
    Checked (Option LineId × RandomChoice) := do
  if candidates = [] then
    return (none, p)
  else
    match ← firstVacant p.valid candidates with
    | some line => return (some line, p)
    | none =>
      let seed := advance p.seed
      return (candidates[seed.toNat % candidates.length]?, { p with seed })

instance : ReplacementPolicy RandomChoice where
  touch p _ := return p
  fill p line _ := return { p with valid := ← p.valid.set line true }
  invalidate p line := return { p with valid := ← p.valid.set line false }
  victim := victim

end RandomChoice

end Residency
