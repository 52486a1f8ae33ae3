import Residency.Counter
import Residency.Oracle
import Residency.Replacement.Policy
import Residency.Settings

/-!
Oracle-trained replacement.

Every line holds a re-reference value. A touch asks the oracle of the line's set whether optimal
replacement would have kept the line, and pulls the value down or pushes it up. A filled line
starts at the maximum. The line with the highest value is given up, and the others age.

The oracle is keyed by way, and a fill or an invalidation forgets the key, so every arc belongs to
one block.
-/

namespace Residency

/-- The replacement state of one slot. -/
structure HawkeyeLine where
  valid : Bool
  rrpv : Counter
  /-- The tag of the last fill. It takes no part in any decision. -/
  tag : UInt64

/-- The state of the oracle-trained policy. -/
structure Hawkeye where
  lines : Slots HawkeyeLine
  /-- One oracle per set, keyed by way. -/
  oracles : Array (Oracle Nat)

namespace Hawkeye

/-- A policy for `sets` sets of `ways` ways, all vacant. -/
def new (sets ways : Nat) (settings : HawkeyeSettings) : Except Rejection Hawkeye := do
  settings.check
  refuseIf (sets = 0) (.zeroSize .sets)
  let rrpv ← Counter.new settings.rrpvBits.toNat 0
  let oracle ← Oracle.new ways settings.historyMultiplier.toNat
  refuseIf (¬ FitsWord (sets * ways)) .tooLarge
  return ⟨.uniform sets ways ⟨false, rrpv, 0⟩, Array.replicate sets oracle⟩

/-- The largest re-reference value of a line. -/
def rrpvMax (p : Hawkeye) : Nat :=
  match p.lines.toList with
  | line :: _ => line.rrpv.max
  | [] => 0

/-- The oracle of a set. -/
def oracle (p : Hawkeye) (set : Nat) : Checked (Oracle Nat) :=
  match p.oracles[set]? with
  | some oracle => return oracle
  | none => throw .outOfRange

/-- Replaces the oracle of a set. -/
def setOracle (p : Hawkeye) (set : Nat) (oracle : Oracle Nat) : Hawkeye :=
  { p with oracles := p.oracles.setIfInBounds set oracle }

/-- Rewrites the state of a slot. -/
def modifyLine (p : Hawkeye) (line : LineId) (f : HawkeyeLine → HawkeyeLine) :
    Checked Hawkeye := do
  return { p with lines := ← p.lines.modify line f }

/-- Trains a line on the oracle's verdict and records the access. -/
def touch (p : Hawkeye) (line : LineId) : Checked Hawkeye := do
  let _ ← p.lines.get line
  let home := p.lines.home line
  let oracle ← p.oracle home.set
  let friendly := (← oracle.predict home.way).isFriendly
  let p := p.setOracle home.set (← oracle.insert home.way friendly)
  p.modifyLine line fun state =>
    { state with rrpv := if friendly then state.rrpv.decrement else state.rrpv.increment }

/-- Forgets the past of a line. -/
def forget (p : Hawkeye) (line : LineId) : Checked Hawkeye := do
  let _ ← p.lines.get line
  let oracle ← p.oracle line.set
  return p.setOracle line.set (oracle.remove (p.lines.home line).way)

/-- A filled line starts at the maximum, without a past. -/
def fill (p : Hawkeye) (line : LineId) (tag : UInt64) : Checked Hawkeye := do
  (← p.forget line).modifyLine line fun state =>
    { valid := true, rrpv := state.rrpv.saturate, tag }

/-- An invalidated line loses its past and keeps its value. -/
def invalidate (p : Hawkeye) (line : LineId) : Checked Hawkeye := do
  (← p.forget line).modifyLine line fun state => { state with valid := false }

/-- The first of the candidates with the highest value. -/
def highest : List (LineId × Counter) → Option (LineId × Counter)
  | [] => none
  | first :: rest =>
    some (rest.foldl (fun best next => if best.2.value < next.2.value then next else best) first)

/-- The first candidate at its maximum, or else the first with the highest value. -/
def select (candidates : List (LineId × Counter)) : Option LineId :=
  match candidates.find? (·.2.isSaturated) with
  | some (line, _) => some line
  | none => (highest candidates).map (·.1)

/-- Pushes the value of every candidate but one up. -/
def age (p : Hawkeye) (spared : LineId) (candidates : List LineId) : Checked Hawkeye :=
  candidates.foldlM
    (fun p line =>
      if line = spared then return p
      else p.modifyLine line fun state => { state with rrpv := state.rrpv.increment })
    p

/-- The first vacant candidate; if there is none, the candidate with the highest value, and the
others age. -/
def victim (p : Hawkeye) (candidates : List LineId) : Checked (Option LineId × Hawkeye) := do
  match ← firstWhere (fun line => return !(← p.lines.get line).valid) candidates with
  | some line => return (some line, p)
  | none =>
    let states ← candidates.mapM fun line => return (line, (← p.lines.get line).rrpv)
    match select states with
    | none => return (none, p)
    | some line => return (some line, ← p.age line candidates)

instance : ReplacementPolicy Hawkeye where
  touch := touch
  fill := fill
  invalidate := invalidate
  victim := victim

end Hawkeye

end Residency
