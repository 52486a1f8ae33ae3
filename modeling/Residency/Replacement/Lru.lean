import Residency.Rejection
import Residency.Replacement.Policy

/-!
Least recently used.

Each set keeps its ways in the order of their last use, the most recent first. A line that is
touched or filled moves to the front and an invalidated one to the end. Vacant lines are given up
before any other.
-/

namespace Residency

/-- The state of the least-recently-used policy. -/
structure Lru where
  /-- The ways of each set, the most recently used first. -/
  recency : Array (List Nat)
  valid : Slots Bool

namespace Lru

/-- A policy for `sets` sets of `ways` ways, all vacant. -/
def new (sets ways : Nat) : Except Rejection Lru := do
  refuseIf (¬ FitsWord (sets * ways)) .tooLarge
  return ⟨Array.ofFn fun _ : Fin sets => List.range ways, .uniform sets ways false⟩

/-- Rewrites the order of a set. -/
def reorder (p : Lru) (set : Nat) (f : List Nat → List Nat) : Checked Lru := do
  require (set < p.recency.size) .outOfRange
  return { p with recency := p.recency.modify set f }

/-- Moves a way to the front of its set. -/
def promote (p : Lru) (line : LineId) : Checked Lru :=
  p.reorder line.set fun order => line.way :: order.erase line.way

/-- Moves a way to the end of its set. -/
def demote (p : Lru) (line : LineId) : Checked Lru :=
  p.reorder line.set fun order => order.erase line.way ++ [line.way]

/-- How many ways of the set stand before this one; a way that is not among them, because it lies
beyond the geometry, counts as standing behind all others. -/
def depth (p : Lru) (line : LineId) : Checked Nat :=
  match p.recency[line.set]? with
  | none => throw .outOfRange
  | some order => return (order.idxOf? line.way).getD (UInt64.size - 1)

/-- The last of the deepest candidates. -/
def deepest : List (LineId × Nat) → Option (LineId × Nat)
  | [] => none
  | first :: rest =>
    some (rest.foldl (fun best next => if best.2 ≤ next.2 then next else best) first)

/-- The first vacant candidate, or else the one that lies deepest. -/
def victim (p : Lru) (candidates : List LineId) : Checked (Option LineId × Lru) := do
  match ← firstVacant p.valid candidates with
  | some line => return (some line, p)
  | none =>
    let depths ← candidates.mapM fun line => return (line, ← p.depth line)
    return ((deepest depths).map (·.1), p)

instance : ReplacementPolicy Lru where
  touch := promote
  fill p line _ := do promote { p with valid := ← p.valid.set line true } line
  invalidate p line := do demote { p with valid := ← p.valid.set line false } line
  victim := victim

end Lru

end Residency
