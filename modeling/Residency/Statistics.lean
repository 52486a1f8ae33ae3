import Residency.Binary64
import Residency.Fault

/-!
What a cache has observed, as numbers, as one line of JSON and as a report.
-/

namespace Residency

/-- The event counters of a cache. -/
structure Statistics where
  /-- Demand accesses. -/
  accesses : Nat := 0
  hits : Nat := 0
  misses : Nat := 0
  /-- Lines filled, on demand or by prefetch. -/
  fills : Nat := 0
  /-- Valid lines displaced by a fill. -/
  evictions : Nat := 0
  /-- Lines dropped on request. -/
  invalidations : Nat := 0
  /-- Blocks predicted dead, resident or not. -/
  deadPredictions : Nat := 0
  /-- Blocks that the prefetcher asked for. -/
  prefetchesIssued : Nat := 0
  /-- Blocks asked for that were not resident and have been filled. -/
  prefetchFills : Nat := 0
deriving DecidableEq, Repr

namespace Statistics

/-- Every counter fits in a word. -/
def Fits (s : Statistics) : Prop :=
  FitsWord s.accesses ∧ FitsWord s.hits ∧ FitsWord s.misses ∧ FitsWord s.fills ∧
    FitsWord s.evictions ∧ FitsWord s.invalidations ∧ FitsWord s.deadPredictions ∧
    FitsWord s.prefetchesIssued ∧ FitsWord s.prefetchFills

instance (s : Statistics) : Decidable s.Fits := by
  unfold Fits
  infer_instance

/-- The fraction of accesses that hit; zero before the first. -/
def hitRate (s : Statistics) : Binary64 :=
  if s.accesses = 0 then .ofNat 0 else (Binary64.ofNat s.hits).div (.ofNat s.accesses)

/-- The counters with their names, in order. -/
def named (s : Statistics) : List (String × Nat) :=
  [("accesses", s.accesses), ("hits", s.hits), ("misses", s.misses), ("fills", s.fills),
    ("evictions", s.evictions), ("invalidations", s.invalidations),
    ("dead_predictions", s.deadPredictions), ("prefetches_issued", s.prefetchesIssued),
    ("prefetch_fills", s.prefetchFills)]

/-- The counters as a JSON object without blanks. -/
def toJson (s : Statistics) : String :=
  "\x7b" ++ ",".intercalate (s.named.map fun (name, n) => s!"\"{name}\":{n}") ++ "\x7d"

/-- The report: a heading, then one line for each counter; the hits also in percent. -/
def report (s : Statistics) : String :=
  let percent := (s.hitRate.mul (.ofNat 100)).toFixed 2
  "\n".intercalate
    ["CACHE",
      s!"  accesses               {s.accesses}",
      s!"  hits                   {s.hits} ({percent}%)",
      s!"  misses                 {s.misses}",
      s!"  fills                  {s.fills}",
      s!"  evictions              {s.evictions}",
      s!"  invalidations          {s.invalidations}",
      s!"  prefetch.dead          {s.deadPredictions}",
      s!"  prefetch.issued        {s.prefetchesIssued}",
      s!"  prefetch.filled        {s.prefetchFills}"]

end Statistics

end Residency
