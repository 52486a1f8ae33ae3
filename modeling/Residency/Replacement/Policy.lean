import Residency.Slot

/-!
What a replacement policy can be told and asked.

A policy hears when a line is touched, filled or invalidated, and names the line to give up among
some candidates. It keeps its own state per slot, and the structure it serves never looks into it.
-/

namespace Residency

/-- A replacement policy with state `σ`. -/
class ReplacementPolicy (σ : Type) where
  /-- A resident line is accessed. -/
  touch : σ → LineId → Checked σ
  /-- A line has been filled with the block of the given tag. -/
  fill : σ → LineId → UInt64 → Checked σ
  /-- A line holds nothing any more. -/
  invalidate : σ → LineId → Checked σ
  /-- The line to give up. -/
  victim : σ → List LineId → Checked (Option LineId × σ)

/-- One thing that a policy is told or asked. -/
inductive PolicyCall where
  | touch (line : LineId)
  | fill (line : LineId) (tag : UInt64)
  | invalidate (line : LineId)
  | victim (candidates : List LineId)
deriving DecidableEq, Repr

namespace ReplacementPolicy

variable {σ : Type} [ReplacementPolicy σ]

/-- Carries out a call. Only the question for a victim has an answer. -/
def perform (p : σ) : PolicyCall → Checked (Option LineId × σ)
  | .touch line => return (none, ← touch p line)
  | .fill line tag => return (none, ← fill p line tag)
  | .invalidate line => return (none, ← invalidate p line)
  | .victim candidates => victim p candidates

/-- Carries out calls in order, and answers the state that they lead to. -/
def run (p : σ) (calls : List PolicyCall) : Checked σ :=
  calls.foldlM (fun p call => return (← perform p call).2) p

end ReplacementPolicy

/-- The first candidate that holds nothing, according to one validity bit per slot. -/
def firstVacant (valid : Slots Bool) (candidates : List LineId) : Checked (Option LineId) :=
  firstWhere (fun line => return !(← valid.get line)) candidates

end Residency
