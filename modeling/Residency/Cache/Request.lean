import Residency.Cache

/-!
What can be asked of a cache, as data: requests, replies, and runs of requests.
-/

namespace Residency

/-- A request to a cache. -/
inductive Request where
  | access (access : Access)
  /-- Which line holds an address. -/
  | lineOf (addr : UInt64) (secure : Bool)
  /-- Whether an address is resident. -/
  | contains (addr : UInt64) (secure : Bool)
  | invalidate (addr : UInt64) (secure : Bool)
  | flush
  /-- Puts the cache into service or takes it out. -/
  | enable (enabled : Bool)
deriving DecidableEq, Repr

/-- The reply to a request. -/
inductive Reply where
  | outcome (outcome : Outcome)
  | line (line : Option LineId)
  | resident (resident : Bool)
  /-- The request has been carried out, and there is nothing to say about it. -/
  | done
deriving DecidableEq, Repr

namespace Cache

/-- Carries out a request. -/
def perform (c : Cache) : Request → Checked (Reply × Cache)
  | .access access => do
    let (outcome, c) ← c.access access
    return (.outcome outcome, c)
  | .lineOf addr secure => return (.line (← c.lineOf addr secure), c)
  | .contains addr secure => return (.resident (← c.contains addr secure), c)
  | .invalidate addr secure => do
    let (dropped, c) ← c.invalidate addr secure
    return (.resident dropped, c)
  | .flush => return (.done, ← c.flush)
  | .enable enabled => return (.done, { c with enabled })

/-- Carries out requests in order, and answers the replies with the cache that they lead to. -/
def run (c : Cache) : List Request → Checked (List Reply × Cache)
  | [] => return ([], c)
  | request :: rest => do
    let (reply, c) ← c.perform request
    let (replies, c) ← c.run rest
    return (reply :: replies, c)

theorem run_nil (c : Cache) : c.run [] = .ok ([], c) := rfl

/-- A run splits wherever its requests do. -/
theorem run_append (c : Cache) (first second : List Request) :
    c.run (first ++ second) = do
      let (replies, c) ← c.run first
      let (more, c) ← c.run second
      return (replies ++ more, c) := by
  induction first generalizing c with
  | nil =>
    cases h : c.run second <;> simp [run, h, bind, Except.bind, pure, Except.pure]
  | cons request rest ih =>
    rw [List.cons_append, run, run]
    cases c.perform request with
    | error fault => rfl
    | ok result =>
      simp only [ih, bind, Except.bind]
      cases result.2.run rest with
      | error fault => rfl
      | ok answered =>
        simp only [pure, Except.pure]
        cases answered.2.run second <;> rfl

end Cache

end Residency
