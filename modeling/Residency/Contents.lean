import Residency.Geometry
import Residency.Prefetch.Dbcp
import Residency.Replacement.Policy
import Residency.Statistics

/-!
The contents of a cache: the tag and validity of every line, the replacement state, and the
statistics of what has come and gone.
-/

namespace Residency

/-- One line of a cache. A secure and a non-secure copy of a block are different lines. -/
structure Line where
  tag : UInt64 := 0
  secure : Bool := false
  valid : Bool := false
deriving DecidableEq, Repr

/-- The contents of a cache whose lines are given up by a policy with state `σ`. -/
structure Contents (σ : Type) where
  geometry : Geometry
  lines : Slots Line
  policy : σ
  statistics : Statistics

namespace Contents

variable {σ : Type}

/-- Nothing is resident. -/
def empty (geometry : Geometry) (policy : σ) : Contents σ :=
  ⟨geometry, .uniform geometry.sets geometry.ways {}, policy, {}⟩

/-- The lines in which an address may lie. -/
def candidates (c : Contents σ) (addr : UInt64) : List LineId :=
  LineId.ofSet (c.geometry.setOf addr) c.geometry.ways

/-- The line that holds an address of a security domain. -/
def find? (c : Contents σ) (addr : UInt64) (secure : Bool) : Checked (Option LineId) :=
  firstWhere
    (fun id => do
      let line ← c.lines.get id
      return line.valid && line.tag == c.geometry.tagOf addr && line.secure == secure)
    (c.candidates addr)

/-- Counts events; the counters are words. -/
def count (c : Contents σ) (f : Statistics → Statistics) : Checked (Contents σ) := do
  require (f c.statistics).Fits .exhausted
  return { c with statistics := f c.statistics }

open ReplacementPolicy

variable [ReplacementPolicy σ]

/-- Tells the policy that a line is accessed. -/
def use (c : Contents σ) (id : LineId) : Checked (Contents σ) := do
  return { c with policy := ← touch c.policy id }

/-- Fills a line with the block of an address, and answers the block that it displaces. -/
def install (c : Contents σ) (addr : UInt64) (secure : Bool) :
    Checked (Option UInt64 × Contents σ) := do
  let set := c.geometry.setOf addr
  let tag := c.geometry.tagOf addr
  let (choice, policy) ← victim c.policy (c.candidates addr)
  let id := choice.getD ⟨set, 0⟩
  let old ← c.lines.get id
  let evicted ← if old.valid then some <$> c.geometry.rebuild set old.tag else pure none
  let lines ← c.lines.set id ⟨tag, secure, true⟩
  let policy ← fill policy id tag
  let c ← count { c with lines, policy } fun s =>
    { s with evictions := s.evictions + evicted.isSome.toNat, fills := s.fills + 1 }
  return (evicted, c)

/-- Drops a line. -/
def dropLine (c : Contents σ) (id : LineId) : Checked (Contents σ) := do
  let lines ← c.lines.modify id fun line => { line with valid := false }
  let policy ← invalidate c.policy id
  count { c with lines, policy } fun s => { s with invalidations := s.invalidations + 1 }

/-- Drops the block of an address; whether it was resident. -/
def dropBlock (c : Contents σ) (addr : UInt64) (secure : Bool) :
    Checked (Bool × Contents σ) := do
  match ← c.find? addr secure with
  | none => return (false, c)
  | some id => return (true, ← c.dropLine id)

/-- Only a prefetcher drops blocks in this way, so every request is a dead-block prediction. -/
instance : BlockInvalidator (Contents σ) where
  dropDead c block secure := do
    let c ← c.count fun s => { s with deadPredictions := s.deadPredictions + 1 }
    c.dropBlock block secure

/-- Serves a demand access: whether it hit, and the block that had to leave. -/
def serve (c : Contents σ) (access : Access) : Checked (Bool × Option UInt64 × Contents σ) := do
  let c ← c.count fun s => { s with accesses := s.accesses + 1 }
  match ← c.find? access.addr access.secure with
  | some id =>
    let c ← c.count fun s => { s with hits := s.hits + 1 }
    return (true, none, ← c.use id)
  | none =>
    let c ← c.count fun s => { s with misses := s.misses + 1 }
    let (evicted, c) ← c.install access.addr access.secure
    return (false, evicted, c)

/-- Fills a prefetched block unless it is resident. A resident one is not touched. -/
def prefetch (secure : Bool) (c : Contents σ) (target : UInt64) : Checked (Contents σ) := do
  match ← c.find? target secure with
  | some _ => return c
  | none =>
    let (_, c) ← c.install target secure
    c.count fun s => { s with prefetchFills := s.prefetchFills + 1 }

/-- Fills the prefetched blocks in order. -/
def prefetchAll (c : Contents σ) (secure : Bool) (targets : List UInt64) :
    Checked (Contents σ) := do
  let c ← c.count fun s => { s with prefetchesIssued := s.prefetchesIssued + targets.length }
  targets.foldlM (prefetch secure) c

/-- Drops a line if it holds a block. -/
def vacate (c : Contents σ) (id : LineId) : Checked (Contents σ) := do
  if (← c.lines.get id).valid then c.dropLine id else return c

/-- Drops every line that holds a block, in set-major order. -/
def flush (c : Contents σ) : Checked (Contents σ) :=
  ((List.range c.geometry.sets).flatMap fun set => LineId.ofSet set c.geometry.ways).foldlM
    vacate c

end Contents

end Residency
