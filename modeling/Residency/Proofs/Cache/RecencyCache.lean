import Mathlib.Logic.Function.Basic
import Residency.Cache.Request
import Residency.Proofs.Geometry

/-!
# The recency-list cache

A cache that has no lines and no policy, only a list of blocks for each set: the most recently used
first, and at most as many as there are ways. It is told what the prefetcher has asked for, and
knows whether that is the dead-block prefetcher.
-/

namespace Residency

/-- The block that has to leave a list before another one can be put in front. -/
def displaced (ways : Nat) (list : List (UInt64 × Bool)) : Option (UInt64 × Bool) :=
  if list.length = ways then list.getLast? else none

/-- A list with room for one more block: the last one is dropped if the list is full. -/
def room (ways : Nat) (list : List (UInt64 × Bool)) : List (UInt64 × Bool) :=
  if list.length = ways then list.dropLast else list

/-- The state of the recency-list cache. -/
structure RecencyCache where
  geometry : Geometry
  /-- The accessed block is dropped if the prefetcher asks for another one. -/
  dropsDead : Bool
  enabled : Bool
  lists : Nat → List (UInt64 × Bool)

/-- A reply as far as it does not depend on the ways: the line of a block only tells that the block
is resident. -/
def Reply.forget : Reply → Reply
  | .line found => .resident found.isSome
  | reply => reply

/-- What the prefetcher has asked for on an access. -/
def Reply.prefetches : Reply → List UInt64
  | .outcome served => served.prefetches
  | _ => []

namespace RecencyCache

/-- Nothing is resident. -/
def empty (geometry : Geometry) (dropsDead enabled : Bool) : RecencyCache :=
  ⟨geometry, dropsDead, enabled, fun _ => []⟩

/-- The block of an address, with a security domain. -/
def pairOf (m : RecencyCache) (addr : UInt64) (secure : Bool) : UInt64 × Bool :=
  (m.geometry.blockOf addr, secure)

/-- The list in which an address may lie. -/
def listOf (m : RecencyCache) (addr : UInt64) : List (UInt64 × Bool) :=
  m.lists (m.geometry.setOf addr)

/-- Another list takes the place of the one in which an address may lie. -/
def setList (m : RecencyCache) (addr : UInt64) (list : List (UInt64 × Bool)) : RecencyCache :=
  { m with lists := Function.update m.lists (m.geometry.setOf addr) list }

def holds (m : RecencyCache) (addr : UInt64) (secure : Bool) : Bool :=
  (m.listOf addr).contains (m.pairOf addr secure)

/-- Moves a block to the front. -/
def touch (m : RecencyCache) (addr : UInt64) (secure : Bool) : RecencyCache :=
  m.setList addr (m.pairOf addr secure :: (m.listOf addr).erase (m.pairOf addr secure))

/-- Puts a block in front. -/
def push (m : RecencyCache) (addr : UInt64) (secure : Bool) : RecencyCache :=
  m.setList addr (m.pairOf addr secure :: room m.geometry.ways (m.listOf addr))

def drop (m : RecencyCache) (addr : UInt64) (secure : Bool) : RecencyCache :=
  m.setList addr ((m.listOf addr).erase (m.pairOf addr secure))

/-- Puts a prefetched block in front unless it is resident. -/
def prefetch (secure : Bool) (m : RecencyCache) (target : UInt64) : RecencyCache :=
  if m.holds target secure then m else m.push target secure

/-- Serves a demand access: whether it hit, and the block that had to leave. -/
def serve (m : RecencyCache) (access : Access) : Bool × Option UInt64 × RecencyCache :=
  if m.holds access.addr access.secure then
    (true, none, m.touch access.addr access.secure)
  else
    (false, (displaced m.geometry.ways (m.listOf access.addr)).map (·.1),
      m.push access.addr access.secure)

/-- What the prefetcher does besides asking for blocks. -/
def observe (m : RecencyCache) (access : Access) (targets : List UInt64) : RecencyCache :=
  if m.dropsDead && !targets.isEmpty then m.drop access.addr access.secure else m

/-- Serves an access for which the prefetcher has asked for some blocks. -/
def access (m : RecencyCache) (access : Access) (targets : List UInt64) :
    Outcome × RecencyCache :=
  if m.enabled then
    let (hit, evicted, m) := m.serve access
    (⟨hit, evicted, targets⟩, targets.foldl (prefetch access.secure) (m.observe access targets))
  else
    ({}, m)

/-- Carries out a request. -/
def perform (m : RecencyCache) (targets : List UInt64) : Request → Reply × RecencyCache
  | .access access =>
    let (outcome, m) := m.access access targets
    (.outcome outcome, m)
  | .lineOf addr secure => (.resident (m.enabled && m.holds addr secure), m)
  | .contains addr secure => (.resident (m.enabled && m.holds addr secure), m)
  | .invalidate addr secure =>
    (.resident (m.enabled && m.holds addr secure), if m.enabled then m.drop addr secure else m)
  | .flush => (.done, if m.enabled then { m with lists := fun _ => [] } else m)
  | .enable enabled => (.done, { m with enabled })

/-- Carries out requests in order, each with what the prefetcher has asked for. -/
def run (m : RecencyCache) : List (Request × List UInt64) → List Reply × RecencyCache
  | [] => ([], m)
  | (request, targets) :: rest =>
    let (reply, m) := m.perform targets request
    let (replies, m) := m.run rest
    (reply :: replies, m)

theorem run_append_singleton (m : RecencyCache) (done : List (Request × List UInt64))
    (request : Request) (targets : List UInt64) :
    m.run (done ++ [(request, targets)]) =
      ((m.run done).1 ++ [((m.run done).2.perform targets request).1],
        ((m.run done).2.perform targets request).2) := by
  induction done generalizing m with
  | nil => rfl
  | cons step rest ih =>
    obtain ⟨first, asked⟩ := step
    simp only [List.cons_append, run, ih]

end RecencyCache

end Residency
