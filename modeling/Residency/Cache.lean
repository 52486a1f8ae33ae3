import Residency.Contents
import Residency.Prefetch.Choice
import Residency.Replacement.Choice

/-!
A cache that hosts a replacement policy and, if the settings ask for one, a prefetcher.

It models residency alone: there is no time, no dirty data and no level behind it.
-/

namespace Residency

/-- A cache. A disabled one is bypassed: every access misses, and nothing changes. -/
structure Cache where
  enabled : Bool
  contents : Contents Policy
  prefetcher : Option Prefetcher

/-- What a demand access came to. -/
structure Outcome where
  hit : Bool := false
  /-- The block displaced by the demand fill. -/
  evicted : Option UInt64 := none
  /-- The blocks that the prefetcher asked for. -/
  prefetches : List UInt64 := []
deriving DecidableEq, Repr

namespace Cache

/-- An empty cache of the given settings. -/
def new (settings : CacheSettings) : Except Rejection Cache := do
  settings.check
  let sets := settings.numSets
  let ways := settings.ways.toNat
  let policy ← Policy.new settings.policy sets ways settings.hawkeye
  let prefetcher ← Prefetcher.new settings
  let geometry ← Geometry.new settings.lineBytes.toNat sets ways
  refuseIf (¬ FitsWord (sets * ways)) .tooLarge
  return ⟨settings.enabled, .empty geometry policy, prefetcher⟩

/-- The number of sets. -/
def numSets (c : Cache) : Nat :=
  c.contents.geometry.sets

/-- The number of ways. -/
def ways (c : Cache) : Nat :=
  c.contents.geometry.ways

/-- What the cache has observed. -/
def statistics (c : Cache) : Statistics :=
  c.contents.statistics

/-- The set of an address. -/
def setOf (c : Cache) (addr : UInt64) : Nat :=
  c.contents.geometry.setOf addr

/-- The line that holds an address of a security domain. -/
def lineOf (c : Cache) (addr : UInt64) (secure : Bool := false) : Checked (Option LineId) :=
  if c.enabled then c.contents.find? addr secure else return none

/-- Whether an address of a security domain is resident. -/
def contains (c : Cache) (addr : UInt64) (secure : Bool := false) : Checked Bool := do
  return (← c.lineOf addr secure).isSome

/-- Lets the prefetcher watch an access; it may drop the accessed block. -/
def observe (c : Cache) (access : Access) : Checked (List UInt64 × Cache) :=
  match c.prefetcher with
  | none => return ([], c)
  | some prefetcher => do
    let (targets, prefetcher, contents) ← prefetcher.observe access c.contents
    return (targets, { c with contents, prefetcher := some prefetcher })

/-- Serves an access. The prefetcher sees it afterwards, and the blocks that it asks for are filled
without being touched. -/
def access (c : Cache) (access : Access) : Checked (Outcome × Cache) := do
  if c.enabled then
    let (hit, evicted, contents) ← c.contents.serve access
    let (prefetches, c) ← observe { c with contents } access
    let contents ← c.contents.prefetchAll access.secure prefetches
    return (⟨hit, evicted, prefetches⟩, { c with contents })
  else
    return ({}, c)

/-- Drops the block of an address from a security domain; whether it was resident. -/
def invalidate (c : Cache) (addr : UInt64) (secure : Bool := false) :
    Checked (Bool × Cache) := do
  if c.enabled then
    let block := blockAddress (.ofNat c.contents.geometry.lineBytes) addr
    let (dropped, contents) ← c.contents.dropBlock block secure
    return (dropped, { c with contents })
  else
    return (false, c)

/-- Drops everything. -/
def flush (c : Cache) : Checked Cache := do
  if c.enabled then
    return { c with contents := ← c.contents.flush }
  else
    return c

end Cache

end Residency
