import Residency.Access
import Residency.Counter
import Residency.Prefetch.History
import Residency.Replacement.Lru
import Residency.TaggedTable

/-!
The dead-block correlating prefetcher.

A context is a block with the program counter that accesses it. The dead-block table remembers for
each context the signature that the access computed, and how reliably it has recurred. A signature
that recurs with enough confidence means that the block has seen its last use: the block is
dropped and the one behind it is prefetched.
-/

namespace Residency

/-- Something that can drop a block when it is predicted dead. -/
class BlockInvalidator (τ : Type) where
  /-- Drops a block of a security domain; whether it was there. -/
  dropDead : τ → UInt64 → Bool → Checked (Bool × τ)

/-- What the dead-block table knows of a context. -/
structure DeadBlockEntry where
  /-- The signature expected at the next access. -/
  signature : UInt64
  /-- How reliably the signature has recurred. -/
  confidence : Counter
  /-- The block that the last prediction prefetched. -/
  prediction : UInt64
deriving DecidableEq, Repr

namespace DeadBlockEntry

/-- An entry that expects nothing yet. -/
def blank (confidence : Counter) : DeadBlockEntry :=
  ⟨0, confidence, 0⟩

/-- Whether the entry expected a signature. The zero signature is never expected. -/
def expects (entry : DeadBlockEntry) (signature : UInt64) : Bool :=
  entry.signature == signature && signature != 0

/-- Whether the confidence lies below a threshold. -/
def doubts (entry : DeadBlockEntry) (threshold : Binary64) : Bool :=
  entry.confidence.saturation < threshold

/-- An expected signature raises the confidence. Any other lowers it, and replaces the signature
once the confidence is below the threshold. -/
def train (entry : DeadBlockEntry) (signature : UInt64) (threshold : Binary64) : DeadBlockEntry :=
  if entry.expects signature then
    { entry with confidence := entry.confidence.increment }
  else
    let lowered := { entry with confidence := entry.confidence.decrement }
    if lowered.doubts threshold then { lowered with signature } else lowered

end DeadBlockEntry

/-- What the prefetcher has done. -/
structure DbcpStatistics where
  tableHits : Nat := 0
  tableMisses : Nat := 0
  signatureMatches : Nat := 0
  signatureOverwrites : Nat := 0
  deadPredictions : Nat := 0
deriving DecidableEq, Repr

/-- Every counter fits in a word. -/
def DbcpStatistics.Fits (s : DbcpStatistics) : Prop :=
  FitsWord s.tableHits ∧ FitsWord s.tableMisses ∧ FitsWord s.signatureMatches ∧
    FitsWord s.signatureOverwrites ∧ FitsWord s.deadPredictions

instance (s : DbcpStatistics) : Decidable s.Fits := by
  unfold DbcpStatistics.Fits
  infer_instance

/-- The state of the prefetcher. -/
structure Dbcp where
  lineBytes : UInt64
  signatureBits : Nat
  threshold : Binary64
  /-- Untagged, indexed by a hash of the block. -/
  history : Array HistoryEntry
  table : TaggedTable Lru DeadBlockEntry
  initialConfidence : Counter
  statistics : DbcpStatistics

/-- What an access with a program counter looks up and computes. -/
structure Context where
  block : UInt64
  secure : Bool
  /-- The slot of the block's history. -/
  slot : Nat
  /-- The index into the dead-block table. -/
  index : UInt64
  signature : UInt64
deriving DecidableEq, Repr

namespace Dbcp

/-- A prefetcher for blocks of `lineBytes` bytes. -/
def new (lineBytes : UInt64) (settings : DbcpSettings) : Except Rejection Dbcp := do
  refuseIf (¬ lineBytes.toNat.isPowerOfTwo) (.notPowerOfTwo .lineBytes lineBytes.toNat)
  settings.check
  let confidence ← Counter.new settings.confidenceBits.toNat settings.initialConfidence.toNat
  let entries := settings.tableEntries.toNat
  let assoc := settings.tableAssoc.toNat
  let policy ← Lru.new (entries / assoc) assoc
  let table ← TaggedTable.new entries assoc (DeadBlockEntry.blank confidence) policy
  return {
    lineBytes
    signatureBits := settings.signatureBits.toNat
    threshold := settings.threshold
    history := Array.replicate settings.historyTableSize.toNat .empty
    table
    initialConfidence := confidence
    statistics := {} }

/-- The slot of a block's history. -/
def historySlot (p : Dbcp) (block : UInt64) : Checked Nat :=
  hashIndex block p.history.size

/-- The history at a slot. -/
def historyAt (p : Dbcp) (slot : Nat) : Checked HistoryEntry :=
  match p.history[slot]? with
  | some entry => return entry
  | none => throw .outOfRange

/-- The history of a block. -/
def historyOf (p : Dbcp) (block : UInt64) : Checked HistoryEntry := do
  p.historyAt (← p.historySlot block)

/-- The table index of an access to a block whose history has the given signature. -/
def indexFrom (p : Dbcp) (signature block pc : UInt64) : UInt64 :=
  block ^^^ combine p.signatureBits signature pc

/-- The table index of an access to a block at present. -/
def index (p : Dbcp) (block pc : UInt64) : Checked UInt64 := do
  return p.indexFrom (← p.historyOf block).signature block pc

/-- The table entry of an index and a security domain. -/
def entry? (p : Dbcp) (index : UInt64) (secure : Bool) : Checked (Option DeadBlockEntry) := do
  match ← p.table.find? index secure with
  | none => return none
  | some id => return some (← p.table.entry id)

/-- The context of an access. The history is read and not written: it changes only when its block
dies. -/
def context (p : Dbcp) (access : Access) (pc : UInt64) : Checked Context := do
  let block ← access.block p.lineBytes
  let slot ← p.historySlot block
  let past ← p.historyAt slot
  return {
    block
    secure := access.secure
    slot
    index := p.indexFrom past.signature block pc
    signature := (past.update p.signatureBits block pc).signature }

/-- Replaces the statistics, whose counters are words. -/
def withStatistics (p : Dbcp) (statistics : DbcpStatistics) : Checked Dbcp := do
  require statistics.Fits .exhausted
  return { p with statistics }

/-- Opens an entry for a context that the table does not know. -/
def enroll (p : Dbcp) (c : Context) : Checked Dbcp := do
  let p ← p.withStatistics { p.statistics with tableMisses := p.statistics.tableMisses + 1 }
  let (id, table) ← p.table.makeRoom c.index
  let table ← table.put c.index c.secure id (.blank p.initialConfidence)
  return { p with table }

/-- Trains the entry of a known context; whether the block is predicted dead. -/
def train (p : Dbcp) (c : Context) (id : LineId) : Checked (Bool × Dbcp) := do
  let table ← p.table.use id
  let entry ← table.entry id
  let trained := entry.train c.signature p.threshold
  let expected := entry.expects c.signature
  let doubtful := trained.doubts p.threshold
  let dead := expected && !doubtful
  let s := p.statistics
  let p ← p.withStatistics { s with
    tableHits := s.tableHits + 1
    signatureMatches := s.signatureMatches + expected.toNat
    signatureOverwrites := s.signatureOverwrites + (!expected && doubtful).toNat
    deadPredictions := s.deadPredictions + dead.toNat }
  let trained := if dead then { trained with prediction := c.block + p.lineBytes } else trained
  return (dead, { p with table := ← table.setEntry id trained })

/-- Ends the life of a block. -/
def bury (p : Dbcp) (slot : Nat) : Dbcp :=
  { p with history := p.history.setIfInBounds slot .empty }

/-- Trains on an access and answers the blocks to prefetch. An access without a program counter is
ignored. A block that is predicted dead is dropped, and the block behind it prefetched. -/
def observe {τ : Type} [BlockInvalidator τ] (p : Dbcp) (access : Access) (cache : τ) :
    Checked (List UInt64 × Dbcp × τ) := do
  match access.pc with
  | none => return ([], p, cache)
  | some pc =>
    let c ← p.context access pc
    match ← p.table.find? c.index c.secure with
    | none => return ([], ← p.enroll c, cache)
    | some id =>
      let (dead, p) ← p.train c id
      if dead then
        let (_, cache) ← BlockInvalidator.dropDead cache c.block c.secure
        return ([c.block + p.lineBytes], p.bury c.slot, cache)
      else
        return ([], p, cache)

end Dbcp

end Residency
