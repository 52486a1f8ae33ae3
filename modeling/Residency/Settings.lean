import Residency.Binary64
import Residency.Rejection

/-!
Settings of a cache and its predictors, their defaults, and the rules they have to meet.

A section that is not selected is not checked. The rules that concern a structure alone (the width
of a counter, the number of sets of a table) are checked again where the structure is built.
-/

namespace Residency

/-- How a set chooses the line to give up. -/
inductive PolicyKind where
  /-- The line not used for longest. -/
  | lru
  /-- Any line, by a generator. -/
  | random
  /-- The line with the highest re-reference value, trained by the oracle. -/
  | hawkeye
deriving DecidableEq, Repr

instance : Inhabited PolicyKind := ⟨.lru⟩

/-- Which prefetcher watches the accesses. -/
inductive PrefetcherKind where
  | none
  /-- The blocks that follow the accessed one. -/
  | nextLine
  /-- The dead-block correlating prefetcher. -/
  | dbcp
deriving DecidableEq, Repr

instance : Inhabited PrefetcherKind := ⟨.none⟩

/-! ## Default values -/

namespace Defaults

def sizeBytes : UInt64 := 32768
def lineBytes : UInt64 := 64
def ways : UInt64 := 8
def prefetchDegree : UInt64 := 1
def rrpvBits : UInt32 := 3
def historyMultiplier : UInt64 := 8
def historyTableSize : UInt64 := 256
def tableEntries : UInt64 := 256
def tableAssoc : UInt64 := 4
def confidenceBits : UInt32 := 3
def initialConfidence : UInt32 := 4
def confidenceThreshold : UInt32 := 50
def signatureBits : UInt32 := 12

end Defaults

/-! ## Sections -/

/-- Settings of the oracle-trained policy. -/
structure HawkeyeSettings where
  /-- The width of a line's re-reference value. -/
  rrpvBits : UInt32 := Defaults.rrpvBits
  /-- The length of the oracle's history in multiples of the ways. -/
  historyMultiplier : UInt64 := Defaults.historyMultiplier
deriving DecidableEq, Repr

/-- Settings of the dead-block correlating prefetcher. -/
structure DbcpSettings where
  historyTableSize : UInt64 := Defaults.historyTableSize
  tableEntries : UInt64 := Defaults.tableEntries
  tableAssoc : UInt64 := Defaults.tableAssoc
  confidenceBits : UInt32 := Defaults.confidenceBits
  initialConfidence : UInt32 := Defaults.initialConfidence
  /-- In percent of full scale. -/
  confidenceThreshold : UInt32 := Defaults.confidenceThreshold
  signatureBits : UInt32 := Defaults.signatureBits
deriving DecidableEq, Repr

/-- Settings of a cache. -/
structure CacheSettings where
  enabled : Bool := false
  sizeBytes : UInt64 := Defaults.sizeBytes
  lineBytes : UInt64 := Defaults.lineBytes
  ways : UInt64 := Defaults.ways
  policy : PolicyKind := default
  prefetcher : PrefetcherKind := default
  prefetchDegree : UInt64 := Defaults.prefetchDegree
  hawkeye : HawkeyeSettings := {}
  dbcp : DbcpSettings := {}
deriving DecidableEq, Repr

/-- The settings of a whole document. -/
structure Settings where
  cache : CacheSettings := {}
deriving DecidableEq, Repr

/-! ## Rules -/

instance decidableIsPowerOfTwo (n : Nat) : Decidable n.isPowerOfTwo :=
  decidable_of_iff (n = 1 <<< n.log2)
    ⟨fun h => ⟨n.log2, h.trans (Nat.one_shiftLeft _)⟩,
      fun ⟨k, h⟩ => by rw [h, Nat.log2_two_pow, Nat.one_shiftLeft]⟩

namespace HawkeyeSettings

/-- The rules of the section. -/
def check (s : HawkeyeSettings) : Except Rejection Unit := do
  refuseIf (s.rrpvBits = 0) .zeroCounterWidth
  refuseIf (s.historyMultiplier = 0) (.zeroSize .historyMultiplier)

end HawkeyeSettings

namespace DbcpSettings

/-- The confidence required to act, as a fraction of full scale. -/
def threshold (s : DbcpSettings) : Binary64 :=
  .ofRatio s.confidenceThreshold.toNat 100

/-- The rules of the section. -/
def check (s : DbcpSettings) : Except Rejection Unit := do
  refuseIf (s.historyTableSize = 0) (.zeroSize .historyTableSize)
  refuseIf (s.tableEntries = 0) (.zeroSize .tableEntries)
  refuseIf (s.tableAssoc = 0) (.zeroSize .tableAssoc)
  refuseIf (s.tableEntries % s.tableAssoc ≠ 0)
    (.unevenSets s.tableEntries.toNat s.tableAssoc.toNat)
  refuseIf (s.signatureBits = 0) (.zeroSize .signatureBits)
  refuseIf (64 < s.signatureBits) (.counterTooWide s.signatureBits.toNat 64)
  refuseIf (100 < s.confidenceThreshold)
    (.percentOutOfRange .confidenceThreshold s.confidenceThreshold.toNat)

end DbcpSettings

namespace CacheSettings

/-- The number of sets that the sizes give, rounded down; none if a divisor is zero. -/
def numSets (s : CacheSettings) : Nat :=
  s.sizeBytes.toNat / s.lineBytes.toNat / s.ways.toNat

/-- The rules of the geometry and of the selected sections. -/
def check (s : CacheSettings) : Except Rejection Unit := do
  refuseIf (¬ s.lineBytes.toNat.isPowerOfTwo) (.notPowerOfTwo .lineBytes s.lineBytes.toNat)
  refuseIf (s.ways = 0) (.zeroSize .ways)
  refuseIf (s.numSets = 0) (.zeroSize .sets)
  if s.policy = .hawkeye then
    s.hawkeye.check
  if s.prefetcher = .dbcp then
    s.dbcp.check

end CacheSettings

/-- The rules of every section. -/
def Settings.check (s : Settings) : Except Rejection Unit :=
  s.cache.check

end Residency
