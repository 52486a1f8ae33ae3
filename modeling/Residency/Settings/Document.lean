import Residency.Document.Record
import Residency.Settings

/-!
The document form of the settings: the names of the fields in the order in which a list gives
them, the spellings of the choices with their aliases, and what a field is taken to be that is left
out.

A section that is left out as a whole is the default one. A field that is left out of a section has
a default of its own, which is not looked up in the default section.
-/

namespace Residency

open Document

/-- The spellings of the policies. -/
def PolicyKind.names : List (String × PolicyKind) :=
  [("Lru", .lru), ("LRU", .lru), ("Random", .random), ("Hawkeye", .hawkeye),
    ("HawkEye", .hawkeye)]

/-- The spellings of the prefetchers. -/
def PrefetcherKind.names : List (String × PrefetcherKind) :=
  [("None", .none), ("NextLine", .nextLine), ("Dbcp", .dbcp), ("DBCP", .dbcp)]

/-- The fields of the oracle-trained policy. -/
def HawkeyeSettings.fields : List (Member HawkeyeSettings) :=
  [.of "rrpv_bits" width fun s n => { s with rrpvBits := n },
    .of "history_multiplier" size fun s n => { s with historyMultiplier := n }]

/-- A section that gives no field. -/
def HawkeyeSettings.unwritten : HawkeyeSettings where
  rrpvBits := Defaults.rrpvBits
  historyMultiplier := Defaults.historyMultiplier

/-- The fields of the dead-block correlating prefetcher. -/
def DbcpSettings.fields : List (Member DbcpSettings) :=
  [.of "history_table_size" size fun s n => { s with historyTableSize := n },
    .of "table_entries" size fun s n => { s with tableEntries := n },
    .of "table_assoc" size fun s n => { s with tableAssoc := n },
    .of "confidence_bits" width fun s n => { s with confidenceBits := n },
    .of "initial_confidence" width fun s n => { s with initialConfidence := n },
    .of "confidence_threshold" width fun s n => { s with confidenceThreshold := n },
    .of "signature_bits" width fun s n => { s with signatureBits := n }]

/-- A section that gives no field. -/
def DbcpSettings.unwritten : DbcpSettings where
  historyTableSize := Defaults.historyTableSize
  tableEntries := Defaults.tableEntries
  tableAssoc := Defaults.tableAssoc
  confidenceBits := Defaults.confidenceBits
  initialConfidence := Defaults.initialConfidence
  confidenceThreshold := Defaults.confidenceThreshold
  signatureBits := Defaults.signatureBits

/-- The fields of a cache. -/
def CacheSettings.fields : List (Member CacheSettings) :=
  [.of "enabled" flag fun s b => { s with enabled := b },
    .of "size_bytes" size fun s n => { s with sizeBytes := n },
    .of "line_bytes" size fun s n => { s with lineBytes := n },
    .of "ways" size fun s n => { s with ways := n },
    .of "policy" (choice PolicyKind.names) fun s k => { s with policy := k },
    .of "prefetcher" (choice PrefetcherKind.names) fun s k => { s with prefetcher := k },
    .of "prefetch_degree" size fun s n => { s with prefetchDegree := n },
    .of "hawkeye" (record HawkeyeSettings.fields .unwritten) fun s h => { s with hawkeye := h },
    .of "dbcp" (record DbcpSettings.fields .unwritten) fun s d => { s with dbcp := d }]

/-- A section that gives no field. -/
def CacheSettings.unwritten : CacheSettings where
  enabled := default
  sizeBytes := Defaults.sizeBytes
  lineBytes := Defaults.lineBytes
  ways := Defaults.ways
  policy := default
  prefetcher := default
  prefetchDegree := Defaults.prefetchDegree
  hawkeye := {}
  dbcp := {}

/-- The fields of a document. -/
def Settings.fields : List (Member Settings) :=
  [.of "cache" (record CacheSettings.fields .unwritten) fun s c => { s with cache := c }]

/-- A document that gives no field. -/
def Settings.unwritten : Settings where
  cache := {}

/-- Reads a document and checks what it says. The rules are consulted only when the whole text
has been read. -/
def Settings.ofDocument (text : String) : Except Rejection Settings := do
  let settings ← (readAll (record Settings.fields .unwritten) text).mapError .unreadable
  settings.check
  return settings

end Residency
