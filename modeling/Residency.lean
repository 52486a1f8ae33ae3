import Residency.Cache.Request
import Residency.Settings.Document
import Residency.Proofs.Delivers
import Residency.Proofs.Oracle.Chronicle
import Residency.Proofs.Oracle.Refinement
import Residency.Proofs.Slots
import Residency.Proofs.Replacement.Hawkeye
import Residency.Proofs.Replacement.Stamped
import Residency.Proofs.Accepted
import Residency.Proofs.Replacement.Verdicts
import Residency.Proofs.Geometry
import Residency.Proofs.Binary64
import Residency.Proofs.Replacement.Lru
import Residency.Proofs.Replacement.Random
import Residency.Proofs.Replacement.Policy
import Residency.Proofs.Contents.Held
import Residency.Proofs.Contents.Sound
import Residency.Proofs.Contents.Accounted
import Residency.Proofs.Cache.Runs
import Residency.Proofs.Cache.Residents
import Residency.Proofs.Prefetch.Dbcp
import Residency.Proofs.Cache.RecencyCache
import Residency.Proofs.Cache.RecencyLists
import Residency.Proofs.Prefetch.Choice
import Residency.Proofs.Cache.Recency
import Residency.Proofs.Oracle.Packing
import Residency.Proofs.Oracle.Stream
import Residency.Proofs.Oracle.Schedule
import Residency.Proofs.Contents.Counters
import Residency.Proofs.Prefetch.Memoryless
import Residency.Proofs.Cache.Reached
import Residency.Proofs.Cache.Conservation
import Residency.Proofs.Oracle.Alike
import Residency.Proofs.Replacement.Setwise
import Residency.Proofs.Replacement.SetwiseHawkeye
import Residency.Proofs.Replacement.SetwiseChoice
import Residency.Proofs.Contents.Confined
import Residency.Proofs.Contents.Alike
import Residency.Proofs.Contents.Zone
import Residency.Proofs.Cache.Twins
import Residency.Proofs.Cache.Separate
import Residency.Proofs.Cache.Flushed
import Residency.Proofs.Cache.Inclusion
import Residency.Proofs.Cache.Burial
import Residency.Proofs.Cache.Faultless
import Residency.Proofs.TaggedTable.Recency
import Residency.Proofs.Oracle.Recent
import Residency.Proofs.Oracle.MoreWays
import Residency.Proofs.Replacement.Victims
import Residency.Proofs.Replacement.LastUse
import Residency.Proofs.Document.Settings
import Residency.Proofs.TaggedTable.Shelter
import Residency.Proofs.Prefetch.Learning
import Residency.Proofs.Prefetch.Confidence
import Residency.Proofs.Prefetch.Repetition
import Residency.Proofs.Prefetch.Earlier
import Residency.Proofs.Cache.Following
import Residency.Proofs.Prefetch.Accounts
import Residency.Proofs.Prefetch.Provenance
import Residency.Proofs.Prefetch.History
import Residency.Proofs.Binary64.Nearest
import Residency.Proofs.Cache.Sizes
import Residency.Proofs.Word
import Residency.Proofs.Replacement.Draws
import Residency.Proofs.TaggedTable.Spread
