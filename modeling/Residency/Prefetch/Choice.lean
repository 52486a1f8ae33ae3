import Residency.Prefetch.Dbcp
import Residency.Prefetch.NextLine

/-!
The prefetcher that the settings select.
-/

namespace Residency

/-- A prefetcher of one of the available kinds. -/
inductive Prefetcher where
  | nextLine (prefetcher : NextLine)
  | dbcp (prefetcher : Dbcp)

namespace Prefetcher

/-- The prefetcher of a kind, if the kind is not to have none. -/
def new (settings : CacheSettings) : Except Rejection (Option Prefetcher) :=
  match settings.prefetcher with
  | .none => return none
  | .nextLine => return some (nextLine (.new settings.lineBytes settings.prefetchDegree.toNat))
  | .dbcp => return some (dbcp (← Dbcp.new settings.lineBytes settings.dbcp))

/-- Watches an access and answers the blocks to prefetch. -/
def observe {τ : Type} [BlockInvalidator τ] (p : Prefetcher) (access : Access) (cache : τ) :
    Checked (List UInt64 × Prefetcher × τ) := do
  match p with
  | nextLine p => return (← p.targets access, nextLine p, cache)
  | dbcp p =>
    let (targets, p, cache) ← p.observe access cache
    return (targets, dbcp p, cache)

end Prefetcher

end Residency
