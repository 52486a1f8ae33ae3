import Residency.Replacement.Hawkeye
import Residency.Replacement.Lru
import Residency.Replacement.Random

/-!
The policy that the settings select.
-/

namespace Residency

/-- A replacement policy of one of the available kinds. -/
inductive Policy where
  | lru (policy : Lru)
  | random (policy : RandomChoice)
  | hawkeye (policy : Hawkeye)

namespace Policy

/-- The policy of a kind for `sets` sets of `ways` ways. -/
def new (kind : PolicyKind) (sets ways : Nat) (settings : HawkeyeSettings) :
    Except Rejection Policy :=
  match kind with
  | .lru => (Lru.new sets ways).map lru
  | .random => (RandomChoice.new sets ways).map random
  | .hawkeye => (Hawkeye.new sets ways settings).map hawkeye

open ReplacementPolicy

instance : ReplacementPolicy Policy where
  touch
    | lru p, line => (touch p line).map lru
    | random p, line => (touch p line).map random
    | hawkeye p, line => (touch p line).map hawkeye
  fill
    | lru p, line, tag => (fill p line tag).map lru
    | random p, line, tag => (fill p line tag).map random
    | hawkeye p, line, tag => (fill p line tag).map hawkeye
  invalidate
    | lru p, line => (invalidate p line).map lru
    | random p, line => (invalidate p line).map random
    | hawkeye p, line => (invalidate p line).map hawkeye
  victim
    | lru p, candidates => (victim p candidates).map fun (line, p) => (line, lru p)
    | random p, candidates => (victim p candidates).map fun (line, p) => (line, random p)
    | hawkeye p, candidates => (victim p candidates).map fun (line, p) => (line, hawkeye p)

end Policy

end Residency
