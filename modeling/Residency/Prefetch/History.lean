import Residency.Word

/-!
The signature history of a block: what program counters and addresses its present life has seen,
folded into a word.
-/

namespace Residency

/-- Puts an address into an ascending list that holds each address once. -/
def insertAscending (addr : UInt64) : List UInt64 → List UInt64
  | [] => [addr]
  | a :: rest =>
    if addr < a then addr :: a :: rest
    else if addr = a then a :: rest
    else a :: insertAscending addr rest

theorem mem_insertAscending {a addr : UInt64} {seen : List UInt64} :
    a ∈ insertAscending addr seen ↔ a = addr ∨ a ∈ seen := by
  induction seen with
  | nil => simp [insertAscending]
  | cons b rest ih =>
    rw [insertAscending]
    split
    · simp
    · split
      · rename_i h
        subst h
        simp
      · simp [ih, or_left_comm]

/-- The history of one block's present life. -/
structure HistoryEntry where
  signature : UInt64
  /-- The addresses seen in this life, ascending. -/
  priorAddresses : List UInt64
deriving DecidableEq, Repr

namespace HistoryEntry

/-- The history of a life that has not begun. -/
def empty : HistoryEntry :=
  ⟨0, []⟩

/-- Folds an access into the signature: the program counter always, the address when it is seen for
the first time in this life. -/
def update (entry : HistoryEntry) (bits : Nat) (addr pc : UInt64) : HistoryEntry :=
  let signature := combine bits entry.signature pc
  { signature := if addr ∈ entry.priorAddresses then signature else combine bits signature addr
    priorAddresses := insertAscending addr entry.priorAddresses }

end HistoryEntry

end Residency
