import Residency.Rejection
import Residency.Replacement.Policy
import Residency.Settings

/-!
A tagged set-associative table.

The table indexes, tags and stores; its policy alone decides which slot to give up. The tag is the
whole index, so two indices never stand for each other within a set.
-/

namespace Residency

/-- One slot of a table. -/
structure TableSlot (E : Type) where
  tag : UInt64
  secure : Bool
  valid : Bool
  data : E

/-- A table of entries `E` whose slots are given up by a policy with state `σ`. -/
structure TaggedTable (σ E : Type) where
  slots : Slots (TableSlot E)
  /-- There are `2 ^ setBits` sets. -/
  setBits : Nat
  /-- What a slot holds before it is filled. -/
  blank : E
  policy : σ

namespace TaggedTable

variable {σ E : Type}

/-- A table of `entries` slots in sets of `assoc`, with a policy for as many. -/
def new (entries assoc : Nat) (blank : E) (policy : σ) : Except Rejection (TaggedTable σ E) := do
  refuseIf (entries = 0) (.zeroSize .entries)
  refuseIf (assoc = 0) (.zeroSize .assoc)
  refuseIf (entries % assoc ≠ 0) (.unevenSets entries assoc)
  let sets := entries / assoc
  refuseIf (¬ sets.isPowerOfTwo) (.notPowerOfTwo .tableSets sets)
  return ⟨.uniform sets assoc ⟨0, false, false, blank⟩, sets.log2, blank, policy⟩

/-- The number of sets. -/
def numSets (t : TaggedTable σ E) : Nat :=
  1 <<< t.setBits

/-- The number of slots in a set. -/
def assoc (t : TaggedTable σ E) : Nat :=
  t.slots.ways

/-- The set of an index: its lowest bit is dropped, and the bits above the set number are folded
onto it once. -/
def setOf (t : TaggedTable σ E) (index : UInt64) : Nat :=
  let upper := index >>> 1
  (upper ^^^ (upper >>> .ofNat t.setBits)).toNat % t.numSets

/-- The slots in which an index may lie. -/
def candidates (t : TaggedTable σ E) (index : UInt64) : List LineId :=
  LineId.ofSet (t.setOf index) t.assoc

/-- The slot that holds an index of a security domain. -/
def find? (t : TaggedTable σ E) (index : UInt64) (secure : Bool) : Checked (Option LineId) :=
  firstWhere
    (fun id => do
      let slot ← t.slots.get id
      return slot.valid && slot.tag == index && slot.secure == secure)
    (t.candidates index)

/-- The entry of a slot. -/
def entry (t : TaggedTable σ E) (id : LineId) : Checked E := do
  return (← t.slots.get id).data

/-- Replaces the entry of a slot. -/
def setEntry (t : TaggedTable σ E) (id : LineId) (data : E) : Checked (TaggedTable σ E) := do
  return { t with slots := ← t.slots.modify id fun slot => { slot with data } }

/-- The number of filled slots. -/
def occupied (t : TaggedTable σ E) : Nat :=
  t.slots.toList.countP (·.valid)

open ReplacementPolicy

variable [ReplacementPolicy σ]

/-- Empties a slot for an index; the policy chooses which. -/
def makeRoom (t : TaggedTable σ E) (index : UInt64) : Checked (LineId × TaggedTable σ E) := do
  let (choice, policy) ← victim t.policy (t.candidates index)
  let id := choice.getD ⟨t.setOf index, 0⟩
  let policy ← invalidate policy id
  let slots ← t.slots.modify id fun slot => { slot with valid := false, data := t.blank }
  return (id, { t with slots, policy })

/-- Fills a slot. -/
def put (t : TaggedTable σ E) (index : UInt64) (secure : Bool) (id : LineId) (data : E) :
    Checked (TaggedTable σ E) := do
  let slots ← t.slots.set id ⟨index, secure, true, data⟩
  let policy ← fill t.policy id index
  return { t with slots, policy }

/-- Tells the policy that a slot is used. -/
def use (t : TaggedTable σ E) (id : LineId) : Checked (TaggedTable σ E) := do
  return { t with policy := ← touch t.policy id }

end TaggedTable

end Residency
