import Residency.Fault

/-!
Slots of a set-associative structure.

A slot is named by its set and its way. `Slots` keeps one cell per slot in set-major order; all
replacement state, tags and table entries live in such arrays, so that an identity is also the
handle by which a structure and its replacement policy speak of the same line.
-/

namespace Residency

/-- The identity of a slot. -/
structure LineId where
  set : Nat
  way : Nat
deriving DecidableEq, Repr

namespace LineId

/-- The position of a slot in set-major order. -/
def flat (line : LineId) (ways : Nat) : Nat :=
  line.set * ways + line.way

/-- Sets in order, and the ways of a set in order. -/
def le (a b : LineId) : Bool :=
  a.set < b.set || (a.set == b.set && a.way ≤ b.way)

/-- The slots of one set. -/
def ofSet (set ways : Nat) : List LineId :=
  (List.range ways).map fun way => ⟨set, way⟩

theorem mem_ofSet {line : LineId} {set ways : Nat} :
    line ∈ ofSet set ways ↔ line.set = set ∧ line.way < ways := by
  simp only [ofSet, List.mem_map, List.mem_range]
  constructor
  · rintro ⟨way, h, rfl⟩
    exact ⟨rfl, h⟩
  · rintro ⟨rfl, h⟩
    exact ⟨line.way, h, rfl⟩

/-- Two slots of one geometry share a position only if they are the same. -/
theorem flat_injective {a b : LineId} {ways : Nat} (ha : a.way < ways) (hb : b.way < ways)
    (h : a.flat ways = b.flat ways) : a = b := by
  obtain ⟨s, w⟩ := a
  obtain ⟨t, v⟩ := b
  simp only [flat] at h ha hb
  have hpos : 0 < ways := Nat.lt_of_le_of_lt (Nat.zero_le _) ha
  have hs : s = t := by
    have := congrArg (· / ways) h
    simpa [Nat.mul_comm _ ways, Nat.mul_add_div hpos, Nat.div_eq_of_lt ha,
      Nat.div_eq_of_lt hb] using this
  subst hs
  simpa using h

end LineId

/-- One cell per slot, in set-major order. -/
structure Slots (α : Type) where
  ways : Nat
  cells : Array α

namespace Slots

variable {α : Type}

/-- `sets * ways` equal cells. -/
def uniform (sets ways : Nat) (cell : α) : Slots α :=
  ⟨ways, Array.replicate (sets * ways) cell⟩

/-- The cell of a slot. A way beyond the geometry names the cell at the same flat position. -/
def get (slots : Slots α) (line : LineId) : Checked α := do
  require (FitsWord (line.flat slots.ways)) .overflow
  match slots.cells[line.flat slots.ways]? with
  | some cell => return cell
  | none => throw .outOfRange

/-- Replaces the cell of a slot. -/
def set (slots : Slots α) (line : LineId) (cell : α) : Checked (Slots α) := do
  require (FitsWord (line.flat slots.ways)) .overflow
  require (line.flat slots.ways < slots.cells.size) .outOfRange
  return { slots with cells := slots.cells.setIfInBounds (line.flat slots.ways) cell }

/-- Rewrites the cell of a slot. -/
def modify (slots : Slots α) (line : LineId) (f : α → α) : Checked (Slots α) := do
  slots.set line (f (← slots.get line))

theorem get_eq_ok_iff {slots : Slots α} {line : LineId} {cell : α} :
    slots.get line = .ok cell ↔
      FitsWord (line.flat slots.ways) ∧ slots.cells[line.flat slots.ways]? = some cell := by
  by_cases hw : FitsWord (line.flat slots.ways)
  · cases hc : slots.cells[line.flat slots.ways]? <;>
      simp [get, require, hw, hc, bind, Except.bind, pure, Except.pure, throw, throwThe,
        MonadExceptOf.throw]
  · simp [get, require, hw, bind, Except.bind]

theorem set_eq_ok_iff {slots changed : Slots α} {line : LineId} {cell : α} :
    slots.set line cell = .ok changed ↔
      FitsWord (line.flat slots.ways) ∧ line.flat slots.ways < slots.cells.size ∧
        changed = ⟨slots.ways, slots.cells.setIfInBounds (line.flat slots.ways) cell⟩ := by
  by_cases hw : FitsWord (line.flat slots.ways)
  · by_cases hc : line.flat slots.ways < slots.cells.size
    · simp [set, require, hw, hc, bind, Except.bind, pure, Except.pure, eq_comm]
    · simp [set, require, hw, hc, bind, Except.bind]
  · simp [set, require, hw, bind, Except.bind]

theorem get_set_self {slots changed : Slots α} {line : LineId} {cell : α}
    (h : slots.set line cell = .ok changed) : changed.get line = .ok cell := by
  obtain ⟨hw, hc, rfl⟩ := set_eq_ok_iff.1 h
  exact get_eq_ok_iff.2 ⟨hw, by simp [hc]⟩

theorem get_set_ne {slots changed : Slots α} {line other : LineId} {cell : α}
    (h : slots.set line cell = .ok changed)
    (hne : line.flat slots.ways ≠ other.flat slots.ways) : changed.get other = slots.get other := by
  obtain ⟨-, -, rfl⟩ := set_eq_ok_iff.1 h
  simp [get, hne]

/-- The slot that a flat position stands for. -/
def home (slots : Slots α) (line : LineId) : LineId :=
  ⟨line.flat slots.ways / slots.ways, line.flat slots.ways % slots.ways⟩

theorem home_eq_self {slots : Slots α} {line : LineId} (h : line.way < slots.ways) :
    slots.home line = line := by
  have hpos : 0 < slots.ways := Nat.lt_of_le_of_lt (Nat.zero_le _) h
  simp [home, LineId.flat, Nat.mul_comm line.set, Nat.mul_add_div hpos, Nat.div_eq_of_lt h,
    Nat.mod_eq_of_lt h]

/-- The cells in set-major order. -/
def toList (slots : Slots α) : List α :=
  slots.cells.toList

end Slots

end Residency
