import Mathlib.Logic.Function.Basic
import Residency.Slot
import Residency.Proofs.Delivers

/-!
# Slots of a fixed shape

Inside a geometry of `sets` sets of `ways` ways every slot can be read and written, what has been
written is read, and a write to one slot leaves the others as they are.
-/

namespace Residency

/-- The line is one of `sets` sets of `ways` ways. -/
def LineId.Within (line : LineId) (sets ways : Nat) : Prop :=
  line.set < sets ∧ line.way < ways

instance (line : LineId) (sets ways : Nat) : Decidable (line.Within sets ways) :=
  inferInstanceAs (Decidable (_ ∧ _))

theorem LineId.Within.flat_lt {line : LineId} {sets ways : Nat} (h : line.Within sets ways) :
    line.flat ways < sets * ways :=
  calc line.set * ways + line.way < line.set * ways + ways := Nat.add_lt_add_left h.2 _
    _ = (line.set + 1) * ways := (Nat.succ_mul ..).symm
    _ ≤ sets * ways := Nat.mul_le_mul_right _ h.1

theorem LineId.within_of_mem_ofSet {line : LineId} {set sets ways : Nat} (hset : set < sets)
    (h : line ∈ ofSet set ways) : line.Within sets ways := by
  obtain ⟨rfl, hway⟩ := mem_ofSet.1 h
  exact ⟨hset, hway⟩

/-- All slots of `sets` sets of `ways` ways, in set-major order. -/
def LineId.all (sets ways : Nat) : List LineId :=
  (List.range sets).flatMap fun set => ofSet set ways

theorem LineId.mem_all {line : LineId} {sets ways : Nat} :
    line ∈ all sets ways ↔ line.Within sets ways := by
  simp only [all, List.mem_flatMap, List.mem_range, mem_ofSet]
  constructor
  · rintro ⟨set, hset, rfl, hway⟩
    exact ⟨hset, hway⟩
  · rintro ⟨hset, hway⟩
    exact ⟨line.set, hset, rfl, hway⟩

/-- In set-major order the slots lie one behind the other. -/
theorem LineId.map_flat_all (sets ways : Nat) :
    ((all sets ways).map fun line => line.flat ways) = List.range (sets * ways) := by
  rw [all]
  induction sets with
  | zero => rw [Nat.zero_mul]; rfl
  | succ sets ih =>
    have hset : (ofSet sets ways).map (fun line => line.flat ways) =
        (List.range ways).map (sets * ways + ·) := by
      rw [ofSet, List.map_map]
      rfl
    rw [List.range_succ, List.flatMap_append, List.map_append, ih, List.flatMap_singleton, hset,
      Nat.succ_mul, List.range_add]

namespace Slots

variable {α : Type} {slots : Slots α} {sets ways : Nat} {line other : LineId}

/-- One cell for each slot of `sets` sets of `ways` ways. -/
structure Shaped (slots : Slots α) (sets ways : Nat) : Prop where
  ways_eq : slots.ways = ways
  size_eq : slots.cells.size = sets * ways
  fits : FitsWord (sets * ways)

theorem uniform_shaped (cell : α) (h : FitsWord (sets * ways)) :
    (uniform sets ways cell).Shaped sets ways :=
  ⟨rfl, Array.size_replicate .., h⟩

theorem get_uniform {cell : α} (h : FitsWord (sets * ways)) (hl : line.Within sets ways) :
    (uniform sets ways cell).get line = .ok cell := by
  refine get_eq_ok_iff.2 ⟨Nat.lt_trans hl.flat_lt h, ?_⟩
  simp [uniform, hl.flat_lt]

/-- Whether the cell of a slot passes a test. -/
def test (slots : Slots α) (p : α → Bool) (line : LineId) : Bool :=
  match slots.get line with
  | .ok cell => p cell
  | .error _ => false

theorem test_of_get {cell : α} (h : slots.get line = .ok cell) (p : α → Bool) :
    slots.test p line = p cell := by
  rw [test, h]

namespace Shaped

theorem home_eq (h : slots.Shaped sets ways) (hl : line.Within sets ways) :
    slots.home line = line :=
  Slots.home_eq_self (h.ways_eq ▸ hl.2)

theorem fits_flat (h : slots.Shaped sets ways) (hl : line.Within sets ways) :
    FitsWord (line.flat slots.ways) ∧ line.flat slots.ways < slots.cells.size := by
  rw [h.ways_eq, h.size_eq]
  exact ⟨Nat.lt_trans hl.flat_lt h.fits, hl.flat_lt⟩

theorem exists_get (h : slots.Shaped sets ways) (hl : line.Within sets ways) :
    ∃ cell, slots.get line = .ok cell := by
  obtain ⟨hword, hlt⟩ := h.fits_flat hl
  exact ⟨slots.cells[line.flat slots.ways], get_eq_ok_iff.2 ⟨hword, by simp [hlt]⟩⟩

theorem exists_set (h : slots.Shaped sets ways) (hl : line.Within sets ways) (cell : α) :
    ∃ changed, slots.set line cell = .ok changed := by
  obtain ⟨hword, hlt⟩ := h.fits_flat hl
  exact ⟨_, set_eq_ok_iff.2 ⟨hword, hlt, rfl⟩⟩

theorem set {changed : Slots α} {cell : α} (h : slots.Shaped sets ways)
    (hset : slots.set line cell = .ok changed) : changed.Shaped sets ways := by
  obtain ⟨-, -, rfl⟩ := set_eq_ok_iff.1 hset
  exact ⟨h.ways_eq, by rw [← h.size_eq]; exact Array.size_setIfInBounds, h.fits⟩

theorem get_set {changed : Slots α} {cell : α} (h : slots.Shaped sets ways)
    (hl : line.Within sets ways) (ho : other.Within sets ways)
    (hset : slots.set line cell = .ok changed) :
    changed.get other = if other = line then .ok cell else slots.get other := by
  split
  · rename_i heq
    rw [heq, get_set_self hset]
  · rename_i hne
    refine get_set_ne hset fun hflat => hne ?_
    rw [h.ways_eq] at hflat
    exact (LineId.flat_injective hl.2 ho.2 hflat).symm

theorem forall_set {changed : Slots α} {cell : α} {P : α → Prop} (h : slots.Shaped sets ways)
    (hl : line.Within sets ways) (hset : slots.set line cell = .ok changed) (hcell : P cell)
    (hall : ∀ other cell, other.Within sets ways → slots.get other = .ok cell → P cell) :
    ∀ other cell, other.Within sets ways → changed.get other = .ok cell → P cell := by
  intro other found ho hfound
  rw [h.get_set hl ho hset] at hfound
  split at hfound
  · cases hfound
    exact hcell
  · exact hall other found ho hfound

theorem modify_eq (h : slots.Shaped sets ways) (hl : line.Within sets ways) (f : α → α) :
    ∃ cell changed, slots.get line = .ok cell ∧ slots.modify line f = .ok changed ∧
      slots.set line (f cell) = .ok changed := by
  obtain ⟨cell, hcell⟩ := h.exists_get hl
  obtain ⟨changed, hchanged⟩ := h.exists_set hl (f cell)
  exact ⟨cell, changed, hcell, by rw [modify, hcell, ok_bind, hchanged], hchanged⟩

/-- Counting over the slots in order is counting over their cells. -/
theorem countP_toList (h : slots.Shaped sets ways) (p : α → Bool) :
    slots.toList.countP p = (LineId.all sets ways).countP (slots.test p) := by
  have hcells : slots.toList.map some =
      (LineId.all sets ways).map fun line => slots.cells[line.flat ways]? := by
    have hrange : slots.toList.map some =
        (List.range (sets * ways)).map (slots.cells[·]?) := by
      rw [← h.size_eq]
      refine List.ext_getElem (by simp [toList]) fun i hi _ => ?_
      have hlt : i < slots.cells.size := by simpa [toList] using hi
      simp [toList, hlt]
    rw [hrange, ← LineId.map_flat_all, List.map_map]
    rfl
  calc slots.toList.countP p = (slots.toList.map some).countP (·.any p) := by
        rw [List.countP_map]
        rfl
    _ = (LineId.all sets ways).countP (slots.test p) := by
        rw [hcells, List.countP_map]
        refine List.countP_congr fun line hline => ?_
        obtain ⟨cell, hcell⟩ := h.exists_get (LineId.mem_all.1 hline)
        rw [test_of_get hcell, Function.comp_apply, ← h.ways_eq, (get_eq_ok_iff.1 hcell).2]
        rfl

end Shaped

/-- A test on the cells says of each slot what a record says of it. -/
structure Records (slots : Slots α) (sets ways : Nat) (p : α → Bool) (recorded : LineId → Bool) :
    Prop where
  shaped : slots.Shaped sets ways
  test_eq : ∀ line, line.Within sets ways → slots.test p line = recorded line

theorem Shaped.records (h : slots.Shaped sets ways) (p : α → Bool) :
    slots.Records sets ways p (slots.test p) :=
  ⟨h, fun _ _ => rfl⟩

theorem uniform_records {cell : α} {p : α → Bool} (h : FitsWord (sets * ways))
    (hcell : p cell = false) : (uniform sets ways cell).Records sets ways p fun _ => false :=
  ⟨uniform_shaped cell h, fun _ hl => (test_of_get (get_uniform h hl) p).trans hcell⟩

namespace Records

variable {p : α → Bool} {recorded recorded' : LineId → Bool}

theorem congr (h : slots.Records sets ways p recorded)
    (heq : ∀ line, line.Within sets ways → recorded line = recorded' line) :
    slots.Records sets ways p recorded' :=
  ⟨h.shaped, fun line hl => (h.test_eq line hl).trans (heq line hl)⟩

theorem eq_of_get {cell : α} (h : slots.Records sets ways p recorded)
    (hl : line.Within sets ways) (hcell : slots.get line = .ok cell) :
    p cell = recorded line :=
  (test_of_get hcell p).symm.trans (h.test_eq line hl)

theorem set {changed : Slots α} {cell : α} (h : slots.Records sets ways p recorded)
    (hl : line.Within sets ways) (hset : slots.set line cell = .ok changed) :
    changed.Records sets ways p (Function.update recorded line (p cell)) := by
  refine ⟨h.shaped.set hset, fun other ho => ?_⟩
  rw [Function.update_apply]
  have hget := h.shaped.get_set hl ho hset
  by_cases heq : other = line
  · rw [if_pos heq] at hget ⊢
    exact test_of_get hget p
  · rw [if_neg heq] at hget ⊢
    rw [← h.test_eq other ho, test, hget, test]

/-- The search for a slot that fails the test goes by the record. -/
theorem firstWhere_not {lines : List LineId} (h : slots.Records sets ways p recorded)
    (hlines : ∀ line ∈ lines, line.Within sets ways) :
    firstWhere (fun line => return !p (← slots.get line)) lines =
      .ok (lines.find? fun line => !recorded line) := by
  refine firstWhere_eq_find? fun line hl => ?_
  obtain ⟨cell, hcell⟩ := h.shaped.exists_get (hlines line hl)
  rw [hcell, ok_bind, pure_eq_ok, h.eq_of_get (hlines line hl) hcell]

end Records

end Slots

end Residency
