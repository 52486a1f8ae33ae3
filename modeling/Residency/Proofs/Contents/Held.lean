import Mathlib.Data.List.Nodup
import Residency.Contents
import Residency.Proofs.Geometry
import Residency.Proofs.Orders
import Residency.Proofs.Slots

/-!
# What the lines of a cache hold

A valid line holds a block of a security domain: the block that its set and its tag make. Seen as a
function from lines to such pairs, the contents of a cache change at one line at a time.
-/

namespace Residency

/-- All lines, in set-major order. -/
def Geometry.allLines (g : Geometry) : List LineId :=
  (List.range g.sets).flatMap fun set => LineId.ofSet set g.ways

theorem Geometry.mem_allLines {g : Geometry} {id : LineId} :
    id ∈ g.allLines ↔ id.Within g.sets g.ways :=
  LineId.mem_all

theorem Geometry.nodup_allLines (g : Geometry) : g.allLines.Nodup := by
  refine List.nodup_flatMap.2 ⟨fun set _ => ?_, ?_⟩
  · exact List.nodup_range.map fun a b h => congrArg LineId.way h
  · refine List.nodup_range.imp fun {s t} hne => ?_
    intro id hs ht
    exact hne ((LineId.mem_ofSet.1 hs).1.symm.trans (LineId.mem_ofSet.1 ht).1)

/-- Where two tests differ at one element only, so do their counts. -/
theorem countP_of_agree {α : Type} {p q : α → Bool} {a : α} {as : List α} (hn : as.Nodup)
    (ha : a ∈ as) (h : ∀ b, b ≠ a → p b = q b) :
    as.countP p + (q a).toNat = as.countP q + (p a).toNat := by
  -- Before and behind the element the tests agree.
  obtain ⟨front, back, rfl⟩ := List.append_of_mem ha
  have hnot : ∀ b ∈ front ++ back, b ≠ a := by
    rintro b hb rfl
    exact (List.nodup_middle.1 hn).notMem hb
  have hfront : front.countP p = front.countP q := List.countP_congr fun b hb => by
    rw [h b (hnot b (List.mem_append_left _ hb))]
  have hback : back.countP p = back.countP q := List.countP_congr fun b hb => by
    rw [h b (hnot b (List.mem_append_right _ hb))]
  rw [List.countP_append, List.countP_append, List.countP_cons, List.countP_cons, hfront, hback]
  cases p a <;> cases q a <;> simp <;> omega

/-- The block and the security domain that a line of a set holds. -/
def Line.pair? (line : Line) (g : Geometry) (set : Nat) : Option (UInt64 × Bool) :=
  if line.valid then (g.rebuild set line.tag).toOption.map (·, line.secure) else none

namespace Contents

variable {σ : Type} {c : Contents σ} {id : LineId} {line : Line}

/-- The block and the security domain that a line holds. -/
def held (c : Contents σ) (id : LineId) : Option (UInt64 × Bool) :=
  if id.Within c.geometry.sets c.geometry.ways then
    match c.lines.get id with
    | .ok line => line.pair? c.geometry id.set
    | .error _ => none
  else none

/-- The number of lines that hold a block. -/
def occupancy (c : Contents σ) : Nat :=
  c.geometry.allLines.countP fun id => (c.held id).isSome

theorem mem_candidates {addr : UInt64} : id ∈ c.candidates addr ↔
    id.set = c.geometry.setOf addr ∧ id.way < c.geometry.ways :=
  LineId.mem_ofSet

theorem candidates_within {addr : UInt64} (hid : id ∈ c.candidates addr) :
    id.Within c.geometry.sets c.geometry.ways :=
  LineId.within_of_mem_ofSet (c.geometry.setOf_lt addr) hid

theorem held_of_get (hl : id.Within c.geometry.sets c.geometry.ways)
    (hline : c.lines.get id = .ok line) : c.held id = line.pair? c.geometry id.set := by
  rw [held, if_pos hl, hline]

theorem within_of_held {pair : UInt64 × Bool} (h : c.held id = some pair) :
    id.Within c.geometry.sets c.geometry.ways := by
  by_contra hl
  rw [held, if_neg hl] at h
  cases h

theorem held_set {lines : Slots Line} (h : c.lines.Shaped c.geometry.sets c.geometry.ways)
    (hl : id.Within c.geometry.sets c.geometry.ways) (hset : c.lines.set id line = .ok lines) :
    held { c with lines } = Function.update c.held id (line.pair? c.geometry id.set) := by
  funext other
  rw [Function.update_apply]
  by_cases ho : other.Within c.geometry.sets c.geometry.ways
  · have hget := h.get_set hl ho hset
    rw [held, if_pos ho, hget]
    by_cases heq : other = id
    · rw [if_pos heq, if_pos heq, heq]
    · rw [if_neg heq, if_neg heq, held, if_pos ho]
  · have hne : other ≠ id := fun heq => ho (heq ▸ hl)
    rw [if_neg hne, held, held, if_neg ho, if_neg ho]

theorem occupancy_update {c' : Contents σ} {pair : Option (UInt64 × Bool)}
    (hl : id.Within c.geometry.sets c.geometry.ways) (hg : c'.geometry = c.geometry)
    (h : c'.held = Function.update c.held id pair) :
    c'.occupancy + (c.held id).isSome.toNat = c.occupancy + pair.isSome.toNat := by
  have hcount := countP_of_agree (p := fun id => (c'.held id).isSome)
    (q := fun id => (c.held id).isSome) c.geometry.nodup_allLines
    (Geometry.mem_allLines.2 hl) fun other hne => by rw [h, Function.update_of_ne hne]
  rw [occupancy, hg, occupancy, hcount, h, Function.update_self]

theorem occupancy_pos {pair : UInt64 × Bool} (h : c.held id = some pair) : 0 < c.occupancy :=
  List.countP_pos_iff.2 ⟨id, Geometry.mem_allLines.2 (within_of_held h), by rw [h]; rfl⟩

end Contents

end Residency
