import Residency.Proofs.Contents.Held
import Residency.Proofs.Replacement.Lawful
import Residency.Proofs.Statistics

/-!
# Sound contents

In sound contents every valid line holds a block of its own set, no two lines hold the same block of
the same security domain, and the policy has the same view of which lines are occupied. Every
operation keeps contents sound, and is described here by what it does to the lines and by what it
tells the policy.
-/

namespace Residency

namespace Line

variable {g : Geometry} {line : Line} {set : Nat} {addr : UInt64}

theorem pair?_of_not_valid (h : line.valid = false) : line.pair? g set = none := by
  simp [pair?, h]

theorem pair?_of_valid (hg : g.lineBytes.isPowerOfTwo) (h : line.valid = true)
    (hset : g.setOf addr = set) (htag : g.tagOf addr = line.tag) :
    line.pair? g set = some (g.blockOf addr, line.secure) := by
  rw [pair?, if_pos h, ← hset, ← htag, Geometry.rebuild_eq hg]
  rfl

end Line

namespace Contents

variable {σ : Type}

/-- A block of a security domain is in none of the lines. -/
def Absent (c : Contents σ) (addr : UInt64) (secure : Bool) : Prop :=
  ∀ id, c.held id ≠ some (c.geometry.blockOf addr, secure)

open ReplacementPolicy LawfulPolicy

variable [ReplacementPolicy σ] [LawfulPolicy σ] {c c' : Contents σ} {id : LineId} {line : Line}
  {addr : UInt64} {secure : Bool} {bound : Nat}

/-- The lines and the policy agree with each other and with the geometry. -/
structure Sound (c : Contents σ) : Prop where
  lineBytes_pow : c.geometry.lineBytes.isPowerOfTwo
  ways_pos : 0 < c.geometry.ways
  shaped : c.lines.Shaped c.geometry.sets c.geometry.ways
  /-- Every valid line has the tag of an address of its set. -/
  tagged : ∀ id line, id.Within c.geometry.sets c.geometry.ways → c.lines.get id = .ok line →
    line.valid = true → ∃ addr, c.geometry.setOf addr = id.set ∧ c.geometry.tagOf addr = line.tag
  unique : ∀ a b pair, c.held a = some pair → c.held b = some pair → a = b
  serves : Serves c.geometry.sets c.geometry.ways c.statistics.hits (fun id => (c.held id).isSome)
    c.policy

namespace Sound

theorem withStatistics (h : c.Sound) {s : Statistics} (hhits : s.hits = c.statistics.hits) :
    Sound { c with statistics := s } :=
  ⟨h.lineBytes_pow, h.ways_pos, h.shaped, h.tagged, h.unique, by
    show Serves _ _ s.hits _ _
    rw [hhits]
    exact h.serves⟩

theorem held_of_valid (h : c.Sound) (hl : id.Within c.geometry.sets c.geometry.ways)
    (hline : c.lines.get id = .ok line) (hvalid : line.valid = true) :
    ∃ addr, c.geometry.setOf addr = id.set ∧ c.geometry.tagOf addr = line.tag ∧
      c.held id = some (c.geometry.blockOf addr, line.secure) := by
  obtain ⟨addr, hset, htag⟩ := h.tagged id line hl hline hvalid
  refine ⟨addr, hset, htag, ?_⟩
  rw [held_of_get hl hline, Line.pair?_of_valid h.lineBytes_pow hvalid hset htag]

theorem isSome_held (h : c.Sound) (hl : id.Within c.geometry.sets c.geometry.ways)
    (hline : c.lines.get id = .ok line) : (c.held id).isSome = line.valid := by
  cases hvalid : line.valid with
  | false => rw [held_of_get hl hline, Line.pair?_of_not_valid hvalid]; rfl
  | true =>
    obtain ⟨addr, -, -, hheld⟩ := h.held_of_valid hl hline hvalid
    rw [hheld]
    rfl

theorem occupancy_eq (h : c.Sound) : c.occupancy = c.lines.toList.countP (·.valid) := by
  rw [h.shaped.countP_toList, occupancy]
  refine List.countP_congr fun id hid => ?_
  have hl := Geometry.mem_allLines.1 hid
  obtain ⟨line, hline⟩ := h.shaped.exists_get hl
  rw [h.isSome_held hl hline, Slots.test_of_get hline]

theorem set_of_held (h : c.Sound) {block : UInt64} (hheld : c.held id = some (block, secure)) :
    c.geometry.setOf block = id.set ∧ c.geometry.blockOf block = block := by
  have hl := within_of_held hheld
  obtain ⟨line, hline⟩ := h.shaped.exists_get hl
  have hvalid : line.valid = true := by rw [← h.isSome_held hl hline, hheld]; rfl
  obtain ⟨addr, hset, -, hheld'⟩ := h.held_of_valid hl hline hvalid
  obtain ⟨rfl, -⟩ := Prod.mk.inj (Option.some.inj (hheld.symm.trans hheld'))
  rw [Geometry.setOf_blockOf h.lineBytes_pow, Geometry.blockOf_blockOf h.lineBytes_pow]
  exact ⟨hset, rfl⟩

theorem set_eq_of_held (h : c.Sound) (hheld : c.held id = some (c.geometry.blockOf addr, secure)) :
    id.set = c.geometry.setOf addr := by
  rw [← (h.set_of_held hheld).1, Geometry.setOf_blockOf h.lineBytes_pow]

/-- A line of the set of an address matches the address if it holds its block. -/
theorem matches_iff (h : c.Sound) (hid : id ∈ c.candidates addr)
    (hline : c.lines.get id = .ok line) :
    (line.valid && line.tag == c.geometry.tagOf addr && line.secure == secure) = true ↔
      c.held id = some (c.geometry.blockOf addr, secure) := by
  have hl := candidates_within hid
  cases hvalid : line.valid with
  | false => simp [held_of_get hl hline, Line.pair?_of_not_valid hvalid]
  | true =>
    obtain ⟨other, hset, htag, hheld⟩ := h.held_of_valid hl hline hvalid
    have hsets : c.geometry.setOf other = c.geometry.setOf addr := by
      rw [hset, (mem_candidates.1 hid).1]
    rw [hheld, ← htag, Option.some.injEq, Prod.mk.injEq,
      Geometry.blockOf_eq_iff h.lineBytes_pow]
    simp [hsets]

theorem find?_spec (h : c.Sound) (addr : UInt64) (secure : Bool) :
    ∃ found, c.find? addr secure = .ok found ∧
      ∀ id, found = some id ↔ c.held id = some (c.geometry.blockOf addr, secure) := by
  refine ⟨_, firstWhere_eq_find? (p := fun id =>
    decide (c.held id = some (c.geometry.blockOf addr, secure))) fun id hid => ?_, fun id => ?_⟩
  · obtain ⟨line, hline⟩ := h.shaped.exists_get (candidates_within hid)
    rw [hline, ok_bind, pure_eq_ok]
    congr 1
    rw [Bool.eq_iff_iff, decide_eq_true_iff]
    exact h.matches_iff hid hline
  · constructor
    · intro hfound
      simpa using List.find?_some hfound
    · intro hheld
      have hid : id ∈ c.candidates addr :=
        mem_candidates.2 ⟨h.set_eq_of_held hheld, (within_of_held hheld).2⟩
      cases hfound : (c.candidates addr).find? fun id =>
          decide (c.held id = some (c.geometry.blockOf addr, secure)) with
      | none =>
        have := List.find?_eq_none.1 hfound id hid
        simp [hheld] at this
      | some other =>
        have hother : c.held other = some (c.geometry.blockOf addr, secure) := by
          simpa using List.find?_some hfound
        rw [h.unique other id _ hother hheld]

/-- A rewritten line keeps contents sound if the new block belongs into its set and is in no other
line, and if the policy has been told. -/
theorem rewrite (h : c.Sound) (c' : Contents σ) (addr : UInt64)
    (hl : id.Within c.geometry.sets c.geometry.ways) (hg : c'.geometry = c.geometry)
    (hset : c.lines.set id line = .ok c'.lines)
    (htagged : line.valid = true → c.geometry.setOf addr = id.set ∧
      c.geometry.tagOf addr = line.tag ∧ c.Absent addr line.secure)
    (hserves : Serves c.geometry.sets c.geometry.ways c'.statistics.hits
      (Function.update (fun id => (c.held id).isSome) id line.valid) c'.policy) :
    c'.Sound ∧ c'.held = Function.update c.held id
      (if line.valid then some (c.geometry.blockOf addr, line.secure) else none) := by
  obtain ⟨geometry, lines, policy, statistics⟩ := c'
  obtain rfl : geometry = c.geometry := hg
  have hpair : line.pair? c.geometry id.set =
      if line.valid then some (c.geometry.blockOf addr, line.secure) else none := by
    split
    · rename_i hvalid
      obtain ⟨hset, htag, -⟩ := htagged hvalid
      exact Line.pair?_of_valid h.lineBytes_pow hvalid hset htag
    · rename_i hvalid
      exact Line.pair?_of_not_valid (Bool.eq_false_iff.2 hvalid)
  have hheld : held ⟨c.geometry, lines, policy, statistics⟩ = Function.update c.held id
      (if line.valid then some (c.geometry.blockOf addr, line.secure) else none) :=
    (held_set h.shaped hl hset).trans (congrArg _ hpair)
  -- The other lines are as they were, so it all depends on the new one.
  refine ⟨⟨h.lineBytes_pow, h.ways_pos, h.shaped.set hset, ?_, ?_, ?_⟩, hheld⟩
  · intro other found ho hfound hvalid
    rw [h.shaped.get_set hl ho hset] at hfound
    split at hfound
    · rename_i heq
      cases hfound
      exact ⟨addr, heq ▸ (htagged hvalid).1, (htagged hvalid).2.1⟩
    · exact h.tagged other found ho hfound hvalid
  · rw [hheld]
    refine update_unique h.unique fun other pair hvalue => ?_
    split at hvalue
    · rename_i hvalid
      cases hvalue
      exact fun hheld => absurd hheld ((htagged hvalid).2.2 other)
    · cases hvalue
  · refine serves_congr hserves fun other _ => ?_
    rw [hheld, Function.update_apply, Function.update_apply]
    split
    · cases line.valid <;> rfl
    · rfl

end Sound

end Contents

end Residency
