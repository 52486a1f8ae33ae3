import Residency.Proofs.Contents.Sound

/-!
# What each operation does to the contents

A fill, a dropped line and a hit, each described by the one line that it concerns and by what the
policy has been told. The operations of a cache are put together from these three.
-/

namespace Residency

namespace Contents

theorem count_spec {σ : Type} {c : Contents σ} {bound : Nat} (f : Statistics → Statistics)
    (h : (f c.statistics).Below bound) :
    Delivers (c.count f) (Exhausted bound) (· = { c with statistics := f c.statistics }) :=
  h.require.bind fun _ _ => rfl

theorem find?_withStatistics {σ : Type} (c : Contents σ) (s : Statistics) (addr : UInt64)
    (secure : Bool) : find? { c with statistics := s } addr secure = c.find? addr secure := rfl

open ReplacementPolicy LawfulPolicy

variable {σ : Type} [ReplacementPolicy σ] {c c' : Contents σ} {id : LineId} {addr : UInt64}
  {secure : Bool} {bound accesses asked : Nat}

/-- The block of an address has been filled into a line of its set: a vacant one if there was any.
The policy has named the line. -/
structure Installed (c : Contents σ) (addr : UInt64) (secure : Bool) (id : LineId)
    (evicted : Option UInt64) (c' : Contents σ) : Prop where
  geometry_eq : c'.geometry = c.geometry
  set_eq : id.set = c.geometry.setOf addr
  way_lt : id.way < c.geometry.ways
  vacant_first : ∀ way, way < c.geometry.ways → c.held ⟨c.geometry.setOf addr, way⟩ = none →
    c.held id = none
  evicted_eq : evicted = (c.held id).map (·.1)
  held_eq : c'.held = Function.update c.held id (some (c.geometry.blockOf addr, secure))
  told : ∃ p, victim c.policy (c.candidates addr) = .ok (some id, p) ∧
    fill p id (c.geometry.tagOf addr) = .ok c'.policy

/-- A line holds nothing any more, and the policy has been told. -/
structure Dropped (c : Contents σ) (id : LineId) (c' : Contents σ) : Prop where
  geometry_eq : c'.geometry = c.geometry
  held_eq : c'.held = Function.update c.held id none
  told : invalidate c.policy id = .ok c'.policy

variable [LawfulPolicy σ]

namespace Sound

/-- A hit, once it has been counted, changes nothing but the policy. -/
theorem use_spec (h : c.Sound) {pair : UInt64 × Bool} (hpair : c.held id = some pair)
    {s : Statistics} (hs : s.hits = c.statistics.hits + 1) :
    Delivers (use { c with statistics := s } id) (Exhausted s.hits) fun c' => c'.Sound ∧
      touch c.policy id = .ok c'.policy ∧ c' = { c with policy := c'.policy, statistics := s } := by
  have htouch := touch_spec h.serves (within_of_held hpair)
  rw [← hs] at htouch
  refine htouch.self.bind fun policy hpolicy => ⟨?_, hpolicy.1, rfl⟩
  exact ⟨h.lineBytes_pow, h.ways_pos, h.shaped, h.tagged, h.unique, hpolicy.2⟩

/-- A fill of a block that is not there, once the event behind it has been counted. -/
theorem install_spec (h : c.Sound) (habsent : c.Absent addr secure) {s : Statistics}
    (hs : s.hits = c.statistics.hits)
    (hbound : ∀ evicted : Bool, Statistics.Below { s with
      evictions := s.evictions + evicted.toNat, fills := s.fills + 1 } bound) :
    Delivers (install { c with statistics := s } addr secure) (Exhausted bound) fun result =>
      result.2.Sound ∧ (∃ id, c.Installed addr secure id result.1 result.2) ∧
      result.2.statistics = { s with
        evictions := s.evictions + result.1.isSome.toNat, fills := s.fills + 1 } := by
  obtain ⟨choice, p, hp, hserves, hproper⟩ := victim_spec h.serves
    fun id (hid : id ∈ c.candidates addr) => candidates_within hid
  have hne : c.candidates addr ≠ [] := List.ne_nil_of_mem
    (mem_candidates.2 ⟨rfl, h.ways_pos⟩ : (⟨c.geometry.setOf addr, 0⟩ : LineId) ∈ _)
  obtain ⟨id, rfl⟩ := hproper.exists_of_ne_nil hne
  have hid := hproper.mem id rfl
  have hl := candidates_within hid
  obtain ⟨hset, hway⟩ := mem_candidates.1 hid
  obtain ⟨old, hold⟩ := h.shaped.exists_get hl
  obtain ⟨lines, hlines⟩ := h.shaped.exists_set hl ⟨c.geometry.tagOf addr, secure, true⟩
  obtain ⟨p', hp', hserves'⟩ := fill_spec (c.geometry.tagOf addr) hserves hl
  -- What is evicted is put together from set and tag; it is the block that the line has held.
  have hinstall : install { c with statistics := s } addr secure = do
      let c' ← count { c with lines, policy := p', statistics := s } fun s => { s with
        evictions := s.evictions + ((c.held id).map (·.1)).isSome.toNat, fills := s.fills + 1 }
      return ((c.held id).map (·.1), c') := by
    have hp : victim c.policy (candidates { c with statistics := s } addr) = _ := hp
    simp only [install, hp, ok_bind, Option.getD_some, hold, hlines, hp']
    cases hvalid : old.valid with
    | false =>
      have hheld : c.held id = none := by
        rw [held_of_get hl hold, Line.pair?_of_not_valid hvalid]
      simp only [hheld]
      rfl
    | true =>
      obtain ⟨other, hother, htag, hheld⟩ := h.held_of_valid hl hold hvalid
      simp only [hheld, if_true, ← hset, ← hother, ← htag, Geometry.rebuild_eq h.lineBytes_pow]
      rfl
  rw [hinstall]
  refine (count_spec _ (hbound _)).bind ?_
  rintro _ rfl
  obtain ⟨hsound, hheld⟩ := h.rewrite { c with
      lines, policy := p', statistics := { s with
        evictions := s.evictions + ((c.held id).map (·.1)).isSome.toNat
        fills := s.fills + 1 } } addr hl rfl hlines
    (fun _ => ⟨hset.symm, rfl, habsent⟩) (hs.symm ▸ hserves')
  refine ⟨hsound, ⟨id, rfl, hset, hway, ?_, rfl, hheld, p, hp, hp'⟩, rfl⟩
  intro way hway' hvacant
  have hgiven := hproper.vacant (mem_candidates.2 ⟨rfl, hway'⟩ :
    (⟨c.geometry.setOf addr, way⟩ : LineId) ∈ _) (by rw [hvacant]; rfl)
  simpa using hgiven

theorem dropLine_spec (h : c.Sound) {pair : UInt64 × Bool} (hpair : c.held id = some pair)
    {s : Statistics} (hs : s.hits = c.statistics.hits)
    (hbound : Statistics.Below { s with invalidations := s.invalidations + 1 } bound) :
    Delivers (dropLine { c with statistics := s } id) (Exhausted bound) fun c' => c'.Sound ∧
      c.Dropped id c' ∧ c'.statistics = { s with invalidations := s.invalidations + 1 } := by
  have hl := within_of_held hpair
  obtain ⟨line, lines, hline, hmodify, hset⟩ := h.shaped.modify_eq hl fun line : Line =>
    { line with valid := false }
  obtain ⟨p', hp', hserves⟩ := invalidate_spec h.serves hl
  simp only [dropLine, hmodify, ok_bind, hp']
  refine (count_spec _ hbound).mono (fun _ hfault => hfault) ?_
  rintro _ rfl
  obtain ⟨hsound, hheld⟩ := h.rewrite { c with
      lines, policy := p', statistics := { s with invalidations := s.invalidations + 1 } }
    0 hl rfl hset (fun hvalid => by cases hvalid) (hs.symm ▸ hserves)
  exact ⟨hsound, ⟨rfl, hheld, hp'⟩, rfl⟩

end Sound

end Contents

end Residency
