import Residency.Proofs.Contents.Alike

/-!
# Operations on contents that agree on a zone

A zone is a number of sets. Contents that are alike on the sets of a zone stay so when both carry
out the same operations on blocks of the zone, and when one carries out operations on other blocks.
-/

namespace Residency

namespace Contents

open ReplacementPolicy LawfulPolicy Statistics

/-! ## What is counted -/

section

variable {σ : Type} [ReplacementPolicy σ] [LawfulPolicy σ] {c c' : Contents σ}
  {accesses asked : Nat} {secure : Bool}

/-- The contents are accounted for, after however many accesses and requested prefetches. -/
def Audited (c : Contents σ) : Prop :=
  ∃ accesses asked, c.Accounted accesses asked

theorem Audited.prefetch_counts {target : UInt64} (h : c.Audited)
    (hcs : c.prefetch secure target = .ok c') :
    c'.Audited ∧ ((c' = c ∧ ∃ id, c.held id = some (c.geometry.blockOf target, secure)) ∨
      (c.Absent target secure ∧ ∃ id evicted, c.Installed target secure id evicted c' ∧
        c'.statistics = { c.statistics with
          evictions := c.statistics.evictions + evicted.isSome.toNat
          fills := c.statistics.fills + 1
          prefetchFills := c.statistics.prefetchFills + 1 })) := by
  obtain ⟨accesses, asked, h⟩ := h
  have hmore : c.Accounted accesses (asked + 1) := h.mono (Nat.le_refl _) (Nat.le_succ _)
  have hfills : c.statistics.prefetchFills < asked + 1 :=
    Nat.lt_succ_of_le h.conserved.prefetchFills_le
  obtain ⟨hc', hcounts⟩ := (hmore.prefetch_counts hfills secure target).of_ok hcs
  exact ⟨⟨_, _, hc'⟩, hcounts⟩

theorem Accounted.flush_counts (h : c.Accounted accesses asked) (hcs : c.flush = .ok c') :
    c'.statistics = { c.statistics with
      invalidations := c.statistics.invalidations + c.occupancy } := by
  obtain ⟨hc', -, hnone⟩ := h.flush_clears.of_ok hcs
  obtain ⟨dropped, hstatistics⟩ := flush_statistics hcs
  have hempty : c'.occupancy = 0 := List.countP_eq_zero.2 fun id _ => by simp [hnone]
  have hbefore := h.conserved.kept
  have hafter := hc'.conserved.kept
  rw [hempty, hstatistics] at hafter
  dsimp only at hafter
  obtain rfl : dropped = c.occupancy := by omega
  exact hstatistics

end

/-! ## Agreement on a zone -/

variable {σ : Type} [ReplacementPolicy σ] [LawfulPolicy σ] [SetwisePolicy σ]
  {c c' d d' : Contents σ} {zone : Nat → Prop} {set accesses asked accesses' asked' : Nat}
  {addr : UInt64} {secure hit hit' dropped dropped' : Bool} {evicted evicted' : Option UInt64}
  {access : Access} {targets : List UInt64}

/-- The contents are alike on the sets of a zone. -/
structure AlikeOn (zone : Nat → Prop) (c d : Contents σ) : Prop where
  geometry_eq : d.geometry = c.geometry
  alike : ∀ set, set < c.geometry.sets → zone set → c.Alike set d

namespace AlikeOn

theorem withStatistics (h : c.AlikeOn zone d) (s t : Statistics) :
    AlikeOn zone { c with statistics := s } { d with statistics := t } where
  geometry_eq := h.geometry_eq
  alike := by
    intro set hset hzone
    have halike := h.alike set hset hzone
    exact ⟨halike.geometry_eq, halike.held_eq, halike.policy⟩

theorem mono (h : c.AlikeOn zone d) {smaller : Nat → Prop}
    (hzone : ∀ set, smaller set → zone set) : c.AlikeOn smaller d :=
  ⟨h.geometry_eq, fun set hset hin => h.alike set hset (hzone set hin)⟩

/-- Both sides change one set, and are alike on it afterwards. -/
theorem both (h : c.AlikeOn zone d) (hc : c.Sound) (hd : d.Sound) (hset : set < c.geometry.sets)
    (hc' : c.Confined set c') (hd' : d.Confined set d') (halike : c'.Alike set d') :
    c'.AlikeOn zone d' where
  geometry_eq := halike.geometry_eq
  alike := by
    intro other hother hzone
    rw [hc'.geometry_eq] at hother
    by_cases hne : set = other
    · exact hne ▸ halike
    · have hleft := (h.alike other hother hzone).confined hc hother hset hne hc'
      rw [← h.geometry_eq] at hother hset
      exact (hleft.symm.confined hd hother hset hne hd').symm

/-- One side changes a set outside the zone. -/
theorem outside (h : c.AlikeOn zone d) (hc : c.Sound) (hset : set < c.geometry.sets)
    (hzone : ¬ zone set) (hc' : c.Confined set c') : c'.AlikeOn zone d where
  geometry_eq := h.geometry_eq.trans hc'.geometry_eq.symm
  alike := by
    intro other hother hin
    rw [hc'.geometry_eq] at hother
    have hne : set ≠ other := by
      rintro rfl
      exact hzone hin
    exact (h.alike other hother hin).confined hc hother hset hne hc'

/-! ## Accesses, dropped blocks and prefetches -/

theorem serve (h : c.AlikeOn zone d) (hc : c.Accounted accesses asked)
    (hd : d.Accounted accesses' asked') (hzone : zone (c.geometry.setOf access.addr))
    (hcs : c.serve access = .ok (hit, evicted, c'))
    (hds : d.serve access = .ok (hit', evicted', d')) :
    hit' = hit ∧ evicted' = evicted ∧ c'.AlikeOn zone d' ∧
      GrowAlike c.statistics c'.statistics d.statistics d'.statistics := by
  have hset := c.geometry.setOf_lt access.addr
  have hc' := ((hc.serve_spec access).of_ok hcs).1
  have hd' := ((hd.serve_spec access).of_ok hds).1
  have hconfined := hd'.confined hd.toSound
  rw [h.geometry_eq] at hconfined
  obtain ⟨rfl, rfl, halike⟩ :=
    (h.alike _ hset hzone).served hc.toSound hd.toSound rfl hc' hd'
  refine ⟨rfl, rfl, ?_, ?_⟩
  · exact h.both hc.toSound hd.toSound hset (hc'.confined hc.toSound) hconfined halike
  · rw [serve_statistics hcs, serve_statistics hds]
    exact ⟨{
      accesses := 1
      hits := hit'.toNat
      misses := (!hit').toNat
      fills := (!hit').toNat
      evictions := evicted'.isSome.toNat }, rfl, rfl⟩

theorem dropBlock (h : c.AlikeOn zone d) (hc : c.Accounted accesses asked)
    (hd : d.Accounted accesses' asked') (hzone : zone (c.geometry.setOf addr))
    (hcs : c.dropBlock addr secure = .ok (dropped, c'))
    (hds : d.dropBlock addr secure = .ok (dropped', d')) :
    dropped' = dropped ∧ c'.AlikeOn zone d' ∧
      GrowAlike c.statistics c'.statistics d.statistics d'.statistics := by
  have hset := c.geometry.setOf_lt addr
  have hc' := ((hc.dropBlock_spec addr secure).of_ok hcs).1
  have hd' := ((hd.dropBlock_spec addr secure).of_ok hds).1
  have hconfined := hd'.confined hd.toSound
  rw [h.geometry_eq] at hconfined
  obtain ⟨rfl, halike⟩ := (h.alike _ hset hzone).vacated hc.toSound hd.toSound rfl hc' hd'
  refine ⟨rfl, ?_, ?_⟩
  · exact h.both hc.toSound hd.toSound hset (hc'.confined hc.toSound) hconfined halike
  · rw [dropBlock_statistics hcs, dropBlock_statistics hds]
    exact ⟨{ invalidations := dropped'.toNat }, rfl, rfl⟩

theorem prefetch {target : UInt64} (h : c.AlikeOn zone d) (hc : c.Audited) (hd : d.Audited)
    (hzone : zone (c.geometry.setOf target)) (hcs : c.prefetch secure target = .ok c')
    (hds : d.prefetch secure target = .ok d') :
    c'.AlikeOn zone d' ∧ c'.Audited ∧ d'.Audited ∧ c'.geometry = c.geometry ∧
      GrowAlike c.statistics c'.statistics d.statistics d'.statistics := by
  obtain ⟨hc', hcounts⟩ := hc.prefetch_counts hcs
  obtain ⟨hd', hcounts'⟩ := hd.prefetch_counts hds
  obtain ⟨accesses, asked, hc⟩ := hc
  obtain ⟨accesses', asked', hd⟩ := hd
  have hset := c.geometry.setOf_lt target
  have halike := h.alike _ hset hzone
  -- The block is there on both sides or on none.
  rcases hcounts with ⟨rfl, id, hheld⟩ | ⟨habsent, id, evicted, hinstalled, hstatistics⟩
  · rcases hcounts' with ⟨rfl, -⟩ | ⟨habsent', -⟩
    · exact ⟨h, hc', hd', rfl, .refl _ _⟩
    · exact absurd hheld ((halike.absent_iff hc.toSound hd.toSound rfl).1 habsent' id)
  · rcases hcounts' with ⟨rfl, id', hheld'⟩ | ⟨habsent', id', evicted', hinstalled', hstatistics'⟩
    · exact absurd hheld' ((halike.absent_iff hc.toSound hd.toSound rfl).2 habsent id')
    · obtain ⟨rfl, hkept⟩ := halike.installed hc.toSound hd.toSound rfl hinstalled hinstalled'
      have hconfined := hinstalled'.confined
      rw [h.geometry_eq] at hconfined
      refine ⟨?_, hc', hd', hinstalled.geometry_eq, ?_⟩
      · exact h.both hc.toSound hd.toSound hset hinstalled.confined hconfined hkept
      · rw [hstatistics, hstatistics']
        exact ⟨{ fills := 1, evictions := evicted'.isSome.toNat, prefetchFills := 1 }, rfl, rfl⟩

theorem foldlM_prefetch (h : c.AlikeOn zone d) (hc : c.Audited) (hd : d.Audited)
    (hzone : ∀ target ∈ targets, zone (c.geometry.setOf target))
    (hcs : targets.foldlM (Contents.prefetch secure) c = .ok c')
    (hds : targets.foldlM (Contents.prefetch secure) d = .ok d') :
    c'.AlikeOn zone d' ∧ GrowAlike c.statistics c'.statistics d.statistics d'.statistics := by
  have hboth := foldlM_both (motive := fun c₁ d₁ => c₁.AlikeOn zone d₁ ∧ c₁.Audited ∧
    d₁.Audited ∧ c₁.geometry = c.geometry ∧
      GrowAlike c.statistics c₁.statistics d.statistics d₁.statistics)
    ?_ ⟨h, hc, hd, rfl, .refl _ _⟩ hcs hds
  · exact ⟨hboth.1, hboth.2.2.2.2⟩
  · intro target htarget c₁ c₂ d₁ d₂ ⟨halike, haudited, haudited', hg, hgrow⟩ hc₂ hd₂
    have hin := hzone target htarget
    rw [← hg] at hin
    obtain ⟨halike', hc', hd', hg', hgrow'⟩ :=
      halike.prefetch haudited haudited' hin hc₂ hd₂
    exact ⟨halike', hc', hd', hg'.trans hg, hgrow.trans hgrow'⟩

theorem prefetchAll (h : c.AlikeOn zone d) (hc : c.Accounted accesses asked)
    (hd : d.Accounted accesses' asked')
    (hzone : ∀ target ∈ targets, zone (c.geometry.setOf target))
    (hcs : c.prefetchAll secure targets = .ok c') (hds : d.prefetchAll secure targets = .ok d') :
    c'.AlikeOn zone d' ∧ GrowAlike c.statistics c'.statistics d.statistics d'.statistics := by
  obtain ⟨c₁, hcount, hfold⟩ := bind_eq_ok_iff.1 hcs
  obtain ⟨d₁, hcount', hfold'⟩ := bind_eq_ok_iff.1 hds
  obtain rfl := count_eq_ok hcount
  obtain rfl := count_eq_ok hcount'
  obtain ⟨halike, hgrow⟩ := (h.withStatistics _ _).foldlM_prefetch ⟨_, _, hc.issue _⟩
    ⟨_, _, hd.issue _⟩ hzone hfold hfold'
  refine ⟨halike, GrowAlike.trans ?_ hgrow⟩
  exact ⟨{ prefetchesIssued := targets.length }, rfl, rfl⟩

end AlikeOn

/-! ## Flushes -/

/-- After a flush of one side the policies are alike about a set of which nothing is occupied. -/
theorem Accounted.flush_vacant {q : σ} (h : c.Accounted accesses asked)
    (hset : set < c.geometry.sets)
    (hp : SetwisePolicy.Alike set c.geometry.ways (fun _ => false) c.policy q)
    (hcs : c.flush = .ok c') :
    SetwisePolicy.Alike set c.geometry.ways (fun _ => false) c'.policy q := by
  refine ((h.flush_spec (motive := fun c₁ => c₁.geometry = c.geometry ∧
    SetwisePolicy.Alike set c.geometry.ways (fun _ => false) c₁.policy q) ⟨rfl, hp⟩
    ?_).of_ok hcs).1.2
  intro c₁ c₂ id hs hl ⟨hg, halike⟩ hdropped
  refine ⟨hdropped.geometry_eq.trans hg, ?_⟩
  rw [← hg] at halike hset ⊢
  exact (hdropped.confined hl).told.alike_vacant hs.serves hset hl.1 halike

namespace AlikeOn

theorem occupancy_eq (h : c.AlikeOn zone d) (hzone : ∀ set, zone set) :
    d.occupancy = c.occupancy := by
  rw [occupancy, occupancy, h.geometry_eq]
  apply List.countP_congr
  intro id hid
  have hl := Geometry.mem_allLines.1 hid
  rw [(h.alike id.set hl.1 (hzone _)).held_eq id.way]

theorem flush (h : c.AlikeOn zone d) (hc : c.Accounted accesses asked)
    (hd : d.Accounted accesses' asked') (hcs : c.flush = .ok c') (hds : d.flush = .ok d') :
    c'.AlikeOn zone d' ∧ ((∀ set, zone set) →
      GrowAlike c.statistics c'.statistics d.statistics d'.statistics) := by
  obtain ⟨-, hg, hnone⟩ := hc.flush_clears.of_ok hcs
  obtain ⟨-, hg', hnone'⟩ := hd.flush_clears.of_ok hds
  have hsame : d'.geometry = c'.geometry := hg'.trans (h.geometry_eq.trans hg.symm)
  refine ⟨⟨hsame, ?_⟩, ?_⟩
  · intro set hset hin
    rw [hg] at hset
    have hvacant := SetwisePolicy.alike_vacant (h.alike set hset hin).policy
    have hleft := hc.flush_vacant hset hvacant hcs
    rw [← h.geometry_eq] at hset hleft
    have hboth := hd.flush_vacant hset (SetwisePolicy.alike_symm hleft) hds
    rw [← hg', hsame] at hboth
    exact .of_vacant hsame (fun way => hnone _) (fun way => hnone' _)
      (SetwisePolicy.alike_symm hboth)
  · intro hall
    rw [hc.flush_counts hcs, hd.flush_counts hds, h.occupancy_eq hall]
    exact ⟨{ invalidations := c.occupancy }, rfl, rfl⟩

end AlikeOn

end Contents

end Residency
