import Residency.Proofs.Contents.Operations

/-!
# Sound contents with conserved statistics

The operations that a cache is made of, from the demand access to the flush. Each of them keeps the
contents sound and the statistics conserved, and stops only where a counter would leave its 64 bits.
-/

namespace Residency

namespace Contents

open ReplacementPolicy LawfulPolicy

variable {σ : Type} [ReplacementPolicy σ] {c c' : Contents σ} {id : LineId} {addr : UInt64}
  {secure : Bool} {accesses asked : Nat}

theorem Installed.occupancy_eq {evicted : Option UInt64}
    (h : c.Installed addr secure id evicted c') :
    c'.occupancy + evicted.isSome.toNat = c.occupancy + 1 := by
  have hl : id.Within c.geometry.sets c.geometry.ways :=
    ⟨h.set_eq ▸ c.geometry.setOf_lt addr, h.way_lt⟩
  have hcount := occupancy_update hl h.geometry_eq h.held_eq
  rw [h.evicted_eq, Option.isSome_map]
  simpa using hcount

theorem Dropped.occupancy_eq {pair : UInt64 × Bool} (h : c.Dropped id c')
    (hpair : c.held id = some pair) : c'.occupancy + 1 = c.occupancy := by
  have hcount := occupancy_update (within_of_held hpair) h.geometry_eq h.held_eq
  simpa [hpair] using hcount

/-- What a demand access comes to: a hit touches the line, a miss fills one. -/
inductive Served (c : Contents σ) (access : Access) : Bool → Option UInt64 → Contents σ → Prop
  | hit {c' : Contents σ} (id : LineId)
      (held : c.held id = some (c.geometry.blockOf access.addr, access.secure))
      (told : touch c.policy id = .ok c'.policy) (geometry_eq : c'.geometry = c.geometry)
      (held_eq : c'.held = c.held) : Served c access true none c'
  | miss {c' : Contents σ} {id : LineId} {evicted : Option UInt64}
      (absent : c.Absent access.addr access.secure)
      (installed : c.Installed access.addr access.secure id evicted c') :
      Served c access false evicted c'

theorem Served.withStatistics {access : Access} {hit : Bool} {evicted : Option UInt64}
    (h : c.Served access hit evicted c') (s : Statistics) :
    c.Served access hit evicted { c' with statistics := s } := by
  cases h with
  | hit id held told geometry_eq held_eq => exact .hit id held told geometry_eq held_eq
  | miss absent installed =>
    exact .miss absent ⟨installed.geometry_eq, installed.set_eq, installed.way_lt,
      installed.vacant_first, installed.evicted_eq, installed.held_eq, installed.told⟩

theorem Served.geometry_eq {access : Access} {hit : Bool} {evicted : Option UInt64}
    (h : c.Served access hit evicted c') : c'.geometry = c.geometry := by
  cases h with
  | hit id held told geometry_eq held_eq => exact geometry_eq
  | miss absent installed => exact installed.geometry_eq

/-- Once an access has been served its block is there. -/
theorem Served.exists_held {access : Access} {hit : Bool} {evicted : Option UInt64}
    (h : c.Served access hit evicted c') :
    ∃ id, c'.held id = some (c'.geometry.blockOf access.addr, access.secure) := by
  rw [h.geometry_eq]
  cases h with
  | hit id held told geometry_eq held_eq => exact ⟨id, by rw [held_eq, held]⟩
  | @miss _ id _ absent installed =>
    exact ⟨id, by rw [installed.held_eq, Function.update_self]⟩

/-- What a request to drop a block comes to. -/
inductive Vacated (c : Contents σ) (addr : UInt64) (secure : Bool) : Bool → Contents σ → Prop
  | found {c' : Contents σ} (id : LineId)
      (held : c.held id = some (c.geometry.blockOf addr, secure)) (dropped : c.Dropped id c') :
      Vacated c addr secure true c'
  | missing (absent : c.Absent addr secure) (s : Statistics) :
      Vacated c addr secure false { c with statistics := s }

theorem Vacated.geometry_eq {dropped : Bool} (h : c.Vacated addr secure dropped c') :
    c'.geometry = c.geometry := by
  cases h with
  | found id held dropped => exact dropped.geometry_eq
  | missing absent s => rfl

/-- A request names a block by any of its addresses. -/
theorem Vacated.of_blockOf (hpow : c.geometry.lineBytes.isPowerOfTwo) {dropped : Bool}
    (h : c.Vacated (c.geometry.blockOf addr) secure dropped c') :
    c.Vacated addr secure dropped c' := by
  have hblock := Geometry.blockOf_blockOf hpow addr
  cases h with
  | found id held dropped => exact .found id (hblock ▸ held) dropped
  | missing absent s => exact .missing (fun id => hblock ▸ absent id) s

/-- What a prefetch comes to. -/
inductive Prefetched (c : Contents σ) (target : UInt64) (secure : Bool) : Contents σ → Prop
  | present (id : LineId) (held : c.held id = some (c.geometry.blockOf target, secure)) :
      Prefetched c target secure c
  | filled {c' : Contents σ} {id : LineId} {evicted : Option UInt64}
      (absent : c.Absent target secure) (installed : c.Installed target secure id evicted c') :
      Prefetched c target secure c'

theorem Prefetched.geometry_eq {target : UInt64} (h : c.Prefetched target secure c') :
    c'.geometry = c.geometry := by
  cases h with
  | present id held => rfl
  | filled absent installed => exact installed.geometry_eq

variable [LawfulPolicy σ]

/-- Sound contents whose statistics account for at most `accesses` accesses, at most `asked`
requested prefetches, and the occupied lines. -/
structure Accounted (c : Contents σ) (accesses asked : Nat) : Prop extends Sound c where
  conserved : c.statistics.Conserved c.occupancy accesses asked

namespace Accounted

theorem mono (h : c.Accounted accesses asked) {accesses' asked' : Nat} (ha : accesses ≤ accesses')
    (hk : asked ≤ asked') : c.Accounted accesses' asked' := by
  obtain ⟨h₁, h₂, h₃, h₄, h₅, h₆, h₇⟩ := h.conserved
  refine ⟨h.toSound, ?_⟩
  constructor <;> omega

/-- A demand access keeps contents accounted for, with one more access. -/
theorem serve_spec (h : c.Accounted accesses asked) (access : Access) :
    Delivers (c.serve access) (Exhausted (accesses + 1 + asked)) fun result =>
      c.Served access result.1 result.2.1 result.2.2 ∧
      result.2.2.Accounted (accesses + 1) asked ∧
      result.2.2.statistics.deadPredictions = c.statistics.deadPredictions := by
  obtain ⟨h₁, h₂, h₃, h₄, h₅, h₆, h₇⟩ := h.conserved
  rw [serve]
  refine (count_spec _ (by constructor <;> dsimp only <;> omega)).bind ?_
  rintro _ rfl
  obtain ⟨found, hfound, hspec⟩ := h.find?_spec access.addr access.secure
  rw [find?_withStatistics, hfound, ok_bind]
  cases found with
  | some id =>
    have hheld := (hspec id).1 rfl
    refine (count_spec _ (by constructor <;> dsimp only <;> omega)).bind ?_
    rintro _ rfl
    dsimp only
    refine ((h.use_spec hheld rfl).mono (fun _ => Exhausted.mono ?_) fun _ hc' => hc').bind ?_
    · dsimp only
      omega
    · rintro c' ⟨hsound, htold, heq⟩
      rw [heq] at hsound ⊢
      refine .of_eq_ok rfl ⟨.hit id hheld htold rfl rfl, ⟨hsound, ?_⟩, rfl⟩
      show Statistics.Conserved _ c.occupancy _ _
      constructor <;> dsimp only <;> omega
  | none =>
    have habsent : c.Absent access.addr access.secure := fun id hheld => by
      cases (hspec id).2 hheld
    refine (count_spec _ (by constructor <;> dsimp only <;> omega)).bind ?_
    rintro _ rfl
    dsimp only
    refine (h.install_spec habsent ?_ fun evicted => ?_).bind ?_
    · rfl
    · have := Bool.toNat_le evicted
      constructor <;> dsimp only <;> omega
    · rintro ⟨evicted, c'⟩ ⟨hsound, ⟨id, hinstalled⟩, hstatistics⟩
      have hoccupancy := hinstalled.occupancy_eq
      refine .of_eq_ok rfl ⟨.miss habsent hinstalled, ⟨hsound, ?_⟩, ?_⟩
      · dsimp only at hstatistics hoccupancy ⊢
        rw [hstatistics]
        constructor <;> dsimp only <;> omega
      · rw [hstatistics]

theorem dropLine_spec (h : c.Accounted accesses asked) {pair : UInt64 × Bool}
    (hpair : c.held id = some pair) :
    Delivers (c.dropLine id) (Exhausted (accesses + asked)) fun c' =>
      c.Dropped id c' ∧ c'.Accounted accesses asked ∧ c'.statistics = { c.statistics with
        invalidations := c.statistics.invalidations + 1 } := by
  obtain ⟨h₁, h₂, h₃, h₄, h₅, h₆, h₇⟩ := h.conserved
  have hpos := occupancy_pos hpair
  refine (Sound.dropLine_spec h.toSound hpair rfl ?_).mono (fun _ hfault => hfault) ?_
  · constructor <;> dsimp only <;> omega
  · rintro c' ⟨hsound, hdropped, hstatistics⟩
    have hoccupancy := hdropped.occupancy_eq hpair
    refine ⟨hdropped, ⟨hsound, ?_⟩, hstatistics⟩
    rw [hstatistics]
    constructor <;> dsimp only <;> omega

theorem dropBlock_spec (h : c.Accounted accesses asked) (addr : UInt64) (secure : Bool) :
    Delivers (c.dropBlock addr secure) (Exhausted (accesses + asked)) fun result =>
      c.Vacated addr secure result.1 result.2 ∧ result.2.Accounted accesses asked := by
  obtain ⟨found, hfound, hspec⟩ := h.find?_spec addr secure
  rw [dropBlock, hfound, ok_bind]
  cases found with
  | some id =>
    have hheld := (hspec id).1 rfl
    refine (h.dropLine_spec hheld).bind ?_
    rintro c' ⟨hdropped, haccounted, -⟩
    exact .of_eq_ok rfl ⟨.found id hheld hdropped, haccounted⟩
  | none =>
    have habsent : c.Absent addr secure := fun id hheld => by cases (hspec id).2 hheld
    exact .of_eq_ok rfl ⟨.missing habsent c.statistics, h⟩

/-- A predicted block is dropped as on request, once the prediction has been counted. -/
theorem dropDead_spec (h : c.Accounted accesses asked)
    (hdead : c.statistics.deadPredictions < accesses) (block : UInt64) (secure : Bool) :
    Delivers (BlockInvalidator.dropDead c block secure) (Exhausted (accesses + asked))
      fun result => c.Vacated block secure result.1 result.2 ∧
        result.2.Accounted accesses asked := by
  obtain ⟨h₁, h₂, h₃, h₄, h₅, h₆, h₇⟩ := h.conserved
  refine (count_spec _ (by constructor <;> dsimp only <;> omega)).bind ?_
  rintro _ rfl
  have h' : Accounted { c with statistics := { c.statistics with
      deadPredictions := c.statistics.deadPredictions + 1 } } accesses asked :=
    ⟨h.withStatistics rfl, by
      show Statistics.Conserved _ c.occupancy _ _
      constructor <;> dsimp only <;> omega⟩
  refine (h'.dropBlock_spec block secure).mono (fun _ hfault => hfault) ?_
  rintro ⟨dropped, c'⟩ ⟨hvacated, haccounted⟩
  refine ⟨?_, haccounted⟩
  cases hvacated with
  | found id held dropped =>
    exact .found id held ⟨dropped.geometry_eq, dropped.held_eq, dropped.told⟩
  | missing absent s => exact .missing (show c.Absent block secure from absent) s

/-- A prefetch changes nothing if the block is there. Otherwise it fills a line, and counts the fill
and what has been evicted. -/
theorem prefetch_counts (h : c.Accounted accesses asked)
    (hasked : c.statistics.prefetchFills < asked) (secure : Bool) (target : UInt64) :
    Delivers (prefetch secure c target) (Exhausted (accesses + asked)) fun c' =>
      c'.Accounted accesses asked ∧
      ((c' = c ∧ ∃ id, c.held id = some (c.geometry.blockOf target, secure)) ∨
        (c.Absent target secure ∧ ∃ id evicted, c.Installed target secure id evicted c' ∧
          c'.statistics = { c.statistics with
            evictions := c.statistics.evictions + evicted.isSome.toNat
            fills := c.statistics.fills + 1
            prefetchFills := c.statistics.prefetchFills + 1 })) := by
  obtain ⟨h₁, h₂, h₃, h₄, h₅, h₆, h₇⟩ := h.conserved
  obtain ⟨found, hfound, hspec⟩ := h.find?_spec target secure
  rw [prefetch, hfound, ok_bind]
  cases found with
  | some id => exact .of_eq_ok rfl ⟨h, .inl ⟨rfl, id, (hspec id).1 rfl⟩⟩
  | none =>
    have habsent : c.Absent target secure := fun id hheld => by cases (hspec id).2 hheld
    refine (h.install_spec (s := c.statistics) habsent rfl fun evicted => ?_).bind ?_
    · have := Bool.toNat_le evicted
      constructor <;> dsimp only <;> omega
    · rintro ⟨evicted, c'⟩ ⟨hsound, ⟨id, hinstalled⟩, hstatistics⟩
      have hoccupancy := hinstalled.occupancy_eq
      dsimp only at hsound hinstalled hstatistics hoccupancy ⊢
      refine (count_spec _ ?_).mono (fun _ hfault => hfault) ?_
      · rw [hstatistics]
        constructor <;> dsimp only <;> omega
      · rintro _ rfl
        refine ⟨⟨hsound.withStatistics rfl, ?_⟩, .inr ⟨habsent, id, evicted,
          ⟨hinstalled.geometry_eq, hinstalled.set_eq, hinstalled.way_lt, hinstalled.vacant_first,
            hinstalled.evicted_eq, hinstalled.held_eq, hinstalled.told⟩, ?_⟩⟩
        · show Statistics.Conserved _ c'.occupancy _ _
          rw [hstatistics]
          constructor <;> dsimp only <;> omega
        · rw [hstatistics]

theorem prefetch_spec (h : c.Accounted accesses asked)
    (hasked : c.statistics.prefetchFills < asked) (secure : Bool) (target : UInt64) :
    Delivers (prefetch secure c target) (Exhausted (accesses + asked)) fun c' =>
      c.Prefetched target secure c' ∧ c'.Accounted accesses asked ∧
      c'.statistics.prefetchFills ≤ c.statistics.prefetchFills + 1 := by
  refine (h.prefetch_counts hasked secure target).mono (fun _ hfault => hfault) ?_
  rintro c' ⟨haccounted, ⟨rfl, id, hheld⟩ | ⟨habsent, id, evicted, hinstalled, hstatistics⟩⟩
  · exact ⟨.present id hheld, haccounted, Nat.le_succ _⟩
  · exact ⟨.filled habsent hinstalled, haccounted,
      Nat.le_of_eq (congrArg (·.prefetchFills) hstatistics)⟩

/-- Prefetches that are asked for are accounted for before they are filled. -/
theorem issue (h : c.Accounted accesses asked) (targets : Nat) :
    Accounted { c with statistics := { c.statistics with
        prefetchesIssued := c.statistics.prefetchesIssued + targets } }
      accesses (asked + targets) := by
  obtain ⟨h₁, h₂, h₃, h₄, h₅, h₆, h₇⟩ := h.conserved
  refine ⟨h.withStatistics rfl, ?_⟩
  show Statistics.Conserved _ c.occupancy _ _
  constructor <;> dsimp only <;> omega

/-- What every prefetch preserves, prefetching all targets preserves. The invariant may speak of the
targets already prefetched. -/
theorem prefetchAll_spec {motive : List UInt64 → Contents σ → Prop}
    (h : c.Accounted accesses asked) (targets : List UInt64)
    (hmotive : motive [] { c with statistics := { c.statistics with
      prefetchesIssued := c.statistics.prefetchesIssued + targets.length } })
    (hstep : ∀ done target c c', done ++ [target] <+: targets → c.Sound → motive done c →
      c.Prefetched target secure c' → motive (done ++ [target]) c') :
    Delivers (c.prefetchAll secure targets) (Exhausted (accesses + (asked + targets.length)))
      fun c' => motive targets c' ∧ c'.Accounted accesses (asked + targets.length) := by
  obtain ⟨h₁, h₂, h₃, h₄, h₅, h₆, h₇⟩ := h.conserved
  refine (count_spec _ (by constructor <;> dsimp only <;> omega)).bind ?_
  rintro _ rfl
  refine (Delivers.foldlM_history (motive := fun done c' => motive done c' ∧
    c'.Accounted accesses (asked + targets.length) ∧
    c'.statistics.prefetchFills ≤ asked + done.length) ⟨hmotive, h.issue _, h₅⟩ ?_).mono
    (fun _ hfault => hfault) fun c' hc' => ⟨hc'.1, hc'.2.1⟩
  · rintro done target c hdone ⟨hm, haccounted, hfills⟩
    -- A target is still to come, so the prefetches so far are fewer than were asked for.
    have hlength : done.length + 1 ≤ targets.length := by simpa using hdone.length_le
    refine (haccounted.prefetch_spec (by omega) secure target).mono (fun _ hfault => hfault) ?_
    rintro c' ⟨hprefetched, haccounted', hfills'⟩
    refine ⟨hstep done target c c' hdone haccounted.toSound hm hprefetched, haccounted', ?_⟩
    rw [List.length_append, List.length_singleton]
    omega

/-- A line is vacant already, or it is dropped. -/
theorem vacate_spec (h : c.Accounted accesses asked)
    (hl : id.Within c.geometry.sets c.geometry.ways) :
    Delivers (c.vacate id) (Exhausted (accesses + asked)) fun c' =>
      c'.Accounted accesses asked ∧ ((c' = c ∧ c.held id = none) ∨ c.Dropped id c') := by
  obtain ⟨line, hline⟩ := h.shaped.exists_get hl
  rw [vacate, hline, ok_bind]
  cases hvalid : line.valid with
  | false =>
    apply Delivers.of_eq_ok rfl
    exact ⟨h, .inl ⟨rfl, by rw [held_of_get hl hline, Line.pair?_of_not_valid hvalid]⟩⟩
  | true =>
    obtain ⟨addr, -, -, hheld⟩ := h.held_of_valid hl hline hvalid
    refine (h.dropLine_spec hheld).mono (fun _ hfault => hfault) ?_
    rintro c' ⟨hdropped, haccounted, _⟩
    exact ⟨haccounted, .inr hdropped⟩

/-- What every dropped line preserves, a flush preserves; afterwards no line holds anything. -/
theorem flush_spec {motive : Contents σ → Prop} (h : c.Accounted accesses asked)
    (hmotive : motive c)
    (hstep : ∀ c c' id, c.Sound → id.Within c.geometry.sets c.geometry.ways → motive c →
      c.Dropped id c' → motive c') :
    Delivers c.flush (Exhausted (accesses + asked)) fun c' => motive c' ∧
      c'.Accounted accesses asked ∧ c'.geometry = c.geometry ∧ ∀ id, c'.held id = none := by
  refine (Delivers.foldlM_history (motive := fun done c' => motive c' ∧
    c'.Accounted accesses asked ∧ c'.geometry = c.geometry ∧ ∀ id ∈ done, c'.held id = none)
    ⟨hmotive, h, rfl, by simp⟩ ?_).mono (fun _ hfault => hfault) ?_
  · rintro done id c₁ hdone ⟨hm, haccounted, hg, hnone⟩
    have hl : id.Within c₁.geometry.sets c₁.geometry.ways :=
      hg ▸ Geometry.mem_allLines.1 (hdone.subset (by simp))
    refine (haccounted.vacate_spec hl).mono (fun _ hfault => hfault) ?_
    rintro c₂ ⟨haccounted', ⟨rfl, hvacant⟩ | hdropped⟩
    · refine ⟨hm, haccounted, hg, fun other hother => ?_⟩
      rcases List.mem_append.1 hother with hother | hother
      · exact hnone other hother
      · exact List.mem_singleton.1 hother ▸ hvacant
    · refine ⟨hstep c₁ c₂ id haccounted.toSound hl hm hdropped, haccounted',
        hdropped.geometry_eq.trans hg, fun other hother => ?_⟩
      rw [hdropped.held_eq, Function.update_apply]
      split
      · rfl
      · rename_i hne
        rcases List.mem_append.1 hother with hother | hother
        · exact hnone other hother
        · exact absurd (List.mem_singleton.1 hother) hne
  · rintro c' ⟨hm, haccounted, hg, hnone⟩
    refine ⟨hm, haccounted, hg, fun id => ?_⟩
    -- Outside the geometry nothing is held anyway.
    cases hheld : c'.held id with
    | none => rfl
    | some pair =>
      have hid := Geometry.mem_allLines.2 (hg ▸ within_of_held hheld)
      rw [← hheld]
      exact hnone id hid

/-- A flush leaves nothing. -/
theorem flush_clears (h : c.Accounted accesses asked) :
    Delivers c.flush (Exhausted (accesses + asked)) fun c' =>
      c'.Accounted accesses asked ∧ c'.geometry = c.geometry ∧ ∀ id, c'.held id = none :=
  (h.flush_spec (motive := fun _ => True) trivial fun _ _ _ _ _ _ _ => trivial).mono
    (fun _ hfault => hfault) fun _ hc' => hc'.2

end Accounted

end Contents

end Residency
