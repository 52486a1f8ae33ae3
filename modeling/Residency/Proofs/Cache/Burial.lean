import Residency.Proofs.Cache.Conservation
import Residency.Proofs.Cache.Residents

/-!
# A dead block is buried

When the dead-block prefetcher asks for a block, three things have happened in one access: the
accessed block was filled unless it was there, it was dropped again, and the block behind it was
filled unless it was there. The fills may fall into one set, and share its ways with blocks of the
other security domain. All the same, the accessed block is gone, the next one is there, and of the
other blocks each fill costs one at most, and none as long as a way is vacant.
-/

namespace Residency

/-! ## The next block -/

/-- The address of the block behind that of an address. Behind the last block comes the first. -/
def CacheSettings.nextBlock (s : CacheSettings) (addr : UInt64) : UInt64 :=
  blockAddress s.lineBytes addr + s.lineBytes

/-- Even at the end of the address space the next multiple is another one. -/
theorem next_multiple_ne {a line : Nat} (hpos : 0 < line) (hline : line < 2 ^ 64)
    (ha : a < 2 ^ 64) : (a / line * line + line) % 2 ^ 64 / line * line ≠ a / line * line := by
  intro heq
  have hle : a / line * line ≤ a := Nat.div_mul_le_self ..
  have hsame := Nat.mul_right_cancel hpos heq
  by_cases hfits : a / line * line + line < 2 ^ 64
  · rw [Nat.mod_eq_of_lt hfits, Nat.add_div_right _ hpos, Nat.mul_div_cancel _ hpos] at hsame
    omega
  · -- Past the end it is the first multiple, which is not as long as the line.
    have hwrapped : (a / line * line + line) % 2 ^ 64 < line := by omega
    rw [Nat.div_eq_of_lt hwrapped] at hsame
    rw [← hsame] at hfits
    omega

theorem Geometry.blockOf_next_ne {g : Geometry} (h : g.lineBytes.isPowerOfTwo) (addr : UInt64) :
    g.blockOf (g.blockOf addr + .ofNat g.lineBytes) ≠ g.blockOf addr := by
  intro heq
  have hnat := congrArg UInt64.toNat heq
  have hline : g.lineBytes < 2 ^ 64 := by
    rw [← g.toNat_ofNat_lineBytes]
    exact UInt64.toNat_lt _
  rw [toNat_blockOf h, toNat_blockOf h, UInt64.toNat_add, toNat_blockOf h,
    g.toNat_ofNat_lineBytes] at hnat
  exact next_multiple_ne g.lineBytes_pos hline addr.toNat_lt hnat

namespace Cache

variable {s : CacheSettings} {c c' : Cache} {accesses : Nat} {addr : UInt64} {secure : Bool}
  {access : Access} {pair : UInt64 × Bool} {left : Option (UInt64 × Bool)}

/-! ## Fills -/

/-- How a block becomes resident. It may be so already, or fill a vacant way of its set, or take the
place of a block of its set, all ways of which are valid; that block has left. -/
inductive Fills (c c' : Cache) (addr : UInt64) (secure : Bool) : Option (UInt64 × Bool) → Prop
  | present (resident : c.pairOf addr secure ∈ c.residents) (kept : c'.residents = c.residents) :
      Fills c c' addr secure none
  | vacant (vacancy : ¬ c.Full (c.setOf addr))
      (added : c'.residents = insert (c.pairOf addr secure) c.residents) :
      Fills c c' addr secure none
  | full (left : UInt64 × Bool) (full : c.Full (c.setOf addr)) (resident : left ∈ c.residents)
      (same_set : c.setOf left.1 = c.setOf addr)
      (replaced : c'.residents = insert (c.pairOf addr secure) (c.residents \ {left})) :
      Fills c c' addr secure (some left)

namespace Fills

theorem mem (h : Fills c c' addr secure left) : c.pairOf addr secure ∈ c'.residents := by
  cases h with
  | present resident kept => exact kept ▸ resident
  | vacant vacancy added => simp [added]
  | full left full resident same_set replaced => simp [replaced]

theorem mem_or (h : Fills c c' addr secure left) (hpair : pair ∈ c'.residents) :
    pair = c.pairOf addr secure ∨ pair ∈ c.residents := by
  cases h with
  | present resident kept => exact .inr (kept ▸ hpair)
  | vacant vacancy added => simpa [added] using hpair
  | full left full resident same_set replaced =>
    rw [replaced] at hpair
    rcases hpair with heq | ⟨hpair, -⟩
    · exact .inl heq
    · exact .inr hpair

theorem notMem (h : Fills c c' addr secure left) (hpair : pair ∉ c.residents)
    (hne : pair ≠ c.pairOf addr secure) : pair ∉ c'.residents := by
  intro hmem
  rcases h.mem_or hmem with heq | hmem
  · exact hne heq
  · exact hpair hmem

/-- What was resident still is, but for the one block that has left. -/
theorem keeps (h : Fills c c' addr secure left) (hpair : pair ∈ c.residents) :
    pair ∈ c'.residents ∨ left = some pair := by
  cases h with
  | present resident kept => exact .inl (kept ▸ hpair)
  | vacant vacancy added => simp [added, hpair]
  | full left full resident same_set replaced =>
    by_cases hleft : left = pair
    · exact .inr (congrArg some hleft)
    · left
      rw [replaced]
      exact .inr ⟨hpair, fun heq => hleft heq.symm⟩

/-- Two fills, and in between the first block is dropped again: what else was resident still is, but
for the two blocks that have left. -/
theorem keeps_others {served dropped : Cache} {addr' : UInt64} {secure' : Bool}
    {left' : Option (UInt64 × Bool)} (h : Fills c served addr secure left)
    (hdropped : dropped.residents = served.residents \ {c.pairOf addr secure})
    (h' : Fills dropped c' addr' secure' left') (hpair : pair ∈ c.residents)
    (hother : pair ≠ c.pairOf addr secure) :
    pair ∈ c'.residents ∨ left = some pair ∨ left' = some pair := by
  rcases h.keeps hpair with hserved | hleft
  · have hkept : pair ∈ dropped.residents := by
      rw [hdropped]
      exact ⟨hserved, hother⟩
    rcases h'.keeps hkept with hmem | hleft
    · exact .inl hmem
    · exact .inr (.inr hleft)
  · exact .inr (.inl hleft)

theorem withStatistics {contents : Contents Policy} {t : Statistics}
    (h : Fills { c with contents := { contents with statistics := t } } c' addr secure left) :
    Fills { c with contents } c' addr secure left := by
  cases h with
  | present resident kept => exact .present resident kept
  | vacant vacancy added => exact .vacant vacancy added
  | full left full resident same_set replaced =>
    exact .full left full resident same_set replaced

theorem of_served (h : c.contents.Sound) (henabled : c.enabled = true) {hit : Bool}
    {evicted : Option UInt64} (hserved : c.contents.Served access hit evicted c'.contents) :
    ∃ left, Fills c c' access.addr access.secure left ∧ evicted = left.map (·.1) := by
  cases evolves_of_served h henabled hserved with
  | bypass disabled kept => simp [henabled] at disabled
  | hit enabled resident kept => exact ⟨none, .present resident kept, rfl⟩
  | fill enabled absent vacancy added => exact ⟨none, .vacant vacancy added, rfl⟩
  | replace victim enabled absent full resident same_set replaced =>
    exact ⟨some victim, .full victim full resident same_set replaced, rfl⟩

theorem of_prefetched (h : c.contents.Sound) (henabled : c.enabled = true)
    (hprefetched : c.contents.Prefetched addr secure c'.contents) :
    ∃ left, Fills c c' addr secure left := by
  generalize hcontents : c'.contents = contents at hprefetched
  cases hprefetched with
  | present id held =>
    refine ⟨none, .present ⟨id, held⟩ ?_⟩
    rw [residents, hcontents, residents]
  | filled absent installed =>
    -- Apart from what is counted, this is a miss.
    have hserved : c.contents.Served { addr, secure } false _ c'.contents :=
      .miss absent (hcontents ▸ installed)
    obtain ⟨left, hfills, -⟩ := of_served h henabled hserved
    exact ⟨left, hfills⟩

end Fills

/-! ## The burial -/

theorem Reached.contains_eq (h : c.Reached s accesses) (henabled : c.enabled = true) {found : Bool}
    (hfound : c.pairOf addr secure ∈ c.residents ↔ found = true) :
    c.contains addr secure = .ok found := by
  obtain ⟨line, hline⟩ := h.lineOf_spec addr secure
  have hiff := isSome_lineOf h.accounted.toSound henabled hline
  rw [hfound, ← Bool.eq_iff_iff] at hiff
  rw [Cache.contains, hline, ← hiff]
  rfl

/-- An access that asks for the next block. Between the fill of the accessed block and that of the
next one, the accessed block is dropped. Either fill costs one other block at most, and only if all
ways of its set are valid by then. -/
structure Buries (s : CacheSettings) (c : Cache) (access : Access) (outcome : Outcome)
    (c' : Cache) : Prop where
  prefetches_eq : outcome.prefetches = [s.nextBlock access.addr]
  deadPredictions_eq : c'.statistics.deadPredictions = c.statistics.deadPredictions + 1
  invalidations_eq : c'.statistics.invalidations = c.statistics.invalidations + 1
  gone : c'.contains access.addr access.secure = .ok false
  arrived : c'.contains (s.nextBlock access.addr) access.secure = .ok true
  others : ∃ served dropped displaced ousted,
    c.contents.serve access = .ok (outcome.hit, outcome.evicted, served) ∧
    BlockInvalidator.dropDead served (blockAddress s.lineBytes access.addr) access.secure =
      .ok (true, dropped) ∧
    dropped.prefetchAll access.secure [s.nextBlock access.addr] = .ok c'.contents ∧
    outcome.evicted = displaced.map (·.1) ∧
    c.Fills { c with contents := served } access.addr access.secure displaced ∧
    Fills { c with contents := dropped } c' (s.nextBlock access.addr) access.secure ousted ∧
    ∀ pair ∈ c.residents, pair ≠ c.pairOf access.addr access.secure →
      pair ∈ c'.residents ∨ displaced = some pair ∨ ousted = some pair

section

variable {hit found : Bool} {evicted : Option UInt64} {served dropped filled : Contents Policy}

/-- What the prefetcher finds dead has just been served, so it is there to be dropped. -/
theorem Reached.residents_of_dropDead (h : c.Reached s accesses)
    (hserve : c.contents.serve access = .ok (hit, evicted, served))
    (hdrop : BlockInvalidator.dropDead served (blockAddress s.lineBytes access.addr)
      access.secure = .ok (found, dropped)) :
    found = true ∧ residents { c with contents := dropped } =
      residents { c with contents := served } \ {c.pairOf access.addr access.secure} := by
  obtain ⟨hserved, haccounted, hdead⟩ := (h.serve_spec access).of_ok hserve
  obtain ⟨hvacated, -⟩ := (h.dropDead_spec hserved.geometry_eq haccounted hdead access).of_ok hdrop
  cases hvacated with
  | found id held dropped =>
    refine ⟨rfl, ?_⟩
    rw [hserved.geometry_eq] at held
    rw [residents, dropped.held_eq]
    exact values_update_none haccounted.unique held
  | missing absent t =>
    obtain ⟨id, hid⟩ := hserved.exists_held
    exact absurd hid (absent id)

/-- A single target is counted, and then prefetched. -/
theorem Fills.of_prefetchAll {asked : Nat} {target : UInt64} (henabled : c.enabled = true)
    (h : dropped.Accounted accesses asked)
    (hfill : dropped.prefetchAll secure [target] = .ok c'.contents) :
    ∃ left, Fills { c with contents := dropped } c' target secure left := by
  obtain ⟨_, hcount, hprefetch⟩ := bind_eq_ok_iff.1 hfill
  obtain rfl := Contents.count_eq_ok hcount
  rw [List.foldlM_cons] at hprefetch
  obtain ⟨_, hprefetch, hend⟩ := bind_eq_ok_iff.1 hprefetch
  obtain rfl := Except.ok.inj hend
  have hissued := h.issue 1
  have hfew : dropped.statistics.prefetchFills < asked + 1 :=
    Nat.lt_succ_of_le h.conserved.prefetchFills_le
  obtain ⟨hprefetched, -⟩ := (hissued.prefetch_spec hfew secure target).of_ok hprefetch
  obtain ⟨left, hfills⟩ := of_prefetched (c := { c with contents := { dropped with
    statistics := { dropped.statistics with
      prefetchesIssued := dropped.statistics.prefetchesIssued + 1 } } }) hissued.toSound henabled
    hprefetched
  exact ⟨left, hfills.withStatistics⟩

end

theorem pairOf_congr (hg : c'.contents.geometry = c.contents.geometry) (addr : UInt64) :
    c'.pairOf addr secure = c.pairOf addr secure := by
  rw [pairOf, hg, pairOf]

theorem Reached.pairOf_nextBlock_ne (h : c.Reached s accesses) (addr : UInt64) (secure : Bool) :
    c.pairOf (s.nextBlock addr) secure ≠ c.pairOf addr secure := by
  intro heq
  apply Geometry.blockOf_next_ne h.accounted.lineBytes_pow addr
  rw [CacheSettings.nextBlock, ← h.lineBytes_eq] at heq
  exact congrArg Prod.fst heq

/-- Whenever something is asked for, the accessed block is buried. -/
theorem Reached.buries (h : c.Reached s accesses) (hkind : s.prefetcher = .dbcp)
    {outcome : Outcome} (hperformed : c.Performed s (.access access) (.outcome outcome) c')
    (hc' : c'.Reached s (accesses + 1)) (hg : c'.contents.geometry = c.contents.geometry)
    (hasked : outcome.prefetches ≠ []) : c.Buries s access outcome c' := by
  cases hperformed with
  | bypassAccess disabled => exact absurd rfl hasked
  | @access _ hit evicted _ served dropped filled prefetcher enabled serve watch prefetch =>
    cases watch with
    | none kind => cases hkind.symm.trans kind
    | nextLine kind length_eq => cases hkind.symm.trans kind
    | alive kind => exact absurd rfl hasked
    | dead kind drop =>
      obtain ⟨hserved, haccounted, hdead⟩ := (h.serve_spec access).of_ok serve
      obtain ⟨hvacated, haccounted'⟩ :=
        (h.dropDead_spec hserved.geometry_eq haccounted hdead access).of_ok drop
      obtain ⟨rfl, hresidents⟩ := h.residents_of_dropDead serve drop
      have hdemand : ∃ left, c.Fills { c with contents := served } access.addr access.secure left ∧
          evicted = left.map (·.1) := Fills.of_served h.accounted.toSound enabled hserved
      obtain ⟨displaced, hdemand, hevicted⟩ := hdemand
      have hfills : ∃ left, Fills { c with contents := dropped } ⟨c.enabled, filled, prefetcher⟩
          (s.nextBlock access.addr) access.secure left :=
        Fills.of_prefetchAll enabled haccounted' prefetch
      obtain ⟨ousted, hfills⟩ := hfills
      obtain ⟨_, _, -, hcounted⟩ := Contents.prefetchAll_statistics prefetch
      rw [Contents.dropDead_statistics drop, Contents.serve_statistics serve] at hcounted
      have hpair : ∀ addr, pairOf { c with contents := dropped } addr access.secure =
          c.pairOf addr access.secure :=
        pairOf_congr (hvacated.geometry_eq.trans hserved.geometry_eq)
      -- The second fill could bring the block back only if it were the next one.
      have hgone : c.pairOf access.addr access.secure ∉
          residents ⟨c.enabled, filled, prefetcher⟩ := by
        apply hfills.notMem
        · rw [hresidents]
          exact fun hmem => hmem.2 rfl
        · rw [hpair]
          exact (h.pairOf_nextBlock_ne _ _).symm
      have hthere := hfills.mem
      rw [hpair, ← pairOf_congr hg] at hthere
      rw [← pairOf_congr hg] at hgone
      exact {
        prefetches_eq := rfl
        deadPredictions_eq := congrArg (·.deadPredictions) hcounted
        invalidations_eq := congrArg (·.invalidations) hcounted
        gone := hc'.contains_eq enabled (by simp [hgone])
        arrived := hc'.contains_eq enabled (by simp [hthere])
        others := ⟨served, dropped, displaced, ousted, serve, drop, prefetch, hevicted, hdemand,
          hfills, fun pair hmem hother => hdemand.keeps_others hresidents hfills hmem hother⟩ }

/-- **A dead block is buried.** Take a new cache with the dead-block prefetcher, of any policy,
after any requests. Whenever an access asks for anything, it asks for the next block alone; one
death is counted, and one dropped block; the accessed block is gone from its domain, the next block
is there in the same one, and each of the two fills has cost one other block at most, only if all
ways of its set were valid. Only a cache that has been asked for 2^64 accesses may stop. -/
theorem run_buries {settings : CacheSettings} (hnew : Cache.new settings = .ok c)
    (hkind : settings.prefetcher = .dbcp) (past : List Request) (access : Access) :
    Delivers (c.run past) (settings.Excuses (past.countP isAccess)) fun before =>
      Delivers (before.2.access access) (settings.Excuses (past.countP isAccess + 1))
        fun result =>
          result.1.prefetches ≠ [] →
            before.2.Buries settings access result.1 result.2 := by
  refine (run_spec hnew past).mono (fun _ hfault => hfault) ?_
  intro before ⟨hbefore, _⟩
  refine (hbefore.access_spec access).mono (fun _ hfault => hfault) ?_
  intro result ⟨hafter, hg, hperformed⟩ hasked
  exact hbefore.buries hkind hperformed hafter hg hasked

/-- Behind the last block of the address space comes the first. -/
theorem run_buries_last_block :
    ∃ c before result, Cache.new
        { enabled := true, sizeBytes := 128, ways := 2, prefetcher := .dbcp, dbcp := .hasty } =
          .ok c ∧
      CacheSettings.prefetcher
        { enabled := true, sizeBytes := 128, ways := 2, prefetcher := .dbcp, dbcp := .hasty } =
          .dbcp ∧
      c.run (List.replicate 2 (.access ⟨0xffffffffffffffc6, some 5, false⟩)) = .ok before ∧
      before.2.access ⟨0xffffffffffffffc6, some 5, false⟩ = .ok result ∧
      result.1.prefetches = [0] ∧
      before.2.Buries
        { enabled := true, sizeBytes := 128, ways := 2, prefetcher := .dbcp, dbcp := .hasty }
        ⟨0xffffffffffffffc6, some 5, false⟩ result.1 result.2 := by
  obtain ⟨before, hbefore, h, hrest⟩ := (run_buries
    (show Cache.new
      { enabled := true, sizeBytes := 128, ways := 2, prefetcher := .dbcp, dbcp := .hasty } =
        .ok _ from rfl) rfl (List.replicate 2 (.access ⟨0xffffffffffffffc6, some 5, false⟩))
    ⟨0xffffffffffffffc6, some 5, false⟩).of_isOk_bind
    (show (_ >>= fun before : List Reply × Cache =>
      before.2.access ⟨0xffffffffffffffc6, some 5, false⟩).isOk = true by decide)
  obtain ⟨result, hresult, hburies⟩ := h.of_isOk hrest
  have hasked : result.1.prefetches = [0] := by
    obtain rfl := Except.ok.inj hbefore
    obtain rfl := Except.ok.inj hresult
    rfl
  refine ⟨_, before, result, rfl, rfl, hbefore, hresult, hasked, hburies ?_⟩
  rw [hasked]
  exact List.cons_ne_nil _ _

end Cache

end Residency
