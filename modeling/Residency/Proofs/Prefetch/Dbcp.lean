import Residency.Prefetch.Dbcp
import Residency.Proofs.Replacement.Lru
import Residency.Proofs.TaggedTable

/-!
# What the dead-block prefetcher asks for

An access makes the prefetcher ask for no block and leave the cache alone, or ask for one block
after it has had the accessed one dropped.
-/

namespace Residency

/-- No counter exceeds a bound. -/
structure DbcpStatistics.Below (s : DbcpStatistics) (bound : Nat) : Prop where
  tableHits : s.tableHits ≤ bound
  tableMisses : s.tableMisses ≤ bound
  signatureMatches : s.signatureMatches ≤ bound
  signatureOverwrites : s.signatureOverwrites ≤ bound
  deadPredictions : s.deadPredictions ≤ bound

/-- Counters that do not exceed a bound fit in words, unless the bound is too large for one. -/
theorem DbcpStatistics.Below.require_fits {s : DbcpStatistics} {bound : Nat} (h : s.Below bound) :
    Delivers (require s.Fits .exhausted) (Exhausted bound) fun _ => True := by
  obtain ⟨h₁, h₂, h₃, h₄, h₅⟩ := h
  refine (Delivers.require fun hfull => ⟨rfl, Nat.le_of_not_lt fun hbound => hfull ?_⟩).mono
    (fun _ hfault => hfault) fun _ _ => trivial
  refine ⟨?_, ?_, ?_, ?_, ?_⟩ <;> exact Nat.lt_of_le_of_lt ‹_› hbound

theorem DbcpStatistics.Below.enroll {s : DbcpStatistics} {bound : Nat} (h : s.Below bound) :
    DbcpStatistics.Below { s with tableMisses := s.tableMisses + 1 } (bound + 1) := by
  obtain ⟨h₁, h₂, h₃, h₄, h₅⟩ := h
  constructor <;> dsimp only <;> omega

theorem DbcpStatistics.Below.train {s : DbcpStatistics} {bound : Nat} (h : s.Below bound)
    (matched overwritten dead : Bool) : DbcpStatistics.Below { s with
      tableHits := s.tableHits + 1
      signatureMatches := s.signatureMatches + matched.toNat
      signatureOverwrites := s.signatureOverwrites + overwritten.toNat
      deadPredictions := s.deadPredictions + dead.toNat } (bound + 1) := by
  obtain ⟨h₁, h₂, h₃, h₄, h₅⟩ := h
  have := Bool.toNat_le matched
  have := Bool.toNat_le overwritten
  have := Bool.toNat_le dead
  constructor <;> dsimp only <;> omega

/-- The settings of the smallest prefetcher. It predicts a death as soon as a signature recurs. -/
def DbcpSettings.hasty : DbcpSettings where
  historyTableSize := 1
  tableEntries := 1
  tableAssoc := 1
  confidenceBits := 1
  initialConfidence := 0
  confidenceThreshold := 100

namespace Dbcp

variable {p p' : Dbcp} {accesses : Nat} {c : Context}

/-- The tables can be read and written, and no counter exceeds the number of accesses. -/
structure Sound (p : Dbcp) (accesses : Nat) : Prop where
  lineBytes_ne : p.lineBytes ≠ 0
  history_ne : p.history.size ≠ 0
  table : p.table.Sound p.statistics.tableHits
  below : p.statistics.Below accesses

theorem new_sound {lineBytes : UInt64} {settings : DbcpSettings}
    (h : Dbcp.new lineBytes settings = .ok p) : p.Sound 0 ∧ p.lineBytes = lineBytes := by
  obtain ⟨confidence, policy, table, hpow, hcheck, -, hpolicy, htable, rfl⟩ := new_eq_ok_iff.1 h
  obtain ⟨hhistory, -⟩ := DbcpSettings.check_eq_ok_iff.1 hcheck
  have hserves := Lru.new_serves hpolicy
  refine ⟨⟨?_, ?_, TaggedTable.new_sound htable hserves.records.shaped.fits hserves, ?_⟩, rfl⟩
  · rintro rfl
    obtain ⟨k, hk⟩ := hpow
    exact Nat.ne_of_lt (Nat.two_pow_pos k) hk
  · rw [Array.size_replicate]
    exact Nat.ne_of_gt hhistory
  · constructor <;> exact Nat.le_refl 0

namespace Sound

theorem mono (h : p.Sound accesses) {more : Nat} (hle : accesses ≤ more) : p.Sound more := by
  obtain ⟨h₁, h₂, h₃, h₄, h₅⟩ := h.below
  refine ⟨h.lineBytes_ne, h.history_ne, h.table, ?_⟩
  constructor <;> omega

theorem context_spec (h : p.Sound accesses) (access : Access) (pc : UInt64) :
    ∃ c, p.context access pc = .ok c ∧ c.block = blockAddress p.lineBytes access.addr ∧
      c.secure = access.secure := by
  have hslot : hashIndex (blockAddress p.lineBytes access.addr) p.history.size = _ :=
    hashIndex_eq_ok h.history_ne
  have hlt := Nat.mod_lt (mix (blockAddress p.lineBytes access.addr)).toNat
    (Nat.pos_of_ne_zero h.history_ne)
  obtain ⟨past, hpast⟩ : ∃ past, p.historyAt
      ((mix (blockAddress p.lineBytes access.addr)).toNat % p.history.size) = .ok past :=
    ⟨_, by rw [historyAt, Array.getElem?_eq_getElem hlt]; rfl⟩
  rw [context, Access.block_eq_ok h.lineBytes_ne, ok_bind, historySlot, hslot, ok_bind, hpast]
  exact ⟨_, rfl, rfl, rfl⟩

theorem withStatistics_spec (p : Dbcp) {s : DbcpStatistics} {bound : Nat} (h : s.Below bound) :
    Delivers (p.withStatistics s) (Exhausted bound) (· = { p with statistics := s }) :=
  h.require_fits.bind fun _ _ => rfl

theorem enroll_spec (h : p.Sound accesses) (c : Context) :
    Delivers (p.enroll c) (Exhausted (accesses + 1)) fun p' =>
      p'.Sound (accesses + 1) ∧ p'.lineBytes = p.lineBytes := by
  refine (withStatistics_spec p h.below.enroll).bind ?_
  rintro _ rfl
  obtain ⟨id, table, htable, hsound, hl⟩ := h.table.makeRoom_spec c.index
  obtain ⟨table', htable', hsound'⟩ := hsound.put_spec hl c.index c.secure
    (.blank p.initialConfidence)
  dsimp only
  rw [htable, ok_bind]
  dsimp only
  rw [htable']
  exact ⟨⟨h.lineBytes_ne, h.history_ne, hsound', h.below.enroll⟩, rfl⟩

theorem train_spec (h : p.Sound accesses) (c : Context) {id : LineId}
    (hl : id.Within p.table.numSets p.table.assoc) :
    Delivers (p.train c id) (Exhausted (accesses + 1)) fun result =>
      result.2.Sound (accesses + 1) ∧ result.2.lineBytes = p.lineBytes := by
  have hhits : p.statistics.tableHits + 1 ≤ accesses + 1 := Nat.succ_le_succ h.below.tableHits
  refine ((h.table.use_spec hl).mono (fun _ => Exhausted.mono hhits) fun _ ht => ht).bind ?_
  rintro table ⟨hsound, hslots, hbits⟩
  have hl' : id.Within table.numSets table.assoc := by
    rwa [TaggedTable.numSets, hbits, TaggedTable.assoc, hslots]
  obtain ⟨entry, hentry⟩ := hsound.entry_spec hl'
  rw [hentry, ok_bind]
  refine (withStatistics_spec p (h.below.train _ _ _)).bind ?_
  rintro _ rfl
  refine (Delivers.of_exists (hsound.setEntry_spec hl' _)).bind fun table' hsound' => ?_
  exact ⟨⟨h.lineBytes_ne, h.history_ne, hsound', h.below.train _ _ _⟩, rfl⟩

/-- No block is asked for and the cache is as it was, or the accessed block has been dropped and the
block behind it is asked for. -/
theorem observe_spec {τ : Type} [BlockInvalidator τ] (h : p.Sound accesses) (access : Access)
    (cache : τ) (post : τ → Prop) {excused : Fault → Prop}
    (hexcused : ∀ fault, Exhausted (accesses + 1) fault → excused fault)
    (hdrop : Delivers (BlockInvalidator.dropDead cache (blockAddress p.lineBytes access.addr)
      access.secure) excused fun result => post result.2) :
    Delivers (p.observe access cache) excused fun result =>
      (result.2.1.Sound (accesses + 1) ∧ result.2.1.lineBytes = p.lineBytes) ∧
        ((result.1 = [] ∧ result.2.2 = cache) ∨
          (result.1 = [blockAddress p.lineBytes access.addr + p.lineBytes] ∧ post result.2.2)) := by
  rw [observe]
  cases access.pc with
  | none => exact ⟨⟨h.mono (Nat.le_succ _), rfl⟩, .inl ⟨rfl, rfl⟩⟩
  | some pc =>
    obtain ⟨c, hc, hblock, hsecure⟩ := h.context_spec access pc
    obtain ⟨found, hfound, hwithin⟩ := h.table.find?_spec c.index c.secure
    dsimp only
    rw [hc, ok_bind, hfound, ok_bind]
    cases found with
    | none =>
      refine ((h.enroll_spec c).mono hexcused fun _ hp => hp).bind ?_
      exact fun p' hp' => ⟨hp', .inl ⟨rfl, rfl⟩⟩
    | some id =>
      refine ((h.train_spec c (hwithin id rfl)).mono hexcused fun _ hp => hp).bind ?_
      rintro ⟨dead, p'⟩ hp'
      cases dead with
      | false => exact ⟨hp', .inl ⟨rfl, rfl⟩⟩
      | true =>
        rw [← hblock, ← hsecure] at hdrop
        refine hdrop.bind ?_
        rintro ⟨dropped, cache'⟩ hpost
        -- The history of the dead block is cleared, which leaves the number of histories.
        refine ⟨⟨⟨hp'.1.lineBytes_ne, ?_, hp'.1.table, hp'.1.below⟩, hp'.2⟩, .inr ⟨?_, hpost⟩⟩
        · show (p'.history.setIfInBounds c.slot .empty).size ≠ 0
          rw [Array.size_setIfInBounds]
          exact hp'.1.history_ne
        · show [c.block + p'.lineBytes] = _
          rw [hblock, hp'.2]

end Sound

end Dbcp

end Residency
