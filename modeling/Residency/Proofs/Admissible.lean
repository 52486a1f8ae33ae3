import Residency.Proofs.Accepted

/-!
# Admissible settings

The rules that settings have to meet before a cache is built from them, whichever check it is that
enforces a rule: the check of a section, or the structure that is built from the section. The rules
of a section count only if the section is selected.
-/

namespace Residency

/-- The rules of the oracle-trained policy. -/
structure HawkeyeSettings.Admissible (s : HawkeyeSettings) : Prop where
  rrpvBits_pos : 1 ≤ s.rrpvBits.toNat
  rrpvBits_le : s.rrpvBits.toNat ≤ 32
  historyMultiplier_pos : 1 ≤ s.historyMultiplier.toNat

/-- The rules of the dead-block correlating prefetcher. -/
structure DbcpSettings.Admissible (s : DbcpSettings) : Prop where
  historyTableSize_pos : 1 ≤ s.historyTableSize.toNat
  tableAssoc_pos : 1 ≤ s.tableAssoc.toNat
  tableAssoc_dvd : s.tableAssoc.toNat ∣ s.tableEntries.toNat
  sets_pow : (s.tableEntries.toNat / s.tableAssoc.toNat).isPowerOfTwo
  signatureBits_pos : 1 ≤ s.signatureBits.toNat
  signatureBits_le : s.signatureBits.toNat ≤ 64
  confidenceThreshold_le : s.confidenceThreshold.toNat ≤ 100
  confidenceBits_pos : 1 ≤ s.confidenceBits.toNat
  confidenceBits_le : s.confidenceBits.toNat ≤ 32
  initialConfidence_le : s.initialConfidence.toNat ≤ 2 ^ s.confidenceBits.toNat - 1

/-- The rules of a cache. -/
structure CacheSettings.Admissible (s : CacheSettings) : Prop where
  lineBytes_pow : s.lineBytes.toNat.isPowerOfTwo
  ways_pos : 1 ≤ s.ways.toNat
  sets_pos : 1 ≤ s.sizeBytes.toNat / s.lineBytes.toNat / s.ways.toNat
  hawkeye : s.policy = .hawkeye → s.hawkeye.Admissible
  dbcp : s.prefetcher = .dbcp → s.dbcp.Admissible

/-! ## Sizes that are not too large -/

/-- What is built, or refused, is not refused because a product of its sizes does not fit in a
word. -/
def NotTooLarge {α : Type} (x : Except Rejection α) : Prop :=
  x ≠ .error .tooLarge

namespace NotTooLarge

variable {α β : Type} {x : Except Rejection α}

theorem pure (a : α) : NotTooLarge (Pure.pure a) :=
  nofun

theorem refuseIf {condition : Prop} [Decidable condition] {rejection : Rejection}
    (h : rejection ≠ .tooLarge) : NotTooLarge (Residency.refuseIf condition rejection) := by
  intro hrefused
  rw [Residency.refuseIf] at hrefused
  split_ifs at hrefused
  exact h (Except.error.inj hrefused)

theorem bind {next : α → Except Rejection β} (h : NotTooLarge x)
    (hnext : ∀ a, x = .ok a → NotTooLarge (next a)) : NotTooLarge (x >>= next) := by
  cases x with
  | ok a => exact hnext a rfl
  | error rejection => exact fun hrefused => h (congrArg Except.error (Except.error.inj hrefused))

theorem map {f : α → β} (h : NotTooLarge x) : NotTooLarge (x.map f) := by
  cases x with
  | ok a => exact nofun
  | error rejection => exact fun hrefused => h (congrArg Except.error (Except.error.inj hrefused))

theorem of_accepted (h : ∃ a, x = .ok a) : NotTooLarge x := by
  obtain ⟨a, rfl⟩ := h
  exact nofun

end NotTooLarge

/-! ## The checks of the sections -/

theorem accepted_then_iff {α : Type} {first : Except Rejection Unit} {second : Except Rejection α}
    {a : α} : (first >>= fun _ => second) = .ok a ↔ first = .ok () ∧ second = .ok a := by
  rw [accepted_bind_iff]
  exact ⟨fun ⟨_, hfirst, hsecond⟩ => ⟨hfirst, hsecond⟩, fun h => ⟨(), h⟩⟩

namespace HawkeyeSettings

/-- The width of a counter is not checked with its section. -/
theorem Admissible.check {s : HawkeyeSettings} (h : s.Admissible) : s.check = .ok () :=
  check_eq_ok_iff.2 ⟨h.rrpvBits_pos, h.historyMultiplier_pos⟩

theorem admissible_default : Admissible {} := by
  constructor <;> decide

theorem check_notTooLarge (s : HawkeyeSettings) : NotTooLarge s.check :=
  .bind (.refuseIf nofun) fun _ _ => .refuseIf nofun

end HawkeyeSettings

namespace DbcpSettings

/-- Sets of which there is a power of two are not without entries. -/
theorem Admissible.tableEntries_pos {s : DbcpSettings} (h : s.Admissible) :
    1 ≤ s.tableEntries.toNat := by
  obtain ⟨k, hk⟩ := h.sets_pow
  have hpos := Nat.two_pow_pos k
  have hle := Nat.div_le_self s.tableEntries.toNat s.tableAssoc.toNat
  omega

/-- The number of sets and the counter are not checked with the section. -/
theorem Admissible.check {s : DbcpSettings} (h : s.Admissible) : s.check = .ok () :=
  check_eq_ok_iff.2 ⟨h.historyTableSize_pos, h.tableEntries_pos, h.tableAssoc_pos,
    h.tableAssoc_dvd, h.signatureBits_pos, h.signatureBits_le, h.confidenceThreshold_le⟩

theorem admissible_default : Admissible {} := by
  constructor <;> decide

theorem check_notTooLarge (s : DbcpSettings) : NotTooLarge s.check := by
  refine .bind (.refuseIf nofun) fun _ _ => .bind (.refuseIf nofun) fun _ _ => ?_
  refine .bind (.refuseIf nofun) fun _ _ => .bind (.refuseIf nofun) fun _ _ => ?_
  exact .bind (.refuseIf nofun) fun _ _ => .bind (.refuseIf nofun) fun _ _ => .refuseIf nofun

end DbcpSettings

namespace CacheSettings

variable {s : CacheSettings}

theorem check_eq_ok_iff : s.check = .ok () ↔ s.lineBytes.toNat.isPowerOfTwo ∧ 1 ≤ s.ways.toNat ∧
    1 ≤ s.numSets ∧ (s.policy = .hawkeye → s.hawkeye.check = .ok ()) ∧
    (s.prefetcher = .dbcp → s.dbcp.check = .ok ()) := by
  have hways : ¬ s.ways = 0 ↔ 1 ≤ s.ways.toNat := by
    rw [← UInt64.toNat_inj, UInt64.toNat_zero]
    omega
  have hsets : ¬ s.numSets = 0 ↔ 1 ≤ s.numSets := by omega
  simp only [check, accepted_bind_iff, accepted_refuseIf_iff, exists_const, Decidable.not_not]
  rw [hways, hsets]
  by_cases hpolicy : s.policy = .hawkeye <;> by_cases hprefetcher : s.prefetcher = .dbcp <;>
    simp [hpolicy, hprefetcher, accepted_pure_iff, accepted_then_iff]

/-- The rules that the structures enforce are not needed for the check. -/
theorem Admissible.check (h : s.Admissible) : s.check = .ok () :=
  check_eq_ok_iff.2 ⟨h.lineBytes_pow, h.ways_pos, h.sets_pos, fun hpolicy =>
    (h.hawkeye hpolicy).check, fun hprefetcher => (h.dbcp hprefetcher).check⟩

theorem check_notTooLarge (s : CacheSettings) : NotTooLarge s.check := by
  refine .bind (.refuseIf nofun) fun _ _ => .bind (.refuseIf nofun) fun _ _ => ?_
  refine .bind (.refuseIf nofun) fun _ _ => ?_
  split_ifs
  · exact .bind s.hawkeye.check_notTooLarge fun _ _ => s.dbcp.check_notTooLarge
  · exact s.dbcp.check_notTooLarge
  · exact .bind s.hawkeye.check_notTooLarge fun _ _ => .pure ()
  · exact .pure ()

/-- The default values are admissible, whatever is selected. -/
theorem admissible_of_defaults (policy : PolicyKind) (prefetcher : PrefetcherKind) :
    Admissible { policy, prefetcher } where
  lineBytes_pow := ⟨6, rfl⟩
  ways_pos := show 1 ≤ Defaults.ways.toNat by decide
  sets_pos := show 1 ≤ Defaults.sizeBytes.toNat / Defaults.lineBytes.toNat / Defaults.ways.toNat by
    decide
  hawkeye _ := HawkeyeSettings.admissible_default
  dbcp _ := DbcpSettings.admissible_default

/-- All lines together hold no more bytes than the cache. -/
theorem lines_le (s : CacheSettings) :
    s.lineBytes.toNat * (s.numSets * s.ways.toNat) ≤ s.sizeBytes.toNat :=
  calc s.lineBytes.toNat * (s.numSets * s.ways.toNat)
      ≤ s.lineBytes.toNat * (s.sizeBytes.toNat / s.lineBytes.toNat) :=
        Nat.mul_le_mul_left _ (Nat.div_mul_le_self ..)
    _ ≤ s.sizeBytes.toNat := Nat.mul_div_le ..

theorem fits_lines (h : 1 ≤ s.lineBytes.toNat) : FitsWord (s.numSets * s.ways.toNat) :=
  calc s.numSets * s.ways.toNat
      ≤ s.lineBytes.toNat * (s.numSets * s.ways.toNat) := Nat.le_mul_of_pos_left _ h
    _ ≤ s.sizeBytes.toNat := s.lines_le
    _ < UInt64.size := s.sizeBytes.toNat_lt

theorem fits_span (h : 1 ≤ s.ways.toNat) : FitsWord (s.lineBytes.toNat * s.numSets) :=
  calc s.lineBytes.toNat * s.numSets
      ≤ s.lineBytes.toNat * (s.numSets * s.ways.toNat) :=
        Nat.mul_le_mul_left _ (Nat.le_mul_of_pos_right _ h)
    _ ≤ s.sizeBytes.toNat := s.lines_le
    _ < UInt64.size := s.sizeBytes.toNat_lt

end CacheSettings

end Residency
