import Mathlib.Algebra.Group.Nat.Defs
import Mathlib.Tactic.SplitIfs
import Residency.Counter
import Residency.Geometry
import Residency.Prefetch.Dbcp
import Residency.Replacement.Hawkeye
import Residency.Replacement.Random
import Residency.Settings

/-!
# What an accepted configuration satisfies

A structure is built by checks in sequence, each of which may refuse. A structure that has been
built has passed all of them.
-/

namespace Residency

/-- A sequence of checks accepts only if each of them does. -/
theorem accepted_bind_iff {α β : Type} {first : Except Rejection α}
    {next : α → Except Rejection β} {b : β} :
    first >>= next = .ok b ↔ ∃ a, first = .ok a ∧ next a = .ok b := by
  cases first <;> simp [bind, Except.bind]

theorem accepted_bind {α β : Type} {first : Except Rejection α} {a : α} (h : first = .ok a)
    (next : α → Except Rejection β) : first >>= next = next a := by
  rw [h]
  rfl

theorem refused_bind {α β : Type} {first : Except Rejection α} {rejection : Rejection}
    (h : first = .error rejection) (next : α → Except Rejection β) :
    first >>= next = .error rejection := by
  rw [h]
  rfl

theorem accepted_pure_iff {α : Type} {a b : α} :
    (pure a : Except Rejection α) = .ok b ↔ a = b := by
  simp [pure, Except.pure]

theorem accepted_map_iff {ε α β : Type} {x : Except ε α} {f : α → β} {b : β} :
    x.map f = .ok b ↔ ∃ a, x = .ok a ∧ f a = b := by
  cases x <;> simp [Except.map]

theorem accepted_refuseIf_iff {condition : Prop} [Decidable condition] {rejection : Rejection}
    {passed : Unit} : refuseIf condition rejection = .ok passed ↔ ¬ condition :=
  refuseIf_eq_ok_iff

theorem Counter.new_eq_ok {bits initial : Nat} {counter : Counter}
    (h : Counter.new bits initial = .ok counter) :
    counter.value = initial ∧ counter.max = 2 ^ bits - 1 := by
  unfold Counter.new at h
  split_ifs at h
  cases h
  exact ⟨rfl, by simp [fullScale, Nat.one_shiftLeft]⟩

theorem Counter.new_accepts_iff {bits initial : Nat} :
    (∃ counter, Counter.new bits initial = .ok counter) ↔
      1 ≤ bits ∧ bits ≤ 32 ∧ initial ≤ 2 ^ bits - 1 := by
  have hscale : fullScale bits = 2 ^ bits - 1 := by rw [fullScale, Nat.one_shiftLeft]
  rw [← hscale, Counter.new, maxWidth]
  split_ifs with hzero hwide hinitial
  · exact iff_of_false (by simp) (by omega)
  · exact iff_of_false (by simp) (by omega)
  · exact iff_of_true ⟨_, rfl⟩ (by omega)
  · exact iff_of_false (by simp) (by omega)

theorem Geometry.new_eq_ok {lineBytes sets ways : Nat} {g : Geometry}
    (h : Geometry.new lineBytes sets ways = .ok g) :
    g.lineBytes = lineBytes ∧ g.sets = sets ∧ g.ways = ways := by
  unfold Geometry.new at h
  split_ifs at h
  cases h
  exact ⟨rfl, rfl, rfl⟩

theorem HawkeyeSettings.check_eq_ok_iff {s : HawkeyeSettings} :
    s.check = .ok () ↔ 1 ≤ s.rrpvBits.toNat ∧ 1 ≤ s.historyMultiplier.toNat := by
  simp only [check, accepted_bind_iff, accepted_refuseIf_iff, exists_const]
  rw [← UInt32.toNat_inj, ← UInt64.toNat_inj, UInt32.toNat_zero, UInt64.toNat_zero]
  omega

theorem RandomChoice.new_eq_ok_iff {sets ways : Nat} {p : RandomChoice} :
    RandomChoice.new sets ways = .ok p ↔
      FitsWord (sets * ways) ∧ p = ⟨.uniform sets ways false, 123456789⟩ := by
  simp only [RandomChoice.new, accepted_bind_iff, accepted_refuseIf_iff, accepted_pure_iff,
    exists_const, Decidable.not_not]
  rw [eq_comm (a := p)]

theorem Hawkeye.new_eq_ok_iff {sets ways : Nat} {settings : HawkeyeSettings} {p : Hawkeye} :
    Hawkeye.new sets ways settings = .ok p ↔ ∃ rrpv oracle,
      settings.check = .ok () ∧ sets ≠ 0 ∧
      Counter.new settings.rrpvBits.toNat 0 = .ok rrpv ∧
      Oracle.new ways settings.historyMultiplier.toNat = .ok oracle ∧
      FitsWord (sets * ways) ∧
      p = ⟨.uniform sets ways ⟨false, rrpv, 0⟩, Array.replicate sets oracle⟩ := by
  simp only [Hawkeye.new, accepted_bind_iff, accepted_refuseIf_iff, accepted_pure_iff,
    exists_const, Decidable.not_not]
  constructor
  · rintro ⟨_, hcheck, hsets, rrpv, hrrpv, oracle, horacle, hfits, rfl⟩
    exact ⟨rrpv, oracle, hcheck, hsets, hrrpv, horacle, hfits, rfl⟩
  · rintro ⟨rrpv, oracle, hcheck, hsets, hrrpv, horacle, hfits, rfl⟩
    exact ⟨(), hcheck, hsets, rrpv, hrrpv, oracle, horacle, hfits, rfl⟩

theorem TaggedTable.new_eq_ok_iff {σ E : Type} {entries assoc : Nat} {blank : E} {policy : σ}
    {t : TaggedTable σ E} :
    TaggedTable.new entries assoc blank policy = .ok t ↔
      1 ≤ entries ∧ 1 ≤ assoc ∧ assoc ∣ entries ∧ (entries / assoc).isPowerOfTwo ∧
      t = ⟨.uniform (entries / assoc) assoc ⟨0, false, false, blank⟩, (entries / assoc).log2, blank,
        policy⟩ := by
  simp only [TaggedTable.new, accepted_bind_iff, accepted_refuseIf_iff, accepted_pure_iff,
    exists_const, Decidable.not_not, ne_eq, Nat.dvd_iff_mod_eq_zero, Nat.one_le_iff_ne_zero]
  rw [eq_comm (a := t)]

theorem DbcpSettings.check_eq_ok_iff {s : DbcpSettings} :
    s.check = .ok () ↔ 1 ≤ s.historyTableSize.toNat ∧ 1 ≤ s.tableEntries.toNat ∧
      1 ≤ s.tableAssoc.toNat ∧ s.tableAssoc.toNat ∣ s.tableEntries.toNat ∧
      1 ≤ s.signatureBits.toNat ∧ s.signatureBits.toNat ≤ 64 ∧
      s.confidenceThreshold.toNat ≤ 100 := by
  have hsignature : ¬ 64 < s.signatureBits ↔ s.signatureBits.toNat ≤ 64 := by
    rw [UInt32.not_lt, UInt32.le_iff_toNat_le]
    rfl
  have hthreshold : ¬ 100 < s.confidenceThreshold ↔ s.confidenceThreshold.toNat ≤ 100 := by
    rw [UInt32.not_lt, UInt32.le_iff_toNat_le]
    rfl
  simp only [check, accepted_bind_iff, accepted_refuseIf_iff, exists_const, Decidable.not_not,
    ne_eq]
  rw [hsignature, hthreshold, Nat.dvd_iff_mod_eq_zero]
  simp only [← UInt32.toNat_inj, ← UInt64.toNat_inj, UInt32.toNat_zero, UInt64.toNat_zero,
    UInt64.toNat_mod]
  omega

theorem Dbcp.new_eq_ok_iff {lineBytes : UInt64} {settings : DbcpSettings} {p : Dbcp} :
    Dbcp.new lineBytes settings = .ok p ↔ ∃ confidence policy table,
      lineBytes.toNat.isPowerOfTwo ∧ settings.check = .ok () ∧
      Counter.new settings.confidenceBits.toNat settings.initialConfidence.toNat =
        .ok confidence ∧
      Lru.new (settings.tableEntries.toNat / settings.tableAssoc.toNat)
        settings.tableAssoc.toNat = .ok policy ∧
      TaggedTable.new settings.tableEntries.toNat settings.tableAssoc.toNat
        (DeadBlockEntry.blank confidence) policy = .ok table ∧
      p = {
        lineBytes
        signatureBits := settings.signatureBits.toNat
        threshold := settings.threshold
        history := Array.replicate settings.historyTableSize.toNat .empty
        table
        initialConfidence := confidence
        statistics := {} } := by
  simp only [Dbcp.new, accepted_bind_iff, accepted_refuseIf_iff, accepted_pure_iff, exists_const,
    Decidable.not_not]
  constructor
  · rintro ⟨hpow, _, hcheck, confidence, hconfidence, policy, hpolicy, table, htable, rfl⟩
    exact ⟨confidence, policy, table, hpow, hcheck, hconfidence, hpolicy, htable, rfl⟩
  · rintro ⟨confidence, policy, table, hpow, hcheck, hconfidence, hpolicy, htable, rfl⟩
    exact ⟨hpow, (), hcheck, confidence, hconfidence, policy, hpolicy, table, htable, rfl⟩

end Residency
