import Residency.Cache
import Residency.Proofs.Admissible

/-!
# Which settings a cache is built from

Every structure is built exactly from the parameters that meet its rules. The sizes of a cache are
bounded by the size in bytes that they are computed from, so that only the history of the oracles
can be too long for a 64-bit word.
-/

namespace Residency

/-! ## Counters and oracles -/

theorem Counter.new_notTooLarge (bits initial : Nat) : NotTooLarge (Counter.new bits initial) := by
  rw [Counter.new]
  split_ifs <;> simp [NotTooLarge]

theorem Oracle.new_accepts_iff {κ : Type} {ways multiplier : Nat} :
    (∃ oracle : Oracle κ, Oracle.new ways multiplier = .ok oracle) ↔
      1 ≤ ways ∧ 1 ≤ multiplier ∧ FitsWord (ways * multiplier) := by
  rw [Oracle.new]
  split_ifs with hways hmultiplier hfits
  · exact iff_of_false (by simp) fun h => absurd hways (Nat.ne_of_gt h.1)
  · exact iff_of_false (by simp) fun h => absurd hmultiplier (Nat.ne_of_gt h.2.1)
  · exact iff_of_true ⟨_, rfl⟩
      ⟨Nat.pos_of_ne_zero hways, Nat.pos_of_ne_zero hmultiplier, hfits⟩
  · exact iff_of_false (by simp) fun h => hfits h.2.2

theorem Oracle.new_notTooLarge {κ : Type} {ways multiplier : Nat}
    (hfits : FitsWord (ways * multiplier)) :
    NotTooLarge (Oracle.new ways multiplier : Except Rejection (Oracle κ)) := by
  rw [Oracle.new]
  split_ifs <;> exact nofun

theorem fits_accepted {n : Nat} (h : FitsWord n) :
    ∃ passed, refuseIf (¬ FitsWord n) .tooLarge = .ok passed :=
  ⟨(), refuseIf_eq_ok_iff.2 (not_not_intro h)⟩

/-! ## Policies -/

section

variable {sets ways : Nat}

theorem Lru.new_accepts_iff : (∃ p, Lru.new sets ways = .ok p) ↔ FitsWord (sets * ways) := by
  simp only [Lru.new, accepted_bind_iff, accepted_refuseIf_iff, accepted_pure_iff, exists_const,
    Decidable.not_not]
  simp

theorem RandomChoice.new_accepts_iff :
    (∃ p, RandomChoice.new sets ways = .ok p) ↔ FitsWord (sets * ways) := by
  simp only [RandomChoice.new_eq_ok_iff, exists_and_left, exists_eq, and_true]

/-- The oracle-trained policy is built from admissible settings for lines that there are, if neither
they nor the history of an oracle are too many. -/
theorem Hawkeye.new_accepts_iff {settings : HawkeyeSettings} :
    (∃ p, Hawkeye.new sets ways settings = .ok p) ↔ settings.Admissible ∧ 1 ≤ sets ∧ 1 ≤ ways ∧
      FitsWord (ways * settings.historyMultiplier.toNat) ∧ FitsWord (sets * ways) := by
  constructor
  · rintro ⟨p, hp⟩
    obtain ⟨counter, oracle, hcheck, hsets, hcounter, horacle, hfits, -⟩ :=
      Hawkeye.new_eq_ok_iff.1 hp
    obtain ⟨hbits, hmultiplier⟩ := HawkeyeSettings.check_eq_ok_iff.1 hcheck
    obtain ⟨-, hwidth, -⟩ := Counter.new_accepts_iff.1 ⟨counter, hcounter⟩
    obtain ⟨hways, -, hhistory⟩ := Oracle.new_accepts_iff.1 ⟨oracle, horacle⟩
    exact ⟨⟨hbits, hwidth, hmultiplier⟩, Nat.pos_of_ne_zero hsets, hways, hhistory, hfits⟩
  · rintro ⟨hadmissible, hsets, hways, hhistory, hfits⟩
    obtain ⟨counter, hcounter⟩ := Counter.new_accepts_iff.2
      ⟨hadmissible.rrpvBits_pos, hadmissible.rrpvBits_le, Nat.zero_le _⟩
    obtain ⟨oracle, horacle⟩ := Oracle.new_accepts_iff (κ := Nat).2
      ⟨hways, hadmissible.historyMultiplier_pos, hhistory⟩
    exact ⟨_, Hawkeye.new_eq_ok_iff.2 ⟨counter, oracle, hadmissible.check, Nat.ne_of_gt hsets,
      hcounter, horacle, hfits, rfl⟩⟩

theorem accepts_map_iff {α β : Type} {x : Except Rejection α} {f : α → β} :
    (∃ b, x.map f = .ok b) ↔ ∃ a, x = .ok a := by
  cases x <;> simp [Except.map]

/-- A policy is built for as many lines as fit in a word; the oracle-trained one asks for more. -/
theorem Policy.new_accepts_iff {kind : PolicyKind} {settings : HawkeyeSettings} :
    (∃ p, Policy.new kind sets ways settings = .ok p) ↔ FitsWord (sets * ways) ∧
      (kind = .hawkeye → settings.Admissible ∧ 1 ≤ sets ∧ 1 ≤ ways ∧
        FitsWord (ways * settings.historyMultiplier.toNat)) := by
  cases kind with
  | lru =>
    rw [Policy.new, accepts_map_iff, Lru.new_accepts_iff]
    exact (and_iff_left nofun).symm
  | random =>
    rw [Policy.new, accepts_map_iff, RandomChoice.new_accepts_iff]
    exact (and_iff_left nofun).symm
  | hawkeye =>
    rw [Policy.new, accepts_map_iff, Hawkeye.new_accepts_iff]
    constructor
    · rintro ⟨hadmissible, hsets, hways, hhistory, hfits⟩
      exact ⟨hfits, fun _ => ⟨hadmissible, hsets, hways, hhistory⟩⟩
    · rintro ⟨hfits, hrules⟩
      obtain ⟨hadmissible, hsets, hways, hhistory⟩ := hrules rfl
      exact ⟨hadmissible, hsets, hways, hhistory, hfits⟩

/-- Only the number of lines and the length of the history can be too large for a policy. -/
theorem Policy.new_notTooLarge {kind : PolicyKind} {settings : HawkeyeSettings}
    (hfits : FitsWord (sets * ways))
    (hhistory : kind = .hawkeye → FitsWord (ways * settings.historyMultiplier.toNat)) :
    NotTooLarge (Policy.new kind sets ways settings) := by
  cases kind with
  | lru => exact .map (.of_accepted (Lru.new_accepts_iff.2 hfits))
  | random => exact .map (.of_accepted (RandomChoice.new_accepts_iff.2 hfits))
  | hawkeye =>
    refine .map (.bind settings.check_notTooLarge fun _ _ => .bind (.refuseIf nofun) fun _ _ => ?_)
    refine .bind (Counter.new_notTooLarge _ _) fun _ _ => ?_
    refine .bind (Oracle.new_notTooLarge (hhistory rfl)) fun _ _ => ?_
    exact .bind (.of_accepted (fits_accepted hfits)) fun _ _ => .pure _

end

/-! ## Tables and prefetchers -/

theorem TaggedTable.new_accepts_iff {σ E : Type} {entries assoc : Nat} {blank : E} {policy : σ} :
    (∃ t, TaggedTable.new entries assoc blank policy = .ok t) ↔
      1 ≤ entries ∧ 1 ≤ assoc ∧ assoc ∣ entries ∧ (entries / assoc).isPowerOfTwo := by
  simp [TaggedTable.new_eq_ok_iff]

theorem TaggedTable.new_notTooLarge {σ E : Type} (entries assoc : Nat) (blank : E) (policy : σ) :
    NotTooLarge (TaggedTable.new entries assoc blank policy) := by
  refine .bind (.refuseIf nofun) fun _ _ => .bind (.refuseIf nofun) fun _ _ => ?_
  exact .bind (.refuseIf nofun) fun _ _ => .bind (.refuseIf nofun) fun _ _ => .pure _

namespace Dbcp

variable {lineBytes : UInt64} {settings : DbcpSettings}

/-- A table has not more slots than it is given entries. -/
theorem fits_table (settings : DbcpSettings) :
    FitsWord (settings.tableEntries.toNat / settings.tableAssoc.toNat *
      settings.tableAssoc.toNat) :=
  Nat.lt_of_le_of_lt (Nat.div_mul_le_self ..) settings.tableEntries.toNat_lt

theorem new_accepts_iff :
    (∃ p, Dbcp.new lineBytes settings = .ok p) ↔
      lineBytes.toNat.isPowerOfTwo ∧ settings.Admissible := by
  constructor
  · rintro ⟨p, hp⟩
    obtain ⟨counter, policy, table, hpow, hcheck, hcounter, -, htable, -⟩ := new_eq_ok_iff.1 hp
    obtain ⟨hhistory, hentries, hassoc, hdvd, hbits, hwidth, hthreshold⟩ :=
      DbcpSettings.check_eq_ok_iff.1 hcheck
    obtain ⟨hcounterBits, hcounterWidth, hinitial⟩ := Counter.new_accepts_iff.1 ⟨counter, hcounter⟩
    obtain ⟨-, -, -, hsets⟩ := TaggedTable.new_accepts_iff.1 ⟨table, htable⟩
    exact ⟨hpow, hhistory, hassoc, hdvd, hsets, hbits, hwidth, hthreshold, hcounterBits,
      hcounterWidth, hinitial⟩
  · rintro ⟨hpow, h⟩
    obtain ⟨counter, hcounter⟩ := Counter.new_accepts_iff.2
      ⟨h.confidenceBits_pos, h.confidenceBits_le, h.initialConfidence_le⟩
    obtain ⟨policy, hpolicy⟩ := Lru.new_accepts_iff.2 (fits_table settings)
    obtain ⟨table, htable⟩ := TaggedTable.new_accepts_iff.2
      ⟨h.tableEntries_pos, h.tableAssoc_pos, h.tableAssoc_dvd, h.sets_pow⟩
    exact ⟨_, new_eq_ok_iff.2 ⟨counter, policy, table, hpow, h.check, hcounter, hpolicy, htable,
      rfl⟩⟩

theorem new_notTooLarge (lineBytes : UInt64) (settings : DbcpSettings) :
    NotTooLarge (Dbcp.new lineBytes settings) := by
  refine .bind (.refuseIf nofun) fun _ _ => .bind settings.check_notTooLarge fun _ _ => ?_
  refine .bind (Counter.new_notTooLarge _ _) fun _ _ => ?_
  refine .bind (.of_accepted (Lru.new_accepts_iff.2 (fits_table settings))) fun _ _ => ?_
  exact .bind (TaggedTable.new_notTooLarge _ _ _ _) fun _ _ => .pure _

end Dbcp

namespace Prefetcher

variable {settings : CacheSettings}

theorem new_accepts_iff (hpow : settings.lineBytes.toNat.isPowerOfTwo) :
    (∃ p, Prefetcher.new settings = .ok p) ↔
      (settings.prefetcher = .dbcp → settings.dbcp.Admissible) := by
  rw [Prefetcher.new]
  cases settings.prefetcher with
  | none => exact iff_of_true ⟨_, rfl⟩ nofun
  | nextLine => exact iff_of_true ⟨_, rfl⟩ nofun
  | dbcp =>
    constructor
    · rintro ⟨p, hp⟩ -
      obtain ⟨dbcp, hdbcp, -⟩ := accepted_bind_iff.1 hp
      exact (Dbcp.new_accepts_iff.1 ⟨dbcp, hdbcp⟩).2
    · intro hadmissible
      obtain ⟨dbcp, hdbcp⟩ := Dbcp.new_accepts_iff.2 ⟨hpow, hadmissible rfl⟩
      exact ⟨_, accepted_bind_iff.2 ⟨dbcp, hdbcp, rfl⟩⟩

theorem new_notTooLarge (settings : CacheSettings) : NotTooLarge (Prefetcher.new settings) := by
  rw [Prefetcher.new]
  cases settings.prefetcher with
  | none => exact .pure _
  | nextLine => exact .pure _
  | dbcp => exact .bind (Dbcp.new_notTooLarge _ _) fun _ _ => .pure _

end Prefetcher

/-! ## Caches -/

theorem Geometry.new_accepts_iff {lineBytes sets : Nat} (ways : Nat) :
    (∃ g, Geometry.new lineBytes sets ways = .ok g) ↔
      1 ≤ lineBytes ∧ 1 ≤ sets ∧ FitsWord (lineBytes * sets) := by
  rw [Geometry.new]
  split_ifs with hline hsets hfits
  · exact iff_of_false (by simp) fun h => absurd hline (Nat.ne_of_gt h.1)
  · exact iff_of_false (by simp) fun h => absurd hsets (Nat.ne_of_gt h.2.1)
  · exact iff_of_true ⟨_, rfl⟩ ⟨Nat.pos_of_ne_zero hline, Nat.pos_of_ne_zero hsets, hfits⟩
  · exact iff_of_false (by simp) fun h => hfits h.2.2

namespace Cache

variable {s : CacheSettings}

theorem check_of_new {c : Cache} (h : new s = .ok c) : s.check = .ok () := by
  obtain ⟨_, hcheck, -⟩ := accepted_bind_iff.1 h
  exact hcheck

/-- What a cache is built from is admissible. -/
theorem admissible_of_new {c : Cache} (h : new s = .ok c) : s.Admissible := by
  obtain ⟨_, hcheck, h⟩ := accepted_bind_iff.1 h
  obtain ⟨policy, hpolicy, h⟩ := accepted_bind_iff.1 h
  obtain ⟨prefetcher, hprefetcher, -⟩ := accepted_bind_iff.1 h
  obtain ⟨hpow, hways, hsets, -⟩ := CacheSettings.check_eq_ok_iff.1 hcheck
  obtain ⟨-, hhawkeye⟩ := Policy.new_accepts_iff.1 ⟨policy, hpolicy⟩
  have hdbcp := (Prefetcher.new_accepts_iff hpow).1 ⟨prefetcher, hprefetcher⟩
  exact ⟨hpow, hways, hsets, fun hkind => (hhawkeye hkind).1, hdbcp⟩

/-- A cache is built from admissible settings, if the history of an oracle fits in a word. -/
theorem new_of_admissible (h : s.Admissible)
    (hhistory : s.policy = .hawkeye → FitsWord (s.ways.toNat * s.hawkeye.historyMultiplier.toNat)) :
    ∃ c, new s = .ok c := by
  have hline : 1 ≤ s.lineBytes.toNat := Nat.pos_of_isPowerOfTwo h.lineBytes_pow
  have hlines := CacheSettings.fits_lines hline
  obtain ⟨policy, hpolicy⟩ := Policy.new_accepts_iff.2 ⟨hlines, fun hkind =>
    ⟨h.hawkeye hkind, h.sets_pos, h.ways_pos, hhistory hkind⟩⟩
  obtain ⟨prefetcher, hprefetcher⟩ := (Prefetcher.new_accepts_iff h.lineBytes_pow).2 h.dbcp
  obtain ⟨g, hg⟩ := (Geometry.new_accepts_iff s.ways.toNat).2
    ⟨hline, h.sets_pos, CacheSettings.fits_span h.ways_pos⟩
  refine ⟨⟨s.enabled, .empty g policy, prefetcher⟩, accepted_bind_iff.2 ⟨(), h.check, ?_⟩⟩
  refine accepted_bind_iff.2 ⟨policy, hpolicy, ?_⟩
  refine accepted_bind_iff.2 ⟨prefetcher, hprefetcher, accepted_bind_iff.2 ⟨g, hg, ?_⟩⟩
  exact accepted_bind_iff.2 ⟨(), refuseIf_eq_ok_iff.2 (not_not_intro hlines), rfl⟩

theorem new_with_hawkeye (h : s.policy ≠ .hawkeye) (hawkeye : HawkeyeSettings) :
    new { s with hawkeye } = new s := by
  have hcheck : { s with hawkeye }.check = s.check := by
    simp [CacheSettings.check, CacheSettings.numSets, h]
  have hpolicy sets ways : Policy.new s.policy sets ways hawkeye =
      Policy.new s.policy sets ways s.hawkeye := by
    cases hkind : s.policy with
    | lru => rfl
    | random => rfl
    | hawkeye => exact absurd hkind h
  simp only [new, hcheck, hpolicy]
  rfl

theorem new_with_dbcp (h : s.prefetcher ≠ .dbcp) (dbcp : DbcpSettings) :
    new { s with dbcp } = new s := by
  have hcheck : { s with dbcp }.check = s.check := by
    simp [CacheSettings.check, CacheSettings.numSets, h]
  have hprefetcher : Prefetcher.new { s with dbcp } = Prefetcher.new s := by
    rw [Prefetcher.new, Prefetcher.new]
    cases hkind : s.prefetcher with
    | none => rfl
    | nextLine => rfl
    | dbcp => exact absurd hkind h
  simp only [new, hcheck, hprefetcher]
  rfl

/-- The size in bytes bounds every other size but the length of the history. -/
theorem new_notTooLarge (s : CacheSettings)
    (hhistory : s.policy = .hawkeye → FitsWord (s.ways.toNat * s.hawkeye.historyMultiplier.toNat)) :
    NotTooLarge (new s) := by
  refine .bind s.check_notTooLarge fun _ hcheck => ?_
  obtain ⟨hpow, hways, hsets, -⟩ := CacheSettings.check_eq_ok_iff.1 hcheck
  have hline : 1 ≤ s.lineBytes.toNat := Nat.pos_of_isPowerOfTwo hpow
  have hlines := CacheSettings.fits_lines hline
  have hgeometry := (Geometry.new_accepts_iff s.ways.toNat).2
    ⟨hline, hsets, CacheSettings.fits_span hways⟩
  refine .bind (Policy.new_notTooLarge hlines hhistory) fun _ _ => ?_
  refine .bind (Prefetcher.new_notTooLarge s) fun _ _ => ?_
  refine .bind (.of_accepted hgeometry) fun _ _ => ?_
  exact .bind (.of_accepted (fits_accepted hlines)) fun _ _ => .pure _

/-- Exactly the admissible settings are accepted. A section that is not selected changes nothing in
the outcome, and accepted settings have passed their check. Nothing but the history of an oracle can
be too large, whatever the sizes. -/
theorem new_accepts_iff_admissible (s : CacheSettings)
    (hhistory : s.policy = .hawkeye → FitsWord (s.ways.toNat * s.hawkeye.historyMultiplier.toNat)) :
    ((∃ c, new s = .ok c) ↔ s.Admissible) ∧
      (s.policy ≠ .hawkeye → ∀ hawkeye, new { s with hawkeye } = new s) ∧
      (s.prefetcher ≠ .dbcp → ∀ dbcp, new { s with dbcp } = new s) ∧
      ((∃ c, new s = .ok c) → s.check = .ok ()) ∧ NotTooLarge (new s) := by
  refine ⟨⟨?admissible, fun h => new_of_admissible h hhistory⟩, new_with_hawkeye, new_with_dbcp,
    ?checked, new_notTooLarge s hhistory⟩
  case admissible =>
    rintro ⟨c, h⟩
    exact admissible_of_new h
  case checked =>
    rintro ⟨c, h⟩
    exact check_of_new h

/-- With both sections selected, a cache of two sets is accepted at the widest counters, and refused
once the prefetcher's table has three sets although the check of the settings does not see it. -/
theorem new_accepts_iff_admissible_both_sections :
    let s : CacheSettings := {
      sizeBytes := 256, ways := 2, policy := .hawkeye, prefetcher := .dbcp
      hawkeye := { rrpvBits := 32 }, dbcp := { tableEntries := 8, confidenceBits := 32 } }
    let t : CacheSettings := { s with dbcp := { tableEntries := 12 } }
    (∃ c, new s = .ok c) ∧ t.check = .ok () ∧ ¬ ∃ c, new t = .ok c := by
  intro s t
  have hs : s.Admissible := by
    refine ⟨by decide, by decide, by decide, fun _ => ?_, fun _ => ?_⟩
    · exact ⟨by decide, by decide, by decide⟩
    · exact ⟨by decide, by decide, by decide, by decide, by decide, by decide, by decide,
        by decide, by decide, by decide⟩
  have hcheck : t.check = .ok () := by
    refine CacheSettings.check_eq_ok_iff.2
      ⟨by decide, by decide, by decide, fun _ => ?_, fun _ => ?_⟩
    · exact HawkeyeSettings.check_eq_ok_iff.2 (by decide)
    · exact DbcpSettings.check_eq_ok_iff.2 (by decide)
  have ht : ¬ t.Admissible := fun h => absurd (h.dbcp rfl).sets_pow (by decide)
  exact ⟨(new_accepts_iff_admissible s fun _ => by decide).1.2 hs, hcheck, fun haccepted =>
    ht ((new_accepts_iff_admissible t fun _ => by decide).1.1 haccepted)⟩

end Cache

end Residency
