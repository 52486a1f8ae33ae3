import Residency.Proofs.Cache.Acceptance
import Residency.Proofs.Cache.Runs

/-!
# Sizes that fit

The size in bytes bounds the number of lines and the bytes of one way, and with them every product
that an address is split and put together with. Nothing bounds the history of an oracle: its two
factors are checked one at a time, and where their product takes more than 64 bits, no cache is
built.
-/

namespace Residency

/-! ## The history of an oracle -/

section

variable {sets ways : Nat} {settings : HawkeyeSettings}

theorem Oracle.new_tooLarge {κ : Type} {multiplier : Nat} (hways : 1 ≤ ways)
    (hmultiplier : 1 ≤ multiplier) (hfar : ¬ FitsWord (ways * multiplier)) :
    (Oracle.new ways multiplier : Except Rejection (Oracle κ)) = .error .tooLarge := by
  rw [Oracle.new, dif_neg (Nat.ne_of_gt hways), dif_neg (Nat.ne_of_gt hmultiplier), if_neg hfar]

theorem Oracle.size_new {κ : Type} {multiplier : Nat} {o : Oracle κ}
    (h : Oracle.new ways multiplier = .ok o) : o.size = ways * multiplier := by
  rw [Oracle.new] at h
  split_ifs at h
  cases h
  rfl

/-- The rules of the section do not see the history that is too long. -/
theorem Hawkeye.new_tooLarge (h : settings.Admissible) (hsets : 1 ≤ sets) (hways : 1 ≤ ways)
    (hfar : ¬ FitsWord (ways * settings.historyMultiplier.toNat)) :
    Hawkeye.new sets ways settings = .error .tooLarge := by
  obtain ⟨counter, hcounter⟩ := Counter.new_accepts_iff.2
    ⟨h.rrpvBits_pos, h.rrpvBits_le, Nat.zero_le _⟩
  have hsets : refuseIf (sets = 0) (.zeroSize .sets) = .ok () :=
    refuseIf_eq_ok_iff.2 (Nat.ne_of_gt hsets)
  rw [Hawkeye.new, accepted_bind h.check, accepted_bind hsets, accepted_bind hcounter]
  exact refused_bind (Oracle.new_tooLarge hways h.historyMultiplier_pos hfar) _

/-- Every set has an oracle with a ring of that length. -/
theorem Hawkeye.oracles_new {p : Hawkeye} (h : Hawkeye.new sets ways settings = .ok p) :
    p.oracles.size = sets ∧
      ∀ o ∈ p.oracles, o.size = ways * settings.historyMultiplier.toNat := by
  obtain ⟨rrpv, oracle, -, -, -, horacle, -, rfl⟩ := Hawkeye.new_eq_ok_iff.1 h
  refine ⟨Array.size_replicate .., fun o ho => ?_⟩
  obtain ⟨-, rfl⟩ := Array.mem_replicate.1 ho
  exact Oracle.size_new horacle

end

namespace Cache

variable {s : CacheSettings}

theorem exists_hawkeye_of_new {c : Cache} (h : new s = .ok c) (hkind : s.policy = .hawkeye) :
    ∃ p, c.contents.policy = .hawkeye p ∧
      Hawkeye.new s.numSets s.ways.toNat s.hawkeye = .ok p := by
  obtain ⟨geometry, policy, prefetcher, rfl, -, hsets, hways, -, -, -, hpolicy, -⟩ := new_eq_ok h
  rw [hkind, hsets, hways, Policy.new, accepted_map_iff] at hpolicy
  obtain ⟨p, hp, rfl⟩ := hpolicy
  exact ⟨p, rfl, hp⟩

theorem new_tooLarge (h : s.Admissible) (hkind : s.policy = .hawkeye)
    (hfar : ¬ FitsWord (s.ways.toNat * s.hawkeye.historyMultiplier.toNat)) :
    new s = .error .tooLarge := by
  have hsets : 1 ≤ s.numSets := h.sets_pos
  have hpolicy : Policy.new s.policy s.numSets s.ways.toNat s.hawkeye = .error .tooLarge := by
    rw [hkind, Policy.new, Hawkeye.new_tooLarge (h.hawkeye hkind) hsets h.ways_pos hfar]
    rfl
  rw [new, accepted_bind h.check]
  exact refused_bind hpolicy _

/-- **Every size but the history of an oracle fits.** Admissible settings pass their check, and the
number of lines and the bytes of one way fit in a word. A cache of another policy is built. One of
the oracle-trained policy is built just if the ways times the multiplier fit in a word, and then the
rings of its oracles have that many slots, one at least; otherwise that product overflows. -/
theorem new_sizes_fit (h : s.Admissible) :
    s.check = .ok () ∧ s.numSets * s.ways.toNat < 2 ^ 64 ∧
      s.lineBytes.toNat * s.numSets < 2 ^ 64 ∧
      (s.policy ≠ .hawkeye → ∃ c, new s = .ok c) ∧
      (s.policy = .hawkeye →
        (s.ways.toNat * s.hawkeye.historyMultiplier.toNat < 2 ^ 64 →
          ∃ c p, new s = .ok c ∧ c.contents.policy = .hawkeye p ∧ p.oracles.size = s.numSets ∧
            ∀ o ∈ p.oracles, 1 ≤ o.size ∧
              o.size = s.ways.toNat * s.hawkeye.historyMultiplier.toNat) ∧
        (2 ^ 64 ≤ s.ways.toNat * s.hawkeye.historyMultiplier.toNat →
          new s = .error .tooLarge)) := by
  have hline : 1 ≤ s.lineBytes.toNat := Nat.pos_of_isPowerOfTwo h.lineBytes_pow
  refine ⟨h.check, CacheSettings.fits_lines hline, CacheSettings.fits_span h.ways_pos,
    fun hother => new_of_admissible h fun hkind => absurd hkind hother, fun hkind =>
      ⟨fun hfits => ?built, fun hfar => new_tooLarge h hkind (Nat.not_lt_of_le hfar)⟩⟩
  case built =>
    obtain ⟨c, hc⟩ := new_of_admissible h fun _ => hfits
    obtain ⟨p, hp, hnew⟩ := exists_hawkeye_of_new hc hkind
    obtain ⟨hsize, horacles⟩ := Hawkeye.oracles_new hnew
    exact ⟨c, p, hc, hp, hsize, fun o ho => ⟨o.size_pos, horacles o ho⟩⟩

/-- With three ways, a multiplier can be chosen for the longest history that there is. -/
theorem new_sizes_fit_longest_history :
    let s : CacheSettings := {
      sizeBytes := 192, ways := 3, policy := .hawkeye
      hawkeye := { historyMultiplier := 6148914691236517205 } }
    s.Admissible ∧ ∃ c p, new s = .ok c ∧ c.contents.policy = .hawkeye p ∧ p.oracles.size = 1 ∧
      ∀ o ∈ p.oracles, 1 ≤ o.size ∧ o.size = 18446744073709551615 := by
  intro s
  have hs : s.Admissible :=
    ⟨by decide, by decide, by decide, fun _ => ⟨by decide, by decide, by decide⟩, nofun⟩
  have hhistory : s.ways.toNat * s.hawkeye.historyMultiplier.toNat = 18446744073709551615 := by
    decide
  have hsets : s.numSets = 1 := by decide
  have hbuilt := ((new_sizes_fit hs).2.2.2.2 rfl).1 (by decide)
  rw [hhistory, hsets] at hbuilt
  exact ⟨hs, hbuilt⟩

/-- Two ways and a multiplier of `2 ^ 63` pass every check, and have a product that takes more than
64 bits. -/
theorem new_history_too_long : ∃ s : CacheSettings, s.check = .ok () ∧ s.Admissible ∧
    s.policy = .hawkeye ∧ 2 ^ 64 ≤ s.ways.toNat * s.hawkeye.historyMultiplier.toNat ∧
      new s = .error .tooLarge := by
  let s : CacheSettings := {
    sizeBytes := 128, ways := 2, policy := .hawkeye
    hawkeye := { historyMultiplier := 9223372036854775808 } }
  have hs : s.Admissible :=
    ⟨by decide, by decide, by decide, fun _ => ⟨by decide, by decide, by decide⟩, nofun⟩
  exact ⟨s, hs.check, hs, rfl, by decide, new_tooLarge hs rfl (by decide)⟩

end Cache

/-! ## Addresses -/

theorem Geometry.ext_sizes {g g' : Geometry} (hline : g.lineBytes = g'.lineBytes)
    (hsets : g.sets = g'.sets) (hways : g.ways = g'.ways) : g = g' := by
  cases g
  cases g'
  congr

/-- **Addresses are split without loss.** For a line size that is a power of two, a number of sets
and a number of ways that are not zero there is a geometry, which is that of a cache of these
settings. It takes every address to one of its sets. Every number on the way back from set and tag
fits in a word, and they lead to the block of the address. Two addresses have the same set and tag
just if they have the same block. -/
theorem CacheSettings.split_lossless {s : CacheSettings} (hpow : s.lineBytes.toNat.isPowerOfTwo)
    (hways : 1 ≤ s.ways.toNat) (hsets : 1 ≤ s.numSets) :
    ∃ g, Geometry.new s.lineBytes.toNat s.numSets s.ways.toNat = .ok g ∧
      (∀ c, Cache.new s = .ok c → c.contents.geometry = g) ∧
      s.lineBytes.toNat * s.numSets < 2 ^ 64 ∧
      ∀ a b : UInt64, g.setOf a < s.numSets ∧
        (g.tagOf a).toNat * s.numSets < 2 ^ 64 ∧
        (g.tagOf a).toNat * s.numSets + g.setOf a < 2 ^ 64 ∧
        ((g.tagOf a).toNat * s.numSets + g.setOf a) * s.lineBytes.toNat < 2 ^ 64 ∧
        g.rebuild (g.setOf a) (g.tagOf a) = .ok (blockAddress s.lineBytes a) ∧
        (g.setOf a = g.setOf b ∧ g.tagOf a = g.tagOf b ↔
          blockAddress s.lineBytes a = blockAddress s.lineBytes b) := by
  have hspan := fits_span hways
  obtain ⟨g, hg⟩ := (Geometry.new_accepts_iff s.ways.toNat).2
    ⟨Nat.pos_of_isPowerOfTwo hpow, hsets, hspan⟩
  obtain ⟨hline, hsets, hways⟩ := Geometry.new_eq_ok hg
  have hgpow : g.lineBytes.isPowerOfTwo := hline ▸ hpow
  have hblock (addr : UInt64) : blockAddress s.lineBytes addr = g.blockOf addr := by
    rw [Geometry.blockOf, hline, UInt64.ofNat_toNat]
  refine ⟨g, hg, fun c hc => ?_, hspan, fun a b => ?_⟩
  · obtain ⟨_, _, _, rfl, hline', hsets', hways', -⟩ := Cache.new_eq_ok hc
    exact Geometry.ext_sizes (hline'.trans hline.symm) (hsets'.trans hsets.symm)
      (hways'.trans hways.symm)
  · have hnumber := g.tagOf_mul_add_setOf a
    have hdiv : a.toNat / g.lineBytes ≤ a.toNat := Nat.div_le_self ..
    have hmul : a.toNat / g.lineBytes * g.lineBytes ≤ a.toNat := Nat.div_mul_le_self ..
    have hlt : a.toNat < 2 ^ 64 := a.toNat_lt
    rw [hblock, hblock, ← hline, ← hsets, hnumber]
    exact ⟨g.setOf_lt a, by omega, by omega, by omega, g.rebuild_eq hgpow a,
      (g.blockOf_eq_iff hgpow).symm⟩

/-- Three sets of two lines, with an address in the last block of all. -/
theorem CacheSettings.split_lossless_three_sets :
    let s : CacheSettings := { sizeBytes := 384, ways := 2 }
    s.lineBytes.toNat.isPowerOfTwo ∧ 1 ≤ s.ways.toNat ∧ 1 ≤ s.numSets ∧
      ∃ g, Geometry.new 64 3 2 = .ok g ∧ g.setOf 0xffffffffffffffff < 3 ∧
        g.rebuild (g.setOf 0xffffffffffffffff) (g.tagOf 0xffffffffffffffff) =
          .ok 0xffffffffffffffc0 := by
  intro s
  have hpow : s.lineBytes.toNat.isPowerOfTwo := by decide
  have hways : 1 ≤ s.ways.toNat := by decide
  have hsets : 1 ≤ s.numSets := by decide
  have hthree : s.numSets = 3 := by decide
  have hlast : blockAddress s.lineBytes 0xffffffffffffffff = 0xffffffffffffffc0 := by decide
  obtain ⟨g, hg, -, -, hsplit⟩ := split_lossless hpow hways hsets
  obtain ⟨hset, -, -, -, hrebuild, -⟩ := hsplit 0xffffffffffffffff 0
  rw [hthree] at hg hset
  rw [hlast] at hrebuild
  exact ⟨hpow, hways, hsets, g, hg, hset, hrebuild⟩

end Residency
