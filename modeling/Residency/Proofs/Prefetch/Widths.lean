import Residency.Proofs.Prefetch.Alone
import Residency.Proofs.Prefetch.Dbcp
import Residency.Proofs.Replacement.Widths

/-!
# The numbers of a prefetcher fit their widths

A table shifts an index by less than a word, and the confidences that it stores are counters of at
most 32 bits. No access that the prefetcher watches breaks this.
-/

namespace Residency

/-! ## Tables -/

namespace TaggedTable

variable {σ E : Type} {P : E → Prop} {t t' : TaggedTable σ E} {id : LineId}

/-- The index is shifted by less than a word, and all entries satisfy `P`. -/
structure Holds (P : E → Prop) (t : TaggedTable σ E) : Prop where
  setBits_lt : t.setBits < 64
  blank : P t.blank
  entries : t.slots.All fun slot => P slot.data

theorem new_holds {entries assoc : Nat} {blank : E} {policy : σ} (hentries : FitsWord entries)
    (hblank : P blank) (h : TaggedTable.new entries assoc blank policy = .ok t) : t.Holds P := by
  obtain ⟨-, -, -, hpow, rfl⟩ := new_eq_ok_iff.1 h
  refine ⟨?_, hblank, Slots.all_uniform _ _ hblank⟩
  have hne : entries / assoc ≠ 0 := Nat.ne_of_gt (Nat.pos_of_isPowerOfTwo hpow)
  exact (Nat.log2_lt hne).2 (Nat.lt_of_le_of_lt (Nat.div_le_self ..) hentries)

namespace Holds

theorem entry {data : E} (h : t.Holds P) (hdata : t.entry id = .ok data) : P data := by
  obtain ⟨slot, hslot, hdata⟩ := bind_eq_ok_iff.1 hdata
  obtain rfl := Except.ok.inj hdata
  exact h.entries.get hslot

theorem setEntry {data : E} (h : t.Holds P) (hdata : P data)
    (ht : t.setEntry id data = .ok t') : t'.Holds P := by
  obtain ⟨slots, hslots, ht⟩ := bind_eq_ok_iff.1 ht
  obtain rfl := Except.ok.inj ht
  exact ⟨h.setBits_lt, h.blank, h.entries.modify (fun _ _ => hdata) hslots⟩

variable [ReplacementPolicy σ]

theorem use (h : t.Holds P) (ht : t.use id = .ok t') : t'.Holds P := by
  obtain ⟨policy, -, ht⟩ := bind_eq_ok_iff.1 ht
  obtain rfl := Except.ok.inj ht
  exact ⟨h.setBits_lt, h.blank, h.entries⟩

theorem makeRoom {index : UInt64} (h : t.Holds P) (ht : t.makeRoom index = .ok (id, t')) :
    t'.Holds P := by
  simp only [TaggedTable.makeRoom, bind_eq_ok_iff, pure_eq_ok, Except.ok.injEq,
    Prod.mk.injEq] at ht
  obtain ⟨_, -, _, -, slots, hslots, -, rfl⟩ := ht
  exact ⟨h.setBits_lt, h.blank, h.entries.modify (fun _ _ => h.blank) hslots⟩

theorem put {index : UInt64} {secure : Bool} {data : E} (h : t.Holds P) (hdata : P data)
    (ht : t.put index secure id data = .ok t') : t'.Holds P := by
  simp only [TaggedTable.put, bind_eq_ok_iff, pure_eq_ok, Except.ok.injEq] at ht
  obtain ⟨slots, hslots, _, -, rfl⟩ := ht
  exact ⟨h.setBits_lt, h.blank, h.entries.set hdata hslots⟩

end Holds

end TaggedTable

/-! ## The dead-block prefetcher -/

/-- Training moves the confidence and leaves its width. -/
theorem DeadBlockEntry.max_train (entry : DeadBlockEntry) (signature : UInt64)
    (threshold : Binary64) :
    (entry.train signature threshold).confidence.max = entry.confidence.max := by
  simp only [train]
  split
  · rfl
  · split <;> rfl

namespace Dbcp

variable {p p' : Dbcp} {c : Context}

/-- All counters of the prefetcher fit. -/
structure Fits (p : Dbcp) : Prop where
  statistics : p.statistics.Fits
  table : p.table.Holds fun entry => entry.confidence.Fits
  initialConfidence : p.initialConfidence.Fits

theorem new_fits {lineBytes : UInt64} {settings : DbcpSettings}
    (h : Dbcp.new lineBytes settings = .ok p) : p.Fits := by
  obtain ⟨confidence, policy, table, -, -, hconfidence, -, htable, rfl⟩ := new_eq_ok_iff.1 h
  have hfits := Counter.new_fits hconfidence
  have hnone : DbcpStatistics.Fits {} := by decide
  exact ⟨hnone, TaggedTable.new_holds settings.tableEntries.toNat_lt hfits htable, hfits⟩

namespace Fits

theorem withStatistics {s : DbcpStatistics} (h : p.Fits) (hp : p.withStatistics s = .ok p') :
    p'.Fits := by
  obtain ⟨_, hs, hp⟩ := bind_eq_ok_iff.1 hp
  obtain rfl := Except.ok.inj hp
  exact ⟨require_eq_ok_iff.1 hs, h.table, h.initialConfidence⟩

theorem enroll (h : p.Fits) (hp : p.enroll c = .ok p') : p'.Fits := by
  obtain ⟨q, hq, hp⟩ := bind_eq_ok_iff.1 hp
  have hfits := h.withStatistics hq
  obtain ⟨⟨id, room⟩, hroom, hp⟩ := bind_eq_ok_iff.1 hp
  obtain ⟨table, htable, hp⟩ := bind_eq_ok_iff.1 hp
  obtain rfl := Except.ok.inj hp
  exact ⟨hfits.statistics, (hfits.table.makeRoom hroom).put hfits.initialConfidence htable,
    hfits.initialConfidence⟩

theorem train {id : LineId} {dead : Bool} (h : p.Fits) (hp : p.train c id = .ok (dead, p')) :
    p'.Fits := by
  obtain ⟨used, hused, hp⟩ := bind_eq_ok_iff.1 hp
  obtain ⟨entry, hentry, hp⟩ := bind_eq_ok_iff.1 hp
  obtain ⟨q, hq, hp⟩ := bind_eq_ok_iff.1 hp
  obtain ⟨table, htable, hp⟩ := bind_eq_ok_iff.1 hp
  obtain ⟨-, rfl⟩ := Prod.mk.inj (Except.ok.inj hp)
  have hfits := h.withStatistics hq
  have hold := h.table.use hused
  refine ⟨hfits.statistics, hold.setEntry ?_ htable, hfits.initialConfidence⟩
  -- A prediction is noted beside the confidence.
  split <;> exact (entry.max_train c.signature p.threshold).trans_lt (hold.entry hentry)

theorem bury (h : p.Fits) (slot : Nat) : (p.bury slot).Fits :=
  ⟨h.statistics, h.table, h.initialConfidence⟩

theorem observe {τ : Type} [BlockInvalidator τ] {access : Access} {cache cache' : τ}
    {targets : List UInt64} (h : p.Fits)
    (hp : p.observe access cache = .ok (targets, p', cache')) : p'.Fits := by
  cases observed_of_eq_ok hp with
  | ignored anonymous => exact h
  | enrolled named context miss enroll => exact h.enroll enroll
  | spared named context hit train => exact h.train train
  | dead named context hit train drop => exact (h.train train).bury _

end Fits

end Dbcp

/-! ## The selected prefetcher -/

namespace Prefetcher

/-- The counters of the prefetcher fit. The next-line prefetcher has none. -/
def Fits : Option Prefetcher → Prop
  | some (.dbcp p) => p.Fits
  | _ => True

theorem new_fits {s : CacheSettings} {p : Option Prefetcher} (h : Prefetcher.new s = .ok p) :
    Fits p := by
  rw [Prefetcher.new] at h
  cases hkind : s.prefetcher with
  | none =>
    simp only [hkind] at h
    obtain rfl := Except.ok.inj h
    trivial
  | nextLine =>
    simp only [hkind] at h
    obtain rfl := Except.ok.inj h
    trivial
  | dbcp =>
    simp only [hkind] at h
    obtain ⟨q, hq, h⟩ := accepted_bind_iff.1 h
    obtain rfl := Except.ok.inj h
    exact Dbcp.new_fits hq

theorem fits_decideOn {p p' : Option Prefetcher} {access : Access} {targets : List UInt64}
    (h : Fits p) (hp : decideOn p access = .ok (targets, p')) : Fits p' := by
  cases p with
  | none =>
    obtain ⟨-, rfl⟩ := Prod.mk.inj (Except.ok.inj hp)
    exact h
  | some p =>
    simp only [decideOn, bind_eq_ok_iff, pure_eq_ok, Except.ok.injEq, Prod.mk.injEq] at hp
    obtain ⟨⟨_, q, _⟩, hq, -, rfl⟩ := hp
    cases p with
    | nextLine p =>
      obtain ⟨_, -, hq⟩ := bind_eq_ok_iff.1 hq
      cases hq
      trivial
    | dbcp p =>
      simp only [observe, bind_eq_ok_iff, pure_eq_ok, Except.ok.injEq, Prod.mk.injEq] at hq
      obtain ⟨⟨_, q', _⟩, hq', -, rfl, -⟩ := hq
      exact Dbcp.Fits.observe h hq'

end Prefetcher

end Residency
