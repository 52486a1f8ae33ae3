import Residency.Prefetch.Dbcp
import Residency.Proofs.Delivers

/-!
# The courses of an access to the dead-block prefetcher

An access is ignored, opens an entry, trains one, or trains one and finds its block dead. Only the
last course reaches the cache. What is to be shown of every access is shown course by course.
-/

namespace Residency

namespace Dbcp

variable {τ : Type} [BlockInvalidator τ]

/-- The courses that an access can take, with the blocks that are asked for, and with what becomes
of the prefetcher and of the cache behind it. -/
inductive Observed (p : Dbcp) (access : Access) (cache : τ) : List UInt64 → Dbcp → τ → Prop
  | ignored (anonymous : access.pc = none) : Observed p access cache [] p cache
  | enrolled {pc : UInt64} {c : Context} {p' : Dbcp} (named : access.pc = some pc)
      (context : p.context access pc = .ok c)
      (miss : p.table.find? c.index c.secure = .ok none) (enroll : p.enroll c = .ok p') :
      Observed p access cache [] p' cache
  | spared {pc : UInt64} {c : Context} {id : LineId} {p' : Dbcp} (named : access.pc = some pc)
      (context : p.context access pc = .ok c)
      (hit : p.table.find? c.index c.secure = .ok (some id))
      (train : p.train c id = .ok (false, p')) : Observed p access cache [] p' cache
  | dead {pc : UInt64} {c : Context} {id : LineId} {trained : Dbcp} {dropped : Bool} {cache' : τ}
      (named : access.pc = some pc) (context : p.context access pc = .ok c)
      (hit : p.table.find? c.index c.secure = .ok (some id))
      (train : p.train c id = .ok (true, trained))
      (drop : BlockInvalidator.dropDead cache c.block c.secure = .ok (dropped, cache')) :
      Observed p access cache [c.block + trained.lineBytes] (trained.bury c.slot) cache'

variable {p p' : Dbcp} {access : Access} {cache cache' : τ} {targets : List UInt64}

theorem observed_of_eq_ok (h : p.observe access cache = .ok (targets, p', cache')) :
    Observed p access cache targets p' cache' := by
  rw [observe] at h
  cases hpc : access.pc with
  | none =>
    simp only [hpc, pure_eq_ok, Except.ok.injEq, Prod.mk.injEq] at h
    obtain ⟨rfl, rfl, rfl⟩ := h
    exact .ignored hpc
  | some pc =>
    simp only [hpc, bind_eq_ok_iff] at h
    obtain ⟨c, hc, found, hfound, h⟩ := h
    cases found with
    | none =>
      simp only [bind_eq_ok_iff, pure_eq_ok, Except.ok.injEq, Prod.mk.injEq] at h
      obtain ⟨_, henroll, rfl, rfl, rfl⟩ := h
      exact .enrolled hpc hc hfound henroll
    | some id =>
      simp only [bind_eq_ok_iff] at h
      obtain ⟨⟨dead, q⟩, htrain, h⟩ := h
      cases dead with
      | false =>
        simp only [pure_eq_ok, Except.ok.injEq, Prod.mk.injEq, Bool.false_eq_true, if_false] at h
        obtain ⟨rfl, rfl, rfl⟩ := h
        exact .spared hpc hc hfound htrain
      | true =>
        simp only [if_true, bind_eq_ok_iff, pure_eq_ok, Except.ok.injEq, Prod.mk.injEq] at h
        obtain ⟨⟨dropped, _⟩, hdrop, rfl, rfl, rfl⟩ := h
        exact .dead hpc hc hfound htrain hdrop

theorem Observed.eq_ok (h : Observed p access cache targets p' cache') :
    p.observe access cache = .ok (targets, p', cache') := by
  rw [observe]
  cases h with
  | ignored anonymous => simp [anonymous]
  | enrolled named context miss enroll => simp [named, context, miss, enroll]
  | spared named context hit train => simp [named, context, hit, train]
  | dead named context hit train drop => simp [named, context, hit, train, drop]

/-- The reply of the cache is thrown away, so with any other cache behind it that replies at all the
prefetcher answers alike and ends in the same state. -/
theorem Observed.with_other {τ' : Type} [BlockInvalidator τ']
    (h : Observed p access cache targets p' cache') (other : τ')
    (hdrop : ∀ block secure, (BlockInvalidator.dropDead other block secure).isOk) :
    ∃ other', Observed p access other targets p' other' := by
  cases h with
  | ignored anonymous => exact ⟨other, .ignored anonymous⟩
  | enrolled named context miss enroll => exact ⟨other, .enrolled named context miss enroll⟩
  | spared named context hit train => exact ⟨other, .spared named context hit train⟩
  | @dead _ c _ _ _ _ named context hit train drop =>
    obtain ⟨⟨dropped, other'⟩, hother⟩ := exists_of_isOk (hdrop c.block c.secure)
    exact ⟨other', .dead named context hit train hother⟩

end Dbcp

end Residency
