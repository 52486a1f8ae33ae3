import Residency.Contents
import Residency.Proofs.Delivers

/-!
# What each operation counts

The counters that an operation advances, and by how much. This holds of any policy, whatever it
answers: the counters do not depend on the lines being in order.
-/

namespace Residency

namespace Contents

section

variable {σ : Type} {c c' : Contents σ}

theorem count_eq_ok {f : Statistics → Statistics} (h : c.count f = .ok c') :
    c' = { c with statistics := f c.statistics } := by
  simp only [count, bind_eq_ok_iff, pure_eq_ok, Except.ok.injEq] at h
  obtain ⟨-, -, rfl⟩ := h
  rfl

end

open ReplacementPolicy

variable {σ : Type} [ReplacementPolicy σ] {c c' : Contents σ} {id : LineId} {addr : UInt64}
  {secure dropped : Bool}

theorem use_statistics (h : c.use id = .ok c') : c'.statistics = c.statistics := by
  simp only [use, bind_eq_ok_iff, pure_eq_ok, Except.ok.injEq] at h
  obtain ⟨-, -, rfl⟩ := h
  rfl

theorem install_statistics {evicted : Option UInt64}
    (h : c.install addr secure = .ok (evicted, c')) : c'.statistics = { c.statistics with
      evictions := c.statistics.evictions + evicted.isSome.toNat
      fills := c.statistics.fills + 1 } := by
  simp only [install, bind_eq_ok_iff] at h
  obtain ⟨_, -, old, -, h⟩ := h
  -- The displaced block is found in one of two ways, and counted in one.
  split at h
  all_goals
    simp only [bind_eq_ok_iff, pure_eq_ok, Except.ok.injEq, Prod.mk.injEq] at h
    obtain ⟨_, -, _, -, _, -, _, hcount, rfl, rfl⟩ := h
    rw [count_eq_ok hcount]

theorem dropLine_statistics (h : c.dropLine id = .ok c') : c'.statistics = { c.statistics with
    invalidations := c.statistics.invalidations + 1 } := by
  simp only [dropLine, bind_eq_ok_iff] at h
  obtain ⟨_, -, _, -, hcount⟩ := h
  rw [count_eq_ok hcount]

/-- A request to drop a block counts only if the block was there. -/
theorem dropBlock_statistics (h : c.dropBlock addr secure = .ok (dropped, c')) :
    c'.statistics = { c.statistics with
      invalidations := c.statistics.invalidations + dropped.toNat } := by
  simp only [dropBlock, bind_eq_ok_iff] at h
  obtain ⟨found, -, h⟩ := h
  cases found with
  | none =>
    simp only [pure_eq_ok, Except.ok.injEq, Prod.mk.injEq] at h
    obtain ⟨rfl, rfl⟩ := h
    rfl
  | some id =>
    simp only [bind_eq_ok_iff, pure_eq_ok, Except.ok.injEq, Prod.mk.injEq] at h
    obtain ⟨_, hdrop, rfl, rfl⟩ := h
    rw [dropLine_statistics hdrop]
    rfl

/-- A predicted death counts in any case. -/
theorem dropDead_statistics (h : BlockInvalidator.dropDead c addr secure = .ok (dropped, c')) :
    c'.statistics = { c.statistics with
      invalidations := c.statistics.invalidations + dropped.toNat
      deadPredictions := c.statistics.deadPredictions + 1 } := by
  obtain ⟨_, hcount, hdrop⟩ := bind_eq_ok_iff.1 h
  rw [dropBlock_statistics hdrop, count_eq_ok hcount]

theorem serve_statistics {access : Access} {hit : Bool} {evicted : Option UInt64}
    (h : c.serve access = .ok (hit, evicted, c')) : c'.statistics = { c.statistics with
      accesses := c.statistics.accesses + 1
      hits := c.statistics.hits + hit.toNat
      misses := c.statistics.misses + (!hit).toNat
      fills := c.statistics.fills + (!hit).toNat
      evictions := c.statistics.evictions + evicted.isSome.toNat } := by
  simp only [serve, bind_eq_ok_iff] at h
  obtain ⟨_, haccess, found, -, h⟩ := h
  cases found with
  | some id =>
    simp only [bind_eq_ok_iff, pure_eq_ok, Except.ok.injEq, Prod.mk.injEq] at h
    obtain ⟨_, hhit, _, huse, rfl, rfl, rfl⟩ := h
    rw [use_statistics huse, count_eq_ok hhit, count_eq_ok haccess]
    rfl
  | none =>
    simp only [bind_eq_ok_iff, pure_eq_ok, Except.ok.injEq, Prod.mk.injEq] at h
    obtain ⟨_, hmiss, ⟨_, _⟩, hinstall, rfl, rfl, rfl⟩ := h
    rw [install_statistics hinstall, count_eq_ok hmiss, count_eq_ok haccess]
    rfl

theorem prefetch_statistics {target : UInt64} (h : prefetch secure c target = .ok c') :
    ∃ (filled : Bool) (evicted : Bool), c'.statistics = { c.statistics with
      fills := c.statistics.fills + filled.toNat
      evictions := c.statistics.evictions + evicted.toNat
      prefetchFills := c.statistics.prefetchFills + filled.toNat } := by
  simp only [prefetch, bind_eq_ok_iff] at h
  obtain ⟨found, -, h⟩ := h
  cases found with
  | some id =>
    simp only [pure_eq_ok, Except.ok.injEq] at h
    obtain rfl := h
    exact ⟨false, false, rfl⟩
  | none =>
    simp only [bind_eq_ok_iff] at h
    obtain ⟨⟨evicted, _⟩, hinstall, hcount⟩ := h
    refine ⟨true, evicted.isSome, ?_⟩
    rw [count_eq_ok hcount, install_statistics hinstall]
    rfl

/-- All targets count as asked for, and those that were not there as filled. -/
theorem prefetchAll_statistics {targets : List UInt64}
    (h : c.prefetchAll secure targets = .ok c') :
    ∃ filled evicted, filled ≤ targets.length ∧ c'.statistics = { c.statistics with
      fills := c.statistics.fills + filled
      evictions := c.statistics.evictions + evicted
      prefetchesIssued := c.statistics.prefetchesIssued + targets.length
      prefetchFills := c.statistics.prefetchFills + filled } := by
  obtain ⟨c₁, hcount, h⟩ := bind_eq_ok_iff.1 h
  have hfold : Delivers (targets.foldlM (prefetch secure) c₁) (fun _ => True) fun c' : Contents σ =>
      ∃ filled evicted, filled ≤ targets.length ∧ c'.statistics = { c₁.statistics with
        fills := c₁.statistics.fills + filled
        evictions := c₁.statistics.evictions + evicted
        prefetchFills := c₁.statistics.prefetchFills + filled } := by
    refine Delivers.foldlM_history (motive := fun done (c' : Contents σ) => ∃ filled evicted,
      filled ≤ done.length ∧ c'.statistics = { c₁.statistics with
        fills := c₁.statistics.fills + filled
        evictions := c₁.statistics.evictions + evicted
        prefetchFills := c₁.statistics.prefetchFills + filled }) ⟨0, 0, Nat.le_refl 0, rfl⟩ ?_
    rintro done target c₂ - ⟨filled, evicted, hle, hc₂⟩
    refine Delivers.of_forall_ok fun c₃ hc₃ => ?_
    obtain ⟨fills, evicts, heq⟩ := prefetch_statistics hc₃
    refine ⟨filled + fills.toNat, evicted + evicts.toNat, ?_, ?_⟩
    · have := Bool.toNat_le fills
      rw [List.length_append, List.length_singleton]
      omega
    · rw [heq, hc₂]
      simp only [Nat.add_assoc]
  obtain ⟨filled, evicted, hle, heq⟩ := hfold.of_ok h
  refine ⟨filled, evicted, hle, ?_⟩
  rw [heq, count_eq_ok hcount]

theorem flush_statistics (h : c.flush = .ok c') : ∃ dropped, c'.statistics = { c.statistics with
    invalidations := c.statistics.invalidations + dropped } := by
  have hfold : Delivers c.flush (fun _ => True) fun c' => ∃ dropped,
      c'.statistics = { c.statistics with
        invalidations := c.statistics.invalidations + dropped } := by
    refine Delivers.foldlM_history (motive := fun _ (c' : Contents σ) => ∃ dropped,
      c'.statistics = { c.statistics with
        invalidations := c.statistics.invalidations + dropped }) ⟨0, rfl⟩ ?_
    rintro done id c₁ - ⟨dropped, hc₁⟩
    refine Delivers.of_forall_ok fun c₂ hc₂ => ?_
    simp only [vacate, bind_eq_ok_iff] at hc₂
    obtain ⟨line, -, hc₂⟩ := hc₂
    split at hc₂
    · refine ⟨dropped + 1, ?_⟩
      rw [dropLine_statistics hc₂, hc₁]
      rfl
    · obtain rfl := Except.ok.inj hc₂
      exact ⟨dropped, hc₁⟩
  exact hfold.of_ok h

end Contents

end Residency
