import Residency.Proofs.Delivers
import Residency.Statistics

/-!
# What the statistics of a cache account for

Every access hits or misses, every fill follows a miss or a prefetch, and what has been filled has
been evicted or dropped or is still there. No counter can then outgrow the number of accesses and of
requested prefetches.
-/

namespace Residency

theorem countP_append_singleton {α : Type} (p : α → Bool) (as : List α) (a : α) :
    (as ++ [a]).countP p = as.countP p + (p a).toNat := by
  rw [List.countP_append, List.countP_singleton]
  cases p a <;> rfl

namespace Statistics

variable {s : Statistics} {bound : Nat}

/-- The counters account for each other and for the occupied lines, after at most `accesses`
accesses and at most `asked` requested prefetches. -/
structure Conserved (s : Statistics) (occupancy accesses asked : Nat) : Prop where
  served : s.hits + s.misses = s.accesses
  filled : s.fills = s.misses + s.prefetchFills
  kept : s.fills = s.evictions + s.invalidations + occupancy
  accesses_le : s.accesses ≤ accesses
  prefetchFills_le : s.prefetchFills ≤ asked
  prefetchesIssued_le : s.prefetchesIssued ≤ asked
  deadPredictions_le : s.deadPredictions ≤ accesses

/-- No counter exceeds a bound. -/
structure Below (s : Statistics) (bound : Nat) : Prop where
  accesses : s.accesses ≤ bound
  hits : s.hits ≤ bound
  misses : s.misses ≤ bound
  fills : s.fills ≤ bound
  evictions : s.evictions ≤ bound
  invalidations : s.invalidations ≤ bound
  deadPredictions : s.deadPredictions ≤ bound
  prefetchesIssued : s.prefetchesIssued ≤ bound
  prefetchFills : s.prefetchFills ≤ bound

theorem Below.fits (h : s.Below bound) (hbound : bound < UInt64.size) : s.Fits := by
  obtain ⟨h₁, h₂, h₃, h₄, h₅, h₆, h₇, h₈, h₉⟩ := h
  refine ⟨?_, ?_, ?_, ?_, ?_, ?_, ?_, ?_, ?_⟩ <;> exact Nat.lt_of_le_of_lt ‹_› hbound

/-- Counting events takes as many bits as the largest counter. -/
theorem Below.require (h : s.Below bound) :
    Delivers (Residency.require s.Fits .exhausted) (Exhausted bound) fun _ => s.Fits :=
  .require fun hfull => ⟨rfl, Nat.le_of_not_lt fun hbound => hfull (h.fits hbound)⟩

/-! ## Growth -/

instance : Add Statistics where
  add s t :=
    { accesses := s.accesses + t.accesses
      hits := s.hits + t.hits
      misses := s.misses + t.misses
      fills := s.fills + t.fills
      evictions := s.evictions + t.evictions
      invalidations := s.invalidations + t.invalidations
      deadPredictions := s.deadPredictions + t.deadPredictions
      prefetchesIssued := s.prefetchesIssued + t.prefetchesIssued
      prefetchFills := s.prefetchFills + t.prefetchFills }

theorem add_assoc (s t u : Statistics) : s + t + u = s + (t + u) := by
  show Statistics.mk _ _ _ _ _ _ _ _ _ = Statistics.mk _ _ _ _ _ _ _ _ _
  congr 1 <;> apply Nat.add_assoc

/-- The counters have grown from `s` to `s'` as they have from `t` to `t'`. -/
def GrowAlike (s s' t t' : Statistics) : Prop :=
  ∃ growth, s' = s + growth ∧ t' = t + growth

namespace GrowAlike

variable {s s' s'' t t' t'' : Statistics}

theorem refl (s t : Statistics) : GrowAlike s s t t :=
  ⟨{}, rfl, rfl⟩

theorem trans (h : GrowAlike s s' t t') (h' : GrowAlike s' s'' t' t'') :
    GrowAlike s s'' t t'' := by
  obtain ⟨first, rfl, rfl⟩ := h
  obtain ⟨second, rfl, rfl⟩ := h'
  exact ⟨first + second, add_assoc .., add_assoc ..⟩

end GrowAlike

end Statistics

end Residency
