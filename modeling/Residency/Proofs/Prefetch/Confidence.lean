import Mathlib.Order.Bounds.Basic
import Residency.Proofs.Binary64
import Residency.Proofs.Prefetch.Learning
import Residency.Proofs.Prefetch.Widths

/-!
# How long a signature takes to be trusted

An entry that expects another signature loses confidence until it falls below the threshold, and
then takes the new signature over. From there on it gains confidence until it reaches the threshold.
So the accesses with one signature that it takes until the block is predicted dead can be counted
beforehand, and every access with that signature takes one off.
-/

namespace Residency

/-- The least confidence that is not below a percentage of full scale. -/
def quota (percent full : Nat) : Nat :=
  (percent * full + 99) / 100

variable {percent full : Nat} {signature successor : UInt64} {entry : DeadBlockEntry}

theorem lt_quota_iff {value : Nat} : value < quota percent full ↔ 100 * value < percent * full := by
  rw [quota]
  omega

theorem quota_le (h : percent ≤ 100) : quota percent full ≤ full := by
  have hproduct : percent * full ≤ 100 * full := Nat.mul_le_mul_right full h
  rw [quota]
  omega

theorem quota_pos (hpercent : 0 < percent) (hfull : 0 < full) : 0 < quota percent full := by
  have hproduct := Nat.mul_pos hpercent hfull
  rw [quota]
  omega

namespace DeadBlockEntry

/-- How many accesses with a signature it takes until the last of them is predicted to be the last
use of its block, for an entry that is trusted from a confidence of `quota` on. -/
def due (entry : DeadBlockEntry) (quota : Nat) (signature : UInt64) : Nat :=
  if entry.signature = signature then
    max (quota - entry.confidence.value) 1
  else if entry.confidence.value ≤ quota then
    1 + (quota - (entry.confidence.value - 1))
  else
    entry.confidence.value - quota + 2

theorem due_pos (entry : DeadBlockEntry) (quota : Nat) (signature : UInt64) :
    0 < entry.due quota signature := by
  rw [due]
  split_ifs <;> omega

theorem expects_iff (h : signature ≠ 0) :
    entry.expects signature = true ↔ entry.signature = signature := by
  simp [expects, h]

/-- The percentage of full scale is compared without a rounding error. -/
theorem doubts_iff (hmax : entry.confidence.max = full) (hpos : 0 < full) (hlt : full < 2 ^ 32)
    (hpercent : percent ≤ 100) : entry.doubts (.ofRatio percent 100) = true ↔
      entry.confidence.value < quota percent full := by
  subst hmax
  rw [doubts, decide_eq_true_eq, Counter.saturation_lt_iff hpos hlt hpercent, lt_quota_iff]

/-- A blank entry loses confidence until it is below the threshold, and then gains confidence until
it is not. Each takes at least one access. -/
theorem exists_due_blank (confidence : Counter) (hpercent : percent ≤ 100)
    (hquota : 0 < quota percent full) (hne : signature ≠ 0) :
    ∃ drain climb, IsLeast {j | 1 ≤ j ∧ 100 * (confidence.value - j) < percent * full} drain ∧
      IsLeast {i | 1 ≤ i ∧ percent * full ≤ 100 * min (confidence.value - drain + i) full} climb ∧
      (blank confidence).due (quota percent full) signature = drain + climb := by
  have hle : quota percent full ≤ full := quota_le hpercent
  have hblank : (blank confidence).signature ≠ signature := hne.symm
  have hreach {value : Nat} : percent * full ≤ 100 * value ↔ quota percent full ≤ value := by
    rw [← not_lt, ← lt_quota_iff, not_lt]
  simp only [← lt_quota_iff, hreach]
  refine ⟨confidence.value - quota percent full + 1,
    quota percent full - (confidence.value - (confidence.value - quota percent full + 1)),
    ⟨?_, ?_⟩, ⟨?_, ?_⟩, ?_⟩
  · constructor <;> omega
  · rintro j ⟨hj, hlow⟩
    omega
  · constructor <;> omega
  · rintro i ⟨hi, hhigh⟩
    omega
  · rw [due, if_neg hblank]
    show (if confidence.value ≤ quota percent full then _ else _) = _
    split_ifs <;> dsimp only [blank] <;> omega

/-- The prediction is due by the time that the confidence can have gone all the way up. -/
theorem due_le (hmax : entry.confidence.max = full) (hpercent : percent ≤ 100)
    (hquota : 0 < quota percent full) : entry.due (quota percent full) signature ≤ full + 1 := by
  have hle : quota percent full ≤ full := quota_le hpercent
  have hvalue := entry.confidence.value_le
  rw [due]
  split_ifs <;> omega

section

variable (hmax : entry.confidence.max = full) (hpos : 0 < full) (hlt : full < 2 ^ 32)
  (hpercent : percent ≤ 100) (hne : signature ≠ 0) (hquota : 0 < quota percent full)
include hmax hpos hlt hpercent hne hquota

/-- Every access with the signature brings the prediction one access nearer. -/
theorem due_train :
    (entry.train signature (.ofRatio percent 100)).due (quota percent full) signature =
      max (entry.due (quota percent full) signature - 1) 1 := by
  have hle : quota percent full ≤ full := quota_le hpercent
  by_cases heq : entry.signature = signature
  · have hvalue := entry.confidence.value_le
    rw [train, if_pos ((expects_iff hne).2 heq), due, due, if_pos heq, if_pos heq,
      Counter.value_increment]
    omega
  · rw [train, if_neg (mt (expects_iff hne).1 heq)]
    have hdoubts : doubts { entry with confidence := entry.confidence.decrement }
        (.ofRatio percent 100) = true ↔ entry.confidence.value - 1 < quota percent full :=
      doubts_iff hmax hpos hlt hpercent
    dsimp only
    -- The entry has just been taken over, or goes on losing confidence.
    split_ifs with hlow
    · have hlow := hdoubts.1 hlow
      rw [due, due, if_pos rfl, if_neg heq, Counter.value_decrement]
      split_ifs <;> omega
    · have hlow := mt hdoubts.2 hlow
      rw [due, due, if_neg heq, if_neg heq, Counter.value_decrement]
      split_ifs <;> omega

/-- The prediction is made just when it is due on the next access. -/
theorem dead_iff : (entry.expects signature &&
      !(entry.train signature (.ofRatio percent 100)).doubts (.ofRatio percent 100)) = true ↔
    entry.due (quota percent full) signature ≤ 1 := by
  have hle : quota percent full ≤ full := quota_le hpercent
  rw [Bool.and_eq_true, expects_iff hne, Bool.not_eq_true', ← Bool.not_eq_true,
    doubts_iff (by rw [max_train, hmax]) hpos hlt hpercent, due]
  by_cases heq : entry.signature = signature
  · rw [train, if_pos ((expects_iff hne).2 heq), if_pos heq, Counter.value_increment,
      and_iff_right heq]
    omega
  · refine iff_of_false (fun hand => heq hand.1) ?_
    rw [if_neg heq]
    split_ifs <;> omega

end

end DeadBlockEntry

namespace Memoryless

variable {m : Memoryless} {found : Option DeadBlockEntry}

/-- The threshold is a percentage of full scale, which is the same for all entries. -/
structure Scaled (m : Memoryless) (percent full : Nat) : Prop where
  threshold_eq : m.threshold = .ofRatio percent 100
  percent_le : percent ≤ 100
  full_pos : 0 < full
  full_lt : full < 2 ^ 32
  max_initial : m.initialConfidence.max = full

/-- How many accesses to a key with a signature it takes until the last of them is predicted dead.
An unknown key takes one more, to get an entry. -/
def due (m : Memoryless) (quota : Nat) (signature : UInt64) : Option DeadBlockEntry → Nat
  | none => (DeadBlockEntry.blank m.initialConfidence).due quota signature + 1
  | some entry => entry.due quota signature

theorem due_pos (m : Memoryless) (quota : Nat) (signature : UInt64)
    (found : Option DeadBlockEntry) : 0 < m.due quota signature found := by
  cases found with
  | none => exact Nat.succ_pos _
  | some entry => exact entry.due_pos quota signature

theorem max_meet (h : m.initialConfidence.max = full)
    (hfound : ∀ entry ∈ found, entry.confidence.max = full) :
    (m.meet successor signature found).2.confidence.max = full := by
  cases found with
  | none => exact h
  | some entry =>
    have hmax := entry.max_train signature m.threshold
    rw [meet]
    dsimp only
    split_ifs <;> exact hmax.trans (hfound entry rfl)

/-- An access to a key is predicted dead just when that is due, and brings the prediction one access
nearer. -/
theorem meet_spec (successor : UInt64) (h : m.Scaled percent full) (hpercent : 0 < percent)
    (hne : signature ≠ 0) (hfound : ∀ entry ∈ found, entry.confidence.max = full) :
    ((m.meet successor signature found).1 = true ↔
        m.due (quota percent full) signature found ≤ 1) ∧
      (m.meet successor signature found).2.due (quota percent full) signature =
        max (m.due (quota percent full) signature found - 1) 1 := by
  have hquota := quota_pos hpercent h.full_pos
  cases found with
  | none =>
    have hpos := (DeadBlockEntry.blank m.initialConfidence).due_pos (quota percent full) signature
    constructor
    · simp only [meet, due, Bool.false_eq_true, false_iff]
      omega
    · simp only [meet, due]
      omega
  | some entry =>
    have hmax := hfound entry rfl
    have hdead := DeadBlockEntry.dead_iff hmax h.full_pos h.full_lt h.percent_le hne hquota
    have hdue := DeadBlockEntry.due_train hmax h.full_pos h.full_lt h.percent_le hne hquota
    rw [meet, due, h.threshold_eq]
    refine ⟨hdead, ?_⟩
    rw [← hdue]
    dsimp only
    split_ifs <;> rfl

theorem due_le (signature : UInt64) (h : m.Scaled percent full) (hpercent : 0 < percent)
    (hfound : ∀ entry ∈ found, entry.confidence.max = full) :
    m.due (quota percent full) signature found ≤ full + 2 := by
  have hquota := quota_pos hpercent h.full_pos
  cases found with
  | none => exact Nat.succ_le_succ (DeadBlockEntry.due_le h.max_initial h.percent_le hquota)
  | some entry =>
    exact Nat.le_succ_of_le (DeadBlockEntry.due_le (hfound entry rfl) h.percent_le hquota)

end Memoryless

end Residency
