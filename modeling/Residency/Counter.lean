import Residency.Binary64
import Residency.Rejection

/-!
Saturating counters.

A counter of a given width stops at zero and at its maximum instead of wrapping. It holds the
re-reference value of a cache line and the confidence of a table entry.
-/

namespace Residency

/-- A saturating counter; the bounds are part of the type. -/
structure Counter where
  value : Nat
  /-- What `reset` restores. -/
  initial : Nat
  max : Nat
  value_le : value ≤ max
  initial_le : initial ≤ max
deriving DecidableEq, Repr

namespace Counter

/-- The widest counter that can be built. -/
def maxWidth : Nat := 32

/-- The largest value of `bits` bits. -/
def fullScale (bits : Nat) : Nat :=
  (1 <<< bits) - 1

/-- A counter of `bits` bits that starts at `initial`. -/
def new (bits initial : Nat) : Except Rejection Counter :=
  if bits = 0 then
    .error .zeroCounterWidth
  else if maxWidth < bits then
    .error (.counterTooWide bits maxWidth)
  else if h : initial ≤ fullScale bits then
    .ok ⟨initial, initial, fullScale bits, h, h⟩
  else
    .error (.initialOutOfRange initial (fullScale bits))

/-- One up, stopping at the maximum. -/
def increment (counter : Counter) : Counter :=
  { counter with
    value := min (counter.value + 1) counter.max
    value_le := Nat.min_le_right _ _ }

/-- One down, stopping at zero. -/
def decrement (counter : Counter) : Counter :=
  { counter with
    value := counter.value - 1
    value_le := Nat.le_trans (Nat.sub_le _ _) counter.value_le }

/-- Straight to the maximum. -/
def saturate (counter : Counter) : Counter :=
  { counter with
    value := counter.max
    value_le := Nat.le_refl _ }

/-- Back to the initial value. -/
def reset (counter : Counter) : Counter :=
  { counter with
    value := counter.initial
    value_le := counter.initial_le }

/-- Whether the counter stands at its maximum. -/
def isSaturated (counter : Counter) : Bool :=
  counter.value == counter.max

/-- The value as a fraction of full scale. -/
def saturation (counter : Counter) : Binary64 :=
  .ofRatio counter.value counter.max

@[simp] theorem value_increment (c : Counter) : c.increment.value = min (c.value + 1) c.max := rfl
@[simp] theorem value_decrement (c : Counter) : c.decrement.value = c.value - 1 := rfl
@[simp] theorem value_saturate (c : Counter) : c.saturate.value = c.max := rfl
@[simp] theorem value_reset (c : Counter) : c.reset.value = c.initial := rfl
@[simp] theorem max_increment (c : Counter) : c.increment.max = c.max := rfl
@[simp] theorem max_decrement (c : Counter) : c.decrement.max = c.max := rfl
@[simp] theorem max_saturate (c : Counter) : c.saturate.max = c.max := rfl
@[simp] theorem max_reset (c : Counter) : c.reset.max = c.max := rfl

end Counter

end Residency
