/-!
Runtime faults.

Every operation that indexes a slot array, divides, or does arithmetic in a 64-bit word says so in
its type: it answers in `Checked`, and a fault names what went wrong. No operation catches a fault,
so a run that ends without one has met none.
-/

namespace Residency

/-- What can stop an operation. -/
inductive Fault where
  /-- An index lies beyond the array it selects from. -/
  | outOfRange
  /-- A division or remainder by zero. -/
  | zeroDivisor
  /-- A sum, difference or product leaves the 64-bit range. -/
  | overflow
  /-- An event counter or a clock has used up its 64 bits. -/
  | exhausted
deriving DecidableEq, Repr

/-- The result of an operation that may fault. -/
abbrev Checked (α : Type) := Except Fault α

/-- A sequence of operations ends without a fault only if each of them does. -/
theorem bind_eq_ok_iff {α β : Type} {first : Checked α} {next : α → Checked β} {b : β} :
    first >>= next = .ok b ↔ ∃ a, first = .ok a ∧ next a = .ok b := by
  cases first <;> simp [bind, Except.bind]

/-- A natural number that a 64-bit word can hold. -/
def FitsWord (n : Nat) : Prop := n < UInt64.size

instance (n : Nat) : Decidable (FitsWord n) := inferInstanceAs (Decidable (n < UInt64.size))

/-- Passes exactly when the condition holds. -/
def require (condition : Prop) [Decidable condition] (fault : Fault) : Checked Unit :=
  if condition then .ok () else .error fault

theorem require_eq_ok {condition : Prop} [Decidable condition] {fault : Fault}
    (h : condition) : require condition fault = .ok () := by
  simp [require, h]

theorem require_eq_ok_iff {condition : Prop} [Decidable condition] {fault : Fault} :
    require condition fault = .ok () ↔ condition := by
  by_cases h : condition <;> simp [require, h]

/-- The first element that passes a test which may itself fault; elements behind it are not
tested. -/
def firstWhere {α : Type} (test : α → Checked Bool) : List α → Checked (Option α)
  | [] => .ok none
  | a :: rest => do
    if ← test a then
      return some a
    else
      firstWhere test rest

theorem firstWhere_eq_find? {α : Type} {test : α → Checked Bool} {p : α → Bool} {as : List α}
    (h : ∀ a ∈ as, test a = .ok (p a)) : firstWhere test as = .ok (as.find? p) := by
  induction as with
  | nil => rfl
  | cons a rest ih =>
    rw [firstWhere, h a (by simp), ih fun b hb => h b (by simp [hb])]
    cases hp : p a <;> simp [hp, bind, Except.bind, pure, Except.pure]

end Residency
