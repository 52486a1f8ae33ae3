import Residency.Proofs.Slots
import Residency.Replacement.Policy

/-!
# What a structure relies on in its replacement policy

A policy keeps its own record of which slots are occupied. `LawfulPolicy` says that the record
follows the calls, that inside the geometry no call faults, and that vacant slots are given up
before any other. A structure that tells its policy of every fill and every invalidation then shares
one view of the occupied slots with it, whichever policy it is.
-/

namespace Residency

theorem firstVacant_eq {valid : Slots Bool} {sets ways : Nat} {occupied : LineId → Bool}
    {candidates : List LineId} (h : valid.Records sets ways id occupied)
    (hc : ∀ line ∈ candidates, line.Within sets ways) :
    firstVacant valid candidates = .ok (candidates.find? fun line => !occupied line) :=
  h.firstWhere_not hc

/-- An answer to the question for a victim: a candidate, if there is one, and the first vacant
candidate, if there is one. -/
structure ProperVictim (occupied : LineId → Bool) (candidates : List LineId)
    (choice : Option LineId) : Prop where
  mem : ∀ line, choice = some line → line ∈ candidates
  exists_of_ne_nil : candidates ≠ [] → ∃ line, choice = some line
  vacant_first : ∀ line, candidates.find? (fun line => !occupied line) = some line →
    choice = some line

theorem ProperVictim.of_vacant {occupied : LineId → Bool} {candidates : List LineId}
    {line : LineId} (h : candidates.find? (fun line => !occupied line) = some line) :
    ProperVictim occupied candidates (some line) where
  mem := fun _ hother => Option.some.inj hother ▸ List.mem_of_find?_eq_some h
  exists_of_ne_nil := fun _ => ⟨line, rfl⟩
  vacant_first := fun _ hother => h.symm.trans hother

theorem ProperVictim.of_full {occupied : LineId → Bool} {candidates : List LineId}
    {choice : Option LineId} (h : candidates.find? (fun line => !occupied line) = none)
    (hmem : ∀ line, choice = some line → line ∈ candidates)
    (hsome : candidates ≠ [] → ∃ line, choice = some line) :
    ProperVictim occupied candidates choice where
  mem := hmem
  exists_of_ne_nil := hsome
  vacant_first := fun line hline => by
    rw [h] at hline
    cases hline

theorem ProperVictim.vacant {occupied : LineId → Bool} {candidates : List LineId}
    {line other : LineId} (h : ProperVictim occupied candidates (some line))
    (hother : other ∈ candidates) (hvacant : occupied other = false) : occupied line = false := by
  cases hfirst : candidates.find? fun line => !occupied line with
  | none =>
    have hoccupied := List.find?_eq_none.1 hfirst other hother
    simp [hvacant] at hoccupied
  | some first =>
    obtain rfl := Option.some.inj (h.vacant_first first hfirst)
    simpa using List.find?_some hfirst

/-- What is picked by comparing one element after the other with the best so far is an element. -/
theorem foldl_pick_mem {α : Type} {pick : α → α → α} (hpick : ∀ a b, pick a b = a ∨ pick a b = b)
    (first : α) (rest : List α) : rest.foldl pick first ∈ first :: rest := by
  induction rest generalizing first with
  | nil => simp
  | cons next rest ih =>
    rw [List.foldl_cons]
    rcases List.mem_cons.1 (ih (pick first next)) with heq | hmem
    · rw [heq]
      rcases hpick first next with hfirst | hnext
      · simp [hfirst]
      · simp [hnext]
    · simp [hmem]

namespace PolicyCall

/-- All lines of the call lie in the geometry. -/
def Within (sets ways : Nat) : PolicyCall → Prop
  | .touch line | .fill line _ | .invalidate line => line.Within sets ways
  | .victim candidates => ∀ line ∈ candidates, line.Within sets ways

instance (sets ways : Nat) (call : PolicyCall) : Decidable (call.Within sets ways) := by
  cases call <;> unfold Within <;> infer_instance

end PolicyCall

open ReplacementPolicy

/-- A policy that keeps account of the occupied slots. -/
class LawfulPolicy (σ : Type) [ReplacementPolicy σ] where
  /-- The state fits `sets` sets of `ways` ways, agrees on which slots are occupied, and has been
  told of at most `touches` touches. -/
  Serves (sets ways touches : Nat) (occupied : LineId → Bool) (p : σ) : Prop
  serves_congr {sets ways touches : Nat} {occupied occupied' : LineId → Bool} {p : σ} :
    Serves sets ways touches occupied p →
    (∀ line, line.Within sets ways → occupied line = occupied' line) →
    Serves sets ways touches occupied' p
  touch_spec {sets ways touches : Nat} {occupied : LineId → Bool} {p : σ} {line : LineId} :
    Serves sets ways touches occupied p → line.Within sets ways →
    Delivers (touch p line) (Exhausted (touches + 1)) (Serves sets ways (touches + 1) occupied)
  fill_spec {sets ways touches : Nat} {occupied : LineId → Bool} {p : σ} {line : LineId}
    (tag : UInt64) : Serves sets ways touches occupied p → line.Within sets ways →
    ∃ p', fill p line tag = .ok p' ∧
      Serves sets ways touches (Function.update occupied line true) p'
  invalidate_spec {sets ways touches : Nat} {occupied : LineId → Bool} {p : σ} {line : LineId} :
    Serves sets ways touches occupied p → line.Within sets ways →
    ∃ p', invalidate p line = .ok p' ∧
      Serves sets ways touches (Function.update occupied line false) p'
  victim_spec {sets ways touches : Nat} {occupied : LineId → Bool} {p : σ}
    {candidates : List LineId} : Serves sets ways touches occupied p →
    (∀ line ∈ candidates, line.Within sets ways) →
    ∃ choice p', victim p candidates = .ok (choice, p') ∧ Serves sets ways touches occupied p' ∧
      ProperVictim occupied candidates choice

end Residency
