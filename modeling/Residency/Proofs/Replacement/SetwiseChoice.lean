import Residency.Proofs.Replacement.Policy
import Residency.Proofs.Replacement.SetwiseHawkeye

/-!
# Which selectable policies decide set by set

The least-recently-used and the oracle-trained policy do. The random policy does not, since every
choice in a full set moves the one generator on.
-/

namespace Residency

namespace Policy

open ReplacementPolicy SetwisePolicy LawfulPolicy

/-- The two are of one kind, and alike. The random policy decides for all sets by one generator, so
no two of its states are. -/
inductive Alike (set ways : Nat) (occupied : Nat → Bool) : Policy → Policy → Prop
  | lru {p q : Lru} (halike : SetwisePolicy.Alike set ways occupied p q) :
      Alike set ways occupied (.lru p) (.lru q)
  | hawkeye {p q : Hawkeye} (halike : SetwisePolicy.Alike set ways occupied p q) :
      Alike set ways occupied (.hawkeye p) (.hawkeye q)

section

variable {σ : Type} [ReplacementPolicy σ] {p' : Policy} {q : σ} {call : PolicyCall}
  {answer : Option LineId}

/-- What the selected policy answers, the policy behind it has answered. -/
theorem perform_select {select : σ → Policy}
    (htouch : ∀ q line, touch (select q) line = (touch q line).map select)
    (hfill : ∀ q line tag, fill (select q) line tag = (fill q line tag).map select)
    (hinvalidate : ∀ q line, invalidate (select q) line = (invalidate q line).map select)
    (hvictim : ∀ q candidates, victim (select q) candidates =
      (victim q candidates).map fun (line, q') => (line, select q'))
    (h : perform (select q) call = .ok (answer, p')) :
    ∃ q', perform q call = .ok (answer, q') ∧ p' = select q' := by
  cases call with
  | touch line =>
    obtain ⟨rfl, htold⟩ := perform_touch_iff.1 h
    rw [htouch] at htold
    obtain ⟨q', hq', rfl⟩ := accepted_map_iff.1 htold
    exact ⟨q', perform_touch_iff.2 ⟨rfl, hq'⟩, rfl⟩
  | fill line tag =>
    obtain ⟨rfl, htold⟩ := perform_fill_iff.1 h
    rw [hfill] at htold
    obtain ⟨q', hq', rfl⟩ := accepted_map_iff.1 htold
    exact ⟨q', perform_fill_iff.2 ⟨rfl, hq'⟩, rfl⟩
  | invalidate line =>
    obtain ⟨rfl, htold⟩ := perform_invalidate_iff.1 h
    rw [hinvalidate] at htold
    obtain ⟨q', hq', rfl⟩ := accepted_map_iff.1 htold
    exact ⟨q', perform_invalidate_iff.2 ⟨rfl, hq'⟩, rfl⟩
  | victim candidates =>
    rw [perform, hvictim] at h
    obtain ⟨⟨line, q'⟩, hq', heq⟩ := accepted_map_iff.1 h
    obtain ⟨rfl, rfl⟩ := Prod.mk.inj heq
    exact ⟨q', hq', rfl⟩

theorem perform_lru {q : Lru} (h : perform (Policy.lru q) call = .ok (answer, p')) :
    ∃ q', perform q call = .ok (answer, q') ∧ p' = .lru q' :=
  perform_select (fun _ _ => rfl) (fun _ _ _ => rfl) (fun _ _ => rfl) (fun _ _ => rfl) h

theorem perform_hawkeye {q : Hawkeye} (h : perform (Policy.hawkeye q) call = .ok (answer, p')) :
    ∃ q', perform q call = .ok (answer, q') ∧ p' = .hawkeye q' :=
  perform_select (fun _ _ => rfl) (fun _ _ _ => rfl) (fun _ _ => rfl) (fun _ _ => rfl) h

end

instance : SetwisePolicy Policy where
  Alike := Alike
  alike_symm h := by
    cases h with
    | lru halike => exact .lru (alike_symm halike)
    | hawkeye halike => exact .hawkeye (alike_symm halike)
  alike_vacant h := by
    cases h with
    | lru halike => exact .lru (alike_vacant halike)
    | hawkeye halike => exact .hawkeye (alike_vacant halike)
  perform_alike {sets _ ways touches touches' occupied occupied' _ _ _ _ _ _ _}
      h h' hset hways hcall htouch hagree hp hq halike := by
    cases halike with
    | @lru p q halike =>
      obtain ⟨p', htold, rfl⟩ := perform_lru hp
      obtain ⟨q', htold', rfl⟩ := perform_lru hq
      have hserves : LawfulPolicy.Serves sets ways touches occupied p := h
      have hserves' : LawfulPolicy.Serves sets ways touches' occupied' q := h'
      obtain ⟨hanswer, hkept⟩ := perform_alike hserves hserves' hset hways hcall htouch hagree
        htold htold' halike
      exact ⟨hanswer, .lru hkept⟩
    | hawkeye halike =>
      obtain ⟨p', htold, rfl⟩ := perform_hawkeye hp
      obtain ⟨q', htold', rfl⟩ := perform_hawkeye hq
      obtain ⟨hanswer, hkept⟩ := perform_alike (σ := Hawkeye) h h' hset hways hcall htouch hagree
        htold htold' halike
      exact ⟨hanswer, .hawkeye hkept⟩
  perform_other {sets _ _ ways touches record _ _ _ _ _ _} h hset hother hne hcall hp halike := by
    cases halike with
    | @lru p q halike =>
      obtain ⟨p', htold, rfl⟩ := perform_lru hp
      have hserves : LawfulPolicy.Serves sets ways touches record p := h
      exact .lru (perform_other hserves hset hother hne hcall htold halike)
    | hawkeye halike =>
      obtain ⟨p', htold, rfl⟩ := perform_hawkeye hp
      exact .hawkeye (perform_other (σ := Hawkeye) h hset hother hne hcall htold halike)
  perform_vacant {sets _ ways touches record _ _ _ _ _} h hset hcall hp halike := by
    cases halike with
    | @lru p q halike =>
      obtain ⟨p', htold, rfl⟩ := perform_lru hp
      have hserves : LawfulPolicy.Serves sets ways touches record p := h
      exact .lru (perform_vacant hserves hset hcall htold halike)
    | hawkeye halike =>
      obtain ⟨p', htold, rfl⟩ := perform_hawkeye hp
      exact .hawkeye (perform_vacant (σ := Hawkeye) h hset hcall htold halike)

theorem new_alike {kind : PolicyKind} {settings : HawkeyeSettings} {sets set ways : Nat}
    {p : Policy} (h : Policy.new kind sets ways settings = .ok p) (hkind : kind ≠ .random)
    (hset : set < sets) : SetwisePolicy.Alike set ways (fun _ => false) p p := by
  cases kind with
  | lru =>
    obtain ⟨q, -, rfl⟩ := accepted_map_iff.1 h
    have halike : Lru.Alike set (fun _ => false) q q := rfl
    exact Policy.Alike.lru halike
  | random => exact absurd rfl hkind
  | hawkeye =>
    obtain ⟨q, hq, rfl⟩ := accepted_map_iff.1 h
    exact Policy.Alike.hawkeye (Hawkeye.new_alike hq hset)

end Policy

end Residency
