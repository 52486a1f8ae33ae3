import Residency.Proofs.Replacement.Hawkeye
import Residency.Proofs.Replacement.Lru
import Residency.Proofs.Replacement.Random
import Residency.Replacement.Choice

/-!
# Every selectable policy is lawful
-/

namespace Residency

namespace Policy

variable {sets ways touches : Nat} {occupied : LineId → Bool} {p : Policy}

/-- The selected policy keeps account of the occupied slots. -/
def Serves (sets ways touches : Nat) (occupied : LineId → Bool) : Policy → Prop
  | .lru p => LawfulPolicy.Serves sets ways touches occupied p
  | .random p => LawfulPolicy.Serves sets ways touches occupied p
  | .hawkeye p => LawfulPolicy.Serves sets ways touches occupied p

/-- What a policy answers, the selected one answers. -/
theorem exists_map {σ : Type} {select : σ → Policy} {x : Checked σ} {post : Policy → Prop}
    (h : ∃ p', x = .ok p' ∧ post (select p')) : ∃ p', x.map select = .ok p' ∧ post p' := by
  obtain ⟨p', rfl, hpost⟩ := h
  exact ⟨select p', rfl, hpost⟩

theorem exists_victim_map {σ : Type} {select : σ → Policy} {x : Checked (Option LineId × σ)}
    {post : Option LineId → Policy → Prop}
    (h : ∃ choice p', x = .ok (choice, p') ∧ post choice (select p')) :
    ∃ choice p', x.map (fun (line, p) => (line, select p)) = .ok (choice, p') ∧
      post choice p' := by
  obtain ⟨choice, p', rfl, hpost⟩ := h
  exact ⟨choice, select p', rfl, hpost⟩

open LawfulPolicy

instance : LawfulPolicy Policy where
  Serves := Policy.Serves
  serves_congr {_ _ _ _ _ p} h heq := by
    cases p with
    | lru p => exact serves_congr (σ := Lru) h heq
    | random p => exact serves_congr (σ := RandomChoice) h heq
    | hawkeye p => exact serves_congr (σ := Hawkeye) h heq
  touch_spec {_ _ _ _ p _} h hl := by
    cases p with
    | lru p => exact .map (touch_spec (σ := Lru) h hl)
    | random p => exact .map (touch_spec (σ := RandomChoice) h hl)
    | hawkeye p => exact .map (touch_spec (σ := Hawkeye) h hl)
  fill_spec {_ _ _ _ p _} tag h hl := by
    cases p with
    | lru p => exact exists_map (fill_spec (σ := Lru) tag h hl)
    | random p => exact exists_map (fill_spec (σ := RandomChoice) tag h hl)
    | hawkeye p => exact exists_map (fill_spec (σ := Hawkeye) tag h hl)
  invalidate_spec {_ _ _ _ p _} h hl := by
    cases p with
    | lru p => exact exists_map (invalidate_spec (σ := Lru) h hl)
    | random p => exact exists_map (invalidate_spec (σ := RandomChoice) h hl)
    | hawkeye p => exact exists_map (invalidate_spec (σ := Hawkeye) h hl)
  victim_spec {_ _ _ _ p _} h hc := by
    cases p with
    | lru p => exact exists_victim_map (victim_spec (σ := Lru) h hc)
    | random p => exact exists_victim_map (victim_spec (σ := RandomChoice) h hc)
    | hawkeye p => exact exists_victim_map (victim_spec (σ := Hawkeye) h hc)

theorem new_serves {kind : PolicyKind} {settings : HawkeyeSettings}
    (h : Policy.new kind sets ways settings = .ok p) :
    LawfulPolicy.Serves sets ways 0 (fun _ => false) p := by
  cases kind with
  | lru =>
    obtain ⟨q, hq, rfl⟩ := accepted_map_iff.1 h
    exact Lru.new_serves hq
  | random =>
    obtain ⟨q, hq, rfl⟩ := accepted_map_iff.1 h
    exact RandomChoice.new_records hq
  | hawkeye =>
    obtain ⟨q, hq, rfl⟩ := accepted_map_iff.1 h
    exact Hawkeye.new_serves hq

end Policy

end Residency
