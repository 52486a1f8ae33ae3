import Residency.Proofs.Contents.Accounted
import Residency.Proofs.Replacement.Setwise

/-!
# Operations are confined to one set

An access, a request to drop a block and a prefetch change lines of the set of the address only, and
tell the policy of no others.
-/

namespace Residency

namespace Contents

open ReplacementPolicy LawfulPolicy

variable {σ : Type} [ReplacementPolicy σ] {c c' c'' : Contents σ} {set : Nat} {id : LineId}
  {addr : UInt64} {secure hit dropped : Bool} {evicted : Option UInt64} {access : Access}

/-- Only lines of one set have changed, and the policy has been told of no others. -/
structure Confined (set : Nat) (c c' : Contents σ) : Prop where
  geometry_eq : c'.geometry = c.geometry
  held_eq : ∀ id, id.set ≠ set → c'.held id = c.held id
  told : Told set c.geometry.ways c.policy c'.policy

namespace Confined

theorem refl (set : Nat) (c : Contents σ) : c.Confined set c :=
  ⟨rfl, fun _ _ => rfl, .nothing⟩

theorem withStatistics (h : c.Confined set c') (s : Statistics) :
    c.Confined set { c' with statistics := s } :=
  ⟨h.geometry_eq, h.held_eq, h.told⟩

/-- One call about a line of the set, after which only this line may hold something else. -/
theorem of_update {call : PolicyCall} {answer : Option LineId}
    {value : Option (UInt64 × Bool)} (hg : c'.geometry = c.geometry) (hset : id.set = set)
    (hheld : c'.held = Function.update c.held id value)
    (hcall : call.Concerns set c.geometry.ways) {p : σ} (hp : Told set c.geometry.ways c.policy p)
    (told : perform p call = .ok (answer, c'.policy)) : c.Confined set c' where
  geometry_eq := hg
  held_eq := by
    intro other hother
    have hne : other ≠ id := by
      rintro rfl
      exact hother hset
    rw [hheld, Function.update_of_ne hne]
  told := hp.further hcall told

end Confined

theorem Installed.confined (h : c.Installed addr secure id evicted c') :
    c.Confined (c.geometry.setOf addr) c' := by
  obtain ⟨p, hvictim, hfill⟩ := h.told
  have hasked : Told (c.geometry.setOf addr) c.geometry.ways c.policy p :=
    Told.nothing.further (show PolicyCall.Concerns _ _ (.victim (c.candidates addr)) from rfl)
      hvictim
  have hconcerns : PolicyCall.Concerns (c.geometry.setOf addr) c.geometry.ways
      (.fill id (c.geometry.tagOf addr)) := ⟨h.set_eq, h.way_lt⟩
  exact .of_update h.geometry_eq h.set_eq h.held_eq hconcerns hasked
    (perform_fill_iff.2 ⟨rfl, hfill⟩)

theorem Dropped.confined (h : c.Dropped id c') (hl : id.Within c.geometry.sets c.geometry.ways) :
    c.Confined id.set c' := by
  have hconcerns : PolicyCall.Concerns id.set c.geometry.ways (.invalidate id) := ⟨rfl, hl.2⟩
  exact .of_update h.geometry_eq rfl h.held_eq hconcerns .nothing
    (perform_invalidate_iff.2 ⟨rfl, h.told⟩)

theorem Prefetched.confined {target : UInt64} (h : c.Prefetched target secure c') :
    c.Confined (c.geometry.setOf target) c' := by
  cases h with
  | present id held => exact .refl _ c
  | filled absent installed => exact installed.confined

variable [LawfulPolicy σ]

theorem Served.confined (hs : c.Sound) (h : c.Served access hit evicted c') :
    c.Confined (c.geometry.setOf access.addr) c' := by
  cases h with
  | hit id held told geometry_eq held_eq =>
    have hset := hs.set_eq_of_held held
    have hconcerns : PolicyCall.Concerns (c.geometry.setOf access.addr) c.geometry.ways
        (.touch id) := ⟨hset, (within_of_held held).2⟩
    have hheld : c'.held = Function.update c.held id (c.held id) := by
      rw [held_eq, Function.update_eq_self]
    exact .of_update geometry_eq hset hheld hconcerns .nothing (perform_touch_iff.2 ⟨rfl, told⟩)
  | miss absent installed => exact installed.confined

theorem Vacated.confined (hs : c.Sound) (h : c.Vacated addr secure dropped c') :
    c.Confined (c.geometry.setOf addr) c' := by
  cases h with
  | found id held dropped =>
    rw [← hs.set_eq_of_held held]
    exact dropped.confined (within_of_held held)
  | missing absent s => exact (Confined.refl _ c).withStatistics s

end Contents

end Residency
