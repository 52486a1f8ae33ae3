import Residency.Proofs.Contents.Confined
import Residency.Proofs.Contents.Counters

/-!
# Contents that agree on some sets

Contents are alike on a set if its lines hold the same and the policies decide alike about it. An
operation on the set then comes to the same on both sides, is counted the same, and leaves the
contents alike; an operation on another set may be left out on one side.
-/

namespace Residency

/-- Which of the ways of a set are taken, after the value of one line has changed. -/
theorem isSome_update {β : Type} (held : LineId → Option β) {id : LineId} {set : Nat}
    (hset : id.set = set) (value : Option β) :
    (fun way => (Function.update held id value ⟨set, way⟩).isSome) =
      Function.update (fun way => (held ⟨set, way⟩).isSome) id.way value.isSome := by
  ext way
  rw [Function.update_apply, Function.update_apply]
  by_cases hway : way = id.way
  · subst hset hway
    simp
  · have hne : (⟨set, way⟩ : LineId) ≠ id := by
      rintro rfl
      exact hway rfl
    rw [if_neg hne, if_neg hway]

namespace Contents

open ReplacementPolicy LawfulPolicy

variable {σ : Type} [ReplacementPolicy σ] [LawfulPolicy σ] [SetwisePolicy σ]
  {c c' d d' : Contents σ} {set : Nat} {id id' : LineId} {addr : UInt64}
  {secure hit hit' dropped dropped' : Bool} {evicted evicted' : Option UInt64} {access : Access}

/-- The lines of a set hold the same, and the policies decide alike about it. -/
structure Alike (set : Nat) (c d : Contents σ) : Prop where
  geometry_eq : d.geometry = c.geometry
  held_eq : ∀ way, d.held ⟨set, way⟩ = c.held ⟨set, way⟩
  policy : SetwisePolicy.Alike set c.geometry.ways (fun way => (c.held ⟨set, way⟩).isSome) c.policy
    d.policy

namespace Alike

theorem symm (h : c.Alike set d) : d.Alike set c where
  geometry_eq := h.geometry_eq.symm
  held_eq := fun way => (h.held_eq way).symm
  policy := by
    simp only [h.geometry_eq, h.held_eq]
    exact SetwisePolicy.alike_symm h.policy

/-- Of policies that nothing is known about, and of lines that hold nothing, nothing can be told
apart. -/
theorem of_vacant (hg : d.geometry = c.geometry) (hc : ∀ way, c.held ⟨set, way⟩ = none)
    (hd : ∀ way, d.held ⟨set, way⟩ = none)
    (hp : SetwisePolicy.Alike set c.geometry.ways (fun _ => false) c.policy d.policy) :
    c.Alike set d where
  geometry_eq := hg
  held_eq := fun way => (hd way).trans (hc way).symm
  policy := by
    simp only [hc]
    exact hp

/-- What happens to another set on one side makes no difference. -/
theorem confined (h : c.Alike set d) (hs : c.Sound) (hset : set < c.geometry.sets) {other : Nat}
    (hother : other < c.geometry.sets) (hne : other ≠ set) (hc' : c.Confined other c') :
    c'.Alike set d where
  geometry_eq := h.geometry_eq.trans hc'.geometry_eq.symm
  held_eq := fun way => (h.held_eq way).trans (hc'.held_eq ⟨set, way⟩ hne.symm).symm
  policy := by
    have hheld : ∀ way, c'.held ⟨set, way⟩ = c.held ⟨set, way⟩ := fun way =>
      hc'.held_eq ⟨set, way⟩ hne.symm
    simp only [hheld, hc'.geometry_eq]
    exact hc'.told.alike_other hs.serves hset hother hne h.policy

/-- What a line of the set holds is there on both sides, on the same line. -/
theorem held_iff (h : c.Alike set d) (hc : c.Sound) (hd : d.Sound)
    (hset : c.geometry.setOf addr = set) :
    d.held id = some (d.geometry.blockOf addr, secure) ↔
      c.held id = some (c.geometry.blockOf addr, secure) := by
  obtain ⟨s, way⟩ := id
  constructor
  · intro hheld
    obtain rfl : s = set := by
      rw [← hset, ← h.geometry_eq]
      exact hd.set_eq_of_held hheld
    rwa [h.held_eq, h.geometry_eq] at hheld
  · intro hheld
    obtain rfl : s = set := hset ▸ hc.set_eq_of_held hheld
    rwa [h.held_eq, h.geometry_eq]

theorem absent_iff (h : c.Alike set d) (hc : c.Sound) (hd : d.Sound)
    (hset : c.geometry.setOf addr = set) : d.Absent addr secure ↔ c.Absent addr secure :=
  forall_congr' fun _ => not_congr (h.held_iff hc hd hset)

/-- A search comes to the same. -/
theorem find?_eq (h : c.Alike set d) (hc : c.Sound) (hd : d.Sound)
    (hset : c.geometry.setOf addr = set) : d.find? addr secure = c.find? addr secure := by
  obtain ⟨found, hfound, hspec⟩ := hc.find?_spec addr secure
  obtain ⟨found', hfound', hspec'⟩ := hd.find?_spec addr secure
  have hsame : found' = found := by
    ext id
    exact (hspec' id).trans ((h.held_iff hc hd hset).trans (hspec id).symm)
  rw [hfound, hfound', hsame]

/-- The policies answer a call about the set alike. -/
theorem perform (h : c.Alike set d) (hc : c.Sound) (hd : d.Sound) (hset : set < c.geometry.sets)
    {call : PolicyCall} (hcall : call.Concerns set c.geometry.ways)
    (htouch : call.TouchesOccupied fun way => (c.held ⟨set, way⟩).isSome)
    {answer answer' : Option LineId} {p q : σ} (hp : perform c.policy call = .ok (answer, p))
    (hq : perform d.policy call = .ok (answer', q)) :
    answer' = answer ∧ SetwisePolicy.Alike set c.geometry.ways
      (call.occupy fun way => (c.held ⟨set, way⟩).isSome) p q := by
  have hserves := hd.serves
  rw [h.geometry_eq] at hserves
  exact SetwisePolicy.perform_alike hc.serves hserves hset hc.ways_pos hcall htouch
    (fun way _ => by rw [h.held_eq]) hp hq h.policy

/-- The same line changes on both sides. -/
theorem update (h : c.Alike set d) (hset : id.set = set) {value : Option (UInt64 × Bool)}
    (hg : c'.geometry = c.geometry) (hg' : d'.geometry = d.geometry)
    (hc' : c'.held = Function.update c.held id value)
    (hd' : d'.held = Function.update d.held id value)
    (hp : SetwisePolicy.Alike set c.geometry.ways
      (Function.update (fun way => (c.held ⟨set, way⟩).isSome) id.way value.isSome)
      c'.policy d'.policy) : c'.Alike set d' where
  geometry_eq := by rw [hg', h.geometry_eq, hg]
  held_eq := by
    intro way
    rw [hc', hd', Function.update_apply, Function.update_apply, h.held_eq]
  policy := by
    rw [hc', isSome_update c.held hset, hg]
    exact hp

theorem installed (h : c.Alike set d) (hc : c.Sound) (hd : d.Sound)
    (hset : c.geometry.setOf addr = set) (hc' : c.Installed addr secure id evicted c')
    (hd' : d.Installed addr secure id' evicted' d') : evicted' = evicted ∧ c'.Alike set d' := by
  subst hset
  have hset := c.geometry.setOf_lt addr
  have hg := h.geometry_eq
  obtain ⟨p, hvictim, hfill⟩ := hc'.told
  obtain ⟨q, hvictim', hfill'⟩ := hd'.told
  have hcandidates : d.candidates addr = c.candidates addr := by
    rw [candidates, candidates, hg]
  rw [hcandidates] at hvictim'
  rw [hg] at hfill'
  have hasks : PolicyCall.Concerns (c.geometry.setOf addr) c.geometry.ways
      (.victim (c.candidates addr)) := rfl
  obtain ⟨hanswer, halike⟩ := h.perform hc hd hset hasks trivial hvictim hvictim'
  obtain rfl := Option.some.inj hanswer
  -- Asked for a victim, the policies still keep account, so they can be told of the fill.
  have hwithin : ∀ id ∈ c.candidates addr, id.Within c.geometry.sets c.geometry.ways := fun id =>
    candidates_within
  have hserves' := hd.serves
  rw [hg] at hserves'
  obtain ⟨_, _, hp, hpserves, -⟩ := victim_spec hc.serves hwithin
  obtain ⟨_, _, hq, hqserves, -⟩ := victim_spec hserves' hwithin
  obtain ⟨-, rfl⟩ := Prod.mk.inj (Except.ok.inj (hp.symm.trans hvictim))
  obtain ⟨-, rfl⟩ := Prod.mk.inj (Except.ok.inj (hq.symm.trans hvictim'))
  have hfills : PolicyCall.Concerns (c.geometry.setOf addr) c.geometry.ways
      (.fill id' (c.geometry.tagOf addr)) := ⟨hc'.set_eq, hc'.way_lt⟩
  have hfilled := SetwisePolicy.perform_alike hpserves hqserves hset hc.ways_pos hfills trivial
    (fun way _ => by rw [h.held_eq]) (perform_fill_iff.2 ⟨rfl, hfill⟩)
    (perform_fill_iff.2 ⟨rfl, hfill'⟩) halike
  have hheld : d.held id' = c.held id' := by
    have hid := h.held_eq id'.way
    rwa [← hc'.set_eq] at hid
  refine ⟨by rw [hc'.evicted_eq, hd'.evicted_eq, hheld], ?_⟩
  refine h.update hc'.set_eq hc'.geometry_eq hd'.geometry_eq hc'.held_eq ?_ hfilled.2
  rw [hd'.held_eq, hg]

theorem served (h : c.Alike set d) (hc : c.Sound) (hd : d.Sound)
    (hset : c.geometry.setOf access.addr = set) (hc' : c.Served access hit evicted c')
    (hd' : d.Served access hit' evicted' d') :
    hit' = hit ∧ evicted' = evicted ∧ c'.Alike set d' := by
  cases hc' with
  | hit id held told geometry_eq held_eq =>
    cases hd' with
    | hit id' held' told' geometry_eq' held_eq' =>
      obtain rfl := hd.unique _ _ _ held' ((h.held_iff hc hd hset).2 held)
      have hid := hc.set_eq_of_held held
      rw [hset] at hid
      have hlt : set < c.geometry.sets := hset ▸ c.geometry.setOf_lt _
      have hoccupied : (c.held ⟨set, id'.way⟩).isSome = true := by
        rw [← hid, held]
        rfl
      have htouches : PolicyCall.Concerns set c.geometry.ways (.touch id') :=
        ⟨hid, (within_of_held held).2⟩
      obtain ⟨-, htouched⟩ := h.perform hc hd hlt htouches hoccupied
        (perform_touch_iff.2 ⟨rfl, told⟩) (perform_touch_iff.2 ⟨rfl, told'⟩)
      refine ⟨rfl, rfl, ?_, ?_, ?_⟩
      · rw [geometry_eq', h.geometry_eq, geometry_eq]
      · intro way
        rw [held_eq', held_eq, h.held_eq]
      · rw [held_eq, geometry_eq]
        exact htouched
    | miss absent' installed' => exact absurd held ((h.absent_iff hc hd hset).1 absent' id)
  | miss absent installed =>
    cases hd' with
    | hit id' held' told' geometry_eq' held_eq' =>
      exact absurd held' ((h.absent_iff hc hd hset).2 absent id')
    | miss absent' installed' =>
      exact ⟨rfl, h.installed hc hd hset installed installed'⟩

/-- A request to drop a block comes to the same. -/
theorem vacated (h : c.Alike set d) (hc : c.Sound) (hd : d.Sound)
    (hset : c.geometry.setOf addr = set) (hc' : c.Vacated addr secure dropped c')
    (hd' : d.Vacated addr secure dropped' d') : dropped' = dropped ∧ c'.Alike set d' := by
  cases hc' with
  | found id held dropped =>
    cases hd' with
    | found id' held' dropped' =>
      obtain rfl := hd.unique _ _ _ held' ((h.held_iff hc hd hset).2 held)
      have hid := hc.set_eq_of_held held
      rw [hset] at hid
      have hlt : set < c.geometry.sets := hset ▸ c.geometry.setOf_lt _
      have hdrops : PolicyCall.Concerns set c.geometry.ways (.invalidate id') :=
        ⟨hid, (within_of_held held).2⟩
      obtain ⟨-, htold⟩ := h.perform hc hd hlt hdrops trivial
        (perform_invalidate_iff.2 ⟨rfl, dropped.told⟩)
        (perform_invalidate_iff.2 ⟨rfl, dropped'.told⟩)
      exact ⟨rfl, h.update hid dropped.geometry_eq dropped'.geometry_eq dropped.held_eq
        dropped'.held_eq htold⟩
    | missing absent' s' => exact absurd held ((h.absent_iff hc hd hset).1 absent' id)
  | missing absent s =>
    cases hd' with
    | found id' held' dropped' => exact absurd held' ((h.absent_iff hc hd hset).2 absent id')
    | missing absent' s' => exact ⟨rfl, h.geometry_eq, h.held_eq, h.policy⟩

end Alike

end Contents

end Residency
