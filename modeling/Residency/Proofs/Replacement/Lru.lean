import Residency.Proofs.Accepted
import Residency.Proofs.Replacement.Lawful
import Residency.Replacement.Lru

/-!
# The least-recently-used policy, operation by operation

Each set has an order of its ways, always a permutation of them all. A touched or filled way goes to
the front of its order, an invalidated one to the end, and where no candidate of a set is vacant the
way at the end is given up.
-/

namespace Residency

namespace Lru

open ReplacementPolicy

variable {sets ways : Nat} {occupied : LineId → Bool} {p p' : Lru} {line : LineId}
  {candidates : List LineId}

/-- The ways of a set, the most recently used first. -/
def order (p : Lru) (set : Nat) : List Nat :=
  (p.recency[set]?).getD []

/-- The validity bits are the record, and each order is one of all ways. -/
structure Serves (sets ways : Nat) (occupied : LineId → Bool) (p : Lru) : Prop where
  records : p.valid.Records sets ways id occupied
  size_eq : p.recency.size = sets
  perm : ∀ set, set < sets → (p.order set).Perm (List.range ways)

theorem new_serves (h : Lru.new sets ways = .ok p) : Serves sets ways (fun _ => false) p := by
  simp only [Lru.new, accepted_bind_iff, accepted_refuseIf_iff, accepted_pure_iff, exists_const,
    not_not] at h
  obtain ⟨hfits, rfl⟩ := h
  refine ⟨Slots.uniform_records hfits rfl, Array.size_ofFn, fun set hset => ?_⟩
  simp [order, hset]

namespace Serves

theorem mem_order (h : Serves sets ways occupied p) {set way : Nat} (hset : set < sets) :
    way ∈ p.order set ↔ way < ways :=
  (h.perm set hset).mem_iff.trans List.mem_range

theorem nodup_order (h : Serves sets ways occupied p) {set : Nat} (hset : set < sets) :
    (p.order set).Nodup :=
  (h.perm set hset).nodup_iff.2 List.nodup_range

/-- A permutation of one order leaves the others as they are. -/
theorem reorder_spec (h : Serves sets ways occupied p) {set : Nat} (hset : set < sets)
    {f : List Nat → List Nat} (hf : (f (p.order set)).Perm (p.order set)) :
    ∃ p', p.reorder set f = .ok p' ∧ Serves sets ways occupied p' ∧ p'.valid = p.valid ∧
      p'.order = Function.update p.order set (f (p.order set)) := by
  have hlt : set < p.recency.size := h.size_eq ▸ hset
  have horder : (⟨p.recency.modify set f, p.valid⟩ : Lru).order =
      Function.update p.order set (f (p.order set)) := by
    funext s
    rw [Function.update_apply, order, Array.getElem?_modify]
    by_cases hs : s = set
    · subst hs
      simp [order, hlt]
    · simp [order, hs, Ne.symm hs]
  refine ⟨⟨p.recency.modify set f, p.valid⟩, ?_, ⟨h.records, ?_, fun s hs => ?_⟩, rfl, horder⟩
  · rw [reorder, require_eq_ok hlt]
    rfl
  · rw [Array.size_modify, h.size_eq]
  · rw [horder, Function.update_apply]
    split
    · exact hf.trans (h.perm set hset)
    · exact h.perm s hs

theorem touch_spec (h : Serves sets ways occupied p) (hl : line.Within sets ways) :
    ∃ p', touch p line = .ok p' ∧ Serves sets ways occupied p' ∧ p'.valid = p.valid ∧
      p'.order = Function.update p.order line.set
        (line.way :: (p.order line.set).erase line.way) :=
  h.reorder_spec hl.1 (List.perm_cons_erase ((h.mem_order hl.1).2 hl.2)).symm

theorem fill_spec (h : Serves sets ways occupied p) (hl : line.Within sets ways) (tag : UInt64) :
    ∃ p', fill p line tag = .ok p' ∧
      Serves sets ways (Function.update occupied line true) p' ∧
      p'.order = Function.update p.order line.set
        (line.way :: (p.order line.set).erase line.way) := by
  obtain ⟨valid, hset⟩ := h.records.shaped.exists_set hl true
  have h' : Serves sets ways (Function.update occupied line true) { p with valid } :=
    ⟨h.records.set hl hset, h.size_eq, h.perm⟩
  obtain ⟨p', hp', hserves, -, horder⟩ := h'.touch_spec hl
  refine ⟨p', ?_, hserves, horder⟩
  show (do promote { p with valid := ← p.valid.set line true } line) = _
  rw [hset]
  exact hp'

theorem invalidate_spec (h : Serves sets ways occupied p) (hl : line.Within sets ways) :
    ∃ p', invalidate p line = .ok p' ∧
      Serves sets ways (Function.update occupied line false) p' ∧
      p'.order = Function.update p.order line.set
        ((p.order line.set).erase line.way ++ [line.way]) := by
  obtain ⟨valid, hset⟩ := h.records.shaped.exists_set hl false
  have h' : Serves sets ways (Function.update occupied line false) { p with valid } :=
    ⟨h.records.set hl hset, h.size_eq, h.perm⟩
  have hmem := (h.mem_order hl.1).2 hl.2
  obtain ⟨p', hp', hserves, -, horder⟩ := h'.reorder_spec hl.1
    (f := fun order => order.erase line.way ++ [line.way])
    (List.perm_append_comm.trans (List.perm_cons_erase hmem).symm)
  refine ⟨p', ?_, hserves, horder⟩
  show (do demote { p with valid := ← p.valid.set line false } line) = _
  rw [hset]
  exact hp'

theorem depth_eq (h : Serves sets ways occupied p) (hl : line.Within sets ways) :
    p.depth line = .ok ((p.order line.set).idxOf line.way) := by
  have hlt : line.set < p.recency.size := h.size_eq ▸ hl.1
  have hmem := (h.mem_order hl.1).2 hl.2
  rw [order, Array.getElem?_eq_getElem hlt, Option.getD_some] at hmem ⊢
  rw [depth, Array.getElem?_eq_getElem hlt, List.idxOf_eq_getD_idxOf?]
  cases hfound : p.recency[line.set].idxOf? line.way with
  | none => exact absurd hmem (List.idxOf?_eq_none_iff.1 hfound)
  | some depth => simp only [hfound, Option.getD_some, pure_eq_ok]

theorem depths_eq (h : Serves sets ways occupied p)
    (hc : ∀ line ∈ candidates, line.Within sets ways) :
    candidates.mapM (fun line => return (line, ← p.depth line)) =
      .ok (candidates.map fun line => (line, (p.order line.set).idxOf line.way)) := by
  have hstep : ∀ line ∈ candidates, ∃ x, (do return (line, ← p.depth line) : Checked _) = .ok x ∧
      (line, (p.order line.set).idxOf line.way) = x := fun line hl =>
    ⟨_, by rw [h.depth_eq (hc line hl), ok_bind, pure_eq_ok], rfl⟩
  obtain ⟨depths, hdepths, hlines⟩ := mapM_eq_ok hstep
  rw [← List.forall₂_map_left_iff, List.forall₂_eq_eq_eq] at hlines
  exact hlines ▸ hdepths

end Serves

/-- The deepest candidate is one of them, and no other lies deeper. -/
theorem deepest_spec {depths : List (LineId × Nat)} {best : LineId × Nat}
    (h : deepest depths = some best) : best ∈ depths ∧ ∀ x ∈ depths, x.2 ≤ best.2 := by
  cases depths with
  | nil => cases h
  | cons first rest =>
    obtain rfl := Option.some.inj h
    refine ⟨foldl_pick_mem (fun best next => ?_) first rest, ?_⟩
    · split
      · exact .inr rfl
      · exact .inl rfl
    · clear h
      -- The best so far only gets deeper on the way.
      induction rest generalizing first with
      | nil => simp
      | cons next rest ih =>
        intro x hx
        have hfirst := ih (if first.2 ≤ next.2 then next else first) _ (List.mem_cons_self ..)
        rcases List.mem_cons.1 hx with rfl | hx
        · refine Nat.le_trans ?_ hfirst
          split <;> omega
        · rcases List.mem_cons.1 hx with rfl | hx
          · refine Nat.le_trans ?_ hfirst
            split <;> omega
          · exact ih _ x (List.mem_cons_of_mem _ hx)

theorem deepest_isSome {depths : List (LineId × Nat)} (h : depths ≠ []) :
    ∃ best, deepest depths = some best := by
  cases depths with
  | nil => exact absurd rfl h
  | cons first rest => exact ⟨_, rfl⟩

namespace Serves

/-- Naming a victim changes nothing. -/
theorem victim_spec (h : Serves sets ways occupied p)
    (hc : ∀ line ∈ candidates, line.Within sets ways) :
    ∃ choice, victim p candidates = .ok (choice, p) ∧ ProperVictim occupied candidates choice := by
  show ∃ choice, p.victim candidates = .ok (choice, p) ∧ _
  rw [Lru.victim, firstVacant_eq h.records hc, ok_bind]
  cases hvacant : candidates.find? fun line => !occupied line with
  | some line => exact ⟨some line, rfl, .of_vacant hvacant⟩
  | none =>
    rw [h.depths_eq hc, ok_bind]
    refine ⟨_, rfl, .of_full hvacant ?_ fun hne => ?_⟩
    · intro line hline
      obtain ⟨best, hbest, rfl⟩ := Option.map_eq_some_iff.1 hline
      obtain ⟨candidate, hcandidate, rfl⟩ := List.mem_map.1 (deepest_spec hbest).1
      exact hcandidate
    · obtain ⟨best, hbest⟩ := deepest_isSome fun hnil => hne (List.map_eq_nil_iff.1 hnil)
      exact ⟨best.1, by rw [hbest]; rfl⟩

/-- Where all candidates are occupied, the one that lies deepest is given up. -/
theorem victim_of_occupied (h : Serves sets ways occupied p)
    (hc : ∀ line ∈ candidates, line.Within sets ways)
    (hfull : ∀ line ∈ candidates, occupied line = true) (hne : candidates ≠ []) :
    ∃ line, line ∈ candidates ∧ victim p candidates = .ok (some line, p) ∧
      ∀ other ∈ candidates,
        (p.order other.set).idxOf other.way ≤ (p.order line.set).idxOf line.way := by
  have hvacant : (candidates.find? fun line => !occupied line) = none := by
    rw [List.find?_eq_none]
    intro line hl
    simp [hfull line hl]
  have hdepths : candidates.map (fun line => (line, (p.order line.set).idxOf line.way)) ≠ [] :=
    fun hnil => hne (List.map_eq_nil_iff.1 hnil)
  obtain ⟨best, hbest⟩ := deepest_isSome hdepths
  obtain ⟨hmem, hdeepest⟩ := deepest_spec hbest
  obtain ⟨line, hline, rfl⟩ := List.mem_map.1 hmem
  refine ⟨line, hline, ?_, fun other hother => hdeepest (other, _) (List.mem_map_of_mem hother)⟩
  show p.victim candidates = _
  rw [Lru.victim, firstVacant_eq h.records hc, hvacant, ok_bind, h.depths_eq hc, ok_bind, hbest]
  rfl

/-- Where all ways of a set are occupied, the one at the end of the order is given up. -/
theorem victim_of_full (h : Serves sets ways occupied p) {set : Nat} (hset : set < sets)
    (hways : 0 < ways) (hfull : ∀ way, way < ways → occupied ⟨set, way⟩ = true) :
    ∃ way, (p.order set).getLast? = some way ∧
      victim p (LineId.ofSet set ways) = .ok (some ⟨set, way⟩, p) := by
  have hlength : (p.order set).length = ways := by
    rw [(h.perm set hset).length_eq, List.length_range]
  have hne : p.order set ≠ [] := List.ne_nil_of_length_pos (hlength ▸ hways)
  have hc : ∀ line ∈ LineId.ofSet set ways, line.Within sets ways := fun line hl =>
    LineId.within_of_mem_ofSet hset hl
  have hoccupied : ∀ line ∈ LineId.ofSet set ways, occupied line = true := by
    rintro ⟨s, way⟩ hl
    obtain ⟨rfl, hway⟩ := LineId.mem_ofSet.1 hl
    exact hfull way hway
  have hsome : LineId.ofSet set ways ≠ [] := by
    simpa [LineId.ofSet] using Nat.pos_iff_ne_zero.1 hways
  obtain ⟨⟨s, way⟩, hfound, hvictim, hdeepest⟩ := h.victim_of_occupied hc hoccupied hsome
  obtain ⟨rfl, hway⟩ : s = set ∧ way < ways := LineId.mem_ofSet.1 hfound
  refine ⟨(p.order s).getLast hne, List.getLast?_eq_some_getLast hne, ?_⟩
  -- The last way lies at depth `ways - 1`, and no other way lies that deep.
  have hlast := hdeepest ⟨s, (p.order s).getLast hne⟩
    (LineId.mem_ofSet.2 ⟨rfl, (h.mem_order hset).1 (List.getLast_mem hne)⟩)
  have hlt := List.idxOf_lt_length_of_mem ((h.mem_order hset).2 hway)
  rw [List.getLast_eq_getElem, (h.nodup_order hset).idxOf_getElem] at hlast
  have hdepth : (p.order s).idxOf way = (p.order s).length - 1 := Nat.le_antisymm (by omega) hlast
  have heq : (p.order s).getLast hne = way := by
    rw [List.getLast_eq_getElem]
    simp only [← hdepth, List.getElem_idxOf]
  rw [hvictim, heq]

end Serves

instance : LawfulPolicy Lru where
  Serves sets ways _ := Serves sets ways
  serves_congr h heq := ⟨h.records.congr heq, h.size_eq, h.perm⟩
  touch_spec h hl := by
    obtain ⟨p', hp', hserves, -⟩ := h.touch_spec hl
    exact .of_eq_ok hp' hserves
  fill_spec tag h hl := by
    obtain ⟨p', hp', hserves, -⟩ := h.fill_spec hl tag
    exact ⟨p', hp', hserves⟩
  invalidate_spec h hl := by
    obtain ⟨p', hp', hserves, -⟩ := h.invalidate_spec hl
    exact ⟨p', hp', hserves⟩
  victim_spec h hc := by
    obtain ⟨choice, hchoice, hproper⟩ := h.victim_spec hc
    exact ⟨choice, _, hchoice, h, hproper⟩

end Lru

end Residency
