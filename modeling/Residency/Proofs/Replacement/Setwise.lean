import Residency.Proofs.Replacement.Lru

/-!
# Policies that decide set by set

What a policy says of a set may depend on what it has been told of this set, but not on the others.
Two states of such a policy are alike for a set if they decide alike about it from now on. Calls
about the set keep them alike if both are told, calls about another set if only one of them is.
Where no way of the set is occupied nothing of its past counts any more.
-/

namespace Residency

/-! ## Calls about one set -/

namespace PolicyCall

/-- The call is about a way of the set, or asks for one of its ways. -/
def Concerns (set ways : Nat) : PolicyCall → Prop
  | .touch line | .fill line _ | .invalidate line => line.set = set ∧ line.way < ways
  | .victim candidates => candidates = LineId.ofSet set ways

theorem Concerns.within {set sets ways : Nat} {call : PolicyCall} (h : call.Concerns set ways)
    (hset : set < sets) : call.Within sets ways := by
  cases call with
  | touch line => exact ⟨h.1 ▸ hset, h.2⟩
  | fill line tag => exact ⟨h.1 ▸ hset, h.2⟩
  | invalidate line => exact ⟨h.1 ▸ hset, h.2⟩
  | victim candidates => exact fun line hl => LineId.within_of_mem_ofSet hset (h ▸ hl)

/-- Only an occupied way is touched. -/
def TouchesOccupied (occupied : Nat → Bool) : PolicyCall → Prop
  | .touch line => occupied line.way = true
  | _ => True

/-- The occupied ways of a set after a call about it. -/
def occupy (occupied : Nat → Bool) : PolicyCall → Nat → Bool
  | .fill line _ => Function.update occupied line.way true
  | .invalidate line => Function.update occupied line.way false
  | .touch _ | .victim _ => occupied

end PolicyCall

namespace ReplacementPolicy

variable {σ : Type} [ReplacementPolicy σ] {p p' : σ} {line : LineId} {tag : UInt64}
  {candidates : List LineId} {answer : Option LineId}

theorem perform_touch_iff :
    perform p (.touch line) = .ok (answer, p') ↔ answer = none ∧ touch p line = .ok p' := by
  rw [perform]
  cases touch p line <;> simp [bind, Except.bind, eq_comm]

theorem perform_fill_iff :
    perform p (.fill line tag) = .ok (answer, p') ↔ answer = none ∧ fill p line tag = .ok p' := by
  rw [perform]
  cases fill p line tag <;> simp [bind, Except.bind, eq_comm]

theorem perform_invalidate_iff :
    perform p (.invalidate line) = .ok (answer, p') ↔
      answer = none ∧ invalidate p line = .ok p' := by
  rw [perform]
  cases invalidate p line <;> simp [bind, Except.bind, eq_comm]

/-- What the policy becomes by some calls about a set. -/
inductive Told (set ways : Nat) (p : σ) : σ → Prop
  | nothing : Told set ways p p
  | further {p' p'' : σ} {call : PolicyCall} {answer : Option LineId} (before : Told set ways p p')
      (concerns : call.Concerns set ways) (performed : perform p' call = .ok (answer, p'')) :
      Told set ways p p''

end ReplacementPolicy

/-! ## The policies -/

open ReplacementPolicy LawfulPolicy

/-- A policy that decides set by set. -/
class SetwisePolicy (σ : Type) [ReplacementPolicy σ] [LawfulPolicy σ] where
  /-- The two states decide alike about a set of which some ways are occupied. -/
  Alike (set ways : Nat) (occupied : Nat → Bool) (p q : σ) : Prop
  alike_symm {set ways : Nat} {occupied : Nat → Bool} {p q : σ} :
    Alike set ways occupied p q → Alike set ways occupied q p
  /-- What is not occupied does not count. -/
  alike_vacant {set ways : Nat} {occupied : Nat → Bool} {p q : σ} :
    Alike set ways occupied p q → Alike set ways (fun _ => false) p q
  /-- A call about the set is answered alike, and keeps the states alike. -/
  perform_alike {sets set ways touches touches' : Nat} {occupied occupied' : LineId → Bool}
    {p p' q q' : σ} {call : PolicyCall} {answer answer' : Option LineId} :
    Serves sets ways touches occupied p → Serves sets ways touches' occupied' q →
    set < sets → 0 < ways → call.Concerns set ways →
    call.TouchesOccupied (fun way => occupied ⟨set, way⟩) →
    (∀ way, way < ways → occupied' ⟨set, way⟩ = occupied ⟨set, way⟩) →
    perform p call = .ok (answer, p') → perform q call = .ok (answer', q') →
    Alike set ways (fun way => occupied ⟨set, way⟩) p q →
    answer' = answer ∧ Alike set ways (call.occupy fun way => occupied ⟨set, way⟩) p' q'
  /-- Calls about another set make no difference. -/
  perform_other {sets set other ways touches : Nat} {record : LineId → Bool}
    {occupied : Nat → Bool} {p p' q : σ} {call : PolicyCall} {answer : Option LineId} :
    Serves sets ways touches record p → set < sets → other < sets → other ≠ set →
    call.Concerns other ways → perform p call = .ok (answer, p') → Alike set ways occupied p q →
    Alike set ways occupied p' q
  /-- Without occupied ways no call makes a difference. -/
  perform_vacant {sets set ways touches : Nat} {record : LineId → Bool} {p p' q : σ}
    {call : PolicyCall} {answer : Option LineId} :
    Serves sets ways touches record p → set < sets → call.Concerns set ways →
    perform p call = .ok (answer, p') → Alike set ways (fun _ => false) p q →
    Alike set ways (fun _ => false) p' q

namespace LawfulPolicy

variable {σ : Type} [ReplacementPolicy σ] [LawfulPolicy σ] {sets set ways touches touches' : Nat}
  {occupied occupied' : LineId → Bool} {p p' q q' : σ} {call : PolicyCall}
  {answer answer' : Option LineId}

/-- Whatever it is told inside the geometry, a policy goes on to keep account. -/
theorem serves_perform (h : Serves sets ways touches occupied p)
    (hcall : call.Within sets ways) (hp : perform p call = .ok (answer, p')) :
    ∃ touches' occupied', Serves sets ways touches' occupied' p' := by
  cases call with
  | touch line => exact ⟨_, _, (touch_spec h hcall).of_ok (perform_touch_iff.1 hp).2⟩
  | fill line tag =>
    obtain ⟨p₁, hp₁, h'⟩ := fill_spec tag h hcall
    obtain rfl := Except.ok.inj (hp₁.symm.trans (perform_fill_iff.1 hp).2)
    exact ⟨_, _, h'⟩
  | invalidate line =>
    obtain ⟨p₁, hp₁, h'⟩ := invalidate_spec h hcall
    obtain rfl := Except.ok.inj (hp₁.symm.trans (perform_invalidate_iff.1 hp).2)
    exact ⟨_, _, h'⟩
  | victim candidates =>
    obtain ⟨choice, p₁, hp₁, h', -⟩ := victim_spec h hcall
    obtain ⟨-, rfl⟩ := Prod.mk.inj (Except.ok.inj (hp₁.symm.trans hp))
    exact ⟨_, _, h'⟩

/-- As long as a way is vacant, the occupied ways alone decide. -/
theorem victim_eq_of_vacancy (h : Serves sets ways touches occupied p)
    (h' : Serves sets ways touches' occupied' q) (hset : set < sets)
    (hagree : ∀ way, way < ways → occupied' ⟨set, way⟩ = occupied ⟨set, way⟩) {way : Nat}
    (hway : way < ways) (hvacant : occupied ⟨set, way⟩ = false)
    (hp : victim p (LineId.ofSet set ways) = .ok (answer, p'))
    (hq : victim q (LineId.ofSet set ways) = .ok (answer', q')) : answer' = answer := by
  have hc : ∀ line ∈ LineId.ofSet set ways, line.Within sets ways := fun line hl =>
    LineId.within_of_mem_ofSet hset hl
  obtain ⟨choice, p₁, hp₁, -, hproper⟩ := victim_spec h hc
  obtain ⟨choice', q₁, hq₁, -, hproper'⟩ := victim_spec h' hc
  obtain ⟨rfl, -⟩ := Prod.mk.inj (Except.ok.inj (hp₁.symm.trans hp))
  obtain ⟨rfl, -⟩ := Prod.mk.inj (Except.ok.inj (hq₁.symm.trans hq))
  have hsame : (LineId.ofSet set ways).find? (fun line => !occupied' line) =
      (LineId.ofSet set ways).find? fun line => !occupied line := by
    rw [← List.head?_filter, ← List.head?_filter]
    apply congrArg List.head?
    apply List.filter_congr
    rintro ⟨s, w⟩ hl
    obtain ⟨rfl, hw⟩ := LineId.mem_ofSet.1 hl
    rw [hagree w hw]
  cases hfirst : (LineId.ofSet set ways).find? fun line => !occupied line with
  | none =>
    have hnot := List.find?_eq_none.1 hfirst ⟨set, way⟩ (LineId.mem_ofSet.2 ⟨rfl, hway⟩)
    simp [hvacant] at hnot
  | some line =>
    rw [hproper.vacant_first line hfirst, hproper'.vacant_first line (hsame.trans hfirst)]

end LawfulPolicy

namespace ReplacementPolicy

open SetwisePolicy

variable {σ : Type} [ReplacementPolicy σ] [LawfulPolicy σ] {sets set other ways touches : Nat}
  {record : LineId → Bool} {occupied : Nat → Bool} {p p' q : σ}

theorem Told.serves (h : Told set ways p p') (hset : set < sets)
    (hp : Serves sets ways touches record p) :
    ∃ touches' record', Serves sets ways touches' record' p' := by
  induction h with
  | nothing => exact ⟨_, _, hp⟩
  | further _ concerns performed ih =>
    obtain ⟨_, _, hp'⟩ := ih
    exact serves_perform hp' (concerns.within hset) performed

variable [SetwisePolicy σ]

theorem Told.alike_other (h : Told other ways p p') (hp : Serves sets ways touches record p)
    (hset : set < sets) (hother : other < sets) (hne : other ≠ set)
    (halike : Alike set ways occupied p q) :
    Alike set ways occupied p' q := by
  induction h with
  | nothing => exact halike
  | further before concerns performed ih =>
    obtain ⟨_, _, hp'⟩ := before.serves hother hp
    exact perform_other hp' hset hother hne concerns performed ih

theorem Told.alike_vacant (h : Told other ways p p') (hp : Serves sets ways touches record p)
    (hset : set < sets) (hother : other < sets) (halike : Alike set ways (fun _ => false) p q) :
    Alike set ways (fun _ => false) p' q := by
  by_cases hne : other = set
  · subst hne
    induction h with
    | nothing => exact halike
    | further before concerns performed ih =>
      obtain ⟨_, _, hp'⟩ := before.serves hother hp
      exact perform_vacant hp' hother concerns performed ih
  · exact h.alike_other hp hset hother hne halike

end ReplacementPolicy

/-! ## Least recently used -/

namespace PolicyCall

/-- What a call does to the order of a set. -/
def reorder (order : List Nat) : PolicyCall → List Nat
  | .touch line | .fill line _ => line.way :: order.erase line.way
  | .invalidate line => order.erase line.way ++ [line.way]
  | .victim _ => order

/-- What a call does to the occupied ways of a set, in their order. -/
def reuse (order : List Nat) : PolicyCall → List Nat
  | .touch line | .fill line _ => line.way :: order.erase line.way
  | .invalidate line => order.erase line.way
  | .victim _ => order

/-- A way that is left out takes no part in what is occupied. -/
theorem filter_erase_update {order : List Nat} (hn : order.Nodup) (occupied : Nat → Bool)
    (way : Nat) (now : Bool) :
    (order.erase way).filter (Function.update occupied way now) =
      (order.filter occupied).erase way := by
  rw [List.erase_filter]
  apply List.filter_congr
  intro other hother
  have hne : other ≠ way := by
    rintro rfl
    exact hn.not_mem_erase hother
  rw [Function.update_of_ne hne]

/-- The vacant ways do not matter for the order of the occupied ones. -/
theorem filter_reorder {order : List Nat} (hn : order.Nodup) {occupied : Nat → Bool}
    {call : PolicyCall} (htouch : call.TouchesOccupied occupied) :
    (call.reorder order).filter (call.occupy occupied) = call.reuse (order.filter occupied) := by
  cases call with
  | touch line =>
    have hoccupied : occupied line.way = true := htouch
    have hsame := filter_erase_update hn occupied line.way (occupied line.way)
    rw [Function.update_eq_self] at hsame
    simp only [reorder, occupy, reuse, List.filter_cons_of_pos hoccupied, hsame]
  | fill line tag =>
    have hoccupied : Function.update occupied line.way true line.way = true := by simp
    simp only [reorder, occupy, reuse, List.filter_cons_of_pos hoccupied,
      filter_erase_update hn]
  | invalidate line => simp [reorder, occupy, reuse, filter_erase_update hn]
  | victim candidates => rfl

end PolicyCall

namespace Lru

variable {sets set ways : Nat} {record : LineId → Bool} {p p' : Lru} {call : PolicyCall}
  {answer : Option LineId}

/-- A call about a set changes the order of this set only. -/
theorem Serves.perform_order (h : Serves sets ways record p) (hset : set < sets)
    (hcall : call.Concerns set ways) (hp : perform p call = .ok (answer, p')) :
    p'.order = Function.update p.order set (call.reorder (p.order set)) := by
  cases call with
  | touch line =>
    obtain ⟨rfl, hway⟩ := hcall
    obtain ⟨p₁, hp₁, -, -, horder⟩ := h.touch_spec ⟨hset, hway⟩
    obtain rfl := Except.ok.inj (hp₁.symm.trans (perform_touch_iff.1 hp).2)
    exact horder
  | fill line tag =>
    obtain ⟨rfl, hway⟩ := hcall
    obtain ⟨p₁, hp₁, -, horder⟩ := h.fill_spec ⟨hset, hway⟩ tag
    obtain rfl := Except.ok.inj (hp₁.symm.trans (perform_fill_iff.1 hp).2)
    exact horder
  | invalidate line =>
    obtain ⟨rfl, hway⟩ := hcall
    obtain ⟨p₁, hp₁, -, horder⟩ := h.invalidate_spec ⟨hset, hway⟩
    obtain rfl := Except.ok.inj (hp₁.symm.trans (perform_invalidate_iff.1 hp).2)
    exact horder
  | victim candidates =>
    have hc : ∀ line ∈ candidates, line.Within sets ways := fun line hl =>
      LineId.within_of_mem_ofSet hset (hcall ▸ hl)
    obtain ⟨choice, hp₁, -⟩ := h.victim_spec hc
    obtain ⟨-, rfl⟩ := Prod.mk.inj (Except.ok.inj (hp₁.symm.trans hp))
    exact (Function.update_eq_self set p.order).symm

/-- The occupied ways stand in the same order. -/
def Alike (set : Nat) (occupied : Nat → Bool) (p q : Lru) : Prop :=
  (q.order set).filter occupied = (p.order set).filter occupied

/-- In a full set the last way of the order is given up. -/
theorem Serves.victim_alike {record' : LineId → Bool} {q q' : Lru} {answer' : Option LineId}
    (h : Serves sets ways record p) (h' : Serves sets ways record' q) (hset : set < sets)
    (hways : 0 < ways)
    (hagree : ∀ way, way < ways → record' ⟨set, way⟩ = record ⟨set, way⟩)
    (hp : victim p (LineId.ofSet set ways) = .ok (answer, p'))
    (hq : victim q (LineId.ofSet set ways) = .ok (answer', q'))
    (halike : Alike set (fun way => record ⟨set, way⟩) p q) : answer' = answer := by
  by_cases hfull : ∀ way, way < ways → record ⟨set, way⟩ = true
  · have hself : ∀ (r : Lru), (∀ way, way ∈ r.order set → way < ways) →
        (r.order set).filter (fun way => record ⟨set, way⟩) = r.order set := by
      intro r hr
      apply List.filter_eq_self.2
      intro way hway
      exact hfull way (hr way hway)
    rw [Alike, hself p fun way => (h.mem_order hset).1,
      hself q fun way => (h'.mem_order hset).1] at halike
    obtain ⟨last, hlast, hnamed⟩ := h.victim_of_full hset hways hfull
    obtain ⟨last', hlast', hnamed'⟩ := h'.victim_of_full hset hways fun way hway =>
      (hagree way hway).trans (hfull way hway)
    rw [halike, hlast] at hlast'
    obtain rfl := Option.some.inj hlast'
    obtain ⟨rfl, -⟩ := Prod.mk.inj (Except.ok.inj (hnamed.symm.trans hp))
    obtain ⟨rfl, -⟩ := Prod.mk.inj (Except.ok.inj (hnamed'.symm.trans hq))
    rfl
  · simp only [not_forall, Bool.not_eq_true] at hfull
    obtain ⟨way, hway, hvacant⟩ := hfull
    have hserves : LawfulPolicy.Serves sets ways 0 record p := h
    have hserves' : LawfulPolicy.Serves sets ways 0 record' q := h'
    exact victim_eq_of_vacancy hserves hserves' hset hagree hway hvacant hp hq

instance : SetwisePolicy Lru where
  Alike set _ := Alike set
  alike_symm h := h.symm
  alike_vacant _ := by simp [Alike]
  perform_alike {_ set _ _ _ occupied occupied' p p' q q' call answer answer'}
      h h' hset hways hcall htouch hagree hp hq halike := by
    have hanswer : answer' = answer := by
      cases call with
      | touch line => rw [(perform_touch_iff.1 hp).1, (perform_touch_iff.1 hq).1]
      | fill line tag => rw [(perform_fill_iff.1 hp).1, (perform_fill_iff.1 hq).1]
      | invalidate line => rw [(perform_invalidate_iff.1 hp).1, (perform_invalidate_iff.1 hq).1]
      | victim candidates =>
        obtain rfl := hcall
        exact Serves.victim_alike h h' hset hways hagree hp hq halike
    refine ⟨hanswer, ?_⟩
    have horder := Serves.perform_order h hset hcall hp
    have horder' := Serves.perform_order h' hset hcall hq
    rw [Alike, horder, horder', Function.update_self, Function.update_self,
      PolicyCall.filter_reorder (Serves.nodup_order h' hset) htouch,
      PolicyCall.filter_reorder (Serves.nodup_order h hset) htouch, halike]
  perform_other h _ hother hne hcall hp halike := by
    rwa [Alike, Serves.perform_order h hother hcall hp, Function.update_of_ne hne.symm]
  perform_vacant _ _ _ _ _ := by simp [Alike]

end Lru

end Residency
