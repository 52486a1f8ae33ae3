import Residency.Proofs.Replacement.SetwiseChoice

/-!
# The numbers of a replacement policy fit their widths

A re-reference value lies in a counter of at most 32 bits. The ring of an oracle holds occupancies
of 32 bits, and its length and its clock are words. No call to a policy breaks this, so that the
policy never counts past the width of what it counts in.
-/

namespace Residency

/-! ## Counters and slots -/

/-- All values of the counter are numbers of 32 bits. -/
def Counter.Fits (counter : Counter) : Prop :=
  counter.max < UInt32.size

theorem Counter.new_fits {bits initial : Nat} {counter : Counter}
    (h : Counter.new bits initial = .ok counter) : counter.Fits := by
  have hmax := (Counter.new_eq_ok h).2
  obtain ⟨-, hwidth, -⟩ := Counter.new_accepts_iff.1 ⟨counter, h⟩
  have hle : 2 ^ bits ≤ 2 ^ 32 := Nat.pow_le_pow_right (by omega) hwidth
  have hpos := Nat.two_pow_pos bits
  rw [Fits, hmax, UInt32.size]
  omega

namespace Slots

variable {α : Type} {slots changed : Slots α} {line : LineId} {P : α → Prop}

/-- Every cell satisfies `P`. -/
def All (P : α → Prop) (slots : Slots α) : Prop :=
  ∀ cell ∈ slots.cells, P cell

theorem all_uniform {cell : α} (sets ways : Nat) (h : P cell) : (uniform sets ways cell).All P := by
  intro other hother
  rw [(Array.mem_replicate.1 hother).2]
  exact h

namespace All

theorem get {cell : α} (h : slots.All P) (hget : slots.get line = .ok cell) : P cell :=
  h cell (Array.mem_of_getElem? (get_eq_ok_iff.1 hget).2)

theorem set {cell : α} (h : slots.All P) (hcell : P cell)
    (hset : slots.set line cell = .ok changed) : changed.All P := by
  obtain ⟨-, -, rfl⟩ := set_eq_ok_iff.1 hset
  intro other hother
  rcases Array.mem_or_eq_of_mem_setIfInBounds hother with hmem | rfl
  · exact h other hmem
  · exact hcell

theorem modify {f : α → α} (h : slots.All P) (hf : ∀ cell, P cell → P (f cell))
    (hmodify : slots.modify line f = .ok changed) : changed.All P := by
  obtain ⟨cell, hget, hset⟩ := bind_eq_ok_iff.1 hmodify
  exact h.set (hf cell (h.get hget)) hset

end All

end Slots

/-! ## Oracles -/

namespace Oracle

variable {κ : Type}

/-- The ring has a length of 64 bits and occupancies of 32 bits, and the clock has 64 bits. -/
structure Fits (o : Oracle κ) : Prop where
  size : FitsWord o.size
  clock : FitsWord o.clock
  capacity : o.capacity < UInt32.size
  occupancy : ∀ units ∈ o.ring, units ≤ o.capacity

theorem new_fits {ways multiplier : Nat} {o : Oracle κ} (h : Oracle.new ways multiplier = .ok o) :
    o.Fits := by
  rw [Oracle.new] at h
  split_ifs at h with hways hmultiplier hfits
  obtain rfl := Except.ok.inj h
  refine ⟨hfits, Nat.zero_lt_succ _, ?_, fun units hunits => ?_⟩
  · have hlt : UInt32.size - 1 < UInt32.size := by decide
    exact Nat.lt_of_le_of_lt (Nat.min_le_right ..) hlt
  · rw [(Vector.mem_replicate.1 hunits).2]
    exact Nat.zero_le _

theorem mem_set {size : Nat} {ring : Vector Nat size} {slot : Fin size} {units other : Nat}
    (h : other ∈ ring.set slot units slot.isLt) : other = units ∨ other ∈ ring := by
  rcases Vector.mem_or_eq_of_mem_set h with hmem | heq
  · exact .inr hmem
  · exact .inl heq

theorem charge_le {capacity size : Nat} {ring : Vector Nat size} (slot : Fin size)
    (h : ∀ units ∈ ring, units ≤ capacity) :
    ∀ units ∈ charge capacity ring slot, units ≤ capacity := by
  intro units hunits
  rw [charge] at hunits
  split_ifs at hunits with hroom
  · rcases mem_set hunits with rfl | hmem
    · exact hroom
    · exact h units hmem
  · exact h units hunits

theorem foldl_charge_le {capacity size : Nat} {ring : Vector Nat size} (slots : List (Fin size))
    (h : ∀ units ∈ ring, units ≤ capacity) :
    ∀ units ∈ slots.foldl (charge capacity) ring, units ≤ capacity := by
  induction slots generalizing ring with
  | nil => exact h
  | cons slot rest ih => exact ih (charge_le slot h)

variable [DecidableEq κ] {o o' : Oracle κ} {key : κ} {protect : Bool}

theorem Fits.insert (h : o.Fits) (hinsert : o.insert key protect = .ok o') : o'.Fits := by
  obtain ⟨live, -, hinsert⟩ := bind_eq_ok_iff.1 hinsert
  obtain ⟨_, hclock, hinsert⟩ := bind_eq_ok_iff.1 hinsert
  obtain rfl := Except.ok.inj hinsert
  refine ⟨h.size, require_eq_ok_iff.1 hclock, h.capacity, foldl_charge_le _ ?_⟩
  intro units hunits
  rcases mem_set hunits with rfl | hmem
  · exact Nat.zero_le _
  · exact h.occupancy units hmem

theorem Fits.remove (h : o.Fits) (key : κ) : (o.remove key).Fits :=
  ⟨h.size, h.clock, h.capacity, h.occupancy⟩

end Oracle

/-! ## The oracle-trained policy -/

namespace Hawkeye

variable {p p' : Hawkeye} {line : LineId}

/-- The numbers of all lines and all oracles fit. -/
structure Fits (p : Hawkeye) : Prop where
  lines : p.lines.All fun line => line.rrpv.Fits
  oracles : ∀ oracle ∈ p.oracles, oracle.Fits

theorem new_fits {sets ways : Nat} {settings : HawkeyeSettings}
    (h : Hawkeye.new sets ways settings = .ok p) : p.Fits := by
  obtain ⟨rrpv, oracle, -, -, hrrpv, horacle, -, rfl⟩ := new_eq_ok_iff.1 h
  refine ⟨Slots.all_uniform sets ways (Counter.new_fits hrrpv), fun other hother => ?_⟩
  rw [(Array.mem_replicate.1 hother).2]
  exact Oracle.new_fits horacle

namespace Fits

theorem oracle {set : Nat} {oracle : Oracle Nat} (h : p.Fits) (ho : p.oracle set = .ok oracle) :
    oracle.Fits := by
  rw [Hawkeye.oracle] at ho
  split at ho
  · rename_i found hfound
    obtain rfl := Except.ok.inj ho
    exact h.oracles _ (Array.mem_of_getElem? hfound)
  · cases ho

theorem setOracle {oracle : Oracle Nat} (h : p.Fits) (ho : oracle.Fits) (set : Nat) :
    (p.setOracle set oracle).Fits := by
  refine ⟨h.lines, fun other hother => ?_⟩
  rcases Array.mem_or_eq_of_mem_setIfInBounds hother with hmem | rfl
  · exact h.oracles other hmem
  · exact ho

theorem modifyLine {f : HawkeyeLine → HawkeyeLine} (h : p.Fits)
    (hp : p.modifyLine line f = .ok p') (hf : ∀ state, (f state).rrpv.max = state.rrpv.max) :
    p'.Fits := by
  obtain ⟨lines, hlines, hp⟩ := bind_eq_ok_iff.1 hp
  obtain rfl := Except.ok.inj hp
  refine ⟨h.lines.modify (fun state hstate => ?_) hlines, h.oracles⟩
  rw [Counter.Fits, hf state]
  exact hstate

theorem touch (h : p.Fits) (hp : Hawkeye.touch p line = .ok p') : p'.Fits := by
  obtain ⟨_, -, hp⟩ := bind_eq_ok_iff.1 hp
  obtain ⟨oracle, horacle, hp⟩ := bind_eq_ok_iff.1 hp
  obtain ⟨_, -, hp⟩ := bind_eq_ok_iff.1 hp
  obtain ⟨oracle', hinsert, hp⟩ := bind_eq_ok_iff.1 hp
  refine (h.setOracle ((h.oracle horacle).insert hinsert) _).modifyLine hp fun state => ?_
  dsimp only
  split <;> rfl

theorem forget (h : p.Fits) (hp : Hawkeye.forget p line = .ok p') : p'.Fits := by
  obtain ⟨_, -, hp⟩ := bind_eq_ok_iff.1 hp
  obtain ⟨oracle, horacle, hp⟩ := bind_eq_ok_iff.1 hp
  obtain rfl := Except.ok.inj hp
  exact h.setOracle ((h.oracle horacle).remove _) _

theorem fill {tag : UInt64} (h : p.Fits) (hp : Hawkeye.fill p line tag = .ok p') : p'.Fits := by
  obtain ⟨q, hq, hp⟩ := bind_eq_ok_iff.1 hp
  exact (h.forget hq).modifyLine hp fun _ => rfl

theorem invalidate (h : p.Fits) (hp : Hawkeye.invalidate p line = .ok p') : p'.Fits := by
  obtain ⟨q, hq, hp⟩ := bind_eq_ok_iff.1 hp
  exact (h.forget hq).modifyLine hp fun _ => rfl

theorem age {candidates : List LineId} (h : p.Fits) (hp : p.age line candidates = .ok p') :
    p'.Fits := by
  induction candidates generalizing p with
  | nil =>
    obtain rfl := Except.ok.inj hp
    exact h
  | cons candidate rest ih =>
    rw [Hawkeye.age, List.foldlM_cons] at hp
    obtain ⟨q, hq, hp⟩ := bind_eq_ok_iff.1 hp
    split_ifs at hq
    · obtain rfl := Except.ok.inj hq
      exact ih h hp
    · exact ih (h.modifyLine hq fun _ => rfl) hp

theorem victim {candidates : List LineId} {choice : Option LineId} (h : p.Fits)
    (hp : Hawkeye.victim p candidates = .ok (choice, p')) : p'.Fits := by
  obtain ⟨vacant, -, hp⟩ := bind_eq_ok_iff.1 hp
  cases vacant with
  | some line =>
    obtain ⟨-, rfl⟩ := Prod.mk.inj (Except.ok.inj hp)
    exact h
  | none =>
    obtain ⟨states, -, hp⟩ := bind_eq_ok_iff.1 hp
    cases hselect : select states with
    | none =>
      simp only [hselect, pure_eq_ok, Except.ok.injEq, Prod.mk.injEq] at hp
      obtain ⟨-, rfl⟩ := hp
      exact h
    | some line =>
      simp only [hselect, bind_eq_ok_iff, pure_eq_ok, Except.ok.injEq, Prod.mk.injEq] at hp
      obtain ⟨q, hq, -, rfl⟩ := hp
      exact h.age hq

end Fits

end Hawkeye

/-! ## Any policy -/

namespace ReplacementPolicy

/-- No call breaks the property. -/
def Kept {σ : Type} [ReplacementPolicy σ] (P : σ → Prop) : Prop :=
  ∀ {p p' : σ} {call : PolicyCall} {answer : Option LineId}, P p →
    perform p call = .ok (answer, p') → P p'

end ReplacementPolicy

open ReplacementPolicy

theorem Hawkeye.fits_kept : Kept Hawkeye.Fits := by
  intro p p' call answer h hp
  cases call with
  | touch line => exact h.touch (perform_touch_iff.1 hp).2
  | fill line tag => exact h.fill (perform_fill_iff.1 hp).2
  | invalidate line => exact h.invalidate (perform_invalidate_iff.1 hp).2
  | victim candidates => exact h.victim hp

namespace Policy

theorem perform_random {q : RandomChoice} {call : PolicyCall} {answer : Option LineId} {p' : Policy}
    (h : perform (Policy.random q) call = .ok (answer, p')) :
    ∃ q', perform q call = .ok (answer, q') ∧ p' = .random q' :=
  perform_select (fun _ _ => rfl) (fun _ _ _ => rfl) (fun _ _ => rfl) (fun _ _ => rfl) h

/-- The numbers of the policy fit. Only the oracle-trained policy counts. -/
def Fits : Policy → Prop
  | lru _ => True
  | random _ => True
  | hawkeye p => p.Fits

theorem new_fits {kind : PolicyKind} {sets ways : Nat} {settings : HawkeyeSettings} {p : Policy}
    (h : Policy.new kind sets ways settings = .ok p) : p.Fits := by
  cases kind with
  | lru =>
    obtain ⟨q, -, rfl⟩ := accepted_map_iff.1 h
    trivial
  | random =>
    obtain ⟨q, -, rfl⟩ := accepted_map_iff.1 h
    trivial
  | hawkeye =>
    obtain ⟨q, hq, rfl⟩ := accepted_map_iff.1 h
    exact Hawkeye.new_fits hq

theorem fits_kept : Kept Policy.Fits := by
  intro p p' call answer h hp
  cases p with
  | lru q =>
    obtain ⟨q', -, rfl⟩ := perform_lru hp
    trivial
  | random q =>
    obtain ⟨q', -, rfl⟩ := perform_random hp
    trivial
  | hawkeye q =>
    obtain ⟨q', hq', rfl⟩ := perform_hawkeye hp
    exact Hawkeye.fits_kept h hq'

end Policy

end Residency
