import Residency.Proofs.Delivers
import Residency.Proofs.Oracle.Chronicle

/-!
# The oracle against its chronicle

The oracle keeps one bounded counter for each of the last `size` times, at the position that the
time has in a ring. `Tracks` says what it has thereby kept of the chronicle of the same calls: the
counter of a time that the ring still covers is the load of that time, cut off at the capacity.

Every call preserves `Tracks`, and so does every run. `Reflects` is what follows for a user of the
oracle: all that it answers is a function of the chronicle.
-/

namespace Residency

namespace Oracle

variable {κ : Type} [DecidableEq κ]

/-- Carries out a call. -/
def perform (o : Oracle κ) : OracleCall κ → Checked (Oracle κ)
  | .insert key protect => o.insert key protect
  | .remove key => return o.remove key
  | .reset => return o.reset

/-- Carries out calls in order. -/
def run (o : Oracle κ) (calls : List (OracleCall κ)) : Checked (Oracle κ) :=
  calls.foldlM perform o

end Oracle

/-- The positions at which a walk around a ring of `size` positions stands before it arrives at
`stop`, if it arrives there within `steps` steps. -/
def ringWalk (size stop : Nat) : (steps slot : Nat) → Option (List Nat)
  | 0, slot => if slot = stop then some [] else none
  | steps + 1, slot =>
    if slot = stop then some []
    else (ringWalk size stop steps ((slot + 1) % size)).map (slot :: ·)

namespace Oracle

variable {κ : Type}

/-! ## Positions -/

theorem getElem_charge {size capacity : Nat} (ring : Vector Nat size) (slot : Fin size) {i : Nat}
    (hi : i < size) :
    (charge capacity ring slot)[i] =
      if slot.val = i ∧ ring[i] < capacity then ring[i] + 1 else ring[i] := by
  unfold charge
  by_cases hslot : slot.val = i
  · subst hslot
    split <;> rename_i h
    · simpa using h
    · simpa using h
  · split
    · simp [hslot]
    · simp [hslot]

theorem getElem_foldl_charge_of_notMem {size capacity : Nat} {slots : List (Fin size)} {i : Nat}
    (hi : i < size) (h : ⟨i, hi⟩ ∉ slots) (ring : Vector Nat size) :
    (slots.foldl (charge capacity) ring)[i] = ring[i] := by
  induction slots generalizing ring with
  | nil => rfl
  | cons slot rest ih =>
    have hne : slot.val ≠ i := fun heq => h (List.mem_cons.2 (.inl (Fin.ext heq.symm)))
    have hrest : ⟨i, hi⟩ ∉ rest := fun hmem => h (List.mem_cons_of_mem _ hmem)
    rw [List.foldl_cons, ih hrest, getElem_charge ring slot hi, if_neg fun hcharge => hne hcharge.1]

/-- Distinct positions are charged once each. -/
theorem getElem_foldl_charge_of_mem {size capacity : Nat} {slots : List (Fin size)} {i : Nat}
    (hi : i < size) (hn : slots.Nodup) (h : ⟨i, hi⟩ ∈ slots) (ring : Vector Nat size) :
    (slots.foldl (charge capacity) ring)[i] =
      if ring[i] < capacity then ring[i] + 1 else ring[i] := by
  induction slots generalizing ring with
  | nil => cases h
  | cons slot rest ih =>
    obtain ⟨hslot, hrest⟩ := List.nodup_cons.1 hn
    rw [List.foldl_cons]
    by_cases heq : slot.val = i
    · subst heq
      rw [getElem_foldl_charge_of_notMem hi hslot, getElem_charge ring slot hi]
      simp
    · have hmem : ⟨i, hi⟩ ∈ rest := (List.mem_cons.1 h).resolve_left fun hsame =>
        heq (congrArg Fin.val hsame).symm
      have hother : (charge capacity ring slot)[i] = _ := getElem_charge ring slot hi
      rw [if_neg fun hcharge => heq hcharge.1] at hother
      rw [ih hrest hmem, hother]

/-- Two times less than a ring apart have different positions. -/
theorem mod_eq_mod_iff {size s t : Nat} (hs : s < t + size) (ht : t < s + size) :
    s % size = t % size ↔ s = t := by
  refine ⟨fun heq => ?_, congrArg (· % size)⟩
  have hzero : (t - s) % size = 0 := Nat.sub_mod_eq_zero_of_mod_eq heq.symm
  have hzero' : (s - t) % size = 0 := Nat.sub_mod_eq_zero_of_mod_eq heq
  rw [Nat.mod_eq_of_lt (by omega)] at hzero hzero'
  omega

theorem position_eq_iff (o : Oracle κ) {s t : Nat} (hs : s < t + o.size) (ht : t < s + o.size) :
    o.position s = o.position t ↔ s = t :=
  Fin.ext_iff.trans (mod_eq_mod_iff hs ht)

/-- The positions of an arc that the ring still covers are distinct. -/
theorem nodup_arc (o : Oracle κ) {start : Nat} (h : o.clock - start < o.size) :
    (o.arc start).Nodup := by
  refine List.Nodup.map_on (fun s hs t ht heq => ?_) List.nodup_range'
  simp only [List.mem_range'_1] at hs ht
  exact (o.position_eq_iff (by omega) (by omega)).1 heq

theorem mem_arc (o : Oracle κ) {start t : Nat} (hs : t < start + 1 + o.size)
    (ht : o.clock < t + o.size) :
    o.position t ∈ o.arc start ↔ start < t ∧ t ≤ o.clock := by
  simp only [arc, List.mem_map, List.mem_range'_1]
  constructor
  · rintro ⟨s, hs, heq⟩
    obtain rfl := (o.position_eq_iff (by omega) (by omega)).1 heq
    omega
  · intro h
    exact ⟨t, by omega, rfl⟩

theorem map_val_arc (o : Oracle κ) (start : Nat) :
    (o.arc start).map Fin.val = (List.range' (start + 1) (o.clock - start)).map (· % o.size) := by
  rw [arc, List.map_map]
  rfl

/-- A walk from the position of one time reaches that of a later one, less than a ring away, past
the positions of the times between. -/
theorem ringWalk_eq {size steps start stop : Nat} (hle : start ≤ stop) (hring : stop < start + size)
    (hsteps : stop - start ≤ steps) :
    ringWalk size (stop % size) steps (start % size) =
      some ((List.range' start (stop - start)).map (· % size)) := by
  -- On the number of steps; the start moves on with each of them.
  induction steps generalizing start with
  | zero =>
    obtain rfl : start = stop := by omega
    simp [ringWalk]
  | succ steps ih =>
    rw [ringWalk]
    rcases Nat.eq_or_lt_of_le hle with rfl | hlt
    · simp
    · have hne : start % size ≠ stop % size := fun heq =>
        Nat.ne_of_lt hlt ((mod_eq_mod_iff (by omega) hring).1 heq)
      rw [if_neg hne, Nat.mod_add_mod, ih hlt (by omega) (by omega),
        show stop - start = stop - (start + 1) + 1 by omega, List.range'_succ]
      rfl

theorem find?_filter_ne [DecidableEq κ] {key k : κ} (hk : k ≠ key) (entries : List (κ × Nat)) :
    (entries.filter (·.1 ≠ key)).find? (·.1 = k) = entries.find? (·.1 = k) := by
  rw [List.find?_filter]
  congr 1
  funext entry
  by_cases h : entry.1 = k
  · simp [h, hk]
  · simp [h]

variable [DecidableEq κ]

/-! ## What an oracle keeps of a chronicle -/

/-- The oracle has kept what its ring and its last inserts can hold of a chronicle: the counter of
each time that the ring covers is the load of that time, cut off at the number of ways. Before the
ring has filled up, it also covers the times to come. -/
structure Tracks (ways window : Nat) (o : Oracle κ) (c : Chronicle κ) : Prop where
  size_eq : o.size = window
  capacity_eq : o.capacity = ways
  coherent : c.Coherent
  clock_eq : o.clock = c.time
  seen_eq : ∀ key, o.seen? key = c.last key
  ring_eq : ∀ t, (t ≤ c.time ∨ t < window) → c.time < t + window →
    o.ring[o.position t] = min ways (c.load t)

/-- An oracle that has been built has a ring whose length fits in a word, and tracks the empty
chronicle. -/
theorem new_eq_ok {ways multiplier : Nat} {o : Oracle κ} (ho : new ways multiplier = .ok o) :
    FitsWord (ways * multiplier) ∧ o.capacity = min ways (UInt32.size - 1) ∧
      Tracks o.capacity (ways * multiplier) o {} := by
  unfold new at ho
  split at ho
  · cases ho
  · split at ho
    · cases ho
    · split at ho
      · rename_i hfits
        cases ho
        exact ⟨hfits, rfl, {
          size_eq := rfl
          capacity_eq := rfl
          coherent := .empty
          clock_eq := rfl
          seen_eq := fun _ => rfl
          ring_eq := fun t _ _ => by simp [Chronicle.load] }⟩
      · cases ho

theorem new_tracks {ways multiplier : Nat} {o : Oracle κ} (hways : ways < UInt32.size)
    (ho : new ways multiplier = .ok o) : Tracks ways (ways * multiplier) o {} := by
  obtain ⟨-, hcapacity, h⟩ := new_eq_ok ho
  rwa [hcapacity, Nat.min_eq_left (Nat.le_sub_one_of_lt hways)] at h

variable {ways window : Nat} {o : Oracle κ} {c : Chronicle κ}

theorem Tracks.live?_eq (h : Tracks ways window o c) (key : κ) :
    o.live? key = .ok ((c.openArc window key).map Arc.start) := by
  unfold live? Chronicle.openArc
  rw [h.seen_eq, h.clock_eq, h.size_eq]
  cases hl : c.last key with
  | none => rfl
  | some start =>
    simp only [require_eq_ok (h.coherent.last_le hl), ok_bind, pure_eq_ok]
    split <;> rfl

theorem Tracks.predict_eq (h : Tracks ways window o c) (key : κ) :
    o.predict key = .ok (.ofBool (decide (c.Keeps ways window key))) := by
  have hiff : c.Keeps ways window key ↔ _ := Chronicle.keeps_iff_openArc
  unfold predict
  rw [h.live?_eq]
  cases hopen : c.openArc window key with
  | none => simp [hiff, hopen, Prediction.ofBool]
  | some charged =>
    obtain ⟨hl, hcovered, -⟩ := Chronicle.openArc_eq_some_iff.1 hopen
    have hle := h.coherent.last_le hl
    have hpos := o.size_pos
    have hsize := h.size_eq
    simp only [ok_bind, pure_eq_ok, Option.map_some, Except.ok.injEq]
    congr 1
    rw [Bool.eq_iff_iff, List.all_eq_true, decide_eq_true_iff, hiff, hopen]
    simp only [Option.some.injEq, exists_eq_left']
    rw [arc, h.clock_eq, h.capacity_eq]
    simp only [List.forall_mem_map, List.mem_range'_1, decide_eq_true_eq, and_imp]
    -- The ring covers every time of the arc, so each counter can be read as a load.
    refine forall_congr' fun t => ?_
    constructor
    · intro hall hstart htime
      have := hall (by omega) (by omega)
      rw [h.ring_eq t (.inl htime) (by omega)] at this
      omega
    · intro hall hstart htime
      rw [h.ring_eq t (.inl (by omega)) (by omega)]
      have := hall (by omega) (by omega)
      omega

theorem seen?_remove (o : Oracle κ) (key k : κ) :
    (o.remove key).seen? k = if k = key then none else o.seen? k := by
  unfold seen? remove
  split
  · rename_i hk
    subst hk
    simp [List.find?_filter]
  · rename_i hk
    rw [find?_filter_ne hk]

/-- Opening the next time empties its counter, and leaves those of the other times as they are. -/
theorem Tracks.getElem_opened (h : Tracks ways window o c) {t : Nat}
    (ht : t ≤ c.time + 1 ∨ t < window) (hcovered : c.time + 1 < t + window) :
    (o.ring.set (o.position (o.clock + 1)) 0)[o.position t] = min ways (c.load t) := by
  have hsize := h.size_eq
  have hclock := h.clock_eq
  -- The emptied counter is right as well: no arc lies around a time that is yet to come.
  by_cases hnow : t = o.clock + 1
  · subst hnow
    rw [h.coherent.load_eq_zero (by omega)]
    simp
  · have hne : (o.position (o.clock + 1)).val ≠ (o.position t).val := fun heq =>
      hnow ((o.position_eq_iff (by omega) (by omega)).1 (Fin.ext heq)).symm
    rw [Fin.getElem_fin, Vector.getElem_set_ne _ _ hne]
    exact h.ring_eq t (by omega) (by omega)

/-- Charging the arc that an insert closes adds one unit at the times inside it, up to the number of
ways. -/
theorem Tracks.getElem_charged (h : Tracks ways window o c) {key : κ} {charged : Arc}
    (hopen : c.openArc window key = some charged) {t : Nat} (ht : t ≤ c.time + 1 ∨ t < window)
    (hcovered : c.time + 1 < t + window) :
    ((o.arc charged.start).foldl (charge o.capacity)
      (o.ring.set (o.position (o.clock + 1)) 0))[o.position t] =
      min ways (c.load t + if charged.Spans t then 1 else 0) := by
  obtain ⟨hl, hlive, hstop⟩ := Chronicle.openArc_eq_some_iff.1 hopen
  have hle := h.coherent.last_le hl
  have hsize := h.size_eq
  have hclock := h.clock_eq
  have hspans : charged.Spans t ↔ o.position t ∈ o.arc charged.start := by
    rw [o.mem_arc (by omega) (by omega), Arc.Spans]
    omega
  have hopened := h.getElem_opened ht hcovered
  rw [Fin.getElem_fin] at hopened ⊢
  by_cases hin : o.position t ∈ o.arc charged.start
  · -- The arc is shorter than the ring, so it charges no position twice.
    rw [getElem_foldl_charge_of_mem (o.position t).isLt (o.nodup_arc (by omega)) hin, hopened,
      h.capacity_eq, if_pos (hspans.2 hin)]
    split <;> omega
  · rw [getElem_foldl_charge_of_notMem (o.position t).isLt hin, hopened,
      if_neg fun hs => hin (hspans.1 hs)]
    rfl

/-- An insert opens the next time, charges what the chronicle charges, and notes the key. -/
theorem Tracks.insert (h : Tracks ways window o c) (key : κ) (protect : Bool) :
    Delivers (o.insert key protect)
      (fun fault => fault = .exhausted ∧ UInt64.size ≤ (c.insert window key protect).time)
      (fun o' => Tracks ways window o' (c.insert window key protect)) := by
  unfold Oracle.insert
  rw [h.live?_eq, ok_bind]
  refine .bind (.require fun hword => ?_) fun _ hword => ?_
  · rw [Chronicle.time_insert, ← h.clock_eq]
    exact ⟨rfl, Nat.le_of_not_lt hword⟩
  refine .of_eq_ok rfl {
    size_eq := h.size_eq
    capacity_eq := h.capacity_eq
    coherent := h.coherent.insert window key protect
    clock_eq := by simp [h.clock_eq]
    seen_eq := fun k => ?_
    ring_eq := fun t ht hcovered => ?_ }
  · rw [Chronicle.last_insert, ← h.seen_eq, ← h.clock_eq]
    unfold seen?
    by_cases hk : key = k
    · simp [hk]
    · rw [List.find?_cons_of_neg (by simpa using hk), find?_filter_ne (Ne.symm hk),
        if_neg (Ne.symm hk)]
  · rw [Chronicle.time_insert] at ht hcovered
    have hopened := h.getElem_opened ht hcovered
    rw [Chronicle.load_insert]
    cases protect with
    | false =>
      rw [if_neg (by simp)]
      cases c.openArc window key <;> exact hopened
    | true =>
      cases hopen : c.openArc window key with
      | none =>
        rw [if_neg (by simp)]
        exact hopened
      | some charged =>
        simp only [true_and, Option.some.injEq, exists_eq_left']
        exact h.getElem_charged hopen ht hcovered

theorem Tracks.remove (h : Tracks ways window o c) (key : κ) :
    Tracks ways window (o.remove key) (c.remove key) where
  size_eq := h.size_eq
  capacity_eq := h.capacity_eq
  coherent := h.coherent.remove key
  clock_eq := h.clock_eq
  seen_eq := fun k => by
    rw [seen?_remove, Chronicle.last_remove, h.seen_eq]
  ring_eq := h.ring_eq

theorem Tracks.reset (h : Tracks ways window o c) :
    Tracks ways window o.reset ({} : Chronicle κ) where
  size_eq := h.size_eq
  capacity_eq := h.capacity_eq
  coherent := .empty
  clock_eq := rfl
  seen_eq := fun _ => rfl
  ring_eq := fun t _ _ => by
    rw [show ({} : Chronicle κ).load t = 0 from rfl, Nat.min_zero]
    exact Vector.getElem_replicate _

theorem Tracks.perform (h : Tracks ways window o c) (call : OracleCall κ) :
    Delivers (o.perform call)
      (fun fault => fault = .exhausted ∧ UInt64.size ≤ (c.perform window call).time)
      (fun o' => Tracks ways window o' (c.perform window call)) := by
  cases call with
  | insert key protect => exact h.insert key protect
  | remove key => exact .of_eq_ok rfl (h.remove key)
  | reset => exact .of_eq_ok rfl h.reset

/-- What one call preserves, a run preserves. -/
theorem Tracks.run (h : Tracks ways window o c) (calls : List (OracleCall κ)) :
    Delivers (o.run calls)
      (fun fault => fault = .exhausted ∧ ∃ earlier, earlier <+: calls ∧
        UInt64.size ≤ (earlier.foldl (Chronicle.perform window) c).time)
      (fun o' => Tracks ways window o' (calls.foldl (Chronicle.perform window) c)) := by
  refine Delivers.foldlM_history (motive := fun done o =>
    Tracks ways window o (done.foldl (Chronicle.perform window) c)) h
    fun done call o hdone ho => ?_
  rw [List.foldl_append]
  refine (ho.perform call).mono ?_ fun _ => id
  rintro fault ⟨rfl, hfull⟩
  exact ⟨rfl, done ++ [call], hdone, by rwa [List.foldl_append]⟩

theorem Tracks.occupancy?_eq (h : Tracks ways window o c) {t : Nat}
    (ht : t ≤ c.time ∨ t < window) (hcovered : c.time < t + window) :
    o.occupancy? (t % window) = some (min ways (c.load t)) := by
  have hpos : t % window < o.size := h.size_eq ▸ (o.position t).isLt
  rw [occupancy?, Vector.getElem?_eq_getElem hpos, ← h.ring_eq t ht hcovered]
  simp [position, h.size_eq]

/-! ## What an oracle shows of a chronicle -/

/-- Every position of the ring stands for one of the times that it covers. -/
theorem exists_time {window slot : Nat} (now : Nat) (hslot : slot < window) :
    ∃ t, t % window = slot ∧ (t ≤ now ∨ t < window) ∧ now < t + window := by
  -- The latest time with the right remainder that is not behind both the present and the window.
  let horizon := max now (window - 1)
  refine ⟨slot + window * ((horizon - slot) / window), ?_, ?_⟩
  · rw [Nat.add_mul_mod_self_left, Nat.mod_eq_of_lt hslot]
  · have hdiv := Nat.div_add_mod (horizon - slot) window
    have hmod := Nat.mod_lt (horizon - slot) (Nat.zero_lt_of_lt hslot)
    omega

/-- Every counter is the load of some time, cut off at the number of ways. -/
theorem Tracks.occupancy?_le (h : Tracks ways window o c) {slot n : Nat}
    (hn : o.occupancy? slot = some n) : ∃ t, n = min ways (c.load t) := by
  obtain ⟨hslot, -⟩ := Vector.getElem?_eq_some_iff.1 hn
  obtain ⟨t, rfl, ht, hcovered⟩ := exists_time c.time (h.size_eq ▸ hslot)
  rw [h.occupancy?_eq ht hcovered] at hn
  exact ⟨t, (Option.some.inj hn).symm⟩

/-- What an oracle lets its user see is a function of the chronicle. -/
structure Reflects (ways window : Nat) (o : Oracle κ) (c : Chronicle κ) : Prop where
  size_eq : o.size = window
  /-- The counter of a time that the ring covers is the number of charged arcs around it, cut off at
  the number of ways. -/
  occupancy_eq : ∀ t, 1 ≤ t → t ≤ c.time → c.time < t + window →
    o.occupancy? (t % window) = some (min ways (c.load t))
  /-- A key is judged friendly exactly if its last insert is known and covered, and every time since
  then lies strictly inside fewer charged arcs than there are ways. -/
  predict_eq : ∀ key, ∃ verdict, o.predict key = .ok verdict ∧
    (verdict = .friendly ↔ ∃ start, c.last key = some start ∧ c.time - start < window ∧
      ∀ t, start < t → t ≤ c.time → c.load t < ways)
  /-- The walk of a prediction leaves the position of the key's last insert, stops at the present in
  fewer steps than the ring has positions, and each step leads to the next position of the arc. -/
  predict_walk : ∀ key start, c.last key = some start → c.time - start < window →
    ∃ slots, ringWalk window o.cursor (window - 1) (start % window) = some slots ∧
      (o.arc start).map Fin.val = slots.map fun slot => (slot + 1) % window
  /-- The walk of an insert visits the positions of the arc, and stops at the position that the
  insert opens in fewer steps than the ring has positions. -/
  insert_walk : ∀ key start, c.last key = some start → c.time - start < window →
    ringWalk window ((c.time + 1) % window) (window - 1) ((start + 1) % window) =
      some ((o.arc start).map Fin.val)
  cursor_eq : o.occupancy? o.cursor = some 0

theorem Tracks.cursor_eq (h : Tracks ways window o c) : o.cursor = c.time % window := by
  simp [cursor, position, h.clock_eq, h.size_eq]

theorem Tracks.reflects (h : Tracks ways window o c) : Reflects ways window o c where
  size_eq := h.size_eq
  occupancy_eq := fun t _ ht hcovered => h.occupancy?_eq (.inl ht) hcovered
  predict_eq := fun key => by
    refine ⟨_, h.predict_eq key, ?_⟩
    by_cases hkeeps : c.Keeps ways window key
    · simpa [Prediction.ofBool, hkeeps] using Chronicle.keeps_iff.1 hkeeps
    · simpa [Prediction.ofBool, hkeeps] using fun h => hkeeps (Chronicle.keeps_iff.2 h)
  predict_walk := fun key start hlast hlive => by
    have hle := h.coherent.last_le hlast
    refine ⟨(List.range' start (c.time - start)).map (· % window), ?_, ?_⟩
    · rw [h.cursor_eq]
      exact ringWalk_eq hle (by omega) (by omega)
    · rw [map_val_arc, h.clock_eq, h.size_eq, List.map_map, Nat.add_comm start 1,
        ← List.map_add_range', List.map_map]
      simp [Function.comp_def, Nat.add_comm]
  insert_walk := fun key start hlast hlive => by
    have hle := h.coherent.last_le hlast
    rw [ringWalk_eq (by omega) (by omega) (by omega), map_val_arc, h.clock_eq, h.size_eq,
      Nat.add_sub_add_right]
  cursor_eq := by
    have hpos := h.size_eq ▸ o.size_pos
    rw [h.cursor_eq, h.occupancy?_eq (.inl (Nat.le_refl _)) (by omega),
      h.coherent.load_eq_zero (Nat.le_refl _), Nat.min_zero]

/-- **The bounded oracle answers as the unbounded record does**, after any calls to a new oracle,
unless a key has been inserted when the clock had no 64-bit value left. -/
theorem run_reflects {multiplier : Nat} (hways : ways < UInt32.size)
    (ho : new ways multiplier = .ok o) (calls : List (OracleCall κ)) :
    Delivers (o.run calls)
      (fun fault => fault = .exhausted ∧ ∃ earlier, earlier <+: calls ∧
        UInt64.size ≤ (Chronicle.ofCalls (ways * multiplier) earlier).time)
      (fun o' => Reflects ways (ways * multiplier) o'
        (Chronicle.ofCalls (ways * multiplier) calls)) :=
  ((new_tracks hways ho).run calls).mono (fun _ => id) fun _ => Tracks.reflects

/-- A ring of two positions for one way, which the second arc leaves. -/
theorem run_reflects_one_way :
    ∃ o o' : Oracle Nat, 1 < UInt32.size ∧ new 1 2 = .ok o ∧
      o.run [.insert 1 true, .insert 2 true, .insert 1 true, .remove 1, .insert 2 true] =
        .ok o' ∧
      Reflects 1 2 o' (.ofCalls 2
        [.insert 1 true, .insert 2 true, .insert 1 true, .remove 1, .insert 2 true]) := by
  obtain ⟨o', ho', h⟩ := (run_reflects (show 1 < UInt32.size by decide)
    (show new 1 2 = .ok _ from rfl)
    [.insert 1 true, .insert 2 true, .insert 1 true, .remove 1, .insert 2 true]).of_isOk
    (by decide)
  exact ⟨_, o', by decide, rfl, ho', h⟩

end Oracle

end Residency
