import Residency.Proofs.Accepted
import Residency.Proofs.Replacement.Lawful
import Residency.Replacement.Hawkeye

/-!
# The oracle-trained policy, operation by operation

The search for a victim names a candidate, a vacant one if there is any, and changes nothing but
re-reference values. It never looks at an oracle. The other operations fault only where the clock of
an oracle has no 64-bit value left.
-/

namespace Residency

/-- The two states of a slot speak of the same block, and their counters have the same width. -/
def HawkeyeLine.Agrees (old new : HawkeyeLine) : Prop :=
  new.valid = old.valid ∧ new.tag = old.tag ∧ new.rrpv.max = old.rrpv.max

namespace Hawkeye

variable {sets ways : Nat} {p : Hawkeye} {candidates : List LineId}

/-- Ageing leaves every slot with the block that it holds. -/
theorem age_spec (h : p.lines.Shaped sets ways)
    (hc : ∀ line ∈ candidates, line.Within sets ways) (spared : LineId) :
    ∃ p', p.age spared candidates = .ok p' ∧ p'.oracles = p.oracles ∧
      p'.lines.Shaped sets ways ∧
      ∀ line, line.Within sets ways → ∃ old new, p.lines.get line = .ok old ∧
        p'.lines.get line = .ok new ∧ old.Agrees new := by
  induction candidates generalizing p with
  | nil =>
    refine ⟨p, rfl, rfl, h, fun line hl => ?_⟩
    obtain ⟨state, hstate⟩ := h.exists_get hl
    exact ⟨state, state, hstate, hstate, rfl, rfl, rfl⟩
  | cons candidate rest ih =>
    have hrest : ∀ line ∈ rest, line.Within sets ways := fun line hl => hc line (by simp [hl])
    rw [age, List.foldlM_cons]
    split
    · exact ih h hrest
    · obtain ⟨state, lines, hstate, hmodify, hset⟩ := h.modify_eq (hc candidate (by simp))
        fun state => { state with rrpv := state.rrpv.increment }
      obtain ⟨p', hp', horacles, hshaped, hagree⟩ := ih (p := { p with lines }) (h.set hset) hrest
      rw [modifyLine, hmodify]
      refine ⟨p', hp', horacles, hshaped, fun line hl => ?_⟩
      obtain ⟨old, new, hold, hnew, hvalid, htag, hmax⟩ := hagree line hl
      rw [h.get_set (hc candidate (by simp)) hl hset] at hold
      split at hold
      · rename_i heq
        cases hold
        exact ⟨state, new, heq ▸ hstate, hnew, hvalid, htag, hmax⟩
      · exact ⟨old, new, hold, hnew, hvalid, htag, hmax⟩

theorem mem_of_highest {best : LineId × Counter} {states : List (LineId × Counter)}
    (h : highest states = some best) : best ∈ states := by
  cases states with
  | nil => cases h
  | cons first rest =>
    obtain rfl := Option.some.inj h
    refine foldl_pick_mem (fun best next => ?_) first rest
    split
    · exact .inr rfl
    · exact .inl rfl

/-- A line is selected among the candidates, if there are any. -/
theorem select_mem {states : List (LineId × Counter)} {line : LineId}
    (h : select states = some line) : line ∈ states.map (·.1) := by
  unfold select at h
  split at h
  · rename_i hfind
    cases h
    exact List.mem_map.2 ⟨_, List.mem_of_find?_eq_some hfind, rfl⟩
  · obtain ⟨best, hbest, rfl⟩ := Option.map_eq_some_iff.1 h
    exact List.mem_map_of_mem (mem_of_highest hbest)

theorem select_isSome {states : List (LineId × Counter)} (h : states ≠ []) :
    ∃ line, select states = some line := by
  unfold select
  split
  · exact ⟨_, rfl⟩
  · cases states with
    | nil => exact absurd rfl h
    | cons first rest => exact ⟨_, rfl⟩

theorem rrpvs_eq (p : Hawkeye) (h : p.lines.Shaped sets ways)
    (hc : ∀ line ∈ candidates, line.Within sets ways) :
    ∃ states, candidates.mapM (fun line => return (line, (← p.lines.get line).rrpv)) =
      .ok states ∧ states.map (·.1) = candidates := by
  have hstep : ∀ line ∈ candidates, ∃ state,
      (do return (line, (← p.lines.get line).rrpv) : Checked _) = .ok state ∧ line = state.1 := by
    intro line hl
    obtain ⟨state, hstate⟩ := h.exists_get (hc line hl)
    exact ⟨_, by rw [hstate]; rfl, rfl⟩
  obtain ⟨states, hstates, hlines⟩ := mapM_eq_ok hstep
  rw [← List.forall₂_map_right_iff, List.forall₂_eq_eq_eq] at hlines
  exact ⟨states, hstates, hlines.symm⟩

/-- The choice of a victim never faults, is proper, and leaves every slot with its block. -/
theorem victim_spec {occupied : LineId → Bool}
    (h : p.lines.Records sets ways (·.valid) occupied)
    (hc : ∀ line ∈ candidates, line.Within sets ways) :
    ∃ choice p', p.victim candidates = .ok (choice, p') ∧
      ProperVictim occupied candidates choice ∧ p'.oracles = p.oracles ∧
      p'.lines.Shaped sets ways ∧
      ∀ line, line.Within sets ways → ∃ old new, p.lines.get line = .ok old ∧
        p'.lines.get line = .ok new ∧ old.Agrees new := by
  have hkept : ∀ line, line.Within sets ways → ∃ old new, p.lines.get line = .ok old ∧
      p.lines.get line = .ok new ∧ old.Agrees new := fun line hl => by
    obtain ⟨state, hstate⟩ := h.shaped.exists_get hl
    exact ⟨state, state, hstate, hstate, rfl, rfl, rfl⟩
  rw [victim, h.firstWhere_not hc, ok_bind]
  cases hvacant : candidates.find? fun line => !occupied line with
  | some line => exact ⟨some line, p, rfl, .of_vacant hvacant, rfl, h.shaped, hkept⟩
  | none =>
    obtain ⟨states, hstates, hlines⟩ := p.rrpvs_eq h.shaped hc
    rw [hstates, ok_bind]
    cases hselect : select states with
    | none =>
      refine ⟨none, p, rfl, .of_full hvacant (by simp) fun hne => ?_, rfl, h.shaped, hkept⟩
      obtain ⟨line, hline⟩ := select_isSome fun hnil : states = [] =>
        hne (by simp [← hlines, hnil])
      rw [hselect] at hline
      cases hline
    | some line =>
      obtain ⟨p', hp', horacles, hshaped, hagree⟩ := age_spec h.shaped hc line
      refine ⟨some line, p', by simp only [hp']; rfl,
        .of_full hvacant ?_ fun _ => ⟨line, rfl⟩, horacles, hshaped, hagree⟩
      rintro _ ⟨⟩
      exact hlines ▸ select_mem hselect

/-- Ageing never looks at an oracle. -/
theorem age_lines (lines : Slots HawkeyeLine) (oracles others : Array (Oracle Nat))
    (spared : LineId) (candidates : List LineId) :
    age ⟨lines, oracles⟩ spared candidates =
      (age ⟨lines, others⟩ spared candidates).map fun p => ⟨p.lines, oracles⟩ := by
  induction candidates generalizing lines with
  | nil => rfl
  | cons candidate rest ih =>
    simp only [age, List.foldlM_cons] at ih ⊢
    split
    · exact ih lines
    · simp only [modifyLine]
      cases lines.modify candidate fun state => { state with rrpv := state.rrpv.increment } with
      | error fault => rfl
      | ok lines => exact ih lines

/-- The choice of a victim never looks at an oracle. -/
theorem victim_lines (lines : Slots HawkeyeLine) (oracles others : Array (Oracle Nat))
    (candidates : List LineId) :
    victim ⟨lines, oracles⟩ candidates =
      (victim ⟨lines, others⟩ candidates).map fun (choice, p) => (choice, ⟨p.lines, oracles⟩) := by
  simp only [victim]
  cases firstWhere (fun line => return !(← lines.get line).valid) candidates with
  | error fault => rfl
  | ok vacant =>
    cases vacant with
    | some line => rfl
    | none =>
      simp only [ok_bind]
      cases candidates.mapM fun line => return (line, (← lines.get line).rrpv) with
      | error fault => rfl
      | ok states =>
        simp only [ok_bind]
        cases select states with
        | none => rfl
        | some line =>
          simp only
          rw [age_lines lines oracles others]
          cases age ⟨lines, others⟩ line candidates <;> rfl

end Hawkeye

/-! ## The oracles' clocks -/

namespace Oracle

variable {κ : Type} {touches : Nat} {o : Oracle κ}

/-- At most `touches` inserts have been counted, and no key has been seen later than that. -/
structure Clocked (touches : Nat) (o : Oracle κ) : Prop where
  clock_le : o.clock ≤ touches
  seen_le : ∀ entry ∈ o.lastSeen, entry.2 ≤ o.clock

theorem new_clocked {ways multiplier : Nat} (h : new ways multiplier = .ok o) : Clocked 0 o := by
  unfold new at h
  split at h
  · cases h
  · split at h
    · cases h
    · split at h
      · cases h
        exact ⟨Nat.le_refl 0, by simp⟩
      · cases h

namespace Clocked

theorem mono {more : Nat} (h : o.Clocked touches) (hle : touches ≤ more) : o.Clocked more :=
  ⟨Nat.le_trans h.clock_le hle, h.seen_le⟩

variable [DecidableEq κ]

theorem live?_isOk (h : o.Clocked touches) (key : κ) : ∃ live, o.live? key = .ok live := by
  rw [live?]
  cases hseen : o.seen? key with
  | none => exact ⟨none, rfl⟩
  | some time =>
    obtain ⟨entry, hentry, rfl⟩ := Option.map_eq_some_iff.1 hseen
    have hle := h.seen_le entry (List.mem_of_find?_eq_some hentry)
    exact ⟨_, by simp only [require_eq_ok hle]; rfl⟩

theorem predict_isOk (h : o.Clocked touches) (key : κ) :
    ∃ prediction, o.predict key = .ok prediction := by
  obtain ⟨live, hlive⟩ := h.live?_isOk key
  rw [predict, hlive]
  cases live with
  | none => exact ⟨_, rfl⟩
  | some time => exact ⟨_, rfl⟩

theorem insert (h : o.Clocked touches) (key : κ) (protect : Bool) :
    Delivers (o.insert key protect) (Exhausted (touches + 1)) (Clocked (touches + 1)) := by
  obtain ⟨live, hlive⟩ := h.live?_isOk key
  have hclock := h.clock_le
  rw [Oracle.insert, hlive, ok_bind]
  refine Delivers.bind (.require fun hfull => ⟨rfl, ?_⟩) fun _ _ => ⟨?_, ?_⟩
  · have := Nat.le_of_not_lt hfull
    omega
  · exact Nat.succ_le_succ hclock
  · intro entry hentry
    rcases List.mem_cons.1 hentry with rfl | hentry
    · exact Nat.le_refl _
    · exact Nat.le_trans (h.seen_le entry (List.mem_of_mem_filter hentry)) (Nat.le_succ _)

theorem remove (h : o.Clocked touches) (key : κ) : (o.remove key).Clocked touches :=
  ⟨h.clock_le, fun entry hentry => h.seen_le entry (List.mem_of_mem_filter hentry)⟩

end Clocked

end Oracle

namespace Hawkeye

variable {sets ways touches : Nat} {occupied : LineId → Bool} {p : Hawkeye} {line : LineId}

theorem exists_oracle (p : Hawkeye) {set : Nat} (hset : set < p.oracles.size) :
    ∃ o, p.oracles[set]? = some o ∧ p.oracle set = .ok o := by
  have ho := Array.getElem?_eq_getElem hset
  exact ⟨_, ho, by rw [oracle, ho]; rfl⟩

/-- The validity of the lines is the record, and the oracles have counted at most `touches`
touches. -/
structure Serves (sets ways touches : Nat) (occupied : LineId → Bool) (p : Hawkeye) : Prop where
  records : p.lines.Records sets ways (·.valid) occupied
  size_eq : p.oracles.size = sets
  clocked : ∀ (set : Nat) (o : Oracle Nat), p.oracles[set]? = some o → o.Clocked touches

theorem new_serves {settings : HawkeyeSettings} (h : Hawkeye.new sets ways settings = .ok p) :
    Serves sets ways 0 (fun _ => false) p := by
  obtain ⟨rrpv, oracle, -, -, -, horacle, hfits, rfl⟩ := new_eq_ok_iff.1 h
  refine ⟨Slots.uniform_records hfits rfl, Array.size_replicate .., fun set o ho => ?_⟩
  rw [Array.getElem?_replicate] at ho
  split at ho
  · cases ho
    exact Oracle.new_clocked horacle
  · cases ho

namespace Serves

theorem exists_oracle (h : Serves sets ways touches occupied p) (hl : line.Within sets ways) :
    ∃ o, o.Clocked touches ∧ p.oracle line.set = .ok o := by
  obtain ⟨o, ho, horacle⟩ := p.exists_oracle (h.size_eq ▸ hl.1)
  exact ⟨o, h.clocked line.set o ho, horacle⟩

theorem setOracle_clocked (h : Serves sets ways touches occupied p) {o : Oracle Nat} {more : Nat}
    (hmore : touches ≤ more) (ho : o.Clocked more) (line : LineId) :
    ∀ (set : Nat) (o' : Oracle Nat), (p.setOracle line.set o).oracles[set]? = some o' →
      o'.Clocked more := by
  intro set o' ho'
  simp only [setOracle, Array.getElem?_setIfInBounds] at ho'
  split at ho'
  · split at ho'
    · cases ho'
      exact ho
    · cases ho'
  · exact (h.clocked set o' ho').mono hmore

theorem touch_spec (h : Serves sets ways touches occupied p) (hl : line.Within sets ways) :
    Delivers (p.touch line) (Exhausted (touches + 1))
      (Serves sets ways (touches + 1) occupied) := by
  obtain ⟨o, ho, horacle⟩ := h.exists_oracle hl
  obtain ⟨prediction, hprediction⟩ := ho.predict_isOk line.way
  obtain ⟨state, hstate⟩ := h.records.shaped.exists_get hl
  simp only [touch, hstate, ok_bind, h.records.shaped.home_eq hl, horacle, hprediction]
  refine (ho.insert line.way _).bind fun o' ho' => ?_
  obtain ⟨_, lines, hstate', hmodify, hset⟩ := h.records.shaped.modify_eq hl fun state =>
    { state with
      rrpv := if prediction.isFriendly then state.rrpv.decrement else state.rrpv.increment }
  obtain rfl := Except.ok.inj (hstate.symm.trans hstate')
  refine .of_eq_ok (by rw [modifyLine, setOracle, hmodify]; rfl) ⟨?_, ?_, ?_⟩
  · have hvalid := h.records.eq_of_get hl hstate
    have hrecords := h.records.set hl hset
    rwa [hvalid, Function.update_eq_self] at hrecords
  · exact Array.size_setIfInBounds.trans h.size_eq
  · exact h.setOracle_clocked (Nat.le_succ _) ho' line

/-- A fill and an invalidation forget the line, and rewrite it. -/
theorem forget_spec (h : Serves sets ways touches occupied p) (hl : line.Within sets ways)
    {f : HawkeyeLine → HawkeyeLine} {valid : Bool} (hf : ∀ state, (f state).valid = valid) :
    ∃ p', (do (← p.forget line).modifyLine line f) = .ok p' ∧
      Serves sets ways touches (Function.update occupied line valid) p' := by
  obtain ⟨o, ho, horacle⟩ := h.exists_oracle hl
  obtain ⟨state, lines, hstate, hmodify, hset⟩ := h.records.shaped.modify_eq hl f
  refine ⟨_, by
      rw [forget, hstate, ok_bind, horacle, ok_bind, pure_eq_ok, ok_bind,
        h.records.shaped.home_eq hl, modifyLine, setOracle, hmodify]
      rfl, ?_, ?_, ?_⟩
  · exact hf state ▸ h.records.set hl hset
  · exact Array.size_setIfInBounds.trans h.size_eq
  · exact h.setOracle_clocked (Nat.le_refl _) (ho.remove line.way) line

end Serves

instance : LawfulPolicy Hawkeye where
  Serves := Serves
  serves_congr h heq := ⟨h.records.congr heq, h.size_eq, h.clocked⟩
  touch_spec h hl := h.touch_spec hl
  fill_spec tag h hl := h.forget_spec hl (f := fun state =>
    { valid := true, rrpv := state.rrpv.saturate, tag }) fun _ => rfl
  invalidate_spec h hl := h.forget_spec hl (f := fun state =>
    { state with valid := false }) fun _ => rfl
  victim_spec h hc := by
    obtain ⟨choice, p', hp', hproper, horacles, hshaped, hagree⟩ := victim_spec h.records hc
    refine ⟨choice, p', hp', ⟨⟨hshaped, fun line hl => ?_⟩, horacles ▸ h.size_eq,
      horacles ▸ h.clocked⟩, hproper⟩
    obtain ⟨old, new, hold, hnew, hvalid, -⟩ := hagree line hl
    rw [Slots.test_of_get hnew, hvalid, h.records.eq_of_get hl hold]

end Hawkeye

end Residency
