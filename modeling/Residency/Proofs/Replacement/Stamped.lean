import Residency.Proofs.Oracle.Refinement
import Residency.Proofs.Replacement.Hawkeye
import Residency.Proofs.Statistics

/-!
# What the oracles of the oracle-trained policy can ever say

Each oracle of the policy is keyed by the ways of one set. A way is charged at most once around any
time, and not at all around the time of its own touch, so that no counter reaches the number of ways
and no oracle ever finds a full time. Its verdict depends on one thing alone: how many touches of
the set lie between the last touch of the way and now.

`Stamped` is the policy with each oracle replaced by a count of the touches of the set and by one
optional stamp per line. It keeps the same lines and gives up the same victims.
-/

namespace Residency

/-- The touch that a stamp stands for lies fewer than `window` touches back. Without a stamp there
is no such touch. -/
def isRecent (window touches : Nat) : Option Nat → Bool
  | none => false
  | some stamp => touches - stamp < window

/-- The state of the stamped policy. -/
structure Stamped where
  /-- How many touches back the last touch of a line still counts. -/
  window : Nat
  lines : Slots HawkeyeLine
  /-- How often the lines of each set have been touched. -/
  touches : Nat → Nat
  /-- Which touch of its set the last touch of a line was, unless the line has been filled or
  invalidated since. -/
  stamps : LineId → Option Nat

namespace Stamped

/-- Nothing has been touched yet. -/
def ofLines (window : Nat) (lines : Slots HawkeyeLine) : Stamped :=
  ⟨window, lines, fun _ => 0, fun _ => none⟩

/-- A touched line goes down if its last touch is recent, and up otherwise. -/
def touch (q : Stamped) (line : LineId) : Checked Stamped := do
  let recent := isRecent q.window (q.touches line.set) (q.stamps line)
  let lines ← q.lines.modify line fun state =>
    { state with rrpv := if recent then state.rrpv.decrement else state.rrpv.increment }
  return { q with
    lines
    touches := Function.update q.touches line.set (q.touches line.set + 1)
    stamps := Function.update q.stamps line (some (q.touches line.set + 1)) }

/-- Rewrites the state of a slot and takes its stamp away. -/
def unstamp (q : Stamped) (line : LineId) (f : HawkeyeLine → HawkeyeLine) : Checked Stamped := do
  return { q with lines := ← q.lines.modify line f, stamps := Function.update q.stamps line none }

/-- A policy without oracles that has the same lines names the victim. -/
def victim (q : Stamped) (candidates : List LineId) : Checked (Option LineId × Stamped) := do
  let (choice, p) ← Hawkeye.victim ⟨q.lines, #[]⟩ candidates
  return (choice, { q with lines := p.lines })

instance : ReplacementPolicy Stamped where
  touch := touch
  fill q line tag := q.unstamp line fun state =>
    { valid := true, rrpv := state.rrpv.saturate, tag }
  invalidate q line := q.unstamp line fun state => { state with valid := false }
  victim := victim

end Stamped

namespace PolicyCall

/-- The call touches a line of the set. -/
def touchesSet (set : Nat) : PolicyCall → Bool
  | .touch line => line.set = set
  | _ => false

/-- How a call changes the number of touches of a line's set since the last touch of the line. -/
def advance (line : LineId) (since : Option Nat) : PolicyCall → Option Nat
  | .touch other =>
    if other = line then some 0
    else if other.set = line.set then since.map (· + 1) else since
  | .fill other _ | .invalidate other => if other = line then none else since
  | .victim _ => since

/-- The number of touches of a line's set since the last touch of the line, if the line has been
touched since it was last filled or invalidated. -/
def touchesSince (line : LineId) (calls : List PolicyCall) : Option Nat :=
  calls.foldl (advance line) none

end PolicyCall

/-! ## One oracle -/

/-- Where all keys are ways of one set, fewer arcs than there are ways lie around any time. -/
theorem Chronicle.Coherent.load_lt_ways {c : Chronicle Nat} {ways : Nat} (h : c.Coherent)
    (hways : 0 < ways) (hkeys : ∀ key ∈ c.keys, key < ways) (t : Nat) : c.load t < ways := by
  rcases Nat.lt_or_ge t c.time with htime | htime
  · -- Time zero has no insert of its own, and no arc around it either.
    rcases Nat.eq_zero_or_pos t with rfl | ht
    · have hzero : c.load 0 = 0 := by simp [load, Arc.Spans]
      omega
    · refine Nat.lt_of_lt_of_le (h.load_lt ht (Nat.le_of_lt htime)) ?_
      have hsubset : c.since t ⊆ Finset.range ways := by
        intro key hkey
        exact Finset.mem_range.2 (hkeys key (List.mem_of_mem_drop (List.mem_toFinset.1 hkey)))
      simpa using Finset.card_le_card hsubset
  · rw [h.load_eq_zero htime]
    exact hways

namespace Oracle

/-- The oracle has been told of `touches` touches of the ways of one set, and of the last of each
way that has a stamp. -/
def KnowsStamps (ways window touches : Nat) (stamps : Nat → Option Nat) (o : Oracle Nat) : Prop :=
  ∃ c, Tracks ways window o c ∧ c.time = touches ∧ (∀ way, way < ways → c.last way = stamps way) ∧
    ∀ key ∈ c.keys, key < ways

namespace KnowsStamps

variable {ways window touches way : Nat} {stamps : Nat → Option Nat} {o : Oracle Nat}

theorem of_tracks (h : Tracks ways window o {}) : KnowsStamps ways window 0 (fun _ => none) o :=
  ⟨{}, h, rfl, fun _ _ => rfl, by simp⟩

theorem occupancy_lt (h : KnowsStamps ways window touches stamps o) (hways : 0 < ways)
    {slot n : Nat} (hn : o.occupancy? slot = some n) : n < ways := by
  obtain ⟨c, hc, -, -, hkeys⟩ := h
  obtain ⟨t, rfl⟩ := hc.occupancy?_le hn
  have := hc.coherent.load_lt_ways hways hkeys t
  omega

/-- No time is ever full, so only the distance of the last touch counts. -/
theorem predict_eq (h : KnowsStamps ways window touches stamps o) (hway : way < ways) :
    o.predict way = .ok (.ofBool (isRecent window touches (stamps way))) := by
  obtain ⟨c, hc, rfl, hlast, hkeys⟩ := h
  rw [hc.predict_eq, ← hlast way hway]
  congr 2
  rw [Bool.eq_iff_iff, decide_eq_true_iff, Chronicle.keeps_iff]
  cases c.last way with
  | none => simp [isRecent]
  | some stamp =>
    have hload := hc.coherent.load_lt_ways (Nat.zero_lt_of_lt hway) hkeys
    simp [isRecent, hload]

theorem insert (h : KnowsStamps ways window touches stamps o) (hway : way < ways)
    (protect : Bool) :
    Delivers (o.insert way protect)
      (fun fault => fault = .exhausted ∧ UInt64.size ≤ touches + 1)
      (KnowsStamps ways window (touches + 1)
        (Function.update stamps way (some (touches + 1)))) := by
  obtain ⟨c, hc, rfl, hlast, hkeys⟩ := h
  refine (hc.insert way protect).mono (fun fault hfault => ?_) fun o' ho' => ?_
  · simpa using hfault
  · refine ⟨_, ho', by simp, fun k hk => ?_, fun k hk => ?_⟩
    · rw [Chronicle.last_insert, Function.update_apply, hlast k hk]
    · rcases List.mem_append.1 hk with hk | hk
      · exact hkeys k hk
      · exact List.mem_singleton.1 hk ▸ hway

theorem remove (h : KnowsStamps ways window touches stamps o) (way : Nat) :
    KnowsStamps ways window touches (Function.update stamps way none) (o.remove way) := by
  obtain ⟨c, hc, rfl, hlast, hkeys⟩ := h
  refine ⟨_, hc.remove way, rfl, fun k hk => ?_, hkeys⟩
  rw [Chronicle.last_remove, Function.update_apply, hlast k hk]

end KnowsStamps

end Oracle

/-! ## The simulation -/

namespace Hawkeye

open Stamped (ofLines)

/-- The two policies hold the same lines, all of one width, and each oracle knows the stamps of its
set. -/
structure Matches (sets ways top : Nat) (p : Hawkeye) (q : Stamped) : Prop where
  shaped : p.lines.Shaped sets ways
  lines_eq : q.lines = p.lines
  top_eq : ∀ line state, line.Within sets ways → p.lines.get line = .ok state →
    state.rrpv.max = top
  oracles_size : p.oracles.size = sets
  oracles_know : ∀ (set : Nat) (o : Oracle Nat), p.oracles[set]? = some o →
    o.KnowsStamps ways q.window (q.touches set) fun way => q.stamps ⟨set, way⟩

namespace Matches

variable {sets ways top : Nat} {p : Hawkeye} {q : Stamped} {line : LineId}

theorem exists_oracle (h : Matches sets ways top p q) (hl : line.Within sets ways) :
    ∃ o, p.oracles[line.set]? = some o ∧ p.oracle line.set = .ok o :=
  p.exists_oracle (h.oracles_size ▸ hl.1)

/-- A stamp that is changed changes what the oracle of its own set has to know, and nothing else. -/
theorem setOracle_know (h : Matches sets ways top p q) {o : Oracle Nat} {stamp : Option Nat}
    {touches : Nat}
    (ho : o.KnowsStamps ways q.window touches
      (Function.update (fun way => q.stamps ⟨line.set, way⟩) line.way stamp)) :
    ∀ (set : Nat) (o' : Oracle Nat), (p.setOracle line.set o).oracles[set]? = some o' →
      o'.KnowsStamps ways q.window (Function.update q.touches line.set touches set)
        fun way => Function.update q.stamps line stamp ⟨set, way⟩ := by
  intro set o' ho'
  simp only [setOracle, Array.getElem?_setIfInBounds] at ho'
  -- Either the oracle is the new one of the line's own set, or it has been there before.
  split at ho'
  · rename_i heq
    subst heq
    obtain rfl : o = o' := by
      split at ho'
      · exact Option.some.inj ho'
      · cases ho'
    have hstamps : (fun way => Function.update q.stamps line stamp ⟨line.set, way⟩) =
        Function.update (fun way => q.stamps ⟨line.set, way⟩) line.way stamp := by
      obtain ⟨set, way⟩ := line
      funext k
      simp only [Function.update_apply, LineId.mk.injEq, true_and]
    rw [hstamps, Function.update_self]
    exact ho
  · rename_i hne
    have hstamps : (fun way => Function.update q.stamps line stamp ⟨set, way⟩) =
        fun way => q.stamps ⟨set, way⟩ := by
      funext way
      exact Function.update_of_ne (fun heq => hne (congrArg LineId.set heq).symm) ..
    rw [hstamps, Function.update_of_ne (Ne.symm hne)]
    exact h.oracles_know set o' ho'

theorem touch (h : Matches sets ways top p q) (hl : line.Within sets ways) :
    Delivers (p.touch line)
      (fun fault => fault = .exhausted ∧ UInt64.size ≤ q.touches line.set + 1)
      (fun p' => ∃ q', q.touch line = .ok q' ∧ Matches sets ways top p' q') := by
  obtain ⟨o, ho, horacle⟩ := h.exists_oracle hl
  have hknows := h.oracles_know line.set o ho
  obtain ⟨state, hstate⟩ := h.shaped.exists_get hl
  simp only [Hawkeye.touch, hstate, ok_bind, h.shaped.home_eq hl, horacle, hknows.predict_eq hl.2,
    Prediction.isFriendly_ofBool]
  refine (hknows.insert hl.2 _).bind fun o' ho' => ?_
  obtain ⟨_, lines, hstate, hmodify, hset⟩ := h.shaped.modify_eq hl fun state =>
    { state with
      rrpv := if isRecent q.window (q.touches line.set) (q.stamps line) then
        state.rrpv.decrement else state.rrpv.increment }
  refine .of_eq_ok (by rw [modifyLine, setOracle, hmodify]; rfl)
    ⟨_, by rw [Stamped.touch, h.lines_eq, hmodify]; rfl, ?_⟩
  exact {
    shaped := h.shaped.set hset
    lines_eq := rfl
    top_eq := by
      refine h.shaped.forall_set hl hset ?_ h.top_eq
      rw [← h.top_eq line _ hl hstate]
      split <;> rfl
    oracles_size := Array.size_setIfInBounds.trans h.oracles_size
    oracles_know := h.setOracle_know ho' }

theorem unstamp (h : Matches sets ways top p q) (hl : line.Within sets ways)
    {f : HawkeyeLine → HawkeyeLine} (hf : ∀ state, (f state).rrpv.max = state.rrpv.max) :
    ∃ p' q', (do (← p.forget line).modifyLine line f) = .ok p' ∧ q.unstamp line f = .ok q' ∧
      Matches sets ways top p' q' := by
  obtain ⟨o, ho, horacle⟩ := h.exists_oracle hl
  have hknows := h.oracles_know line.set o ho
  obtain ⟨state, lines, hstate, hmodify, hset⟩ := h.shaped.modify_eq hl f
  refine ⟨_, _, by
      rw [forget, hstate, ok_bind, horacle, ok_bind, pure_eq_ok, ok_bind, h.shaped.home_eq hl,
        modifyLine, setOracle, hmodify]
      rfl, by rw [Stamped.unstamp, h.lines_eq, hmodify]; rfl, ?_⟩
  have hforgotten := h.setOracle_know (hknows.remove line.way)
  simp only [Function.update_eq_self] at hforgotten
  exact {
    shaped := h.shaped.set hset
    lines_eq := rfl
    top_eq := h.shaped.forall_set hl hset ((hf state).trans (h.top_eq line state hl hstate))
      h.top_eq
    oracles_size := Array.size_setIfInBounds.trans h.oracles_size
    oracles_know := hforgotten }

theorem victim (h : Matches sets ways top p q) {candidates : List LineId}
    (hc : ∀ line ∈ candidates, line.Within sets ways) :
    ∃ choice p' q', p.victim candidates = .ok (choice, p') ∧
      q.victim candidates = .ok (choice, q') ∧ Matches sets ways top p' q' := by
  obtain ⟨choice, p', hp', -, horacles, hshaped, hagree⟩ := victim_spec (h.shaped.records _) hc
  refine ⟨choice, p', { q with lines := p'.lines }, hp', ?_, {
    shaped := hshaped
    lines_eq := rfl
    top_eq := fun line state hl hstate => by
      obtain ⟨old, new, hold, hnew, -, -, hmax⟩ := hagree line hl
      obtain rfl : state = new := Except.ok.inj (hstate.symm.trans hnew)
      exact hmax.trans (h.top_eq line old hl hold)
    oracles_size := horacles ▸ h.oracles_size
    oracles_know := horacles ▸ h.oracles_know }⟩
  rw [Stamped.victim, h.lines_eq, victim_lines _ #[] p.oracles, hp']
  rfl

open ReplacementPolicy

theorem perform (h : Matches sets ways top p q) {call : PolicyCall}
    (hcall : call.Within sets ways) :
    Delivers (perform p call)
      (fun fault => fault = .exhausted ∧ ∃ set,
        UInt64.size ≤ q.touches set + (call.touchesSet set).toNat)
      (fun result => ∃ q', ReplacementPolicy.perform q call = .ok (result.1, q') ∧
        Matches sets ways top result.2 q') := by
  cases call with
  | touch line =>
    refine ((h.touch hcall).mono ?_ fun _ => id).bind ?_
    · rintro fault ⟨rfl, hfull⟩
      exact ⟨rfl, line.set, by simpa [PolicyCall.touchesSet] using hfull⟩
    · rintro p' ⟨q', hq', h'⟩
      refine .of_eq_ok rfl ⟨q', ?_, h'⟩
      show (do return (none, ← q.touch line)) = _
      rw [hq']
      rfl
  | fill line tag =>
    obtain ⟨p', q', hp', hq', h'⟩ := h.unstamp hcall (f := fun state =>
      { valid := true, rrpv := state.rrpv.saturate, tag }) fun _ => rfl
    refine .of_eq_ok (a := (none, p')) ?_ ⟨q', ?_, h'⟩
    · show (do return (none, ← p.fill line tag)) = _
      rw [fill, hp']
      rfl
    · show (do return (none, ← q.unstamp line _)) = _
      rw [hq']
      rfl
  | invalidate line =>
    obtain ⟨p', q', hp', hq', h'⟩ := h.unstamp hcall (f := fun state =>
      { state with valid := false }) fun _ => rfl
    refine .of_eq_ok (a := (none, p')) ?_ ⟨q', ?_, h'⟩
    · show (do return (none, ← p.invalidate line)) = _
      rw [invalidate, hp']
      rfl
    · show (do return (none, ← q.unstamp line _)) = _
      rw [hq']
      rfl
  | victim candidates =>
    obtain ⟨choice, p', q', hp', hq', h'⟩ := h.victim hcall
    exact .of_eq_ok hp' ⟨q', hq', h'⟩

end Matches

end Hawkeye

/-! ## What the calls have told -/

namespace Stamped

open PolicyCall ReplacementPolicy

variable {q q' : Stamped} {line : LineId}

theorem touch_eq_ok (h : q.touch line = .ok q') :
    ∃ lines, q.lines.modify line (fun state => { state with
        rrpv := if isRecent q.window (q.touches line.set) (q.stamps line) then
          state.rrpv.decrement else state.rrpv.increment }) = .ok lines ∧
      q' = ⟨q.window, lines, Function.update q.touches line.set (q.touches line.set + 1),
        Function.update q.stamps line (some (q.touches line.set + 1))⟩ := by
  obtain ⟨lines, hlines, hq'⟩ := bind_eq_ok_iff.1 h
  exact ⟨lines, hlines, (Except.ok.inj hq').symm⟩

theorem unstamp_eq_ok {f : HawkeyeLine → HawkeyeLine} (h : q.unstamp line f = .ok q') :
    ∃ lines, q' = ⟨q.window, lines, q.touches, Function.update q.stamps line none⟩ := by
  obtain ⟨lines, -, hq'⟩ := bind_eq_ok_iff.1 h
  exact ⟨lines, (Except.ok.inj hq').symm⟩

theorem victim_eq_ok {candidates : List LineId} {choice : Option LineId}
    (h : q.victim candidates = .ok (choice, q')) :
    ∃ lines, q' = ⟨q.window, lines, q.touches, q.stamps⟩ := by
  obtain ⟨⟨_, p⟩, -, hq'⟩ := bind_eq_ok_iff.1 h
  exact ⟨p.lines, (congrArg Prod.snd (Except.ok.inj hq')).symm⟩

/-- Counts and stamps say how often each set has been touched and how far back the last touch of
each line lies. -/
structure Recounts (q : Stamped) (calls : List PolicyCall) : Prop where
  touches_eq : ∀ set, q.touches set = calls.countP (touchesSet set)
  stamp_le : ∀ line stamp, q.stamps line = some stamp → stamp ≤ q.touches line.set
  since_eq : ∀ line,
    (q.stamps line).map (q.touches line.set - ·) = touchesSince line calls

theorem Recounts.touches_append {calls : List PolicyCall} (h : q.Recounts calls) (set : Nat)
    (call : PolicyCall) :
    q.touches set + (call.touchesSet set).toNat = (calls ++ [call]).countP (touchesSet set) := by
  rw [h.touches_eq, countP_append_singleton]

theorem ofLines_recounts (window : Nat) (lines : Slots HawkeyeLine) :
    (ofLines window lines).Recounts [] where
  touches_eq := fun _ => rfl
  stamp_le := fun _ _ h => by cases h
  since_eq := fun _ => rfl

theorem Recounts.isRecent_eq {calls : List PolicyCall} (h : q.Recounts calls) (line : LineId) :
    isRecent q.window (q.touches line.set) (q.stamps line) =
      (touchesSince line calls).any (· < q.window) := by
  rw [← h.since_eq]
  cases q.stamps line <;> rfl

theorem touchesSince_append (line : LineId) (calls : List PolicyCall) (call : PolicyCall) :
    touchesSince line (calls ++ [call]) = call.advance line (touchesSince line calls) := by
  simp [touchesSince]

/-- A touch is counted for its set, and stamps its line with the new count. -/
theorem Recounts.touch {calls : List PolicyCall} (h : q.Recounts calls)
    (hq' : q.touch line = .ok q') : q'.Recounts (calls ++ [.touch line]) := by
  obtain ⟨lines, -, rfl⟩ := touch_eq_ok hq'
  have hmono : ∀ set, q.touches set ≤
      Function.update q.touches line.set (q.touches line.set + 1) set := fun set => by
    rw [Function.update_apply]
    split <;> simp_all
  refine ⟨fun set => ?_, fun other stamp hs => ?_, fun other => ?_⟩
  · show Function.update q.touches line.set (q.touches line.set + 1) set = _
    rw [List.countP_append, ← h.touches_eq, Function.update_apply]
    by_cases hset : set = line.set
    · simp [touchesSet, hset]
    · simp [touchesSet, hset, Ne.symm hset]
  · simp only [Function.update_apply q.stamps] at hs
    split at hs
    · rename_i heq
      cases hs
      simp [heq]
    · exact (h.stamp_le other stamp hs).trans (hmono _)
  · rw [touchesSince_append, ← h.since_eq, advance]
    by_cases heq : line = other
    · simp [heq]
    · simp only [if_neg heq, Function.update_apply q.stamps, if_neg (Ne.symm heq)]
      -- The other stamps stay, but those of the same set fall one touch further behind.
      by_cases hset : line.set = other.set
      · cases hstamp : q.stamps other with
        | none => simp
        | some stamp =>
          have hle := h.stamp_le other stamp hstamp
          simp only [hset, if_true, Function.update_self, Option.map_some]
          congr 1
          omega
      · simp [hset, Function.update_of_ne (Ne.symm hset)]

theorem Recounts.unstamp {calls : List PolicyCall} (h : q.Recounts calls)
    {f : HawkeyeLine → HawkeyeLine} (hq' : q.unstamp line f = .ok q') {call : PolicyCall}
    (hcall : (∃ tag, call = .fill line tag) ∨ call = .invalidate line) :
    q'.Recounts (calls ++ [call]) := by
  obtain ⟨lines, rfl⟩ := unstamp_eq_ok hq'
  have htouches : ∀ set, call.touchesSet set = false := by
    rcases hcall with ⟨tag, rfl⟩ | rfl <;> exact fun _ => rfl
  have hadvance : ∀ other since,
      call.advance other since = if line = other then none else since := by
    rcases hcall with ⟨tag, rfl⟩ | rfl <;> exact fun _ _ => rfl
  refine ⟨fun set => ?_, fun other stamp hs => ?_, fun other => ?_⟩
  · simp [htouches, h.touches_eq]
  · simp only [Function.update_apply] at hs
    split at hs
    · cases hs
    · exact h.stamp_le other stamp hs
  · rw [touchesSince_append, hadvance, ← h.since_eq]
    by_cases heq : line = other
    · simp [heq]
    · simp [heq, Function.update_of_ne (Ne.symm heq)]

theorem Recounts.perform {calls : List PolicyCall} (h : q.Recounts calls) {call : PolicyCall}
    {answer : Option LineId} (hq' : perform q call = .ok (answer, q')) :
    q'.window = q.window ∧ q'.Recounts (calls ++ [call]) := by
  cases call with
  | touch line =>
    obtain ⟨q', hq, heq⟩ := bind_eq_ok_iff.1 hq'
    cases heq
    exact ⟨by obtain ⟨_, -, rfl⟩ := touch_eq_ok hq; rfl, h.touch hq⟩
  | fill line tag =>
    obtain ⟨q', hq, heq⟩ := bind_eq_ok_iff.1 hq'
    cases heq
    exact ⟨by obtain ⟨_, rfl⟩ := unstamp_eq_ok hq; rfl, h.unstamp hq (.inl ⟨tag, rfl⟩)⟩
  | invalidate line =>
    obtain ⟨q', hq, heq⟩ := bind_eq_ok_iff.1 hq'
    cases heq
    exact ⟨by obtain ⟨_, rfl⟩ := unstamp_eq_ok hq; rfl, h.unstamp hq (.inr rfl)⟩
  | victim candidates =>
    obtain ⟨lines, rfl⟩ := victim_eq_ok hq'
    refine ⟨rfl, fun set => ?_, h.stamp_le, fun line => ?_⟩
    · simp [touchesSet, h.touches_eq]
    · rw [touchesSince_append, ← h.since_eq]
      rfl

end Stamped

end Residency
