import Mathlib.Data.List.Induction
import Residency.Proofs.Replacement.Setwise

/-!
# The least recently used line is given up

What the least-recently-used policy has been told determines whom it gives up. A line is filled if
it has not been invalidated since its last fill, and it is used whenever it is touched or filled.
The order of a set holds the filled ways by their last use, the most recent first. Where the vacant
ways stand in it does not matter: the first vacant candidate is given up before any filled one.
-/

namespace Residency

/-! ## What the calls say of a line -/

namespace PolicyCall

/-- The call touches or fills the line. -/
def uses (line : LineId) : PolicyCall → Bool
  | .touch other | .fill other _ => other = line
  | .invalidate _ | .victim _ => false

/-- Whether a line is filled after a call, by whether it was filled before. -/
def leavesFilled (line : LineId) (filled : Bool) : PolicyCall → Bool
  | .fill other _ => if other = line then true else filled
  | .invalidate other => if other = line then false else filled
  | .touch _ | .victim _ => filled

/-- Whether the last fill or invalidation of a line is a fill. -/
def isFilled (calls : List PolicyCall) (line : LineId) : Bool :=
  calls.foldl (leavesFilled line) false

/-- The number of calls since the last use of a line. -/
def callsSinceUse (calls : List PolicyCall) (line : LineId) : Nat :=
  calls.reverse.findIdx (uses line)

variable {calls : List PolicyCall} {call : PolicyCall} {line : LineId} {set a b : Nat}

theorem isFilled_append (calls : List PolicyCall) (call : PolicyCall) (line : LineId) :
    isFilled (calls ++ [call]) line = call.leavesFilled line (isFilled calls line) := by
  simp [isFilled]

theorem isFilled_append_touch (calls : List PolicyCall) (line : LineId) :
    isFilled (calls ++ [.touch line]) = isFilled calls := by
  funext other
  exact isFilled_append calls (.touch line) other

theorem isFilled_append_victim (calls : List PolicyCall) (candidates : List LineId) :
    isFilled (calls ++ [.victim candidates]) = isFilled calls := by
  funext other
  exact isFilled_append calls (.victim candidates) other

theorem isFilled_append_fill (calls : List PolicyCall) (line : LineId) (tag : UInt64) :
    isFilled (calls ++ [.fill line tag]) = Function.update (isFilled calls) line true := by
  funext other
  simp [isFilled_append, leavesFilled, Function.update_apply, eq_comm]

theorem isFilled_append_invalidate (calls : List PolicyCall) (line : LineId) :
    isFilled (calls ++ [.invalidate line]) = Function.update (isFilled calls) line false := by
  funext other
  simp [isFilled_append, leavesFilled, Function.update_apply, eq_comm]

/-- A call that does not use a line does not fill it. -/
theorem isFilled_of_append (huses : call.uses line = false)
    (h : isFilled (calls ++ [call]) line = true) : isFilled calls line = true := by
  rw [isFilled_append] at h
  cases call with
  | touch other => exact h
  | victim candidates => exact h
  | fill other tag =>
    have hne : other ≠ line := by simpa [uses] using huses
    simpa [leavesFilled, hne] using h
  | invalidate other =>
    by_cases heq : other = line
    · simp [leavesFilled, heq] at h
    · simpa [leavesFilled, heq] using h

theorem callsSinceUse_append_of_uses (huses : call.uses line = true) :
    callsSinceUse (calls ++ [call]) line = 0 := by
  simp [callsSinceUse, List.findIdx_cons, huses]

theorem callsSinceUse_append_of_not_uses (huses : call.uses line = false) :
    callsSinceUse (calls ++ [call]) line = callsSinceUse calls line + 1 := by
  simp [callsSinceUse, List.findIdx_cons, huses]

/-- If both ways of the set are filled, the first has been used more recently. -/
def MoreRecent (calls : List PolicyCall) (set a b : Nat) : Prop :=
  isFilled calls ⟨set, a⟩ = true → isFilled calls ⟨set, b⟩ = true →
    callsSinceUse calls ⟨set, a⟩ < callsSinceUse calls ⟨set, b⟩

/-- A call that uses neither of two ways leaves which of them was used more recently. -/
theorem MoreRecent.append (h : MoreRecent calls set a b) (ha : call.uses ⟨set, a⟩ = false)
    (hb : call.uses ⟨set, b⟩ = false) : MoreRecent (calls ++ [call]) set a b := by
  intro hfilled_a hfilled_b
  have hlt := h (isFilled_of_append ha hfilled_a) (isFilled_of_append hb hfilled_b)
  rw [callsSinceUse_append_of_not_uses ha, callsSinceUse_append_of_not_uses hb]
  omega

/-- A way that is used has been used more recently than any that is not. -/
theorem MoreRecent.of_uses (ha : call.uses ⟨set, a⟩ = true) (hb : call.uses ⟨set, b⟩ = false) :
    MoreRecent (calls ++ [call]) set a b := by
  intro _ _
  rw [callsSinceUse_append_of_uses ha, callsSinceUse_append_of_not_uses hb]
  omega

end PolicyCall

/-- What every call keeps, by the calls before it, is kept by a run, which does not stop. -/
theorem ReplacementPolicy.run_by_calls {σ : Type} [ReplacementPolicy σ]
    {motive : List PolicyCall → σ → Prop} {p : σ} {calls : List PolicyCall} (hstart : motive [] p)
    (hstep : ∀ earlier q, ∀ call ∈ calls, motive earlier q →
      ∃ answer q', perform q call = .ok (answer, q') ∧ motive (earlier ++ [call]) q') :
    ∃ p', run p calls = .ok p' ∧ motive calls p' := by
  refine Delivers.exists_ok (Delivers.foldlM_history hstart fun earlier call q hearlier hq => ?_)
  obtain ⟨answer, q', hq', h'⟩ := hstep earlier q call (hearlier.subset (by simp)) hq
  exact .of_eq_ok (by rw [hq']; rfl) h'

/-! ## What the policy keeps of the calls -/

namespace Lru

open ReplacementPolicy PolicyCall

variable {sets ways set : Nat} {calls : List PolicyCall} {call : PolicyCall} {p p' : Lru}
  {line : LineId} {candidates : List LineId} {answer : Option LineId}

/-- The policy knows which lines are filled, and each of its orders has the filled ways by their
last use. -/
structure Recalls (sets ways : Nat) (calls : List PolicyCall) (p : Lru) : Prop where
  serves : Serves sets ways (isFilled calls) p
  ordered : ∀ set, set < sets → (p.order set).Pairwise (MoreRecent calls set)

theorem new_recalls (h : Lru.new sets ways = .ok p) : Recalls sets ways [] p := by
  refine ⟨new_serves h, ?_⟩
  intro set hset
  apply List.pairwise_of_forall
  intro a b hfilled
  cases hfilled

namespace Recalls

theorem ordered_append (h : Recalls sets ways calls p) (hset : set < sets)
    (huses : ∀ way, call.uses ⟨set, way⟩ = false) :
    (p.order set).Pairwise (MoreRecent (calls ++ [call]) set) := by
  refine (h.ordered set hset).imp ?_
  intro a b hab
  exact hab.append (huses a) (huses b)

theorem ordered_erase (h : Recalls sets ways calls p) (hl : line.Within sets ways)
    (huses : ∀ other, call.uses other = true → other = line) :
    ((p.order line.set).erase line.way).Pairwise (MoreRecent (calls ++ [call]) line.set) := by
  have hnot : ∀ way ∈ (p.order line.set).erase line.way, call.uses ⟨line.set, way⟩ = false := by
    intro way hway
    rw [Bool.eq_false_iff]
    intro hused
    obtain rfl : way = line.way := congrArg LineId.way (huses _ hused)
    exact (h.serves.nodup_order hl.1).not_mem_erase hway
  refine ((h.ordered line.set hl.1).sublist List.erase_sublist).imp_of_mem ?_
  intro a b ha hb hab
  exact hab.append (hnot a ha) (hnot b hb)

/-- A line that a call uses goes to the front of its order. -/
theorem promote (h : Recalls sets ways calls p) (hl : line.Within sets ways)
    (huses : ∀ other, call.uses other = true ↔ other = line)
    (hserves : Serves sets ways (isFilled (calls ++ [call])) p')
    (horder : p'.order = Function.update p.order line.set
      (line.way :: (p.order line.set).erase line.way)) :
    Recalls sets ways (calls ++ [call]) p' := by
  refine ⟨hserves, ?_⟩
  intro set hset
  rw [horder, Function.update_apply]
  by_cases heq : set = line.set
  · rw [if_pos heq, heq, List.pairwise_cons]
    refine ⟨?_, h.ordered_erase hl fun other => (huses other).1⟩
    intro way hway
    refine .of_uses ((huses _).2 rfl) (Bool.eq_false_iff.2 fun hused => ?_)
    obtain rfl : way = line.way := congrArg LineId.way ((huses _).1 hused)
    exact (h.serves.nodup_order hl.1).not_mem_erase hway
  · rw [if_neg heq]
    refine h.ordered_append hset fun way => Bool.eq_false_iff.2 fun hused => ?_
    exact heq (congrArg LineId.set ((huses _).1 hused))

/-- A line that is invalidated goes to the end of its order, where it does not count. -/
theorem demote (h : Recalls sets ways calls p) (hl : line.Within sets ways)
    (hserves : Serves sets ways (isFilled (calls ++ [.invalidate line])) p')
    (horder : p'.order = Function.update p.order line.set
      ((p.order line.set).erase line.way ++ [line.way])) :
    Recalls sets ways (calls ++ [.invalidate line]) p' := by
  refine ⟨hserves, ?_⟩
  intro set hset
  rw [horder, Function.update_apply]
  by_cases heq : set = line.set
  · rw [if_pos heq, heq, List.pairwise_append]
    refine ⟨h.ordered_erase hl (fun _ hused => by cases hused), List.pairwise_singleton .., ?_⟩
    intro a _ b hb _ hfilled
    rw [List.mem_singleton.1 hb, isFilled_append_invalidate, Function.update_self] at hfilled
    cases hfilled
  · rw [if_neg heq]
    exact h.ordered_append hset fun way => rfl

/-- Whatever the policy is told or asked inside the geometry, it goes on to recall its calls. -/
theorem perform (h : Recalls sets ways calls p) (hcall : call.Within sets ways) :
    ∃ answer p', perform p call = .ok (answer, p') ∧ Recalls sets ways (calls ++ [call]) p' := by
  cases call with
  | touch line =>
    obtain ⟨p', hp', hserves, -, horder⟩ := h.serves.touch_spec hcall
    rw [← isFilled_append_touch calls line] at hserves
    refine ⟨none, p', perform_touch_iff.2 ⟨rfl, hp'⟩, h.promote hcall ?_ hserves horder⟩
    intro other
    simp [uses, eq_comm]
  | fill line tag =>
    obtain ⟨p', hp', hserves, horder⟩ := h.serves.fill_spec hcall tag
    rw [← isFilled_append_fill calls line tag] at hserves
    refine ⟨none, p', perform_fill_iff.2 ⟨rfl, hp'⟩, h.promote hcall ?_ hserves horder⟩
    intro other
    simp [uses, eq_comm]
  | invalidate line =>
    obtain ⟨p', hp', hserves, horder⟩ := h.serves.invalidate_spec hcall
    rw [← isFilled_append_invalidate] at hserves
    exact ⟨none, p', perform_invalidate_iff.2 ⟨rfl, hp'⟩, h.demote hcall hserves horder⟩
  | victim candidates =>
    obtain ⟨choice, hchoice, -⟩ := h.serves.victim_spec hcall
    refine ⟨choice, p, hchoice, (isFilled_append_victim calls candidates).symm ▸ h.serves, ?_⟩
    intro set hset
    exact h.ordered_append hset fun way => rfl

/-- No run of calls inside the geometry stops, and all of it is recalled. -/
theorem run (h : Recalls sets ways [] p) (hcalls : ∀ call ∈ calls, call.Within sets ways) :
    ∃ p', run p calls = .ok p' ∧ Recalls sets ways calls p' :=
  run_by_calls h fun _ _ call hcall hrecalls => hrecalls.perform (hcalls call hcall)

end Recalls

/-! ## The victim -/

/-- The line is the one to give up: the first candidate that is not filled, or else the candidate
whose last use lies furthest back. -/
structure LeastRecent (calls : List PolicyCall) (candidates : List LineId) (line : LineId) :
    Prop where
  mem : line ∈ candidates
  vacant : ∀ first, candidates.find? (fun line => !isFilled calls line) = some first →
    line = first
  oldest : (∀ other ∈ candidates, isFilled calls other = true) →
    ∀ other ∈ candidates, other ≠ line → callsSinceUse calls other < callsSinceUse calls line

/-- Of two filled ways the one that lies deeper in the order was used less recently. -/
theorem Recalls.lt_of_depth_le (h : Recalls sets ways calls p) {other : LineId}
    (hl : line.Within sets ways) (ho : other.Within sets ways) (hset : other.set = line.set)
    (hne : other ≠ line) (hline : isFilled calls line = true) (hother : isFilled calls other = true)
    (hdepth : (p.order other.set).idxOf other.way ≤ (p.order line.set).idxOf line.way) :
    callsSinceUse calls other < callsSinceUse calls line := by
  obtain ⟨set, a⟩ := other
  obtain ⟨_, b⟩ := line
  obtain rfl : set = _ := hset
  have ha := List.idxOf_lt_length_of_mem ((h.serves.mem_order ho.1).2 ho.2)
  have hb := List.idxOf_lt_length_of_mem ((h.serves.mem_order hl.1).2 hl.2)
  have hlt : (p.order set).idxOf a < (p.order set).idxOf b := by
    refine Nat.lt_of_le_of_ne hdepth fun heq => hne ?_
    have hway : (p.order set)[(p.order set).idxOf a] = (p.order set)[(p.order set).idxOf b] := by
      simp only [heq]
    rw [List.getElem_idxOf, List.getElem_idxOf] at hway
    rw [hway]
  have hrecent := List.pairwise_iff_getElem.1 (h.ordered set hl.1) _ _ ha hb hlt
  rw [List.getElem_idxOf, List.getElem_idxOf] at hrecent
  exact hrecent hother hline

/-- To ask for a victim changes nothing, and names the line to give up. -/
theorem Recalls.victim_leastRecent (h : Recalls sets ways calls p)
    (hc : ∀ line ∈ candidates, line.Within sets ways ∧ line.set = set) (hne : candidates ≠ []) :
    ∃ line, victim p candidates = .ok (some line, p) ∧ LeastRecent calls candidates line := by
  have hwithin : ∀ line ∈ candidates, line.Within sets ways := fun line hl => (hc line hl).1
  obtain ⟨choice, hchoice, hproper⟩ := h.serves.victim_spec hwithin
  obtain ⟨line, rfl⟩ := hproper.exists_of_ne_nil hne
  have hmem := hproper.mem line rfl
  refine ⟨line, hchoice, hmem, ?_, ?_⟩
  · intro first hfirst
    exact Option.some.inj (hproper.vacant_first first hfirst)
  · intro hfilled other hother hdiffer
    obtain ⟨deepest, -, hdeepest, hdepth⟩ := h.serves.victim_of_occupied hwithin hfilled hne
    obtain ⟨heq, -⟩ := Prod.mk.inj (Except.ok.inj (hchoice.symm.trans hdeepest))
    obtain rfl := Option.some.inj heq
    have hset : other.set = line.set := (hc other hother).2.trans (hc line hmem).2.symm
    exact h.lt_of_depth_le (hwithin line hmem) (hwithin other hother) hset hdiffer
      (hfilled line hmem) (hfilled other hother) (hdepth other hother)

/-- **The least recently used line is given up.** No call inside the geometry faults, and after any
number of them every order is still a permutation of the ways. Among some candidates of one set the
first that is not filled is then given up, or else the one whose last use lies furthest back, and to
ask for it changes nothing. -/
theorem run_gives_up_oldest (hnew : Lru.new sets ways = .ok p)
    (hcalls : ∀ call ∈ calls, call.Within sets ways) :
    ∃ p', run p calls = .ok p' ∧ p'.recency.size = sets ∧
      (∀ set, set < sets → (p'.order set).Perm (List.range ways)) ∧
      ∀ set candidates, candidates ≠ [] →
        (∀ line ∈ candidates, line.Within sets ways ∧ line.set = set) →
        ∃ line, victim p' candidates = .ok (some line, p') ∧ LeastRecent calls candidates line := by
  obtain ⟨p', hp', h⟩ := (new_recalls hnew).run hcalls
  refine ⟨p', hp', h.serves.size_eq, h.serves.perm, ?_⟩
  intro set candidates hne hc
  exact h.victim_leastRecent hc hne

/-- Of three ways the second, touched while it was vacant, has been used least recently since all of
them are filled; without it the first would be, and a vacant way goes before both. -/
theorem run_gives_up_oldest_second_way :
    ∃ p p', Lru.new 1 3 = .ok p ∧
      (∀ call ∈ [PolicyCall.touch ⟨0, 1⟩, .fill ⟨0, 1⟩ 5, .fill ⟨0, 0⟩ 6, .fill ⟨0, 2⟩ 7,
        .invalidate ⟨0, 2⟩, .fill ⟨0, 2⟩ 8], call.Within 1 3) ∧
      run p [PolicyCall.touch ⟨0, 1⟩, .fill ⟨0, 1⟩ 5, .fill ⟨0, 0⟩ 6, .fill ⟨0, 2⟩ 7,
        .invalidate ⟨0, 2⟩, .fill ⟨0, 2⟩ 8] = .ok p' ∧
      victim p' [⟨0, 0⟩, ⟨0, 1⟩, ⟨0, 2⟩] = .ok (some ⟨0, 1⟩, p') ∧
      victim p' [⟨0, 0⟩, ⟨0, 2⟩] = .ok (some ⟨0, 0⟩, p') := by
  have hcalls : ∀ call ∈ [PolicyCall.touch ⟨0, 1⟩, .fill ⟨0, 1⟩ 5, .fill ⟨0, 0⟩ 6,
      .fill ⟨0, 2⟩ 7, .invalidate ⟨0, 2⟩, .fill ⟨0, 2⟩ 8], call.Within 1 3 := by decide
  obtain ⟨p', hp', -, -, hvictim⟩ :=
    run_gives_up_oldest (show Lru.new 1 3 = .ok _ from rfl) hcalls
  obtain ⟨a, ha, hall⟩ := hvictim 0 [⟨0, 0⟩, ⟨0, 1⟩, ⟨0, 2⟩] (by decide) (by decide)
  obtain ⟨b, hb, htwo⟩ := hvictim 0 [⟨0, 0⟩, ⟨0, 2⟩] (by decide) (by decide)
  have hsecond : a = ⟨0, 1⟩ := by
    by_contra hne
    have := hall.oldest (by decide) ⟨0, 1⟩ (by decide) (Ne.symm hne)
    have hmem := hall.mem
    simp only [List.mem_cons, List.not_mem_nil, or_false] at hmem
    rcases hmem with rfl | rfl | rfl <;> revert this <;> decide
  have hfirst : b = ⟨0, 0⟩ := by
    by_contra hne
    have := htwo.oldest (by decide) ⟨0, 0⟩ (by decide) (Ne.symm hne)
    have hmem := htwo.mem
    simp only [List.mem_cons, List.not_mem_nil, or_false] at hmem
    rcases hmem with rfl | rfl <;> revert this <;> decide
  exact ⟨_, p', rfl, hcalls, hp', hsecond ▸ ha, hfirst ▸ hb⟩

end Lru

end Residency
