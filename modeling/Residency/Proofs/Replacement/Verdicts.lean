import Residency.Proofs.Accepted
import Residency.Proofs.Replacement.Stamped

/-!
# The oracle-trained policy without its oracles

After any calls the oracle-trained policy holds the same lines as the stamped policy and gives up
the same victims. What its oracles say of a line can be read off the calls: the last touch of the
line has to be recent, and no occupancy is ever large enough to matter.
-/

namespace Residency

namespace Hawkeye

open ReplacementPolicy PolicyCall Stamped

variable {sets ways : Nat} {settings : HawkeyeSettings} {p : Hawkeye}

theorem new_matches (hways : ways < UInt32.size) (h : Hawkeye.new sets ways settings = .ok p) :
    Matches sets ways (2 ^ settings.rrpvBits.toNat - 1) p
      (ofLines (ways * settings.historyMultiplier.toNat) p.lines) := by
  obtain ⟨rrpv, oracle, -, -, hrrpv, horacle, hfits, rfl⟩ := new_eq_ok_iff.1 h
  exact {
    shaped := Slots.uniform_shaped _ hfits
    lines_eq := rfl
    top_eq := fun line state hl hstate => by
      rw [Slots.get_uniform hfits hl] at hstate
      cases hstate
      exact (Counter.new_eq_ok hrrpv).2
    oracles_size := Array.size_replicate ..
    oracles_know := fun set o ho => by
      obtain rfl : oracle = o := by
        rw [Array.getElem?_replicate] at ho
        split at ho
        · exact Option.some.inj ho
        · cases ho
      exact .of_tracks (Oracle.new_tracks hways horacle) }

theorem ways_pos (h : Hawkeye.new sets ways settings = .ok p) : 0 < ways := by
  obtain ⟨rrpv, oracle, -, -, -, horacle, -⟩ := new_eq_ok_iff.1 h
  rw [Oracle.new] at horacle
  split at horacle
  · cases horacle
  · exact Nat.pos_of_ne_zero ‹_›

theorem Matches.run {top : Nat} {q : Stamped} (h : Matches sets ways top p q)
    (hq : q.Recounts []) {calls : List PolicyCall}
    (hcalls : ∀ call ∈ calls, call.Within sets ways) :
    Delivers (run p calls)
      (fun fault => fault = .exhausted ∧ ∃ set, UInt64.size ≤ calls.countP (touchesSet set))
      (fun p' => ∃ q', ReplacementPolicy.run q calls = .ok q' ∧ Matches sets ways top p' q' ∧
        q'.window = q.window ∧ q'.Recounts calls) := by
  -- The stamped run of the calls so far goes along, so nothing has to be said about its faults.
  refine Delivers.foldlM_history (motive := fun done p' =>
    ∃ q', ReplacementPolicy.run q done = .ok q' ∧ Matches sets ways top p' q' ∧
      q'.window = q.window ∧ q'.Recounts done) ⟨q, rfl, h, rfl, hq⟩ ?_
  rintro done call p' hdone ⟨q', hrun, h', hwindow, hrecounts⟩
  have hcall : call.Within sets ways := hcalls call (hdone.subset (by simp))
  refine ((h'.perform hcall).mono ?_ fun _ => id).bind ?_
  · rintro fault ⟨rfl, set, hfull⟩
    refine ⟨rfl, set, hfull.trans ?_⟩
    rw [hrecounts.touches_append]
    exact hdone.sublist.countP_le
  · rintro ⟨answer, p''⟩ ⟨q'', hq'', h''⟩
    obtain ⟨hw, hr⟩ := hrecounts.perform hq''
    refine ⟨q'', ?_, h'', hw.trans hwindow, hr⟩
    rw [ReplacementPolicy.run, List.foldlM_append] at *
    rw [hrun, ok_bind, List.foldlM_cons, hq'']
    rfl

/-- What the policy `p` comes to after `calls`, beside the stamped policy `q`. -/
structure FollowsStamps (sets ways window top : Nat) (calls : List PolicyCall) (p : Hawkeye)
    (q : Stamped) : Prop where
  /-- The lines hold the same blocks and the same re-reference values. -/
  lines_eq : p.lines = q.lines
  /-- No counter of any oracle reaches the number of ways. -/
  occupancy_lt : ∀ set o, p.oracle set = .ok o → ∀ slot n, o.occupancy? slot = some n → n < ways
  /-- A touch of a line pulls its value down if fewer than `window` touches of its set lie between
  its last touch and this one, and pushes it up otherwise. -/
  touch_rrpv : ∀ line, line.Within sets ways →
    Delivers (touch p line)
      (fun fault => fault = .exhausted ∧
        UInt64.size ≤ calls.countP (touchesSet line.set) + 1)
      (fun p' => ∃ o old new, p.oracle line.set = .ok o ∧
        o.predict line.way = .ok (.ofBool ((touchesSince line calls).any (· < window))) ∧
        p.lines.get line = .ok old ∧ p'.lines.get line = .ok new ∧ old.Agrees new ∧
        new.rrpv.value =
          if (touchesSince line calls).any (· < window) then old.rrpv.value - 1
          else min (old.rrpv.value + 1) top)
  /-- Every further call is answered alike, and leaves the lines alike. -/
  perform_eq : ∀ call : PolicyCall, call.Within sets ways →
    Delivers (perform p call)
      (fun fault => fault = .exhausted ∧ ∃ set,
        UInt64.size ≤ (calls ++ [call]).countP (touchesSet set))
      (fun result => ∃ q', perform q call = .ok (result.1, q') ∧ result.2.lines = q'.lines)

theorem Matches.followsStamps {window top : Nat} {calls : List PolicyCall} {q : Stamped}
    (h : Matches sets ways top p q) (hways : 0 < ways) (hwindow : q.window = window)
    (hq : q.Recounts calls) :
    FollowsStamps sets ways window top calls p q := by
  subst hwindow
  refine ⟨h.lines_eq.symm, ?_, ?_, ?_⟩
  · intro set o ho slot n hn
    unfold oracle at ho
    split at ho
    · rename_i hfound
      cases ho
      exact (h.oracles_know set o hfound).occupancy_lt hways hn
    · cases ho
  · intro line hl
    obtain ⟨o, ho, horacle⟩ := h.exists_oracle hl
    refine (h.touch hl).mono ?_ ?_
    · intro fault hfault
      rwa [hq.touches_eq] at hfault
    · rintro p' ⟨q', hq', h'⟩
      obtain ⟨lines, hmodify, rfl⟩ := touch_eq_ok hq'
      rw [hq.isRecent_eq, h.lines_eq] at hmodify
      obtain ⟨old, changed, hold, hchanged, hset⟩ := h.shaped.modify_eq hl fun state =>
        { state with rrpv := if (touchesSince line calls).any (· < q.window) then
          state.rrpv.decrement else state.rrpv.increment }
      obtain rfl := Except.ok.inj (hmodify.symm.trans hchanged)
      have hnew := (congrArg (·.get line) h'.lines_eq.symm).trans (Slots.get_set_self hset)
      refine ⟨o, old, _, horacle, ?_, hold, hnew, ⟨rfl, rfl, ?_⟩, ?_⟩
      · exact hq.isRecent_eq line ▸ (h.oracles_know _ o ho).predict_eq hl.2
      · dsimp only
        split <;> rfl
      · dsimp only
        split <;> simp [h.top_eq line old hl hold]
  · intro call hcall
    refine (h.perform hcall).mono ?_ ?_
    · rintro fault ⟨hexhausted, set, hfull⟩
      exact ⟨hexhausted, set, hq.touches_append set call ▸ hfull⟩
    · rintro result ⟨q', hq', h'⟩
      exact ⟨q', hq', h'.lines_eq.symm⟩

/-- **No oracle ever finds a full time.** Any calls to a new policy lead to the lines that the
stamped policy comes to, and to oracles that only tell recent touches from others, unless a set has
been touched more often than a 64-bit clock can count. -/
theorem run_followsStamps (hways : ways < UInt32.size)
    (hnew : Hawkeye.new sets ways settings = .ok p) (calls : List PolicyCall)
    (hcalls : ∀ call ∈ calls, call.Within sets ways) :
    Delivers (run p calls)
      (fun fault => fault = .exhausted ∧ ∃ set, UInt64.size ≤ calls.countP (touchesSet set))
      (fun p' => ∃ q,
        run (ofLines (ways * settings.historyMultiplier.toNat) p.lines) calls = .ok q ∧
        FollowsStamps sets ways (ways * settings.historyMultiplier.toNat)
          (2 ^ settings.rrpvBits.toNat - 1) calls p' q) := by
  refine ((new_matches hways hnew).run (ofLines_recounts _ _) hcalls).mono (fun _ => id) ?_
  rintro p' ⟨q, hrun, h, hwindow, hq⟩
  exact ⟨q, hrun, h.followsStamps (ways_pos hnew) hwindow hq⟩

/-- Two ways of one set: the second touch of the first comes one touch too late. -/
theorem run_followsStamps_two_ways :
    ∃ p p' q, 2 < UInt32.size ∧ Hawkeye.new 1 2 ⟨2, 1⟩ = .ok p ∧
      (∀ call ∈ [PolicyCall.fill ⟨0, 0⟩ 7, .touch ⟨0, 0⟩, .touch ⟨0, 1⟩, .touch ⟨0, 1⟩,
        .touch ⟨0, 0⟩, .victim [⟨0, 0⟩, ⟨0, 1⟩]], call.Within 1 2) ∧
      run p [PolicyCall.fill ⟨0, 0⟩ 7, .touch ⟨0, 0⟩, .touch ⟨0, 1⟩, .touch ⟨0, 1⟩,
        .touch ⟨0, 0⟩, .victim [⟨0, 0⟩, ⟨0, 1⟩]] = .ok p' ∧
      FollowsStamps 1 2 2 3 [PolicyCall.fill ⟨0, 0⟩ 7, .touch ⟨0, 0⟩, .touch ⟨0, 1⟩,
        .touch ⟨0, 1⟩, .touch ⟨0, 0⟩, .victim [⟨0, 0⟩, ⟨0, 1⟩]] p' q := by
  obtain ⟨p', hp', q, -, h⟩ := (run_followsStamps (show 2 < UInt32.size by decide)
    (show Hawkeye.new 1 2 ⟨2, 1⟩ = .ok _ from rfl)
    [PolicyCall.fill ⟨0, 0⟩ 7, .touch ⟨0, 0⟩, .touch ⟨0, 1⟩, .touch ⟨0, 1⟩, .touch ⟨0, 0⟩,
      .victim [⟨0, 0⟩, ⟨0, 1⟩]] (by decide)).of_isOk (by decide)
  exact ⟨_, p', q, by decide, rfl, by decide, hp', h⟩

end Hawkeye

end Residency
