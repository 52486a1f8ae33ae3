import Residency.Proofs.Replacement.SetwiseHawkeye

/-!
# Which line the oracle-trained policy gives up

The policy looks for a candidate at the maximum and for the first with the highest value, and takes
the one at the maximum if there is any. Since all values have the same maximum, the two rules never
differ: the line that is given up is the first of those with the highest value. Every other
candidate ages by one, and nothing else changes.
-/

namespace Residency

/-! ## The first of the highest -/

/-- The element is the first of those with the highest score. -/
def FirstHighest {α : Type} (score : α → Nat) (as : List α) (a : α) : Prop :=
  ∃ before after, as = before ++ a :: after ∧ (∀ b ∈ before, score b < score a) ∧
    ∀ b ∈ after, score b ≤ score a

namespace FirstHighest

variable {α β : Type} {score other : α → Nat} {as : List α} {a b : α}

theorem mem (h : FirstHighest score as a) : a ∈ as := by
  obtain ⟨before, after, rfl, -, -⟩ := h
  simp

theorem le (h : FirstHighest score as a) (hb : b ∈ as) : score b ≤ score a := by
  obtain ⟨before, after, rfl, hbefore, hafter⟩ := h
  rcases List.mem_append.1 hb with hb | hb
  · exact Nat.le_of_lt (hbefore b hb)
  · rcases List.mem_cons.1 hb with rfl | hb
    · exact Nat.le_refl _
    · exact hafter b hb

theorem congr (h : FirstHighest score as a) (heq : ∀ b ∈ as, other b = score b) :
    FirstHighest other as a := by
  have ha := heq a h.mem
  obtain ⟨before, after, rfl, hbefore, hafter⟩ := h
  refine ⟨before, after, rfl, ?_, ?_⟩
  · intro b hb
    rw [ha, heq b (by simp [hb])]
    exact hbefore b hb
  · intro b hb
    rw [ha, heq b (by simp [hb])]
    exact hafter b hb

theorem map {f : β → α} {bs : List β} {b : β}
    (h : FirstHighest (fun b => score (f b)) bs b) : FirstHighest score (bs.map f) (f b) := by
  obtain ⟨before, after, rfl, hbefore, hafter⟩ := h
  exact ⟨before.map f, after.map f, by simp, by simpa using hbefore, by simpa using hafter⟩

/-- One more element takes the place of the first highest only if it is higher. -/
theorem append_singleton (h : FirstHighest score as a) (next : α) :
    FirstHighest score (as ++ [next]) (if score a < score next then next else a) := by
  split
  · rename_i hlt
    refine ⟨as, [], rfl, ?_, by simp⟩
    intro b hb
    exact Nat.lt_of_le_of_lt (h.le hb) hlt
  · rename_i hge
    obtain ⟨before, after, rfl, hbefore, hafter⟩ := h
    refine ⟨before, after ++ [next], by simp, hbefore, ?_⟩
    intro b hb
    rcases List.mem_append.1 hb with hb | hb
    · exact hafter b hb
    · rw [List.mem_singleton.1 hb]
      exact Nat.le_of_not_lt hge

/-- Comparing one element after the other with the best so far finds the first highest. -/
theorem foldl (score : α → Nat) (first : α) (rest : List α) :
    FirstHighest score (first :: rest)
      (rest.foldl (fun best next => if score best < score next then next else best) first) := by
  induction rest using List.reverseRecOn with
  | nil => exact ⟨[], [], rfl, by simp, by simp⟩
  | append_singleton rest next ih =>
    rw [List.foldl_append]
    exact ih.append_singleton next

/-- The first element that reaches the bound of all scores is the first highest. -/
theorem of_find? {top : Nat} (hbound : ∀ b ∈ as, score b ≤ top)
    (h : as.find? (fun b => score b = top) = some a) : FirstHighest score as a := by
  obtain ⟨ha, before, after, rfl, hbefore⟩ := List.find?_eq_some_iff_append.1 h
  simp only [decide_eq_true_eq, Bool.not_eq_true', decide_eq_false_iff_not] at ha hbefore
  refine ⟨before, after, rfl, ?_, ?_⟩
  · intro b hb
    rw [ha]
    exact Nat.lt_of_le_of_ne (hbound b (by simp [hb])) (hbefore b hb)
  · intro b hb
    rw [ha]
    exact hbound b (by simp [hb])

/-- If any element reaches the bound of all scores, the first highest is the first that does. -/
theorem eq_of_find? {top : Nat} (h : FirstHighest score as a) (hbound : ∀ b ∈ as, score b ≤ top)
    (hfind : as.find? (fun b => score b = top) = some b) : b = a := by
  have hb := List.find?_some hfind
  have htop : score a = top := by
    have hle := h.le (List.mem_of_find?_eq_some hfind)
    have hbound := hbound a h.mem
    simp only [decide_eq_true_eq] at hb
    omega
  obtain ⟨before, after, rfl, hbefore, -⟩ := h
  have hnone : before.find? (fun b => score b = top) = none := by
    rw [List.find?_eq_none]
    intro b hb
    have := hbefore b hb
    simp only [decide_eq_true_eq]
    omega
  rw [List.find?_append, hnone, Option.none_or, List.find?_cons_of_pos (by simpa using htop)]
    at hfind
  exact (Option.some.inj hfind).symm

end FirstHighest

namespace Hawkeye

open ReplacementPolicy

variable {sets ways top : Nat} {p p' : Hawkeye} {line : LineId} {candidates : List LineId}
  {states : List (LineId × Counter)}

/-! ## The two rules -/

theorem highest_firstHighest {best : LineId × Counter} (h : highest states = some best) :
    FirstHighest (fun state => state.2.value) states best := by
  cases states with
  | nil => cases h
  | cons first rest =>
    obtain rfl := Option.some.inj h
    exact .foldl (fun state : LineId × Counter => state.2.value) first rest

/-- Where all counters have the same maximum, either rule selects the first of the highest. -/
theorem select_firstHighest (htop : ∀ state ∈ states, state.2.max = top)
    (h : select states = some line) :
    ∃ counter, FirstHighest (fun state => state.2.value) states (line, counter) := by
  unfold select at h
  split at h
  · rename_i found counter hfind
    obtain rfl := Option.some.inj h
    have hbound : ∀ state ∈ states, state.2.value ≤ top := by
      intro state hstate
      exact htop state hstate ▸ state.2.value_le
    refine ⟨counter, .of_find? hbound ?_⟩
    · have hsaturated : ∀ state ∈ states,
          decide (state.2.value = top) = state.2.isSaturated := by
        intro state hstate
        simp [Counter.isSaturated, htop state hstate, Bool.beq_eq_decide_eq]
      rw [← hfind, ← List.head?_filter, ← List.head?_filter, List.filter_congr hsaturated]
  · obtain ⟨best, hbest, rfl⟩ := Option.map_eq_some_iff.1 h
    exact ⟨best.2, highest_firstHighest hbest⟩

/-! ## The states that calls lead to -/

/-- The re-reference value of a slot. -/
def rrpv (p : Hawkeye) (line : LineId) : Nat :=
  match p.lines.get line with
  | .ok state => state.rrpv.value
  | .error _ => 0

/-- Whether a slot holds a block. -/
def isValid (p : Hawkeye) (line : LineId) : Bool :=
  p.lines.test (·.valid) line

theorem rrpv_of_get {state : HawkeyeLine} (h : p.lines.get line = .ok state) :
    p.rrpv line = state.rrpv.value := by
  rw [rrpv, h]

/-- All values of the geometry have the maximum `top`. -/
def Ranged (sets ways top : Nat) (p : Hawkeye) : Prop :=
  ∀ line state, line.Within sets ways → p.lines.get line = .ok state → state.rrpv.max = top

theorem Ranged.rrpv_le (h : Ranged sets ways top p) (hl : line.Within sets ways) :
    p.rrpv line ≤ top := by
  rw [rrpv]
  split
  · rename_i state hstate
    exact h line state hl hstate ▸ state.rrpv.value_le
  · exact Nat.zero_le top

theorem Rewritten.ranged {state : HawkeyeLine} {o : Oracle Nat}
    (h : Rewritten sets ways p line state o p') (hp : Ranged sets ways top p)
    (hstate : state.rrpv.max = top) : Ranged sets ways top p' := by
  intro other found ho hfound
  rw [h.get_eq other ho] at hfound
  split at hfound
  · obtain rfl := Except.ok.inj hfound
    exact hstate
  · exact hp other found ho hfound

/-- No call changes the range of a value. -/
theorem Ranged.perform {touches : Nat} {occupied : LineId → Bool} {call : PolicyCall}
    {answer : Option LineId} (h : Ranged sets ways top p)
    (hserves : Serves sets ways touches occupied p) (hcall : call.Within sets ways)
    (hp : perform p call = .ok (answer, p')) : Ranged sets ways top p' := by
  cases call with
  | touch line =>
    obtain ⟨state, o, prediction, o', hstate, -, -, -, hrewritten⟩ :=
      hserves.touch_eq_ok hcall (perform_touch_iff.1 hp).2
    refine hrewritten.ranged h ?_
    have hmax := h line state hcall hstate
    split <;> simpa using hmax
  | fill line tag =>
    obtain ⟨state, o, hstate, -, hrewritten⟩ :=
      hserves.forget_eq_ok hcall (perform_fill_iff.1 hp).2
    exact hrewritten.ranged h (h line state hcall hstate)
  | invalidate line =>
    obtain ⟨state, o, hstate, -, hrewritten⟩ :=
      hserves.forget_eq_ok hcall (perform_invalidate_iff.1 hp).2
    exact hrewritten.ranged h (h line state hcall hstate)
  | victim candidates =>
    obtain ⟨choice, p₁, hp₁, -, -, -, hagree⟩ := victim_spec hserves.records hcall
    obtain ⟨-, rfl⟩ := Prod.mk.inj (Except.ok.inj (hp₁.symm.trans hp))
    intro line state hl hstate
    obtain ⟨old, new, hold, hnew, -, -, hmax⟩ := hagree line hl
    obtain rfl := Except.ok.inj (hstate.symm.trans hnew)
    exact hmax.trans (h line old hl hold)

theorem new_ranged {settings : HawkeyeSettings}
    (h : Hawkeye.new sets ways settings = .ok p) :
    Ranged sets ways (2 ^ settings.rrpvBits.toNat - 1) p := by
  obtain ⟨rrpv, oracle, -, -, hrrpv, -, hfits, rfl⟩ := new_eq_ok_iff.1 h
  intro line state hl hstate
  rw [Slots.get_uniform hfits hl] at hstate
  obtain rfl := Except.ok.inj hstate
  exact (Counter.new_eq_ok hrrpv).2

/-- What holds of a new policy, and of every policy that calls inside the geometry lead to. -/
theorem run_ranged {settings : HawkeyeSettings} {calls : List PolicyCall}
    (hnew : Hawkeye.new sets ways settings = .ok p)
    (hcalls : ∀ call ∈ calls, call.Within sets ways) (hrun : run p calls = .ok p') :
    p'.lines.Shaped sets ways ∧ Ranged sets ways (2 ^ settings.rrpvBits.toNat - 1) p' := by
  have h : Delivers (run p calls) (fun _ => True) fun p' =>
      (∃ touches occupied, Serves sets ways touches occupied p') ∧
        Ranged sets ways (2 ^ settings.rrpvBits.toNat - 1) p' := by
    refine Delivers.foldlM_history (motive := fun _ p' =>
      (∃ touches occupied, Serves sets ways touches occupied p') ∧
        Ranged sets ways (2 ^ settings.rrpvBits.toNat - 1) p')
      ⟨⟨_, _, new_serves hnew⟩, new_ranged hnew⟩ ?_
    rintro done call p' hdone ⟨⟨touches, occupied, hserves⟩, hranged⟩
    have hcall : call.Within sets ways := hcalls call (hdone.subset (by simp))
    refine .of_forall_ok fun p'' hstep => ?_
    obtain ⟨⟨answer, p''⟩, hperform, heq⟩ := bind_eq_ok_iff.1 hstep
    obtain rfl := Except.ok.inj heq
    exact ⟨LawfulPolicy.serves_perform (σ := Hawkeye) hserves hcall hperform,
      hranged.perform hserves hcall hperform⟩
  obtain ⟨⟨touches, occupied, hserves⟩, hranged⟩ := h.of_ok hrun
  exact ⟨hserves.records.shaped, hranged⟩

/-! ## The victim -/

theorem Ranged.exists_states (h : Ranged sets ways top p) (hshaped : p.lines.Shaped sets ways)
    (hc : ∀ line ∈ candidates, line.Within sets ways) :
    ∃ states, candidates.mapM (fun line => return (line, (← p.lines.get line).rrpv)) =
      .ok states ∧ states.map (·.1) = candidates ∧
      ∀ state ∈ states, state.2.value = p.rrpv state.1 ∧ state.2.max = top := by
  have hstep : ∀ line ∈ candidates, ∃ state : LineId × Counter,
      (do return (line, (← p.lines.get line).rrpv) : Checked _) = .ok state ∧
        line = state.1 ∧ state.2.value = p.rrpv state.1 ∧ state.2.max = top := by
    intro line hl
    obtain ⟨state, hstate⟩ := hshaped.exists_get (hc line hl)
    refine ⟨(line, state.rrpv), by rw [hstate]; rfl, rfl, ?_, h line state (hc line hl) hstate⟩
    rw [rrpv_of_get hstate]
  obtain ⟨states, hstates, hall⟩ := mapM_eq_ok hstep
  refine ⟨states, hstates, ?_, ?_⟩
  · have hlines := hall.imp fun _ _ hspec => hspec.1
    rw [← List.forall₂_map_right_iff, List.forall₂_eq_eq_eq] at hlines
    exact hlines.symm
  · clear hstates
    induction hall with
    | nil => simp
    | cons hspec _ ih =>
      intro state hstate
      rcases List.mem_cons.1 hstate with rfl | hmem
      · exact hspec.2
      · exact ih (fun line hl => hc line (by simp [hl])) (fun line hl => hstep line (by simp [hl]))
          state hmem

/-- What asking for a victim among some candidates comes to. -/
structure GivesUp (sets ways top : Nat) (p : Hawkeye) (candidates : List LineId)
    (choice : Option LineId) (p' : Hawkeye) : Prop where
  none_iff : choice = none ↔ candidates = []
  /-- The first vacant candidate is given up, if there is one, and nothing changes. -/
  vacant : ∀ line, candidates.find? (fun line => !p.isValid line) = some line →
    choice = some line ∧ p' = p
  /-- Otherwise it is the first of those with the highest value. -/
  highest : (∀ line ∈ candidates, p.isValid line) → ∀ line, choice = some line →
    FirstHighest p.rrpv candidates line
  /-- The first candidate at the maximum, if there is one, is no other. -/
  saturated : (∀ line ∈ candidates, p.isValid line) → ∀ line,
    candidates.find? (fun line => p.rrpv line = top) = some line → choice = some line
  /-- The other candidates age. -/
  aged : (∀ line ∈ candidates, p.isValid line) → ∀ line ∈ candidates, choice ≠ some line →
    ∃ old new, p.lines.get line = .ok old ∧ p'.lines.get line = .ok new ∧ old.Agrees new ∧
      new.rrpv.value = min (old.rrpv.value + 1) top
  /-- The victim and all lines that are no candidates stay as they are. -/
  kept : ∀ line, line.Within sets ways → choice = some line ∨ line ∉ candidates →
    p'.lines.get line = p.lines.get line
  oracles_eq : p'.oracles = p.oracles

theorem GivesUp.of_nil : GivesUp sets ways top p [] none p where
  none_iff := by simp
  vacant := by simp
  highest := by simp
  saturated := by simp
  aged := by simp
  kept _ _ _ := rfl
  oracles_eq := rfl

theorem GivesUp.of_vacant (h : candidates.find? (fun line => !p.isValid line) = some line) :
    GivesUp sets ways top p candidates (some line) p := by
  have hmem := List.mem_of_find?_eq_some h
  have hnot : ¬ ∀ line ∈ candidates, p.isValid line := by
    intro hfull
    have := List.find?_some h
    simp [hfull line hmem] at this
  exact {
    none_iff := by simpa using List.ne_nil_of_mem hmem
    vacant := fun other hother => ⟨h.symm.trans hother, rfl⟩
    highest := fun hfull => absurd hfull hnot
    saturated := fun hfull => absurd hfull hnot
    aged := fun hfull => absurd hfull hnot
    kept := fun _ _ _ => rfl
    oracles_eq := rfl }

/-- Among full candidates, the first of the highest is given up once the others have aged. -/
theorem Ranged.givesUp (h : Ranged sets ways top p) (hshaped : p.lines.Shaped sets ways)
    (hc : ∀ line ∈ candidates, line.Within sets ways) (hn : candidates.Nodup)
    (hfull : candidates.find? (fun line => !p.isValid line) = none)
    (hfirst : FirstHighest p.rrpv candidates line) (hp : p.age line candidates = .ok p') :
    GivesUp sets ways top p candidates (some line) p' := by
  obtain ⟨horacles, hget⟩ := age_get hshaped hc hn hp
  exact {
    none_iff := by simpa using List.ne_nil_of_mem hfirst.mem
    vacant := fun other hother => by cases hfull.symm.trans hother
    highest := by
      rintro - _ ⟨⟩
      exact hfirst
    saturated := by
      intro _ other hother
      exact congrArg some (hfirst.eq_of_find? (fun b hb => h.rrpv_le (hc b hb)) hother).symm
    aged := by
      intro _ other hmem hne
      obtain ⟨state, hstate, hstate'⟩ := hget other (hc other hmem)
      rw [if_pos ⟨hmem, fun heq => hne (congrArg some heq.symm)⟩] at hstate'
      refine ⟨state, state.aged, hstate, hstate', ⟨rfl, rfl, rfl⟩, ?_⟩
      rw [← h other state (hc other hmem) hstate]
      rfl
    kept := by
      intro other hl hspared
      obtain ⟨state, hstate, hstate'⟩ := hget other hl
      rw [hstate, hstate', if_neg]
      rintro ⟨hmem, hne⟩
      rcases hspared with heq | hnot
      · exact hne (Option.some.inj heq).symm
      · exact hnot hmem
    oracles_eq := horacles }

/-- Where all values have the same range, the search for a victim never faults, and gives up the
first of the highest. -/
theorem Ranged.victim (h : Ranged sets ways top p) (hshaped : p.lines.Shaped sets ways)
    (hc : ∀ line ∈ candidates, line.Within sets ways) (hn : candidates.Nodup) :
    ∃ choice p', Hawkeye.victim p candidates = .ok (choice, p') ∧
      GivesUp sets ways top p candidates choice p' := by
  have hrecords : p.lines.Records sets ways (·.valid) p.isValid := hshaped.records _
  rw [Hawkeye.victim, hrecords.firstWhere_not hc, ok_bind]
  cases hvacant : candidates.find? fun line => !p.isValid line with
  | some line => exact ⟨some line, p, rfl, .of_vacant hvacant⟩
  | none =>
    obtain ⟨states, hstates, hlines, hspec⟩ := h.exists_states hshaped hc
    rw [hstates, ok_bind]
    cases hselect : select states with
    | none =>
      have hnil : candidates = [] := by
        by_contra hne
        have hsome : states ≠ [] := by
          rintro rfl
          exact hne (by simp [← hlines])
        obtain ⟨line, hline⟩ := select_isSome hsome
        rw [hselect] at hline
        cases hline
      subst hnil
      exact ⟨none, p, rfl, .of_nil⟩
    | some line =>
      obtain ⟨counter, hhighest⟩ := select_firstHighest (fun state hs => (hspec state hs).2) hselect
      have hfirst : FirstHighest p.rrpv candidates line := by
        rw [← hlines]
        exact (hhighest.congr fun state hs => (hspec state hs).1.symm).map
      obtain ⟨p', hp', -⟩ := age_spec hshaped hc line
      exact ⟨some line, p', by simp only [hp']; rfl, h.givesUp hshaped hc hn hvacant hfirst hp'⟩

/-- **The first of the highest is given up**, in every state that calls to a new policy lead to, and
among any candidates. -/
theorem run_gives_up {settings : HawkeyeSettings} {calls : List PolicyCall}
    (hnew : Hawkeye.new sets ways settings = .ok p)
    (hcalls : ∀ call ∈ calls, call.Within sets ways) (hrun : run p calls = .ok p')
    (hc : ∀ line ∈ candidates, line.Within sets ways) (hn : candidates.Nodup) :
    ∃ choice p'', Hawkeye.victim p' candidates = .ok (choice, p'') ∧
      GivesUp sets ways (2 ^ settings.rrpvBits.toNat - 1) p' candidates choice p'' := by
  obtain ⟨hshaped, hranged⟩ := run_ranged hnew hcalls hrun
  exact hranged.victim hshaped hc hn

/-- Three full ways, of which the second and the third have the highest value: the second is given
up. -/
theorem run_gives_up_second_way :
    ∃ p p', Hawkeye.new 1 3 ⟨2, 2⟩ = .ok p ∧
      (∀ call ∈ [PolicyCall.fill ⟨0, 0⟩ 5, .fill ⟨0, 1⟩ 6, .fill ⟨0, 2⟩ 7, .touch ⟨0, 0⟩,
        .touch ⟨0, 0⟩], call.Within 1 3) ∧
      run p [PolicyCall.fill ⟨0, 0⟩ 5, .fill ⟨0, 1⟩ 6, .fill ⟨0, 2⟩ 7, .touch ⟨0, 0⟩,
        .touch ⟨0, 0⟩] = .ok p' ∧
      (∀ line ∈ [LineId.mk 0 0, ⟨0, 1⟩, ⟨0, 2⟩], line.Within 1 3) ∧
      [LineId.mk 0 0, ⟨0, 1⟩, ⟨0, 2⟩].Nodup ∧
      ∃ p'', Hawkeye.victim p' [⟨0, 0⟩, ⟨0, 1⟩, ⟨0, 2⟩] = .ok (some ⟨0, 1⟩, p'') ∧
        GivesUp 1 3 3 p' [⟨0, 0⟩, ⟨0, 1⟩, ⟨0, 2⟩] (some ⟨0, 1⟩) p'' := by
  have hsearch : ∃ p, Hawkeye.new 1 3 ⟨2, 2⟩ = .ok p ∧
      ((run p [PolicyCall.fill ⟨0, 0⟩ 5, .fill ⟨0, 1⟩ 6, .fill ⟨0, 2⟩ 7, .touch ⟨0, 0⟩,
        .touch ⟨0, 0⟩] >>= fun p' => Hawkeye.victim p' [⟨0, 0⟩, ⟨0, 1⟩, ⟨0, 2⟩]).map
          Prod.fst).toOption = some (some ⟨0, 1⟩) := ⟨_, rfl, by decide⟩
  obtain ⟨p, hnew, hsearch⟩ := hsearch
  cases hrun : run p [PolicyCall.fill ⟨0, 0⟩ 5, .fill ⟨0, 1⟩ 6, .fill ⟨0, 2⟩ 7, .touch ⟨0, 0⟩,
    .touch ⟨0, 0⟩] with
  | error fault =>
    rw [hrun] at hsearch
    cases hsearch
  | ok p' =>
    have hcandidates : ∀ line ∈ [LineId.mk 0 0, ⟨0, 1⟩, ⟨0, 2⟩], line.Within 1 3 := by decide
    obtain ⟨choice, p'', hvictim, h⟩ := run_gives_up hnew (by decide) hrun hcandidates (by decide)
    rw [hrun, ok_bind, hvictim] at hsearch
    obtain rfl := Option.some.inj hsearch
    exact ⟨p, p', hnew, by decide, hrun, by decide, by decide, p'', hvictim, h⟩

end Hawkeye

end Residency
