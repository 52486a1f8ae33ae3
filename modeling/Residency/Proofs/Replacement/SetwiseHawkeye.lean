import Residency.Proofs.Oracle.Alike
import Residency.Proofs.Replacement.Hawkeye
import Residency.Proofs.Replacement.Setwise

/-!
# The oracle-trained policy decides set by set

Two states of the policy are alike for a set if the re-reference values of its occupied ways are the
same and its oracles agree on these ways. The value of a vacant way is not looked at before a fill
takes it to the maximum, so only the maximum has to be the same.
-/

namespace Residency

/-- The re-reference values have the same range, and they are the same if the slot is occupied. -/
structure HawkeyeLine.Alike (occupied : Bool) (a b : HawkeyeLine) : Prop where
  saturate_eq : b.rrpv.saturate = a.rrpv.saturate
  rrpv_eq : occupied = true → b.rrpv = a.rrpv

/-- The state of a slot after its value has been pushed up. -/
def HawkeyeLine.aged (state : HawkeyeLine) : HawkeyeLine :=
  { state with rrpv := state.rrpv.increment }

theorem HawkeyeLine.Alike.aged {occupied : Bool} {a b : HawkeyeLine} (h : a.Alike occupied b) :
    a.aged.Alike occupied b.aged where
  saturate_eq := h.saturate_eq
  rrpv_eq := fun hoccupied => congrArg Counter.increment (h.rrpv_eq hoccupied)

namespace Hawkeye

variable {sets set ways touches : Nat} {record : LineId → Bool} {p p' q q' : Hawkeye}
  {line spared : LineId} {candidates : List LineId} {answer : Option LineId} {o : Oracle Nat}
  {state : HawkeyeLine}

/-! ## What the operations rewrite -/

/-- One line and the oracle of its set have been rewritten. -/
structure Rewritten (sets ways : Nat) (p : Hawkeye) (line : LineId) (state : HawkeyeLine)
    (o : Oracle Nat) (p' : Hawkeye) : Prop where
  get_eq : ∀ other, other.Within sets ways →
    p'.lines.get other = if other = line then .ok state else p.lines.get other
  oracle_eq : ∀ set, p'.oracle set = if set = line.set then .ok o else p.oracle set

theorem Serves.rewritten (h : Serves sets ways touches record p) (hl : line.Within sets ways)
    {lines : Slots HawkeyeLine} (hlines : p.lines.set line state = .ok lines) (o : Oracle Nat) :
    Rewritten sets ways p line state o ⟨lines, p.oracles.setIfInBounds line.set o⟩ where
  get_eq := fun _ ho => h.records.shaped.get_set hl ho hlines
  oracle_eq := by
    intro set
    have hlt : line.set < p.oracles.size := h.size_eq ▸ hl.1
    simp only [oracle, Array.getElem?_setIfInBounds]
    by_cases hset : set = line.set
    · subst hset
      simp [hlt]
    · simp [hset, Ne.symm hset]

/-- A touch asks the oracle, tells it, and moves the value of the line accordingly. -/
theorem Serves.touch_eq_ok (h : Serves sets ways touches record p) (hl : line.Within sets ways)
    (hp : p.touch line = .ok p') :
    ∃ state o prediction o', p.lines.get line = .ok state ∧ p.oracle line.set = .ok o ∧
      o.predict line.way = .ok prediction ∧
      o.insert line.way prediction.isFriendly = .ok o' ∧
      Rewritten sets ways p line
        { state with
          rrpv := if prediction.isFriendly then state.rrpv.decrement else state.rrpv.increment }
        o' p' := by
  obtain ⟨o, ho, horacle⟩ := h.exists_oracle hl
  obtain ⟨prediction, hprediction⟩ := ho.predict_isOk line.way
  obtain ⟨state, lines, hstate, hmodify, hset⟩ := h.records.shaped.modify_eq hl fun state =>
    { state with
      rrpv := if prediction.isFriendly then state.rrpv.decrement else state.rrpv.increment }
  simp only [touch, hstate, ok_bind, h.records.shaped.home_eq hl, horacle, hprediction] at hp
  obtain ⟨o', ho', hp⟩ := bind_eq_ok_iff.1 hp
  rw [modifyLine, setOracle, hmodify] at hp
  obtain rfl := Except.ok.inj hp
  exact ⟨state, o, prediction, o', hstate, horacle, hprediction, ho', h.rewritten hl hset o'⟩

/-- A fill and an invalidation make the oracle forget the line, and rewrite it. -/
theorem Serves.forget_eq_ok (h : Serves sets ways touches record p) (hl : line.Within sets ways)
    {f : HawkeyeLine → HawkeyeLine}
    (hp : (do (← p.forget line).modifyLine line f) = .ok p') :
    ∃ state o, p.lines.get line = .ok state ∧ p.oracle line.set = .ok o ∧
      Rewritten sets ways p line (f state) (o.remove line.way) p' := by
  obtain ⟨o, -, horacle⟩ := h.exists_oracle hl
  obtain ⟨state, lines, hstate, hmodify, hset⟩ := h.records.shaped.modify_eq hl f
  rw [forget, hstate, ok_bind, horacle, ok_bind, pure_eq_ok, ok_bind, h.records.shaped.home_eq hl,
    modifyLine, setOracle, hmodify] at hp
  obtain rfl := Except.ok.inj hp
  exact ⟨state, o, hstate, horacle, h.rewritten hl hset _⟩

/-- Ageing pushes the value of each candidate up, but for the one that is spared. -/
theorem age_get (h : p.lines.Shaped sets ways)
    (hc : ∀ line ∈ candidates, line.Within sets ways) (hn : candidates.Nodup)
    (hp : p.age spared candidates = .ok p') :
    p'.oracles = p.oracles ∧ ∀ line, line.Within sets ways → ∃ state,
      p.lines.get line = .ok state ∧ p'.lines.get line =
        .ok (if line ∈ candidates ∧ line ≠ spared then state.aged else state) := by
  induction candidates generalizing p with
  | nil =>
    obtain rfl := Except.ok.inj hp
    refine ⟨rfl, fun line hl => ?_⟩
    obtain ⟨state, hstate⟩ := h.exists_get hl
    exact ⟨state, hstate, by simp [hstate]⟩
  | cons candidate rest ih =>
    obtain ⟨hnot, hnodup⟩ := List.nodup_cons.1 hn
    have hrest : ∀ line ∈ rest, line.Within sets ways := fun line hl => hc line (by simp [hl])
    rw [age, List.foldlM_cons] at hp
    split at hp
    · rename_i hspared
      obtain ⟨horacles, hget⟩ := ih h hrest hnodup hp
      refine ⟨horacles, fun line hl => ?_⟩
      obtain ⟨state, hstate, hstate'⟩ := hget line hl
      refine ⟨state, hstate, ?_⟩
      rw [hstate']
      congr 2
      subst hspared
      simp only [List.mem_cons, eq_iff_iff]
      tauto
    · rename_i hspared
      have hcandidate := hc candidate (by simp)
      obtain ⟨old, lines, hold, hmodify, hset⟩ := h.modify_eq hcandidate HawkeyeLine.aged
      have hmodify' : p.modifyLine candidate (fun state =>
          { state with rrpv := state.rrpv.increment }) = .ok { p with lines } := by
        show (do return { p with lines := ← p.lines.modify candidate HawkeyeLine.aged }) = _
        rw [hmodify]
        rfl
      rw [hmodify', ok_bind] at hp
      obtain ⟨horacles, hget⟩ := ih (p := { p with lines }) (h.set hset) hrest hnodup hp
      refine ⟨horacles, fun line hl => ?_⟩
      obtain ⟨state, hstate, hstate'⟩ := hget line hl
      rw [h.get_set hcandidate hl hset] at hstate
      by_cases heq : line = candidate
      · subst heq
        rw [if_pos rfl] at hstate
        obtain rfl := Except.ok.inj hstate
        refine ⟨old, hold, ?_⟩
        rw [hstate', if_neg fun hmem => hnot hmem.1,
          if_pos ⟨List.mem_cons_self .., hspared⟩]
      · rw [if_neg heq] at hstate
        refine ⟨state, hstate, ?_⟩
        rw [hstate']
        simp [heq]

/-- In a full set the re-reference values decide. -/
theorem Serves.victim_of_full (h : Serves sets ways touches record p) (hset : set < sets)
    (hfull : ∀ way, way < ways → record ⟨set, way⟩ = true) {rrpv : Nat → Counter}
    (hrrpv : ∀ way, way < ways → ∃ state, p.lines.get ⟨set, way⟩ = .ok state ∧
      state.rrpv = rrpv way) :
    p.victim (LineId.ofSet set ways) =
      match select ((LineId.ofSet set ways).map fun line => (line, rrpv line.way)) with
      | none => .ok (none, p)
      | some line => do return (some line, ← p.age line (LineId.ofSet set ways)) := by
  have hc : ∀ line ∈ LineId.ofSet set ways, line.Within sets ways := fun line hl =>
    LineId.within_of_mem_ofSet hset hl
  have hvacant : ((LineId.ofSet set ways).find? fun line => !record line) = none := by
    rw [List.find?_eq_none]
    rintro ⟨s, way⟩ hl
    obtain ⟨rfl, hway⟩ := LineId.mem_ofSet.1 hl
    simp [hfull way hway]
  have hstep : ∀ line ∈ LineId.ofSet set ways, ∃ x,
      (do return (line, (← p.lines.get line).rrpv) : Checked _) = .ok x ∧
        (line, rrpv line.way) = x := by
    rintro ⟨s, way⟩ hl
    obtain ⟨rfl, hway⟩ := LineId.mem_ofSet.1 hl
    obtain ⟨state, hstate, hvalue⟩ := hrrpv way hway
    exact ⟨_, by rw [hstate, ok_bind, pure_eq_ok], by rw [← hvalue]⟩
  obtain ⟨states, hstates, hlines⟩ := mapM_eq_ok hstep
  rw [← List.forall₂_map_left_iff, List.forall₂_eq_eq_eq] at hlines
  rw [victim, h.records.firstWhere_not hc, hvacant, ok_bind, hstates, ok_bind, ← hlines]
  rfl

theorem Serves.exists_rrpvs (h : Serves sets ways touches record p) (hset : set < sets) :
    ∃ rrpv : Nat → Counter, ∀ way, way < ways → ∃ state,
      p.lines.get ⟨set, way⟩ = .ok state ∧ state.rrpv = rrpv way := by
  refine ⟨fun way => match p.lines.get ⟨set, way⟩ with
    | .ok state => state.rrpv
    | .error _ => ⟨0, 0, 0, Nat.le_refl 0, Nat.le_refl 0⟩, fun way hway => ?_⟩
  have hl : LineId.Within ⟨set, way⟩ sets ways := ⟨hset, hway⟩
  obtain ⟨state, hstate⟩ := h.records.shaped.exists_get hl
  exact ⟨state, hstate, by simp only [hstate]⟩

/-- The lines of a full set age, but for the one that is given up. Otherwise nothing changes. -/
theorem Serves.victim_get (h : Serves sets ways touches record p) (hset : set < sets)
    (hp : p.victim (LineId.ofSet set ways) = .ok (answer, p')) :
    p'.oracles = p.oracles ∧ ∀ line, line.Within sets ways → ∃ state,
      p.lines.get line = .ok state ∧ p'.lines.get line =
        .ok (if line.set = set ∧ answer ≠ some line ∧
          (∀ way, way < ways → record ⟨set, way⟩ = true) then state.aged else state) := by
  have hc : ∀ line ∈ LineId.ofSet set ways, line.Within sets ways := fun line hl =>
    LineId.within_of_mem_ofSet hset hl
  by_cases hfull : ∀ way, way < ways → record ⟨set, way⟩ = true
  · obtain ⟨rrpv, hrrpv⟩ := h.exists_rrpvs hset
    rw [h.victim_of_full hset hfull hrrpv] at hp
    cases hselect : select ((LineId.ofSet set ways).map fun line => (line, rrpv line.way)) with
    | none =>
      -- Nothing is selected only where there are no candidates.
      rw [hselect] at hp
      obtain ⟨rfl, rfl⟩ := Prod.mk.inj (Except.ok.inj hp)
      refine ⟨rfl, fun line hl => ?_⟩
      obtain ⟨state, hstate⟩ := h.records.shaped.exists_get hl
      refine ⟨state, hstate, ?_⟩
      rw [hstate, if_neg]
      rintro ⟨hline, -⟩
      have hmem : line ∈ LineId.ofSet set ways := LineId.mem_ofSet.2 ⟨hline, hl.2⟩
      have hne : (LineId.ofSet set ways).map (fun line => (line, rrpv line.way)) ≠ [] :=
        List.ne_nil_of_mem (List.mem_map_of_mem hmem)
      obtain ⟨chosen, hchosen⟩ := select_isSome hne
      rw [hselect] at hchosen
      cases hchosen
    | some chosen =>
      rw [hselect] at hp
      obtain ⟨p₁, hp₁, heq⟩ := bind_eq_ok_iff.1 hp
      obtain ⟨rfl, rfl⟩ := Prod.mk.inj (Except.ok.inj heq)
      have hnodup : (LineId.ofSet set ways).Nodup :=
        List.nodup_range.map fun a b hab => congrArg LineId.way hab
      obtain ⟨horacles, hget⟩ := age_get h.records.shaped hc hnodup hp₁
      refine ⟨horacles, fun line hl => ?_⟩
      obtain ⟨state, hstate, hstate'⟩ := hget line hl
      refine ⟨state, hstate, ?_⟩
      rw [hstate']
      congr 2
      simp only [LineId.mem_ofSet, hl.2, and_true, Ne, Option.some.injEq, eq_iff_iff,
        and_congr_right_iff]
      intro _
      exact ⟨fun hne => ⟨fun heq => hne heq.symm, hfull⟩, fun hne heq => hne.1 heq.symm⟩
  · cases hvacant : (LineId.ofSet set ways).find? fun line => !record line with
    | none =>
      refine absurd (fun way hway => ?_) hfull
      have hnot := List.find?_eq_none.1 hvacant ⟨set, way⟩ (LineId.mem_ofSet.2 ⟨rfl, hway⟩)
      simpa using hnot
    | some line =>
      rw [victim, h.records.firstWhere_not hc, hvacant, ok_bind] at hp
      obtain ⟨rfl, rfl⟩ := Prod.mk.inj (Except.ok.inj hp)
      refine ⟨rfl, fun line hl => ?_⟩
      obtain ⟨state, hstate⟩ := h.records.shaped.exists_get hl
      exact ⟨state, hstate, by rw [hstate, if_neg fun hcond => hfull hcond.2.2]⟩

/-! ## Agreement on a set -/

/-- The two states agree on the occupied ways of a set. -/
structure Alike (set ways : Nat) (occupied : Nat → Bool) (p q : Hawkeye) : Prop where
  lines : ∀ way, way < ways → ∃ a b, p.lines.get ⟨set, way⟩ = .ok a ∧
    q.lines.get ⟨set, way⟩ = .ok b ∧ a.Alike (occupied way) b
  oracles : ∃ o o', p.oracle set = .ok o ∧ q.oracle set = .ok o' ∧ o.Alike occupied o'

namespace Alike

variable {occupied : Nat → Bool} {o o' : Oracle Nat} {state state' : HawkeyeLine} {way : Nat}
  {now : Bool}

theorem symm (h : Alike set ways occupied p q) : Alike set ways occupied q p where
  lines := by
    intro way hway
    obtain ⟨a, b, ha, hb, hab⟩ := h.lines way hway
    exact ⟨b, a, hb, ha, hab.saturate_eq.symm, fun hoccupied => (hab.rrpv_eq hoccupied).symm⟩
  oracles := by
    obtain ⟨o, o', ho, ho', halike⟩ := h.oracles
    exact ⟨o', o, ho', ho, halike.symm⟩

theorem vacant (h : Alike set ways occupied p q) : Alike set ways (fun _ => false) p q where
  lines := by
    intro way hway
    obtain ⟨a, b, ha, hb, hab⟩ := h.lines way hway
    exact ⟨a, b, ha, hb, hab.saturate_eq, fun hfalse => absurd hfalse Bool.false_ne_true⟩
  oracles := by
    obtain ⟨o, o', ho, ho', halike⟩ := h.oracles
    exact ⟨o, o', ho, ho', halike.vacant⟩

theorem rewrite (h : Alike set ways occupied p q) (hset : set < sets)
    (hp : Rewritten sets ways p ⟨set, way⟩ state o p')
    (hq : Rewritten sets ways q ⟨set, way⟩ state' o' q') (hstate : state.Alike now state')
    (ho : o.Alike (Function.update occupied way now) o') :
    Alike set ways (Function.update occupied way now) p' q' where
  lines := by
    intro other hother
    have hl : LineId.Within ⟨set, other⟩ sets ways := ⟨hset, hother⟩
    rw [hp.get_eq _ hl, hq.get_eq _ hl]
    by_cases heq : other = way
    · subst heq
      exact ⟨state, state', by rw [if_pos rfl], by rw [if_pos rfl],
        by rwa [Function.update_self]⟩
    · have hne : (⟨set, other⟩ : LineId) ≠ ⟨set, way⟩ := fun hsame =>
        heq (congrArg LineId.way hsame)
      rw [if_neg hne, if_neg hne, Function.update_of_ne heq]
      exact h.lines other hother
  oracles := ⟨o, o', by rw [hp.oracle_eq, if_pos rfl], by rw [hq.oracle_eq, if_pos rfl], ho⟩

theorem rewrite_other (h : Alike set ways occupied p q) (hset : set < sets)
    (hp : Rewritten sets ways p line state o p') (hne : line.set ≠ set) :
    Alike set ways occupied p' q where
  lines := by
    intro way hway
    have hother : (⟨set, way⟩ : LineId) ≠ line := by
      rintro rfl
      exact hne rfl
    rw [hp.get_eq _ ⟨hset, hway⟩, if_neg hother]
    exact h.lines way hway
  oracles := by
    rw [hp.oracle_eq, if_neg hne.symm]
    exact h.oracles

/-- One side rewrites a line, and nothing is occupied. -/
theorem rewrite_vacant (h : Alike set ways (fun _ => false) p q) (hset : set < sets)
    {old : HawkeyeLine} (hold : p.lines.get ⟨set, way⟩ = .ok old) {before : Oracle Nat}
    (hbefore : p.oracle set = .ok before) (hp : Rewritten sets ways p ⟨set, way⟩ state o p')
    (hstate : state.rrpv.saturate = old.rrpv.saturate)
    (ho : ∀ other, before.Alike (fun _ => false) other → o.Alike (fun _ => false) other) :
    Alike set ways (fun _ => false) p' q where
  lines := by
    intro other hother
    obtain ⟨a, b, ha, hb, hab⟩ := h.lines other hother
    rw [hp.get_eq _ ⟨hset, hother⟩]
    by_cases heq : other = way
    · subst heq
      obtain rfl := Except.ok.inj (hold.symm.trans ha)
      exact ⟨state, b, by rw [if_pos rfl], hb, hab.saturate_eq.trans hstate.symm,
        fun hfalse => absurd hfalse Bool.false_ne_true⟩
    · have hne : (⟨set, other⟩ : LineId) ≠ ⟨set, way⟩ := fun hsame =>
        heq (congrArg LineId.way hsame)
      rw [if_neg hne]
      exact ⟨a, b, ha, hb, hab⟩
  oracles := by
    obtain ⟨first, second, hfirst, hsecond, halike⟩ := h.oracles
    obtain rfl := Except.ok.inj (hbefore.symm.trans hfirst)
    exact ⟨o, second, by rw [hp.oracle_eq, if_pos rfl], hsecond, ho second halike⟩

/-! ## Both are told -/

section

variable {touches' : Nat} {record' : LineId → Bool} {answer' : Option LineId}

/-- The oracles say the same of an occupied way, so its value moves the same way. -/
theorem touch (halike : Alike set ways occupied p q) (h : Serves sets ways touches record p)
    (h' : Serves sets ways touches' record' q) (hset : set < sets) (hway : way < ways)
    (hoccupied : occupied way = true) (hp : p.touch ⟨set, way⟩ = .ok p')
    (hq : q.touch ⟨set, way⟩ = .ok q') : Alike set ways occupied p' q' := by
  have hl : LineId.Within ⟨set, way⟩ sets ways := ⟨hset, hway⟩
  obtain ⟨a, o, prediction, o₁, ha, ho, hsays, ho₁, hwritten⟩ := h.touch_eq_ok hl hp
  obtain ⟨b, r, prediction', r₁, hb, hr, hsays', hr₁, hwritten'⟩ := h'.touch_eq_ok hl hq
  obtain ⟨first, second, hfirst, hsecond, holine⟩ := halike.lines way hway
  obtain rfl := Except.ok.inj (ha.symm.trans hfirst)
  obtain rfl := Except.ok.inj (hb.symm.trans hsecond)
  obtain ⟨first, second, hfirst, hsecond, horacle⟩ := halike.oracles
  obtain rfl := Except.ok.inj (ho.symm.trans hfirst)
  obtain rfl := Except.ok.inj (hr.symm.trans hsecond)
  obtain rfl : prediction' = prediction :=
    Except.ok.inj (hsays'.symm.trans ((horacle.predict_eq hoccupied).trans hsays))
  have hsame : Function.update occupied way true = occupied := by
    rw [← hoccupied, Function.update_eq_self]
  have hrrpv := holine.rrpv_eq hoccupied
  rw [← hsame]
  refine halike.rewrite hset hwritten hwritten' ⟨?_, fun _ => ?_⟩ ?_
  · dsimp only
    rw [hrrpv]
  · dsimp only
    rw [hrrpv]
  · rw [hsame]
    exact horacle.insert hoccupied ho₁ hr₁

/-- What is forgotten is forgotten by both. -/
theorem forget (halike : Alike set ways occupied p q) (h : Serves sets ways touches record p)
    (h' : Serves sets ways touches' record' q) (hset : set < sets) (hway : way < ways)
    {f : HawkeyeLine → HawkeyeLine}
    (hf : ∀ a b, a.Alike (occupied way) b → (f a).Alike now (f b))
    (hp : (do (← p.forget ⟨set, way⟩).modifyLine ⟨set, way⟩ f) = .ok p')
    (hq : (do (← q.forget ⟨set, way⟩).modifyLine ⟨set, way⟩ f) = .ok q') :
    Alike set ways (Function.update occupied way now) p' q' := by
  have hl : LineId.Within ⟨set, way⟩ sets ways := ⟨hset, hway⟩
  obtain ⟨a, o, ha, ho, hwritten⟩ := h.forget_eq_ok hl hp
  obtain ⟨b, r, hb, hr, hwritten'⟩ := h'.forget_eq_ok hl hq
  obtain ⟨first, second, hfirst, hsecond, holine⟩ := halike.lines way hway
  obtain rfl := Except.ok.inj (ha.symm.trans hfirst)
  obtain rfl := Except.ok.inj (hb.symm.trans hsecond)
  obtain ⟨first, second, hfirst, hsecond, horacle⟩ := halike.oracles
  obtain rfl := Except.ok.inj (ho.symm.trans hfirst)
  obtain rfl := Except.ok.inj (hr.symm.trans hsecond)
  exact halike.rewrite hset hwritten hwritten' (hf _ _ holine) (horacle.remove way now)

/-- In a full set all values are the same, so the same line is given up and the others age. -/
theorem victim
    (halike : Alike set ways (fun way => record ⟨set, way⟩) p q)
    (h : Serves sets ways touches record p) (h' : Serves sets ways touches' record' q)
    (hset : set < sets) (hagree : ∀ way, way < ways → record' ⟨set, way⟩ = record ⟨set, way⟩)
    (hp : p.victim (LineId.ofSet set ways) = .ok (answer, p'))
    (hq : q.victim (LineId.ofSet set ways) = .ok (answer', q')) :
    answer' = answer ∧ Alike set ways (fun way => record ⟨set, way⟩) p' q' := by
  have hanswer : answer' = answer := by
    by_cases hfull : ∀ way, way < ways → record ⟨set, way⟩ = true
    · obtain ⟨rrpv, hrrpv⟩ := h.exists_rrpvs hset
      have hrrpv' : ∀ way, way < ways → ∃ state, q.lines.get ⟨set, way⟩ = .ok state ∧
          state.rrpv = rrpv way := by
        intro way hway
        obtain ⟨state, hstate, hvalue⟩ := hrrpv way hway
        obtain ⟨a, b, ha, hb, hab⟩ := halike.lines way hway
        obtain rfl := Except.ok.inj (hstate.symm.trans ha)
        exact ⟨b, hb, (hab.rrpv_eq (hfull way hway)).trans hvalue⟩
      rw [h.victim_of_full hset hfull hrrpv] at hp
      rw [h'.victim_of_full hset (fun way hway => (hagree way hway).trans (hfull way hway))
        hrrpv'] at hq
      cases hselect : select ((LineId.ofSet set ways).map fun line => (line, rrpv line.way)) with
      | none =>
        rw [hselect] at hp hq
        rw [← (Prod.mk.inj (Except.ok.inj hp)).1, ← (Prod.mk.inj (Except.ok.inj hq)).1]
      | some chosen =>
        rw [hselect] at hp hq
        obtain ⟨_, -, heq⟩ := bind_eq_ok_iff.1 hp
        obtain ⟨_, -, heq'⟩ := bind_eq_ok_iff.1 hq
        rw [← (Prod.mk.inj (Except.ok.inj heq)).1, ← (Prod.mk.inj (Except.ok.inj heq')).1]
    · simp only [not_forall, Bool.not_eq_true] at hfull
      obtain ⟨way, hway, hvacant⟩ := hfull
      have hserves : LawfulPolicy.Serves sets ways touches record p := h
      have hserves' : LawfulPolicy.Serves sets ways touches' record' q := h'
      exact LawfulPolicy.victim_eq_of_vacancy hserves hserves' hset hagree hway hvacant hp hq
  obtain ⟨horacles, hget⟩ := h.victim_get hset hp
  obtain ⟨horacles', hget'⟩ := h'.victim_get hset hq
  have hfull_iff : (∀ way, way < ways → record' ⟨set, way⟩ = true) ↔
      ∀ way, way < ways → record ⟨set, way⟩ = true :=
    forall_congr' fun way => imp_congr_right fun hway => by rw [hagree way hway]
  refine ⟨hanswer, ?_, ?_⟩
  · intro way hway
    obtain ⟨a, ha, ha'⟩ := hget ⟨set, way⟩ ⟨hset, hway⟩
    obtain ⟨b, hb, hb'⟩ := hget' ⟨set, way⟩ ⟨hset, hway⟩
    obtain ⟨first, second, hfirst, hsecond, hab⟩ := halike.lines way hway
    obtain rfl := Except.ok.inj (ha.symm.trans hfirst)
    obtain rfl := Except.ok.inj (hb.symm.trans hsecond)
    refine ⟨_, _, ha', hb', ?_⟩
    simp only [hanswer, hfull_iff]
    split
    · exact hab.aged
    · exact hab
  · rw [oracle, oracle, horacles, horacles']
    exact halike.oracles

end

/-! ## One is told -/

/-- The choice of a victim in one set leaves the other sets as they are. -/
theorem victim_other {other : Nat} (halike : Alike set ways occupied p q)
    (h : Serves sets ways touches record p) (hset : set < sets) (hother : other < sets)
    (hne : other ≠ set) (hp : p.victim (LineId.ofSet other ways) = .ok (answer, p')) :
    Alike set ways occupied p' q := by
  obtain ⟨horacles, hget⟩ := h.victim_get hother hp
  constructor
  · intro way hway
    obtain ⟨a, ha, ha'⟩ := hget ⟨set, way⟩ ⟨hset, hway⟩
    rw [if_neg fun hcond => hne hcond.1.symm, ← ha] at ha'
    rw [ha']
    exact halike.lines way hway
  · rw [oracle, horacles]
    exact halike.oracles

/-- Ageing leaves the range of a value as it is. -/
theorem victim_vacant (halike : Alike set ways (fun _ => false) p q)
    (h : Serves sets ways touches record p) (hset : set < sets)
    (hp : p.victim (LineId.ofSet set ways) = .ok (answer, p')) :
    Alike set ways (fun _ => false) p' q := by
  obtain ⟨horacles, hget⟩ := h.victim_get hset hp
  constructor
  · intro way hway
    obtain ⟨a, ha, ha'⟩ := hget ⟨set, way⟩ ⟨hset, hway⟩
    obtain ⟨first, second, hfirst, hsecond, hab⟩ := halike.lines way hway
    obtain rfl := Except.ok.inj (ha.symm.trans hfirst)
    refine ⟨_, second, ha', hsecond, ?_, fun hfalse => absurd hfalse Bool.false_ne_true⟩
    split
    · exact hab.saturate_eq
    · exact hab.saturate_eq
  · rw [oracle, horacles]
    exact halike.oracles

end Alike

open ReplacementPolicy

instance : SetwisePolicy Hawkeye where
  Alike := Alike
  alike_symm h := h.symm
  alike_vacant h := h.vacant
  perform_alike {_ set _ _ _ occupied occupied' p p' q q' call answer answer'}
      h h' hset _ hcall htouch hagree hp hq halike := by
    cases call with
    | touch line =>
      obtain ⟨rfl, hway⟩ := hcall
      obtain ⟨rfl, htold⟩ := perform_touch_iff.1 hp
      obtain ⟨rfl, htold'⟩ := perform_touch_iff.1 hq
      exact ⟨rfl, halike.touch h h' hset hway htouch htold htold'⟩
    | fill line tag =>
      obtain ⟨rfl, hway⟩ := hcall
      obtain ⟨rfl, htold⟩ := perform_fill_iff.1 hp
      obtain ⟨rfl, htold'⟩ := perform_fill_iff.1 hq
      refine ⟨rfl, halike.forget h h' hset hway (fun a b hab => ?_) htold htold'⟩
      exact ⟨hab.saturate_eq, fun _ => hab.saturate_eq⟩
    | invalidate line =>
      obtain ⟨rfl, hway⟩ := hcall
      obtain ⟨rfl, htold⟩ := perform_invalidate_iff.1 hp
      obtain ⟨rfl, htold'⟩ := perform_invalidate_iff.1 hq
      refine ⟨rfl, halike.forget h h' hset hway (fun a b hab => ?_) htold htold'⟩
      exact ⟨hab.saturate_eq, fun hfalse => absurd hfalse Bool.false_ne_true⟩
    | victim candidates =>
      obtain rfl := hcall
      exact halike.victim h h' hset hagree hp hq
  perform_other {_ _ _ _ _ _ _ p p' q call answer} h hset hother hne hcall hp halike := by
    cases call with
    | touch line =>
      obtain ⟨rfl, hway⟩ := hcall
      obtain ⟨_, _, _, _, -, -, -, -, hwritten⟩ :=
        Serves.touch_eq_ok h ⟨hother, hway⟩ (perform_touch_iff.1 hp).2
      exact halike.rewrite_other hset hwritten hne
    | fill line tag =>
      obtain ⟨rfl, hway⟩ := hcall
      obtain ⟨_, _, -, -, hwritten⟩ :=
        Serves.forget_eq_ok h ⟨hother, hway⟩ (perform_fill_iff.1 hp).2
      exact halike.rewrite_other hset hwritten hne
    | invalidate line =>
      obtain ⟨rfl, hway⟩ := hcall
      obtain ⟨_, _, -, -, hwritten⟩ :=
        Serves.forget_eq_ok h ⟨hother, hway⟩ (perform_invalidate_iff.1 hp).2
      exact halike.rewrite_other hset hwritten hne
    | victim candidates =>
      obtain rfl := hcall
      exact halike.victim_other h hset hother hne hp
  perform_vacant {_ _ _ _ _ p p' q call answer} h hset hcall hp halike := by
    cases call with
    | touch line =>
      obtain ⟨rfl, hway⟩ := hcall
      obtain ⟨state, o, prediction, o', hstate, ho, -, hinsert, hwritten⟩ :=
        Serves.touch_eq_ok h ⟨hset, hway⟩ (perform_touch_iff.1 hp).2
      refine halike.rewrite_vacant hset hstate ho hwritten ?_ fun _ hbefore =>
        hbefore.insert_left hinsert
      dsimp only
      split <;> rfl
    | fill line tag =>
      obtain ⟨rfl, hway⟩ := hcall
      obtain ⟨state, o, hstate, ho, hwritten⟩ :=
        Serves.forget_eq_ok h ⟨hset, hway⟩ (perform_fill_iff.1 hp).2
      exact halike.rewrite_vacant hset hstate ho hwritten rfl fun _ hbefore =>
        hbefore.remove_left line.way
    | invalidate line =>
      obtain ⟨rfl, hway⟩ := hcall
      obtain ⟨state, o, hstate, ho, hwritten⟩ :=
        Serves.forget_eq_ok h ⟨hset, hway⟩ (perform_invalidate_iff.1 hp).2
      exact halike.rewrite_vacant hset hstate ho hwritten rfl fun _ hbefore =>
        hbefore.remove_left line.way
    | victim candidates =>
      obtain rfl := hcall
      exact halike.victim_vacant h hset hp

theorem new_alike {settings : HawkeyeSettings} (h : Hawkeye.new sets ways settings = .ok p)
    (hset : set < sets) : Alike set ways (fun _ => false) p p := by
  have hserves := new_serves h
  obtain ⟨rrpv, o, -, -, -, ho, -, rfl⟩ := new_eq_ok_iff.1 h
  constructor
  · intro way hway
    have hl : LineId.Within ⟨set, way⟩ sets ways := ⟨hset, hway⟩
    obtain ⟨state, hstate⟩ := hserves.records.shaped.exists_get hl
    exact ⟨state, state, hstate, hstate, rfl, fun _ => rfl⟩
  · have horacle : oracle ⟨.uniform sets ways ⟨false, rrpv, 0⟩, Array.replicate sets o⟩ set =
        .ok o := by
      simp [oracle, hset]
    exact ⟨o, o, horacle, horacle, .new ho⟩

end Hawkeye

end Residency
