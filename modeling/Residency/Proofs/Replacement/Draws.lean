import Mathlib.Data.Bool.Count
import Residency.Proofs.Replacement.LastUse
import Residency.Proofs.Replacement.Random
import Residency.Proofs.Word

/-!
# The random policy goes on drawing

The step of the generator respects exclusive-or and gives every word back. Zero is the only state
that it leaves as it is, and no run of the policy comes to zero, since none starts there. So the
generator moves whenever it is asked to decide, which it is just among candidates that are all
filled.
-/

namespace Residency

namespace RandomChoice

open ReplacementPolicy PolicyCall

/-! ## The generator -/

variable {x : UInt64}

theorem respectsXor_advance : RespectsXor advance :=
  (respectsXor_shiftLeft 17).self_xor.comp <|
    (respectsXor_shiftRight 7).self_xor.comp (respectsXor_shiftLeft 13).self_xor

theorem advance_injective : Function.Injective advance :=
  (xor_shiftLeft_injective (n := 17) (by decide)).comp <|
    (xor_shiftRight_injective (n := 7) (by decide)).comp <|
    xor_shiftLeft_injective (n := 13) (by decide)

theorem advance_zero : advance 0 = 0 :=
  respectsXor_advance.map_zero

theorem advance_ne_zero (h : x ≠ 0) : advance x ≠ 0 :=
  fun heq => h (advance_injective (heq.trans advance_zero.symm))

/-- The exclusive-or of those states that a list of bits selects among the ones from `x` on. -/
def selected : List Bool → UInt64 → UInt64
  | [], _ => 0
  | bit :: bits, x => (if bit then x else 0) ^^^ selected bits (advance x)

theorem respectsXor_selected (bits : List Bool) : RespectsXor (selected bits) := by
  induction bits with
  | nil => exact respectsXor_zero
  | cons bit bits ih =>
    have hlater := ih.comp respectsXor_advance
    cases bit with
    | false => exact respectsXor_zero.xor hlater
    | true => exact respectsXor_id.xor hlater

/-- Selected an odd number of times, a state that does not move is left over. -/
theorem selected_of_advance_eq (h : advance x = x) (bits : List Bool) :
    selected bits x = if bits.count true % 2 = 1 then x else 0 := by
  induction bits with
  | nil => rfl
  | cons bit bits ih =>
    rw [selected, h, ih]
    cases bit with
    | false => simp
    | true =>
      rw [List.count_cons_self]
      rcases Nat.mod_two_eq_zero_or_one (bits.count true) with heven | hodd
      · simp [heven, Nat.add_mod]
      · simp [hodd, Nat.add_mod]

/-- The coefficients of the characteristic polynomial of the step over the field of two elements,
from the constant one to the one of degree 64. -/
def recurrence : List Bool :=
  (List.range 65).map (Nat.testBit 0x1013ed4a358913201)

/-- A linear map satisfies its characteristic polynomial. -/
theorem selected_recurrence (x : UInt64) : selected recurrence x = 0 :=
  (respectsXor_selected recurrence).eq_zero_of_powers (by decide +kernel) x

/-- Zero is the only state that a step leaves as it is. -/
theorem advance_eq_self_iff : advance x = x ↔ x = 0 := by
  constructor
  · intro h
    have hodd : recurrence.count true % 2 = 1 := by decide +kernel
    rw [← selected_recurrence x, selected_of_advance_eq h, if_pos hodd]
  · rintro rfl
    exact advance_zero

/-! ## The victim -/

variable {sets ways : Nat} {calls : List PolicyCall} {call : PolicyCall} {p p' : RandomChoice}
  {candidates : List LineId} {filled : LineId → Bool}

/-- What asking for a victim among some candidates comes to, by which lines are filled. -/
structure Draw (filled : LineId → Bool) (p : RandomChoice) (candidates : List LineId)
    (choice : Option LineId) (p' : RandomChoice) : Prop where
  none_iff : choice = none ↔ candidates = []
  vacant_first : ∀ line, candidates.find? (fun line => !filled line) = some line →
    choice = some line
  mem : ∀ line, choice = some line → line ∈ candidates
  /-- Among filled candidates the next state of the generator decides. -/
  drawn : candidates ≠ [] → (∀ line ∈ candidates, filled line = true) →
    p'.seed = advance p.seed ∧ choice = candidates[p'.seed.toNat % candidates.length]?
  /-- In no other case does the generator move. -/
  moves_iff : p'.seed ≠ p.seed ↔ candidates ≠ [] ∧ ∀ line ∈ candidates, filled line = true
  valid_eq : p'.valid = p.valid

/-- The policy knows which lines are filled, and its generator can move. -/
structure Alive (sets ways : Nat) (calls : List PolicyCall) (p : RandomChoice) : Prop where
  records : p.valid.Records sets ways id (isFilled calls)
  seed_ne_zero : p.seed ≠ 0

theorem new_alive (h : RandomChoice.new sets ways = .ok p) : Alive sets ways [] p := by
  refine ⟨new_records h, ?_⟩
  rw [(new_eq_ok_iff.1 h).2]
  show (123456789 : UInt64) ≠ 0
  decide

theorem draw_of_nil (p : RandomChoice) : Draw filled p [] none p where
  none_iff := by simp
  vacant_first := by simp
  mem := by simp
  drawn := by simp
  moves_iff := by simp
  valid_eq := rfl

theorem draw_of_vacant {line : LineId}
    (h : candidates.find? (fun line => !filled line) = some line) :
    Draw filled p candidates (some line) p := by
  have hmem := List.mem_of_find?_eq_some h
  have hnot : ¬ ∀ line ∈ candidates, filled line = true := by
    intro hfull
    have hvacant := List.find?_some h
    simp [hfull line hmem] at hvacant
  exact {
    none_iff := by simpa using List.ne_nil_of_mem hmem
    vacant_first := fun _ hother => h.symm.trans hother
    mem := fun _ hother => Option.some.inj hother ▸ hmem
    drawn := fun _ hfull => absurd hfull hnot
    moves_iff := by simp [hnot]
    valid_eq := rfl }

theorem draw_of_full (hseed : p.seed ≠ 0) (hne : candidates ≠ [])
    (hfull : candidates.find? (fun line => !filled line) = none) :
    Draw filled p candidates candidates[(advance p.seed).toNat % candidates.length]?
      { p with seed := advance p.seed } := by
  obtain ⟨line, hmem, hline⟩ := exists_getElem?_mod hne (advance p.seed).toNat
  have hfilled : ∀ line ∈ candidates, filled line = true := by simpa using hfull
  exact {
    none_iff := by simp [hline, hne]
    vacant_first := fun _ hother => by cases hfull.symm.trans hother
    mem := fun _ hother => Option.some.inj (hline.symm.trans hother) ▸ hmem
    drawn := fun _ _ => ⟨rfl, rfl⟩
    moves_iff := iff_of_true (mt advance_eq_self_iff.1 hseed) ⟨hne, hfilled⟩
    valid_eq := rfl }

namespace Alive

theorem victim_spec (h : Alive sets ways calls p)
    (hc : ∀ line ∈ candidates, line.Within sets ways) :
    ∃ choice p', victim p candidates = .ok (choice, p') ∧
      Draw (isFilled calls) p candidates choice p' := by
  by_cases hne : candidates = []
  · subst hne
    exact ⟨none, p, rfl, draw_of_nil p⟩
  · cases hvacant : candidates.find? fun line => !isFilled calls line with
    | some line => exact ⟨_, _, victim_of_vacant h.records hc hvacant, draw_of_vacant hvacant⟩
    | none =>
      have hfull := (firstVacant_eq h.records hc).trans (congrArg _ hvacant)
      exact ⟨_, _, victim_of_full hne hfull, draw_of_full h.seed_ne_zero hne hvacant⟩

/-- Whatever the policy is told or asked inside the geometry, its generator can still move. -/
theorem perform (h : Alive sets ways calls p) (hcall : call.Within sets ways) :
    ∃ answer p', perform p call = .ok (answer, p') ∧ Alive sets ways (calls ++ [call]) p' := by
  cases call with
  | touch line =>
    refine ⟨none, p, rfl, ?_, h.seed_ne_zero⟩
    rw [isFilled_append_touch]
    exact h.records
  | fill line tag =>
    obtain ⟨valid, hfill, hrecords⟩ := fill_spec h.records hcall tag
    rw [← isFilled_append_fill] at hrecords
    exact ⟨none, _, perform_fill_iff.2 ⟨rfl, hfill⟩, hrecords, h.seed_ne_zero⟩
  | invalidate line =>
    obtain ⟨valid, hinvalidate, hrecords⟩ := invalidate_spec h.records hcall
    rw [← isFilled_append_invalidate] at hrecords
    exact ⟨none, _, perform_invalidate_iff.2 ⟨rfl, hinvalidate⟩, hrecords, h.seed_ne_zero⟩
  | victim candidates =>
    obtain ⟨choice, p', hp', hdraw⟩ := h.victim_spec hcall
    refine ⟨choice, p', hp', ?_, ?_⟩
    · rw [isFilled_append_victim, hdraw.valid_eq]
      exact h.records
    · by_cases hfull : candidates ≠ [] ∧ ∀ line ∈ candidates, isFilled calls line = true
      · rw [(hdraw.drawn hfull.1 hfull.2).1]
        exact advance_ne_zero h.seed_ne_zero
      · rw [not_ne_iff.1 (mt hdraw.moves_iff.1 hfull)]
        exact h.seed_ne_zero

end Alive

/-- A generator at zero would stay there and select the first candidate for ever. -/
theorem victim_of_seed_zero (hseed : p.seed = 0)
    (hfull : ∀ line ∈ candidates, p.valid.get line = .ok true) :
    victim p candidates = .ok (candidates.head?, p) := by
  by_cases hne : candidates = []
  · subst hne
    rfl
  · have hnone : firstVacant p.valid candidates = .ok none := by
      rw [firstVacant, firstWhere_eq_find? (p := fun _ => false), List.find?_eq_none.2 (by simp)]
      intro line hline
      rw [hfull line hline]
      rfl
    rw [victim_of_full hne hnone, hseed, advance_zero, UInt64.toNat_zero, Nat.zero_mod,
      List.head?_eq_getElem?, ← hseed]

/-- **The random policy goes on drawing.** No two states of the generator have one successor, and
only zero is its own, where the first of any filled candidates would be given up for ever. No call
inside the geometry faults, and no number of them brings the generator to zero. To ask for a victim
among any candidates then answers none only if there are none, the first that is not filled, or else
one that the generator selects; and the generator moves in the last case alone. -/
theorem run_keeps_drawing (hnew : RandomChoice.new sets ways = .ok p)
    (hcalls : ∀ call ∈ calls, call.Within sets ways) :
    Function.Injective advance ∧ (∀ x, advance x = x ↔ x = 0) ∧
      (∀ (stuck : RandomChoice) candidates, stuck.seed = 0 →
        (∀ line ∈ candidates, stuck.valid.get line = .ok true) →
        victim stuck candidates = .ok (candidates.head?, stuck)) ∧
      ∃ p', run p calls = .ok p' ∧ p'.seed ≠ 0 ∧
        ∀ candidates, (∀ line ∈ candidates, line.Within sets ways) →
          ∃ choice p'', victim p' candidates = .ok (choice, p'') ∧
            Draw (isFilled calls) p' candidates choice p'' := by
  refine ⟨advance_injective, fun _ => advance_eq_self_iff,
    fun _ _ hseed hfull => victim_of_seed_zero hseed hfull, ?_⟩
  obtain ⟨p', hp', halive⟩ := run_by_calls (motive := Alive sets ways) (new_alive hnew)
    fun _ _ call hcall h => h.perform (hcalls call hcall)
  exact ⟨p', hp', halive.seed_ne_zero, fun _ hc => halive.victim_spec hc⟩

/-- Three filled ways, of which one has been given up and filled again: the second draw moves the
generator on, and selects the third way. -/
theorem run_keeps_drawing_second_draw :
    ∃ p p', RandomChoice.new 1 3 = .ok p ∧
      (∀ call ∈ [PolicyCall.fill ⟨0, 0⟩ 5, .fill ⟨0, 1⟩ 6, .fill ⟨0, 2⟩ 7,
        .victim [⟨0, 0⟩, ⟨0, 1⟩, ⟨0, 2⟩], .invalidate ⟨0, 1⟩, .fill ⟨0, 1⟩ 8], call.Within 1 3) ∧
      run p [PolicyCall.fill ⟨0, 0⟩ 5, .fill ⟨0, 1⟩ 6, .fill ⟨0, 2⟩ 7,
        .victim [⟨0, 0⟩, ⟨0, 1⟩, ⟨0, 2⟩], .invalidate ⟨0, 1⟩, .fill ⟨0, 1⟩ 8] = .ok p' ∧
      p'.seed = 132100702508589007 ∧ p'.seed ≠ 0 ∧
      (∀ line ∈ [LineId.mk 0 0, ⟨0, 1⟩, ⟨0, 2⟩], line.Within 1 3) ∧
      ∃ p'', victim p' [⟨0, 0⟩, ⟨0, 1⟩, ⟨0, 2⟩] = .ok (some ⟨0, 2⟩, p'') ∧
        p''.seed = 14571250924493977904 ∧ p''.seed ≠ p'.seed := by
  have hcalls : ∀ call ∈ [PolicyCall.fill ⟨0, 0⟩ 5, .fill ⟨0, 1⟩ 6, .fill ⟨0, 2⟩ 7,
      .victim [⟨0, 0⟩, ⟨0, 1⟩, ⟨0, 2⟩], .invalidate ⟨0, 1⟩, .fill ⟨0, 1⟩ 8],
      call.Within 1 3 := by decide
  have hcandidates : ∀ line ∈ [LineId.mk 0 0, ⟨0, 1⟩, ⟨0, 2⟩], line.Within 1 3 := by decide
  obtain ⟨-, -, -, p', hp', hne, hvictim⟩ :=
    run_keeps_drawing (show RandomChoice.new 1 3 = .ok _ from rfl) hcalls
  obtain ⟨choice, p'', hp'', hdraw⟩ := hvictim _ hcandidates
  obtain ⟨hseed, hchoice⟩ := hdraw.drawn (by decide) (by decide)
  have hfirst : p'.seed = 132100702508589007 := by
    rw [Except.ok.inj (hp'.symm.trans rfl)]
    decide
  have hsecond : p''.seed = 14571250924493977904 := by
    rw [hseed, hfirst]
    decide
  have hthird : choice = some ⟨0, 2⟩ := by
    rw [hchoice, hsecond]
    decide
  exact ⟨_, p', rfl, hcalls, hp', hfirst, hne, hcandidates, p'', hthird ▸ hp'', hsecond,
    hdraw.moves_iff.2 (by decide)⟩

end RandomChoice

end Residency
