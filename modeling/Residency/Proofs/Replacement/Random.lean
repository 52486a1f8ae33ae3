import Residency.Proofs.Accepted
import Residency.Proofs.Replacement.Lawful
import Residency.Replacement.Random

/-!
# The random policy, operation by operation

The generator only decides among occupied candidates, and always for one of them.
-/

namespace Residency

namespace RandomChoice

open ReplacementPolicy

variable {sets ways : Nat} {occupied : LineId → Bool} {p : RandomChoice}
  {candidates : List LineId}

theorem new_records (h : RandomChoice.new sets ways = .ok p) :
    p.valid.Records sets ways id fun _ => false := by
  obtain ⟨hfits, rfl⟩ := new_eq_ok_iff.1 h
  exact Slots.uniform_records hfits rfl

theorem victim_of_vacant {line : LineId} (h : p.valid.Records sets ways id occupied)
    (hc : ∀ line ∈ candidates, line.Within sets ways)
    (hvacant : candidates.find? (fun line => !occupied line) = some line) :
    victim p candidates = .ok (some line, p) := by
  have hne : candidates ≠ [] := List.ne_nil_of_mem (List.mem_of_find?_eq_some hvacant)
  show p.victim candidates = _
  rw [RandomChoice.victim, if_neg hne, firstVacant_eq h hc, ok_bind, hvacant]
  rfl

/-- Among occupied candidates the next state of the generator decides. -/
theorem victim_of_full (hne : candidates ≠ []) (hfull : firstVacant p.valid candidates = .ok none) :
    victim p candidates = .ok (candidates[(advance p.seed).toNat % candidates.length]?,
      { p with seed := advance p.seed }) := by
  show p.victim candidates = _
  rw [RandomChoice.victim, if_neg hne, hfull]
  rfl

/-- Whatever the generator says, it selects a candidate. -/
theorem exists_getElem?_mod (hne : candidates ≠ []) (n : Nat) :
    ∃ line ∈ candidates, candidates[n % candidates.length]? = some line := by
  have hlt := Nat.mod_lt n (List.length_pos_iff.2 hne)
  exact ⟨_, List.getElem_mem hlt, List.getElem?_eq_getElem hlt⟩

/-- Naming a victim changes nothing but the generator. -/
theorem victim_spec (h : p.valid.Records sets ways id occupied)
    (hc : ∀ line ∈ candidates, line.Within sets ways) :
    ∃ choice p', victim p candidates = .ok (choice, p') ∧ p'.valid = p.valid ∧
      ProperVictim occupied candidates choice := by
  by_cases hne : candidates = []
  · subst hne
    exact ⟨none, p, rfl, rfl, .of_full rfl (by simp) (by simp)⟩
  · cases hvacant : candidates.find? fun line => !occupied line with
    | some line => exact ⟨some line, p, victim_of_vacant h hc hvacant, rfl, .of_vacant hvacant⟩
    | none =>
      have hfull := (firstVacant_eq h hc).trans (congrArg _ hvacant)
      obtain ⟨line, hmem, hline⟩ := exists_getElem?_mod hne (advance p.seed).toNat
      refine ⟨_, _, victim_of_full hne hfull, rfl, .of_full hvacant ?_ fun _ => ⟨line, hline⟩⟩
      intro other hother
      exact Option.some.inj (hline.symm.trans hother) ▸ hmem

theorem exists_mark {line : LineId} (h : p.valid.Records sets ways id occupied)
    (hl : line.Within sets ways) (held : Bool) :
    ∃ valid, p.valid.set line held = .ok valid ∧
      valid.Records sets ways id (Function.update occupied line held) := by
  obtain ⟨valid, hset⟩ := h.shaped.exists_set hl held
  exact ⟨valid, hset, h.set hl hset⟩

theorem fill_spec {line : LineId} (h : p.valid.Records sets ways id occupied)
    (hl : line.Within sets ways) (tag : UInt64) :
    ∃ valid, fill p line tag = .ok { p with valid } ∧
      valid.Records sets ways id (Function.update occupied line true) := by
  obtain ⟨valid, hset, hrecords⟩ := exists_mark h hl true
  refine ⟨valid, ?_, hrecords⟩
  show (do return { p with valid := ← p.valid.set line true }) = _
  rw [hset]
  rfl

theorem invalidate_spec {line : LineId} (h : p.valid.Records sets ways id occupied)
    (hl : line.Within sets ways) :
    ∃ valid, invalidate p line = .ok { p with valid } ∧
      valid.Records sets ways id (Function.update occupied line false) := by
  obtain ⟨valid, hset, hrecords⟩ := exists_mark h hl false
  refine ⟨valid, ?_, hrecords⟩
  show (do return { p with valid := ← p.valid.set line false }) = _
  rw [hset]
  rfl

instance : LawfulPolicy RandomChoice where
  Serves sets ways _ occupied p := p.valid.Records sets ways id occupied
  serves_congr h heq := h.congr heq
  touch_spec h _ := .of_eq_ok rfl h
  fill_spec tag h hl := by
    obtain ⟨valid, hfill, hrecords⟩ := fill_spec h hl tag
    exact ⟨_, hfill, hrecords⟩
  invalidate_spec h hl := by
    obtain ⟨valid, hinvalidate, hrecords⟩ := invalidate_spec h hl
    exact ⟨_, hinvalidate, hrecords⟩
  victim_spec h hc := by
    obtain ⟨choice, p', hp', hvalid, hproper⟩ := victim_spec h hc
    exact ⟨choice, p', hp', hvalid ▸ h, hproper⟩

end RandomChoice

end Residency
