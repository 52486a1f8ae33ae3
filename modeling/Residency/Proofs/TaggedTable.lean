import Residency.Proofs.Accepted
import Residency.Proofs.Replacement.Lawful
import Residency.TaggedTable

/-!
# Tables that never fault

A table whose policy agrees with it on the filled slots answers every call for a slot of its
geometry, and stays such a table.
-/

namespace Residency

namespace TaggedTable

section geometry

variable {σ E : Type} {id : LineId}

theorem setOf_lt (t : TaggedTable σ E) (index : UInt64) : t.setOf index < t.numSets :=
  Nat.mod_lt _ (by rw [numSets, Nat.one_shiftLeft]; exact Nat.two_pow_pos _)

theorem candidates_within {t : TaggedTable σ E} {index : UInt64} (hid : id ∈ t.candidates index) :
    id.Within t.numSets t.assoc :=
  LineId.within_of_mem_ofSet (t.setOf_lt index) hid

/-- A new table has the shape that was asked for, and only vacant slots. -/
theorem new_spec {entries assoc : Nat} {blank : E} {policy : σ}
    {t : TaggedTable σ E} (h : TaggedTable.new entries assoc blank policy = .ok t) :
    0 < assoc ∧ t.numSets = entries / assoc ∧ t.assoc = assoc ∧
      t.slots = .uniform (entries / assoc) assoc ⟨0, false, false, blank⟩ ∧ t.policy = policy := by
  obtain ⟨-, hassoc, -, ⟨k, hk⟩, rfl⟩ := new_eq_ok_iff.1 h
  refine ⟨hassoc, ?_, rfl, rfl, rfl⟩
  rw [numSets, hk, Nat.log2_two_pow, Nat.one_shiftLeft]

end geometry

open ReplacementPolicy LawfulPolicy

variable {σ E : Type} [ReplacementPolicy σ] [LawfulPolicy σ] {t : TaggedTable σ E} {id : LineId}
  {touches : Nat}

/-- The slots fit the geometry, and the policy knows which of them are filled. -/
structure Sound (t : TaggedTable σ E) (touches : Nat) : Prop where
  assoc_pos : 0 < t.assoc
  shaped : t.slots.Shaped t.numSets t.assoc
  serves : Serves t.numSets t.assoc touches (t.slots.test (·.valid)) t.policy

theorem new_sound {entries assoc : Nat} {blank : E} {policy : σ}
    (h : TaggedTable.new entries assoc blank policy = .ok t)
    (hfits : FitsWord (entries / assoc * assoc))
    (hserves : Serves (entries / assoc) assoc 0 (fun _ => false) policy) : t.Sound 0 := by
  obtain ⟨hassoc, hsets, hways, hslots, rfl⟩ := new_spec h
  refine ⟨hways.symm ▸ hassoc, ?_, ?_⟩
  · rw [hsets, hways, hslots]
    exact Slots.uniform_shaped _ hfits
  · rw [hsets, hways, hslots]
    refine serves_congr hserves fun line hl => ?_
    rw [Slots.test_of_get (Slots.get_uniform hfits hl)]

namespace Sound

/-- The first candidate that is filled with the index is found. -/
theorem find?_eq (h : t.Sound touches) (index : UInt64) (secure : Bool) :
    t.find? index secure = .ok ((t.candidates index).find? (t.slots.test fun slot =>
      slot.valid && slot.tag == index && slot.secure == secure)) := by
  refine firstWhere_eq_find? fun id hid => ?_
  obtain ⟨slot, hslot⟩ := h.shaped.exists_get (candidates_within hid)
  rw [hslot, Slots.test_of_get hslot]
  rfl

theorem find?_spec (h : t.Sound touches) (index : UInt64) (secure : Bool) :
    ∃ found, t.find? index secure = .ok found ∧
      ∀ id, found = some id → id.Within t.numSets t.assoc :=
  ⟨_, h.find?_eq index secure, fun _ hfound =>
    candidates_within (List.mem_of_find?_eq_some hfound)⟩

theorem entry_spec (h : t.Sound touches) (hl : id.Within t.numSets t.assoc) :
    ∃ data, t.entry id = .ok data := by
  obtain ⟨slot, hslot⟩ := h.shaped.exists_get hl
  exact ⟨slot.data, by rw [entry, hslot]; rfl⟩

theorem use_spec (h : t.Sound touches) (hl : id.Within t.numSets t.assoc) :
    Delivers (t.use id) (Exhausted (touches + 1)) fun t' =>
      t'.Sound (touches + 1) ∧ t'.slots = t.slots ∧ t'.setBits = t.setBits :=
  (touch_spec h.serves hl).bind fun _ hserves =>
    ⟨⟨h.assoc_pos, h.shaped, hserves⟩, rfl, rfl⟩

/-- A slot that is written, and whose validity the policy has been told, keeps a table sound. -/
theorem write (h : t.Sound touches) (hl : id.Within t.numSets t.assoc) {slot : TableSlot E}
    {slots : Slots (TableSlot E)} {policy : σ} (hset : t.slots.set id slot = .ok slots)
    (hserves : Serves t.numSets t.assoc touches
      (Function.update (t.slots.test (·.valid)) id slot.valid) policy) :
    Sound { t with slots, policy } touches := by
  have hassoc : slots.ways = t.assoc := (h.shaped.set hset).ways_eq
  have hrecords := (h.shaped.records (·.valid)).set hl hset
  refine ⟨?_, ?_, ?_⟩
  · show 0 < slots.ways
    exact hassoc ▸ h.assoc_pos
  · show slots.Shaped t.numSets slots.ways
    rw [hassoc]
    exact h.shaped.set hset
  · show Serves t.numSets slots.ways touches (slots.test (·.valid)) policy
    rw [hassoc]
    exact serves_congr hserves fun line hline => (hrecords.test_eq line hline).symm

theorem setEntry_eq (h : t.Sound touches) (hl : id.Within t.numSets t.assoc) (data : E) :
    ∃ slot slots, t.slots.get id = .ok slot ∧ t.slots.set id { slot with data } = .ok slots ∧
      t.setEntry id data = .ok { t with slots } := by
  obtain ⟨slot, slots, hslot, hmodify, hset⟩ := h.shaped.modify_eq hl fun slot : TableSlot E =>
    { slot with data }
  exact ⟨slot, slots, hslot, hset, by rw [setEntry, hmodify]; rfl⟩

/-- A rewritten entry leaves the validity of its slot. -/
theorem setEntry_spec (h : t.Sound touches) (hl : id.Within t.numSets t.assoc) (data : E) :
    ∃ t', t.setEntry id data = .ok t' ∧ t'.Sound touches := by
  obtain ⟨slot, slots, hslot, hset, hentry⟩ := h.setEntry_eq hl data
  refine ⟨{ t with slots }, hentry, h.write hl hset ?_⟩
  have hvalid := Slots.test_of_get hslot (·.valid)
  rw [← hvalid, Function.update_eq_self]
  exact h.serves

theorem makeRoom_eq (h : t.Sound touches) {index : UInt64} {p p' : σ}
    (hvictim : victim t.policy (t.candidates index) = .ok (some id, p))
    (hl : id.Within t.numSets t.assoc) (hinvalidate : invalidate p id = .ok p') :
    ∃ (slot : TableSlot E) (slots : Slots (TableSlot E)),
      t.slots.set id { slot with valid := false, data := t.blank } = .ok slots ∧
      t.makeRoom index = .ok (id, { t with slots, policy := p' }) := by
  obtain ⟨slot, slots, -, hmodify, hset⟩ := h.shaped.modify_eq hl fun slot : TableSlot E =>
    { slot with valid := false, data := t.blank }
  refine ⟨slot, slots, hset, ?_⟩
  simp only [makeRoom, hvictim, ok_bind, Option.getD_some, hinvalidate, hmodify, pure_eq_ok]

theorem candidates_ne_nil (h : t.Sound touches) (index : UInt64) : t.candidates index ≠ [] :=
  List.ne_nil_of_mem
    (LineId.mem_ofSet.2 ⟨rfl, h.assoc_pos⟩ : (⟨t.setOf index, 0⟩ : LineId) ∈ _)

theorem makeRoom_spec (h : t.Sound touches) (index : UInt64) :
    ∃ id t', t.makeRoom index = .ok (id, t') ∧ t'.Sound touches ∧
      id.Within t'.numSets t'.assoc := by
  obtain ⟨choice, p, hp, hserves, hproper⟩ := victim_spec h.serves
    fun id (hid : id ∈ t.candidates index) => candidates_within hid
  obtain ⟨id, rfl⟩ := hproper.exists_of_ne_nil (h.candidates_ne_nil index)
  have hl := candidates_within (hproper.mem id rfl)
  obtain ⟨p', hp', hserves'⟩ := invalidate_spec hserves hl
  obtain ⟨slot, slots, hset, hroom⟩ := h.makeRoom_eq hp hl hp'
  refine ⟨id, { t with slots, policy := p' }, hroom, h.write hl hset hserves', ?_⟩
  show id.Within t.numSets slots.ways
  rw [(h.shaped.set hset).ways_eq]
  exact hl

theorem put_spec (h : t.Sound touches) (hl : id.Within t.numSets t.assoc) (index : UInt64)
    (secure : Bool) (data : E) : ∃ t', t.put index secure id data = .ok t' ∧ t'.Sound touches := by
  obtain ⟨slots, hset⟩ := h.shaped.exists_set hl ⟨index, secure, true, data⟩
  obtain ⟨p, hp, hserves⟩ := fill_spec index h.serves hl
  exact ⟨{ t with slots, policy := p }, by rw [put, hset, ok_bind, hp]; rfl,
    h.write hl hset hserves⟩

end Sound

end TaggedTable

end Residency
