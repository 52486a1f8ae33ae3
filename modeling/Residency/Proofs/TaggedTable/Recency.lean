import Residency.Proofs.TaggedTable.Calls

/-!
# A table with the least-recently-used policy is a bounded map

Whatever visits a new table is given, it carries them out without a fault, and answers as a recency
map does. The table and the policy each keep part of what the map keeps: the slots keep the
bindings, and the orders of the policy their recency.
-/

namespace Residency

namespace TaggedTable

variable {E : Type} {t : TaggedTable Lru E} {m : RecencyMap E} {key : TableKey}

namespace Represents

/-- To install a key that is not bound puts its binding in front of a list with room. -/
theorem install_spec (h : Represents t m) (hnone : m.find? key = none) (data : E) :
    ∃ t', t.install key data = .ok t' ∧ Represents t' (m.install key data) := by
  obtain ⟨id, t₁, hroom, h₁, hset, hl, hbinding⟩ := h.makeRoom_spec key
  have hvacant : t₁.binding? id = none := by
    rw [hbinding]
    exact Function.update_self ..
  have hfree : ∀ other found, t₁.binding? other ≠ some (key, found) := by
    intro other found hother
    rw [hbinding, Function.update_apply] at hother
    split at hother
    · cases hother
    · exact h.binding?_ne hnone other found hother
  obtain ⟨t', hput, h'⟩ := h₁.put_spec hl hset hvacant hfree data
  exact ⟨t', by rw [install, hroom, ok_bind]; exact hput, h'⟩

theorem visit_spec (h : Represents t m) (v : Visit E) :
    ∃ t', t.visit v = .ok ((m.visit v).1, t') ∧ Represents t' (m.visit v).2 := by
  rw [visit, RecencyMap.visit]
  cases hfound : m.find? v.key with
  | some data =>
    obtain ⟨id, hbinding⟩ := h.find?_eq_some_iff.1 hfound
    obtain ⟨t', huses, h'⟩ := h.foldlM_useSlot hbinding v.uses
    refine ⟨t', ?_, h'⟩
    simp only [h.find?_of_binding hbinding, ok_bind, entry_of_binding hbinding, huses, pure_eq_ok]
  | none =>
    rw [h.find?_of_none hfound]
    cases v.install with
    | none => exact ⟨t, rfl, h⟩
    | some data =>
      obtain ⟨t', hinstall, h'⟩ := h.install_spec hfound data
      exact ⟨t', by simp only [ok_bind, hinstall, pure_eq_ok], h'⟩

/-- Visits to the table are visits to the map. -/
theorem visitAll_spec (h : Represents t m) (visits : List (Visit E)) :
    ∃ t', t.visitAll visits = .ok ((m.visitAll visits).1, t') ∧
      Represents t' (m.visitAll visits).2 := by
  induction visits generalizing t m with
  | nil => exact ⟨t, rfl, h⟩
  | cons v rest ih =>
    obtain ⟨t₁, hvisit, h₁⟩ := h.visit_spec v
    obtain ⟨t', hrest, h'⟩ := ih h₁
    refine ⟨t', ?_, h'⟩
    simp only [visitAll, hvisit, ok_bind, hrest, pure_eq_ok, RecencyMap.visitAll]

/-- The filled slots are as many as the bindings of all sets. -/
theorem occupied_eq (h : Represents t m) : t.occupied = m.total := by
  rw [occupied, h.sound.shaped.countP_toList, LineId.all, List.countP_flatMap, RecencyMap.total,
    h.sets_eq]
  -- Set by set: an order goes through each way once.
  congr 1
  apply List.map_congr_left
  intro set hset
  have hlt : set < t.numSets := List.mem_range.1 hset
  rw [Function.comp_apply, LineId.ofSet, List.countP_map, h.lists_eq,
    List.length_filterMap_eq_countP, (h.serves.perm set hlt).countP_eq]
  apply List.countP_congr
  intro way hway
  rw [Function.comp_apply, isSome_binding? ⟨hlt, List.mem_range.1 hway⟩]

end Represents

theorem new_represents {entries assoc : Nat} {blank : E} {policy : Lru}
    (hpolicy : Lru.new (entries / assoc) assoc = .ok policy)
    (h : TaggedTable.new entries assoc blank policy = .ok t) :
    Represents t (.empty (entries / assoc) assoc t.setOf) := by
  have hserves := Lru.new_serves hpolicy
  have hfits := hserves.records.shaped.fits
  obtain ⟨-, hsets, hways, hslots, -⟩ := new_spec h
  have hnone : ∀ id, t.binding? id = none := by
    intro id
    by_cases hl : id.Within t.numSets t.assoc
    · have hl' : id.Within (entries / assoc) assoc := by rwa [hsets, hways] at hl
      rw [binding?_of_get hl (hslots ▸ Slots.get_uniform hfits hl'), TableSlot.binding?_vacant]
    · rw [binding?, if_neg hl]
  refine ⟨new_sound h hfits hserves, hsets.symm, hways.symm, rfl, fun id binding hbinding => ?_,
    fun a b key ha => ?_, fun set => ?_⟩
  · rw [hnone] at hbinding
    cases hbinding
  · rw [hnone] at ha
    cases ha
  · exact (List.filterMap_eq_nil_iff.2 fun way _ => hnone ⟨set, way⟩).symm

/-- A table shows what a map binds. -/
structure Agrees (t : TaggedTable Lru E) (m : RecencyMap E) : Prop where
  /-- A slot is found just for a key that is bound, with the entry that the key is bound to. -/
  lookup_eq : ∀ key, t.lookup key = .ok (m.find? key)
  /-- No key is bound by two slots. -/
  unique : ∀ a b key, (t.binding? a).map (·.1) = some key → (t.binding? b).map (·.1) = some key →
    a = b
  /-- A list has no more bindings than its set has ways. -/
  length_le : ∀ set, set < m.sets → (m.lists set).length ≤ m.assoc
  /-- A list has no two bindings of one key. -/
  nodup_keys : ∀ set, set < m.sets → ((m.lists set).map (·.1)).Nodup
  /-- A list has only bindings of indices of its set. -/
  placed : ∀ set, ∀ binding ∈ m.lists set, m.setOf binding.1.1 = set
  /-- As many slots are filled as there are bindings. -/
  occupied_eq : t.occupied = m.total

theorem Represents.agrees (h : Represents t m) : Agrees t m where
  lookup_eq := h.lookup_eq
  unique := h.unique
  length_le set hset := h.assoc_eq ▸ h.length_le (h.sets_eq ▸ hset)
  nodup_keys set hset := h.nodup_keys (h.sets_eq ▸ hset)
  placed set binding hbinding := by
    obtain ⟨way, hway⟩ := h.mem_lists.1 hbinding
    rw [h.setOf_eq]
    exact h.placed _ binding hway
  occupied_eq := h.occupied_eq

/-- A table with the least-recently-used policy is a bounded map: whatever the visits, it answers as
the map does that keeps the bindings of each set in a list, the most recently used first, and that
drops the last one of a full list for a new one. A visit to one key changes what is found for
another one only if it drops its binding. -/
theorem visitAll_recency {entries assoc : Nat} {blank : E} {policy : Lru}
    (hpolicy : Lru.new (entries / assoc) assoc = .ok policy)
    (h : TaggedTable.new entries assoc blank policy = .ok t) (visits : List (Visit E)) :
    ∃ replies t' m', t.visitAll visits = .ok (replies, t') ∧
      (RecencyMap.empty (entries / assoc) assoc t.setOf).visitAll visits = (replies, m') ∧
      m'.shape = (entries / assoc, assoc, t.setOf) ∧ Agrees t' m' ∧
      ∀ v, ∃ reply t'', t'.visit v = .ok (reply, t'') ∧ ∀ key, key ≠ v.key →
        t''.lookup key = if m'.displaced v = some key then .ok none else t'.lookup key := by
  obtain ⟨t', ht', h'⟩ := (new_represents hpolicy h).visitAll_spec visits
  refine ⟨_, t', _, ht', rfl, RecencyMap.shape_visitAll _ visits, h'.agrees, fun v => ?_⟩
  obtain ⟨t'', ht'', h''⟩ := h'.visit_spec v
  refine ⟨_, t'', ht'', fun key hkey => ?_⟩
  have hset := t'.setOf_lt v.key.1
  rw [← h'.setOf_eq] at hset
  rw [h''.lookup_eq, h'.lookup_eq, RecencyMap.find?_visit (h'.nodup_keys hset) ?_ hkey]
  · split <;> rfl
  · exact fun binding hbinding => h'.agrees.placed _ binding hbinding

/-- In a set of two ways the key that has been used least recently is dropped for a third one. -/
theorem visitAll_recency_third_key :
    ∃ (policy : Lru) (t t' : TaggedTable Lru Nat),
      Lru.new (4 / 2) 2 = .ok policy ∧ TaggedTable.new 4 2 0 policy = .ok t ∧
        t.visitAll [
          { key := (0, false), install := some 10 }, { key := (6, false), install := some 20 },
          { key := (0, false), uses := [.touch, .write 11] },
          { key := (1, true), install := some 30 }] = .ok ([none, none, some 10, none], t') ∧
        t'.lookup (0, false) = .ok (some 11) ∧ t'.lookup (6, false) = .ok none ∧
        t'.occupied = 2 := by
  obtain ⟨replies, t', m', ht', hm', -, hagrees, -⟩ := visitAll_recency
    (show Lru.new (4 / 2) 2 = .ok ⟨.ofFn fun _ : Fin 2 => [0, 1], .uniform 2 2 false⟩ from rfl)
    (show TaggedTable.new 4 2 0 _ = .ok ⟨.uniform 2 2 ⟨0, false, false, 0⟩, 1, 0, _⟩ from rfl)
    [{ key := (0, false), install := some 10 }, { key := (6, false), install := some 20 },
      { key := (0, false), uses := [.touch, .write 11] }, { key := (1, true), install := some 30 }]
  obtain ⟨rfl, rfl⟩ := Prod.mk.inj hm'
  refine ⟨_, _, t', rfl, rfl, ht', ?_, ?_, ?_⟩
  · exact hagrees.lookup_eq _
  · exact hagrees.lookup_eq _
  · exact hagrees.occupied_eq

end TaggedTable

end Residency
