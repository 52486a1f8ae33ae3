import Residency.Proofs.TaggedTable.Bindings

/-!
# The calls of a table, and the bindings that they change

A call of the table changes what one slot binds, where its way stands in the order of its set, or
both. To use a slot moves its binding to the front of its list, and to rewrite its entry rebinds its
key in place. To make room drops the last binding of a full list, and to fill a vacant slot puts a
binding in front.
-/

namespace Residency

namespace TaggedTable

variable {E : Type} {t : TaggedTable Lru E} {m : RecencyMap E} {id : LineId} {key : TableKey}
  {data : E} {slot : TableSlot E} {slots : Slots (TableSlot E)} {policy : Lru} {order : List Nat}
  {value : Option (TableKey × E)} {list : List (TableKey × E)}

namespace Represents

/-- What one slot binds and the order of its set change, and so does the list of the set. -/
theorem reorder (h : Represents t m) (hsound : Sound { t with slots, policy } 0)
    (hways : slots.ways = t.assoc) (hkey : t.setOf key.1 = id.set)
    (horder : policy.order = Function.update t.policy.order id.set order)
    (hbinding : binding? { t with slots, policy } = Function.update t.binding? id value)
    (hlist : order.filterMap (fun way => Function.update t.binding? id value ⟨id.set, way⟩) = list)
    (hvalue : ∀ binding, value = some binding → binding.1 = key ∧
      ∀ other data, t.binding? other = some (key, data) → other = id) :
    Represents { t with slots, policy } (m.setList key list) where
  sound := hsound
  sets_eq := h.sets_eq
  assoc_eq := h.assoc_eq.trans hways.symm
  setOf_eq := h.setOf_eq
  placed := by
    intro other binding hother
    show t.setOf binding.1.1 = other.set
    rw [hbinding, Function.update_apply] at hother
    by_cases heq : other = id
    · rw [if_pos heq] at hother
      rw [(hvalue binding hother).1, hkey, heq]
    · rw [if_neg heq] at hother
      exact h.placed other binding hother
  unique := by
    rw [hbinding]
    have hkeys : ∀ a, (Function.update t.binding? id value a).map (·.1) =
        Function.update (fun a => (t.binding? a).map (·.1)) id (value.map (·.1)) a :=
      Function.apply_update (fun _ binding => binding.map (·.1)) t.binding? id value
    simp only [hkeys]
    -- The other slots bind what they bound, so it is enough that none of them binds the key.
    refine update_unique h.unique fun other bound hbound hother => ?_
    obtain ⟨binding, rfl, rfl⟩ := Option.map_eq_some_iff.1 hbound
    obtain ⟨hbinding_key, hfree⟩ := hvalue binding rfl
    obtain ⟨⟨found, data⟩, hfound, hsame⟩ := Option.map_eq_some_iff.1 hother
    obtain rfl : found = key := hsame.trans hbinding_key
    exact hfree other data hfound
  lists_eq := by
    intro set
    show Function.update m.lists (m.setOf key.1) _ set = _
    rw [hbinding, horder, h.setOf_eq, hkey, Function.update_apply, Function.update_apply]
    by_cases hset : set = id.set
    · rw [if_pos hset, if_pos hset, hset, hlist]
    · rw [if_neg hset, if_neg hset, h.lists_eq]
      apply List.filterMap_congr
      intro way _
      exact (Function.update_of_ne (fun heq => hset (congrArg LineId.set heq)) ..).symm

/-- A slot is written, and so are the order and the list of its set. -/
theorem write (h : Represents t m) (hl : id.Within t.numSets t.assoc)
    (hset : t.slots.set id slot = .ok slots)
    (hserves : Lru.Serves t.numSets t.assoc
      (Function.update (t.slots.test (·.valid)) id slot.valid) policy)
    (hkey : t.setOf key.1 = id.set)
    (horder : policy.order = Function.update t.policy.order id.set order)
    (hslot : slot.binding? = value)
    (hlist : order.filterMap (fun way => Function.update t.binding? id value ⟨id.set, way⟩) = list)
    (hvalue : ∀ binding, value = some binding → binding.1 = key ∧
      ∀ other data, t.binding? other = some (key, data) → other = id) :
    Represents { t with slots, policy } (m.setList key list) := by
  have hbinding := binding?_set h.sound.shaped hl hset policy
  rw [hslot] at hbinding
  exact h.reorder (h.sound.write hl hset hserves) (h.sound.shaped.set hset).ways_eq hkey horder
    hbinding hlist hvalue

theorem eq_of_binding (h : Represents t m) (hbinding : t.binding? id = some (key, data))
    (other : LineId) (found : E) (hother : t.binding? other = some (key, found)) : other = id :=
  h.unique other id key (by rw [hother]; rfl) (by rw [hbinding]; rfl)

/-- Without the slot that binds a key, the order of its set is read as the list without the key. -/
theorem filterMap_erase_of_binding (h : Represents t m)
    (hbinding : t.binding? id = some (key, data)) :
    ((t.policy.order id.set).erase id.way).filterMap (fun way => t.binding? ⟨id.set, way⟩) =
      (m.listOf key).filter (·.1 ≠ key) := by
  have hn := h.serves.nodup_order (within_of_binding? hbinding).1
  rw [h.listOf_eq hbinding, h.lists_eq, hn.erase_eq_filter, List.filterMap_filter,
    List.filter_filterMap]
  apply List.filterMap_congr
  intro way _
  cases hway : t.binding? ⟨id.set, way⟩ with
  | none => simp
  | some bound =>
    by_cases hid : way = id.way
    · subst hid
      obtain rfl := Option.some.inj (hbinding.symm.trans hway)
      simp [Option.filter]
    · have hne : bound.1 ≠ key := by
        rintro rfl
        exact hid (congrArg LineId.way (h.eq_of_binding hbinding _ _ hway))
      simp [Option.filter, hid, hne]

/-- To use the slot of a key moves its binding to the front. -/
theorem use_spec (h : Represents t m) (hbinding : t.binding? id = some (key, data)) :
    ∃ t', t.use id = .ok t' ∧ Represents t' (m.touch key) ∧
      t'.binding? id = some (key, data) := by
  have hl := within_of_binding? hbinding
  obtain ⟨policy, hpolicy, hserves, -, horder⟩ := h.serves.touch_spec hl
  have hkept : t.binding? = Function.update t.binding? id (some (key, data)) := by
    rw [← hbinding, Function.update_eq_self]
  have hsound : Sound { t with policy } 0 := ⟨h.sound.assoc_pos, h.sound.shaped, hserves⟩
  have hlist : (id.way :: (t.policy.order id.set).erase id.way).filterMap (fun way =>
      Function.update t.binding? id (some (key, data)) ⟨id.set, way⟩) =
        RecencyMap.inFront key data (m.listOf key) := by
    rw [filterMap_update_front (h.serves.nodup_order hl.1), h.filterMap_erase_of_binding hbinding,
      RecencyMap.inFront]
  have hmoved := h.reorder hsound rfl (h.placed id _ hbinding) horder hkept hlist
    fun binding heq => ⟨by rw [← Option.some.inj heq], h.eq_of_binding hbinding⟩
  refine ⟨{ t with policy }, by rw [use, hpolicy]; rfl, ?_, hbinding⟩
  rw [RecencyMap.touch, h.find?_eq_some_iff.2 ⟨id, hbinding⟩]
  exact hmoved

/-- To rewrite the entry of a slot rebinds its key. -/
theorem setEntry_spec (h : Represents t m) (hbinding : t.binding? id = some (key, data))
    (new : E) : ∃ t', t.setEntry id new = .ok t' ∧ Represents t' (m.write key new) ∧
      t'.binding? id = some (key, new) := by
  have hl := within_of_binding? hbinding
  obtain ⟨slot, slots, hslot, hset, hentry⟩ := h.sound.setEntry_eq hl new
  obtain rfl := Except.ok.inj ((binding?_eq_some_iff.1 hbinding).2.symm.trans hslot)
  have hvalid : true = t.slots.test (·.valid) id := (Slots.test_of_get hslot (·.valid)).symm
  have hserves : Lru.Serves t.numSets t.assoc
      (Function.update (t.slots.test (·.valid)) id true) t.policy := by
    rw [hvalid, Function.update_eq_self]
    exact h.serves
  have horder : t.policy.order = Function.update t.policy.order id.set (t.policy.order id.set) :=
    (Function.update_eq_self ..).symm
  have hlist : (t.policy.order id.set).filterMap (fun way =>
      Function.update t.binding? id (some (key, new)) ⟨id.set, way⟩) =
        RecencyMap.rebind key new (m.listOf key) := by
    rw [h.listOf_eq hbinding, h.lists_eq, RecencyMap.rebind, List.map_filterMap]
    apply List.filterMap_congr
    intro way _
    rw [Function.update_apply]
    by_cases heq : ⟨id.set, way⟩ = id
    · rw [if_pos heq, heq, hbinding, Option.map_some, if_pos rfl]
    · rw [if_neg heq]
      cases hway : t.binding? ⟨id.set, way⟩ with
      | none => rfl
      | some bound =>
        have hne : bound.1 ≠ key := by
          rintro rfl
          exact heq (h.eq_of_binding hbinding _ _ hway)
        rw [Option.map_some, if_neg hne]
  have hwritten := h.write hl hset hserves (h.placed id _ hbinding) horder
    (TableSlot.binding?_filled key new) hlist fun binding heq =>
      ⟨by rw [← Option.some.inj heq], h.eq_of_binding hbinding⟩
  refine ⟨_, hentry, hwritten, ?_⟩
  rw [binding?_set h.sound.shaped hl hset, Function.update_self]
  rfl

/-- To use a slot in any way uses the binding of its key. -/
theorem useSlot_spec (h : Represents t m) (hbinding : t.binding? id = some (key, data))
    (u : SlotUse E) : ∃ t' found, t.useSlot id u = .ok t' ∧
      Represents t' (RecencyMap.useKey key m u) ∧ t'.binding? id = some (key, found) := by
  cases u with
  | touch =>
    obtain ⟨t', ht', h', hbinding'⟩ := h.use_spec hbinding
    exact ⟨t', data, ht', h', hbinding'⟩
  | write new =>
    obtain ⟨t', ht', h', hbinding'⟩ := h.setEntry_spec hbinding new
    exact ⟨t', new, ht', h', hbinding'⟩

theorem foldlM_useSlot (h : Represents t m) (hbinding : t.binding? id = some (key, data))
    (uses : List (SlotUse E)) : ∃ t', uses.foldlM (useSlot id) t = .ok t' ∧
      Represents t' (uses.foldl (RecencyMap.useKey key) m) := by
  induction uses generalizing t m data with
  | nil => exact ⟨t, rfl, h⟩
  | cons u rest ih =>
    obtain ⟨t₁, found, ht₁, h₁, hbinding₁⟩ := h.useSlot_spec hbinding u
    rw [List.foldlM_cons, ht₁]
    exact ih h₁ hbinding₁

/-- Where some slot of a set binds nothing, neither does the victim. -/
theorem victim_vacant {index : UInt64} {other : LineId}
    (hproper : ProperVictim (t.slots.test (·.valid)) (t.candidates index) (some id))
    (hother : other ∈ t.candidates index) (hnone : t.binding? other = none) :
    t.binding? id = none := by
  have hl := candidates_within (hproper.mem id rfl)
  have hfree : t.slots.test (·.valid) other = false := by
    rw [← isSome_binding? (candidates_within hother), hnone]
    rfl
  have hvictim := hproper.vacant hother hfree
  rwa [← isSome_binding? hl, Option.isSome_eq_false_iff, Option.isNone_iff_eq_none] at hvictim

/-- A victim that binds something has the last way of the order of its set. -/
theorem victim_last (h : Represents t m) {index : UInt64}
    (hvictim : ReplacementPolicy.victim t.policy (t.candidates index) = .ok (some id, t.policy))
    (hproper : ProperVictim (t.slots.test (·.valid)) (t.candidates index) (some id))
    (hbound : t.binding? id ≠ none) : (t.policy.order id.set).getLast? = some id.way := by
  have hset := t.setOf_lt index
  have hfull : ∀ way, way < t.assoc → t.slots.test (·.valid) ⟨t.setOf index, way⟩ = true := by
    intro way hway
    have hother : ⟨t.setOf index, way⟩ ∈ t.candidates index := LineId.mem_ofSet.2 ⟨rfl, hway⟩
    rw [← isSome_binding? ⟨hset, hway⟩, Option.isSome_iff_ne_none]
    exact fun hnone => hbound (victim_vacant hproper hother hnone)
  obtain ⟨last, hlast, hnamed⟩ := h.serves.victim_of_full hset h.sound.assoc_pos hfull
  have hsame := Prod.mk.inj (Except.ok.inj (hvictim.symm.trans hnamed))
  obtain rfl : id = ⟨t.setOf index, last⟩ := Option.some.inj hsame.1
  exact hlast

/-- To make room in the set of a key lets the last binding of a full list go. -/
theorem makeRoom_spec (h : Represents t m) (key : TableKey) :
    ∃ id t', t.makeRoom key.1 = .ok (id, t') ∧ Represents t' (m.makeRoom key) ∧
      t'.setOf key.1 = id.set ∧ id.Within t'.numSets t'.assoc ∧
      t'.binding? = Function.update t.binding? id none := by
  obtain ⟨choice, hvictim, hproper⟩ := h.serves.victim_spec fun id
    (hid : id ∈ t.candidates key.1) => candidates_within hid
  obtain ⟨id, rfl⟩ := hproper.exists_of_ne_nil (h.sound.candidates_ne_nil key.1)
  have hid : id.set = t.setOf key.1 := (LineId.mem_ofSet.1 (hproper.mem id rfl)).1
  have hl := candidates_within (hproper.mem id rfl)
  have hn := h.serves.nodup_order hl.1
  obtain ⟨policy, hpolicy, hserves, horder⟩ := h.serves.invalidate_spec hl
  obtain ⟨slot, slots, hset, hroom⟩ := h.sound.makeRoom_eq hvictim hl hpolicy
  have hlist : ((t.policy.order id.set).erase id.way ++ [id.way]).filterMap (fun way =>
      Function.update t.binding? id none ⟨id.set, way⟩) =
        RecencyMap.room m.assoc (m.listOf key) := by
    rw [filterMap_update_end hn, RecencyMap.listOf, h.setOf_eq, ← hid, h.lists_eq, h.assoc_eq,
      ← h.length_order hl.1]
    refine (filterMap_give_up hn ((h.serves.mem_order hl.1).2 hl.2) (fun way hway hnone => ?_)
      fun hbound => h.victim_last hvictim hproper hbound).2
    have hother : ⟨id.set, way⟩ ∈ t.candidates key.1 :=
      LineId.mem_ofSet.2 ⟨hid, (h.serves.mem_order hl.1).1 hway⟩
    exact victim_vacant hproper hother hnone
  have hwritten := h.write hl hset hserves hid.symm horder (TableSlot.binding?_vacant ..) hlist
    fun binding heq => by cases heq
  refine ⟨id, _, hroom, hwritten, hid.symm, ?_, binding?_set h.sound.shaped hl hset policy⟩
  have hways : slots.ways = t.assoc := (h.sound.shaped.set hset).ways_eq
  show id.Within t.numSets slots.ways
  rw [hways]
  exact hl

/-- To fill a vacant slot puts a binding in front. -/
theorem put_spec (h : Represents t m) (hl : id.Within t.numSets t.assoc)
    (hkey : t.setOf key.1 = id.set) (hvacant : t.binding? id = none)
    (hfree : ∀ other data, t.binding? other ≠ some (key, data)) (data : E) :
    ∃ t', t.put key.1 key.2 id data = .ok t' ∧ Represents t' (m.push key data) := by
  obtain ⟨slots, hset⟩ := h.sound.shaped.exists_set hl ⟨key.1, key.2, true, data⟩
  obtain ⟨policy, hpolicy, hserves, horder⟩ := h.serves.fill_spec hl key.1
  have hlist : (id.way :: (t.policy.order id.set).erase id.way).filterMap (fun way =>
      Function.update t.binding? id (some (key, data)) ⟨id.set, way⟩) =
        (key, data) :: m.listOf key := by
    rw [filterMap_update_front (h.serves.nodup_order hl.1),
      filterMap_erase_of_none (f := fun way => t.binding? ⟨id.set, way⟩) hvacant, ← h.lists_eq,
      RecencyMap.listOf, h.setOf_eq, hkey]
  have hwritten := h.write hl hset hserves hkey horder (TableSlot.binding?_filled key data) hlist
    fun binding heq =>
      ⟨by rw [← Option.some.inj heq], fun other found hother => absurd hother (hfree other found)⟩
  exact ⟨{ t with slots, policy }, by rw [put, hset, ok_bind, hpolicy]; rfl, hwritten⟩

end Represents

end TaggedTable

end Residency
