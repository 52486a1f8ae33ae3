import Residency.Proofs.Orders
import Residency.Proofs.Replacement.Lru
import Residency.Proofs.TaggedTable
import Residency.Proofs.TaggedTable.RecencyMap

/-!
# What the slots of a table bind

A filled slot binds its index, with its domain, to its entry. Under the least-recently-used policy
the order of the ways of a set, read through what they bind, is the list that a recency map keeps
of the set.
-/

namespace Residency

/-- What a slot binds: nothing unless it is filled. -/
def TableSlot.binding? {E : Type} (slot : TableSlot E) : Option (TableKey × E) :=
  if slot.valid then some ((slot.tag, slot.secure), slot.data) else none

theorem TableSlot.binding?_filled {E : Type} (key : TableKey) (data : E) :
    binding? ⟨key.1, key.2, true, data⟩ = some (key, data) := rfl

theorem TableSlot.binding?_vacant {E : Type} (tag : UInt64) (secure : Bool) (data : E) :
    binding? ⟨tag, secure, false, data⟩ = none := rfl

namespace TaggedTable

section slots

variable {σ E : Type} {t : TaggedTable σ E} {id : LineId} {slot : TableSlot E} {key : TableKey}
  {data : E}

/-- What a slot of the table binds. -/
def binding? (t : TaggedTable σ E) (id : LineId) : Option (TableKey × E) :=
  if id.Within t.numSets t.assoc then
    match t.slots.get id with
    | .ok slot => slot.binding?
    | .error _ => none
  else none

theorem binding?_of_get (hl : id.Within t.numSets t.assoc) (hslot : t.slots.get id = .ok slot) :
    t.binding? id = slot.binding? := by
  rw [binding?, if_pos hl, hslot]

theorem binding?_eq_some_iff : t.binding? id = some (key, data) ↔
    id.Within t.numSets t.assoc ∧ t.slots.get id = .ok ⟨key.1, key.2, true, data⟩ := by
  constructor
  · intro h
    by_cases hl : id.Within t.numSets t.assoc
    · rw [binding?, if_pos hl] at h
      cases hslot : t.slots.get id with
      | error fault =>
        rw [hslot] at h
        cases h
      | ok slot =>
        obtain ⟨tag, secure, valid, found⟩ := slot
        rw [hslot] at h
        cases valid with
        | false => cases h
        | true =>
          obtain ⟨rfl, rfl⟩ := Prod.mk.inj (Option.some.inj h)
          exact ⟨hl, rfl⟩
    · rw [binding?, if_neg hl] at h
      cases h
  · rintro ⟨hl, hslot⟩
    rw [binding?_of_get hl hslot]
    rfl

theorem within_of_binding? {binding : TableKey × E} (h : t.binding? id = some binding) :
    id.Within t.numSets t.assoc :=
  (binding?_eq_some_iff.1 h).1

theorem entry_of_binding (h : t.binding? id = some (key, data)) : t.entry id = .ok data := by
  rw [entry, (binding?_eq_some_iff.1 h).2]
  rfl

theorem test_key_iff :
    (t.slots.test (fun slot => slot.valid && slot.tag == key.1 && slot.secure == key.2) id = true) ↔
      ∃ data, t.slots.get id = .ok ⟨key.1, key.2, true, data⟩ := by
  rw [Slots.test]
  cases t.slots.get id with
  | error fault => simp
  | ok slot =>
    obtain ⟨tag, secure, valid, data⟩ := slot
    simp [and_assoc, and_comm, and_left_comm]

theorem isSome_binding? (hl : id.Within t.numSets t.assoc) :
    (t.binding? id).isSome = t.slots.test (·.valid) id := by
  rw [binding?, if_pos hl, Slots.test]
  cases t.slots.get id with
  | error fault => rfl
  | ok slot =>
    show slot.binding?.isSome = slot.valid
    rw [TableSlot.binding?]
    cases slot.valid <;> rfl

theorem binding?_set (h : t.slots.Shaped t.numSets t.assoc) (hl : id.Within t.numSets t.assoc)
    {slots : Slots (TableSlot E)} (hset : t.slots.set id slot = .ok slots) (policy : σ) :
    binding? { t with slots, policy } = Function.update t.binding? id slot.binding? := by
  have hways : slots.ways = t.assoc := (h.set hset).ways_eq
  funext other
  show (if other.Within t.numSets slots.ways then _ else _) = _
  rw [Function.update_apply, hways]
  by_cases ho : other.Within t.numSets t.assoc
  · have hget := h.get_set hl ho hset
    rw [if_pos ho, hget]
    by_cases heq : other = id
    · rw [if_pos heq, if_pos heq]
    · rw [if_neg heq, if_neg heq, binding?, if_pos ho]
  · have hne : other ≠ id := fun heq => ho (heq ▸ hl)
    rw [if_neg hne, if_neg ho, binding?, if_neg ho]

end slots

variable {E : Type} {t t' : TaggedTable Lru E} {m : RecencyMap E} {id : LineId} {key : TableKey}
  {data : E} {binding : TableKey × E} {set : Nat}

/-- The map keeps what the slots bind, in the order in which the policy keeps the ways. -/
structure Represents (t : TaggedTable Lru E) (m : RecencyMap E) : Prop where
  sound : t.Sound 0
  sets_eq : m.sets = t.numSets
  assoc_eq : m.assoc = t.assoc
  setOf_eq : m.setOf = t.setOf
  /-- An index is bound in its own set only. -/
  placed : ∀ id binding, t.binding? id = some binding → t.setOf binding.1.1 = id.set
  /-- No key is bound by two slots. -/
  unique : ∀ a b key, (t.binding? a).map (·.1) = some key → (t.binding? b).map (·.1) = some key →
    a = b
  lists_eq : ∀ set, m.lists set = (t.policy.order set).filterMap fun way => t.binding? ⟨set, way⟩

namespace Represents

theorem serves (h : Represents t m) :
    Lru.Serves t.numSets t.assoc (t.slots.test (·.valid)) t.policy :=
  h.sound.serves

/-- The list of a set keeps what the ways of the set bind. -/
theorem mem_lists (h : Represents t m) :
    binding ∈ m.lists set ↔ ∃ way, t.binding? ⟨set, way⟩ = some binding := by
  rw [h.lists_eq, List.mem_filterMap]
  constructor
  · rintro ⟨way, -, hway⟩
    exact ⟨way, hway⟩
  · rintro ⟨way, hway⟩
    have hl := within_of_binding? hway
    exact ⟨way, (h.serves.mem_order hl.1).2 hl.2, hway⟩

theorem nodup_keys (h : Represents t m) (hset : set < t.numSets) :
    ((m.lists set).map (·.1)).Nodup := by
  rw [h.lists_eq, List.map_filterMap]
  refine (h.serves.nodup_order hset).filterMap fun a b key ha hb => ?_
  exact congrArg LineId.way (h.unique ⟨set, a⟩ ⟨set, b⟩ key ha hb)

theorem length_order (h : Represents t m) (hset : set < t.numSets) :
    (t.policy.order set).length = t.assoc := by
  rw [(h.serves.perm set hset).length_eq, List.length_range]

theorem length_le (h : Represents t m) (hset : set < t.numSets) :
    (m.lists set).length ≤ t.assoc := by
  rw [h.lists_eq, ← h.length_order hset]
  exact List.length_filterMap_le ..

theorem listOf_eq (h : Represents t m) (hbinding : t.binding? id = some (key, data)) :
    m.listOf key = m.lists id.set := by
  rw [RecencyMap.listOf, h.setOf_eq, h.placed id _ hbinding]

/-- The map binds a key just as a slot does. -/
theorem find?_eq_some_iff (h : Represents t m) :
    m.find? key = some data ↔ ∃ id, t.binding? id = some (key, data) := by
  have hset := t.setOf_lt key.1
  rw [RecencyMap.find?, RecencyMap.listOf, h.setOf_eq,
    RecencyMap.entryIn_eq_some_iff (h.nodup_keys hset), h.mem_lists]
  constructor
  · rintro ⟨way, hway⟩
    exact ⟨_, hway⟩
  · rintro ⟨id, hid⟩
    refine ⟨id.way, ?_⟩
    rw [h.placed id _ hid]
    exact hid

theorem binding?_ne (h : Represents t m) (hnone : m.find? key = none) (id : LineId) (data : E) :
    t.binding? id ≠ some (key, data) := by
  intro hbinding
  have hfound := h.find?_eq_some_iff.2 ⟨id, hbinding⟩
  rw [hnone] at hfound
  cases hfound

theorem find?_of_binding (h : Represents t m) (hbinding : t.binding? id = some (key, data)) :
    t.find? key.1 key.2 = .ok (some id) := by
  obtain ⟨hl, hget⟩ := binding?_eq_some_iff.1 hbinding
  have hid : id ∈ t.candidates key.1 := LineId.mem_ofSet.2 ⟨(h.placed id _ hbinding).symm, hl.2⟩
  rw [h.sound.find?_eq]
  cases hfound : (t.candidates key.1).find? (t.slots.test fun slot =>
      slot.valid && slot.tag == key.1 && slot.secure == key.2) with
  | none => exact absurd (test_key_iff.2 ⟨data, hget⟩) (List.find?_eq_none.1 hfound id hid)
  | some other =>
    obtain ⟨found, hother⟩ := test_key_iff.1 (List.find?_some hfound)
    have hsame := binding?_eq_some_iff.2
      ⟨candidates_within (List.mem_of_find?_eq_some hfound), hother⟩
    rw [h.unique other id key (by rw [hsame]; rfl) (by rw [hbinding]; rfl)]

theorem find?_of_none (h : Represents t m) (hnone : m.find? key = none) :
    t.find? key.1 key.2 = .ok none := by
  rw [h.sound.find?_eq, List.find?_eq_none.2]
  intro id hid htest
  obtain ⟨data, hget⟩ := test_key_iff.1 htest
  exact h.binding?_ne hnone id data (binding?_eq_some_iff.2 ⟨candidates_within hid, hget⟩)

theorem lookup_eq (h : Represents t m) (key : TableKey) : t.lookup key = .ok (m.find? key) := by
  cases hfound : m.find? key with
  | none =>
    rw [lookup, h.find?_of_none hfound]
    rfl
  | some data =>
    obtain ⟨id, hbinding⟩ := h.find?_eq_some_iff.1 hfound
    rw [lookup, h.find?_of_binding hbinding, ok_bind]
    show (do return some (← t.entry id)) = _
    rw [entry_of_binding hbinding]
    rfl

end Represents

end TaggedTable

end Residency
