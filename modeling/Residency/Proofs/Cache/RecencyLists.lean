import Residency.Proofs.Cache.RecencyCache
import Residency.Proofs.Contents.Accounted
import Residency.Proofs.Orders
import Residency.Proofs.Replacement.Policy

/-!
# The recency lists behind the least-recently-used policy

The order that the policy keeps of the ways of a set, read through what the ways hold, is a list of
blocks, the most recently used first. Vacant ways drop out of it wherever they stand. A touched
block moves to the front of the list of its set; a filled one is put in front, and the last one
makes way if the list is full; a dropped one goes.
-/

namespace Residency

namespace Contents

open ReplacementPolicy

variable {c c' : Contents Policy} {lists : Nat → List (UInt64 × Bool)} {id : LineId}
  {addr : UInt64} {secure : Bool} {pair : UInt64 × Bool}

/-- What the least-recently-used policy becomes is the policy from then on. -/
theorem eq_lru_of_map {x : Checked Lru} {p : Lru} {q : Policy} (hx : x = .ok p)
    (told : x.map Policy.lru = .ok q) : q = .lru p := by
  subst hx
  exact (Except.ok.inj told).symm

/-- The policy is the least-recently-used one, and its orders, read through what the lines hold, are
the lists. -/
def Orders (c : Contents Policy) (lists : Nat → List (UInt64 × Bool)) : Prop :=
  ∃ p, c.policy = .lru p ∧ ∀ set, lists set = (p.order set).filterMap fun way => c.held ⟨set, way⟩

theorem Sound.lru (h : c.Sound) {p : Lru} (hp : c.policy = .lru p) :
    Lru.Serves c.geometry.sets c.geometry.ways (fun id => (c.held id).isSome) p := by
  have hserves := h.serves
  rw [hp] at hserves
  exact hserves

theorem Sound.way_unique (h : c.Sound) {set : Nat} (a b : Nat) (pair : UInt64 × Bool)
    (ha : c.held ⟨set, a⟩ = some pair) (hb : c.held ⟨set, b⟩ = some pair) : a = b :=
  congrArg LineId.way (h.unique _ _ pair ha hb)

theorem Dropped.lru (h : c.Dropped id c') (hp : ∃ p, c.policy = .lru p) :
    ∃ p, c'.policy = .lru p := by
  obtain ⟨p, hp⟩ := hp
  have htold := h.told
  rw [hp] at htold
  obtain ⟨p', -, hp'⟩ := accepted_map_iff.1 htold
  exact ⟨p', hp'.symm⟩

namespace Orders

/-- Where no line holds anything, all lists are empty. -/
theorem of_held_none (hp : ∃ p, c.policy = .lru p) (hnone : ∀ id, c.held id = none) :
    c.Orders fun _ => [] := by
  obtain ⟨p, hp⟩ := hp
  refine ⟨p, hp, fun set => ?_⟩
  symm
  rw [List.filterMap_eq_nil_iff]
  exact fun way _ => hnone ⟨set, way⟩

theorem mem_iff (h : c.Orders lists) (hs : c.Sound) {set : Nat} :
    pair ∈ lists set ↔ ∃ way, c.held ⟨set, way⟩ = some pair := by
  obtain ⟨p, hp, hlists⟩ := h
  rw [hlists, List.mem_filterMap]
  constructor
  · rintro ⟨way, -, hway⟩
    exact ⟨way, hway⟩
  · rintro ⟨way, hway⟩
    have hl := within_of_held hway
    exact ⟨way, ((hs.lru hp).mem_order hl.1).2 hl.2, hway⟩

theorem nodup (h : c.Orders lists) (hs : c.Sound) {set : Nat} (hset : set < c.geometry.sets) :
    (lists set).Nodup := by
  obtain ⟨p, hp, hlists⟩ := h
  rw [hlists]
  exact ((hs.lru hp).nodup_order hset).filterMap hs.way_unique

theorem length_le (h : c.Orders lists) (hs : c.Sound) {set : Nat} (hset : set < c.geometry.sets) :
    (lists set).length ≤ c.geometry.ways := by
  obtain ⟨p, hp, hlists⟩ := h
  have hlength := ((hs.lru hp).perm set hset).length_eq
  rw [List.length_range] at hlength
  rw [hlists, ← hlength]
  exact List.length_filterMap_le ..

/-- A line and its way's place in the order change, and only the list of its set does. -/
theorem reorder (h : c.Orders lists) {p p' : Lru} (hp : c.policy = .lru p)
    (hp' : c'.policy = .lru p') {order : List Nat} {value : Option (UInt64 × Bool)}
    (horder : p'.order = Function.update p.order id.set order)
    (hheld : c'.held = Function.update c.held id value) :
    c'.Orders (Function.update lists id.set
      (order.filterMap fun way => c'.held ⟨id.set, way⟩)) := by
  obtain ⟨p₀, hp₀, hlists⟩ := h
  obtain rfl : p = p₀ := Policy.lru.inj (hp.symm.trans hp₀)
  refine ⟨p', hp', fun set => ?_⟩
  rw [horder, Function.update_apply, Function.update_apply]
  by_cases hset : set = id.set
  · rw [if_pos hset, if_pos hset, hset]
  · rw [if_neg hset, if_neg hset, hlists, hheld]
    apply List.filterMap_congr
    intro way _
    exact (Function.update_of_ne (fun heq => hset (congrArg LineId.set heq)) ..).symm

/-- Without a line's way, the order is read as the list without what the line held. -/
theorem filterMap_erase_way (h : c.Orders lists) (hs : c.Sound) {p : Lru} (hp : c.policy = .lru p)
    (hl : id.Within c.geometry.sets c.geometry.ways) {value : Option (UInt64 × Bool)}
    (hheld : c'.held = Function.update c.held id value) :
    ((p.order id.set).erase id.way).filterMap (fun way => c'.held ⟨id.set, way⟩) =
      (c.held id).elim (lists id.set) (lists id.set).erase := by
  obtain ⟨p₀, hp₀, hlists⟩ := h
  obtain rfl : p = p₀ := Policy.lru.inj (hp.symm.trans hp₀)
  rw [hlists, ← filterMap_erase hs.way_unique, hheld]
  exact filterMap_update_erase ((hs.lru hp).nodup_order hl.1) id value

/-- A line whose way goes to the front of its order puts what it holds then in front of the list, in
place of what it has held before. -/
theorem promote (h : c.Orders lists) (hs : c.Sound) {p p' : Lru} (hp : c.policy = .lru p)
    (hp' : c'.policy = .lru p') (hl : id.Within c.geometry.sets c.geometry.ways)
    (horder : p'.order = Function.update p.order id.set
      (id.way :: (p.order id.set).erase id.way))
    (hheld : c'.held = Function.update c.held id (some pair)) :
    c'.Orders (Function.update lists id.set
      (pair :: (c.held id).elim (lists id.set) (lists id.set).erase)) := by
  have hfront : c'.held ⟨id.set, id.way⟩ = some pair := by
    rw [hheld]
    exact Function.update_self ..
  have hreordered := h.reorder hp hp' horder hheld
  rwa [List.filterMap_cons, hfront, h.filterMap_erase_way hs hp hl hheld] at hreordered

theorem touch (h : c.Orders lists) (hs : c.Sound) (hheld : c.held id = some pair)
    (told : ReplacementPolicy.touch c.policy id = .ok c'.policy) (hkept : c'.held = c.held) :
    c'.Orders (Function.update lists id.set (pair :: (lists id.set).erase pair)) := by
  have hl := within_of_held hheld
  have h' := h
  obtain ⟨p, hp, -⟩ := h'
  obtain ⟨p', hp', -, -, horder⟩ := (hs.lru hp).touch_spec hl
  rw [hp] at told
  have hpolicy := eq_lru_of_map hp' told
  have hsame : c'.held = Function.update c.held id (some pair) := by
    rw [hkept, ← hheld, Function.update_eq_self]
  have hpromoted := h.promote hs hp hpolicy hl horder hsame
  rwa [hheld, Option.elim_some] at hpromoted

/-- A filled block is put in front of its list, and the last one is evicted if the list is full. -/
theorem install {evicted : Option UInt64} (h : c.Orders lists) (hs : c.Sound)
    (hinstalled : c.Installed addr secure id evicted c') :
    evicted = (displaced c.geometry.ways (lists (c.geometry.setOf addr))).map (·.1) ∧
      c'.Orders (Function.update lists (c.geometry.setOf addr)
        ((c.geometry.blockOf addr, secure) ::
          room c.geometry.ways (lists (c.geometry.setOf addr)))) := by
  obtain ⟨set, way⟩ := id
  obtain rfl : set = c.geometry.setOf addr := hinstalled.set_eq
  have hway : way < c.geometry.ways := hinstalled.way_lt
  have hset := c.geometry.setOf_lt addr
  have hl : LineId.Within ⟨c.geometry.setOf addr, way⟩ c.geometry.sets c.geometry.ways :=
    ⟨hset, hway⟩
  obtain ⟨p, hp, hlists⟩ := h
  have hserves := hs.lru hp
  have hlength : (p.order (c.geometry.setOf addr)).length = c.geometry.ways := by
    rw [(hserves.perm _ hset).length_eq, List.length_range]
  obtain ⟨q, hvictim, hfill⟩ := hinstalled.told
  rw [hp] at hvictim
  obtain ⟨choice, hchoice, -⟩ := hserves.victim_spec fun id (hid : id ∈ c.candidates addr) =>
    candidates_within hid
  obtain ⟨rfl, rfl⟩ : choice = some _ ∧ Policy.lru p = q :=
    Prod.mk.inj (Except.ok.inj ((congrArg (Except.map _) hchoice).symm.trans hvictim))
  obtain ⟨p', hp', -, horder⟩ := hserves.fill_spec hl (c.geometry.tagOf addr)
  have hpolicy := eq_lru_of_map hp' hfill
  -- The victim is a vacant way if there is one, and the last way of the order otherwise.
  have hgiven := filterMap_give_up (hserves.nodup_order hset) ((hserves.mem_order hset).2 hway)
    (fun other hother => hinstalled.vacant_first other ((hserves.mem_order hset).1 hother))
    (fun hoccupied => by
      obtain ⟨last, hlast, hnamed⟩ := hserves.victim_of_full hset hs.ways_pos fun other hother =>
        Option.isSome_iff_ne_none.2 fun hnone =>
          hoccupied (hinstalled.vacant_first other hother hnone)
      have hsame := Prod.mk.inj (Except.ok.inj (hchoice.symm.trans hnamed))
      obtain rfl : way = last := congrArg LineId.way (Option.some.inj hsame.1)
      exact hlast)
  rw [filterMap_erase hs.way_unique, ← hlists, hlength] at hgiven
  rw [hinstalled.evicted_eq, displaced, room, ← hgiven.1, ← hgiven.2]
  exact ⟨rfl, promote ⟨p, hp, hlists⟩ hs hp hpolicy hl horder hinstalled.held_eq⟩

theorem drop (h : c.Orders lists) (hs : c.Sound) (hheld : c.held id = some pair)
    (hdropped : c.Dropped id c') :
    c'.Orders (Function.update lists id.set ((lists id.set).erase pair)) := by
  have hl := within_of_held hheld
  have h' := h
  obtain ⟨p, hp, -⟩ := h'
  obtain ⟨p', hp', -, horder⟩ := (hs.lru hp).invalidate_spec hl
  have htold := hdropped.told
  rw [hp] at htold
  have hpolicy := eq_lru_of_map hp' htold
  have hback : c'.held ⟨id.set, id.way⟩ = none := by
    rw [hdropped.held_eq]
    exact Function.update_self ..
  have hreordered := h.reorder hp hpolicy horder hdropped.held_eq
  rw [List.filterMap_append, h.filterMap_erase_way hs hp hl hdropped.held_eq, List.filterMap_cons,
    hback, hheld, Option.elim_some] at hreordered
  simpa using hreordered

end Orders

end Contents

end Residency
