import Mathlib.Data.Finset.Card
import Mathlib.Data.List.TakeWhile
import Residency.Proofs.TaggedTable.Recency

/-!
# A key that is visited often enough stays bound

Only the last binding of a full list is let go, and only for a key that the list does not have. So a
key is let go only after as many other keys of its set have been visited since its own last visit as
the set has ways. The keys in front of it in its list are among those.
-/

namespace Residency

/-- A visit that leaves an entry in front of its list, whether the key was bound or not. -/
def Visit.renew {E : Type} (key : TableKey) (data : E) : Visit E where
  key
  uses := [.touch, .write data]
  install := some data

namespace RecencyMap

variable {E : Type} {m : RecencyMap E} {key other : TableKey} {data : E}

/-- The keys that have been used more recently than a key of their set. -/
def ahead (m : RecencyMap E) (key : TableKey) : Finset TableKey :=
  (((m.listOf key).map (·.1)).takeWhile (· ≠ key)).toFinset

/-- What stays behind an entry that is put in front. -/
def behind (m : RecencyMap E) (key : TableKey) : List (TableKey × E) :=
  if (m.find? key).isSome then (m.listOf key).filter (·.1 ≠ key) else room m.assoc (m.listOf key)

/-! ## Lists of keys -/

theorem takeWhile_filter_subset {f g : TableKey → Bool} (h : ∀ a, f a = false → g a = true)
    (keys : List TableKey) : (keys.filter g).takeWhile f ⊆ keys.takeWhile f := by
  induction keys with
  | nil => exact List.Subset.refl _
  | cons a rest ih =>
    by_cases ha : f a = true
    · rw [List.takeWhile_cons_of_pos ha]
      by_cases hg : g a = true
      · rw [List.filter_cons_of_pos hg, List.takeWhile_cons_of_pos ha]
        exact List.cons_subset_cons a ih
      · rw [List.filter_cons_of_neg hg]
        exact List.subset_cons_of_subset a ih
    · rw [Bool.not_eq_true] at ha
      rw [List.filter_cons_of_pos (h a ha), List.takeWhile_cons_of_neg (by simp [ha])]
      exact List.nil_subset _

theorem takeWhile_subset_of_prefix {f : TableKey → Bool} {front keys : List TableKey}
    (h : front <+: keys) : front.takeWhile f ⊆ keys.takeWhile f := by
  obtain ⟨rest, rfl⟩ := h
  rw [List.takeWhile_append]
  split
  · rename_i hall
    rw [List.Sublist.eq_of_length (List.takeWhile_sublist f) hall]
    exact List.subset_append_left ..
  · exact List.Subset.refl _

theorem takeWhile_ne_last {keys : List TableKey} {last : TableKey} (hn : keys.Nodup)
    (hlast : keys.getLast? = some last) : keys.takeWhile (· ≠ last) = keys.dropLast := by
  obtain ⟨front, rfl⟩ := List.getLast?_eq_some_iff.1 hlast
  rw [List.dropLast_concat, List.takeWhile_append_of_pos]
  · simp
  · intro a ha
    rw [List.nodup_append] at hn
    exact decide_eq_true (hn.2.2 a ha last (by simp))

theorem length_takeWhile_ne_lt {keys : List TableKey} (hkey : key ∈ keys) :
    (keys.takeWhile (· ≠ key)).length < keys.length := by
  refine Nat.lt_of_le_of_ne (List.takeWhile_sublist _).length_le fun hlength => ?_
  rw [← (List.takeWhile_sublist _).eq_of_length hlength] at hkey
  simpa using List.mem_takeWhile_imp hkey

theorem find?_eq_none_iff (m : RecencyMap E) (key : TableKey) :
    m.find? key = none ↔ key ∉ (m.listOf key).map (·.1) := by
  simp only [find?, entryIn, Option.map_eq_none_iff, List.find?_eq_none, decide_eq_true_eq,
    List.mem_map, not_exists, not_and]

/-! ## What an entry in front leaves -/

theorem listOf_renew (m : RecencyMap E) (key other : TableKey) (data : E) :
    (m.visit (.renew key data)).2.listOf other =
      if m.setOf other.1 = m.setOf key.1 then (key, data) :: m.behind key else m.listOf other := by
  have hself (list : List (TableKey × E)) : (m.setList key list).listOf key = list := by
    rw [listOf_setList, if_pos rfl]
  rw [visit, behind]
  cases hfound : m.find? key with
  | some old =>
    have hfilter : rebind key data (inFront key old (m.listOf key)) =
        (key, data) :: (m.listOf key).filter (·.1 ≠ key) := by
      rw [rebind, inFront, List.map_cons, if_pos rfl]
      congr 1
      refine (List.map_congr_left fun binding hbinding => ?_).trans (List.map_id _)
      exact if_neg (by simpa using (List.mem_filter.1 hbinding).2)
    simp only [Visit.renew, hfound, List.foldl_cons, List.foldl_nil, useKey, touch, write, hself,
      setList_setList, hfilter, Option.isSome_some, if_true]
    exact listOf_setList ..
  | none =>
    simp only [Visit.renew, hfound, install, push, makeRoom, hself, setList_setList,
      Option.isSome_none, Bool.false_eq_true, if_false]
    exact listOf_setList ..

theorem find?_renew_self (m : RecencyMap E) (key : TableKey) (data : E) :
    (m.visit (.renew key data)).2.find? key = some data := by
  rw [find?, listOf_renew, if_pos rfl, entryIn_cons_self]

theorem ahead_renew_self (m : RecencyMap E) (key : TableKey) (data : E) :
    (m.visit (.renew key data)).2.ahead key = ∅ := by
  simp [ahead, listOf_renew]

theorem ahead_renew_of_set_ne (h : m.setOf other.1 ≠ m.setOf key.1) :
    (m.visit (.renew key data)).2.ahead other = m.ahead other := by
  rw [ahead, listOf_renew, if_neg h, ahead]

theorem takeWhile_behind_subset (h : other ≠ key) :
    ((m.behind key).map (·.1)).takeWhile (· ≠ other) ⊆
      ((m.listOf key).map (·.1)).takeWhile (· ≠ other) := by
  rw [behind]
  split
  · have hfilter : ((m.listOf key).filter (·.1 ≠ key)).map (·.1) =
        ((m.listOf key).map (·.1)).filter (· ≠ key) := by
      rw [List.filter_map]
      rfl
    rw [hfilter]
    apply takeWhile_filter_subset
    intro a ha
    have ha : a = other := by simpa using ha
    simpa [ha] using h
  · rw [room]
    split
    · exact takeWhile_subset_of_prefix ((List.dropLast_prefix _).map _)
    · exact List.Subset.refl _

/-- Only the visited key can come to lie in front of another one. -/
theorem ahead_renew_subset (h : other ≠ key) :
    (m.visit (.renew key data)).2.ahead other ⊆ insert key (m.ahead other) := by
  by_cases hset : m.setOf other.1 = m.setOf key.1
  · have hlist : m.listOf other = m.listOf key := by rw [listOf, listOf, hset]
    intro a ha
    rw [ahead, listOf_renew, if_pos hset, List.map_cons, List.takeWhile_cons_of_pos
      (by simpa using Ne.symm h), List.toFinset_cons, Finset.mem_insert, List.mem_toFinset] at ha
    rw [Finset.mem_insert, ahead, List.mem_toFinset, hlist]
    exact ha.imp_right fun hmem => takeWhile_behind_subset h hmem
  · rw [ahead_renew_of_set_ne hset]
    exact Finset.subset_insert ..

/-! ## Maps that a table keeps -/

/-- The map is kept by some table. -/
def Kept (m : RecencyMap E) : Prop :=
  ∃ table : TaggedTable Lru E, table.Represents m

namespace Kept

theorem visit (h : m.Kept) (v : Visit E) : (m.visit v).2.Kept := by
  obtain ⟨table, htable⟩ := h
  obtain ⟨table', -, htable'⟩ := htable.visit_spec v
  exact ⟨table', htable'⟩

theorem nodup_keys (h : m.Kept) (key : TableKey) : ((m.listOf key).map (·.1)).Nodup := by
  obtain ⟨table, htable⟩ := h
  apply htable.nodup_keys
  rw [htable.setOf_eq]
  exact table.setOf_lt key.1

theorem placed (h : m.Kept) (key : TableKey) :
    ∀ binding ∈ m.listOf key, m.setOf binding.1.1 = m.setOf key.1 := by
  obtain ⟨table, htable⟩ := h
  exact htable.agrees.placed _

theorem length_le (h : m.Kept) (key : TableKey) : (m.listOf key).length ≤ m.assoc := by
  obtain ⟨table, htable⟩ := h
  rw [htable.assoc_eq]
  apply htable.length_le
  rw [htable.setOf_eq]
  exact table.setOf_lt key.1

theorem find?_renew_of_ne (h : m.Kept) (hne : other ≠ key) :
    (m.visit (.renew key data)).2.find? other =
      if m.displaced (.renew key data) = some other then none else m.find? other :=
  find?_visit (h.nodup_keys key) (h.placed key) hne

/-- A visit binds no other key. -/
theorem find?_renew_eq_none (h : m.Kept) (hne : other ≠ key) (hnone : m.find? other = none) :
    (m.visit (.renew key data)).2.find? other = none := by
  rw [h.find?_renew_of_ne hne, hnone, ite_self]

/-- A key that is let go and the keys in front of it fill a set. The visited key is none of them. -/
theorem card_of_displaced (h : m.Kept) (hother : m.displaced (.renew key data) = some other) :
    m.setOf other.1 = m.setOf key.1 ∧ (insert key (m.ahead other)).card = m.assoc := by
  rw [displaced, Visit.renew] at hother
  cases hkey : m.find? key with
  | some old => simp [hkey] at hother
  | none =>
    simp only [hkey, Option.ite_none_right_eq_some] at hother
    obtain ⟨hfull, hlast⟩ := hother
    have hset : m.setOf other.1 = m.setOf key.1 := by
      obtain ⟨binding, hbinding, rfl⟩ := Option.map_eq_some_iff.1 hlast
      exact h.placed key binding (List.mem_of_getLast? hbinding)
    have hlist : m.listOf other = m.listOf key := by rw [listOf, listOf, hset]
    have hnodup := h.nodup_keys key
    rw [← List.getLast?_map] at hlast
    have hahead : m.ahead other = ((m.listOf key).map (·.1)).dropLast.toFinset := by
      rw [ahead, hlist, takeWhile_ne_last hnodup hlast]
    have hnot : key ∉ m.ahead other := by
      rw [hahead, List.mem_toFinset]
      exact fun hmem => (m.find?_eq_none_iff key).1 hkey (List.mem_of_mem_dropLast hmem)
    have hpos : 0 < (m.listOf key).length := by
      rw [← List.length_map (·.1)]
      exact List.length_pos_of_mem (List.mem_of_getLast? hlast)
    refine ⟨hset, ?_⟩
    rw [Finset.card_insert_of_notMem hnot, hahead,
      List.toFinset_card_of_nodup (hnodup.sublist (List.dropLast_sublist _)), List.length_dropLast,
      List.length_map, ← hfull]
    omega

/-- A key stays bound, and to the same entry, as long as the keys in front of it and the visited one
leave a way of its set. -/
theorem find?_renew_eq (h : m.Kept) (hne : other ≠ key)
    (hcard : m.setOf other.1 = m.setOf key.1 → (insert key (m.ahead other)).card < m.assoc) :
    (m.visit (.renew key data)).2.find? other = m.find? other := by
  rw [h.find?_renew_of_ne hne, if_neg]
  intro hdisplaced
  obtain ⟨hset, hfull⟩ := h.card_of_displaced hdisplaced
  exact absurd (hcard hset) hfull.not_lt

/-- The keys in front of a bound one leave a way for it. -/
theorem card_ahead_lt (h : m.Kept) (hbound : m.find? key ≠ none) :
    (m.ahead key).card < m.assoc := by
  have hkey : key ∈ (m.listOf key).map (·.1) :=
    not_not.1 (mt (m.find?_eq_none_iff key).2 hbound)
  calc (m.ahead key).card
      ≤ (((m.listOf key).map (·.1)).takeWhile (· ≠ key)).length := List.toFinset_card_le _
    _ < ((m.listOf key).map (·.1)).length := length_takeWhile_ne_lt hkey
    _ = (m.listOf key).length := List.length_map ..
    _ ≤ m.assoc := h.length_le key

end Kept

end RecencyMap

end Residency
