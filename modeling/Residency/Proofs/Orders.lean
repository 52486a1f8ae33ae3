import Mathlib.Data.List.Nodup
import Mathlib.Logic.Function.Basic
import Residency.Slot

/-!
# Orders read through what they hold

A policy keeps an order of the ways of a set. Read through what the ways hold, the order becomes a
list of values, in which vacant ways do not show. What a way's place in the order is taken from is
described here as what its value is taken from.
-/

namespace Residency

/-- Values that are taken at one place at most still are after a new one has been put somewhere. -/
theorem update_unique {α β : Type} [DecidableEq α] {f : α → Option β} {place : α}
    {value : Option β} (hf : ∀ a b x, f a = some x → f b = some x → a = b)
    (hvalue : ∀ a x, value = some x → f a = some x → a = place) (a b : α) (x : β)
    (ha : Function.update f place value a = some x)
    (hb : Function.update f place value b = some x) : a = b := by
  rw [Function.update_apply] at ha hb
  by_cases hpa : a = place
  · by_cases hpb : b = place
    · rw [hpa, hpb]
    · rw [if_pos hpa] at ha
      rw [if_neg hpb] at hb
      exact absurd (hvalue b x ha hb) hpb
  · rw [if_neg hpa] at ha
    by_cases hpb : b = place
    · rw [if_pos hpb] at hb
      exact absurd (hvalue a x hb ha) hpa
    · rw [if_neg hpb] at hb
      exact hf a b x ha hb

variable {α β : Type} [BEq α] [LawfulBEq α]

/-- Where no two elements have the same value, an element takes its value with it. -/
theorem filterMap_erase [BEq β] [LawfulBEq β] {f : α → Option β}
    (hf : ∀ a b x, f a = some x → f b = some x → a = b) (as : List α) (a : α) :
    (as.erase a).filterMap f = (f a).elim (as.filterMap f) (as.filterMap f).erase := by
  induction as with
  | nil => cases f a <;> rfl
  | cons b rest ih =>
    by_cases hb : b = a
    · subst hb
      rw [List.erase_cons_head]
      cases hfb : f b with
      | none => rw [List.filterMap_cons_none hfb, Option.elim_none]
      | some x => rw [List.filterMap_cons_some hfb, Option.elim_some, List.erase_cons_head]
    · rw [List.erase_cons_tail (by simpa using hb)]
      cases hfb : f b with
      | none => rw [List.filterMap_cons_none hfb, List.filterMap_cons_none hfb, ih]
      | some y =>
        rw [List.filterMap_cons_some hfb, List.filterMap_cons_some hfb, ih]
        cases hfa : f a with
        | none => rfl
        | some x =>
          have hne : y ≠ x := by
            rintro rfl
            exact hb (hf b a y hfb hfa)
          rw [Option.elim_some, Option.elim_some, List.erase_cons_tail (by simpa using hne)]

theorem filterMap_erase_of_none {f : α → Option β} {a : α} (h : f a = none) (as : List α) :
    (as.erase a).filterMap f = as.filterMap f := by
  induction as with
  | nil => rfl
  | cons b rest ih =>
    by_cases hb : b = a
    · subst hb
      rw [List.erase_cons_head, List.filterMap_cons_none h]
    · rw [List.erase_cons_tail (by simpa using hb), List.filterMap_cons, List.filterMap_cons, ih]

/-- Where only one slot changes, the other ways of its set have the values that they had. -/
theorem filterMap_update_erase {f : LineId → Option β} {ways : List Nat} (hn : ways.Nodup)
    (id : LineId) (value : Option β) :
    (ways.erase id.way).filterMap (fun way => Function.update f id value ⟨id.set, way⟩) =
      (ways.erase id.way).filterMap fun way => f ⟨id.set, way⟩ := by
  apply List.filterMap_congr
  intro way hway
  apply Function.update_of_ne
  intro heq
  obtain rfl : way = id.way := congrArg LineId.way heq
  exact hn.not_mem_erase hway

/-- A slot whose way goes to the front of an order puts its new value in front. -/
theorem filterMap_update_front {f : LineId → Option β} {ways : List Nat} (hn : ways.Nodup)
    (id : LineId) (x : β) :
    (id.way :: ways.erase id.way).filterMap
        (fun way => Function.update f id (some x) ⟨id.set, way⟩) =
      x :: (ways.erase id.way).filterMap fun way => f ⟨id.set, way⟩ := by
  have hfront : Function.update f id (some x) ⟨id.set, id.way⟩ = some x := Function.update_self ..
  rw [List.filterMap_cons, hfront, filterMap_update_erase hn]

/-- A slot without a value whose way goes to the end of an order does not show. -/
theorem filterMap_update_end {f : LineId → Option β} {ways : List Nat} (hn : ways.Nodup)
    (id : LineId) :
    (ways.erase id.way ++ [id.way]).filterMap
        (fun way => Function.update f id none ⟨id.set, way⟩) =
      (ways.erase id.way).filterMap fun way => f ⟨id.set, way⟩ := by
  have hend : Function.update f id none ⟨id.set, id.way⟩ = none := Function.update_self ..
  rw [List.filterMap_append, filterMap_update_erase hn, List.filterMap_cons, hend,
    List.filterMap_nil, List.append_nil]

theorem erase_getLast {as : List α} (hn : as.Nodup) {a : α} (h : as.getLast? = some a) :
    as.erase a = as.dropLast := by
  have heq := List.dropLast_append_getLast? a h
  have hnot : a ∉ as.dropLast := fun hmem => by
    rw [← heq] at hn
    exact (List.nodup_append.1 hn).2.2 a hmem a (List.mem_singleton_self a) rfl
  conv_lhs => rw [← heq]
  rw [List.erase_append_right _ hnot, List.erase_cons_head, List.append_nil]

/-- Where an element without a value goes first and the last element otherwise, the values lose
their last one, and only if every element has one. -/
theorem filterMap_give_up {f : α → Option β} {as : List α} (hn : as.Nodup) {a : α} (ha : a ∈ as)
    (hvacant : ∀ b ∈ as, f b = none → f a = none) (hlast : f a ≠ none → as.getLast? = some a) :
    f a = (if (as.filterMap f).length = as.length then (as.filterMap f).getLast? else none) ∧
      (as.erase a).filterMap f =
        if (as.filterMap f).length = as.length then (as.filterMap f).dropLast
        else as.filterMap f := by
  cases hfa : f a with
  | none =>
    have hlt := List.length_filterMap_lt_length_iff_exists.2 ⟨a, ha, hfa⟩
    rw [if_neg (Nat.ne_of_lt hlt), if_neg (Nat.ne_of_lt hlt)]
    exact ⟨rfl, filterMap_erase_of_none hfa as⟩
  | some x =>
    have hne : f a ≠ none := by rw [hfa]; exact Option.some_ne_none x
    have hfull : (as.filterMap f).length = as.length :=
      List.filterMap_length_eq_length.2 fun b hb =>
        Option.isSome_iff_ne_none.2 fun hnone => hne (hvacant b hb hnone)
    have hend : as.filterMap f = as.dropLast.filterMap f ++ [x] := by
      conv_lhs => rw [← List.dropLast_append_getLast? a (hlast hne)]
      rw [List.filterMap_append]
      simp [hfa]
    rw [if_pos hfull, if_pos hfull, erase_getLast hn (hlast hne), hend, List.getLast?_concat,
      List.dropLast_concat]
    exact ⟨rfl, rfl⟩

end Residency
