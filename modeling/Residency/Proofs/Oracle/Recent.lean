import Residency.Proofs.Oracle.Refinement

/-!
# An oracle keeps what recency would keep

A cache that gives up the least recently used key still holds a key if at most as many other keys
have been inserted since as it has lines for them. Whatever the oracle has been told before, and
whatever it is told to protect, it is friendly to such a key: a time since the key's last insert is
charged at most once by each of the keys inserted at it or later, and not by its own.
-/

namespace Residency

namespace OracleCall

variable {κ : Type} [DecidableEq κ]

/-- How a call changes the keys that have been inserted since the last insert of a key. -/
def advance (key : κ) (since : Option (List κ)) : OracleCall κ → Option (List κ)
  | .insert other _ => if other = key then some [] else since.map (· ++ [other])
  | .remove other => if other = key then none else since
  | .reset => none

/-- The keys that have been inserted since the last insert of a key, in order, if the key has been
inserted and that insert is still on record. -/
def insertsSince (key : κ) (calls : List (OracleCall κ)) : Option (List κ) :=
  calls.foldl (advance key) none

theorem insertsSince_append (key : κ) (calls : List (OracleCall κ)) (call : OracleCall κ) :
    insertsSince key (calls ++ [call]) = call.advance key (insertsSince key calls) := by
  simp [insertsSince]

end OracleCall

namespace Chronicle

variable {κ : Type} [DecidableEq κ] {c : Chronicle κ} {ways window start : Nat} {key : κ}

theorem ofCalls_append (window : Nat) (calls : List (OracleCall κ)) (call : OracleCall κ) :
    ofCalls window (calls ++ [call]) = (ofCalls window calls).perform window call := by
  simp [ofCalls]

theorem Coherent.perform (h : c.Coherent) (window : Nat) (call : OracleCall κ) :
    (c.perform window call).Coherent := by
  cases call with
  | insert key protect => exact h.insert window key protect
  | remove key => exact h.remove key
  | reset => exact .empty

theorem ofCalls_coherent (window : Nat) (calls : List (OracleCall κ)) :
    (ofCalls window calls).Coherent := by
  induction calls using List.reverseRecOn with
  | nil => exact .empty
  | append_singleton calls call ih =>
    rw [ofCalls_append]
    exact ih.perform window call

/-- What has been inserted since the last insert of a key stands behind it in the chronicle. -/
theorem insertsSince_eq (window : Nat) (key : κ) (calls : List (OracleCall κ)) :
    OracleCall.insertsSince key calls =
      ((ofCalls window calls).last key).map (ofCalls window calls).keys.drop := by
  induction calls using List.reverseRecOn with
  | nil => rfl
  | append_singleton calls call ih =>
    have hcoherent := ofCalls_coherent window calls
    rw [OracleCall.insertsSince_append, ih, ofCalls_append]
    generalize ofCalls window calls = c at hcoherent
    cases call with
    | insert other protect =>
      simp only [OracleCall.advance, Chronicle.perform, last_insert]
      by_cases hkey : other = key
      · simp [hkey, insert, time]
      · rw [if_neg hkey, if_neg (Ne.symm hkey)]
        cases hlast : c.last key with
        | none => rfl
        | some start =>
          have hle : start ≤ c.keys.length := hcoherent.last_le hlast
          simp [insert, List.drop_append_of_le_length hle]
    | remove other =>
      simp only [OracleCall.advance, Chronicle.perform, last_remove]
      by_cases hkey : other = key
      · simp [hkey]
      · rw [if_neg hkey, if_neg (Ne.symm hkey)]
        rfl
    | reset => rfl

/-- A time behind the last insert of a key is charged by fewer keys than were inserted since. -/
theorem Coherent.load_lt_since (h : c.Coherent) {t : Nat} (hstart : start < t) (ht : t ≤ c.time) :
    c.load t < (c.keys.drop start).toFinset.card := by
  have hload := h.load_lt (by omega) ht
  have hsubset : c.since t ⊆ (c.keys.drop start).toFinset := by
    intro k hk
    rw [since, List.mem_toFinset] at hk
    rw [List.mem_toFinset]
    exact (List.drop_sublist_drop_left c.keys (by omega)).subset hk
  exact Nat.lt_of_lt_of_le hload (Finset.card_le_card hsubset)

/-- A key is kept if no more keys than there are ways have been inserted since. -/
theorem Coherent.keeps_recent (h : c.Coherent) (hlast : c.last key = some start)
    (hwindow : c.time - start < window) (hfew : (c.keys.drop start).toFinset.card ≤ ways) :
    c.Keeps ways window key := by
  rw [keeps_iff]
  refine ⟨start, hlast, hwindow, ?_⟩
  intro t hstart ht
  exact Nat.lt_of_lt_of_le (h.load_lt_since hstart ht) hfew

end Chronicle

namespace Oracle

open OracleCall

variable {κ : Type} [DecidableEq κ] {ways multiplier : Nat} {o : Oracle κ}

/-- **The oracle never overrules recency.** After any calls to a new oracle, a key whose last insert
is still on record is judged friendly if fewer inserts have happened since than the ring is long,
and they concern at most as many distinct keys as there are ways. -/
theorem run_keeps_recent (hways : ways < UInt32.size) (ho : new ways multiplier = .ok o)
    (calls : List (OracleCall κ)) :
    Delivers (o.run calls)
      (fun fault => fault = .exhausted ∧ ∃ earlier, earlier <+: calls ∧
        UInt64.size ≤ (Chronicle.ofCalls (ways * multiplier) earlier).time)
      (fun o' => ∀ key since, insertsSince key calls = some since →
        since.length < ways * multiplier → since.toFinset.card ≤ ways →
        o'.seen? key = some (o'.clock - since.length) ∧ o'.predict key = .ok .friendly) := by
  refine ((new_tracks hways ho).run calls).mono (fun _ => id) ?_
  intro o' ht key since hsince hlength hfew
  let c := Chronicle.ofCalls (ways * multiplier) calls
  have htracks : Tracks ways (ways * multiplier) o' c := ht
  rw [Chronicle.insertsSince_eq (ways * multiplier), Option.map_eq_some_iff] at hsince
  obtain ⟨start, hlast, rfl⟩ := hsince
  have hle : start ≤ c.keys.length := htracks.coherent.last_le hlast
  have hclock : o'.clock = c.keys.length := htracks.clock_eq
  have hsince : (c.keys.drop start).length = c.keys.length - start := List.length_drop
  constructor
  · rw [htracks.seen_eq, hclock]
    change c.last key = some (c.keys.length - (c.keys.drop start).length)
    rw [hlast, hsince, Nat.sub_sub_self hle]
  · have hwindow : c.time - start < ways * multiplier := hsince ▸ hlength
    have hkeeps := htracks.coherent.keeps_recent hlast hwindow hfew
    rw [htracks.predict_eq, decide_eq_true hkeeps]
    rfl

/-- Two ways, and three inserts of two other keys since: the oracle is friendly, although it has
been told to protect both of them. -/
theorem run_keeps_recent_two_others :
    ∃ o o' : Oracle Nat, 2 < UInt32.size ∧ new 2 2 = .ok o ∧
      o.run [.insert 2 true, .insert 1 false, .insert 2 true, .insert 3 true, .insert 2 true] =
        .ok o' ∧
      insertsSince 1
        [.insert 2 true, .insert 1 false, .insert 2 true, .insert 3 true, .insert 2 true] =
        some [2, 3, 2] ∧
      [2, 3, 2].length < 2 * 2 ∧ [2, 3, 2].toFinset.card ≤ 2 ∧
      o'.predict 1 = .ok .friendly := by
  obtain ⟨o', ho', h⟩ := (run_keeps_recent (show 2 < UInt32.size by decide)
    (show new 2 2 = .ok _ from rfl)
    [.insert 2 true, .insert 1 false, .insert 2 true, .insert 3 true, .insert 2 true]).of_isOk
    (by decide)
  exact ⟨_, o', by decide, rfl, ho', rfl, by decide, by decide,
    (h 1 [2, 3, 2] rfl (by decide) (by decide)).2⟩

end Oracle

end Residency
