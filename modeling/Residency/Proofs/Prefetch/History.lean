import Mathlib.Algebra.BigOperators.Group.Finset.Basic
import Mathlib.Algebra.GroupWithZero.Nat
import Mathlib.Data.List.Induction
import Mathlib.Data.List.Sort
import Residency.Prefetch.History

/-!
# What a signature records

Folding a word into a signature is addition modulo a power of two. So the signature of a life is
the sum of the program counters of all its accesses and of each of its addresses once, and the order
of the accesses leaves no trace in it. The addresses are kept as a set, in which the order leaves no
trace either.
-/

namespace Residency

/-! ## Sums of a fixed width -/

theorem toNat_combine {bits : Nat} (h : bits ≤ 64) (a b : UInt64) :
    (combine bits a b).toNat = (a.toNat + b.toNat) % 2 ^ bits := by
  have hdvd : 2 ^ bits ∣ 2 ^ 64 := Nat.pow_dvd_pow 2 h
  rw [combine, toNat_lowBits, Nat.min_eq_left h, Nat.one_shiftLeft, UInt64.toNat_add,
    Nat.mod_mod_of_dvd _ hdvd]

theorem combine_eq {bits : Nat} (h : bits ≤ 64) (a b : UInt64) :
    combine bits a b = .ofNat ((a.toNat + b.toNat) % 2 ^ bits) := by
  rw [← toNat_combine h, UInt64.ofNat_toNat]

theorem pairwise_insertAscending (addr : UInt64) {seen : List UInt64}
    (h : seen.Pairwise (· < ·)) : (insertAscending addr seen).Pairwise (· < ·) := by
  induction seen with
  | nil => exact List.pairwise_singleton _ _
  | cons a rest ih =>
    obtain ⟨hhead, hrest⟩ := List.pairwise_cons.1 h
    rw [insertAscending]
    split
    · rename_i hlt
      refine List.pairwise_cons.2 ⟨fun b hb => ?_, h⟩
      rcases List.mem_cons.1 hb with rfl | hb
      · exact hlt
      · exact UInt64.lt_trans hlt (hhead b hb)
    · rename_i hge
      split
      · exact h
      · rename_i hne
        have hgt : a < addr := UInt64.lt_of_le_of_ne (UInt64.not_lt.1 hge) (Ne.symm hne)
        refine List.pairwise_cons.2 ⟨fun b hb => ?_, ih hrest⟩
        rcases mem_insertAscending.1 hb with rfl | hb
        · exact hgt
        · exact hhead b hb

namespace HistoryEntry

/-! ## Lives -/

/-- What happens to a history. -/
inductive Event where
  | visit (addr pc : UInt64)
  /-- The present life ends. -/
  | death

/-- The history after an event. -/
def after (bits : Nat) (entry : HistoryEntry) : Event → HistoryEntry
  | .visit addr pc => entry.update bits addr pc
  | .death => empty

/-- The history after some events, from the start. -/
def run (bits : Nat) (events : List Event) : HistoryEntry :=
  events.foldl (after bits) empty

/-- The addresses and program counters of a life after an event. -/
def livedOn (visits : List (UInt64 × UInt64)) : Event → List (UInt64 × UInt64)
  | .visit addr pc => visits ++ [(addr, pc)]
  | .death => []

/-- The addresses and program counters of the present life: all since the last death. -/
def life (events : List Event) : List (UInt64 × UInt64) :=
  events.foldl livedOn []

/-! ## The sum of a life -/

variable {bits : Nat} {entry other : HistoryEntry} {visits visits' : List (UInt64 × UInt64)}

/-- All program counters of some visits, and each of their addresses once. -/
def footprint (visits : List (UInt64 × UInt64)) : Nat :=
  (visits.map (·.2.toNat)).sum + ∑ addr ∈ (visits.map Prod.fst).toFinset, addr.toNat

theorem footprint_append (visits : List (UInt64 × UInt64)) (addr pc : UInt64) :
    footprint (visits ++ [(addr, pc)]) = footprint visits + pc.toNat +
      if addr ∈ visits.map Prod.fst then 0 else addr.toNat := by
  have haddrs : ((visits ++ [(addr, pc)]).map Prod.fst).toFinset =
      insert addr (visits.map Prod.fst).toFinset := by
    ext a
    simp
  have hpcs : ((visits ++ [(addr, pc)]).map (·.2.toNat)).sum =
      (visits.map (·.2.toNat)).sum + pc.toNat := by
    simp
  rw [footprint, haddrs, hpcs, footprint]
  split_ifs with hseen
  · rw [Finset.insert_eq_of_mem (List.mem_toFinset.2 hseen)]
    omega
  · rw [Finset.sum_insert (mt List.mem_toFinset.1 hseen)]
    omega

theorem footprint_perm (h : visits.Perm visits') : footprint visits = footprint visits' := by
  rw [footprint, (h.map _).sum_eq, List.toFinset_eq_of_perm _ _ (h.map Prod.fst), footprint]

/-- A history of the visits of one life. -/
structure Records (bits : Nat) (entry : HistoryEntry) (visits : List (UInt64 × UInt64)) :
    Prop where
  signature : entry.signature.toNat = footprint visits % 2 ^ bits
  addresses : ∀ addr, addr ∈ entry.priorAddresses ↔ addr ∈ visits.map Prod.fst
  ascending : entry.priorAddresses.Pairwise (· < ·)

namespace Records

theorem empty (bits : Nat) : Records bits HistoryEntry.empty [] :=
  ⟨by simp [HistoryEntry.empty, footprint], by simp [HistoryEntry.empty], List.Pairwise.nil⟩

theorem update (hbits : bits ≤ 64) (h : Records bits entry visits) (addr pc : UInt64) :
    Records bits (entry.update bits addr pc) (visits ++ [(addr, pc)]) where
  signature := by
    have hpc : (combine bits entry.signature pc).toNat =
        (footprint visits + pc.toNat) % 2 ^ bits := by
      rw [toNat_combine hbits, h.signature, Nat.mod_add_mod]
    have hseen := h.addresses addr
    rw [HistoryEntry.update, footprint_append]
    dsimp only
    by_cases hmem : addr ∈ visits.map Prod.fst
    · rw [if_pos (hseen.2 hmem), if_pos hmem, hpc, Nat.add_zero]
    · rw [if_neg (mt hseen.1 hmem), if_neg hmem, toNat_combine hbits, hpc, Nat.mod_add_mod]
  addresses := by
    intro a
    rw [HistoryEntry.update, mem_insertAscending, h.addresses]
    simp [or_comm]
  ascending := pairwise_insertAscending addr h.ascending

/-- A history is known by the visits that it records, in whatever order. -/
theorem eq_of_perm (h : Records bits entry visits) (h' : Records bits other visits')
    (hperm : visits.Perm visits') : entry = other := by
  have hsignature : entry.signature = other.signature := by
    rw [← UInt64.toNat_inj, h.signature, h'.signature, footprint_perm hperm]
  have haddresses : entry.priorAddresses = other.priorAddresses := by
    refine h.ascending.eq_of_mem_iff h'.ascending fun addr => ?_
    rw [h.addresses, h'.addresses, (hperm.map Prod.fst).mem_iff]
  cases entry
  cases other
  exact congr (congrArg HistoryEntry.mk hsignature) haddresses

end Records

theorem records_run (hbits : bits ≤ 64) (events : List Event) :
    Records bits (run bits events) (life events) := by
  induction events using List.reverseRecOn with
  | nil => exact .empty bits
  | append_singleton events event ih =>
    rw [run, life, List.foldl_append, List.foldl_append]
    cases event with
    | visit addr pc => exact ih.update hbits addr pc
    | death => exact .empty bits

/-- **A signature is a sum.** After any events, the signature is the sum of all program counters of
the present life and of each of its addresses once, modulo `2 ^ bits`, and the prior addresses are
those of the present life. So other events whose present life has the same visits in another order
end in the same history. -/
theorem run_sums_life (hbits : bits ≤ 64) (events : List Event) :
    (run bits events).signature.toNat =
        (((life events).map fun visit => visit.2.toNat).sum +
          ∑ addr ∈ ((life events).map Prod.fst).toFinset, addr.toNat) % 2 ^ bits ∧
      (run bits events).priorAddresses.toFinset = ((life events).map Prod.fst).toFinset ∧
      ∀ reordered : List Event, (life reordered).Perm (life events) →
        run bits reordered = run bits events := by
  have hrecords := records_run hbits events
  refine ⟨hrecords.signature, ?addresses, ?reordered⟩
  case addresses =>
    ext addr
    rw [List.mem_toFinset, List.mem_toFinset, hrecords.addresses]
  case reordered =>
    intro reordered hperm
    exact (records_run hbits reordered).eq_of_perm hrecords hperm

/-- In eight bits, a second life with three visits to two blocks, and the same visits in another
order without the first life. -/
theorem run_sums_life_second_life :
    8 ≤ 64 ∧
      let events := [.visit 192 7, .death, .visit 128 9, .visit 64 100, .visit 128 3]
      (run 8 events).signature.toNat = (9 + 100 + 3 + (128 + 64)) % 256 ∧
        run 8 [.visit 64 100, .visit 128 3, .visit 128 9] = run 8 events := by
  have hbits : 8 ≤ 64 := by decide
  have hspec := run_sums_life hbits
    [.visit 192 7, .death, .visit 128 9, .visit 64 100, .visit 128 3]
  have hperm : List.Perm (α := UInt64 × UInt64) [(64, 100), (128, 3), (128, 9)]
      [(128, 9), (64, 100), (128, 3)] := by decide
  exact ⟨hbits, hspec.1.trans (by decide), hspec.2.2 _ hperm⟩

end HistoryEntry

end Residency
