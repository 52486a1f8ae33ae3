import Residency.Proofs.Cache.Reached
import Residency.Proofs.Contents.Counters

/-!
# The statistics balance

Every access hits or misses, every filled line has been filled for a miss or for a prefetch and is
evicted, dropped or still valid, and what the prefetcher asks for follows from its kind. This holds
after any requests, under every policy.
-/

namespace Residency

namespace Statistics

/-- What the counters of the prefetcher amount to, by its kind. -/
structure Directed (s : CacheSettings) (t : Statistics) : Prop where
  prefetchFills_le : t.prefetchFills ≤ t.prefetchesIssued
  by_kind : match s.prefetcher with
    | .none => t.prefetchesIssued = 0 ∧ t.deadPredictions = 0
    | .nextLine =>
      t.prefetchesIssued = t.accesses * max 1 s.prefetchDegree.toNat ∧ t.deadPredictions = 0
    | .dbcp => t.prefetchesIssued = t.deadPredictions ∧ t.deadPredictions ≤ t.invalidations

/-- The counters balance with each other and with the number of valid lines. -/
structure Balanced (s : CacheSettings) (t : Statistics) (valid : Nat) : Prop
    extends Directed s t where
  served : t.hits + t.misses = t.accesses
  filled : t.fills = t.misses + t.prefetchFills
  kept : t.fills = t.evictions + t.invalidations + valid

/-- How many blocks are asked for on one access, if `dead` are predicted dead. -/
def Asked (s : CacheSettings) (asked dead : Nat) : Prop :=
  match s.prefetcher with
  | .none => asked = 0 ∧ dead = 0
  | .nextLine => asked = max 1 s.prefetchDegree.toNat ∧ dead = 0
  | .dbcp => asked = dead

namespace Directed

variable {s : CacheSettings} {t t' : Statistics}

theorem drop (h : t.Directed s) (dropped : Nat) :
    Directed s { t with invalidations := t.invalidations + dropped } := by
  refine ⟨h.prefetchFills_le, ?_⟩
  have hkind := h.by_kind
  cases hprefetcher : s.prefetcher with
  | none =>
    rw [hprefetcher] at hkind
    exact hkind
  | nextLine =>
    rw [hprefetcher] at hkind
    exact hkind
  | dbcp =>
    rw [hprefetcher] at hkind
    exact ⟨hkind.1, Nat.le_trans hkind.2 (Nat.le_add_right ..)⟩

/-- One more access, on which as many blocks are asked for as the kind of prefetcher says, and not
more filled. Every block that is predicted dead is dropped. -/
theorem access (h : t.Directed s) {asked dead filled : Nat} (hasked : Asked s asked dead)
    (hfilled : filled ≤ asked) (haccesses : t'.accesses = t.accesses + 1)
    (hissued : t'.prefetchesIssued = t.prefetchesIssued + asked)
    (hfills : t'.prefetchFills = t.prefetchFills + filled)
    (hdead : t'.deadPredictions = t.deadPredictions + dead)
    (hdropped : t'.invalidations = t.invalidations + dead) : t'.Directed s := by
  have hle := h.prefetchFills_le
  have hkind := h.by_kind
  refine ⟨by omega, ?_⟩
  rw [Asked] at hasked
  cases hprefetcher : s.prefetcher with
  | none =>
    rw [hprefetcher] at hkind hasked
    dsimp only at hkind hasked ⊢
    omega
  | nextLine =>
    rw [hprefetcher] at hkind hasked
    dsimp only at hkind hasked ⊢
    rw [haccesses, Nat.succ_mul]
    omega
  | dbcp =>
    rw [hprefetcher] at hkind hasked
    dsimp only at hkind hasked ⊢
    omega

end Directed

end Statistics

namespace Cache

open Prefetcher

variable {s : CacheSettings} {c c' : Cache} {accesses : Nat}

section

variable {access : Access} {hit : Bool} {evicted : Option UInt64} {targets : List UInt64}
  {served watched filled : Contents Policy}

/-- A block that is predicted dead has just been served, so it is there to be dropped. -/
theorem watched_statistics (h : c.Reached s accesses)
    (hserve : c.contents.serve access = .ok (hit, evicted, served))
    (hwatch : Watched s access served targets watched) :
    ∃ dead, Statistics.Asked s targets.length dead ∧
      watched.statistics = { served.statistics with
        invalidations := served.statistics.invalidations + dead
        deadPredictions := served.statistics.deadPredictions + dead } := by
  obtain ⟨hserved, haccounted, hdead⟩ := (h.serve_spec access).of_ok hserve
  cases hwatch with
  | none kind =>
    refine ⟨0, ?_, rfl⟩
    rw [Statistics.Asked, kind]
    exact ⟨rfl, rfl⟩
  | nextLine kind length_eq =>
    refine ⟨0, ?_, rfl⟩
    rw [Statistics.Asked, kind, length_eq, CacheSettings.reach_of_nextLine kind, Nat.max_comm]
    exact ⟨rfl, rfl⟩
  | alive kind =>
    refine ⟨0, ?_, rfl⟩
    rw [Statistics.Asked, kind]
    rfl
  | dead kind drop =>
    obtain ⟨hvacated, -⟩ :=
      (h.dropDead_spec hserved.geometry_eq haccounted hdead access).of_ok drop
    cases hvacated with
    | found id held dropped =>
      refine ⟨1, ?_, Contents.dropDead_statistics drop⟩
      rw [Statistics.Asked, kind]
      rfl
    | missing absent s =>
      obtain ⟨id, hid⟩ := hserved.exists_held
      exact absurd hid (absent id)

theorem access_directed (h : c.Reached s accesses) (hdirected : c.statistics.Directed s)
    (hserve : c.contents.serve access = .ok (hit, evicted, served))
    (hwatch : Watched s access served targets watched)
    (hfill : watched.prefetchAll access.secure targets = .ok filled) :
    filled.statistics.Directed s := by
  have hserved := Contents.serve_statistics hserve
  obtain ⟨dead, hasked, hwatched⟩ := watched_statistics h hserve hwatch
  obtain ⟨fills, evictions, hle, hfilled⟩ := Contents.prefetchAll_statistics hfill
  rw [hserved] at hwatched
  rw [hwatched] at hfilled
  rw [hfilled]
  exact hdirected.access hasked hle rfl rfl rfl rfl rfl

end

/-- Whichever course a request takes, the counters of the prefetcher amount to the same. -/
theorem performed_directed {request : Request} {reply : Reply} (h : c.Reached s accesses)
    (hdirected : c.statistics.Directed s) (hperformed : c.Performed s request reply c') :
    c'.statistics.Directed s := by
  cases hperformed with
  | bypassAccess disabled => exact hdirected
  | access enabled serve watch prefetch => exact access_directed h hdirected serve watch prefetch
  | lineOf search => exact hdirected
  | contains search => exact hdirected
  | bypassInvalidate disabled => exact hdirected
  | invalidate enabled drop =>
    rw [statistics, Contents.dropBlock_statistics drop]
    exact hdirected.drop _
  | bypassFlush disabled => exact hdirected
  | flush enabled flush =>
    obtain ⟨dropped, heq⟩ := Contents.flush_statistics flush
    rw [statistics, heq]
    exact hdirected.drop dropped
  | enable => exact hdirected

theorem new_directed (h : Cache.new s = .ok c) : c.statistics.Directed s := by
  obtain ⟨geometry, policy, prefetcher, rfl, -⟩ := new_eq_ok h
  refine ⟨Nat.le_refl 0, ?_⟩
  cases hprefetcher : s.prefetcher with
  | none => exact ⟨rfl, rfl⟩
  | nextLine => exact ⟨(Nat.zero_mul _).symm, rfl⟩
  | dbcp => exact ⟨rfl, Nat.le_refl 0⟩

/-- **The statistics balance.** After any requests to a new cache, of any policy and with any
prefetcher, every access has been a hit or a miss, every fill a miss or a prefetch, and what has
been filled has been evicted or dropped or is in a valid line. No more blocks have been prefetched
than asked for: none, or as many as the degree for each access, or one for each predicted death, and
then a block has been dropped for it. -/
theorem run_balanced {settings : CacheSettings} (hnew : Cache.new settings = .ok c)
    (requests : List Request) :
    Delivers (c.run requests) (settings.Excuses (requests.countP isAccess)) fun result =>
      result.2.statistics.Balanced settings
        (result.2.contents.lines.toList.countP (·.valid)) := by
  refine (run_reached (motive := fun c => c.statistics.Directed settings) hnew (new_directed hnew)
    performed_directed requests).mono (fun _ hfault => hfault) ?_
  rintro ⟨replies, c'⟩ ⟨hreached, hdirected⟩
  have hconserved := hreached.accounted.conserved
  rw [hreached.accounted.occupancy_eq] at hconserved
  exact ⟨hdirected, hconserved.served, hconserved.filled, hconserved.kept⟩

/-- The third access to a block finds it dead, and another one takes its place. -/
theorem run_balanced_third_access :
    ∃ c replies c', Cache.new
        { enabled := true, sizeBytes := 128, ways := 2, prefetcher := .dbcp, dbcp := .hasty } =
          .ok c ∧
      c.run (List.replicate 3 (.access ⟨70, some 5, false⟩)) = .ok (replies, c') ∧
      c'.statistics = {
        accesses := 3, hits := 2, misses := 1, fills := 2, invalidations := 1
        deadPredictions := 1, prefetchesIssued := 1, prefetchFills := 1 } ∧
      c'.statistics.Balanced
        { enabled := true, sizeBytes := 128, ways := 2, prefetcher := .dbcp, dbcp := .hasty }
        (c'.contents.lines.toList.countP (·.valid)) := by
  obtain ⟨⟨replies, c'⟩, hrun, hbalanced⟩ := (run_balanced
    (show Cache.new
      { enabled := true, sizeBytes := 128, ways := 2, prefetcher := .dbcp, dbcp := .hasty } =
        .ok _ from rfl)
    (List.replicate 3 (.access ⟨70, some 5, false⟩))).of_isOk (by decide)
  refine ⟨_, replies, c', rfl, hrun, ?_, hbalanced⟩
  obtain rfl : _ = c' := congrArg Prod.snd (Except.ok.inj hrun)
  rfl

end Cache

end Residency
