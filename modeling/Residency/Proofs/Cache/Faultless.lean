import Residency.Proofs.Cache.Acceptance
import Residency.Proofs.Cache.Decisions
import Residency.Proofs.Prefetch.Widths

/-!
# A cache in use does not fault

The only fault that a run of requests can end with is a counter without a value left, after some
2⁶⁴ events. Every index lies in its array, no divisor is zero, and no sum, difference or product
leaves its word. What is stored in narrower fields (re-reference values, occupancies of an oracle,
confidences) fits in them throughout.
-/

namespace Residency

/-! ## Contents -/

namespace Contents

open ReplacementPolicy

variable {σ : Type} {P : σ → Prop} {c c' : Contents σ} {id : LineId} {addr : UInt64}
  {secure dropped : Bool}

/-- The policy satisfies `P`, and the statistics fit in words. -/
structure Holds (P : σ → Prop) (c : Contents σ) : Prop where
  policy : P c.policy
  statistics : c.statistics.Fits

theorem Holds.count {f : Statistics → Statistics} (h : P c.policy) (hc : c.count f = .ok c') :
    c'.Holds P := by
  obtain ⟨_, hfits, hc⟩ := bind_eq_ok_iff.1 hc
  obtain rfl := Except.ok.inj hc
  exact ⟨h, require_eq_ok_iff.1 hfits⟩

theorem Holds.foldlM {α : Type} {step : Contents σ → α → Checked (Contents σ)} {as : List α}
    (hstep : ∀ {c c' : Contents σ} {a : α}, c.Holds P → step c a = .ok c' → c'.Holds P)
    (h : c.Holds P) (hc : as.foldlM step c = .ok c') : c'.Holds P := by
  induction as generalizing c with
  | nil =>
    obtain rfl := Except.ok.inj hc
    exact h
  | cons a rest ih =>
    rw [List.foldlM_cons] at hc
    obtain ⟨c₁, hfirst, hc⟩ := bind_eq_ok_iff.1 hc
    exact ih (hstep h hfirst) hc

variable [ReplacementPolicy σ]

namespace Holds

theorem use (hkept : Kept P) (h : c.Holds P) (hc : c.use id = .ok c') : c'.Holds P := by
  obtain ⟨policy, hpolicy, hc⟩ := bind_eq_ok_iff.1 hc
  obtain rfl := Except.ok.inj hc
  exact ⟨hkept h.policy (perform_touch_iff.2 ⟨rfl, hpolicy⟩), h.statistics⟩

theorem install (hkept : Kept P) {evicted : Option UInt64} (h : c.Holds P)
    (hc : c.install addr secure = .ok (evicted, c')) : c'.Holds P := by
  simp only [Contents.install, bind_eq_ok_iff] at hc
  obtain ⟨⟨choice, asked⟩, hvictim, old, -, hc⟩ := hc
  have hasked : P asked :=
    hkept h.policy (show perform c.policy (.victim _) = .ok (choice, asked) from hvictim)
  split at hc
  all_goals
    simp only [bind_eq_ok_iff, pure_eq_ok, Except.ok.injEq, Prod.mk.injEq] at hc
    obtain ⟨_, -, _, -, told, hfill, _, hcount, -, rfl⟩ := hc
    exact count (c := ⟨_, _, told, _⟩) (hkept hasked (perform_fill_iff.2 ⟨rfl, hfill⟩)) hcount

theorem dropLine (hkept : Kept P) (h : c.Holds P) (hc : c.dropLine id = .ok c') : c'.Holds P := by
  obtain ⟨lines, -, hc⟩ := bind_eq_ok_iff.1 hc
  obtain ⟨told, htold, hcount⟩ := bind_eq_ok_iff.1 hc
  exact count (c := ⟨_, _, told, _⟩)
    (hkept h.policy (perform_invalidate_iff.2 ⟨rfl, htold⟩)) hcount

theorem dropBlock (hkept : Kept P) (h : c.Holds P)
    (hc : c.dropBlock addr secure = .ok (dropped, c')) : c'.Holds P := by
  obtain ⟨found, -, hc⟩ := bind_eq_ok_iff.1 hc
  cases found with
  | none =>
    obtain ⟨-, rfl⟩ := Prod.mk.inj (Except.ok.inj hc)
    exact h
  | some id =>
    obtain ⟨_, hdrop, hc⟩ := bind_eq_ok_iff.1 hc
    obtain ⟨-, rfl⟩ := Prod.mk.inj (Except.ok.inj hc)
    exact h.dropLine hkept hdrop

theorem dropDead (hkept : Kept P) (h : c.Holds P)
    (hc : BlockInvalidator.dropDead c addr secure = .ok (dropped, c')) : c'.Holds P := by
  obtain ⟨c₁, hcount, hdrop⟩ := bind_eq_ok_iff.1 hc
  exact (count h.policy hcount).dropBlock hkept hdrop

theorem serve (hkept : Kept P) {access : Access} {hit : Bool} {evicted : Option UInt64}
    (h : c.Holds P) (hc : c.serve access = .ok (hit, evicted, c')) : c'.Holds P := by
  obtain ⟨c₁, hcount, hc⟩ := bind_eq_ok_iff.1 hc
  obtain ⟨found, -, hc⟩ := bind_eq_ok_iff.1 hc
  have h₁ : c₁.Holds P := count h.policy hcount
  cases found with
  | some id =>
    simp only [bind_eq_ok_iff, pure_eq_ok, Except.ok.injEq, Prod.mk.injEq] at hc
    obtain ⟨c₂, hhit, c₃, huse, -, -, rfl⟩ := hc
    exact (count h₁.policy hhit).use hkept huse
  | none =>
    simp only [bind_eq_ok_iff, pure_eq_ok, Except.ok.injEq, Prod.mk.injEq] at hc
    obtain ⟨c₂, hmiss, ⟨_, c₃⟩, hinstall, -, -, rfl⟩ := hc
    exact (count h₁.policy hmiss).install hkept hinstall

theorem prefetch (hkept : Kept P) (h : c.Holds P)
    (hc : Contents.prefetch secure c addr = .ok c') : c'.Holds P := by
  obtain ⟨found, -, hc⟩ := bind_eq_ok_iff.1 hc
  cases found with
  | some id =>
    obtain rfl := Except.ok.inj hc
    exact h
  | none =>
    obtain ⟨⟨_, c₁⟩, hinstall, hcount⟩ := bind_eq_ok_iff.1 hc
    exact count (h.install hkept hinstall).policy hcount

theorem prefetchAll (hkept : Kept P) {targets : List UInt64} (h : c.Holds P)
    (hc : c.prefetchAll secure targets = .ok c') : c'.Holds P := by
  obtain ⟨c₁, hcount, hc⟩ := bind_eq_ok_iff.1 hc
  exact foldlM (fun h => h.prefetch hkept) (count h.policy hcount) hc

theorem vacate (hkept : Kept P) (h : c.Holds P) (hc : c.vacate id = .ok c') : c'.Holds P := by
  obtain ⟨line, -, hc⟩ := bind_eq_ok_iff.1 hc
  split_ifs at hc
  · exact h.dropLine hkept hc
  · obtain rfl := Except.ok.inj hc
    exact h

theorem flush (hkept : Kept P) (h : c.Holds P) (hc : c.flush = .ok c') : c'.Holds P :=
  foldlM (fun h => h.vacate hkept) h hc

end Holds

end Contents

/-- The policy always picks one of the lines that it is offered. -/
theorem Contents.Sound.exists_victim {σ : Type} [ReplacementPolicy σ] [LawfulPolicy σ]
    {c : Contents σ} (h : c.Sound) (addr : UInt64) :
    ∃ id policy, ReplacementPolicy.victim c.policy (c.candidates addr) = .ok (some id, policy) ∧
      id ∈ c.candidates addr := by
  obtain ⟨choice, policy, hvictim, -, hproper⟩ := LawfulPolicy.victim_spec h.serves
    fun id (hid : id ∈ c.candidates addr) => candidates_within hid
  have hfirst : (⟨c.geometry.setOf addr, 0⟩ : LineId) ∈ c.candidates addr :=
    mem_candidates.2 ⟨rfl, h.ways_pos⟩
  obtain ⟨id, rfl⟩ := hproper.exists_of_ne_nil (List.ne_nil_of_mem hfirst)
  exact ⟨id, policy, hvictim, hproper.mem id rfl⟩

/-! ## Caches -/

namespace Cache

open Prefetcher

variable {s : CacheSettings} {c c' : Cache} {request : Request} {reply : Reply}

/-- All numbers that the cache stores fit in their fields. -/
structure Fits (c : Cache) : Prop where
  contents : c.contents.Holds Policy.Fits
  prefetcher : Prefetcher.Fits c.prefetcher

theorem new_fits (h : Cache.new s = .ok c) : c.Fits := by
  obtain ⟨_, policy, _, rfl, -, -, -, -, -, -, hpolicy, hprefetcher⟩ := new_eq_ok h
  have hnone : Statistics.Fits {} := by decide
  exact ⟨⟨Policy.new_fits hpolicy, hnone⟩, Prefetcher.new_fits hprefetcher⟩

/-- The courses of a request keep the contents in bounds. -/
theorem contents_fits (h : c.contents.Holds Policy.Fits) (hc : c.Performed s request reply c') :
    c'.contents.Holds Policy.Fits := by
  have hkept : ReplacementPolicy.Kept Policy.Fits := Policy.fits_kept
  cases hc with
  | bypassAccess => exact h
  | access enabled serve watch prefetch =>
    have hserved := h.serve hkept serve
    refine Contents.Holds.prefetchAll hkept ?_ prefetch
    cases watch with
    | none kind => exact hserved
    | nextLine kind length_eq => exact hserved
    | alive kind => exact hserved
    | dead kind drop => exact hserved.dropDead hkept drop
  | lineOf search => exact h
  | contains search => exact h
  | bypassInvalidate disabled => exact h
  | invalidate enabled drop => exact h.dropBlock hkept drop
  | bypassFlush disabled => exact h
  | flush enabled flush => exact h.flush hkept flush
  | enable => exact h

theorem prefetcher_fits (h : Prefetcher.Fits c.prefetcher)
    (hc : c.perform request = .ok (reply, c')) : Prefetcher.Fits c'.prefetcher := by
  cases hasked : request.access? with
  | none =>
    rw [(perform_idle hasked hc).1]
    exact h
  | some access =>
    obtain rfl := Request.eq_of_access? hasked
    obtain ⟨⟨outcome, _⟩, haccess, hc⟩ := bind_eq_ok_iff.1 hc
    obtain ⟨-, rfl⟩ := Prod.mk.inj (Except.ok.inj hc)
    cases henabled : c.enabled with
    | false =>
      rw [Cache.access, henabled] at haccess
      obtain ⟨-, rfl⟩ := Prod.mk.inj (Except.ok.inj haccess)
      exact h
    | true => exact fits_decideOn h (access_decides henabled haccess).1

/-- Where the reach of the next-line prefetcher fits in a word, only a counter can stop a cache. -/
theorem exhausted_of_excuses {accesses : Nat} {fault : Fault}
    (hspan : s.prefetcher = .nextLine →
      FitsWord (s.lineBytes.toNat * max 1 s.prefetchDegree.toNat))
    (h : s.Excuses accesses fault) : Exhausted (accesses * (1 + s.reach)) fault := by
  rcases h with hcount | ⟨hkind, -, hfar⟩
  · exact hcount
  · rw [CacheSettings.reach_of_nextLine hkind, Nat.max_comm] at hfar
    exact absurd (hspan hkind) (Nat.not_lt_of_le hfar)

/-- No settings are refused for their size, and a cache that is built from them answers every
request of every run, unless the run has so many events that a counter of 64 bits is used up. All
that the cache stores then fits in its fields, and in every set the policy picks one of the lines
that it is offered. -/
theorem run_faultless (s : CacheSettings)
    (hhistory : s.policy = .hawkeye → FitsWord (s.ways.toNat * s.hawkeye.historyMultiplier.toNat))
    (hspan : s.prefetcher = .nextLine →
      FitsWord (s.lineBytes.toNat * max 1 s.prefetchDegree.toNat)) :
    NotTooLarge (Cache.new s) ∧ ∀ c, Cache.new s = .ok c → ∀ requests : List Request,
      Delivers (c.run requests) (Exhausted (requests.countP isAccess * (1 + s.reach))) fun result =>
        result.1.length = requests.length ∧ result.2.Fits ∧
          ∀ addr, ∃ id policy, ReplacementPolicy.victim result.2.contents.policy
            (result.2.contents.candidates addr) = .ok (some id, policy) ∧
              id ∈ result.2.contents.candidates addr := by
  refine ⟨new_notTooLarge s hhistory, fun c hnew requests => ?_⟩
  have hfits := new_fits hnew
  refine (run_history (motive := fun done replies c => c.Reached s (done.countP isAccess) ∧
    replies.length = done.length ∧ c.Fits) ⟨new_reached hnew, rfl, hfits⟩ ?_).mono
      (fun _ => exhausted_of_excuses hspan) fun _ ⟨hreached, hlength, hfits⟩ =>
        ⟨hlength, hfits, hreached.accounted.exists_victim⟩
  rintro done replies request c hdone ⟨hreached, hlength, hfits⟩
  refine (hreached.perform_spec request).self.mono (fun _ hfault => hfault.mono ?_) ?_
  · rw [← countP_append_singleton]
    exact hdone.sublist.countP_le
  · rintro ⟨reply, c'⟩ ⟨hperform, hreached', -, hperformed⟩
    rw [countP_append_singleton]
    refine ⟨hreached', by simp [hlength], ?_⟩
    exact ⟨contents_fits hfits.contents hperformed, prefetcher_fits hfits.prefetcher hperform⟩

/-- Seven requests with three accesses, each of which prefetches two blocks, are too few to use a
counter up. -/
theorem run_faultless_three_accesses :
    let s : CacheSettings := {
      enabled := true, sizeBytes := 128, ways := 2, policy := .hawkeye, prefetcher := .nextLine
      prefetchDegree := 2 }
    let requests : List Request := [.access { addr := 0 }, .access { addr := 64, pc := some 5 },
      .invalidate 64 true, .flush, .enable false, .access { addr := 0 }, .lineOf 0 false]
    FitsWord (s.ways.toNat * s.hawkeye.historyMultiplier.toNat) ∧
      FitsWord (s.lineBytes.toNat * max 1 s.prefetchDegree.toNat) ∧
      ∃ c result, Cache.new s = .ok c ∧ c.run requests = .ok result ∧
        result.1.length = 7 ∧ result.2.Fits := by
  intro s requests
  have hhistory : FitsWord (s.ways.toNat * s.hawkeye.historyMultiplier.toNat) := by decide
  have hspan : FitsWord (s.lineBytes.toNat * max 1 s.prefetchDegree.toNat) := by decide
  obtain ⟨-, hruns⟩ := run_faultless s (fun _ => hhistory) fun _ => hspan
  have hadmissible : s.Admissible :=
    ⟨by decide, by decide, by decide, fun _ => ⟨by decide, by decide, by decide⟩, nofun⟩
  obtain ⟨c, hnew⟩ := new_of_admissible hadmissible fun _ => hhistory
  have hrun := hruns c hnew requests
  refine ⟨hhistory, hspan, ?_⟩
  cases hresult : c.run requests with
  | error fault => exact absurd (hrun.of_error hresult).2 (by decide)
  | ok result =>
    obtain ⟨hlength, hfits, -⟩ := hrun.of_ok hresult
    exact ⟨c, result, hnew, hresult, hlength, hfits⟩

end Cache

end Residency
