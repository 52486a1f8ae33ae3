import Residency.Proofs.Cache.Reached
import Residency.Proofs.Cache.RecencyCache
import Residency.Proofs.Prefetch.Alone

/-!
# What is prefetched does not depend on the cache

A cache in service hands every access to its prefetcher, and nothing else. So what is prefetched on
the accesses of a run is what the prefetcher alone decides on them, whatever sizes the cache has,
whatever policy gives up its lines, and whatever was dropped from it in between.
-/

namespace Residency

/-- The access that a request asks for. -/
def Request.access? : Request → Option Access
  | .access a => some a
  | _ => none

theorem Request.eq_of_access? {request : Request} {access : Access}
    (h : request.access? = some access) : request = .access access := by
  cases request with
  | access a => exact congrArg Request.access (Option.some.inj h)
  | lineOf | contains | invalidate | flush | enable => cases h

namespace Cache

open Prefetcher

variable {c c' : Cache} {access : Access} {request : Request} {reply : Reply}

/-- The accesses among some requests, each with what the reply says was prefetched on it. -/
def decisions (requests : List Request) (replies : List Reply) : List (Access × List UInt64) :=
  (requests.zip replies).filterMap fun step =>
    step.1.access?.map fun access => (access, step.2.prefetches)

theorem observe_decides {targets : List UInt64} (h : c.observe access = .ok (targets, c')) :
    decideOn c.prefetcher access = .ok (targets, c'.prefetcher) ∧ c'.enabled = c.enabled := by
  obtain ⟨enabled, contents, prefetcher⟩ := c
  cases prefetcher with
  | none =>
    obtain ⟨rfl, rfl⟩ := Prod.mk.inj (Except.ok.inj h)
    exact ⟨rfl, rfl⟩
  | some p =>
    simp only [observe, bind_eq_ok_iff, pure_eq_ok, Except.ok.injEq, Prod.mk.injEq] at h
    obtain ⟨⟨_, p', contents'⟩, hp, rfl, rfl⟩ := h
    rw [decideOn, p.observe_alone hp]
    exact ⟨rfl, rfl⟩

/-- Serving an access and filling what is asked for are not the prefetcher's concern. -/
theorem access_decides (henabled : c.enabled = true) {outcome : Outcome}
    (h : c.access access = .ok (outcome, c')) :
    decideOn c.prefetcher access = .ok (outcome.prefetches, c'.prefetcher) ∧ c'.enabled = true := by
  rw [Cache.access, if_pos henabled] at h
  obtain ⟨⟨hit, evicted, served⟩, -, h⟩ := bind_eq_ok_iff.1 h
  obtain ⟨⟨targets, watched⟩, hobserve, h⟩ := bind_eq_ok_iff.1 h
  obtain ⟨filled, -, h⟩ := bind_eq_ok_iff.1 h
  obtain ⟨rfl, rfl⟩ := Prod.mk.inj (Except.ok.inj h)
  obtain ⟨hdecide, hservice⟩ := observe_decides hobserve
  exact ⟨hdecide, hservice.trans henabled⟩

/-- Only an access reaches the prefetcher, and only one request takes the cache out of service. -/
theorem perform_idle (hidle : request.access? = none) (h : c.perform request = .ok (reply, c')) :
    c'.prefetcher = c.prefetcher ∧
      (request ≠ .enable false → c.enabled = true → c'.enabled = true) := by
  cases request with
  | access access => cases hidle
  | lineOf addr secure =>
    obtain ⟨found, -, h⟩ := bind_eq_ok_iff.1 h
    obtain ⟨-, rfl⟩ := Prod.mk.inj (Except.ok.inj h)
    exact ⟨rfl, fun _ henabled => henabled⟩
  | contains addr secure =>
    obtain ⟨found, -, h⟩ := bind_eq_ok_iff.1 h
    obtain ⟨-, rfl⟩ := Prod.mk.inj (Except.ok.inj h)
    exact ⟨rfl, fun _ henabled => henabled⟩
  | invalidate addr secure =>
    obtain ⟨⟨dropped, c₁⟩, hdrop, h⟩ := bind_eq_ok_iff.1 h
    obtain ⟨-, rfl⟩ := Prod.mk.inj (Except.ok.inj h)
    rw [Cache.invalidate] at hdrop
    split_ifs at hdrop with henabled
    · obtain ⟨⟨_, contents⟩, -, hdrop⟩ := bind_eq_ok_iff.1 hdrop
      obtain ⟨-, rfl⟩ := Prod.mk.inj (Except.ok.inj hdrop)
      exact ⟨rfl, fun _ henabled => henabled⟩
    · obtain ⟨-, rfl⟩ := Prod.mk.inj (Except.ok.inj hdrop)
      exact ⟨rfl, fun _ henabled => henabled⟩
  | flush =>
    obtain ⟨c₁, hflush, h⟩ := bind_eq_ok_iff.1 h
    obtain ⟨-, rfl⟩ := Prod.mk.inj (Except.ok.inj h)
    rw [Cache.flush] at hflush
    split_ifs at hflush with henabled
    · obtain ⟨contents, -, hflush⟩ := bind_eq_ok_iff.1 hflush
      obtain rfl := Except.ok.inj hflush
      exact ⟨rfl, fun _ henabled => henabled⟩
    · obtain rfl := Except.ok.inj hflush
      exact ⟨rfl, fun _ henabled => henabled⟩
  | enable enabled =>
    obtain ⟨-, rfl⟩ := Prod.mk.inj (Except.ok.inj h)
    refine ⟨rfl, fun hstay _ => ?_⟩
    cases enabled with
    | false => exact absurd rfl hstay
    | true => rfl

/-- In a run that does not take the cache out of service, what is prefetched is what the prefetcher
decides alone. -/
theorem run_decides {requests : List Request} {replies : List Reply} (henabled : c.enabled = true)
    (hstay : Request.enable false ∉ requests) (h : c.run requests = .ok (replies, c')) :
    decideAll c.prefetcher (requests.filterMap Request.access?) =
      .ok (decisions requests replies) := by
  induction requests generalizing c replies with
  | nil => rfl
  | cons request rest ih =>
    obtain ⟨reply, c₁, more, hperform, hrest, rfl⟩ := run_cons_eq_ok h
    obtain ⟨hne, hstayRest⟩ := not_or.1 (List.mem_cons.not.1 hstay)
    cases hasked : request.access? with
    | none =>
      obtain ⟨hprefetcher, hservice⟩ := perform_idle hasked hperform
      have hlater := ih (hservice (Ne.symm hne) henabled) hstayRest hrest
      rw [hprefetcher] at hlater
      simpa [decisions, hasked] using hlater
    | some access =>
      obtain rfl := Request.eq_of_access? hasked
      obtain ⟨⟨outcome, _⟩, haccess, hperform⟩ := bind_eq_ok_iff.1 hperform
      obtain ⟨rfl, rfl⟩ := Prod.mk.inj (Except.ok.inj hperform)
      obtain ⟨hdecide, hservice⟩ := access_decides henabled haccess
      have hlater := ih hservice hstayRest hrest
      rw [List.filterMap_cons_some hasked, decideAll, hdecide, ok_bind]
      simp only [hlater, ok_bind, pure_eq_ok]
      rfl

theorem prefetcher_of_new {s : CacheSettings} (h : Cache.new s = .ok c) :
    Prefetcher.new s = .ok c.prefetcher := by
  obtain ⟨_, _, prefetcher, rfl, -, -, -, -, -, -, -, hprefetcher⟩ := new_eq_ok h
  exact hprefetcher

theorem enabled_of_new {s : CacheSettings} (h : Cache.new s = .ok c) : c.enabled = s.enabled := by
  obtain ⟨_, _, _, rfl, -⟩ := new_eq_ok h
  rfl

/-- Two caches in service, of equal lines and with equal prefetchers, are asked for the same
accesses, with whatever lookups, invalidations and flushes in between on either side. Each access
prefetches the same blocks in both. -/
theorem run_prefetches_alike {s t : CacheSettings} {d : Cache} (hc : Cache.new s = .ok c)
    (hd : Cache.new t = .ok d) (hs : s.enabled = true) (ht : t.enabled = true)
    (hline : t.lineBytes = s.lineBytes) (hkind : t.prefetcher = s.prefetcher)
    (hdegree : s.prefetcher = .nextLine → t.prefetchDegree = s.prefetchDegree)
    (hdbcp : s.prefetcher = .dbcp → t.dbcp = s.dbcp) {requests others : List Request}
    (hstay : Request.enable false ∉ requests) (hstay' : Request.enable false ∉ others)
    (hcommon : others.filterMap Request.access? = requests.filterMap Request.access?) :
    Delivers (c.run requests) (s.Excuses (requests.countP isAccess)) fun one =>
      Delivers (d.run others) (t.Excuses (others.countP isAccess)) fun other =>
        decisions others other.1 = decisions requests one.1 ∧
          (decisions requests one.1).map (·.1) = requests.filterMap Request.access? := by
  refine (run_spec hc requests).self.mono (fun _ hfault => hfault) ?_
  intro one ⟨hone, _⟩
  refine (run_spec hd others).self.mono (fun _ hfault => hfault) ?_
  intro other ⟨hother, _⟩
  have hleft := run_decides ((enabled_of_new hc).trans hs) hstay hone
  have hright := run_decides ((enabled_of_new hd).trans ht) hstay' hother
  have hsame : d.prefetcher = c.prefetcher := by
    have hp := prefetcher_of_new hd
    rw [Prefetcher.new_congr hline hkind hdegree hdbcp, prefetcher_of_new hc] at hp
    exact (Except.ok.inj hp).symm
  rw [hsame, hcommon, hleft] at hright
  exact ⟨(Except.ok.inj hright).symm, map_fst_decideAll hleft⟩

/-- The third access to a block finds it dead, also in a cache of another size and policy from which
the block was dropped before each access. -/
theorem run_prefetches_alike_third_access :
    let s : CacheSettings :=
      { enabled := true, sizeBytes := 128, ways := 2, prefetcher := .dbcp, dbcp := .hasty }
    let t : CacheSettings := { s with sizeBytes := 256, ways := 1, policy := .hawkeye }
    let access : Access := ⟨70, some 5, false⟩
    let requests : List Request := List.replicate 3 (.access access)
    let others : List Request := [.access access, .invalidate 70 false, .access access, .flush,
      .contains 70 false, .access access]
    ∃ c d one other, Cache.new s = .ok c ∧ Cache.new t = .ok d ∧ s.enabled = true ∧
      t.enabled = true ∧ t.lineBytes = s.lineBytes ∧ t.prefetcher = s.prefetcher ∧
      t.dbcp = s.dbcp ∧ Request.enable false ∉ requests ∧ Request.enable false ∉ others ∧
      others.filterMap Request.access? = requests.filterMap Request.access? ∧
      c.run requests = .ok one ∧ d.run others = .ok other ∧
      decisions requests one.1 = [(access, []), (access, []), (access, [128])] ∧
      decisions others other.1 = decisions requests one.1 := by
  have hc := show Cache.new
    { enabled := true, sizeBytes := 128, ways := 2, prefetcher := .dbcp, dbcp := .hasty } = .ok _
    from rfl
  have hd := show Cache.new
    { enabled := true, sizeBytes := 256, ways := 1, policy := .hawkeye, prefetcher := .dbcp,
      dbcp := .hasty } = .ok _ from rfl
  obtain ⟨one, hone, h⟩ := (run_prefetches_alike hc hd rfl rfl rfl rfl nofun (fun _ => rfl)
    (show Request.enable false ∉ List.replicate 3 (.access ⟨70, some 5, false⟩) by decide)
    (show Request.enable false ∉ [.access ⟨70, some 5, false⟩, .invalidate 70 false,
      .access ⟨70, some 5, false⟩, .flush, .contains 70 false, .access ⟨70, some 5, false⟩]
      by decide)
    rfl).of_isOk (by decide)
  obtain ⟨other, hother, hsame, -⟩ := h.of_isOk (by decide)
  refine ⟨_, _, one, other, hc, hd, rfl, rfl, rfl, rfl, rfl, by decide, by decide, rfl, hone,
    hother, ?_, hsame⟩
  obtain rfl := Except.ok.inj hone
  rfl

end Cache

end Residency
