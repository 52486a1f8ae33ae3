import Residency.Proofs.Cache.Runs
import Residency.Proofs.Prefetch.Choice

/-!
# What a request can do to a cache

Whatever the policy and the prefetcher, a request takes one of a few courses, and keeps the contents
accounted for. What is to be shown of every cache that requests can lead to is shown course by
course.
-/

namespace Residency

/-- The work that one more access makes for the counters. -/
theorem CacheSettings.work_le {s : CacheSettings} {accesses asked : Nat} (h : asked ≤ s.reach) :
    accesses + 1 + (accesses * s.reach + asked) ≤ (accesses + 1) * (1 + s.reach) := by
  rw [Nat.mul_add, Nat.mul_one, Nat.succ_mul]
  omega

namespace Cache

open Prefetcher

variable {s : CacheSettings} {c c' : Cache} {accesses : Nat} {contents contents' : Contents Policy}
  {access : Access}

/-- The courses that a request can take. An access is served, then watched by the prefetcher, and
then what the prefetcher has asked for is filled. -/
inductive Performed (s : CacheSettings) (c : Cache) : Request → Reply → Cache → Prop
  | bypassAccess {access : Access} (disabled : c.enabled = false) :
      Performed s c (.access access) (.outcome {}) c
  | access {access : Access} {hit : Bool} {evicted : Option UInt64} {targets : List UInt64}
      {served watched filled : Contents Policy} {prefetcher : Option Prefetcher}
      (enabled : c.enabled = true) (serve : c.contents.serve access = .ok (hit, evicted, served))
      (watch : Watched s access served targets watched)
      (prefetch : watched.prefetchAll access.secure targets = .ok filled) :
      Performed s c (.access access) (.outcome ⟨hit, evicted, targets⟩)
        ⟨c.enabled, filled, prefetcher⟩
  | lineOf {addr : UInt64} {secure : Bool} {found : Option LineId}
      (search : c.lineOf addr secure = .ok found) :
      Performed s c (.lineOf addr secure) (.line found) c
  | contains {addr : UInt64} {secure : Bool} {found : Option LineId}
      (search : c.lineOf addr secure = .ok found) :
      Performed s c (.contains addr secure) (.resident found.isSome) c
  | bypassInvalidate {addr : UInt64} {secure : Bool} (disabled : c.enabled = false) :
      Performed s c (.invalidate addr secure) (.resident false) c
  | invalidate {addr : UInt64} {secure dropped : Bool} {contents : Contents Policy}
      (enabled : c.enabled = true)
      (drop : c.contents.dropBlock (c.contents.geometry.blockOf addr) secure =
        .ok (dropped, contents)) :
      Performed s c (.invalidate addr secure) (.resident dropped) { c with contents }
  | bypassFlush (disabled : c.enabled = false) : Performed s c .flush .done c
  | flush {contents : Contents Policy} (enabled : c.enabled = true)
      (flush : c.contents.flush = .ok contents) : Performed s c .flush .done { c with contents }
  | enable {enabled : Bool} : Performed s c (.enable enabled) .done { c with enabled }

/-- What holds of a cache of some settings after at most `accesses` accesses. -/
structure Reached (s : CacheSettings) (accesses : Nat) (c : Cache) : Prop where
  accounted : c.contents.Accounted accesses (accesses * s.reach)
  selected : Selected s accesses c.prefetcher
  lineBytes_eq : .ofNat c.contents.geometry.lineBytes = s.lineBytes

theorem new_reached (h : Cache.new s = .ok c) : c.Reached s 0 := by
  have haccounted := new_accounted h
  obtain ⟨g, policy, prefetcher, rfl, hline, -, -, -, -, -, -, hprefetcher⟩ := new_eq_ok h
  refine ⟨?_, new_selected hprefetcher, ?_⟩
  · rw [Nat.zero_mul]
    exact haccounted
  · show UInt64.ofNat g.lineBytes = _
    rw [hline, UInt64.ofNat_toNat]

namespace Reached

theorem mono (h : c.Reached s accesses) {more : Nat} (hle : accesses ≤ more) : c.Reached s more :=
  ⟨h.accounted.mono hle (Nat.mul_le_mul_right _ hle), h.selected.mono hle, h.lineBytes_eq⟩

theorem lineBytes_ne (h : c.Reached s accesses) : s.lineBytes ≠ 0 := by
  have hpos := c.contents.geometry.lineBytes_pos
  rw [← Geometry.toNat_ofNat_lineBytes, h.lineBytes_eq] at hpos
  intro hzero
  rw [hzero] at hpos
  cases hpos

/-- Without a further access, the counters have the same work. -/
theorem excuses_of_exhausted {fault : Fault}
    (hfault : Exhausted (accesses + accesses * s.reach) fault) : s.Excuses accesses fault := by
  have hwork : accesses + accesses * s.reach = accesses * (1 + s.reach) := by
    rw [Nat.mul_add, Nat.mul_one]
  exact CacheSettings.Excuses.of_exhausted (Nat.le_of_eq hwork) hfault

/-- An access is served, and not more deaths have been predicted than there were accesses before
it. -/
theorem serve_spec (h : c.Reached s accesses) (access : Access) :
    Delivers (c.contents.serve access) (s.Excuses (accesses + 1)) fun result =>
      c.contents.Served access result.1 result.2.1 result.2.2 ∧
      result.2.2.Accounted (accesses + 1) (accesses * s.reach) ∧
      result.2.2.statistics.deadPredictions < accesses + 1 := by
  refine (h.accounted.serve_spec access).mono (fun _ => ?_) ?_
  · exact CacheSettings.Excuses.of_exhausted (CacheSettings.work_le (Nat.zero_le _))
  · rintro result ⟨hserved, haccounted, hdead⟩
    exact ⟨hserved, haccounted,
      Nat.lt_succ_of_le (hdead ▸ h.accounted.conserved.deadPredictions_le)⟩

/-- What the prefetcher drops is the accessed block. -/
theorem dropDead_spec (h : c.Reached s accesses) (hg : contents.geometry = c.contents.geometry)
    (haccounted : contents.Accounted (accesses + 1) (accesses * s.reach))
    (hdead : contents.statistics.deadPredictions < accesses + 1) (access : Access) :
    Delivers (BlockInvalidator.dropDead contents (blockAddress s.lineBytes access.addr)
      access.secure) (s.Excuses (accesses + 1)) fun result =>
        contents.Vacated access.addr access.secure result.1 result.2 ∧
          result.2.Accounted (accesses + 1) (accesses * s.reach) := by
  have hblock : blockAddress s.lineBytes access.addr = contents.geometry.blockOf access.addr := by
    rw [← h.lineBytes_eq, hg, Geometry.blockOf]
  rw [hblock]
  refine (haccounted.dropDead_spec hdead _ access.secure).mono ?_ ?_
  · exact fun _ => CacheSettings.Excuses.of_exhausted (CacheSettings.work_le (Nat.zero_le _))
  · rintro result ⟨hvacated, haccounted'⟩
    exact ⟨hvacated.of_blockOf haccounted.lineBytes_pow, haccounted'⟩

theorem observe_spec (h : c.Reached s accesses) (hg : contents.geometry = c.contents.geometry)
    (haccounted : contents.Accounted (accesses + 1) (accesses * s.reach))
    (hdead : contents.statistics.deadPredictions < accesses + 1) (access : Access) :
    Delivers (observe { c with contents } access) (s.Excuses (accesses + 1)) fun result =>
      result.2.enabled = c.enabled ∧ Selected s (accesses + 1) result.2.prefetcher ∧
        Watched s access contents result.1 result.2.contents := by
  have hselected := h.selected
  have hdrop := (h.dropDead_spec hg haccounted hdead access).mono (fun _ hfault => hfault)
    fun _ _ => trivial
  have hline := h.lineBytes_ne
  obtain ⟨enabled, contents₀, prefetcher⟩ := c
  cases prefetcher with
  | none =>
    cases hselected with
    | none kind => exact .of_eq_ok rfl ⟨rfl, .none kind, .none kind⟩
  | some p =>
    refine (hselected.observe_spec hline access contents hdrop).bind ?_
    rintro ⟨targets, p', contents'⟩ ⟨hselected', hwatched⟩
    exact .of_eq_ok rfl ⟨rfl, hselected', hwatched⟩

/-- What is watched stays accounted for. -/
theorem watched_accounted (h : c.Reached s accesses)
    (hg : contents.geometry = c.contents.geometry)
    (haccounted : contents.Accounted (accesses + 1) (accesses * s.reach))
    (hdead : contents.statistics.deadPredictions < accesses + 1) {targets : List UInt64}
    (hwatched : Watched s access contents targets contents') :
    contents'.geometry = contents.geometry ∧
      contents'.Accounted (accesses + 1) (accesses * s.reach) := by
  cases hwatched with
  | none kind => exact ⟨rfl, haccounted⟩
  | nextLine kind length_eq => exact ⟨rfl, haccounted⟩
  | alive kind => exact ⟨rfl, haccounted⟩
  | dead kind drop =>
    obtain ⟨hvacated, haccounted'⟩ := (h.dropDead_spec hg haccounted hdead access).of_ok drop
    exact ⟨hvacated.geometry_eq, haccounted'⟩

/-- An access takes one of its courses. -/
theorem access_spec (h : c.Reached s accesses) (access : Access) :
    Delivers (c.access access) (s.Excuses (accesses + 1)) fun result =>
      result.2.Reached s (accesses + 1) ∧ result.2.contents.geometry = c.contents.geometry ∧
        c.Performed s (.access access) (.outcome result.1) result.2 := by
  cases henabled : c.enabled with
  | false =>
    refine .of_eq_ok (a := ({}, c)) (by rw [Cache.access, henabled]; rfl) ?_
    exact ⟨h.mono (Nat.le_succ _), rfl, .bypassAccess henabled⟩
  | true =>
    rw [Cache.access, if_pos henabled]
    refine (h.serve_spec access).self.bind ?_
    rintro ⟨hit, evicted, served⟩ ⟨hserve, hserved, haccounted, hdead⟩
    refine (h.observe_spec hserved.geometry_eq haccounted hdead access).bind ?_
    rintro ⟨targets, ⟨enabled, watched, prefetcher⟩⟩ ⟨rfl, hselected, hwatched⟩
    obtain ⟨hg, haccounted'⟩ := h.watched_accounted hserved.geometry_eq haccounted hdead hwatched
    have hprefetch : Delivers (watched.prefetchAll access.secure targets) _ fun filled =>
        filled.geometry = watched.geometry ∧
          filled.Accounted (accesses + 1) (accesses * s.reach + targets.length) :=
      haccounted'.prefetchAll_spec (motive := fun _ c' => c'.geometry = watched.geometry) targets
        rfl fun _ _ _ _ _ _ hg hprefetched => hprefetched.geometry_eq.trans hg
    refine (hprefetch.self.mono (fun _ => ?_) fun _ hfilled => hfilled).bind ?_
    · exact CacheSettings.Excuses.of_exhausted (CacheSettings.work_le hwatched.length_le)
    · rintro filled ⟨hfill, hg', haccounted''⟩
      have hgeometry := hg'.trans (hg.trans hserved.geometry_eq)
      refine ⟨⟨haccounted''.mono (Nat.le_refl _) ?_, hselected, hgeometry ▸ h.lineBytes_eq⟩,
        hgeometry, .access henabled hserve hwatched hfill⟩
      rw [Nat.succ_mul]
      exact Nat.add_le_add_left hwatched.length_le _

theorem lineOf_spec (h : c.Reached s accesses) (addr : UInt64) (secure : Bool) :
    ∃ found, c.lineOf addr secure = .ok found := by
  cases henabled : c.enabled with
  | false => exact ⟨none, by rw [Cache.lineOf, henabled]; rfl⟩
  | true =>
    obtain ⟨found, hfound, -⟩ := h.accounted.find?_spec addr secure
    exact ⟨found, by rw [Cache.lineOf, if_pos henabled, hfound]⟩

theorem invalidate_spec (h : c.Reached s accesses) (addr : UInt64) (secure : Bool) :
    Delivers (c.invalidate addr secure) (s.Excuses accesses) fun result =>
      result.2.Reached s accesses ∧ result.2.contents.geometry = c.contents.geometry ∧
        c.Performed s (.invalidate addr secure) (.resident result.1) result.2 := by
  cases henabled : c.enabled with
  | false =>
    refine .of_eq_ok (a := (false, c)) (by rw [Cache.invalidate, henabled]; rfl) ?_
    exact ⟨h, rfl, .bypassInvalidate henabled⟩
  | true =>
    rw [Cache.invalidate, if_pos henabled]
    refine ((h.accounted.dropBlock_spec (c.contents.geometry.blockOf addr) secure).self.mono
      (fun _ => excuses_of_exhausted) fun _ hresult => hresult).bind ?_
    rintro ⟨dropped, contents⟩ ⟨hdrop, hvacated, haccounted⟩
    have hg : contents.geometry = c.contents.geometry := hvacated.geometry_eq
    exact ⟨⟨haccounted, h.selected, hg ▸ h.lineBytes_eq⟩, hg, .invalidate henabled hdrop⟩

theorem flush_spec (h : c.Reached s accesses) :
    Delivers c.flush (s.Excuses accesses) fun c' =>
      c'.Reached s accesses ∧ c'.contents.geometry = c.contents.geometry ∧
        c.Performed s .flush .done c' := by
  cases henabled : c.enabled with
  | false =>
    refine .of_eq_ok (a := c) (by rw [Cache.flush, henabled]; rfl) ?_
    exact ⟨h, rfl, .bypassFlush henabled⟩
  | true =>
    rw [Cache.flush, if_pos henabled]
    refine (h.accounted.flush_clears.self.mono (fun _ => excuses_of_exhausted)
      fun _ hresult => hresult).bind ?_
    rintro contents ⟨hflush, haccounted, hg, -⟩
    exact ⟨⟨haccounted, h.selected, hg ▸ h.lineBytes_eq⟩, hg, .flush henabled hflush⟩

/-- Every request takes one of its courses. -/
theorem perform_spec (h : c.Reached s accesses) (request : Request) :
    Delivers (c.perform request) (s.Excuses (accesses + (isAccess request).toNat)) fun result =>
      result.2.Reached s (accesses + (isAccess request).toNat) ∧
        result.2.contents.geometry = c.contents.geometry ∧
          c.Performed s request result.1 result.2 := by
  cases request with
  | access access => exact (h.access_spec access).bind fun _ hresult => hresult
  | lineOf addr secure =>
    obtain ⟨found, hfound⟩ := h.lineOf_spec addr secure
    refine .of_eq_ok (a := (.line found, c)) (by rw [perform, hfound]; rfl) ?_
    exact ⟨h, rfl, .lineOf hfound⟩
  | contains addr secure =>
    obtain ⟨found, hfound⟩ := h.lineOf_spec addr secure
    refine .of_eq_ok (a := (.resident found.isSome, c))
      (by rw [perform, Cache.contains, hfound]; rfl) ?_
    exact ⟨h, rfl, .contains hfound⟩
  | invalidate addr secure =>
    exact (h.invalidate_spec addr secure).bind fun _ hresult => hresult
  | flush => exact h.flush_spec.bind fun _ hresult => hresult
  | enable enabled =>
    exact .of_eq_ok rfl ⟨⟨h.accounted, h.selected, h.lineBytes_eq⟩, rfl, .enable⟩

end Reached

/-- Requests lead from one cache that is reached to another one of the same geometry. -/
theorem Reached.run_spec (h : c.Reached s accesses) (requests : List Request) :
    Delivers (c.run requests) (s.Excuses (accesses + requests.countP isAccess)) fun result =>
      result.2.Reached s (accesses + requests.countP isAccess) ∧
        result.2.contents.geometry = c.contents.geometry := by
  refine run_history (motive := fun done _ c' => c'.Reached s (accesses + done.countP isAccess) ∧
    c'.contents.geometry = c.contents.geometry) ⟨h, rfl⟩ ?_
  intro done replies request c' hdone ⟨hreached, hg⟩
  refine (hreached.perform_spec request).mono (fun _ hfault => hfault.mono ?_) ?_
  · rw [Nat.add_assoc, ← countP_append_singleton]
    exact Nat.add_le_add_left hdone.sublist.countP_le _
  · rintro ⟨reply, c''⟩ ⟨hreached', hg', -⟩
    rw [countP_append_singleton, ← Nat.add_assoc]
    exact ⟨hreached', hg'.trans hg⟩

theorem run_spec (hnew : Cache.new s = .ok c) (past : List Request) :
    Delivers (c.run past) (s.Excuses (past.countP isAccess)) fun result =>
      result.2.Reached s (past.countP isAccess) ∧
        result.2.contents.geometry = c.contents.geometry := by
  have h := (new_reached hnew).run_spec past
  rwa [Nat.zero_add] at h

theorem Reached.run_later {past : List Request} (h : c.Reached s (past.countP isAccess))
    (later : List Request) :
    Delivers (c.run later) (s.Excuses ((past ++ later).countP isAccess)) fun result =>
      result.2.Reached s ((past ++ later).countP isAccess) ∧
        result.2.contents.geometry = c.contents.geometry := by
  rw [List.countP_append]
  exact h.run_spec later

/-- What holds of a new cache and is kept by every course, holds of every cache that is reached. -/
theorem run_reached {motive : Cache → Prop} (hnew : Cache.new s = .ok c) (h : motive c)
    (hstep : ∀ {accesses : Nat} {c c' : Cache} {request : Request} {reply : Reply},
      c.Reached s accesses → motive c → c.Performed s request reply c' → motive c')
    (requests : List Request) :
    Delivers (c.run requests) (s.Excuses (requests.countP isAccess)) fun result =>
      result.2.Reached s (requests.countP isAccess) ∧ motive result.2 := by
  refine run_history (motive := fun done _ c => c.Reached s (done.countP isAccess) ∧ motive c)
    ⟨new_reached hnew, h⟩ ?_
  rintro done replies request c hdone ⟨hreached, hmotive⟩
  refine (hreached.perform_spec request).mono (fun _ hfault => hfault.mono ?_) ?_
  · rw [← countP_append_singleton]
    exact hdone.sublist.countP_le
  · rintro ⟨reply, c'⟩ ⟨hreached', -, hperformed⟩
    rw [countP_append_singleton]
    exact ⟨hreached', hstep hreached hmotive hperformed⟩

end Cache

end Residency
