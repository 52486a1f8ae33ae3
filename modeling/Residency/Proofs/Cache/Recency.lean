import Residency.Proofs.Cache.Reached
import Residency.Proofs.Cache.RecencyLists
import Residency.Proofs.Cache.Residents

/-!
# A least-recently-used cache is a recency-list cache

Every request leaves the lists what the order of the policy reads as, and gets the reply that the
recency-list cache gives. By induction along a run, so does every run.
-/

namespace Residency

namespace RecencyCache

/-! ## One operation -/

section

variable {m : RecencyCache} {enabled dropsDead : Bool} {c c' : Contents Policy} {access : Access}
  {addr target : UInt64} {secure hit dropped : Bool} {evicted : Option UInt64}

/-- The lists are those of the contents of a cache. -/
structure Represents (m : RecencyCache) (enabled dropsDead : Bool) (c : Contents Policy) :
    Prop where
  geometry_eq : m.geometry = c.geometry
  enabled_eq : m.enabled = enabled
  dropsDead_eq : m.dropsDead = dropsDead
  orders : c.Orders m.lists

namespace Represents

theorem pairOf_eq (h : m.Represents enabled dropsDead c) (addr : UInt64) (secure : Bool) :
    m.pairOf addr secure = (c.geometry.blockOf addr, secure) := by
  rw [pairOf, h.geometry_eq]

theorem listOf_eq (h : m.Represents enabled dropsDead c) (addr : UInt64) :
    m.listOf addr = m.lists (c.geometry.setOf addr) := by
  rw [listOf, h.geometry_eq]

theorem setList (h : m.Represents enabled dropsDead c) {list : List (UInt64 × Bool)}
    (hg : c'.geometry = c.geometry)
    (ho : c'.Orders (Function.update m.lists (c.geometry.setOf addr) list)) :
    (m.setList addr list).Represents enabled dropsDead c' := by
  rw [← h.geometry_eq] at ho
  exact ⟨h.geometry_eq.trans hg.symm, h.enabled_eq, h.dropsDead_eq, ho⟩

theorem holds_iff (h : m.Represents enabled dropsDead c) (hs : c.Sound) :
    m.holds addr secure = true ↔ ∃ id, c.held id = some (c.geometry.blockOf addr, secure) := by
  rw [holds, List.contains_iff_mem, h.pairOf_eq, h.listOf_eq, h.orders.mem_iff hs]
  constructor
  · rintro ⟨way, hway⟩
    exact ⟨_, hway⟩
  · rintro ⟨⟨set, way⟩, hheld⟩
    obtain rfl : set = c.geometry.setOf addr := hs.set_eq_of_held hheld
    exact ⟨way, hheld⟩

theorem not_holds (h : m.Represents enabled dropsDead c) (hs : c.Sound)
    (habsent : c.Absent addr secure) : m.holds addr secure = false := by
  rw [← Bool.not_eq_true, h.holds_iff hs]
  rintro ⟨id, hheld⟩
  exact habsent id hheld

theorem push (h : m.Represents enabled dropsDead c) (hs : c.Sound) {id : LineId}
    (hinstalled : c.Installed addr secure id evicted c') :
    evicted = (displaced m.geometry.ways (m.listOf addr)).map (·.1) ∧
      (m.push addr secure).Represents enabled dropsDead c' := by
  obtain ⟨hevicted, horders⟩ := h.orders.install hs hinstalled
  rw [h.geometry_eq, h.listOf_eq]
  refine ⟨hevicted, h.setList hinstalled.geometry_eq ?_⟩
  rwa [h.pairOf_eq, h.listOf_eq, h.geometry_eq]

theorem serve (h : m.Represents enabled dropsDead c) (hs : c.Sound)
    (hserved : c.Served access hit evicted c') :
    ∃ m', m.serve access = (hit, evicted, m') ∧ m'.Represents enabled dropsDead c' := by
  cases hserved with
  | hit id held told geometry_eq held_eq =>
    have horders := h.orders.touch hs held told held_eq
    rw [hs.set_eq_of_held held] at horders
    refine ⟨m.touch access.addr access.secure, ?_, h.setList geometry_eq ?_⟩
    · rw [RecencyCache.serve, if_pos ((h.holds_iff hs).2 ⟨id, held⟩)]
    · rwa [h.pairOf_eq, h.listOf_eq]
  | miss absent installed =>
    obtain ⟨hevicted, hpushed⟩ := h.push hs installed
    refine ⟨m.push access.addr access.secure, ?_, hpushed⟩
    rw [RecencyCache.serve, h.not_holds hs absent, hevicted]
    rfl

theorem drop (h : m.Represents enabled dropsDead c) (hs : c.Sound)
    (hvacated : c.Vacated addr secure dropped c') :
    m.holds addr secure = dropped ∧ (m.drop addr secure).Represents enabled dropsDead c' := by
  cases hvacated with
  | found id held dropped =>
    have horders := h.orders.drop hs held dropped
    rw [hs.set_eq_of_held held] at horders
    refine ⟨(h.holds_iff hs).2 ⟨id, held⟩, h.setList dropped.geometry_eq ?_⟩
    rwa [h.pairOf_eq, h.listOf_eq]
  | missing absent s =>
    have hnot := h.not_holds hs absent
    have hmem : m.pairOf addr secure ∉ m.listOf addr := by
      rw [← List.contains_iff_mem]
      exact Bool.eq_false_iff.1 hnot
    refine ⟨hnot, h.setList rfl ?_⟩
    rw [List.erase_of_not_mem hmem, h.listOf_eq, Function.update_eq_self]
    exact h.orders

theorem prefetch (h : m.Represents enabled dropsDead c) (hs : c.Sound)
    (hprefetched : c.Prefetched target secure c') :
    (m.prefetch secure target).Represents enabled dropsDead c' := by
  cases hprefetched with
  | present id held =>
    rw [RecencyCache.prefetch, if_pos ((h.holds_iff hs).2 ⟨id, held⟩)]
    exact h
  | filled absent installed =>
    rw [RecencyCache.prefetch, h.not_holds hs absent]
    exact (h.push hs installed).2

theorem observe_eq {s : CacheSettings} (h : m.Represents enabled (s.prefetcher == .dbcp) c)
    (targets : List UInt64) :
    m.observe access targets =
      if s.prefetcher = .dbcp ∧ targets ≠ [] then m.drop access.addr access.secure else m := by
  simp [RecencyCache.observe, h.dropsDead_eq]

end Represents

end

/-! ## One request -/

/-- After at most `accesses` accesses a cache is accounted for, and the lists are those of its
contents. -/
structure Follows (settings : CacheSettings) (g : Geometry) (accesses : Nat) (c : Cache)
    (m : RecencyCache) : Prop where
  accounted : c.contents.Accounted accesses (accesses * settings.reach)
  selected : Prefetcher.Selected settings accesses c.prefetcher
  geometry_eq : c.contents.geometry = g
  lineBytes_eq : .ofNat g.lineBytes = settings.lineBytes
  represents : m.Represents c.enabled (settings.prefetcher == .dbcp) c.contents

namespace Follows

variable {s : CacheSettings} {g : Geometry} {accesses more : Nat} {c c' : Cache} {m : RecencyCache}
  {contents contents' : Contents Policy} {enabled : Bool}

theorem reached (h : Follows s g accesses c m) : c.Reached s accesses :=
  ⟨h.accounted, h.selected, h.geometry_eq ▸ h.lineBytes_eq⟩

theorem of_reached (h : Follows s g accesses c m) (hreached : c'.Reached s more)
    (hg : c'.contents.geometry = c.contents.geometry) {m' : RecencyCache}
    (hrepresents : m'.Represents c'.enabled (s.prefetcher == .dbcp) c'.contents) :
    Follows s g more c' m' :=
  ⟨hreached.accounted, hreached.selected, hg.trans h.geometry_eq, h.lineBytes_eq, hrepresents⟩

theorem watch (h : Follows s g accesses c m) {m' : RecencyCache}
    (hserved : m'.Represents enabled (s.prefetcher == .dbcp) contents)
    (hg : contents.geometry = c.contents.geometry)
    (haccounted : contents.Accounted (accesses + 1) (accesses * s.reach))
    (hdead : contents.statistics.deadPredictions < accesses + 1) {access : Access}
    {targets : List UInt64} (hwatched : Prefetcher.Watched s access contents targets contents') :
    (m'.observe access targets).Represents enabled (s.prefetcher == .dbcp) contents' := by
  rw [hserved.observe_eq]
  cases hwatched with
  | none kind =>
    rw [if_neg fun hasked => hasked.2 rfl]
    exact hserved
  | nextLine kind length_eq =>
    have hkind : ¬ (s.prefetcher = .dbcp ∧ targets ≠ []) := by simp [kind]
    rw [if_neg hkind]
    exact hserved
  | alive kind =>
    rw [if_neg fun hasked => hasked.2 rfl]
    exact hserved
  | dead kind drop =>
    obtain ⟨hvacated, -⟩ := (h.reached.dropDead_spec hg haccounted hdead access).of_ok drop
    rw [if_pos ⟨kind, List.cons_ne_nil _ []⟩]
    exact (hserved.drop haccounted.toSound hvacated).2

/-- The prefetched blocks are put in front in order. -/
theorem prefetchAll (hrepresents : m.Represents enabled (s.prefetcher == .dbcp) contents)
    {asked : Nat} (haccounted : contents.Accounted accesses asked) {targets : List UInt64}
    {secure : Bool} (hfill : contents.prefetchAll secure targets = .ok contents') :
    (targets.foldl (RecencyCache.prefetch secure) m).Represents enabled (s.prefetcher == .dbcp)
      contents' := by
  refine ((haccounted.prefetchAll_spec (motive := fun done contents' =>
    (done.foldl (RecencyCache.prefetch secure) m).Represents enabled (s.prefetcher == .dbcp)
      contents') targets ?_ ?_).of_ok hfill).1
  · exact ⟨hrepresents.geometry_eq, hrepresents.enabled_eq, hrepresents.dropsDead_eq,
      hrepresents.orders⟩
  · intro done target c c' _ hs hdone hprefetched
    rw [List.foldl_append]
    exact hdone.prefetch hs hprefetched

theorem lineOf_eq (h : Follows s g accesses c m) {addr : UInt64} {secure : Bool}
    {found : Option LineId} (hfound : c.lineOf addr secure = .ok found) :
    (m.enabled && m.holds addr secure) = found.isSome := by
  rw [h.represents.enabled_eq]
  cases henabled : c.enabled with
  | false =>
    rw [Cache.lineOf, henabled] at hfound
    obtain rfl := Except.ok.inj hfound
    rfl
  | true =>
    rw [Bool.true_and, Bool.eq_iff_iff, h.represents.holds_iff h.accounted.toSound]
    exact (Cache.isSome_lineOf h.accounted.toSound henabled hfound).symm

/-- Whichever course a request takes, it has the same reply in both caches. -/
theorem perform_eq (h : Follows s g accesses c m) {request : Request} {reply : Reply}
    (hperformed : c.Performed s request reply c') :
    ∃ m', m.perform reply.prefetches request = (reply.forget, m') ∧
      m'.Represents c'.enabled (s.prefetcher == .dbcp) c'.contents := by
  have henabled := h.represents.enabled_eq
  cases hperformed with
  | bypassAccess disabled =>
    refine ⟨m, ?_, h.represents⟩
    rw [perform, RecencyCache.access, henabled, disabled]
    rfl
  | access enabled serve watch prefetch =>
    obtain ⟨hserved, haccounted, hdead⟩ := (h.reached.serve_spec _).of_ok serve
    obtain ⟨m₁, hm₁, hrepresents⟩ := h.represents.serve h.accounted.toSound hserved
    have hwatched := h.watch hrepresents hserved.geometry_eq haccounted hdead watch
    have haccounted' := (h.reached.watched_accounted hserved.geometry_eq haccounted hdead watch).2
    refine ⟨_, ?_, prefetchAll hwatched haccounted' prefetch⟩
    rw [perform, RecencyCache.access, henabled, enabled]
    simp only [Reply.prefetches, if_true, hm₁]
    rfl
  | lineOf search =>
    refine ⟨m, ?_, h.represents⟩
    rw [perform, h.lineOf_eq search]
    rfl
  | contains search =>
    refine ⟨m, ?_, h.represents⟩
    rw [perform, h.lineOf_eq search]
    rfl
  | bypassInvalidate disabled =>
    refine ⟨m, ?_, h.represents⟩
    rw [perform, henabled, disabled]
    rfl
  | @invalidate addr secure dropped contents enabled drop =>
    have hvacated := ((h.accounted.dropBlock_spec _ _).of_ok drop).1
    obtain ⟨hholds, hdropped⟩ := h.represents.drop h.accounted.toSound
      (hvacated.of_blockOf h.accounted.lineBytes_pow)
    refine ⟨m.drop addr secure, ?_, hdropped⟩
    rw [perform, hholds, henabled, enabled]
    rfl
  | bypassFlush disabled =>
    refine ⟨m, ?_, h.represents⟩
    rw [perform, henabled, disabled]
    rfl
  | flush enabled flush =>
    obtain ⟨p, hp, -⟩ := h.represents.orders
    obtain ⟨hlru, -, hg, hnone⟩ := (h.accounted.flush_spec
      (motive := fun c => ∃ p, c.policy = .lru p) ⟨p, hp⟩
      fun _ _ _ _ _ hlru hdropped => hdropped.lru hlru).of_ok flush
    refine ⟨{ m with lists := fun _ => [] }, ?_, h.represents.geometry_eq.trans hg.symm, henabled,
      h.represents.dropsDead_eq, .of_held_none hlru hnone⟩
    rw [perform, henabled, enabled]
    rfl
  | @enable enabled =>
    exact ⟨{ m with enabled }, rfl, h.represents.geometry_eq, rfl, h.represents.dropsDead_eq,
      h.represents.orders⟩

theorem perform_spec (h : Follows s g accesses c m) (request : Request) :
    Delivers (c.perform request) (s.Excuses (accesses + (Cache.isAccess request).toNat))
      fun result => ∃ m', m.perform result.1.prefetches request = (result.1.forget, m') ∧
        Follows s g (accesses + (Cache.isAccess request).toNat) result.2 m' := by
  refine (h.reached.perform_spec request).mono (fun _ hfault => hfault) ?_
  rintro ⟨reply, c'⟩ ⟨hreached, hg, hperformed⟩
  obtain ⟨m', hm', hrepresents⟩ := h.perform_eq hperformed
  exact ⟨m', hm', h.of_reached hreached hg hrepresents⟩

end Follows

/-! ## Runs -/

variable {settings : CacheSettings} {c : Cache}

/-- The recency-list cache of some settings. -/
def ofSettings (settings : CacheSettings) (g : Geometry) : RecencyCache :=
  empty g (settings.prefetcher == .dbcp) settings.enabled

theorem new_follows (hnew : Cache.new settings = .ok c) (hlru : settings.policy = .lru) :
    Follows settings c.contents.geometry 0 c (ofSettings settings c.contents.geometry) := by
  have hreached := Cache.new_reached hnew
  obtain ⟨g, policy, prefetcher, rfl, -, -, -, -, -, hfits, hpolicy, -⟩ := Cache.new_eq_ok hnew
  rw [hlru] at hpolicy
  obtain ⟨p, -, rfl⟩ := accepted_map_iff.1 hpolicy
  exact ⟨hreached.accounted, hreached.selected, rfl, hreached.lineBytes_eq, rfl, rfl, rfl,
    .of_held_none ⟨p, rfl⟩ (Contents.held_empty _ hfits)⟩

/-- **A least-recently-used cache is a recency-list cache.** Any requests to a new cache with the
least-recently-used policy get the replies that the recency-list cache gives, whichever prefetcher
watches, and lead to contents that are those of its lists. Only the work of 2^64 accesses and
prefetches, or a prefetch beyond 64 bits, may stop the cache. -/
theorem run_refines_lists (hnew : Cache.new settings = .ok c) (hlru : settings.policy = .lru)
    (requests : List Request) :
    Delivers (c.run requests) (settings.Excuses (requests.countP Cache.isAccess)) fun result =>
      result.1.length = requests.length ∧
      ∃ m, (ofSettings settings c.contents.geometry).run
          (requests.zip (result.1.map Reply.prefetches)) = (result.1.map Reply.forget, m) ∧
        ∀ set, set < c.numSets → (m.lists set).Nodup ∧ (m.lists set).length ≤ c.ways ∧
          ∀ pair, pair ∈ m.lists set ↔ pair ∈ result.2.residents ∧ result.2.setOf pair.1 = set := by
  -- The replies are paired with the requests, so the invariant says that they are as many.
  refine (Cache.run_history (motive := fun done replies c' => replies.length = done.length ∧
    ∃ m, (ofSettings settings c.contents.geometry).run
      (done.zip (replies.map Reply.prefetches)) = (replies.map Reply.forget, m) ∧
      Follows settings c.contents.geometry (done.countP Cache.isAccess) c' m)
    ⟨rfl, _, rfl, new_follows hnew hlru⟩ ?_).mono (fun _ hfault => hfault) ?_
  · rintro done replies request c' hdone ⟨hlength, m, hrun, hfollows⟩
    refine (hfollows.perform_spec request).mono (fun _ hfault => hfault.mono ?_) ?_
    · rw [← countP_append_singleton]
      exact hdone.sublist.countP_le
    · rintro ⟨reply, c''⟩ ⟨m', hm', hfollows'⟩
      rw [← countP_append_singleton] at hfollows'
      refine ⟨by simp [hlength], m', ?_, hfollows'⟩
      rw [List.map_append, List.zip_append (by rw [List.length_map, hlength]), List.map_singleton,
        List.zip_cons_cons, List.zip_nil_left, run_append_singleton, hrun, hm', List.map_append]
      rfl
  · rintro ⟨replies, c'⟩ ⟨hlength, m, hrun, hfollows⟩
    refine ⟨hlength, m, hrun, fun set hset => ?_⟩
    have hs := hfollows.accounted.toSound
    have horders := hfollows.represents.orders
    have hg := hfollows.geometry_eq
    dsimp only at hs horders hg
    have hset' : set < c'.contents.geometry.sets := hg ▸ hset
    refine ⟨horders.nodup hs hset', ?_, fun pair => ?_⟩
    · have hle := horders.length_le hs hset'
      rwa [hg] at hle
    · rw [horders.mem_iff hs]
      constructor
      · rintro ⟨way, hheld⟩
        exact ⟨⟨_, hheld⟩, (hs.set_of_held hheld).1⟩
      · rintro ⟨⟨⟨s, way⟩, hheld⟩, hsame⟩
        obtain rfl : s = set := (hs.set_of_held hheld).1.symm.trans hsame
        exact ⟨way, hheld⟩

/-- The block behind the accessed one is prefetched, and the third block in a set of two ways
displaces one. -/
theorem run_refines_lists_next_line :
    ∃ c replies c' m, Cache.new
        { enabled := true, sizeBytes := 128, ways := 2, prefetcher := .nextLine } = .ok c ∧
      CacheSettings.policy
        { enabled := true, sizeBytes := 128, ways := 2, prefetcher := .nextLine } = .lru ∧
      c.run [.access { addr := 0 }, .access { addr := 130 }, .invalidate 64 false, .flush] =
        .ok (replies, c') ∧
      replies.length = 4 ∧
      (ofSettings { enabled := true, sizeBytes := 128, ways := 2, prefetcher := .nextLine }
          c.contents.geometry).run
        ([Request.access { addr := 0 }, .access { addr := 130 }, .invalidate 64 false, .flush].zip
          (replies.map Reply.prefetches)) = (replies.map Reply.forget, m) ∧
      ∀ set, set < c.numSets → (m.lists set).Nodup ∧ (m.lists set).length ≤ c.ways ∧
        ∀ pair, pair ∈ m.lists set ↔ pair ∈ c'.residents ∧ c'.setOf pair.1 = set := by
  obtain ⟨⟨replies, c'⟩, hrun, hlength, m, hm, h⟩ := (run_refines_lists
    (show Cache.new
      { enabled := true, sizeBytes := 128, ways := 2, prefetcher := .nextLine } = .ok _ from rfl)
    rfl [.access { addr := 0 }, .access { addr := 130 }, .invalidate 64 false, .flush]).of_isOk
    (by decide)
  exact ⟨_, replies, c', m, rfl, rfl, hrun, hlength, hm, h⟩

end RecencyCache

end Residency
