import Mathlib.Data.List.Infix
import Residency.Proofs.Cache.Recency

/-!
# More ways never hurt the least-recently-used policy

Of two recency lists that are served the same requests, the one with fewer ways is always the front
part of the other one. Wherever a block is dropped from the middle of both, it stays so. What is
found in the narrower cache is therefore found in the wider one.
-/

namespace Residency

/-! ## Lists with room for one more -/

section

variable {ways more : Nat} {list longer : List (UInt64 × Bool)}

theorem room_eq_take (h : list.length ≤ ways) : room ways list = list.take (ways - 1) := by
  rw [room]
  by_cases hfull : list.length = ways
  · rw [if_pos hfull, List.dropLast_eq_take, hfull]
  · rw [if_neg hfull, List.take_of_length_le]
    omega

theorem room_front (ways : Nat) (list : List (UInt64 × Bool)) : room ways list <+: list := by
  rw [room]
  split
  · exact List.dropLast_prefix list
  · exact List.prefix_refl list

/-- With no fewer ways no less is kept. -/
theorem room_mono (h : list <+: longer) (hways : ways ≤ more) (hlist : list.length ≤ ways)
    (hlonger : longer.length ≤ more) : room ways list <+: room more longer := by
  rw [room_eq_take hlist, room_eq_take hlonger]
  apply (h.take (ways - 1)).trans
  apply List.take_prefix_take_left
  omega

end

/-- The reply to a request about a block that was found. -/
def Reply.found : Reply → Bool
  | .outcome served => served.hit
  | .line found => found.isSome
  | .resident found => found
  | .done => false

theorem Reply.found_forget (reply : Reply) : reply.forget.found = reply.found := by
  cases reply <;> rfl

/-! ## Recency-list caches of different ways -/

namespace RecencyCache

variable {m n : RecencyCache} {addr : UInt64} {secure : Bool}

/-- The lists of the one cache are the front parts of those of the other, which has the same sets
and no fewer ways. -/
structure Nested (m n : RecencyCache) : Prop where
  lineBytes_eq : n.geometry.lineBytes = m.geometry.lineBytes
  sets_eq : n.geometry.sets = m.geometry.sets
  ways_le : m.geometry.ways ≤ n.geometry.ways
  enabled_eq : n.enabled = m.enabled
  front : ∀ set, m.lists set <+: n.lists set

/-- No list that an address may lie in is longer than the ways. -/
def Bounded (m : RecencyCache) : Prop :=
  ∀ addr, (m.listOf addr).length ≤ m.geometry.ways

namespace Nested

theorem setOf_eq (h : m.Nested n) (addr : UInt64) :
    n.geometry.setOf addr = m.geometry.setOf addr := by
  rw [Geometry.setOf, Geometry.setOf, h.lineBytes_eq, h.sets_eq]

theorem pairOf_eq (h : m.Nested n) (addr : UInt64) (secure : Bool) :
    n.pairOf addr secure = m.pairOf addr secure := by
  rw [pairOf, pairOf, Geometry.blockOf, Geometry.blockOf, h.lineBytes_eq]

theorem listOf (h : m.Nested n) (addr : UInt64) : m.listOf addr <+: n.listOf addr := by
  rw [RecencyCache.listOf, RecencyCache.listOf, h.setOf_eq]
  exact h.front _

theorem setList (h : m.Nested n) {list longer : List (UInt64 × Bool)} (hfront : list <+: longer) :
    (m.setList addr list).Nested (n.setList addr longer) where
  lineBytes_eq := h.lineBytes_eq
  sets_eq := h.sets_eq
  ways_le := h.ways_le
  enabled_eq := h.enabled_eq
  front := by
    intro set
    simp only [RecencyCache.setList, h.setOf_eq, Function.update_apply]
    split
    · exact hfront
    · exact h.front set

theorem holds (h : m.Nested n) (hheld : m.holds addr secure = true) :
    n.holds addr secure = true := by
  rw [RecencyCache.holds, List.contains_iff_mem] at hheld ⊢
  rw [h.pairOf_eq]
  exact (h.listOf addr).mem hheld

theorem drop (h : m.Nested n) (addr : UInt64) (secure : Bool) :
    (m.drop addr secure).Nested (n.drop addr secure) := by
  apply h.setList
  rw [h.pairOf_eq]
  exact (h.listOf addr).erase _

/-- A block that moves to the front of the longer list is put in front of the shorter one if it is
not there. -/
theorem serve {access : Access} (h : m.Nested n) (hm : m.Bounded) (hn : n.Bounded) :
    ((m.serve access).1 = true → (n.serve access).1 = true) ∧
      (m.serve access).2.2.Nested (n.serve access).2.2 := by
  have hfront := h.listOf access.addr
  have hpair := h.pairOf_eq access.addr access.secure
  rw [RecencyCache.serve, RecencyCache.serve]
  by_cases hheld : m.holds access.addr access.secure = true
  · rw [if_pos hheld, if_pos (h.holds hheld)]
    refine ⟨fun _ => rfl, h.setList ?_⟩
    rw [hpair, List.cons_prefix_cons]
    exact ⟨rfl, hfront.erase _⟩
  · rw [if_neg hheld]
    refine ⟨fun hfalse => absurd hfalse Bool.false_ne_true, ?_⟩
    by_cases hheld' : n.holds access.addr access.secure = true
    · -- Only the longer list has it, behind all that the shorter one keeps.
      rw [if_pos hheld']
      apply h.setList
      rw [hpair, List.cons_prefix_cons]
      refine ⟨rfl, (room_front _ _).trans ?_⟩
      have hnot : m.pairOf access.addr access.secure ∉ m.listOf access.addr := by
        rwa [RecencyCache.holds, List.contains_iff_mem] at hheld
      have herased := hfront.erase (m.pairOf access.addr access.secure)
      rwa [List.erase_of_not_mem hnot] at herased
    · rw [if_neg hheld']
      apply h.setList
      rw [hpair, List.cons_prefix_cons]
      exact ⟨rfl, room_mono hfront h.ways_le (hm _) (hn _)⟩

/-- If nothing is asked for, nothing but the access itself happens. -/
theorem access {access : Access} (h : m.Nested n) (hm : m.Bounded) (hn : n.Bounded) :
    ((m.access access []).1.hit = true → (n.access access []).1.hit = true) ∧
      (m.access access []).2.Nested (n.access access []).2 := by
  rw [RecencyCache.access, RecencyCache.access, h.enabled_eq]
  split
  · simp only [observe, List.isEmpty_nil, Bool.not_true, Bool.and_false, Bool.false_eq_true,
      if_false, List.foldl_nil]
    exact h.serve hm hn
  · exact ⟨id, h⟩

/-- Without a prefetcher, whatever is found in the one cache is found in the other, and the lists
stay nested. -/
theorem perform (h : m.Nested n) (hm : m.Bounded) (hn : n.Bounded) (request : Request) :
    ((m.perform [] request).1.found = true → (n.perform [] request).1.found = true) ∧
      (m.perform [] request).2.Nested (n.perform [] request).2 := by
  have hfound : ∀ addr secure, (m.enabled && m.holds addr secure) = true →
      (n.enabled && n.holds addr secure) = true := by
    intro addr secure hheld
    rw [Bool.and_eq_true] at hheld ⊢
    exact ⟨h.enabled_eq.trans hheld.1, h.holds hheld.2⟩
  cases request with
  | access access => exact h.access hm hn
  | lineOf addr secure => exact ⟨hfound addr secure, h⟩
  | contains addr secure => exact ⟨hfound addr secure, h⟩
  | invalidate addr secure =>
    refine ⟨hfound addr secure, ?_⟩
    rw [RecencyCache.perform, RecencyCache.perform, h.enabled_eq]
    split
    · exact h.drop addr secure
    · exact h
  | flush =>
    refine ⟨id, ?_⟩
    rw [RecencyCache.perform, RecencyCache.perform, h.enabled_eq]
    split
    · exact ⟨h.lineBytes_eq, h.sets_eq, h.ways_le, rfl, fun _ => List.prefix_refl _⟩
    · exact h
  | enable enabled => exact ⟨id, h.lineBytes_eq, h.sets_eq, h.ways_le, rfl, h.front⟩

end Nested

/-! ## Caches of different ways -/

open Cache

section

variable {s : CacheSettings} {g : Geometry} {accesses : Nat} {c c' : Cache} {request : Request}
  {reply : Reply}

theorem prefetches_eq_nil (hnone : s.prefetcher = .none)
    (hperformed : c.Performed s request reply c') : reply.prefetches = [] := by
  cases hperformed with
  | access enabled serve watch prefetch =>
    have hle := watch.length_le
    rw [CacheSettings.reach_of_none hnone] at hle
    exact List.eq_nil_of_length_eq_zero (Nat.le_zero.1 hle)
  | _ => rfl

namespace Follows

theorem bounded (h : Follows s g accesses c m) : m.Bounded := by
  intro addr
  rw [h.represents.listOf_eq, h.represents.geometry_eq]
  exact h.represents.orders.length_le h.accounted.toSound (c.contents.geometry.setOf_lt addr)

/-- Without a prefetcher the lists are told nothing but the requests. -/
theorem perform_unasked (h : Follows s g accesses c m) (hnone : s.prefetcher = .none)
    (hc : c.perform request = .ok (reply, c')) :
    (m.perform [] request).1.found = reply.found ∧
      Follows s g (accesses + (isAccess request).toNat) c' (m.perform [] request).2 := by
  obtain ⟨m', hm', hfollows⟩ := (h.perform_spec request).of_ok hc
  obtain ⟨-, -, hperformed⟩ := (h.reached.perform_spec request).of_ok hc
  rw [prefetches_eq_nil hnone hperformed] at hm'
  rw [hm']
  exact ⟨reply.found_forget, hfollows⟩

end Follows

end

/-- Two caches, each without a prefetcher, are those of nested lists. -/
def Included (s t : CacheSettings) (c d : Cache) : Prop :=
  ∃ g g' accesses accesses' m n, Follows s g accesses c m ∧ Follows t g' accesses' d n ∧ m.Nested n

namespace Included

variable {s t : CacheSettings} {c c' d d' : Cache} {request : Request} {reply reply' : Reply}

theorem perform (h : Included s t c d) (hs : s.prefetcher = .none) (ht : t.prefetcher = .none)
    (hc : c.perform request = .ok (reply, c')) (hd : d.perform request = .ok (reply', d')) :
    (reply.found = true → reply'.found = true) ∧ Included s t c' d' := by
  obtain ⟨g, g', accesses, accesses', m, n, hm, hn, hnested⟩ := h
  obtain ⟨hreply, hm'⟩ := hm.perform_unasked hs hc
  obtain ⟨hreply', hn'⟩ := hn.perform_unasked ht hd
  obtain ⟨hfound, hnested'⟩ := hnested.perform hm.bounded hn.bounded request
  rw [hreply, hreply'] at hfound
  exact ⟨hfound, g, g', _, _, _, _, hm', hn', hnested'⟩

theorem residents_subset (h : Included s t c d) : c.residents ⊆ d.residents := by
  obtain ⟨g, g', accesses, accesses', m, n, hm, hn, hnested⟩ := h
  intro pair hpair
  obtain ⟨⟨set, way⟩, hheld⟩ := hpair
  have hmem := (hm.represents.orders.mem_iff hm.accounted.toSound).2 ⟨way, hheld⟩
  have hmem' := (hnested.front set).mem hmem
  obtain ⟨way', hheld'⟩ := (hn.represents.orders.mem_iff hn.accounted.toSound).1 hmem'
  exact ⟨_, hheld'⟩

theorem of_new (hc : Cache.new s = .ok c) (hd : Cache.new t = .ok d) (hlru : s.policy = .lru)
    (hlru' : t.policy = .lru) (henabled : t.enabled = s.enabled)
    (hline : t.lineBytes = s.lineBytes) (hsets : d.numSets = c.numSets) (hways : c.ways ≤ d.ways) :
    Included s t c d := by
  have hm := new_follows hc hlru
  have hn := new_follows hd hlru'
  refine ⟨_, _, 0, 0, _, _, hm, hn, ?_, hsets, hways, henabled, fun _ => List.prefix_refl _⟩
  have hbytes := hn.lineBytes_eq
  rw [hline, ← hm.lineBytes_eq] at hbytes
  have hnat := congrArg UInt64.toNat hbytes
  rwa [Geometry.toNat_ofNat_lineBytes, Geometry.toNat_ofNat_lineBytes] at hnat

end Included

/-- **More ways never hurt.** Two new caches with the least-recently-used policy and without a
prefetcher have as many sets of as long lines, and the second one has no fewer ways. After each
request, whatever both are asked, what is resident in the first one is resident in the second one;
and whenever a block was found in the first one, as on a hit, it was found in the second one. Only a
cache that has been asked for 2^64 accesses may stop. -/
theorem run_included {narrow wide : CacheSettings} {c d : Cache} (hc : Cache.new narrow = .ok c)
    (hd : Cache.new wide = .ok d) (hlru : narrow.policy = .lru) (hlru' : wide.policy = .lru)
    (hnone : narrow.prefetcher = .none) (hnone' : wide.prefetcher = .none)
    (henabled : wide.enabled = narrow.enabled) (hline : wide.lineBytes = narrow.lineBytes)
    (hsets : d.numSets = c.numSets) (hways : c.ways ≤ d.ways) (requests : List Request) :
    Delivers (c.run requests) (narrow.Excuses (requests.countP isAccess)) fun small =>
      Delivers (d.run requests) (wide.Excuses (requests.countP isAccess)) fun large =>
        small.2.residents ⊆ large.2.residents ∧
        List.Forall₂ (fun reply reply' => reply.found = true → reply'.found = true)
          small.1 large.1 := by
  have hincluded := Included.of_new hc hd hlru hlru' henabled hline hsets hways
  refine (run_spec hc requests).self.mono (fun _ hfault => hfault) ?_
  intro small hsmall
  refine (run_spec hd requests).self.mono (fun _ hfault => hfault) ?_
  intro large hlarge
  obtain ⟨hfound, hlast⟩ := run_related
    (fun request c c' d d' reply reply' h hperform hperform' =>
      h.perform hnone hnone' hperform hperform') hincluded hsmall.1 hlarge.1
  exact ⟨hlast.residents_subset, hfound⟩

/-- The first block has made way in the sets of one way, but not in those of two. -/
theorem run_included_one_way :
    ∃ c d small large,
      Cache.new { enabled := true, sizeBytes := 128, ways := 1 } = .ok c ∧
      Cache.new { enabled := true, sizeBytes := 256, ways := 2 } = .ok d ∧
      d.numSets = c.numSets ∧ c.ways ≤ d.ways ∧
      c.run [.access { addr := 0 }, .access { addr := 128 }, .access { addr := 128 },
        .access { addr := 0 }] = .ok small ∧
      d.run [.access { addr := 0 }, .access { addr := 128 }, .access { addr := 128 },
        .access { addr := 0 }] = .ok large ∧
      small.1.map Reply.found = [false, false, true, false] ∧
      large.1.map Reply.found = [false, false, true, true] ∧
      small.2.residents ⊆ large.2.residents ∧
      List.Forall₂ (fun reply reply' => reply.found = true → reply'.found = true)
        small.1 large.1 := by
  obtain ⟨small, hsmall, h⟩ := (run_included
    (show Cache.new { enabled := true, sizeBytes := 128, ways := 1 } = .ok _ from rfl)
    (show Cache.new { enabled := true, sizeBytes := 256, ways := 2 } = .ok _ from rfl)
    rfl rfl rfl rfl rfl rfl (by decide) (by decide)
    [.access { addr := 0 }, .access { addr := 128 }, .access { addr := 128 },
      .access { addr := 0 }]).of_isOk (by decide)
  obtain ⟨large, hlarge, hresidents, hfound⟩ := h.of_isOk (by decide)
  refine ⟨_, _, small, large, rfl, rfl, by decide, by decide, hsmall, hlarge, ?_, ?_, hresidents,
    hfound⟩
  · obtain rfl := Except.ok.inj hsmall
    rfl
  · obtain rfl := Except.ok.inj hlarge
    rfl

end RecencyCache

end Residency
