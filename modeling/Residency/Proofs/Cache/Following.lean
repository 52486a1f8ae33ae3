import Mathlib.Data.Nat.ModEq
import Residency.Proofs.Cache.Burial
import Residency.Proofs.Cache.Decisions
import Residency.Proofs.Cache.Faultless
import Residency.Proofs.Prefetch.NextLine

/-!
# The following blocks all stay

Blocks that follow one another lie in sets that follow one another, and behind the last set comes
the first. If an access brings in fewer blocks than there are sets, each of them falls into a set of
its own, so none displaces another. For a number of sets that is a power of two this is so across
the top of the address space as well, since the sets then divide the blocks evenly.
-/

namespace Residency

/-! ## The sets of blocks that follow one another -/

namespace Geometry

variable {g : Geometry}

/-- One way of all sets divides the address space. -/
theorem span_dvd (hline : g.lineBytes.isPowerOfTwo) (hsets : g.sets.isPowerOfTwo) :
    g.lineBytes * g.sets ∣ 2 ^ 64 := by
  obtain ⟨l, hl⟩ := hline
  obtain ⟨k, hk⟩ := hsets
  have hspan : 2 ^ (l + k) < 2 ^ 64 := by
    rw [Nat.pow_add, ← hl, ← hk]
    exact g.span_lt
  rw [hl, hk, ← Nat.pow_add]
  exact Nat.pow_dvd_pow 2 ((Nat.pow_lt_pow_iff_right (by decide)).1 hspan).le

/-- Every block further on lies one set further on. -/
theorem setOf_following (hline : g.lineBytes.isPowerOfTwo) (hsets : g.sets.isPowerOfTwo)
    (addr : UInt64) (k : Nat) :
    g.setOf (NextLine.following (.ofNat g.lineBytes) addr k) =
      (addr.toNat / g.lineBytes + k) % g.sets := by
  have hsize := g.toNat_ofNat_lineBytes
  rw [setOf, NextLine.toNat_following (hsize.symm ▸ hline), hsize, ← Nat.add_mul]
  -- Division and remainder only see the address modulo the span of one way, which divides `2 ^ 64`.
  rw [← Nat.mod_mul_right_div_self, Nat.mod_mod_of_dvd _ (span_dvd hline hsets),
    Nat.mod_mul_right_div_self, Nat.mul_div_cancel _ g.lineBytes_pos]

/-- Fewer blocks than there are sets lie in different sets. -/
theorem nodup_setOf_following (hline : g.lineBytes.isPowerOfTwo) (hsets : g.sets.isPowerOfTwo)
    (addr : UInt64) {n : Nat} (hn : n < g.sets) :
    ((addr :: (List.range' 1 n).map (NextLine.following (.ofNat g.lineBytes) addr)).map
      g.setOf).Nodup := by
  have hmap : (addr :: (List.range' 1 n).map (NextLine.following (.ofNat g.lineBytes) addr)).map
      g.setOf = (List.range' 0 (n + 1)).map fun k => (addr.toNat / g.lineBytes + k) % g.sets := by
    rw [List.range'_succ, List.map_cons, List.map_cons, List.map_map]
    congr 1
    apply List.map_congr_left
    intro k _
    exact setOf_following hline hsets addr k
  rw [hmap]
  refine List.Nodup.map_on ?_ List.nodup_range'
  intro j hj k hk heq
  simp only [List.mem_range'_1] at hj hk
  exact Nat.ModEq.eq_of_lt_of_lt (Nat.ModEq.add_left_cancel' _ heq) (by omega) (by omega)

end Geometry

namespace Cache

variable {s : CacheSettings} {c c₁ c₂ : Cache} {accesses : Nat} {addr : UInt64} {secure : Bool}
  {addrs : List UInt64} {access : Access} {left : Option (UInt64 × Bool)}

/-! ## Blocks that come in one after the other -/

/-- The blocks of some addresses have come in. They are resident, and nothing else is that was not
resident before. -/
structure BroughtIn (c c' : Cache) (secure : Bool) (addrs : List UInt64) : Prop where
  geometry_eq : c'.contents.geometry = c.contents.geometry
  arrived : ∀ addr ∈ addrs, c.pairOf addr secure ∈ c'.residents
  nothing_else : ∀ pair ∈ c'.residents, pair ∈ c.residents ∨
    ∃ addr ∈ addrs, pair = c.pairOf addr secure

theorem BroughtIn.refl (c : Cache) (secure : Bool) : BroughtIn c c secure [] :=
  ⟨rfl, by simp, fun _ hpair => .inl hpair⟩

/-- A fill displaces a block of its own set at most. -/
theorem Fills.setOf_left (h : Fills c₁ c₂ addr secure left) {pair : UInt64 × Bool}
    (hleft : left = some pair) : c₁.setOf pair.1 = c₁.setOf addr := by
  cases h with
  | present resident kept => cases hleft
  | vacant vacancy added => cases hleft
  | full left full resident same_set replaced =>
    obtain rfl := Option.some.inj hleft
    exact same_set

theorem setOf_pairOf (hpow : c.contents.geometry.lineBytes.isPowerOfTwo) (addr : UInt64)
    (secure : Bool) : c.setOf (c.pairOf addr secure).1 = c.setOf addr :=
  Geometry.setOf_blockOf hpow addr

/-- Another block comes in. It displaces none of those before if it falls into another set than all
of them. -/
theorem BroughtIn.fill (h : BroughtIn c c₁ secure addrs) (hfills : Fills c₁ c₂ addr secure left)
    (hpow : c.contents.geometry.lineBytes.isPowerOfTwo)
    (hg : c₂.contents.geometry = c₁.contents.geometry)
    (hother : ∀ other ∈ addrs, c.setOf other ≠ c.setOf addr) :
    BroughtIn c c₂ secure (addrs ++ [addr]) := by
  have hpair : ∀ other, c₁.pairOf other secure = c.pairOf other secure :=
    pairOf_congr h.geometry_eq
  have hset : c₁.setOf = c.setOf := by
    funext other
    exact congrArg (·.setOf other) h.geometry_eq
  refine ⟨hg.trans h.geometry_eq, ?_, ?_⟩
  · intro other hmem
    rcases List.mem_append.1 hmem with hmem | hmem
    · rcases hfills.keeps (h.arrived other hmem) with hkept | hleft
      · exact hkept
      · have hsame := hfills.setOf_left hleft
        rw [hset, setOf_pairOf hpow] at hsame
        exact absurd hsame (hother other hmem)
    · obtain rfl := List.mem_singleton.1 hmem
      rw [← hpair]
      exact hfills.mem
  · intro pair hmem
    rcases hfills.mem_or hmem with heq | hmem
    · exact .inr ⟨addr, by simp, heq.trans (hpair addr)⟩
    · rcases h.nothing_else pair hmem with hold | ⟨other, hother, heq⟩
      · exact .inl hold
      · exact .inr ⟨other, by simp [hother], heq⟩

/-- Blocks of different sets come in, each of them by a prefetch. -/
theorem BroughtIn.prefetchAll {contents filled : Contents Policy} {targets : List UInt64}
    {asked : Nat} (h : BroughtIn c { c with contents } secure addrs) (henabled : c.enabled = true)
    (haccounted : contents.Accounted accesses asked)
    (hdistinct : ((addrs ++ targets).map c.setOf).Nodup)
    (hfill : contents.prefetchAll secure targets = .ok filled) :
    BroughtIn c { c with contents := filled } secure (addrs ++ targets) := by
  have hpow : c.contents.geometry.lineBytes.isPowerOfTwo := by
    rw [← h.geometry_eq]
    exact haccounted.lineBytes_pow
  have hstart : BroughtIn c { c with contents := { contents with statistics :=
      { contents.statistics with
        prefetchesIssued := contents.statistics.prefetchesIssued + targets.length } } } secure
      (addrs ++ []) := by
    rw [List.append_nil]
    exact ⟨h.geometry_eq, h.arrived, h.nothing_else⟩
  refine ((haccounted.prefetchAll_spec (motive := fun done contents =>
    BroughtIn c { c with contents } secure (addrs ++ done)) targets hstart ?_).of_ok hfill).1
  intro done target contents contents' hdone hsound hbrought hprefetched
  have hfills : ∃ left, Fills { c with contents } { c with contents := contents' } target secure
      left := Fills.of_prefetched hsound henabled hprefetched
  obtain ⟨left, hfills⟩ := hfills
  rw [← List.append_assoc]
  refine hbrought.fill hfills hpow hprefetched.geometry_eq ?_
  intro other hother
  -- The target lies behind all those before it in a list without two addresses of one set.
  have hnodup := hdistinct.sublist (((hdone.sublist).append_left addrs).map c.setOf)
  rw [← List.append_assoc, List.map_append, List.nodup_append] at hnodup
  exact hnodup.2.2 _ (List.mem_map_of_mem hother) _ (by simp)

/-! ## An access with next-line prefetching -/

/-- What an access leaves. The accessed block is there, and so are as many following ones as the
degree says; they have come in, if they had to, into sets of their own, and nothing else has. -/
structure BringsIn (s : CacheSettings) (c : Cache) (access : Access) (outcome : Outcome)
    (c' : Cache) : Prop where
  prefetches_eq : outcome.prefetches = (List.range' 1 (max s.prefetchDegree.toNat 1)).map
    (NextLine.following s.lineBytes access.addr)
  served : c'.contains access.addr access.secure = .ok true
  arrived : ∀ k, 1 ≤ k → k ≤ max s.prefetchDegree.toNat 1 →
    c'.contains (NextLine.following s.lineBytes access.addr k) access.secure = .ok true
  nothing_else : ∀ pair ∈ c'.residents, pair ∈ c.residents ∨
    ∃ addr ∈ access.addr :: outcome.prefetches, pair = c.pairOf addr access.secure
  one_each : ∀ pair other, pair ∈ c'.residents → pair ∉ c.residents → other ∈ c'.residents →
    other ∉ c.residents → c.setOf pair.1 = c.setOf other.1 → pair = other

/-- New blocks of one set are the same, if all that came in have sets of their own. -/
theorem BroughtIn.eq_of_setOf_eq {c' : Cache} (h : BroughtIn c c' secure addrs)
    (hpow : c.contents.geometry.lineBytes.isPowerOfTwo)
    (hdistinct : (addrs.map c.setOf).Nodup) {pair other : UInt64 × Bool}
    (hpair : pair ∈ c'.residents) (hnew : pair ∉ c.residents) (hother : other ∈ c'.residents)
    (hnew' : other ∉ c.residents) (hset : c.setOf pair.1 = c.setOf other.1) : pair = other := by
  obtain ⟨a, ha, rfl⟩ := (h.nothing_else pair hpair).resolve_left hnew
  obtain ⟨b, hb, rfl⟩ := (h.nothing_else other hother).resolve_left hnew'
  rw [setOf_pairOf hpow, setOf_pairOf hpow] at hset
  rw [List.inj_on_of_nodup_map hdistinct ha hb hset]

/-- The prefetcher of a cache that is reached asks for the following blocks. -/
theorem Reached.prefetches_eq (h : c.Reached s accesses) (hkind : s.prefetcher = .nextLine)
    (hfits : FitsWord (s.lineBytes.toNat * max s.prefetchDegree.toNat 1))
    (henabled : c.enabled = true) {outcome : Outcome} {c' : Cache}
    (haccess : c.access access = .ok (outcome, c')) :
    outcome.prefetches = (List.range' 1 (max s.prefetchDegree.toNat 1)).map
      (NextLine.following s.lineBytes access.addr) := by
  have hdecide := (access_decides henabled haccess).1
  have hselected := h.selected
  generalize c.prefetcher = prefetcher at hdecide hselected
  cases hselected with
  | none kind => cases hkind.symm.trans kind
  | dbcp kind sound lineBytes_eq => cases hkind.symm.trans kind
  | nextLine kind =>
    rw [Prefetcher.decideOn, Prefetcher.observe,
      NextLine.targets_of_fits h.lineBytes_ne access hfits] at hdecide
    exact (Prod.mk.inj (Except.ok.inj hdecide)).1.symm

/-- An access brings in its block, and then those that the next-line prefetcher asks for, if all of
them lie in different sets. -/
theorem Reached.broughtIn (h : c.Reached s accesses) (hkind : s.prefetcher = .nextLine)
    (henabled : c.enabled = true) {outcome : Outcome} {c' : Cache}
    (hperformed : c.Performed s (.access access) (.outcome outcome) c')
    (hdistinct : ((access.addr :: outcome.prefetches).map c.setOf).Nodup) :
    BroughtIn c c' access.secure (access.addr :: outcome.prefetches) := by
  have hpow := h.accounted.lineBytes_pow
  cases hperformed with
  | bypassAccess disabled => simp [henabled] at disabled
  | @access _ hit evicted targets served watched filled prefetcher enabled serve watch prefetch =>
    obtain ⟨hserved, haccounted, -⟩ := (h.serve_spec access).of_ok serve
    cases watch with
    | none kind => cases hkind.symm.trans kind
    | alive kind => cases hkind.symm.trans kind
    | dead kind drop => cases hkind.symm.trans kind
    | nextLine kind length_eq =>
      have hdemand : ∃ left, Fills c { c with contents := served } access.addr access.secure left ∧
          evicted = left.map (·.1) := Fills.of_served h.accounted.toSound enabled hserved
      obtain ⟨left, hdemand, -⟩ := hdemand
      have hfirst : BroughtIn c { c with contents := served } access.secure [access.addr] :=
        (BroughtIn.refl c access.secure).fill hdemand hpow hserved.geometry_eq (by simp)
      have hall : BroughtIn c { c with contents := filled } access.secure
          (access.addr :: targets) :=
        hfirst.prefetchAll enabled haccounted hdistinct prefetch
      exact ⟨hall.geometry_eq, hall.arrived, hall.nothing_else⟩

theorem BroughtIn.contains_eq {c' : Cache} (h : BroughtIn c c' secure addrs)
    (hc' : c'.Reached s accesses) (henabled : c'.enabled = true) (haddr : addr ∈ addrs) :
    c'.contains addr secure = .ok true := by
  apply hc'.contains_eq henabled
  rw [pairOf_congr h.geometry_eq]
  exact ⟨fun _ => rfl, fun _ => h.arrived addr haddr⟩

theorem Performed.enabled_eq {outcome : Outcome} {c' : Cache}
    (h : c.Performed s (.access access) (.outcome outcome) c') : c'.enabled = c.enabled := by
  cases h with
  | bypassAccess disabled => rfl
  | access enabled serve watch prefetch => rfl

/-- An access brings the following blocks in, and they all stay. -/
theorem Reached.bringsIn (h : c.Reached s accesses) (hkind : s.prefetcher = .nextLine)
    (hsets : c.numSets.isPowerOfTwo) (hdegree : max s.prefetchDegree.toNat 1 < c.numSets)
    (hfits : FitsWord (s.lineBytes.toNat * max s.prefetchDegree.toNat 1))
    (henabled : c.enabled = true) {outcome : Outcome} {c' : Cache}
    (haccess : c.access access = .ok (outcome, c'))
    (hperformed : c.Performed s (.access access) (.outcome outcome) c')
    (hc' : c'.Reached s (accesses + 1)) : c.BringsIn s access outcome c' := by
  have hasked := h.prefetches_eq hkind hfits henabled haccess
  have hpow := h.accounted.lineBytes_pow
  have hdistinct : ((access.addr :: outcome.prefetches).map c.setOf).Nodup := by
    rw [hasked, ← h.lineBytes_eq]
    exact Geometry.nodup_setOf_following hpow hsets access.addr hdegree
  have hall := h.broughtIn hkind henabled hperformed hdistinct
  have henabled' : c'.enabled = true := hperformed.enabled_eq.trans henabled
  refine ⟨hasked, hall.contains_eq hc' henabled' (by simp), ?_, hall.nothing_else, ?_⟩
  · intro k hpos hle
    apply hall.contains_eq hc' henabled'
    rw [hasked]
    apply List.mem_cons_of_mem
    apply List.mem_map_of_mem
    rw [List.mem_range'_1]
    omega
  · intro pair other hpair hnew hother hnew' hset
    exact hall.eq_of_setOf_eq hpow hdistinct hpair hnew hother hnew' hset

/-- The reach of the prefetcher is shorter than a way of all sets. -/
theorem Reached.fitsWord_reach (h : c.Reached s accesses)
    (hdegree : max s.prefetchDegree.toNat 1 < c.numSets) :
    FitsWord (s.lineBytes.toNat * max s.prefetchDegree.toNat 1) := by
  rw [← h.lineBytes_eq, Geometry.toNat_ofNat_lineBytes]
  exact Nat.lt_of_le_of_lt (Nat.mul_le_mul_left _ hdegree.le) c.contents.geometry.span_lt

/-- **Next-line prefetching leaves everything that it brought in.** Take a new cache with the
next-line prefetcher, of any policy, a number of sets that is a power of two and larger than the
number of blocks that the prefetcher asks for. After any requests that leave it in service, an
access leaves the accessed block and all those following ones resident in its domain, also across
the top of the address space, and no set has received two new blocks. Only a counter that is used up
may stop the cache. -/
theorem run_brings_in {settings : CacheSettings} (hnew : Cache.new settings = .ok c)
    (hkind : settings.prefetcher = .nextLine) (hsets : c.numSets.isPowerOfTwo)
    (hdegree : max settings.prefetchDegree.toNat 1 < c.numSets) (past : List Request)
    (access : Access) :
    Delivers (c.run past) (Exhausted (past.countP isAccess * (1 + settings.reach))) fun before =>
      before.2.enabled = true →
        Delivers (before.2.access access)
          (Exhausted ((past.countP isAccess + 1) * (1 + settings.reach))) fun result =>
            before.2.BringsIn settings access result.1 result.2 := by
  have hspan : settings.prefetcher = .nextLine →
      FitsWord (settings.lineBytes.toNat * max 1 settings.prefetchDegree.toNat) := by
    intro _
    rw [Nat.max_comm]
    exact (new_reached hnew).fitsWord_reach hdegree
  refine (run_spec hnew past).mono (fun _ => exhausted_of_excuses hspan) ?_
  intro before ⟨hbefore, hg⟩ henabled
  have hsame : before.2.numSets = c.numSets := congrArg (·.sets) hg
  refine (hbefore.access_spec access).self.mono (fun _ => exhausted_of_excuses hspan) ?_
  intro result ⟨haccess, hafter, _, hperformed⟩
  rw [← hsame] at hsets hdegree
  exact hbefore.bringsIn hkind hsets hdegree (hbefore.fitsWord_reach hdegree) henabled haccess
    hperformed hafter

/-- From the last block of the address space on, the three following blocks fill the three other
sets. -/
theorem run_brings_in_last_block :
    ∃ c before result, Cache.new
        { enabled := true, sizeBytes := 256, ways := 1, prefetcher := .nextLine
          prefetchDegree := 3 } = .ok c ∧
      CacheSettings.prefetcher
        { enabled := true, sizeBytes := 256, ways := 1, prefetcher := .nextLine
          prefetchDegree := 3 } = .nextLine ∧
      c.numSets.isPowerOfTwo ∧ max (3 : UInt64).toNat 1 < c.numSets ∧
      c.run [.access { addr := 0 }, .invalidate 64 false] = .ok before ∧
      before.2.enabled = true ∧
      before.2.access { addr := 0xffffffffffffffff, secure := true } = .ok result ∧
      result.1.prefetches = [0, 64, 128] ∧
      before.2.BringsIn
        { enabled := true, sizeBytes := 256, ways := 1, prefetcher := .nextLine
          prefetchDegree := 3 }
        { addr := 0xffffffffffffffff, secure := true } result.1 result.2 := by
  obtain ⟨before, hbefore, h, hrest⟩ := (run_brings_in
    (show Cache.new
      { enabled := true, sizeBytes := 256, ways := 1, prefetcher := .nextLine
        prefetchDegree := 3 } = .ok _ from rfl) rfl ⟨2, rfl⟩ (by decide)
    [.access { addr := 0 }, .invalidate 64 false]
    { addr := 0xffffffffffffffff, secure := true }).of_isOk_bind
    (show (_ >>= fun before : List Reply × Cache =>
      before.2.access { addr := 0xffffffffffffffff, secure := true }).isOk = true by decide)
  have henabled : before.2.enabled = true := by
    obtain rfl := Except.ok.inj hbefore
    rfl
  obtain ⟨result, hresult, hbrings⟩ := (h henabled).of_isOk hrest
  have hasked : result.1.prefetches = [0, 64, 128] := by
    obtain rfl := Except.ok.inj hbefore
    obtain rfl := Except.ok.inj hresult
    rfl
  exact ⟨_, before, result, rfl, rfl, ⟨2, rfl⟩, by decide, hbefore, henabled, hresult, hasked,
    hbrings⟩

end Cache

end Residency
