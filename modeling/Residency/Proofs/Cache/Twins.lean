import Residency.Proofs.Cache.Reached
import Residency.Proofs.Contents.Zone
import Residency.Proofs.Replacement.SetwiseChoice

/-!
# Caches that agree on a zone

Two caches of the same settings whose contents are alike on the sets of a zone reply alike to every
request about a block of the zone, and are so again afterwards. A request about another block may go
to one of them only. Nothing is said about the dead-block prefetcher, which keeps a history of its
own.
-/

namespace Residency

/-- The address that a request names. -/
def Request.addr? : Request → Option UInt64
  | .access served => some served.addr
  | .lineOf addr _ | .contains addr _ | .invalidate addr _ => some addr
  | .flush | .enable _ => none

/-- What is asked for on an access by a prefetcher that has no state. -/
def CacheSettings.asked (s : CacheSettings) (access : Access) : Checked (List UInt64) :=
  match s.prefetcher with
  | .nextLine => (NextLine.new s.lineBytes s.prefetchDegree.toNat).targets access
  | .none | .dbcp => return []

namespace Cache

open Statistics

variable {s : CacheSettings} {zone : Nat → Prop} {c c' d d' : Cache} {accesses accesses' : Nat}
  {outcome outcome' : Outcome} {request : Request} {reply reply' : Reply}

/-- Without a state the prefetcher depends on the settings alone. -/
theorem observe_eq (h : Prefetcher.Selected s accesses c.prefetcher)
    (hkind : s.prefetcher ≠ .dbcp) (access : Access) :
    c.observe access = (s.asked access).map fun targets => (targets, c) := by
  obtain ⟨enabled, contents, prefetcher⟩ := c
  cases h with
  | none kind =>
    rw [CacheSettings.asked, kind]
    rfl
  | nextLine kind =>
    rw [CacheSettings.asked, kind]
    simp only [observe, Prefetcher.observe]
    cases (NextLine.new s.lineBytes s.prefetchDegree.toNat).targets access <;> rfl
  | dbcp kind sound lineBytes_eq => exact absurd kind hkind

/-- The three stages of an access. -/
theorem Reached.access_eq_ok {access : Access} (h : c.Reached s accesses)
    (hkind : s.prefetcher ≠ .dbcp) (henabled : c.enabled = true)
    (hc : c.access access = .ok (outcome, c')) :
    ∃ served filled, c.contents.serve access = .ok (outcome.hit, outcome.evicted, served) ∧
      s.asked access = .ok outcome.prefetches ∧
      served.prefetchAll access.secure outcome.prefetches = .ok filled ∧
      c' = { c with contents := filled } := by
  rw [Cache.access, if_pos henabled] at hc
  obtain ⟨⟨hit, evicted, served⟩, hserve, hc⟩ := bind_eq_ok_iff.1 hc
  have hselected : Prefetcher.Selected s accesses { c with contents := served }.prefetcher :=
    h.selected
  dsimp only at hc
  rw [observe_eq hselected hkind] at hc
  obtain ⟨⟨targets, c₁⟩, hobserve, hc⟩ := bind_eq_ok_iff.1 hc
  obtain ⟨asked, hasked, heq⟩ := accepted_map_iff.1 hobserve
  obtain ⟨rfl, rfl⟩ := Prod.mk.inj heq
  obtain ⟨filled, hfill, hc⟩ := bind_eq_ok_iff.1 hc
  obtain ⟨rfl, rfl⟩ := Prod.mk.inj (Except.ok.inj hc)
  exact ⟨served, filled, hserve, hasked, hfill, rfl⟩

/-- Without a prefetcher a request about a block changes the set of the block only. -/
theorem Reached.confined_of_performed (h : c.Reached s accesses) (hkind : s.prefetcher = .none)
    {addr : UInt64} (haddr : request.addr? = some addr)
    (hperformed : c.Performed s request reply c') :
    c'.enabled = c.enabled ∧ c.contents.Confined (c.setOf addr) c'.contents := by
  have hsound := h.accounted.toSound
  cases hperformed with
  | bypassAccess disabled => exact ⟨rfl, .refl _ _⟩
  | access enabled serve watch prefetch =>
    obtain rfl := Option.some.inj haddr
    cases watch with
    | none kind =>
      -- Nothing is asked for, so the last stage only counts.
      obtain ⟨_, hcount, hfill⟩ := bind_eq_ok_iff.1 prefetch
      obtain rfl := Except.ok.inj hfill
      rw [Contents.count_eq_ok hcount]
      have hserved := ((h.serve_spec _).of_ok serve).1
      exact ⟨rfl, (hserved.confined hsound).withStatistics _⟩
    | nextLine kind length_eq => cases hkind.symm.trans kind
    | alive kind => cases hkind.symm.trans kind
    | dead kind drop => cases hkind.symm.trans kind
  | lineOf search => exact ⟨rfl, .refl _ _⟩
  | contains search => exact ⟨rfl, .refl _ _⟩
  | bypassInvalidate disabled => exact ⟨rfl, .refl _ _⟩
  | invalidate enabled drop =>
    obtain rfl := Option.some.inj haddr
    have hvacated := ((h.accounted.dropBlock_spec _ _).of_ok drop).1
    exact ⟨rfl, (hvacated.of_blockOf hsound.lineBytes_pow).confined hsound⟩
  | bypassFlush disabled => cases haddr
  | flush enabled flush => cases haddr
  | enable => cases haddr

/-! ## Twins -/

/-- Both caches have been reached under the same settings, both or none are in service, and their
contents are alike on a zone. -/
structure Twins (s : CacheSettings) (zone : Nat → Prop) (c d : Cache) : Prop where
  left : ∃ accesses, c.Reached s accesses
  right : ∃ accesses, d.Reached s accesses
  enabled_eq : d.enabled = c.enabled
  alike : c.contents.AlikeOn zone d.contents

theorem new_alike (hnew : Cache.new s = .ok c) (hpolicy : s.policy ≠ .random) {set : Nat}
    (hset : set < c.numSets) :
    SetwisePolicy.Alike set c.ways (fun _ => false) c.contents.policy c.contents.policy := by
  obtain ⟨g, policy, prefetcher, rfl, -, -, -, -, -, -, hp, -⟩ := new_eq_ok hnew
  exact Policy.new_alike hp hpolicy hset

theorem held_new (hnew : Cache.new s = .ok c) (id : LineId) : c.contents.held id = none := by
  obtain ⟨g, policy, prefetcher, rfl, -, -, -, -, -, hfits, -, -⟩ := new_eq_ok hnew
  exact Contents.held_empty policy hfits id

namespace Twins

theorem of_new (hnew : Cache.new s = .ok c) (hpolicy : s.policy ≠ .random) :
    Twins s zone c c where
  left := ⟨0, new_reached hnew⟩
  right := ⟨0, new_reached hnew⟩
  enabled_eq := rfl
  alike := by
    refine ⟨rfl, fun set hset _ => ?_⟩
    exact .of_vacant rfl (fun way => held_new hnew _) (fun way => held_new hnew _)
      (new_alike hnew hpolicy hset)

theorem mono (h : Twins s zone c d) {smaller : Nat → Prop}
    (hzone : ∀ set, smaller set → zone set) : Twins s smaller c d :=
  ⟨h.left, h.right, h.enabled_eq, h.alike.mono hzone⟩

theorem access {access : Access} (h : Twins s zone c d) (hkind : s.prefetcher ≠ .dbcp)
    (hzone : zone (c.setOf access.addr))
    (htargets : s.prefetcher = .none ∨ ∀ set, zone set)
    (hc : c.access access = .ok (outcome, c')) (hd : d.access access = .ok (outcome', d')) :
    outcome' = outcome ∧ d'.enabled = c'.enabled ∧ c'.contents.AlikeOn zone d'.contents ∧
      GrowAlike c.statistics c'.statistics d.statistics d'.statistics := by
  obtain ⟨accesses, hleft⟩ := h.left
  obtain ⟨accesses', hright⟩ := h.right
  have henabled := h.enabled_eq
  cases hservice : c.enabled with
  | false =>
    rw [hservice] at henabled
    rw [Cache.access, hservice] at hc
    rw [Cache.access, henabled] at hd
    obtain ⟨rfl, rfl⟩ := Prod.mk.inj (Except.ok.inj hc)
    obtain ⟨rfl, rfl⟩ := Prod.mk.inj (Except.ok.inj hd)
    exact ⟨rfl, h.enabled_eq, h.alike, .refl _ _⟩
  | true =>
    rw [hservice] at henabled
    obtain ⟨served, filled, hserve, hasked, hfill, rfl⟩ := hleft.access_eq_ok hkind hservice hc
    obtain ⟨served', filled', hserve', hasked', hfill', rfl⟩ :=
      hright.access_eq_ok hkind henabled hd
    obtain ⟨hhit, hevicted, halike, hgrow⟩ := h.alike.serve hleft.accounted hright.accounted hzone
      hserve hserve'
    have hprefetches : outcome'.prefetches = outcome.prefetches :=
      Except.ok.inj (hasked'.symm.trans hasked)
    rw [hprefetches] at hfill'
    obtain ⟨-, haccounted, -⟩ := (hleft.serve_spec access).of_ok hserve
    obtain ⟨-, haccounted', -⟩ := (hright.serve_spec access).of_ok hserve'
    have hin : ∀ target ∈ outcome.prefetches, zone (served.geometry.setOf target) := by
      intro target htarget
      rcases htargets with hnone | hall
      · rw [CacheSettings.asked, hnone] at hasked
        rw [← Except.ok.inj hasked] at htarget
        cases htarget
      · exact hall _
    obtain ⟨hfilled, hgrow'⟩ := halike.prefetchAll haccounted haccounted' hin hfill hfill'
    refine ⟨?_, h.enabled_eq, hfilled, hgrow.trans hgrow'⟩
    obtain ⟨hit, evicted, prefetches⟩ := outcome
    obtain ⟨hit', evicted', prefetches'⟩ := outcome'
    dsimp only at hhit hevicted hprefetches
    rw [hhit, hevicted, hprefetches]

theorem lineOf_eq (h : Twins s zone c d) {addr : UInt64} (secure : Bool)
    (hzone : zone (c.setOf addr)) : d.lineOf addr secure = c.lineOf addr secure := by
  obtain ⟨accesses, hleft⟩ := h.left
  obtain ⟨accesses', hright⟩ := h.right
  rw [lineOf, lineOf, h.enabled_eq]
  split
  · exact (h.alike.alike _ (c.contents.geometry.setOf_lt addr) hzone).find?_eq
      hleft.accounted.toSound hright.accounted.toSound rfl
  · rfl

theorem invalidate {addr : UInt64} {secure dropped dropped' : Bool} (h : Twins s zone c d)
    (hzone : zone (c.setOf addr)) (hc : c.invalidate addr secure = .ok (dropped, c'))
    (hd : d.invalidate addr secure = .ok (dropped', d')) :
    dropped' = dropped ∧ d'.enabled = c'.enabled ∧ c'.contents.AlikeOn zone d'.contents ∧
      GrowAlike c.statistics c'.statistics d.statistics d'.statistics := by
  obtain ⟨accesses, hleft⟩ := h.left
  obtain ⟨accesses', hright⟩ := h.right
  have henabled := h.enabled_eq
  cases hservice : c.enabled with
  | false =>
    rw [hservice] at henabled
    rw [Cache.invalidate, hservice] at hc
    rw [Cache.invalidate, henabled] at hd
    obtain ⟨rfl, rfl⟩ := Prod.mk.inj (Except.ok.inj hc)
    obtain ⟨rfl, rfl⟩ := Prod.mk.inj (Except.ok.inj hd)
    exact ⟨rfl, h.enabled_eq, h.alike, .refl _ _⟩
  | true =>
    rw [hservice] at henabled
    rw [Cache.invalidate, if_pos hservice] at hc
    rw [Cache.invalidate, if_pos henabled, h.alike.geometry_eq] at hd
    obtain ⟨⟨_, contents⟩, hdrop, hc⟩ := bind_eq_ok_iff.1 hc
    obtain ⟨⟨_, contents'⟩, hdrop', hd⟩ := bind_eq_ok_iff.1 hd
    obtain ⟨rfl, rfl⟩ := Prod.mk.inj (Except.ok.inj hc)
    obtain ⟨rfl, rfl⟩ := Prod.mk.inj (Except.ok.inj hd)
    have hblock : zone (c.contents.geometry.setOf (c.contents.geometry.blockOf addr)) := by
      rwa [Geometry.setOf_blockOf hleft.accounted.lineBytes_pow]
    obtain ⟨hdropped, halike, hgrow⟩ := h.alike.dropBlock hleft.accounted hright.accounted hblock
      hdrop hdrop'
    exact ⟨hdropped, h.enabled_eq, halike, hgrow⟩

theorem flush (h : Twins s zone c d) (hc : c.flush = .ok c') (hd : d.flush = .ok d') :
    d'.enabled = c'.enabled ∧ c'.contents.AlikeOn zone d'.contents ∧ ((∀ set, zone set) →
      GrowAlike c.statistics c'.statistics d.statistics d'.statistics) := by
  obtain ⟨accesses, hleft⟩ := h.left
  obtain ⟨accesses', hright⟩ := h.right
  have henabled := h.enabled_eq
  cases hservice : c.enabled with
  | false =>
    rw [hservice] at henabled
    rw [Cache.flush, hservice] at hc
    rw [Cache.flush, henabled] at hd
    obtain rfl := Except.ok.inj hc
    obtain rfl := Except.ok.inj hd
    exact ⟨h.enabled_eq, h.alike, fun _ => .refl _ _⟩
  | true =>
    rw [hservice] at henabled
    rw [Cache.flush, if_pos hservice] at hc
    rw [Cache.flush, if_pos henabled] at hd
    obtain ⟨contents, hflush, hc⟩ := bind_eq_ok_iff.1 hc
    obtain ⟨contents', hflush', hd⟩ := bind_eq_ok_iff.1 hd
    obtain rfl := Except.ok.inj hc
    obtain rfl := Except.ok.inj hd
    exact ⟨h.enabled_eq, h.alike.flush hleft.accounted hright.accounted hflush hflush'⟩

theorem perform (h : Twins s zone c d) (hkind : s.prefetcher ≠ .dbcp)
    (hzone : ∀ addr, request.addr? = some addr → zone (c.setOf addr))
    (htargets : s.prefetcher = .none ∨ ∀ set, zone set)
    (hc : c.perform request = .ok (reply, c')) (hd : d.perform request = .ok (reply', d')) :
    reply' = reply ∧ Twins s zone c' d' ∧ ((∀ set, zone set) →
      GrowAlike c.statistics c'.statistics d.statistics d'.statistics) := by
  obtain ⟨accesses, hleft⟩ := h.left
  obtain ⟨accesses', hright⟩ := h.right
  have hreached : ∃ accesses, c'.Reached s accesses :=
    ⟨_, ((hleft.perform_spec request).of_ok hc).1⟩
  have hreached' : ∃ accesses, d'.Reached s accesses :=
    ⟨_, ((hright.perform_spec request).of_ok hd).1⟩
  cases request with
  | access access =>
    obtain ⟨⟨outcome, c₁⟩, haccess, hc⟩ := bind_eq_ok_iff.1 hc
    obtain ⟨⟨outcome', d₁⟩, haccess', hd⟩ := bind_eq_ok_iff.1 hd
    obtain ⟨rfl, rfl⟩ := Prod.mk.inj (Except.ok.inj hc)
    obtain ⟨rfl, rfl⟩ := Prod.mk.inj (Except.ok.inj hd)
    obtain ⟨rfl, henabled, halike, hgrow⟩ := h.access hkind (hzone _ rfl) htargets haccess haccess'
    exact ⟨rfl, ⟨hreached, hreached', henabled, halike⟩, fun _ => hgrow⟩
  | lineOf addr secure =>
    obtain ⟨found, hfound, hc⟩ := bind_eq_ok_iff.1 hc
    obtain ⟨found', hfound', hd⟩ := bind_eq_ok_iff.1 hd
    obtain ⟨rfl, rfl⟩ := Prod.mk.inj (Except.ok.inj hc)
    obtain ⟨rfl, rfl⟩ := Prod.mk.inj (Except.ok.inj hd)
    rw [h.lineOf_eq secure (hzone _ rfl), hfound] at hfound'
    obtain rfl := Except.ok.inj hfound'
    exact ⟨rfl, h, fun _ => .refl _ _⟩
  | contains addr secure =>
    obtain ⟨found, hfound, hc⟩ := bind_eq_ok_iff.1 hc
    obtain ⟨found', hfound', hd⟩ := bind_eq_ok_iff.1 hd
    obtain ⟨rfl, rfl⟩ := Prod.mk.inj (Except.ok.inj hc)
    obtain ⟨rfl, rfl⟩ := Prod.mk.inj (Except.ok.inj hd)
    rw [Cache.contains, h.lineOf_eq secure (hzone _ rfl), ← Cache.contains, hfound] at hfound'
    obtain rfl := Except.ok.inj hfound'
    exact ⟨rfl, h, fun _ => .refl _ _⟩
  | invalidate addr secure =>
    obtain ⟨⟨dropped, c₁⟩, hdrop, hc⟩ := bind_eq_ok_iff.1 hc
    obtain ⟨⟨dropped', d₁⟩, hdrop', hd⟩ := bind_eq_ok_iff.1 hd
    obtain ⟨rfl, rfl⟩ := Prod.mk.inj (Except.ok.inj hc)
    obtain ⟨rfl, rfl⟩ := Prod.mk.inj (Except.ok.inj hd)
    obtain ⟨rfl, henabled, halike, hgrow⟩ := h.invalidate (hzone _ rfl) hdrop hdrop'
    exact ⟨rfl, ⟨hreached, hreached', henabled, halike⟩, fun _ => hgrow⟩
  | flush =>
    obtain ⟨c₁, hflush, hc⟩ := bind_eq_ok_iff.1 hc
    obtain ⟨d₁, hflush', hd⟩ := bind_eq_ok_iff.1 hd
    obtain ⟨rfl, rfl⟩ := Prod.mk.inj (Except.ok.inj hc)
    obtain ⟨rfl, rfl⟩ := Prod.mk.inj (Except.ok.inj hd)
    obtain ⟨henabled, halike, hgrow⟩ := h.flush hflush hflush'
    exact ⟨rfl, ⟨hreached, hreached', henabled, halike⟩, hgrow⟩
  | enable enabled =>
    obtain ⟨rfl, rfl⟩ := Prod.mk.inj (Except.ok.inj hc)
    obtain ⟨rfl, rfl⟩ := Prod.mk.inj (Except.ok.inj hd)
    exact ⟨rfl, ⟨hreached, hreached', rfl, h.alike⟩, fun _ => .refl _ _⟩

theorem perform_outside (h : Twins s zone c d) (hkind : s.prefetcher = .none) {addr : UInt64}
    (haddr : request.addr? = some addr) (hzone : ¬ zone (c.setOf addr))
    (hc : c.perform request = .ok (reply, c')) : Twins s zone c' d := by
  obtain ⟨accesses, hleft⟩ := h.left
  obtain ⟨hreached, -, hperformed⟩ := (hleft.perform_spec request).of_ok hc
  obtain ⟨henabled, hconfined⟩ := hleft.confined_of_performed hkind haddr hperformed
  refine ⟨⟨_, hreached⟩, h.right, h.enabled_eq.trans henabled.symm, ?_⟩
  exact h.alike.outside hleft.accounted.toSound (c.contents.geometry.setOf_lt addr) hzone hconfined

/-- Caches that are twins everywhere reply alike to whatever both are asked. -/
theorem run {requests : List Request} {replies replies' : List Reply} (h : Twins s zone c d)
    (hkind : s.prefetcher ≠ .dbcp) (hall : ∀ set, zone set)
    (hc : c.run requests = .ok (replies, c')) (hd : d.run requests = .ok (replies', d')) :
    replies' = replies ∧ Twins s zone c' d' ∧
      GrowAlike c.statistics c'.statistics d.statistics d'.statistics := by
  refine run_both (motive := fun c₁ d₁ => Twins s zone c₁ d₁ ∧
    GrowAlike c.statistics c₁.statistics d.statistics d₁.statistics) ?_ ⟨h, .refl _ _⟩ hc hd
  intro request c₁ c₂ d₁ d₂ reply reply' ⟨htwins, hgrow⟩ hc₂ hd₂
  obtain ⟨hreply, htwins', hgrow'⟩ :=
    htwins.perform hkind (fun _ _ => hall _) (.inr hall) hc₂ hd₂
  exact ⟨hreply, htwins', hgrow.trans (hgrow' hall)⟩

end Twins

end Cache

end Residency
