import Residency.Proofs.Cache.Twins

/-!
# Sets do not interfere

In a cache without a prefetcher, whose policy decides set by set, nothing that is asked about one
set ever tells on another: the replies about a set are the same as if the requests about all other
sets had been left out.
-/

namespace Residency

namespace Cache

/-- The request is about a block of the set, or about no block in particular. -/
def concerns (c : Cache) (set : Nat) (request : Request) : Bool :=
  request.addr?.all fun addr => c.setOf addr == set

theorem setOf_of_concerns {c : Cache} {set : Nat} {request : Request} {addr : UInt64}
    (h : c.concerns set request = true) (haddr : request.addr? = some addr) :
    c.setOf addr = set := by
  rw [concerns, haddr] at h
  simpa using h

theorem exists_addr_of_not_concerns {c : Cache} {set : Nat} {request : Request}
    (h : c.concerns set request = false) :
    ∃ addr, request.addr? = some addr ∧ c.setOf addr ≠ set := by
  rw [concerns] at h
  cases haddr : request.addr? with
  | none =>
    rw [haddr] at h
    cases h
  | some addr =>
    rw [haddr] at h
    exact ⟨addr, rfl, by simpa using h⟩

variable {settings : CacheSettings} {c c' d : Cache} {set : Nat}

/-- A run of a new cache leads to a cache that is its own twin. -/
theorem run_twins (hnew : Cache.new settings = .ok c) (hpolicy : settings.policy ≠ .random)
    (hkind : settings.prefetcher ≠ .dbcp) {requests : List Request} {replies : List Reply}
    (hrun : c.run requests = .ok (replies, c')) (zone : Nat → Prop) :
    Twins settings zone c' c' := by
  have hfirst : Twins settings (fun _ => True) c c := .of_new hnew hpolicy
  obtain ⟨-, hboth, -⟩ := hfirst.run hkind (fun _ => trivial) hrun hrun
  exact hboth.mono fun _ _ => trivial

/-- Twins for one set, of which one leaves out what is not about the set. The geometry goes along,
since it names the sets. -/
structure SetTwins (s : CacheSettings) (c₀ : Cache) (set : Nat) (c d : Cache) : Prop where
  twins : Twins s (· = set) c d
  geometry_eq : c.contents.geometry = c₀.contents.geometry

namespace SetTwins

variable {c₀ d' : Cache} {request : Request} {reply reply' : Reply}

theorem setOf_eq (h : SetTwins settings c₀ set c d) (addr : UInt64) :
    c.setOf addr = c₀.setOf addr :=
  congrArg (Geometry.setOf · addr) h.geometry_eq

theorem keeps_geometry (h : SetTwins settings c₀ set c d)
    (hc : c.perform request = .ok (reply, c')) :
    c'.contents.geometry = c₀.contents.geometry := by
  obtain ⟨accesses, hleft⟩ := h.twins.left
  obtain ⟨-, hg, -⟩ := (hleft.perform_spec request).of_ok hc
  exact hg.trans h.geometry_eq

theorem perform (h : SetTwins settings c₀ set c d) (hnone : settings.prefetcher = .none)
    (hkeep : c₀.concerns set request = true) (hc : c.perform request = .ok (reply, c'))
    (hd : d.perform request = .ok (reply', d')) :
    reply' = reply ∧ SetTwins settings c₀ set c' d' := by
  have hkind : settings.prefetcher ≠ .dbcp := by
    rw [hnone]
    nofun
  have hin : ∀ addr, request.addr? = some addr → c.setOf addr = set := fun addr haddr =>
    (h.setOf_eq addr).trans (setOf_of_concerns hkeep haddr)
  obtain ⟨hreply, htwins, -⟩ := h.twins.perform hkind hin (.inl hnone) hc hd
  exact ⟨hreply, htwins, h.keeps_geometry hc⟩

theorem perform_outside (h : SetTwins settings c₀ set c d) (hnone : settings.prefetcher = .none)
    (hkeep : c₀.concerns set request = false) (hc : c.perform request = .ok (reply, c')) :
    SetTwins settings c₀ set c' d := by
  obtain ⟨addr, haddr, hne⟩ := exists_addr_of_not_concerns hkeep
  rw [← h.setOf_eq] at hne
  exact ⟨h.twins.perform_outside hnone haddr hne hc, h.keeps_geometry hc⟩

end SetTwins

/-- **Sets do not interfere.** Take a new cache without a prefetcher, with a policy other than the
random one, after any requests. Of any further requests, leave out those that are about other sets
than a given one. The replies to the remaining requests do not change, and afterwards every block of
the set is found in the same line, or in none. Only a cache that has been asked for 2^64 accesses
may stop. -/
theorem run_separate (hnew : Cache.new settings = .ok c) (hpolicy : settings.policy ≠ .random)
    (hnone : settings.prefetcher = .none) (past requests : List Request) (set : Nat) :
    Delivers (c.run past) (settings.Excuses (past.countP isAccess)) fun before =>
      Delivers (before.2.run requests) (settings.Excuses ((past ++ requests).countP isAccess))
        fun whole =>
        Delivers (before.2.run (requests.filter (c.concerns set)))
          (settings.Excuses ((past ++ requests.filter (c.concerns set)).countP isAccess))
          fun part =>
            part.1 = ((requests.zip whole.1).filter fun step => c.concerns set step.1).map (·.2) ∧
            ∀ addr secure, c.setOf addr = set →
              part.2.lineOf addr secure = whole.2.lineOf addr secure := by
  have hkind : settings.prefetcher ≠ .dbcp := by
    rw [hnone]
    nofun
  refine (run_spec hnew past).self.mono (fun _ hfault => hfault) ?_
  intro before ⟨hpast, hbefore, hg⟩
  refine (hbefore.run_later requests).self.mono (fun _ hfault => hfault) ?_
  intro whole hwhole
  refine (hbefore.run_later (requests.filter (c.concerns set))).self.mono
    (fun _ hfault => hfault) ?_
  intro part hpart
  obtain ⟨hreplies, hlast⟩ := run_filter (motive := SetTwins settings c set)
    (fun _ _ _ _ _ _ _ hkeep h hc hd => h.perform hnone hkeep hc hd)
    (fun _ _ _ _ _ hkeep h hc => h.perform_outside hnone hkeep hc)
    ⟨run_twins hnew hpolicy hkind hpast _, hg⟩ hwhole.1 hpart.1
  refine ⟨hreplies, fun addr secure haddr => ?_⟩
  exact hlast.twins.lineOf_eq secure ((hlast.setOf_eq addr).trans haddr)

/-- Between the accesses to the first set, the second set is filled and a block of it dropped. -/
theorem run_separate_two_sets :
    ∃ c before whole part,
      Cache.new { enabled := true, sizeBytes := 256, ways := 2, policy := .hawkeye } = .ok c ∧
      CacheSettings.policy { enabled := true, sizeBytes := 256, ways := 2, policy := .hawkeye } ≠
        .random ∧
      CacheSettings.prefetcher
        { enabled := true, sizeBytes := 256, ways := 2, policy := .hawkeye } = .none ∧
      c.run [.access { addr := 0 }, .access { addr := 64 }] = .ok before ∧
      before.2.run [.access { addr := 192 }, .access { addr := 128 }, .invalidate 64 false,
        .access { addr := 256 }, .access { addr := 0 }] = .ok whole ∧
      before.2.run ([Request.access { addr := 192 }, .access { addr := 128 },
        .invalidate 64 false, .access { addr := 256 }, .access { addr := 0 }].filter
          (c.concerns 0)) = .ok part ∧
      part.1 = (([Request.access { addr := 192 }, .access { addr := 128 },
        .invalidate 64 false, .access { addr := 256 }, .access { addr := 0 }].zip whole.1).filter
          fun step => c.concerns 0 step.1).map (·.2) ∧
      ∀ addr secure, c.setOf addr = 0 →
        part.2.lineOf addr secure = whole.2.lineOf addr secure := by
  obtain ⟨before, hbefore, h, hrest⟩ := (run_separate
    (show Cache.new { enabled := true, sizeBytes := 256, ways := 2, policy := .hawkeye } = .ok _
      from rfl) (by decide) rfl [.access { addr := 0 }, .access { addr := 64 }]
    [.access { addr := 192 }, .access { addr := 128 }, .invalidate 64 false,
      .access { addr := 256 }, .access { addr := 0 }] 0).of_isOk_bind
    (show (_ >>= fun before : List Reply × Cache => before.2.run [.access { addr := 192 },
      .access { addr := 128 }, .invalidate 64 false, .access { addr := 256 },
      .access { addr := 0 }] >>= fun _ => before.2.run [.access { addr := 128 },
        .access { addr := 256 }, .access { addr := 0 }]).isOk = true by decide)
  obtain ⟨whole, hwhole, h, hrest⟩ := h.of_isOk_bind hrest
  obtain ⟨part, hpart, hsame⟩ := h.of_isOk hrest
  exact ⟨_, before, whole, part, rfl, by decide, rfl, hbefore, hwhole, hpart, hsame⟩

end Cache

end Residency
