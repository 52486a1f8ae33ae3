import Residency.Proofs.Cache.Twins

/-!
# A flushed cache is as good as new

A flush leaves much behind: the order of the ways, the counters of the training, the clocks of the
oracles. None of it counts any more, since a policy that decides set by set forgets what is not
occupied. So a flushed cache cannot be told from a new one.
-/

namespace Residency

namespace Contents

variable {σ : Type} [ReplacementPolicy σ] [LawfulPolicy σ] [SetwisePolicy σ] {c c' d : Contents σ}
  {set : Nat}

/-- If nothing were occupied any more, the policy would decide about every set as the one of `d`. -/
structure Forgets (d c : Contents σ) : Prop where
  geometry_eq : c.geometry = d.geometry
  alike : ∀ set, set < d.geometry.sets →
    SetwisePolicy.Alike set d.geometry.ways (fun _ => false) c.policy d.policy

namespace Forgets

theorem withStatistics (h : d.Forgets c) (s : Statistics) :
    d.Forgets { c with statistics := s } :=
  ⟨h.geometry_eq, h.alike⟩

/-- Whatever happens to a set can be forgotten. -/
theorem confined (h : d.Forgets c) (hs : c.Sound) (hset : set < c.geometry.sets)
    (hc' : c.Confined set c') : d.Forgets c' where
  geometry_eq := hc'.geometry_eq.trans h.geometry_eq
  alike := by
    intro other hother
    have htold := hc'.told
    have hserves := hs.serves
    rw [h.geometry_eq] at htold hserves hset
    exact htold.alike_vacant hserves hother hset (h.alike other hother)

theorem prefetchAll {accesses asked : Nat} {secure : Bool} {targets : List UInt64}
    (h : d.Forgets c) (hc : c.Accounted accesses asked)
    (hcs : c.prefetchAll secure targets = .ok c') : d.Forgets c' :=
  ((hc.prefetchAll_spec (motive := fun _ c => d.Forgets c) targets (h.withStatistics _)
    fun _ target c _ _ hs hc hprefetched =>
      hc.confined hs (c.geometry.setOf_lt target) hprefetched.confined).of_ok hcs).1

/-- Without a valid line nothing is left to tell the contents apart. -/
theorem alike_of_flush {accesses asked : Nat} (h : d.Forgets c) (hc : c.Accounted accesses asked)
    (hempty : ∀ id, d.held id = none) (hcs : c.flush = .ok c') (zone : Nat → Prop) :
    c'.AlikeOn zone d := by
  obtain ⟨-, hg, hnone⟩ := hc.flush_clears.of_ok hcs
  have hsame : d.geometry = c'.geometry := (hg.trans h.geometry_eq).symm
  refine ⟨hsame, ?_⟩
  intro set hset _
  rw [← hsame] at hset
  have halike := h.alike set hset
  rw [← h.geometry_eq] at hset halike
  have hvacant := hc.flush_vacant hset halike hcs
  rw [← hg] at hvacant
  exact .of_vacant hsame (fun way => hnone _) (fun way => hempty _) hvacant

end Forgets

end Contents

namespace Cache

variable {settings : CacheSettings} {c c' c₀ : Cache} {accesses : Nat}

/-- No request leaves anything behind that a flush would not make forgotten. -/
theorem performed_forgets {request : Request} {reply : Reply} (h : c.Reached settings accesses)
    (hforgets : c₀.contents.Forgets c.contents)
    (hperformed : c.Performed settings request reply c') : c₀.contents.Forgets c'.contents := by
  have hsound := h.accounted.toSound
  cases hperformed with
  | bypassAccess disabled => exact hforgets
  | @access access _ _ _ served watched _ _ enabled serve watch prefetch =>
    obtain ⟨hserved, haccounted, hdead⟩ := (h.serve_spec access).of_ok serve
    have hforgets' : c₀.contents.Forgets served :=
      hforgets.confined hsound (c.contents.geometry.setOf_lt _) (hserved.confined hsound)
    obtain ⟨-, haccounted'⟩ :=
      h.watched_accounted hserved.geometry_eq haccounted hdead watch
    have hwatched : c₀.contents.Forgets watched := by
      cases watch with
      | none kind => exact hforgets'
      | nextLine kind length_eq => exact hforgets'
      | alive kind => exact hforgets'
      | dead kind drop =>
        obtain ⟨hvacated, -⟩ :=
          (h.dropDead_spec hserved.geometry_eq haccounted hdead access).of_ok drop
        exact hforgets'.confined haccounted.toSound (served.geometry.setOf_lt _)
          (hvacated.confined haccounted.toSound)
    exact hwatched.prefetchAll haccounted' prefetch
  | lineOf search => exact hforgets
  | contains search => exact hforgets
  | bypassInvalidate disabled => exact hforgets
  | invalidate enabled drop =>
    have hvacated := ((h.accounted.dropBlock_spec _ _).of_ok drop).1
    exact hforgets.confined hsound (c.contents.geometry.setOf_lt _) (hvacated.confined hsound)
  | bypassFlush disabled => exact hforgets
  | flush enabled flush =>
    refine ((h.accounted.flush_spec (motive := fun contents => c₀.contents.Forgets contents)
      hforgets fun contents _ id hs hl hforgets hdropped => ?_).of_ok flush).1
    exact hforgets.confined hs hl.1 (hdropped.confined hl)
  | enable => exact hforgets

theorem new_forgets (hnew : Cache.new settings = .ok c) (hpolicy : settings.policy ≠ .random) :
    c.contents.Forgets c.contents :=
  ⟨rfl, fun _ hset => new_alike hnew hpolicy hset⟩

theorem Reached.withEnabled (h : c.Reached settings accesses) (enabled : Bool) :
    Reached settings accesses { c with enabled } :=
  ⟨h.accounted, h.selected, h.lineBytes_eq⟩

/-- What a flush in service leaves is a twin of the new cache. -/
theorem Reached.twins_of_flush (h : c.Reached settings accesses) (henabled : c.enabled = true)
    (hnew : Cache.new settings = .ok c₀) (hforgets : c₀.contents.Forgets c.contents)
    (hflush : c.flush = .ok c') (zone : Nat → Prop) :
    Twins settings zone c' { c₀ with enabled := true } := by
  obtain ⟨hreached, -⟩ := h.flush_spec.of_ok hflush
  rw [Cache.flush, if_pos henabled] at hflush
  obtain ⟨contents, hdropped, hc'⟩ := bind_eq_ok_iff.1 hflush
  obtain rfl := Except.ok.inj hc'
  exact ⟨⟨_, hreached⟩, ⟨0, (new_reached hnew).withEnabled true⟩, henabled.symm,
    hforgets.alike_of_flush h.accounted (held_new hnew) hdropped zone⟩

/-- **A flushed cache is as good as new.** Take a cache whose policy is not the random one and whose
prefetcher is not the dead-block one, after any requests that leave it in service, and flush it. To
any further requests it replies as a new cache in service does, and its statistics grow as those of
the new one. Only a cache that has been asked for 2^64 accesses may stop. -/
theorem run_flushed (hnew : Cache.new settings = .ok c) (hpolicy : settings.policy ≠ .random)
    (hkind : settings.prefetcher ≠ .dbcp) (past later : List Request) :
    Delivers (c.run past) (settings.Excuses (past.countP isAccess)) fun before =>
      before.2.enabled = true →
      Delivers before.2.flush (settings.Excuses (past.countP isAccess)) fun flushed =>
        Delivers (flushed.run later) (settings.Excuses ((past ++ later).countP isAccess))
          fun after =>
          Delivers (run { c with enabled := true } later)
            (settings.Excuses (later.countP isAccess)) fun fresh =>
              after.1 = fresh.1 ∧ Statistics.GrowAlike flushed.statistics after.2.statistics
                c.statistics fresh.2.statistics := by
  refine (run_reached (motive := fun before => c.contents.Forgets before.contents) hnew
    (new_forgets hnew hpolicy) performed_forgets past).mono (fun _ hfault => hfault) ?_
  intro before ⟨hbefore, hforgets⟩ henabled
  refine hbefore.flush_spec.self.mono (fun _ hfault => hfault) ?_
  intro flushed ⟨hflush, hflushed, _⟩
  have htwins : Twins settings (fun _ => True) flushed { c with enabled := true } :=
    hbefore.twins_of_flush henabled hnew hforgets hflush _
  refine (hflushed.run_later later).self.mono (fun _ hfault => hfault) ?_
  intro after hafter
  have hnow := ((new_reached hnew).withEnabled true).run_spec later
  rw [Nat.zero_add] at hnow
  refine hnow.self.mono (fun _ hfault => hfault) ?_
  intro fresh hfresh
  obtain ⟨hreplies, -, hgrow⟩ := htwins.run hkind (fun _ => trivial) hafter.1 hfresh.1
  exact ⟨hreplies.symm, hgrow⟩

/-- The block was there before the flush. The access after it misses, and the next block is
prefetched again. -/
theorem run_flushed_refilled :
    ∃ c before flushed after fresh,
      Cache.new
        { enabled := true, sizeBytes := 512, policy := .hawkeye, prefetcher := .nextLine } = .ok c ∧
      CacheSettings.policy
        { enabled := true, sizeBytes := 512, policy := .hawkeye, prefetcher := .nextLine } ≠
          .random ∧
      CacheSettings.prefetcher
        { enabled := true, sizeBytes := 512, policy := .hawkeye, prefetcher := .nextLine } ≠ .dbcp ∧
      c.run [.access { addr := 0 }, .access { addr := 0 }] = .ok before ∧
      before.2.enabled = true ∧ before.2.flush = .ok flushed ∧
      flushed.run [.access { addr := 0 }, .lineOf 64 false] = .ok after ∧
      run { c with enabled := true } [.access { addr := 0 }, .lineOf 64 false] = .ok fresh ∧
      after.1 = fresh.1 ∧ Statistics.GrowAlike flushed.statistics after.2.statistics
        c.statistics fresh.2.statistics := by
  obtain ⟨before, hbefore, h, hrest⟩ := (run_flushed
    (show Cache.new
      { enabled := true, sizeBytes := 512, policy := .hawkeye, prefetcher := .nextLine } = .ok _
      from rfl) (by decide) (by decide)
    [.access { addr := 0 }, .access { addr := 0 }]
    [.access { addr := 0 }, .lineOf 64 false]).of_isOk_bind
    (show (_ >>= fun before : List Reply × Cache => before.2.flush >>= fun flushed =>
      flushed.run [.access { addr := 0 }, .lineOf 64 false]).isOk = true by decide)
  have henabled : before.2.enabled = true := by
    obtain rfl := Except.ok.inj hbefore
    rfl
  obtain ⟨flushed, hflushed, h, hrest⟩ := (h henabled).of_isOk_bind hrest
  obtain ⟨after, hafter, h⟩ := h.of_isOk hrest
  obtain ⟨fresh, hfresh, hreplies, hgrow⟩ := h.of_isOk (by decide)
  exact ⟨_, before, flushed, after, fresh, rfl, by decide, by decide, hbefore, henabled, hflushed,
    hafter, hfresh, hreplies, hgrow⟩

end Cache

end Residency
