import Mathlib.Order.BooleanAlgebra.Set
import Residency.Proofs.Cache.Reached
import Residency.Proofs.Contents.Counters

/-!
# What is resident in a cache

Under every replacement policy the resident blocks change in the same way: a hit changes nothing, a
miss adds the accessed block and displaces another one only from a full set, and only a request to
drop a block or a flush takes anything else away.
-/

namespace Residency

/-! ## The values of a partial function -/

/-- What a partial function takes as a value somewhere. -/
def values {α β : Type} (f : α → Option β) : Set β :=
  {x | ∃ a, f a = some x}

section values

variable {α β : Type} [DecidableEq α] {f : α → Option β} {place : α}

theorem values_update_of_none (h : f place = none) (x : β) :
    values (Function.update f place (some x)) = insert x (values f) := by
  ext y
  constructor
  · rintro ⟨a, ha⟩
    rw [Function.update_apply] at ha
    split at ha
    · exact .inl (Option.some.inj ha).symm
    · exact .inr ⟨a, ha⟩
  · rintro (rfl | ⟨a, ha⟩)
    · exact ⟨place, Function.update_self ..⟩
    · have hne : a ≠ place := by
        rintro rfl
        rw [h] at ha
        cases ha
      exact ⟨a, by rwa [Function.update_of_ne hne]⟩

/-- A value that is taken nowhere else goes when its place is emptied. -/
theorem values_update_none (hf : ∀ a b x, f a = some x → f b = some x → a = b) {x : β}
    (h : f place = some x) : values (Function.update f place none) = values f \ {x} := by
  ext y
  constructor
  · rintro ⟨a, ha⟩
    rw [Function.update_apply] at ha
    split at ha
    · cases ha
    · rename_i hne
      refine ⟨⟨a, ha⟩, ?_⟩
      rintro rfl
      exact hne (hf a place _ ha h)
  · rintro ⟨⟨a, ha⟩, hy⟩
    have hne : a ≠ place := by
      rintro rfl
      exact hy (Option.some.inj (ha.symm.trans h))
    exact ⟨a, by rwa [Function.update_of_ne hne]⟩

/-- A new value takes the place of an old one that is taken nowhere else. -/
theorem values_update_of_some (hf : ∀ a b x, f a = some x → f b = some x → a = b) {old : β}
    (h : f place = some old) (x : β) :
    values (Function.update f place (some x)) = insert x (values f \ {old}) := by
  rw [← values_update_none hf h, ← values_update_of_none (Function.update_self place none f) x,
    Function.update_idem]

end values

namespace Cache

/-! ## Residents -/

/-- The blocks that are resident, each with its security domain. -/
def residents (c : Cache) : Set (UInt64 × Bool) :=
  values c.contents.held

/-- The block of an address, with a security domain. -/
def pairOf (c : Cache) (addr : UInt64) (secure : Bool) : UInt64 × Bool :=
  (blockAddress (.ofNat c.contents.geometry.lineBytes) addr, secure)

/-- All ways of a set are valid. -/
def Full (c : Cache) (set : Nat) : Prop :=
  ∀ way, way < c.ways → ∃ line, c.contents.lines.get ⟨set, way⟩ = .ok line ∧ line.valid = true

/-- Every valid line holds a resident block, in the set of that block, and no two lines hold the
same block of the same security domain. -/
structure WellPlaced (c : Cache) : Prop where
  resident : ∀ id line, id.Within c.numSets c.ways → c.contents.lines.get id = .ok line →
    line.valid = true → ∃ block, c.contents.geometry.rebuild id.set line.tag = .ok block ∧
      (block, line.secure) ∈ c.residents ∧ c.setOf block = id.set
  unique : ∀ a b first second block, a.Within c.numSets c.ways → b.Within c.numSets c.ways →
    c.contents.lines.get a = .ok first → c.contents.lines.get b = .ok second →
    first.valid = true → second.valid = true →
    c.contents.geometry.rebuild a.set first.tag = .ok block →
    c.contents.geometry.rebuild b.set second.tag = .ok block → first.secure = second.secure → a = b

/-- How a request to a cache without a prefetcher changes what is resident. -/
inductive Evolves (c c' : Cache) : Request → Reply → Prop
  /-- Out of service nothing changes. -/
  | bypass {request : Request} {reply : Reply} (disabled : c.enabled = false)
      (kept : c'.contents = c.contents) : Evolves c c' request reply
  | hit {access : Access} (enabled : c.enabled = true)
      (resident : c.pairOf access.addr access.secure ∈ c.residents)
      (kept : c'.residents = c.residents) :
      Evolves c c' (.access access) (.outcome { hit := true })
  /-- As long as a way of the set is vacant nothing has to leave. -/
  | fill {access : Access} (enabled : c.enabled = true)
      (absent : c.pairOf access.addr access.secure ∉ c.residents)
      (vacancy : ¬ c.Full (c.setOf access.addr))
      (added : c'.residents = insert (c.pairOf access.addr access.secure) c.residents) :
      Evolves c c' (.access access) (.outcome { hit := false })
  /-- From a full set one block leaves. -/
  | replace {access : Access} (victim : UInt64 × Bool) (enabled : c.enabled = true)
      (absent : c.pairOf access.addr access.secure ∉ c.residents)
      (full : c.Full (c.setOf access.addr)) (resident : victim ∈ c.residents)
      (same_set : c.setOf victim.1 = c.setOf access.addr)
      (replaced : c'.residents =
        insert (c.pairOf access.addr access.secure) (c.residents \ {victim})) :
      Evolves c c' (.access access) (.outcome { hit := false, evicted := some victim.1 })
  | drop {addr : UInt64} {secure dropped : Bool} (enabled : c.enabled = true)
      (resident_iff : dropped = true ↔ c.pairOf addr secure ∈ c.residents)
      (taken : c'.residents = c.residents \ {c.pairOf addr secure}) :
      Evolves c c' (.invalidate addr secure) (.resident dropped)
  | flush (enabled : c.enabled = true) (empty : c'.residents = ∅) : Evolves c c' .flush .done
  | lineOf {addr : UInt64} {secure : Bool} (line : Option LineId)
      (resident_iff : c.enabled = true → (line.isSome ↔ c.pairOf addr secure ∈ c.residents))
      (kept : c' = c) : Evolves c c' (.lineOf addr secure) (.line line)
  | contains {addr : UInt64} {secure : Bool} (resident : Bool)
      (resident_iff : c.enabled = true → (resident = true ↔ c.pairOf addr secure ∈ c.residents))
      (kept : c' = c) : Evolves c c' (.contains addr secure) (.resident resident)
  | enable {enabled : Bool} (kept : c'.contents = c.contents) :
      Evolves c c' (.enable enabled) .done

variable {c : Cache}

theorem pairOf_mem_residents_iff {addr : UInt64} {secure : Bool} :
    c.pairOf addr secure ∈ c.residents ↔ ¬ c.contents.Absent addr secure := by
  constructor
  · rintro ⟨id, hid⟩ habsent
    exact habsent id hid
  · intro h
    by_contra hnone
    exact h fun id hid => hnone ⟨id, hid⟩

theorem full_iff (h : c.contents.Sound) {set : Nat} (hset : set < c.numSets) :
    c.Full set ↔ ∀ way, way < c.ways → c.contents.held ⟨set, way⟩ ≠ none := by
  have hline : ∀ way, way < c.ways → ∃ line, c.contents.lines.get ⟨set, way⟩ = .ok line ∧
      (c.contents.held ⟨set, way⟩).isSome = line.valid := fun way hway => by
    have hl : LineId.Within ⟨set, way⟩ c.numSets c.ways := ⟨hset, hway⟩
    obtain ⟨line, hget⟩ := h.shaped.exists_get hl
    exact ⟨line, hget, h.isSome_held hl hget⟩
  constructor
  · intro hfull way hway hnone
    obtain ⟨line, hget, hvalid⟩ := hfull way hway
    obtain ⟨line', hget', hsome⟩ := hline way hway
    obtain rfl := Except.ok.inj (hget.symm.trans hget')
    rw [hnone, hvalid] at hsome
    cases hsome
  · intro hfull way hway
    obtain ⟨line, hget, hsome⟩ := hline way hway
    exact ⟨line, hget, hsome.symm.trans (Option.isSome_iff_ne_none.2 (hfull way hway))⟩

theorem wellPlaced_of_sound (h : c.contents.Sound) : c.WellPlaced where
  resident := by
    intro id line hl hget hvalid
    obtain ⟨addr, hset, htag, hheld⟩ := h.held_of_valid hl hget hvalid
    refine ⟨c.contents.geometry.blockOf addr, ?_, ⟨id, hheld⟩, (h.set_of_held hheld).1⟩
    rw [← hset, ← htag, Geometry.rebuild_eq h.lineBytes_pow]
  unique := by
    intro a b first second block ha hb hfirst hsecond hvalid₁ hvalid₂ hblock₁ hblock₂ hsecure
    have hheld₁ : c.contents.held a = some (block, first.secure) := by
      rw [Contents.held_of_get ha hfirst, Line.pair?, if_pos hvalid₁, hblock₁]
      rfl
    have hheld₂ : c.contents.held b = some (block, second.secure) := by
      rw [Contents.held_of_get hb hsecond, Line.pair?, if_pos hvalid₂, hblock₂]
      rfl
    exact h.unique a b _ hheld₁ (hsecure ▸ hheld₂)

/-- A demand access that has been served changes the residents as claimed. -/
theorem evolves_of_served (h : c.contents.Sound) (henabled : c.enabled = true) {access : Access}
    {hit : Bool} {evicted : Option UInt64} {c' : Cache}
    (hserved : c.contents.Served access hit evicted c'.contents) :
    Evolves c c' (.access access) (.outcome ⟨hit, evicted, []⟩) := by
  cases hserved with
  | hit id held told geometry_eq held_eq =>
    refine .hit henabled ⟨id, held⟩ ?_
    rw [residents, held_eq, residents]
  | @miss _ id _ absent installed =>
    have hnot := fun hmem => (pairOf_mem_residents_iff.1 hmem) absent
    have hset := c.contents.geometry.setOf_lt access.addr
    cases hheld : c.contents.held id with
    | none =>
      rw [installed.evicted_eq, hheld]
      refine .fill henabled hnot ?_ ?_
      · intro hfull
        refine (full_iff h hset).1 hfull id.way installed.way_lt ?_
        rw [← hheld, ← installed.set_eq]
      · rw [residents, installed.held_eq]
        exact values_update_of_none hheld _
    | some old =>
      rw [installed.evicted_eq, hheld]
      refine .replace old henabled hnot ?_ ⟨id, hheld⟩ ?_ ?_
      · refine (full_iff h hset).2 fun way hway hvacant => ?_
        rw [installed.vacant_first way hway hvacant] at hheld
        cases hheld
      · exact (h.set_of_held hheld).1.trans installed.set_eq
      · rw [residents, installed.held_eq]
        exact values_update_of_some h.unique hheld _

/-- A request to drop a block takes it away if it is there, and nothing else. -/
theorem evolves_of_vacated (h : c.contents.Sound) (henabled : c.enabled = true) {addr : UInt64}
    {secure dropped : Bool} {c' : Cache}
    (hvacated : c.contents.Vacated addr secure dropped c'.contents) :
    Evolves c c' (.invalidate addr secure) (.resident dropped) := by
  generalize hcontents : c'.contents = contents at hvacated
  cases hvacated with
  | found id held dropped =>
    refine .drop henabled ⟨fun _ => ⟨id, held⟩, fun _ => rfl⟩ ?_
    rw [residents, hcontents, dropped.held_eq]
    exact values_update_none h.unique held
  | missing absent s =>
    have hnot : c.pairOf addr secure ∉ c.residents := by
      rintro ⟨id, hid⟩
      exact absent id hid
    refine .drop henabled ⟨fun hfalse => (nomatch hfalse), fun hmem => absurd hmem hnot⟩ ?_
    rw [Set.sdiff_singleton_eq_self hnot, residents, hcontents]
    rfl

theorem isSome_lineOf (h : c.contents.Sound) (henabled : c.enabled = true) {addr : UInt64}
    {secure : Bool} {found : Option LineId} (hfound : c.lineOf addr secure = .ok found) :
    found.isSome ↔ c.pairOf addr secure ∈ c.residents := by
  obtain ⟨found', hfound', hspec⟩ := h.find?_spec addr secure
  rw [lineOf, if_pos henabled, hfound'] at hfound
  obtain rfl := Except.ok.inj hfound
  rw [Option.isSome_iff_exists]
  exact exists_congr hspec

variable {accesses : Nat}

/-- Whichever course a request takes, the residents change as `Evolves` says. -/
theorem evolves_of_performed {s : CacheSettings} {c' : Cache} {request : Request} {reply : Reply}
    (h : c.Reached s accesses) (hkind : s.prefetcher = .none)
    (hperformed : c.Performed s request reply c') : c.Evolves c' request reply := by
  have hsound := h.accounted.toSound
  cases hperformed with
  | bypassAccess disabled => exact .bypass disabled rfl
  | access enabled serve watch prefetch =>
    have hserved := ((h.serve_spec _).of_ok serve).1
    cases watch with
    | none kind =>
      -- Nothing is asked for, so the last stage only counts.
      obtain ⟨_, hcount, hfill⟩ := bind_eq_ok_iff.1 prefetch
      obtain rfl := Except.ok.inj hfill
      rw [Contents.count_eq_ok hcount]
      exact evolves_of_served hsound enabled (hserved.withStatistics _)
    | nextLine kind length_eq => cases hkind.symm.trans kind
    | alive kind => cases hkind.symm.trans kind
    | dead kind drop => cases hkind.symm.trans kind
  | lineOf search => exact .lineOf _ (fun enabled => isSome_lineOf hsound enabled search) rfl
  | contains search => exact .contains _ (fun enabled => isSome_lineOf hsound enabled search) rfl
  | bypassInvalidate disabled => exact .bypass disabled rfl
  | invalidate enabled drop =>
    have hvacated := ((h.accounted.dropBlock_spec _ _).of_ok drop).1
    exact evolves_of_vacated hsound enabled (hvacated.of_blockOf hsound.lineBytes_pow)
  | bypassFlush disabled => exact .bypass disabled rfl
  | flush enabled flush =>
    obtain ⟨-, -, hnone⟩ := h.accounted.flush_clears.of_ok flush
    refine .flush enabled (Set.eq_empty_of_forall_notMem ?_)
    rintro pair ⟨id, hid⟩
    rw [hnone] at hid
    cases hid
  | enable => exact .enable rfl

/-- One request to a cache without a prefetcher. -/
theorem perform_evolves (h : c.contents.Accounted accesses 0) (hprefetcher : c.prefetcher = none)
    (request : Request) :
    Delivers (c.perform request) (Exhausted (accesses + (isAccess request).toNat))
      fun result => c.Evolves result.2 request result.1 ∧ result.2.prefetcher = none ∧
        result.2.contents.Accounted (accesses + (isAccess request).toNat) 0 := by
  -- Of its settings only the size of a block matters.
  have hreached : c.Reached { lineBytes := .ofNat c.contents.geometry.lineBytes } accesses :=
    ⟨h, hprefetcher ▸ .none rfl, rfl⟩
  refine (hreached.perform_spec request).mono ?_ ?_
  · rintro fault (hexhausted | ⟨hkind, -⟩)
    · rwa [CacheSettings.reach_of_none rfl, Nat.add_zero, Nat.mul_one] at hexhausted
    · cases hkind
  · rintro ⟨reply, c'⟩ ⟨hreached', -, hperformed⟩
    refine ⟨evolves_of_performed hreached rfl hperformed, ?_, hreached'.accounted⟩
    have hselected := hreached'.selected
    generalize c'.prefetcher = prefetcher at hselected
    cases hselected with
    | none kind => rfl
    | nextLine kind => cases kind
    | dbcp kind sound lineBytes_eq => cases kind

/-- **What is resident evolves alike under every policy.** After any requests to a new cache without
a prefetcher, no block is held twice or in the wrong set, and the next request, whatever it is,
changes the residents as `Evolves` says. Only a cache that has been asked for 2^64 accesses may
stop. -/
theorem run_evolves {settings : CacheSettings} (hnew : Cache.new settings = .ok c)
    (hnone : settings.prefetcher = .none) (past : List Request) :
    Delivers (c.run past) (Exhausted (past.countP isAccess)) fun result =>
      result.2.WellPlaced ∧ ∀ request,
        Delivers (result.2.perform request) (Exhausted ((past ++ [request]).countP isAccess))
          fun next => result.2.Evolves next.2 request next.1 := by
  have hprefetcher : c.prefetcher = none := by
    obtain ⟨geometry, policy, prefetcher, rfl, -, -, -, -, -, -, -, hprefetcher⟩ := new_eq_ok hnew
    rw [Prefetcher.new, hnone] at hprefetcher
    exact (Except.ok.inj hprefetcher).symm
  refine (run_history (motive := fun done _ c => c.prefetcher = none ∧
    c.contents.Accounted (done.countP isAccess) 0) ⟨hprefetcher, new_accounted hnew⟩ ?_).mono
    (fun _ hfault => hfault) ?_
  · rintro done replies request c hdone ⟨hprefetcher, h⟩
    refine (perform_evolves h hprefetcher request).mono (fun _ => Exhausted.mono ?_) ?_
    · rw [← countP_append_singleton]
      exact hdone.sublist.countP_le
    · rintro result ⟨-, hresult⟩
      exact ⟨hresult.1, countP_append_singleton isAccess done request ▸ hresult.2⟩
  · rintro ⟨replies, c⟩ ⟨hprefetcher, h⟩
    refine ⟨wellPlaced_of_sound h.toSound, fun request => ?_⟩
    rw [countP_append_singleton]
    exact (perform_evolves h hprefetcher request).mono (fun _ hfault => hfault) fun _ hresult =>
      hresult.1

/-- The third block in a set of two ways displaces one. -/
theorem run_evolves_two_ways :
    ∃ c replies c', Cache.new { enabled := true, sizeBytes := 128, ways := 2 } = .ok c ∧
      CacheSettings.prefetcher { enabled := true, sizeBytes := 128, ways := 2 } = .none ∧
      c.run [.access { addr := 0 }, .access { addr := 64 }, .access { addr := 130 }] =
        .ok (replies, c') ∧
      c'.WellPlaced ∧ ∀ request,
        Delivers (c'.perform request)
          (Exhausted (([Request.access { addr := 0 }, .access { addr := 64 },
            .access { addr := 130 }] ++ [request]).countP isAccess))
          fun next => c'.Evolves next.2 request next.1 := by
  obtain ⟨⟨replies, c'⟩, hrun, h⟩ := (run_evolves
    (show Cache.new { enabled := true, sizeBytes := 128, ways := 2 } = .ok _ from rfl) rfl
    [.access { addr := 0 }, .access { addr := 64 }, .access { addr := 130 }]).of_isOk (by decide)
  exact ⟨_, replies, c', rfl, rfl, hrun, h⟩

end Cache

end Residency
