import Residency.Proofs.Accepted
import Residency.Proofs.Prefetch.Confidence

/-!
# When a repeated context is predicted dead

If all accesses to a key have one signature, their number alone decides when the key is first
predicted dead. The accesses to other keys do not matter, as long as the key is accessed again
before they push it out of the table.
-/

namespace Residency

namespace Memoryless

variable {m : Memoryless} {memory : RecencyMap DeadBlockEntry} {key other : TableKey}
  {signature : UInt64} {access : Access} {accesses rest between : List Access}
  {percent full ways : Nat}

/-- How often a key is accessed. -/
def visits (m : Memoryless) (key : TableKey) (accesses : List Access) : Nat :=
  accesses.countP fun access => m.key? access = some key

/-- The other keys of the set of a key that are accessed. -/
def rivals (m : Memoryless) (key : TableKey) (accesses : List Access) : Finset TableKey :=
  ((accesses.filterMap m.key?).filter fun other =>
    other ≠ key ∧ m.table.setOf other.1 = m.table.setOf key.1).toFinset

/-- The first access to a key comes behind some others. -/
def VisitedAfter (m : Memoryless) (key : TableKey) (accesses between : List Access) : Prop :=
  ∃ access rest, accesses = between ++ access :: rest ∧ m.key? access = some key ∧
    ∀ other ∈ between, m.key? other ≠ some key

/-- Between any two accesses to a key that follow one another, fewer others of its set are accessed
than there are ways. -/
def Returns (m : Memoryless) (key : TableKey) (ways : Nat) (accesses : List Access) : Prop :=
  ∀ before access rest between, accesses = before ++ access :: rest → m.key? access = some key →
    m.VisitedAfter key rest between → (m.rivals key between).card < ways

/-! ## Accesses to one key among others -/

theorem visits_cons (m : Memoryless) (key : TableKey) (access : Access) (rest : List Access) :
    m.visits key (access :: rest) =
      m.visits key rest + if m.key? access = some key then 1 else 0 := by
  simp only [visits, List.countP_cons, decide_eq_true_eq]

theorem visits_pos (hmem : access ∈ accesses) (hkey : m.key? access = some key) :
    0 < m.visits key accesses :=
  List.countP_pos_iff.2 ⟨access, hmem, decide_eq_true hkey⟩

theorem mem_rivals : other ∈ m.rivals key accesses ↔
    (∃ access ∈ accesses, m.key? access = some other) ∧ other ≠ key ∧
      m.table.setOf other.1 = m.table.setOf key.1 := by
  simp [rivals]

theorem rivals_mono (h : between ⊆ accesses) : m.rivals key between ⊆ m.rivals key accesses := by
  intro other hother
  obtain ⟨⟨access, hmem, hkey⟩, hrival⟩ := mem_rivals.1 hother
  exact mem_rivals.2 ⟨⟨access, h hmem, hkey⟩, hrival⟩

theorem VisitedAfter.cons (h : m.VisitedAfter key rest between) (hkey : m.key? access ≠ some key) :
    m.VisitedAfter key (access :: rest) (access :: between) := by
  obtain ⟨second, after, rfl, hsecond, hbetween⟩ := h
  exact ⟨second, after, rfl, hsecond, List.forall_mem_cons.2 ⟨hkey, hbetween⟩⟩

theorem exists_visitedAfter (hmem : access ∈ accesses) (hkey : m.key? access = some key) :
    ∃ between, m.VisitedAfter key accesses between := by
  have hsome : (accesses.find? fun a => m.key? a = some key).isSome :=
    List.find?_isSome.2 ⟨access, hmem, decide_eq_true hkey⟩
  obtain ⟨first, hfirst⟩ := Option.isSome_iff_exists.1 hsome
  obtain ⟨hkey, between, rest, hsplit, hbetween⟩ := List.find?_eq_some_iff_append.1 hfirst
  exact ⟨between, first, rest, hsplit, of_decide_eq_true hkey, by simpa using hbetween⟩

theorem visits_eq_length (h : ∀ access ∈ accesses, m.key? access = some key) :
    m.visits key accesses = accesses.length :=
  List.countP_eq_length.2 fun access hmem => decide_eq_true (h access hmem)

/-- A key whose set has a way for every key that is accessed always returns in time. -/
theorem returns_of_card_lt (h : (m.rivals key accesses).card < ways) :
    m.Returns key ways accesses := by
  rintro before access rest between rfl - ⟨second, after, rfl, -, -⟩
  refine lt_of_le_of_lt (Finset.card_le_card (rivals_mono ?_)) h
  intro a ha
  simp [ha]

theorem Returns.tail (h : m.Returns key ways (access :: rest)) : m.Returns key ways rest := by
  intro before first rest between hsplit
  exact h (access :: before) first rest between (by rw [hsplit]; rfl)

/-- Accesses to one key only have no rivals. -/
theorem rivals_eq_empty (h : ∀ access ∈ accesses, m.key? access = some key) :
    m.rivals key accesses = ∅ := by
  apply Finset.eq_empty_of_forall_notMem
  intro other hother
  obtain ⟨⟨access, hmem, hkey⟩, hne, -⟩ := mem_rivals.1 hother
  rw [h access hmem] at hkey
  exact hne (Option.some.inj hkey).symm

/-! ## One access -/

/-- The map is kept by some table with the sets of the prefetcher. All its entries have the scale of
the threshold. -/
structure Learned (m : Memoryless) (full : Nat) (memory : RecencyMap DeadBlockEntry) : Prop where
  kept : memory.Kept
  setOf_eq : memory.setOf = m.table.setOf
  max_eq : ∀ key entry, memory.find? key = some entry → entry.confidence.max = full

/-- A key is accessed again before it is let go. -/
def Sheltered (m : Memoryless) (memory : RecencyMap DeadBlockEntry) (key : TableKey)
    (accesses : List Access) : Prop :=
  memory.find? key ≠ none → ∀ between, m.VisitedAfter key accesses between →
    (memory.ahead key ∪ m.rivals key between).card < memory.assoc

theorem Learned.learn (h : m.Learned full memory) (hinitial : m.initialConfidence.max = full)
    (access : Access) : m.Learned full (m.learn memory access).2 := by
  refine ⟨kept_learn h.kept access, ?_, fun key entry hentry => ?_⟩
  · exact (congrArg (·.2.2) (shape_learn m memory access)).trans h.setOf_eq
  · rcases find?_learn_cases h.kept hentry with hold | ⟨signature, -, -, rfl⟩
    · exact h.max_eq key entry hold
    · exact max_meet hinitial fun entry hentry => h.max_eq key entry hentry

/-- An access to a key is predicted dead just when that is due, and brings the prediction one access
nearer. -/
theorem learn_due (hm : m.Scaled percent full) (hpercent : 0 < percent) (hne : signature ≠ 0)
    (h : m.Learned full memory) (hkey : m.key? access = some key)
    (hsignature : m.signature? access = some signature) :
    (m.learn memory access).1 = (if m.due (quota percent full) signature (memory.find? key) ≤ 1 then
        [m.successor access] else []) ∧
      m.due (quota percent full) signature ((m.learn memory access).2.find? key) =
        max (m.due (quota percent full) signature (memory.find? key) - 1) 1 := by
  obtain ⟨hdead, hdue⟩ := meet_spec (m.successor access) hm hpercent hne
    fun entry hentry => h.max_eq key entry hentry
  rw [learn_of_some hkey hsignature, RecencyMap.find?_renew_self]
  exact ⟨if_congr hdead rfl rfl, hdue⟩

theorem assoc_learn (m : Memoryless) (memory : RecencyMap DeadBlockEntry) (access : Access) :
    (m.learn memory access).2.assoc = memory.assoc :=
  congrArg (·.2.1) (shape_learn m memory access)

/-! ## Accesses to other keys -/

/-- An access to another key puts nothing in front of a key but a rival. -/
theorem learn_other (h : m.Learned full memory) (hkey : m.key? access ≠ some key) :
    (m.learn memory access).2 = memory ∨ ∃ other entry, key ≠ other ∧
      (m.learn memory access).2 = (memory.visit (.renew other entry)).2 ∧
        (memory.setOf key.1 = memory.setOf other.1 → other ∈ m.rivals key [access]) := by
  rcases m.learn_visits memory access with ⟨-, hlearn⟩ | ⟨other, entry, hother, hlearn⟩
  · exact .inl hlearn
  · have hne : key ≠ other := fun heq => hkey (by rw [hother, heq])
    refine .inr ⟨other, entry, hne, hlearn, fun hset => ?_⟩
    rw [h.setOf_eq] at hset
    exact mem_rivals.2 ⟨⟨access, List.mem_singleton_self _, hother⟩, hne.symm, hset.symm⟩

theorem ahead_learn_subset (h : m.Learned full memory) (hkey : m.key? access ≠ some key) :
    (m.learn memory access).2.ahead key ⊆ memory.ahead key ∪ m.rivals key [access] := by
  rcases learn_other h hkey with hlearn | ⟨other, entry, hne, hlearn, hrival⟩
  · rw [hlearn]
    exact Finset.subset_union_left
  · rw [hlearn]
    by_cases hset : memory.setOf key.1 = memory.setOf other.1
    · refine (RecencyMap.ahead_renew_subset hne).trans ?_
      exact Finset.insert_subset (Finset.mem_union_right _ (hrival hset)) Finset.subset_union_left
    · rw [RecencyMap.ahead_renew_of_set_ne hset]
      exact Finset.subset_union_left

theorem find?_learn_eq_none (h : m.Learned full memory) (hkey : m.key? access ≠ some key)
    (hnone : memory.find? key = none) : (m.learn memory access).2.find? key = none := by
  rcases learn_other h hkey with hlearn | ⟨other, entry, hne, hlearn, -⟩
  · rw [hlearn, hnone]
  · rw [hlearn]
    exact h.kept.find?_renew_eq_none hne hnone

namespace Sheltered

/-- An access to another key takes a way of the set at most. -/
theorem learn (hs : m.Sheltered memory key (access :: rest)) (h : m.Learned full memory)
    (hkey : m.key? access ≠ some key) : m.Sheltered (m.learn memory access).2 key rest := by
  intro hbound between hbetween
  have hcard := hs (mt (find?_learn_eq_none h hkey) hbound) _ (hbetween.cons hkey)
  rw [assoc_learn]
  refine lt_of_le_of_lt (Finset.card_le_card (Finset.union_subset ?_ ?_)) hcard
  · refine (ahead_learn_subset h hkey).trans (Finset.union_subset_union_right (rivals_mono ?_))
    simp
  · refine (rivals_mono ?_).trans Finset.subset_union_right
    exact List.subset_cons_self ..

/-- An access to another key leaves the entry of a key that is accessed again. -/
theorem find?_learn (hs : m.Sheltered memory key (access :: rest)) (h : m.Learned full memory)
    (hkey : m.key? access ≠ some key) (hafter : m.VisitedAfter key rest between) :
    (m.learn memory access).2.find? key = memory.find? key := by
  by_cases hnone : memory.find? key = none
  · rw [hnone, find?_learn_eq_none h hkey hnone]
  rcases learn_other h hkey with hlearn | ⟨other, entry, hne, hlearn, hrival⟩
  · rw [hlearn]
  · have hcard := hs hnone _ (hafter.cons hkey)
    rw [hlearn]
    refine h.kept.find?_renew_eq hne fun hset => lt_of_le_of_lt (Finset.card_le_card ?_) hcard
    refine Finset.insert_subset (Finset.mem_union_right _ ?_) Finset.subset_union_left
    exact rivals_mono (by simp) (hrival hset)

end Sheltered

/-- After an access to it a key is in front of all others. -/
theorem Returns.sheltered (hr : m.Returns key memory.assoc (access :: rest))
    (hkey : m.key? access = some key) : m.Sheltered (m.learn memory access).2 key rest := by
  intro _ between hbetween
  have hahead : (m.learn memory access).2.ahead key = ∅ := by
    rcases m.learn_visits memory access with ⟨hnone, -⟩ | ⟨other, entry, hother, hlearn⟩
    · rw [hkey] at hnone
      cases hnone
    · obtain rfl := Option.some.inj (hkey.symm.trans hother)
      rw [hlearn, RecencyMap.ahead_renew_self]
  rw [assoc_learn, hahead, Finset.empty_union]
  exact hr [] access rest between rfl hkey hbetween

/-- A key is not let go before the next access to it if there are no accesses to others. -/
theorem Learned.sheltered (h : m.Learned full memory)
    (hkeys : ∀ access ∈ accesses, m.key? access = some key) : m.Sheltered memory key accesses := by
  rintro hbound between ⟨access, rest, rfl, -, -⟩
  rw [rivals_eq_empty fun access hmem => hkeys access (List.mem_append_left _ hmem),
    Finset.union_empty]
  exact h.kept.card_ahead_lt hbound

/-! ## Whole runs -/

/-- Whether an access to a key is predicted dead is decided by the number of accesses to the key, if
they all have one signature and the key always returns in time. -/
theorem learnAll_answers (hm : m.Scaled percent full) (hpercent : 0 < percent) (hne : signature ≠ 0)
    (h : m.Learned full memory) (hs : m.Sheltered memory key accesses)
    (hr : m.Returns key memory.assoc accesses)
    (hsame : ∀ access ∈ accesses, m.key? access = some key → m.signature? access = some signature)
    {n : Nat} (haccess : accesses[n]? = some access) (hkey : m.key? access = some key) :
    (m.learnAll memory accesses).1[n]? =
      some (if m.due (quota percent full) signature (memory.find? key) ≤
        m.visits key (accesses.take (n + 1)) then [m.successor access] else []) := by
  -- The accesses that are over are accounted for by the entry of the key, which says how many more
  -- it takes.
  induction accesses generalizing memory n with
  | nil => cases haccess
  | cons first rest ih =>
    have hrest : ∀ access ∈ rest, m.key? access = some key → m.signature? access = some signature :=
      fun access hmem => hsame access (List.mem_cons_of_mem _ hmem)
    have hlearned := h.learn hm.max_initial first
    have hreturns : m.Returns key (m.learn memory first).2.assoc rest := by
      rw [assoc_learn]
      exact hr.tail
    rw [learnAll, List.take_succ_cons, visits_cons]
    by_cases hfirst : m.key? first = some key
    · obtain ⟨hanswer, hdue⟩ := learn_due hm hpercent hne h hfirst
        (hsame first (List.mem_cons_self ..) hfirst)
      rw [if_pos hfirst]
      cases n with
      | zero =>
        obtain rfl := Option.some.inj haccess
        exact congrArg some hanswer
      | succ n =>
        have hpos : 0 < m.visits key (rest.take (n + 1)) := by
          refine visits_pos (List.mem_of_getElem? (i := n) ?_) hkey
          rw [List.getElem?_take_of_lt (Nat.lt_succ_self n)]
          exact haccess
        rw [List.getElem?_cons_succ, ih hlearned (hr.sheltered hfirst) hreturns hrest haccess, hdue]
        refine congrArg some (if_congr ?_ rfl rfl)
        omega
    · rw [if_neg hfirst, Nat.add_zero]
      cases n with
      | zero =>
        obtain rfl := Option.some.inj haccess
        exact absurd hkey hfirst
      | succ n =>
        have hmem : access ∈ rest := List.mem_of_getElem? haccess
        -- The key is accessed again, so this access to another one has not pushed it out.
        obtain ⟨between, hbetween⟩ := exists_visitedAfter hmem hkey
        rw [List.getElem?_cons_succ, ih hlearned (hs.learn h hfirst) hreturns hrest haccess,
          hs.find?_learn h hfirst hbetween]

theorem assoc_learnAll (m : Memoryless) (memory : RecencyMap DeadBlockEntry)
    (accesses : List Access) : (m.learnAll memory accesses).2.assoc = memory.assoc := by
  induction accesses generalizing memory with
  | nil => rfl
  | cons access rest ih => exact (ih _).trans (assoc_learn m memory access)

theorem Learned.learnAll (h : m.Learned full memory) (hinitial : m.initialConfidence.max = full)
    (accesses : List Access) : m.Learned full (m.learnAll memory accesses).2 := by
  induction accesses generalizing memory with
  | nil => exact h
  | cons access rest ih => exact ih (h.learn hinitial access)

end Memoryless

namespace Dbcp

variable {p p₀ : Dbcp} {lineBytes : UInt64} {settings : DbcpSettings}

/-- The scale of the settings is that of the prefetcher, and every set has a way. -/
theorem new_scaled (h : Dbcp.new lineBytes settings = .ok p) :
    p.forget.Scaled settings.confidenceThreshold.toNat (2 ^ settings.confidenceBits.toNat - 1) ∧
      p.initialConfidence.value = settings.initialConfidence.toNat ∧
      1 ≤ settings.confidenceBits.toNat ∧ 0 < settings.tableAssoc.toNat := by
  obtain ⟨counter, policy, table, -, hcheck, hcounter, -, -, rfl⟩ := new_eq_ok_iff.1 h
  obtain ⟨-, -, hassoc, -, -, -, hpercent⟩ := DbcpSettings.check_eq_ok_iff.1 hcheck
  obtain ⟨hvalue, hmax⟩ := Counter.new_eq_ok hcounter
  obtain ⟨hbits, hwidth, -⟩ := Counter.new_accepts_iff.1 ⟨counter, hcounter⟩
  have hlow : 2 ^ 1 ≤ 2 ^ settings.confidenceBits.toNat := Nat.pow_le_pow_right (by decide) hbits
  have hhigh : 2 ^ settings.confidenceBits.toNat ≤ 2 ^ 32 := Nat.pow_le_pow_right (by decide) hwidth
  exact ⟨⟨rfl, hpercent, by omega, by omega, hmax⟩, hvalue, hbits, hassoc⟩

/-- The prefetcher has been made with some settings and has learned since. -/
structure Taught (p : Dbcp) (settings : DbcpSettings) (memory : RecencyMap DeadBlockEntry)
    (seen : Nat) : Prop where
  learns : p.Learns memory seen
  learned : p.forget.Learned (2 ^ settings.confidenceBits.toNat - 1) memory
  scaled : p.forget.Scaled settings.confidenceThreshold.toNat
    (2 ^ settings.confidenceBits.toNat - 1)
  value_initial : p.initialConfidence.value = settings.initialConfidence.toNat
  assoc_eq : memory.assoc = settings.tableAssoc.toNat
  bits_pos : 1 ≤ settings.confidenceBits.toNat
  assoc_pos : 0 < settings.tableAssoc.toNat

section

variable {τ : Type} [BlockInvalidator τ] {cache cache₀ : τ} {accesses earlier : List Access}
  {answers : List (List UInt64)}

/-- After a run, a new prefetcher has been taught what the rule learns from the accesses. -/
theorem taught_of_watchAll (hnew : Dbcp.new lineBytes settings = .ok p₀)
    (hdrop : ∀ (cache : τ) (block : UInt64) (secure : Bool),
      (BlockInvalidator.dropDead cache block secure).isOk)
    (hrun : watchAll Dbcp.observe p₀ cache₀ earlier = .ok (answers, p, cache)) :
    p.Taught settings (p₀.forget.learnAll (.empty (settings.tableEntries.toNat /
      settings.tableAssoc.toNat) settings.tableAssoc.toNat p₀.table.setOf) earlier).2
      earlier.length := by
  obtain ⟨hscaled, hvalue, hbits, hassoc⟩ := new_scaled hnew
  have hempty : p₀.forget.Learned (2 ^ settings.confidenceBits.toNat - 1) (.empty _ _ _) :=
    ⟨⟨_, (new_learns hnew).represents⟩, rfl, fun _ _ hentry => by cases hentry⟩
  have hlearned := hempty.learnAll hscaled.max_initial earlier
  obtain ⟨-, ⟨table, statistics, hrules⟩, hlearns⟩ :=
    ((new_learns hnew).watchAll_spec hdrop cache₀ earlier).of_ok hrun
  rw [Nat.zero_add] at hlearns
  have hinitial : p.initialConfidence = p₀.initialConfidence :=
    congrArg Memoryless.initialConfidence hrules
  refine ⟨hlearns, ?_, ?_, ?_, ?_, hbits, hassoc⟩
  · exact ⟨hlearned.kept, hlearns.represents.setOf_eq, hlearned.max_eq⟩
  · rw [hrules]
    exact ⟨hscaled.threshold_eq, hscaled.percent_le, hscaled.full_pos, hscaled.full_lt,
      hscaled.max_initial⟩
  · rw [hinitial, hvalue]
  · rw [Memoryless.assoc_learnAll, RecencyMap.empty]

theorem exists_taught (hnew : Dbcp.new lineBytes settings = .ok p₀)
    (hdrop : ∀ (cache : τ) (block : UInt64) (secure : Bool),
      (BlockInvalidator.dropDead cache block secure).isOk)
    (hrun : watchAll Dbcp.observe p₀ cache₀ earlier = .ok (answers, p, cache)) :
    ∃ memory, p.Taught settings memory earlier.length :=
  ⟨_, taught_of_watchAll hnew hdrop hrun⟩

/-- The answers to the accesses to one key, from when a prediction is due. -/
theorem Taught.watchAll_answers {memory : RecencyMap DeadBlockEntry} {seen : Nat} {key : TableKey}
    {signature : UInt64} (h : p.Taught settings memory seen)
    (hpercent : 1 ≤ settings.confidenceThreshold.toNat) (hne : signature ≠ 0)
    (hdrop : ∀ (cache : τ) (block : UInt64) (secure : Bool),
      (BlockInvalidator.dropDead cache block secure).isOk)
    (hsame : ∀ access ∈ accesses, p.forget.key? access = some key →
      p.forget.signature? access = some signature)
    (hr : p.forget.Returns key settings.tableAssoc.toNat accesses)
    (hs : p.forget.Sheltered memory key accesses) (cache : τ) :
    Delivers (watchAll Dbcp.observe p cache accesses) (Exhausted (seen + accesses.length))
      fun result => ∀ n access, accesses[n]? = some access → p.forget.key? access = some key →
        result.1[n]? = some (if p.forget.due (quota settings.confidenceThreshold.toNat
            (2 ^ settings.confidenceBits.toNat - 1)) signature (memory.find? key) ≤
              p.forget.visits key (accesses.take (n + 1)) then
          [p.forget.successor access] else []) := by
  rw [← h.assoc_eq] at hr
  refine (h.learns.watchAll_spec hdrop cache accesses).mono (fun _ hfault => hfault) ?_
  rintro ⟨answers, p', cache'⟩ ⟨rfl, -⟩ n access haccess hkey
  exact Memoryless.learnAll_answers h.scaled hpercent hne h.learned hs hr hsame haccess hkey

/-- **A repeated context is predicted dead after a fixed number of accesses.** At first the table
knows nothing of the context. If all later accesses to its key have its signature, and the key
always returns before as many others of its set have been accessed as there are ways, then its
confidence drains until it is below the threshold, and climbs until it is not. Each takes at least
one access, and one access goes before them. All accesses from then on are predicted dead, and none
before. -/
theorem watch_repeated_context (block pc : UInt64) (secure : Bool) (accesses : List Access)
    (hnew : Dbcp.new lineBytes settings = .ok p₀)
    (hpercent : 1 ≤ settings.confidenceThreshold.toNat)
    (hdrop : ∀ (cache : τ) (block : UInt64) (secure : Bool),
      (BlockInvalidator.dropDead cache block secure).isOk)
    (hrun : watchAll Dbcp.observe p₀ cache₀ earlier = .ok (answers, p, cache))
    (hunknown : p.entry? (p.forget.index block pc) secure = .ok none)
    (hne : p.forget.signature block pc ≠ 0)
    (hsame : ∀ access ∈ accesses, p.forget.key? access = some (p.forget.index block pc, secure) →
      p.forget.signature? access = some (p.forget.signature block pc))
    (hreturns : p.forget.Returns (p.forget.index block pc, secure) settings.tableAssoc.toNat
      accesses) (later : τ) :
    ∃ drain climb,
      IsLeast {j | 1 ≤ j ∧ 100 * (settings.initialConfidence.toNat - j) <
        settings.confidenceThreshold.toNat * (2 ^ settings.confidenceBits.toNat - 1)} drain ∧
      IsLeast {i | 1 ≤ i ∧
        settings.confidenceThreshold.toNat * (2 ^ settings.confidenceBits.toNat - 1) ≤
          100 * min (settings.initialConfidence.toNat - drain + i)
            (2 ^ settings.confidenceBits.toNat - 1)} climb ∧
      Delivers (watchAll Dbcp.observe p later accesses)
        (Exhausted (earlier.length + accesses.length)) fun result =>
          ∀ n access, accesses[n]? = some access →
            p.forget.key? access = some (p.forget.index block pc, secure) →
              result.1[n]? = some (if 1 + drain + climb ≤ p.forget.visits
                (p.forget.index block pc, secure) (accesses.take (n + 1)) then
                  [p.forget.successor access] else []) := by
  obtain ⟨memory, h⟩ := exists_taught hnew hdrop hrun
  have hnone : memory.find? (p.forget.index block pc, secure) = none := by
    rw [h.learns.entry?_eq] at hunknown
    exact Except.ok.inj hunknown
  have hquota := quota_pos hpercent h.scaled.full_pos
  obtain ⟨drain, climb, hdrain, hclimb, hdue⟩ := DeadBlockEntry.exists_due_blank
    p.forget.initialConfidence h.scaled.percent_le hquota hne
  rw [show p.forget.initialConfidence.value = _ from h.value_initial] at hdrain hclimb
  refine ⟨drain, climb, hdrain, hclimb, ?_⟩
  have hanswers := h.watchAll_answers hpercent hne hdrop hsame hreturns
    (fun hbound => absurd hnone hbound) later
  have hfirst : drain + climb + 1 = 1 + drain + climb := by omega
  rw [hnone, Memoryless.due, hdue, hfirst] at hanswers
  exact hanswers

/-- In a set of two ways that another context shares, a counter that has to drain from one and then
climb to three is full at the fifth access. -/
theorem watch_repeated_context_fifth_access :
    ∃ p₀ p, Dbcp.new 64 { DbcpSettings.hasty with
        tableEntries := 2, tableAssoc := 2, confidenceBits := 2, initialConfidence := 1 } = .ok p₀ ∧
      watchAll Dbcp.observe p₀ (DropLog.mk []) [⟨7, some 7, false⟩] = .ok ([[]], p, ⟨[]⟩) ∧
      Delivers (watchAll Dbcp.observe p (DropLog.mk []) [⟨70, some 5, false⟩, ⟨7, some 7, false⟩,
        ⟨71, some 5, false⟩, ⟨7, some 7, false⟩, ⟨72, some 5, false⟩, ⟨73, some 5, false⟩,
        ⟨7, some 7, false⟩, ⟨70, some 5, false⟩]) (Exhausted 9) fun result =>
          result.1[5]? = some [] ∧ result.1[7]? = some [128] := by
  obtain ⟨drain, climb, ⟨⟨hdrain, -⟩, hdrain_le⟩, ⟨⟨hclimb, hfull⟩, hclimb_le⟩, hdelivers⟩ :=
    watch_repeated_context 64 5 false [⟨70, some 5, false⟩, ⟨7, some 7, false⟩,
        ⟨71, some 5, false⟩, ⟨7, some 7, false⟩, ⟨72, some 5, false⟩, ⟨73, some 5, false⟩,
        ⟨7, some 7, false⟩, ⟨70, some 5, false⟩]
      (show Dbcp.new 64 { DbcpSettings.hasty with
        tableEntries := 2, tableAssoc := 2, confidenceBits := 2, initialConfidence := 1 } = .ok _
        from rfl)
      (by decide) (fun _ _ _ => rfl)
      (show watchAll Dbcp.observe _ (DropLog.mk []) [⟨7, some 7, false⟩] = .ok ([[]], _, ⟨[]⟩)
        from rfl)
      rfl (by decide) (by decide) (Memoryless.returns_of_card_lt (by decide)) (DropLog.mk [])
  have hdrain_eq : drain = 1 := Nat.le_antisymm (hdrain_le ⟨Nat.le_refl 1, by decide⟩) hdrain
  subst hdrain_eq
  have hclimb_eq : climb = 3 := by
    refine Nat.le_antisymm (hclimb_le ⟨by decide, by decide⟩) ?_
    have hfull : 300 ≤ 100 * min (1 - 1 + climb) 3 := hfull
    omega
  subst hclimb_eq
  refine ⟨_, _, rfl, rfl, ?_⟩
  refine hdelivers.mono (fun _ hfault => hfault) fun result hresult => ⟨?_, ?_⟩
  · exact hresult 5 ⟨73, some 5, false⟩ rfl rfl
  · exact hresult 7 ⟨70, some 5, false⟩ rfl rfl

/-- **A repeated context is always learned.** Whatever the table has learned, the accesses to a
context that follow one another are predicted dead from one of them on. That is at the latest the
one after twice as many as the highest confidence. -/
theorem watch_repetition (block pc : UInt64) (secure : Bool)
    (hnew : Dbcp.new lineBytes settings = .ok p₀)
    (hpercent : 1 ≤ settings.confidenceThreshold.toNat)
    (hdrop : ∀ (cache : τ) (block : UInt64) (secure : Bool),
      (BlockInvalidator.dropDead cache block secure).isOk)
    (hrun : watchAll Dbcp.observe p₀ cache₀ earlier = .ok (answers, p, cache))
    (hne : p.forget.signature block pc ≠ 0) :
    ∃ first, 1 ≤ first ∧ first ≤ 2 ^ (settings.confidenceBits.toNat + 1) - 1 ∧
      ∀ (later : τ) (accesses : List Access), (∀ access ∈ accesses,
          blockAddress p.lineBytes access.addr = block ∧ access.pc = some pc ∧
            access.secure = secure) →
        Delivers (watchAll Dbcp.observe p later accesses)
          (Exhausted (earlier.length + accesses.length)) fun result =>
            ∀ n, n < accesses.length → first ≤ n + 1 →
              result.1[n]? = some [block + p.lineBytes] := by
  obtain ⟨memory, h⟩ := exists_taught hnew hdrop hrun
  let key : TableKey := (p.forget.index block pc, secure)
  have hmax : ∀ entry ∈ memory.find? key, entry.confidence.max = _ :=
    fun entry hentry => h.learned.max_eq key entry hentry
  refine ⟨p.forget.due (quota settings.confidenceThreshold.toNat
    (2 ^ settings.confidenceBits.toNat - 1)) (p.forget.signature block pc) (memory.find? key),
    Memoryless.due_pos .., ?_, ?_⟩
  · have hle := Memoryless.due_le (p.forget.signature block pc) h.scaled hpercent hmax
    have hlow : 2 ^ 1 ≤ 2 ^ settings.confidenceBits.toNat :=
      Nat.pow_le_pow_right (by decide) h.bits_pos
    rw [Nat.pow_succ]
    omega
  · intro later accesses hcontext
    have hkeys : ∀ access ∈ accesses, p.forget.key? access = some key ∧
        p.forget.signature? access = some (p.forget.signature block pc) ∧
        p.forget.successor access = block + p.lineBytes := by
      intro access hmem
      obtain ⟨hblock, hpc, hsecure⟩ := hcontext access hmem
      rw [Memoryless.key?, Memoryless.signature?, Memoryless.successor, forget_lineBytes, hblock,
        hpc, hsecure]
      exact ⟨rfl, rfl, rfl⟩
    have hrivals : p.forget.rivals key accesses = ∅ :=
      Memoryless.rivals_eq_empty fun access hmem => (hkeys access hmem).1
    have hreturns : p.forget.Returns key settings.tableAssoc.toNat accesses := by
      apply Memoryless.returns_of_card_lt
      rw [hrivals]
      exact h.assoc_pos
    have hsheltered : p.forget.Sheltered memory key accesses :=
      h.learned.sheltered fun access hmem => (hkeys access hmem).1
    refine (h.watchAll_answers hpercent hne hdrop (fun access hmem _ => (hkeys access hmem).2.1)
      hreturns hsheltered later).mono (fun _ hfault => hfault) ?_
    intro result hresult n hn hfirst
    obtain ⟨hkey, -, hsuccessor⟩ := hkeys accesses[n] (List.getElem_mem hn)
    have hvisits : p.forget.visits key (accesses.take (n + 1)) = n + 1 := by
      have htake : ∀ access ∈ accesses.take (n + 1), p.forget.key? access = some key :=
        fun access hmem => (hkeys access (List.mem_of_mem_take hmem)).1
      rw [Memoryless.visits_eq_length htake, List.length_take, Nat.min_eq_left hn]
    rw [hresult n _ (List.getElem?_eq_getElem hn) hkey, hsuccessor, hvisits, if_pos hfirst]

/-- An entry that is sure of the signature of another context is taken over at the first access. By
the third one the block is predicted dead. -/
theorem watch_repetition_third_access :
    ∃ p₀ p, Dbcp.new 64 .hasty = .ok p₀ ∧
      watchAll Dbcp.observe p₀ (DropLog.mk []) (List.replicate 3 ⟨128, some 197, false⟩) =
        .ok ([[], [], [192]], p, ⟨[(128, false)]⟩) ∧
      Delivers (watchAll Dbcp.observe p (DropLog.mk []) (List.replicate 3 ⟨70, some 5, false⟩))
        (Exhausted 6) fun result => result.1[2]? = some [128] := by
  obtain ⟨first, -, hfirst, hdelivers⟩ := watch_repetition 64 5 false
    (show Dbcp.new 64 .hasty = .ok _ from rfl) (by decide) (fun _ _ _ => rfl)
    (show watchAll Dbcp.observe _ (DropLog.mk []) (List.replicate 3 ⟨128, some 197, false⟩) =
      .ok ([[], [], [192]], _, ⟨[(128, false)]⟩) from rfl)
    (by decide)
  refine ⟨_, _, rfl, rfl, ?_⟩
  refine (hdelivers (DropLog.mk []) (List.replicate 3 ⟨70, some 5, false⟩) (by decide)).mono
    (fun _ hfault => hfault) fun result hresult => ?_
  exact hresult 2 (by decide) hfirst

/-- No confidence is below a threshold of zero, so that a blank entry stays blank. -/
theorem watch_repetition_zero_threshold :
    ∃ p p', Dbcp.new 64 { DbcpSettings.hasty with confidenceThreshold := 0 } = .ok p ∧
      p.forget.signature 64 5 ≠ 0 ∧
      watchAll Dbcp.observe p (DropLog.mk [])
          (List.replicate (2 ^ (DbcpSettings.hasty.confidenceBits.toNat + 1) - 1)
            ⟨70, some 5, false⟩) =
        .ok ([[], [], []], p', ⟨[]⟩) :=
  ⟨_, _, rfl, by decide, rfl⟩

end

end Dbcp

end Residency
