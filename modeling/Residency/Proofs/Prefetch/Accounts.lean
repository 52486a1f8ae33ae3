import Residency.Proofs.Prefetch.Earlier
import Residency.Proofs.Prefetch.Repetition

/-!
# What the dead-block prefetcher does, and what it counts

An access without a program counter is not noticed. Any other is counted as a hit or as a miss, and
leaves an entry for its context. If the block is found dead, it is dropped, once, and the block
behind it is asked for. The counters add up over every run, and what the cache replies when it is
told to drop a block makes no difference.
-/

namespace Residency

/-! ## The counters -/

/-- How the counters add up after some accesses and the answers to them. -/
structure DbcpStatistics.Tally (accesses : List Access) (answers : List (List UInt64))
    (s : DbcpStatistics) : Prop where
  looked_up : s.tableHits + s.tableMisses = accesses.countP Access.hasPc
  predicted : s.deadPredictions = answers.flatten.length
  trusted : s.deadPredictions ≤ s.signatureMatches
  trained : s.signatureMatches + s.signatureOverwrites ≤ s.tableHits

namespace DbcpStatistics.Tally

variable {s : DbcpStatistics} {accesses : List Access} {answers : List (List UInt64)}
  {access : Access} {targets : List UInt64}

/-- An access that is ignored is not counted, and asks for nothing. -/
theorem ignore (h : s.Tally accesses answers) (hpc : access.hasPc = false) :
    s.Tally (accesses ++ [access]) (answers ++ [[]]) := by
  obtain ⟨hlooked, hpredicted, htrusted, htrained⟩ := h
  have hcount : (accesses ++ [access]).countP Access.hasPc = accesses.countP Access.hasPc := by
    simp [hpc]
  have hlength : (answers ++ [[]]).flatten.length = answers.flatten.length := by simp
  constructor <;> omega

theorem enroll (h : s.Tally accesses answers) (hpc : access.hasPc = true) :
    Tally (accesses ++ [access]) (answers ++ [[]]) { s with tableMisses := s.tableMisses + 1 } := by
  obtain ⟨hlooked, hpredicted, htrusted, htrained⟩ := h
  have hcount : (accesses ++ [access]).countP Access.hasPc = accesses.countP Access.hasPc + 1 := by
    simp [hpc]
  have hlength : (answers ++ [[]]).flatten.length = answers.flatten.length := by simp
  constructor <;> dsimp only <;> omega

/-- A known context is a hit. Its signature is trusted if its block is dead, and written only if it
has not been expected. -/
theorem train (h : s.Tally accesses answers) (hpc : access.hasPc = true)
    {matched overwritten dead : Bool} (hdead : dead.toNat ≤ matched.toNat)
    (hone : matched.toNat + overwritten.toNat ≤ 1) (htargets : targets.length = dead.toNat) :
    Tally (accesses ++ [access]) (answers ++ [targets]) { s with
      tableHits := s.tableHits + 1
      signatureMatches := s.signatureMatches + matched.toNat
      signatureOverwrites := s.signatureOverwrites + overwritten.toNat
      deadPredictions := s.deadPredictions + dead.toNat } := by
  obtain ⟨hlooked, hpredicted, htrusted, htrained⟩ := h
  have hcount : (accesses ++ [access]).countP Access.hasPc = accesses.countP Access.hasPc + 1 := by
    simp [hpc]
  have hlength : (answers ++ [targets]).flatten.length = answers.flatten.length + dead.toNat := by
    simp [htargets]
  constructor <;> dsimp only <;> omega

end DbcpStatistics.Tally

namespace Dbcp

variable {p p' : Dbcp} {c : Context} {id : LineId} {dead : Bool} {accesses : List Access}
  {answers : List (List UInt64)}

theorem enroll_statistics (h : p.enroll c = .ok p') :
    p'.statistics = { p.statistics with tableMisses := p.statistics.tableMisses + 1 } := by
  simp only [enroll, withStatistics, bind_eq_ok_iff, pure_eq_ok, Except.ok.injEq] at h
  obtain ⟨_, ⟨-, -, rfl⟩, -, -, -, -, rfl⟩ := h
  rfl

theorem train_statistics (h : p.train c id = .ok (dead, p')) :
    ∃ matched overwritten : Bool, dead.toNat ≤ matched.toNat ∧
      matched.toNat + overwritten.toNat ≤ 1 ∧
      p'.statistics = { p.statistics with
        tableHits := p.statistics.tableHits + 1
        signatureMatches := p.statistics.signatureMatches + matched.toNat
        signatureOverwrites := p.statistics.signatureOverwrites + overwritten.toNat
        deadPredictions := p.statistics.deadPredictions + dead.toNat } := by
  simp only [train, withStatistics, bind_eq_ok_iff, pure_eq_ok, Except.ok.injEq,
    Prod.mk.injEq] at h
  obtain ⟨_, -, entry, -, _, ⟨-, -, rfl⟩, _, -, rfl, rfl⟩ := h
  refine ⟨entry.expects c.signature, _, ?_, ?_, rfl⟩
  · cases entry.expects c.signature with
    | false => exact Nat.le_refl 0
    | true => exact Bool.toNat_le _
  · cases entry.expects c.signature with
    | false => simp [Bool.toNat_le]
    | true => exact Nat.le_refl 1

theorem new_tally {lineBytes : UInt64} {settings : DbcpSettings}
    (h : Dbcp.new lineBytes settings = .ok p) : p.statistics.Tally [] [] := by
  obtain ⟨confidence, policy, table, -, -, -, -, -, rfl⟩ := new_eq_ok_iff.1 h
  constructor <;> simp

section

variable {τ : Type} [BlockInvalidator τ] {access : Access} {cache cache' : τ}
  {targets : List UInt64}

/-- An access with a program counter is counted as a hit or as a miss. -/
theorem Observed.counted (h : Observed p access cache targets p' cache')
    (hpc : access.pc ≠ none) :
    (p'.statistics.tableHits = p.statistics.tableHits + 1 ∧
        p'.statistics.tableMisses = p.statistics.tableMisses) ∨
      (p'.statistics.tableHits = p.statistics.tableHits ∧
        p'.statistics.tableMisses = p.statistics.tableMisses + 1) := by
  cases h with
  | ignored anonymous => exact absurd anonymous hpc
  | enrolled named context miss enroll =>
    rw [enroll_statistics enroll]
    exact .inr ⟨rfl, rfl⟩
  | spared named context hit train =>
    obtain ⟨matched, overwritten, -, -, hcounted⟩ := train_statistics train
    rw [hcounted]
    exact .inl ⟨rfl, rfl⟩
  | dead named context hit train drop =>
    obtain ⟨matched, overwritten, -, -, hcounted⟩ := train_statistics train
    rw [bury, hcounted]
    exact .inl ⟨rfl, rfl⟩

/-- One more access keeps the counters adding up. -/
theorem Observed.tally (h : Observed p access cache targets p' cache')
    (ht : p.statistics.Tally accesses answers) :
    p'.statistics.Tally (accesses ++ [access]) (answers ++ [targets]) := by
  have hnamed {pc : UInt64} (hpc : access.pc = some pc) : access.hasPc = true := by
    rw [Access.hasPc, hpc]
    rfl
  cases h with
  | ignored anonymous =>
    apply ht.ignore
    rw [Access.hasPc, anonymous]
    rfl
  | enrolled named context miss enroll =>
    rw [enroll_statistics enroll]
    exact ht.enroll (hnamed named)
  | spared named context hit train =>
    obtain ⟨matched, overwritten, hdead, hone, hcounted⟩ := train_statistics train
    rw [hcounted]
    exact ht.train (hnamed named) hdead hone rfl
  | dead named context hit train drop =>
    obtain ⟨matched, overwritten, hdead, hone, hcounted⟩ := train_statistics train
    rw [bury, hcounted]
    exact ht.train (hnamed named) hdead hone rfl

end

end Dbcp

/-! ## The width of the signatures -/

namespace Memoryless

variable {m : Memoryless} {memory : RecencyMap DeadBlockEntry} {access : Access}
  {signature : UInt64}

/-- The signatures of all bound entries keep to their width. -/
def Narrow (m : Memoryless) (memory : RecencyMap DeadBlockEntry) : Prop :=
  ∀ key entry, memory.find? key = some entry → entry.signature.toNat < 2 ^ m.signatureBits

theorem narrow_empty (m : Memoryless) (sets assoc : Nat) (setOf : UInt64 → Nat) :
    m.Narrow (.empty sets assoc setOf) := by
  intro key entry hentry
  cases hentry

theorem signature_lt (hsignature : m.signature? access = some signature) :
    signature.toNat < 2 ^ m.signatureBits := by
  obtain ⟨pc, -, rfl⟩ := Option.map_eq_some_iff.1 hsignature
  rw [Memoryless.signature, UInt64.toNat_ofNat']
  exact Nat.lt_of_le_of_lt (Nat.mod_le ..) (Nat.mod_lt _ (Nat.two_pow_pos _))

theorem Narrow.learn (h : m.Narrow memory) (hkept : memory.Kept) (access : Access) :
    m.Narrow (m.learn memory access).2 := by
  intro key entry hentry
  rcases find?_learn_cases hkept hentry with hold | ⟨signature, -, hsignature, rfl⟩
  · exact h key entry hold
  · cases hfound : memory.find? key with
    | none => exact Nat.two_pow_pos _
    | some old =>
      rcases m.signature_meet (m.successor access) signature old with hkeep | ⟨htake, -⟩
      · rw [hkeep]
        exact h key old hfound
      · rw [htake]
        exact signature_lt hsignature

theorem Narrow.learnAll (h : m.Narrow memory) (hkept : memory.Kept) (accesses : List Access) :
    m.Narrow (m.learnAll memory accesses).2 := by
  induction accesses generalizing memory with
  | nil => exact h
  | cons access rest ih => exact ih (h.learn hkept access) (kept_learn hkept access)

end Memoryless

/-! ## One access -/

namespace Dbcp

variable {p p' : Dbcp} {lineBytes : UInt64} {settings : DbcpSettings}
  {τ : Type} [BlockInvalidator τ]

/-- What an access does to the prefetcher, and to the cache behind it. -/
structure Contract (lineBytes : UInt64) (settings : DbcpSettings) (p : Dbcp) (access : Access)
    (cache : τ) (targets : List UInt64) (p' : Dbcp) (cache' : τ) : Prop where
  unnoticed : access.pc = none → targets = [] ∧ p' = p ∧ cache' = cache
  counted : access.pc ≠ none →
    (p'.statistics.tableHits = p.statistics.tableHits + 1 ∧
        p'.statistics.tableMisses = p.statistics.tableMisses) ∨
      (p'.statistics.tableHits = p.statistics.tableHits ∧
        p'.statistics.tableMisses = p.statistics.tableMisses + 1)
  dropped : (targets = [] ∧ cache' = cache) ∨
    (targets = [blockAddress lineBytes access.addr + lineBytes] ∧
      ∃ found, BlockInvalidator.dropDead cache (blockAddress lineBytes access.addr)
        access.secure = .ok (found, cache'))
  known : ∀ pc, access.pc = some pc → ∃ index entry,
    p.index (blockAddress lineBytes access.addr) pc = .ok index ∧
      p'.entry? index access.secure = .ok (some entry) ∧
      entry.confidence.value ≤ 2 ^ settings.confidenceBits.toNat - 1 ∧
      entry.signature.toNat < 2 ^ settings.signatureBits.toNat

section

variable {access : Access} {cache cache' : τ} {targets : List UInt64}
  {memory : RecencyMap DeadBlockEntry} {seen : Nat}

/-- Only a dead block is dropped, and only the block behind one is asked for. -/
theorem Learns.dropped (h : p.Learns memory seen)
    (htargets : targets = (p.forget.learn memory access).1)
    (hobserved : Observed p access cache targets p' cache') :
    (targets = [] ∧ cache' = cache) ∨
      (targets = [blockAddress p.lineBytes access.addr + p.lineBytes] ∧
        ∃ found, BlockInvalidator.dropDead cache (blockAddress p.lineBytes access.addr)
          access.secure = .ok (found, cache')) := by
  cases hobserved with
  | ignored anonymous => exact .inl ⟨rfl, rfl⟩
  | enrolled named context miss enroll => exact .inl ⟨rfl, rfl⟩
  | spared named context hit train => exact .inl ⟨rfl, rfl⟩
  | @dead _ _ _ _ found _ named context hit train drop =>
    obtain ⟨c, hc, hblock, hsecure, hkey, hsignature⟩ := h.context_spec named
    obtain rfl := Except.ok.inj (hc.symm.trans context)
    rw [hblock, hsecure] at drop
    refine .inr ⟨?_, found, drop⟩
    rw [Memoryless.learn_of_some hkey hsignature] at htargets
    split at htargets
    · exact htargets
    · cases htargets

/-- The table knows the context of an access afterwards. -/
theorem Learns.known {pc : UInt64} (h : p.Learns memory seen) (hpc : access.pc = some pc)
    (h' : p'.Learns (p.forget.learn memory access).2 (seen + 1)) :
    ∃ index entry, p.index (blockAddress p.lineBytes access.addr) pc = .ok index ∧
      p'.entry? index access.secure = .ok (some entry) ∧
      (p.forget.learn memory access).2.find? (index, access.secure) = some entry := by
  have hindex := h.blank.index_eq (blockAddress p.lineBytes access.addr) pc
  have hkey : p.forget.key? access =
      some (p.forget.index (blockAddress p.lineBytes access.addr) pc, access.secure) := by
    rw [Memoryless.key?, hpc]
    rfl
  rcases p.forget.learn_visits memory access with ⟨hnone, -⟩ | ⟨key, entry, hsome, hlearn⟩
  · cases hnone.symm.trans hkey
  · obtain rfl := Option.some.inj (hsome.symm.trans hkey)
    have hfound := RecencyMap.find?_renew_self memory
      (p.forget.index (blockAddress p.lineBytes access.addr) pc, access.secure) entry
    rw [← hlearn] at hfound
    exact ⟨_, entry, hindex, by rw [h'.entry?_eq, hfound], hfound⟩

/-- An access keeps the contract. -/
theorem Taught.contract (h : p.Taught settings memory seen) (hnarrow : p.forget.Narrow memory)
    (hline : p.lineBytes = lineBytes) (hbits : p.signatureBits = settings.signatureBits.toNat)
    (hdrop : ∀ (cache : τ) (block : UInt64) (secure : Bool),
      (BlockInvalidator.dropDead cache block secure).isOk) (access : Access) (cache : τ) :
    Delivers (p.observe access cache) (Exhausted (seen + 1)) fun result =>
      p.Contract lineBytes settings access cache result.1 result.2.1 result.2.2 := by
  refine (h.learns.observe_spec hdrop access cache).self.mono (fun _ hfault => hfault) ?_
  rintro ⟨targets, p', cache'⟩ ⟨hp', htargets, -, h'⟩
  have hobserved := observed_of_eq_ok hp'
  have hdropped := h.learns.dropped htargets hobserved
  rw [hline] at hdropped
  refine ⟨fun hpc => ?_, hobserved.counted, hdropped, fun pc hpc => ?_⟩
  · cases hobserved with
    | ignored anonymous => exact ⟨rfl, rfl, rfl⟩
    | enrolled named | spared named | dead named => cases named.symm.trans hpc
  · obtain ⟨index, entry, hindex, hentry, hfound⟩ := h.learns.known hpc h'
    have hmax := (h.learned.learn h.scaled.max_initial access).max_eq _ entry hfound
    have hsignature := hnarrow.learn h.learned.kept access _ entry hfound
    rw [hline] at hindex
    refine ⟨index, entry, hindex, hentry, ?_, ?_⟩
    · exact hmax ▸ entry.confidence.value_le
    · exact hbits ▸ hsignature

end

/-! ## Whole runs -/

theorem new_signatureBits (h : Dbcp.new lineBytes settings = .ok p) :
    p.signatureBits = settings.signatureBits.toNat := by
  obtain ⟨confidence, policy, table, -, -, -, -, -, rfl⟩ := new_eq_ok_iff.1 h
  rfl

section

variable {q : Dbcp} {cache between : τ} {accesses : List Access} {answers : List (List UInt64)}

/-- Behind a prefetcher, one cache is as good as another. -/
theorem watchAll_with_other {τ' : Type} [BlockInvalidator τ']
    (hrun : watchAll Dbcp.observe p cache accesses = .ok (answers, q, between)) (other : τ')
    (hother : ∀ (other : τ') (block : UInt64) (secure : Bool),
      (BlockInvalidator.dropDead other block secure).isOk) :
    ∃ other', watchAll Dbcp.observe p other accesses = .ok (answers, q, other') := by
  refine watchAll_history (motive := fun done answers q _ =>
    ∃ other', watchAll Dbcp.observe p other done = .ok (answers, q, other')) ⟨other, rfl⟩ ?_ hrun
  rintro done answers q q' access between after targets ⟨other', hdone⟩ hstep
  obtain ⟨other'', hobserved⟩ := (observed_of_eq_ok hstep).with_other other' (hother other')
  exact ⟨other'', watchAll_append_singleton_iff.2
    ⟨answers, q, other', targets, hdone, hobserved.eq_ok, rfl⟩⟩

/-- After any run of a new prefetcher, the next access keeps the contract. -/
theorem contract_of_watchAll (hnew : Dbcp.new lineBytes settings = .ok p)
    (hdrop : ∀ (cache : τ) (block : UInt64) (secure : Bool),
      (BlockInvalidator.dropDead cache block secure).isOk)
    (hrun : watchAll Dbcp.observe p cache accesses = .ok (answers, q, between))
    (access : Access) :
    Delivers (q.observe access between) (Exhausted (accesses.length + 1)) fun result =>
      q.Contract lineBytes settings access between result.1 result.2.1 result.2.2 := by
  have hlearns := new_learns hnew
  have hnarrow := (p.forget.narrow_empty _ _ _).learnAll ⟨_, hlearns.represents⟩ accesses
  obtain ⟨-, ⟨table, statistics, hrules⟩, -⟩ :=
    (hlearns.watchAll_spec hdrop cache accesses).of_ok hrun
  have hbytes : q.lineBytes = p.lineBytes := congrArg Memoryless.lineBytes hrules
  have hbits : q.signatureBits = p.signatureBits := congrArg Memoryless.signatureBits hrules
  refine (taught_of_watchAll hnew hdrop hrun).contract ?_ (hbytes.trans (new_sound hnew).2)
    (hbits.trans (new_signatureBits hnew)) hdrop access between
  rw [hrules]
  exact hnarrow

end

/-- **The contract of the dead-block prefetcher.** After any run of a new prefetcher, whatever the
cache behind it replies, hits and misses add up to the accesses with a program counter, and deaths
to the blocks that have been asked for; these are not more than the matches, and matches and
overwrites together not more than the hits. With any other cache behind it the prefetcher would have
answered alike and be in the same state. Whatever comes next: without a program counter nothing
happens; with one, either a hit or a miss is counted, and the table knows the context afterwards, by
an entry that keeps to its widths. Just if the block behind the accessed one is asked for, the
accessed one is dropped, in its domain and once; else nothing is asked for, and the cache is not
touched. -/
theorem watch_accounts (hnew : Dbcp.new lineBytes settings = .ok p)
    (hdrop : ∀ (cache : τ) (block : UInt64) (secure : Bool),
      (BlockInvalidator.dropDead cache block secure).isOk) (cache : τ) (accesses : List Access) :
    Delivers (watchAll Dbcp.observe p cache accesses) (Exhausted accesses.length) fun result =>
      result.2.1.statistics.Tally accesses result.1 ∧
      (∀ {τ' : Type} [BlockInvalidator τ'] (other : τ'),
        (∀ (other : τ') (block : UInt64) (secure : Bool),
          (BlockInvalidator.dropDead other block secure).isOk) →
        ∃ other', watchAll Dbcp.observe p other accesses = .ok (result.1, result.2.1, other')) ∧
      ∀ access, Delivers (result.2.1.observe access result.2.2) (Exhausted (accesses.length + 1))
        fun after => result.2.1.Contract lineBytes settings access result.2.2 after.1 after.2.1
          after.2.2 := by
  refine ((new_sound hnew).1.watchAll_spec hdrop cache accesses).self.mono (fun _ => ?_) ?_
  · rw [Nat.zero_add]
    exact id
  · rintro ⟨answers, q, between⟩ ⟨hrun, -⟩
    refine ⟨?_, fun other => watchAll_with_other hrun other, contract_of_watchAll hnew hdrop hrun⟩
    exact watchAll_history (motive := fun done answers p _ => p.statistics.Tally done answers)
      (new_tally hnew) (fun ht hstep => (observed_of_eq_ok hstep).tally ht) hrun

/-- The last block of the address space is found dead at the third access, by a prefetcher with a
log behind it as by one with nothing. So it is at the fourth, which drops it once more and asks for
the first block. -/
theorem watch_accounts_fourth_access :
    ∃ p q q', Dbcp.new 64 .hasty = .ok p ∧
      watchAll Dbcp.observe p (DropLog.mk [])
        (List.replicate 3 ⟨0xffffffffffffffff, some 5, true⟩) =
          .ok ([[], [], [0]], q, ⟨[(0xffffffffffffffc0, true)]⟩) ∧
      q.statistics.Tally (List.replicate 3 ⟨0xffffffffffffffff, some 5, true⟩) [[], [], [0]] ∧
      (∃ nothing, watchAll Dbcp.observe p ()
        (List.replicate 3 ⟨0xffffffffffffffff, some 5, true⟩) = .ok ([[], [], [0]], q, nothing)) ∧
      q.Contract 64 .hasty ⟨0xffffffffffffffff, some 5, true⟩ ⟨[(0xffffffffffffffc0, true)]⟩ [0] q'
        (DropLog.mk [(0xffffffffffffffc0, true), (0xffffffffffffffc0, true)]) := by
  have hdelivers := watch_accounts (show Dbcp.new 64 .hasty = .ok _ from rfl) (fun _ _ _ => rfl)
    (DropLog.mk []) (List.replicate 3 ⟨0xffffffffffffffff, some 5, true⟩)
  obtain ⟨htally, hother, hnext⟩ := hdelivers.of_ok rfl
  exact ⟨_, _, _, rfl, rfl, htally, hother () fun _ _ _ => rfl,
    (hnext ⟨0xffffffffffffffff, some 5, true⟩).of_ok rfl⟩

end Dbcp

end Residency
