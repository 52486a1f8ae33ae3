import Residency.Proofs.Prefetch.Memoryless
import Residency.Proofs.TaggedTable.Shelter

/-!
# What the dead-block prefetcher learns

Without its history the prefetcher is a rule and a table. An access with a program counter looks one
key up and computes one signature. It trains the entry of the key, or opens one, and leaves it in
front of its set. The table is a recency map, so the answers to a run are those that the rule and
the map give.
-/

namespace Residency

namespace Memoryless

/-! ## The rule -/

/-- What an access looks up: the block with the low bits of the program counter folded in, and the
security domain. -/
def key? (m : Memoryless) (access : Access) : Option TableKey :=
  access.pc.map fun pc => (m.index (blockAddress m.lineBytes access.addr) pc, access.secure)

/-- The signature that an access computes. -/
def signature? (m : Memoryless) (access : Access) : Option UInt64 :=
  access.pc.map fun pc => m.signature (blockAddress m.lineBytes access.addr) pc

/-- The block behind the accessed one. -/
def successor (m : Memoryless) (access : Access) : UInt64 :=
  blockAddress m.lineBytes access.addr + m.lineBytes

/-- Whether an access is predicted to be the last use of its block, by what its key is bound to, and
what the key is bound to afterwards. -/
def meet (m : Memoryless) (successor signature : UInt64) :
    Option DeadBlockEntry → Bool × DeadBlockEntry
  | none => (false, .blank m.initialConfidence)
  | some entry =>
    let trained := entry.train signature m.threshold
    let dead := entry.expects signature && !trained.doubts m.threshold
    (dead, if dead then { trained with prediction := successor } else trained)

/-- The answer to an access, and what is bound afterwards. -/
def learn (m : Memoryless) (memory : RecencyMap DeadBlockEntry) (access : Access) :
    List UInt64 × RecencyMap DeadBlockEntry :=
  match m.key? access, m.signature? access with
  | some key, some signature =>
    let (dead, entry) := m.meet (m.successor access) signature (memory.find? key)
    (if dead then [m.successor access] else [], (memory.visit (.renew key entry)).2)
  | _, _ => ([], memory)

/-- The answers to some accesses in order, and what is bound afterwards. -/
def learnAll (m : Memoryless) (memory : RecencyMap DeadBlockEntry) :
    List Access → List (List UInt64) × RecencyMap DeadBlockEntry
  | [] => ([], memory)
  | access :: rest =>
    let (targets, memory) := m.learn memory access
    let (more, memory) := m.learnAll memory rest
    (targets :: more, memory)

/-! ## One access -/

section

variable {m : Memoryless} {memory : RecencyMap DeadBlockEntry} {key : TableKey} {access : Access}
  {signature : UInt64} {entry : DeadBlockEntry}

theorem learn_of_some (hkey : m.key? access = some key)
    (hsignature : m.signature? access = some signature) :
    m.learn memory access =
      (if (m.meet (m.successor access) signature (memory.find? key)).1 then [m.successor access]
        else [],
      (memory.visit (.renew key
        (m.meet (m.successor access) signature (memory.find? key)).2)).2) := by
  rw [learn, hkey, hsignature]

/-- An access has no program counter and teaches nothing, or it has a key and a signature. -/
theorem learn_cases (m : Memoryless) (memory : RecencyMap DeadBlockEntry) (access : Access) :
    (m.key? access = none ∧ m.learn memory access = ([], memory)) ∨
      ∃ key signature, m.key? access = some key ∧ m.signature? access = some signature := by
  rw [learn, key?, signature?]
  cases access.pc with
  | none => exact .inl ⟨rfl, rfl⟩
  | some pc => exact .inr ⟨_, _, rfl, rfl⟩

/-- An access leaves the map, or puts the entry of its key in front. -/
theorem learn_visits (m : Memoryless) (memory : RecencyMap DeadBlockEntry) (access : Access) :
    (m.key? access = none ∧ (m.learn memory access).2 = memory) ∨
      ∃ key entry, m.key? access = some key ∧
        (m.learn memory access).2 = (memory.visit (.renew key entry)).2 := by
  rcases m.learn_cases memory access with ⟨hkey, hlearn⟩ | ⟨key, signature, hkey, hsignature⟩
  · exact .inl ⟨hkey, by rw [hlearn]⟩
  · exact .inr ⟨key, _, hkey, by rw [learn_of_some hkey hsignature]⟩

theorem shape_learn (m : Memoryless) (memory : RecencyMap DeadBlockEntry) (access : Access) :
    (m.learn memory access).2.shape = memory.shape := by
  rcases m.learn_visits memory access with ⟨-, hlearn⟩ | ⟨key, entry, -, hlearn⟩
  · rw [hlearn]
  · rw [hlearn, RecencyMap.shape_visit]

theorem kept_learn (h : memory.Kept) (access : Access) : (m.learn memory access).2.Kept := by
  rcases m.learn_visits memory access with ⟨-, hlearn⟩ | ⟨key, entry, -, hlearn⟩
  · rw [hlearn]
    exact h
  · rw [hlearn]
    exact h.visit _

/-- What a key is bound to after an access was there before, or comes from the access. -/
theorem find?_learn_cases (h : memory.Kept)
    (hentry : (m.learn memory access).2.find? key = some entry) :
    memory.find? key = some entry ∨ ∃ signature, m.key? access = some key ∧
      m.signature? access = some signature ∧
      entry = (m.meet (m.successor access) signature (memory.find? key)).2 := by
  rcases m.learn_cases memory access with ⟨-, hlearn⟩ | ⟨other, signature, hkey, hsignature⟩
  · rw [hlearn] at hentry
    exact .inl hentry
  · rw [learn_of_some hkey hsignature] at hentry
    by_cases heq : key = other
    · subst heq
      rw [RecencyMap.find?_renew_self] at hentry
      exact .inr ⟨signature, hkey, hsignature, (Option.some.inj hentry).symm⟩
    · rw [h.find?_renew_of_ne heq] at hentry
      split at hentry
      · cases hentry
      · exact .inl hentry

/-- An entry keeps its signature, or takes over that of the access and is doubted. -/
theorem signature_meet (m : Memoryless) (successor signature : UInt64) (entry : DeadBlockEntry) :
    (m.meet successor signature (some entry)).2.signature = entry.signature ∨
      ((m.meet successor signature (some entry)).2.signature = signature ∧
        (m.meet successor signature (some entry)).2.doubts m.threshold = true) := by
  have htrain : (entry.train signature m.threshold).signature = entry.signature ∨
      ((entry.train signature m.threshold).signature = signature ∧
        (entry.train signature m.threshold).doubts m.threshold = true) := by
    rw [DeadBlockEntry.train]
    dsimp only
    split_ifs with hexpects hdoubts
    · exact .inl rfl
    · exact .inr ⟨rfl, hdoubts⟩
    · exact .inl rfl
  rw [meet]
  dsimp only
  split_ifs <;> exact htrain

/-- An access that is predicted dead finds an entry with its signature, which is not zero. -/
theorem learn_dead (hdead : (m.learn memory access).1 ≠ []) :
    ∃ key signature entry, m.key? access = some key ∧ m.signature? access = some signature ∧
      signature ≠ 0 ∧ memory.find? key = some entry ∧ entry.signature = signature := by
  rcases m.learn_cases memory access with ⟨-, hlearn⟩ | ⟨key, signature, hkey, hsignature⟩
  · rw [hlearn] at hdead
    exact absurd rfl hdead
  · rw [learn_of_some hkey hsignature] at hdead
    have hmeet : (m.meet (m.successor access) signature (memory.find? key)).1 = true := by
      by_contra hlive
      exact hdead (if_neg hlive)
    cases hfound : memory.find? key with
    | none =>
      rw [hfound] at hmeet
      cases hmeet
    | some entry =>
      rw [hfound, meet, Bool.and_eq_true] at hmeet
      obtain ⟨hexpects, -⟩ := hmeet
      rw [DeadBlockEntry.expects, Bool.and_eq_true, beq_iff_eq, bne_iff_ne] at hexpects
      obtain ⟨rfl, hne⟩ := hexpects
      exact ⟨key, entry.signature, entry, hkey, hsignature, hne, hfound, rfl⟩

/-! ## Places in a run -/

/-- What is bound after the first `n` accesses. -/
def memoryAt (m : Memoryless) (memory : RecencyMap DeadBlockEntry) (accesses : List Access)
    (n : Nat) : RecencyMap DeadBlockEntry :=
  (m.learnAll memory (accesses.take n)).2

theorem memoryAt_succ {accesses : List Access} {n : Nat} (haccess : accesses[n]? = some access) :
    m.memoryAt memory accesses (n + 1) = (m.learn (m.memoryAt memory accesses n) access).2 := by
  induction accesses generalizing memory n with
  | nil => cases haccess
  | cons first rest ih =>
    cases n with
    | zero =>
      obtain rfl := Option.some.inj haccess
      rfl
    | succ n => exact ih haccess

theorem getElem?_learnAll {accesses : List Access} {n : Nat}
    (haccess : accesses[n]? = some access) :
    (m.learnAll memory accesses).1[n]? =
      some (m.learn (m.memoryAt memory accesses n) access).1 := by
  induction accesses generalizing memory n with
  | nil => cases haccess
  | cons first rest ih =>
    cases n with
    | zero =>
      obtain rfl := Option.some.inj haccess
      rfl
    | succ n => exact ih haccess

end

/-! ## The table -/

variable {rules m : Memoryless} {memory : RecencyMap DeadBlockEntry} {seen : Nat} {key : TableKey}

/-- The prefetcher keeps to its rule, and its table keeps the map. -/
structure Models (rules : Memoryless) (memory : RecencyMap DeadBlockEntry) (seen : Nat)
    (m : Memoryless) : Prop where
  rules_eq : ∃ table statistics, m = { rules with table, statistics }
  represents : m.table.Represents memory
  below : m.statistics.Below seen

theorem withStatistics_spec (m : Memoryless) {s : DbcpStatistics} {bound : Nat}
    (h : s.Below bound) :
    Delivers (m.withStatistics s) (Exhausted bound) (· = { m with statistics := s }) :=
  h.require_fits.bind fun _ _ => rfl

namespace Models

theorem enroll_spec (h : Models rules memory seen m) (hnone : memory.find? key = none) :
    Delivers (m.enroll key.1 key.2) (Exhausted (seen + 1))
      (Models rules (memory.visit (.renew key (.blank rules.initialConfidence))).2 (seen + 1)) := by
  obtain ⟨⟨table, statistics, rfl⟩, hrepresents, hbelow⟩ := h
  refine (withStatistics_spec _ hbelow.enroll).bind ?_
  rintro _ rfl
  obtain ⟨table', htable, hrepresents'⟩ :=
    hrepresents.install_spec hnone (.blank rules.initialConfidence)
  obtain ⟨⟨id, room⟩, hroom, hput⟩ := bind_eq_ok_iff.1 htable
  dsimp only at hroom hput ⊢
  rw [hroom, ok_bind]
  dsimp only
  rw [hput, ok_bind, RecencyMap.visit, Visit.renew, hnone]
  exact ⟨⟨table', _, rfl⟩, hrepresents', hbelow.enroll⟩

theorem train_spec (h : Models rules memory seen m) {id : LineId} {entry : DeadBlockEntry}
    (hbinding : m.table.binding? id = some (key, entry)) (block signature : UInt64) :
    Delivers (m.train block signature id) (Exhausted (seen + 1)) fun result =>
      result.1 = (rules.meet (block + rules.lineBytes) signature (some entry)).1 ∧
        Models rules (memory.visit (.renew key
          (rules.meet (block + rules.lineBytes) signature (some entry)).2)).2 (seen + 1)
          result.2 := by
  obtain ⟨⟨table, statistics, rfl⟩, hrepresents, hbelow⟩ := h
  have hfound : memory.find? key = some entry := hrepresents.find?_eq_some_iff.2 ⟨id, hbinding⟩
  obtain ⟨used, hused, hrepresents₁, hbinding₁⟩ := hrepresents.use_spec hbinding
  dsimp only at hused
  rw [train, hused, ok_bind, TaggedTable.entry_of_binding hbinding₁, ok_bind]
  refine (withStatistics_spec _ (hbelow.train _ _ _)).bind ?_
  rintro _ rfl
  obtain ⟨written, hwritten, hrepresents₂, -⟩ := hrepresents₁.setEntry_spec hbinding₁
    (rules.meet (block + rules.lineBytes) signature (some entry)).2
  have hwritten' : used.setEntry id _ = .ok written := hwritten
  rw [meet] at hwritten'
  dsimp only at hwritten' ⊢
  rw [hwritten', ok_bind, RecencyMap.visit, Visit.renew, hfound]
  exact ⟨rfl, ⟨written, _, rfl⟩, hrepresents₂, hbelow.train _ _ _⟩

theorem mono (h : Models rules memory seen m) : Models rules memory (seen + 1) m := by
  obtain ⟨h₁, h₂, h₃, h₄, h₅⟩ := h.below
  refine ⟨h.rules_eq, h.represents, ?_⟩
  constructor <;> omega

section

variable {τ : Type} [BlockInvalidator τ]

/-- An access is answered by the rule and the map. -/
theorem observe_spec (h : Models rules memory seen m) (hline : rules.lineBytes ≠ 0)
    (hdrop : ∀ (cache : τ) (block : UInt64) (secure : Bool),
      (BlockInvalidator.dropDead cache block secure).isOk) (access : Access) (cache : τ) :
    Delivers (m.observe access cache) (Exhausted (seen + 1)) fun result =>
      result.1 = (rules.learn memory access).1 ∧
        Models rules (rules.learn memory access).2 (seen + 1) result.2.1 := by
  obtain ⟨table, statistics, hm⟩ := h.rules_eq
  have hindex : m.index = rules.index := by rw [hm]; rfl
  have hsignature : m.signature = rules.signature := by rw [hm]; rfl
  have hbytes : m.lineBytes = rules.lineBytes := by rw [hm]
  rw [observe, learn, key?, signature?]
  cases access.pc with
  | none => exact ⟨rfl, h.mono⟩
  | some pc =>
    dsimp only [Option.map_some]
    rw [hbytes, Access.block_eq_ok hline, ok_bind, hindex, hsignature]
    cases hfound : memory.find? (rules.index (blockAddress rules.lineBytes access.addr) pc,
        access.secure) with
    | none =>
      have hnot : m.table.find? _ _ = .ok none := h.represents.find?_of_none hfound
      rw [hnot, ok_bind]
      refine (h.enroll_spec hfound).bind fun m' hm' => ?_
      exact ⟨rfl, hm'⟩
    | some entry =>
      obtain ⟨id, hbinding⟩ := h.represents.find?_eq_some_iff.1 hfound
      have hslot : m.table.find? _ _ = .ok (some id) := h.represents.find?_of_binding hbinding
      rw [hslot, ok_bind]
      refine (h.train_spec hbinding (blockAddress rules.lineBytes access.addr) _).bind ?_
      rintro ⟨dead, m'⟩ ⟨hdead, hm'⟩
      dsimp only at hdead hm' ⊢
      cases dead with
      | false => exact ⟨by rw [successor, ← hdead]; rfl, hm'⟩
      | true =>
        obtain ⟨table', statistics', rfl⟩ := hm'.rules_eq
        rw [if_pos rfl]
        refine (Delivers.trivial_of_isOk (hdrop cache _ _)).bind fun dropped _ => ?_
        exact ⟨by rw [successor, ← hdead]; rfl, hm'⟩

theorem watchAll_spec (h : Models rules memory seen m) (hline : rules.lineBytes ≠ 0)
    (hdrop : ∀ (cache : τ) (block : UInt64) (secure : Bool),
      (BlockInvalidator.dropDead cache block secure).isOk) (accesses : List Access) (cache : τ) :
    Delivers (watchAll observe m cache accesses) (Exhausted (seen + accesses.length)) fun result =>
      result.1 = (rules.learnAll memory accesses).1 ∧
        Models rules (rules.learnAll memory accesses).2 (seen + accesses.length) result.2.1 := by
  induction accesses generalizing m memory seen cache with
  | nil => exact ⟨rfl, h⟩
  | cons access rest ih =>
    have hlength : seen + (access :: rest).length = seen + 1 + rest.length := by
      rw [List.length_cons]
      omega
    rw [watchAll, hlength]
    refine ((h.observe_spec hline hdrop access cache).mono (fun _ => Exhausted.mono (by omega))
      fun _ hstep => hstep).bind ?_
    rintro ⟨targets, m', cache'⟩ ⟨rfl, hm'⟩
    refine (ih hm' cache').bind ?_
    rintro ⟨more, m'', cache''⟩ ⟨rfl, hm''⟩
    exact ⟨rfl, hm''⟩

end

end Models

end Memoryless

/-! ## The prefetcher with its history -/

namespace Dbcp

variable {p : Dbcp} {memory : RecencyMap DeadBlockEntry} {seen : Nat}

/-- All histories are empty, and the table keeps the map. -/
structure Learns (p : Dbcp) (memory : RecencyMap DeadBlockEntry) (seen : Nat) : Prop where
  blank : p.Blank
  lineBytes_ne : p.lineBytes ≠ 0
  represents : p.table.Represents memory
  below : p.statistics.Below seen

theorem Learns.models (h : p.Learns memory seen) :
    Memoryless.Models p.forget memory seen p.forget :=
  ⟨⟨p.table, p.statistics, rfl⟩, h.represents, h.below⟩

theorem Learns.entry?_eq (h : p.Learns memory seen) (index : UInt64) (secure : Bool) :
    p.entry? index secure = .ok (memory.find? (index, secure)) := by
  unfold entry?
  cases hfound : memory.find? (index, secure) with
  | none =>
    have hnot : p.table.find? index secure = .ok none := h.represents.find?_of_none hfound
    rw [hnot]
    rfl
  | some entry =>
    obtain ⟨id, hbinding⟩ := h.represents.find?_eq_some_iff.1 hfound
    have hslot : p.table.find? index secure = .ok (some id) :=
      h.represents.find?_of_binding hbinding
    rw [hslot, ok_bind]
    dsimp only
    rw [TaggedTable.entry_of_binding hbinding]
    rfl

theorem new_learns {lineBytes : UInt64} {settings : DbcpSettings}
    (h : Dbcp.new lineBytes settings = .ok p) :
    p.Learns (.empty (settings.tableEntries.toNat / settings.tableAssoc.toNat)
      settings.tableAssoc.toNat p.table.setOf) 0 := by
  have hsound := (new_sound h).1
  have hblank := new_blank h
  obtain ⟨confidence, policy, table, -, -, -, hpolicy, htable, rfl⟩ := new_eq_ok_iff.1 h
  exact ⟨hblank, hsound.lineBytes_ne, TaggedTable.new_represents hpolicy htable, hsound.below⟩

/-- The context of an access has the key and the signature of the rule. -/
theorem Learns.context_spec (h : p.Learns memory seen) {access : Access} {pc : UInt64}
    (hpc : access.pc = some pc) :
    ∃ c, p.context access pc = .ok c ∧ c.block = blockAddress p.lineBytes access.addr ∧
      c.secure = access.secure ∧ p.forget.key? access = some (c.index, c.secure) ∧
      p.forget.signature? access = some c.signature := by
  rw [h.blank.context_eq, Access.block_eq_ok h.lineBytes_ne, ok_bind, Memoryless.key?,
    Memoryless.signature?, hpc]
  exact ⟨_, rfl, rfl, rfl, rfl, rfl⟩

/-- What keeps to the rule without its history, and has none that matters, has learned. -/
theorem Learns.of_models {memory' : RecencyMap DeadBlockEntry} {seen' : Nat} {p' : Dbcp}
    (h : p.Learns memory seen) (hblank : p'.Blank)
    (hmodels : Memoryless.Models p.forget memory' seen' p'.forget) :
    (∃ table statistics, p'.forget = { p.forget with table, statistics }) ∧
      p'.Learns memory' seen' := by
  obtain ⟨table, statistics, hrules⟩ := hmodels.rules_eq
  have hbytes : p'.lineBytes = p.lineBytes := congrArg Memoryless.lineBytes hrules
  refine ⟨⟨table, statistics, hrules⟩, hblank, ?_, hmodels.represents, hmodels.below⟩
  rw [hbytes]
  exact h.lineBytes_ne

section

variable {τ : Type} [BlockInvalidator τ]

/-- An access is answered by the rule and the map. The prefetcher keeps to its rule, and keeps what
it has learned. -/
theorem Learns.observe_spec (h : p.Learns memory seen)
    (hdrop : ∀ (cache : τ) (block : UInt64) (secure : Bool),
      (BlockInvalidator.dropDead cache block secure).isOk) (access : Access) (cache : τ) :
    Delivers (p.observe access cache) (Exhausted (seen + 1)) fun result =>
      result.1 = (p.forget.learn memory access).1 ∧
        (∃ table statistics, result.2.1.forget = { p.forget with table, statistics }) ∧
        result.2.1.Learns (p.forget.learn memory access).2 (seen + 1) := by
  have hstep := h.models.observe_spec h.lineBytes_ne hdrop access cache
  rw [← h.blank.observe_forget] at hstep
  refine hstep.of_map.self.mono (fun _ hfault => hfault) ?_
  rintro ⟨targets, p', cache'⟩ ⟨hp', htargets, hmodels⟩
  exact ⟨htargets, h.of_models (h.blank.observe hp') hmodels⟩

theorem Learns.watchAll_spec (h : p.Learns memory seen)
    (hdrop : ∀ (cache : τ) (block : UInt64) (secure : Bool),
      (BlockInvalidator.dropDead cache block secure).isOk) (cache : τ) (accesses : List Access) :
    Delivers (watchAll Dbcp.observe p cache accesses) (Exhausted (seen + accesses.length))
      fun result => result.1 = (p.forget.learnAll memory accesses).1 ∧
        (∃ table statistics, result.2.1.forget = { p.forget with table, statistics }) ∧
        result.2.1.Learns (p.forget.learnAll memory accesses).2 (seen + accesses.length) := by
  have hforget := watchAll_map Blank.observe Blank.observe_forget h.blank cache accesses
  have hrun := h.models.watchAll_spec h.lineBytes_ne hdrop accesses cache
  rw [← hforget] at hrun
  refine hrun.of_map.self.mono (fun _ hfault => hfault) ?_
  rintro ⟨answers, p', cache'⟩ ⟨hp', hanswers, hmodels⟩
  exact ⟨hanswers, h.of_models (watchAll_keeps Blank.observe h.blank hp') hmodels⟩

end

end Dbcp

end Residency
