import Residency.Proofs.Prefetch.Learning

/-!
# Where the signature of an entry comes from

A bound key has been opened by an access to it, and has been bound ever since. Its entry expects
nothing at first. A signature that it expects has been written by a later access to the key, which
computed that signature and left the confidence below the threshold. So whatever is predicted dead
has been trained, in the present life of its entry.
-/

namespace Residency

namespace Memoryless

variable {m : Memoryless} {memory : RecencyMap DeadBlockEntry} {accesses : List Access}
  {access : Access} {key : TableKey} {signature : UInt64} {i j n : Nat}

/-- An access has opened an entry for its key, which has been bound ever since. -/
structure Opened (m : Memoryless) (memory : RecencyMap DeadBlockEntry) (accesses : List Access)
    (key : TableKey) (i n : Nat) : Prop where
  lt : i < n
  by_access : ∃ access, accesses[i]? = some access ∧ m.key? access = some key
  unbound : (m.memoryAt memory accesses i).find? key = none
  bound : ∀ k, i < k → k ≤ n → (m.memoryAt memory accesses k).find? key ≠ none

/-- An access has written its signature into the entry of its key, and left it doubted. -/
structure Written (m : Memoryless) (memory : RecencyMap DeadBlockEntry) (accesses : List Access)
    (key : TableKey) (signature : UInt64) (j n : Nat) : Prop where
  lt : j < n
  by_access : ∃ access, accesses[j]? = some access ∧ m.key? access = some key ∧
    m.signature? access = some signature
  doubted : ∃ entry, (m.memoryAt memory accesses (j + 1)).find? key = some entry ∧
    entry.signature = signature ∧ entry.doubts m.threshold = true

/-- Every bound key has been opened, and the signature that it expects has been written since. -/
def Traced (m : Memoryless) (memory : RecencyMap DeadBlockEntry) (accesses : List Access)
    (n : Nat) : Prop :=
  ∀ key entry, (m.memoryAt memory accesses n).find? key = some entry →
    ∃ i, m.Opened memory accesses key i n ∧
      (entry.signature ≠ 0 → ∃ j, i < j ∧ m.Written memory accesses key entry.signature j n)

theorem Opened.succ (h : m.Opened memory accesses key i n)
    (hbound : (m.memoryAt memory accesses (n + 1)).find? key ≠ none) :
    m.Opened memory accesses key i (n + 1) := by
  refine ⟨Nat.lt_succ_of_lt h.lt, h.by_access, h.unbound, fun k hlt hle => ?_⟩
  rcases Nat.lt_or_eq_of_le hle with hless | rfl
  · exact h.bound k hlt (Nat.le_of_lt_succ hless)
  · exact hbound

theorem Written.succ (h : m.Written memory accesses key signature j n) :
    m.Written memory accesses key signature j (n + 1) :=
  ⟨Nat.lt_succ_of_lt h.lt, h.by_access, h.doubted⟩

theorem opened_self (haccess : accesses[n]? = some access) (hkey : m.key? access = some key)
    (hunbound : (m.memoryAt memory accesses n).find? key = none)
    (hbound : (m.memoryAt memory accesses (n + 1)).find? key ≠ none) :
    m.Opened memory accesses key n (n + 1) := by
  refine ⟨Nat.lt_succ_self n, ⟨access, haccess, hkey⟩, hunbound, fun k hlt hle => ?_⟩
  obtain rfl : k = n + 1 := Nat.le_antisymm hle hlt
  exact hbound

theorem Traced.succ (h : m.Traced memory accesses n)
    (hkept : (m.memoryAt memory accesses n).Kept) (haccess : accesses[n]? = some access) :
    m.Traced memory accesses (n + 1) := by
  intro key entry hentry
  have hbound : (m.memoryAt memory accesses (n + 1)).find? key ≠ none := by simp [hentry]
  have hlearned := hentry
  rw [memoryAt_succ haccess] at hlearned
  rcases find?_learn_cases hkept hlearned with hold | ⟨signature, hkey, hsignature, hmeet⟩
  · obtain ⟨i, hopened, hwritten⟩ := h key entry hold
    refine ⟨i, hopened.succ hbound, fun hne => ?_⟩
    obtain ⟨j, hlt, hj⟩ := hwritten hne
    exact ⟨j, hlt, hj.succ⟩
  · cases hfound : (m.memoryAt memory accesses n).find? key with
    | none =>
      refine ⟨n, opened_self haccess hkey hfound hbound, fun hne => ?_⟩
      rw [hmeet, hfound] at hne
      exact absurd rfl hne
    | some old =>
      obtain ⟨i, hopened, hwritten⟩ := h key old hfound
      refine ⟨i, hopened.succ hbound, fun hne => ?_⟩
      have hsource := m.signature_meet (m.successor access) signature old
      rw [← hfound, ← hmeet] at hsource
      rcases hsource with hkeep | ⟨htake, hdoubts⟩
      · rw [hkeep] at hne ⊢
        obtain ⟨j, hlt, hj⟩ := hwritten hne
        exact ⟨j, hlt, hj.succ⟩
      · rw [htake]
        exact ⟨n, hopened.lt, Nat.lt_succ_self n, ⟨access, haccess, hkey, hsignature⟩,
          entry, hentry, htake, hdoubts⟩

theorem kept_memoryAt (h : memory.Kept) (hn : n ≤ accesses.length) :
    (m.memoryAt memory accesses n).Kept := by
  induction n with
  | zero => exact h
  | succ n ih =>
    rw [memoryAt_succ (List.getElem?_eq_getElem hn)]
    exact kept_learn (ih (Nat.le_of_succ_le hn)) _

/-- From when nothing is bound, everything is traced. -/
theorem traced (hkept : memory.Kept) (hnothing : ∀ key, memory.find? key = none)
    (hn : n ≤ accesses.length) : m.Traced memory accesses n := by
  induction n with
  | zero =>
    intro key entry hentry
    cases (hnothing key).symm.trans hentry
  | succ n ih =>
    have hlt := Nat.le_of_succ_le hn
    exact (ih hlt).succ (kept_memoryAt hkept hlt) (List.getElem?_eq_getElem hn)

/-- Whatever is predicted dead has been trained since its key was opened. -/
theorem exists_written (hkept : memory.Kept) (hnothing : ∀ key, memory.find? key = none)
    (haccess : accesses[n]? = some access) {targets : List UInt64}
    (hanswer : (m.learnAll memory accesses).1[n]? = some targets) (hdead : targets ≠ []) :
    ∃ key signature i j, m.key? access = some key ∧ m.signature? access = some signature ∧
      signature ≠ 0 ∧ i < j ∧ m.Opened memory accesses key i n ∧
        m.Written memory accesses key signature j n := by
  obtain rfl := Option.some.inj ((getElem?_learnAll haccess).symm.trans hanswer)
  obtain ⟨key, signature, entry, hkey, hsignature, hne, hfound, rfl⟩ := learn_dead hdead
  have hn : n ≤ accesses.length := (List.getElem?_eq_some_iff.1 haccess).1.le
  obtain ⟨i, hopened, hwritten⟩ := traced hkept hnothing hn key entry hfound
  obtain ⟨j, hlt, hj⟩ := hwritten hne
  exact ⟨key, entry.signature, i, j, hkey, hsignature, hne, hlt, hopened, hj⟩

end Memoryless

namespace Dbcp

variable {p p' : Dbcp} {lineBytes : UInt64} {settings : DbcpSettings}
  {memory : RecencyMap DeadBlockEntry} {seen i j n : Nat} {τ : Type} [BlockInvalidator τ]
  {cache cache' : τ} {accesses : List Access} {access : Access} {answers : List (List UInt64)}

/-! ## Places in a run -/

/-- The state after the first `n` accesses. -/
def stateAt (p : Dbcp) (cache : τ) (accesses : List Access) (n : Nat) : Checked Dbcp := do
  let (_, q, _) ← watchAll Dbcp.observe p cache (accesses.take n)
  return q

/-- The context of the `n`-th access, if it is one with a program counter. -/
def contextAt (p : Dbcp) (cache : τ) (accesses : List Access) (n : Nat) :
    Checked (Option Context) := do
  let q ← p.stateAt cache accesses n
  match accesses[n]? with
  | none => return none
  | some access =>
    match access.pc with
    | none => return none
    | some pc => return some (← q.context access pc)

/-- What the table knows of a context after the first `n` accesses. -/
def entryAt (p : Dbcp) (cache : τ) (accesses : List Access) (n : Nat) (c : Context) :
    Checked (Option DeadBlockEntry) := do
  let q ← p.stateAt cache accesses n
  q.entry? c.index c.secure

/-- A context that comes up at the `n`-th access has been trained. The `i`-th access opened the
entry of its key, and the key has had one ever since. After that the `j`-th access, which so was a
hit, computed the same signature, and left the entry with this signature and doubted. -/
structure Trained (p : Dbcp) (cache : τ) (accesses : List Access) (dead : Context) (i j n : Nat) :
    Prop where
  ordered : i < j ∧ j < n
  first : ∃ c, p.contextAt cache accesses i = .ok (some c) ∧ c.index = dead.index ∧
    c.secure = dead.secure
  second : ∃ c, p.contextAt cache accesses j = .ok (some c) ∧ c.index = dead.index ∧
    c.secure = dead.secure ∧ c.signature = dead.signature
  unknown : p.entryAt cache accesses i dead = .ok none
  known : ∀ k, i < k → k ≤ n → ∃ entry, p.entryAt cache accesses k dead = .ok (some entry)
  doubted : ∃ entry, p.entryAt cache accesses (j + 1) dead = .ok (some entry) ∧
    entry.signature = dead.signature ∧ entry.doubts p.threshold = true

section

variable (h : p.Learns memory seen)
  (hdrop : ∀ (cache : τ) (block : UInt64) (secure : Bool),
    (BlockInvalidator.dropDead cache block secure).isOk)
  (hrun : watchAll Dbcp.observe p cache accesses = .ok (answers, p', cache'))
include h hdrop hrun

/-- After every number of accesses the prefetcher has learned what is bound then. -/
theorem Learns.stateAt_spec (n : Nat) : ∃ q, p.stateAt cache accesses n = .ok q ∧
    (∃ table statistics, q.forget = { p.forget with table, statistics }) ∧
    q.Learns (p.forget.memoryAt memory accesses n) (seen + (accesses.take n).length) := by
  obtain ⟨earlier, q, between, hpast⟩ := watchAll_take hrun n
  obtain ⟨-, hrules, hlearns⟩ := (h.watchAll_spec hdrop cache (accesses.take n)).of_ok hpast
  exact ⟨q, by rw [stateAt, hpast]; rfl, hrules, hlearns⟩

theorem Learns.entryAt_eq (n : Nat) (c : Context) : p.entryAt cache accesses n c =
    .ok ((p.forget.memoryAt memory accesses n).find? (c.index, c.secure)) := by
  obtain ⟨q, hq, -, hlearns⟩ := h.stateAt_spec hdrop hrun n
  rw [entryAt, hq, ok_bind, hlearns.entry?_eq]

theorem Learns.contextAt_spec {key : TableKey} (haccess : accesses[n]? = some access)
    (hkey : p.forget.key? access = some key) :
    ∃ c, p.contextAt cache accesses n = .ok (some c) ∧ (c.index, c.secure) = key ∧
      p.forget.signature? access = some c.signature := by
  obtain ⟨q, hq, ⟨table, statistics, hrules⟩, hlearns⟩ := h.stateAt_spec hdrop hrun n
  obtain ⟨pc, hpc, -⟩ := Option.map_eq_some_iff.1 hkey
  obtain ⟨c, hc, -, -, hckey, hcsignature⟩ := hlearns.context_spec hpc
  -- Table and counters have no part in the rule.
  rw [hrules] at hckey hcsignature
  refine ⟨c, ?_, Option.some.inj (hckey.symm.trans hkey), hcsignature⟩
  simp only [contextAt, hq, ok_bind, haccess, hpc, hc, pure_eq_ok]

/-- What the map tells of a context holds of the prefetcher. -/
theorem Learns.trained {dead : Context} (hlt : i < j)
    (hopened : p.forget.Opened memory accesses (dead.index, dead.secure) i n)
    (hwritten : p.forget.Written memory accesses (dead.index, dead.secure) dead.signature j n) :
    p.Trained cache accesses dead i j n := by
  have hentry := fun k => h.entryAt_eq hdrop hrun k dead
  obtain ⟨opener, hopener, hopenerKey⟩ := hopened.by_access
  obtain ⟨writer, hwriter, hwriterKey, hwriterSignature⟩ := hwritten.by_access
  obtain ⟨first, hfirst, hfirstKey, -⟩ := h.contextAt_spec hdrop hrun hopener hopenerKey
  obtain ⟨second, hsecond, hsecondKey, hsignature⟩ :=
    h.contextAt_spec hdrop hrun hwriter hwriterKey
  obtain ⟨hindex, hsecure⟩ := Prod.mk.inj hfirstKey
  obtain ⟨hindex', hsecure'⟩ := Prod.mk.inj hsecondKey
  refine ⟨⟨hlt, hwritten.lt⟩, ⟨first, hfirst, hindex, hsecure⟩,
    ⟨second, hsecond, hindex', hsecure', ?_⟩, ?_, ?_, ?_⟩
  · exact Option.some.inj (hsignature.symm.trans hwriterSignature)
  · rw [hentry, hopened.unbound]
  · intro k hlt hle
    obtain ⟨entry, hfound⟩ := Option.ne_none_iff_exists'.1 (hopened.bound k hlt hle)
    exact ⟨entry, by rw [hentry, hfound]⟩
  · obtain ⟨entry, hfound, hexpected, hdoubts⟩ := hwritten.doubted
    exact ⟨entry, by rw [hentry, hfound], hexpected, hdoubts⟩

end

/-- **Every dead prediction is backed by training.** Take a new prefetcher with any settings, and
any accesses. Whenever one of them is predicted dead, there are two earlier ones with the same index
in the same security domain. The first of them opened the table entry, which has not been evicted
since. The second, a hit, computed the signature that is computed now, which is not zero, and left
the entry with this signature and with a confidence below the threshold. -/
theorem watch_dead_trained (hnew : Dbcp.new lineBytes settings = .ok p)
    (hdrop : ∀ (cache : τ) (block : UInt64) (secure : Bool),
      (BlockInvalidator.dropDead cache block secure).isOk) (cache : τ) (accesses : List Access) :
    Delivers (watchAll Dbcp.observe p cache accesses) (Exhausted accesses.length) fun result =>
      ∀ n targets, result.1[n]? = some targets → targets ≠ [] → ∃ dead i j,
        p.contextAt cache accesses n = .ok (some dead) ∧ dead.signature ≠ 0 ∧
          p.Trained cache accesses dead i j n := by
  have hlearns := new_learns hnew
  have hspec := (new_sound hnew).1.watchAll_spec hdrop cache accesses
  rw [Nat.zero_add] at hspec
  refine hspec.self.mono (fun _ hfault => hfault) ?_
  rintro ⟨answers, p', cache'⟩ ⟨hrun, hlength⟩ n targets hanswer hdead
  obtain ⟨rfl, -⟩ := (hlearns.watchAll_spec hdrop cache accesses).of_ok hrun
  have hn : n < accesses.length := hlength ▸ (List.getElem?_eq_some_iff.1 hanswer).1
  have haccess := List.getElem?_eq_getElem hn
  obtain ⟨key, signature, i, j, hkey, hsignature, hne, hlt, hopened, hwritten⟩ :=
    Memoryless.exists_written ⟨_, hlearns.represents⟩ (fun _ => rfl) haccess hanswer hdead
  obtain ⟨dead, hcontext, rfl, hdeadSignature⟩ := hlearns.contextAt_spec hdrop hrun haccess hkey
  obtain rfl := Option.some.inj (hdeadSignature.symm.trans hsignature)
  exact ⟨dead, i, j, hcontext, hne, hlearns.trained hdrop hrun hlt hopened hwritten⟩

/-- The third of three accesses to one entry is predicted dead. The first one, to another block,
opened the entry, and the second wrote the signature. -/
theorem watch_dead_trained_third_access :
    ∃ p p' dead, Dbcp.new 64 .hasty = .ok p ∧
      watchAll Dbcp.observe p (DropLog.mk [])
          [⟨128, some 192, false⟩, ⟨70, some 0, false⟩, ⟨64, some 0, false⟩] =
        .ok ([[], [], [128]], p', ⟨[(64, false)]⟩) ∧
      p.contextAt (DropLog.mk [])
          [⟨128, some 192, false⟩, ⟨70, some 0, false⟩, ⟨64, some 0, false⟩] 2 =
        .ok (some dead) ∧
      p.Trained (DropLog.mk [])
        [⟨128, some 192, false⟩, ⟨70, some 0, false⟩, ⟨64, some 0, false⟩] dead 0 1 2 := by
  have hdelivers := watch_dead_trained (show Dbcp.new 64 .hasty = .ok _ from rfl)
    (fun _ _ _ => rfl) (DropLog.mk [])
    [⟨128, some 192, false⟩, ⟨70, some 0, false⟩, ⟨64, some 0, false⟩]
  obtain ⟨dead, i, j, hcontext, -, htrained⟩ := hdelivers.of_ok rfl 2 [128] rfl (by decide)
  obtain ⟨hij, hj⟩ := htrained.ordered
  obtain rfl : j = 1 := by omega
  obtain rfl : i = 0 := by omega
  exact ⟨_, _, dead, rfl, rfl, hcontext, htrained⟩

end Dbcp

end Residency
