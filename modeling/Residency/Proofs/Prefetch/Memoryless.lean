import Mathlib.Data.List.Induction
import Residency.Proofs.Prefetch.Courses
import Residency.Proofs.Prefetch.Dbcp
import Residency.Proofs.Prefetch.History

/-!
# The dead-block prefetcher does not need its history

The history of a block is read on every access and written only when the block dies, and then it is
emptied. So it is always empty: the index of a context is the block with the low bits of its program
counter folded in, and its signature is the sum of the two. A prefetcher that computes them so and
has no history at all asks for the same blocks and drops the same blocks.
-/

namespace Residency

/-! ## Runs of a prefetcher -/

/-- Watches some accesses in order, and answers the blocks that are asked for on each of them. -/
def watchAll {σ τ : Type} (observe : σ → Access → τ → Checked (List UInt64 × σ × τ)) (p : σ)
    (cache : τ) : List Access → Checked (List (List UInt64) × σ × τ)
  | [] => return ([], p, cache)
  | access :: rest => do
    let (targets, p, cache) ← observe p access cache
    let (more, p, cache) ← watchAll observe p cache rest
    return (targets :: more, p, cache)

/-- The same answer with another view of the prefetcher. -/
def reseen {α σ σ' τ : Type} (f : σ → σ') (answer : α × σ × τ) : α × σ' × τ :=
  (answer.1, f answer.2.1, answer.2.2)

/-- Two prefetchers that answer each access alike where an invariant holds of the first answer a
whole run alike, if the first keeps its invariant. -/
theorem watchAll_map {σ σ' τ : Type} {observe : σ → Access → τ → Checked (List UInt64 × σ × τ)}
    {observe' : σ' → Access → τ → Checked (List UInt64 × σ' × τ)} {f : σ → σ'} {inv : σ → Prop}
    (hkeep : ∀ {p p' : σ} {access : Access} {cache cache' : τ} {targets : List UInt64}, inv p →
      observe p access cache = .ok (targets, p', cache') → inv p')
    (hstep : ∀ {p : σ}, inv p → ∀ (access : Access) (cache : τ),
      reseen f <$> observe p access cache = observe' (f p) access cache)
    {p : σ} (h : inv p) (cache : τ) (accesses : List Access) :
    reseen f <$> watchAll observe p cache accesses = watchAll observe' (f p) cache accesses := by
  induction accesses generalizing p cache with
  | nil => rfl
  | cons access rest ih =>
    rw [watchAll, watchAll, ← hstep h, bind_map_left]
    cases hp : observe p access cache with
    | error fault => rfl
    | ok answer =>
      obtain ⟨targets, p', cache'⟩ := answer
      simp only [ok_bind, reseen, map_bind]
      rw [← ih (hkeep h hp) cache', bind_map_left]
      rfl

theorem watchAll_append {σ τ : Type} (observe : σ → Access → τ → Checked (List UInt64 × σ × τ))
    (p : σ) (cache : τ) (past later : List Access) :
    watchAll observe p cache (past ++ later) = do
      let (answers, p, cache) ← watchAll observe p cache past
      let (more, p, cache) ← watchAll observe p cache later
      return (answers ++ more, p, cache) := by
  induction past generalizing p cache with
  | nil => exact (bind_pure _).symm
  | cons access rest ih =>
    rw [List.cons_append, watchAll, watchAll, bind_assoc]
    refine bind_congr fun (targets, p', cache') => ?_
    dsimp only
    rw [ih, bind_assoc, bind_assoc]
    refine bind_congr fun (answers, p'', cache'') => ?_
    simp only [pure_eq_ok, ok_bind, bind_assoc, List.cons_append]

/-- A run that ends passes through a state after every number of its accesses. -/
theorem watchAll_take {σ τ : Type} {observe : σ → Access → τ → Checked (List UInt64 × σ × τ)}
    {p p' : σ} {cache cache' : τ} {accesses : List Access} {answers : List (List UInt64)}
    (hp : watchAll observe p cache accesses = .ok (answers, p', cache')) (n : Nat) :
    ∃ earlier q between,
      watchAll observe p cache (accesses.take n) = .ok (earlier, q, between) := by
  rw [← List.take_append_drop n accesses, watchAll_append] at hp
  obtain ⟨⟨earlier, q, between⟩, hpast, -⟩ := bind_eq_ok_iff.1 hp
  exact ⟨earlier, q, between, hpast⟩

/-- A run of one more access ends where the access leads from the end of the others. -/
theorem watchAll_append_singleton_iff {σ τ : Type}
    {observe : σ → Access → τ → Checked (List UInt64 × σ × τ)} {p p' : σ} {cache cache' : τ}
    {past : List Access} {access : Access} {answers : List (List UInt64)} :
    watchAll observe p cache (past ++ [access]) = .ok (answers, p', cache') ↔
      ∃ earlier q between targets, watchAll observe p cache past = .ok (earlier, q, between) ∧
        observe q access between = .ok (targets, p', cache') ∧ answers = earlier ++ [targets] := by
  simp only [watchAll_append, watchAll, bind_eq_ok_iff, Prod.exists, pure_eq_ok, Except.ok.injEq,
    Prod.mk.injEq]
  constructor
  · rintro ⟨earlier, q, between, hpast, _, _, _, ⟨targets, _, _, haccess, _, _, _, hend, hmore⟩, h⟩
    obtain ⟨rfl, rfl, rfl⟩ := hend
    obtain ⟨rfl, rfl, rfl⟩ := hmore
    obtain ⟨rfl, rfl, rfl⟩ := h
    exact ⟨earlier, q, between, targets, hpast, haccess, rfl⟩
  · rintro ⟨earlier, q, between, targets, hpast, haccess, rfl⟩
    exact ⟨earlier, q, between, hpast, [targets], p', cache', ⟨targets, p', cache', haccess, [], p',
      cache', ⟨rfl, rfl, rfl⟩, rfl, rfl, rfl⟩, rfl, rfl, rfl⟩

/-- What speaks of the accesses and the answers so far, and is kept by every further access, holds
at the end of a run. -/
theorem watchAll_history {σ τ : Type} {observe : σ → Access → τ → Checked (List UInt64 × σ × τ)}
    {motive : List Access → List (List UInt64) → σ → τ → Prop} {p p' : σ} {cache cache' : τ}
    {accesses : List Access} {answers : List (List UInt64)} (h : motive [] [] p cache)
    (hstep : ∀ {done : List Access} {answers : List (List UInt64)} {p p' : σ} {access : Access}
      {cache cache' : τ} {targets : List UInt64}, motive done answers p cache →
        observe p access cache = .ok (targets, p', cache') →
          motive (done ++ [access]) (answers ++ [targets]) p' cache')
    (hp : watchAll observe p cache accesses = .ok (answers, p', cache')) :
    motive accesses answers p' cache' := by
  induction accesses using List.reverseRecOn generalizing p' cache' answers with
  | nil =>
    simp only [watchAll, pure_eq_ok, Except.ok.injEq, Prod.mk.injEq] at hp
    obtain ⟨rfl, rfl, rfl⟩ := hp
    exact h
  | append_singleton past access ih =>
    obtain ⟨earlier, q, between, targets, hpast, haccess, rfl⟩ :=
      watchAll_append_singleton_iff.1 hp
    exact hstep (ih hpast) haccess

/-- What every access keeps holds after a run. -/
theorem watchAll_keeps {σ τ : Type} {observe : σ → Access → τ → Checked (List UInt64 × σ × τ)}
    {inv : σ → Prop}
    (hkeep : ∀ {p p' : σ} {access : Access} {cache cache' : τ} {targets : List UInt64}, inv p →
      observe p access cache = .ok (targets, p', cache') → inv p')
    {p p' : σ} (h : inv p) {cache cache' : τ} {accesses : List Access}
    {answers : List (List UInt64)}
    (hp : watchAll observe p cache accesses = .ok (answers, p', cache')) : inv p' :=
  watchAll_history (motive := fun _ _ p _ => inv p) h hkeep hp

/-! ## The prefetcher without a history -/

/-- The state of a dead-block prefetcher without a history. -/
structure Memoryless where
  lineBytes : UInt64
  signatureBits : Nat
  threshold : Binary64
  table : TaggedTable Lru DeadBlockEntry
  initialConfidence : Counter
  statistics : DbcpStatistics

/-- A prefetcher without its history. -/
def Dbcp.forget (p : Dbcp) : Memoryless :=
  ⟨p.lineBytes, p.signatureBits, p.threshold, p.table, p.initialConfidence, p.statistics⟩

namespace Memoryless

/-- The table index of an access to a block. -/
def index (m : Memoryless) (block pc : UInt64) : UInt64 :=
  block ^^^ .ofNat (pc.toNat % 2 ^ m.signatureBits)

/-- The signature of an access to a block. -/
def signature (m : Memoryless) (block pc : UInt64) : UInt64 :=
  .ofNat ((pc.toNat + block.toNat) % 2 ^ m.signatureBits)

/-- Replaces the statistics, whose counters are words. -/
def withStatistics (m : Memoryless) (statistics : DbcpStatistics) : Checked Memoryless := do
  require statistics.Fits .exhausted
  return { m with statistics }

/-- Opens an entry for an index that the table does not know. -/
def enroll (m : Memoryless) (index : UInt64) (secure : Bool) : Checked Memoryless := do
  let m ← m.withStatistics { m.statistics with tableMisses := m.statistics.tableMisses + 1 }
  let (id, table) ← m.table.makeRoom index
  let table ← table.put index secure id (.blank m.initialConfidence)
  return { m with table }

/-- Trains a known entry; whether the block is predicted dead. -/
def train (m : Memoryless) (block signature : UInt64) (id : LineId) :
    Checked (Bool × Memoryless) := do
  let table ← m.table.use id
  let entry ← table.entry id
  let trained := entry.train signature m.threshold
  let expected := entry.expects signature
  let doubtful := trained.doubts m.threshold
  let dead := expected && !doubtful
  let s := m.statistics
  let m ← m.withStatistics { s with
    tableHits := s.tableHits + 1
    signatureMatches := s.signatureMatches + expected.toNat
    signatureOverwrites := s.signatureOverwrites + (!expected && doubtful).toNat
    deadPredictions := s.deadPredictions + dead.toNat }
  let trained := if dead then { trained with prediction := block + m.lineBytes } else trained
  return (dead, { m with table := ← table.setEntry id trained })

/-- Trains on an access and answers the blocks to prefetch. -/
def observe {τ : Type} [BlockInvalidator τ] (m : Memoryless) (access : Access) (cache : τ) :
    Checked (List UInt64 × Memoryless × τ) := do
  match access.pc with
  | none => return ([], m, cache)
  | some pc =>
    let block ← access.block m.lineBytes
    match ← m.table.find? (m.index block pc) access.secure with
    | none => return ([], ← m.enroll (m.index block pc) access.secure, cache)
    | some id =>
      let (dead, m) ← m.train block (m.signature block pc) id
      if dead then
        let (_, cache) ← BlockInvalidator.dropDead cache block access.secure
        return ([block + m.lineBytes], m, cache)
      else
        return ([], m, cache)

end Memoryless

/-! ## Signatures of an empty history -/

namespace Memoryless

variable {p : Dbcp}

theorem forget_index_eq (h : p.signatureBits ≤ 64) (block pc : UInt64) :
    p.indexFrom HistoryEntry.empty.signature block pc = p.forget.index block pc := by
  rw [Dbcp.indexFrom, combine_eq h, index, HistoryEntry.empty, UInt64.toNat_zero, Nat.zero_add]
  rfl

/-- The first access of a life folds in its program counter and its block. -/
theorem forget_signature_eq (h : p.signatureBits ≤ 64) (block pc : UInt64) :
    (HistoryEntry.empty.update p.signatureBits block pc).signature =
      p.forget.signature block pc := by
  simp only [HistoryEntry.update, HistoryEntry.empty, List.not_mem_nil, if_false]
  rw [combine_eq h, toNat_combine h, UInt64.toNat_zero, Nat.zero_add, Nat.mod_add_mod]
  rfl

end Memoryless

namespace Dbcp

variable {p p' : Dbcp} {c : Context}

/-- There is a history for every block, and all of them are empty. -/
structure Blank (p : Dbcp) : Prop where
  history_ne : p.history.size ≠ 0
  eq_empty : ∀ entry ∈ p.history, entry = .empty
  signatureBits_le : p.signatureBits ≤ 64

theorem new_blank {lineBytes : UInt64} {settings : DbcpSettings}
    (h : Dbcp.new lineBytes settings = .ok p) : p.Blank := by
  have hsound := (new_sound h).1
  obtain ⟨confidence, policy, table, -, hcheck, -, -, -, rfl⟩ := new_eq_ok_iff.1 h
  obtain ⟨-, -, -, -, -, hbits, -⟩ := DbcpSettings.check_eq_ok_iff.1 hcheck
  exact ⟨hsound.history_ne, fun entry hentry => (Array.mem_replicate.1 hentry).2, hbits⟩

theorem Blank.historySlot_eq (h : p.Blank) (block : UInt64) :
    p.historySlot block = .ok ((mix block).toNat % p.history.size) :=
  hashIndex_eq_ok h.history_ne

theorem Blank.historyAt_eq (h : p.Blank) (block : UInt64) :
    p.historyAt ((mix block).toNat % p.history.size) = .ok .empty := by
  have hlt := Nat.mod_lt (mix block).toNat (Nat.pos_of_ne_zero h.history_ne)
  rw [historyAt, Array.getElem?_eq_getElem hlt, h.eq_empty _ (Array.getElem_mem hlt)]
  rfl

theorem Blank.index_eq (h : p.Blank) (block pc : UInt64) :
    p.index block pc = .ok (p.forget.index block pc) := by
  rw [index, historyOf, h.historySlot_eq, ok_bind, h.historyAt_eq, ok_bind,
    Memoryless.forget_index_eq h.signatureBits_le]
  rfl

/-- Of the context of an access only the slot has to do with the history. -/
theorem Blank.context_eq (h : p.Blank) (access : Access) (pc : UInt64) :
    p.context access pc = do
      let block ← access.block p.lineBytes
      return {
        block
        secure := access.secure
        slot := (mix block).toNat % p.history.size
        index := p.forget.index block pc
        signature := p.forget.signature block pc } := by
  rw [context]
  refine bind_congr fun block => ?_
  rw [h.historySlot_eq, ok_bind, h.historyAt_eq, ok_bind]
  simp only [Memoryless.forget_index_eq h.signatureBits_le,
    Memoryless.forget_signature_eq h.signatureBits_le]

/-! ## One access -/

theorem withStatistics_forget (p : Dbcp) (s : DbcpStatistics) :
    forget <$> p.withStatistics s = p.forget.withStatistics s := by
  rw [withStatistics, map_bind]
  rfl

theorem enroll_forget (p : Dbcp) (c : Context) :
    forget <$> p.enroll c = p.forget.enroll c.index c.secure := by
  rw [enroll, Memoryless.enroll, ← withStatistics_forget, bind_map_left, map_bind]
  refine bind_congr fun p' => ?_
  simp only [map_bind, map_pure]
  rfl

theorem train_forget (p : Dbcp) (c : Context) (id : LineId) :
    (fun result => (result.1, result.2.forget)) <$> p.train c id =
      p.forget.train c.block c.signature id := by
  rw [train, Memoryless.train, map_bind]
  refine bind_congr fun table => ?_
  rw [map_bind]
  refine bind_congr fun entry => ?_
  dsimp only
  rw [map_bind, ← withStatistics_forget, bind_map_left]
  refine bind_congr fun p' => ?_
  simp only [map_bind, map_pure]
  rfl

theorem forget_lineBytes (p : Dbcp) : p.forget.lineBytes = p.lineBytes :=
  rfl

theorem bury_forget (p : Dbcp) (slot : Nat) : (p.bury slot).forget = p.forget :=
  rfl

/-- Training leaves the history. -/
structure Retains (p p' : Dbcp) : Prop where
  history : p'.history = p.history
  signatureBits : p'.signatureBits = p.signatureBits

theorem enroll_retains (h : p.enroll c = .ok p') : p.Retains p' := by
  simp only [enroll, withStatistics, bind_eq_ok_iff, pure_eq_ok, Except.ok.injEq] at h
  obtain ⟨_, ⟨-, -, rfl⟩, -, -, -, -, rfl⟩ := h
  exact ⟨rfl, rfl⟩

theorem train_retains {id : LineId} {dead : Bool} (h : p.train c id = .ok (dead, p')) :
    p.Retains p' := by
  simp only [train, withStatistics, bind_eq_ok_iff, pure_eq_ok, Except.ok.injEq,
    Prod.mk.injEq] at h
  obtain ⟨-, -, -, -, _, ⟨-, -, rfl⟩, -, -, -, rfl⟩ := h
  exact ⟨rfl, rfl⟩

theorem Blank.retain (h : p.Blank) (hp : p.Retains p') : p'.Blank := by
  obtain ⟨hhistory, hbits⟩ := hp
  constructor
  · rw [hhistory]
    exact h.history_ne
  · rw [hhistory]
    exact h.eq_empty
  · rw [hbits]
    exact h.signatureBits_le

/-- The end of a life writes the history that is there already. -/
theorem Blank.bury (h : p.Blank) (slot : Nat) : (p.bury slot).Blank := by
  constructor
  · show (p.history.setIfInBounds slot .empty).size ≠ 0
    rw [Array.size_setIfInBounds]
    exact h.history_ne
  · intro entry hentry
    rcases Array.mem_or_eq_of_mem_setIfInBounds hentry with hmem | heq
    · exact h.eq_empty entry hmem
    · exact heq
  · exact h.signatureBits_le

section

variable {τ : Type} [BlockInvalidator τ]

/-- An access keeps all histories empty. -/
theorem Blank.observe {access : Access} {cache cache' : τ} {targets : List UInt64} (h : p.Blank)
    (hp : p.observe access cache = .ok (targets, p', cache')) : p'.Blank := by
  cases observed_of_eq_ok hp with
  | ignored anonymous => exact h
  | enrolled named context miss enroll => exact h.retain (enroll_retains enroll)
  | spared named context hit train => exact h.retain (train_retains train)
  | dead named context hit train drop => exact (h.retain (train_retains train)).bury _

/-- Without a history an access has the same answer, and the same effect. -/
theorem Blank.observe_forget (h : p.Blank) (access : Access) (cache : τ) :
    reseen forget <$> p.observe access cache = p.forget.observe access cache := by
  rw [Dbcp.observe, Memoryless.observe]
  cases access.pc with
  | none => rfl
  | some pc =>
    dsimp only
    rw [h.context_eq, bind_assoc, map_bind]
    refine bind_congr fun block => ?_
    simp only [pure_bind]
    generalize hc : Context.mk _ _ _ _ _ = c
    rw [map_bind]
    refine bind_congr fun found => ?_
    cases found with
    | none =>
      have henroll : forget <$> p.enroll c =
          p.forget.enroll (p.forget.index block pc) access.secure := by
        rw [enroll_forget, ← hc]
      dsimp only
      rw [← henroll, bind_map_left, map_bind]
      simp only [map_pure, reseen]
    | some id =>
      have htrain : (fun result => (result.1, result.2.forget)) <$> p.train c id =
          p.forget.train block (p.forget.signature block pc) id := by
        rw [train_forget, ← hc]
      dsimp only
      rw [← htrain, bind_map_left, map_bind]
      refine bind_congr fun (dead, p') => ?_
      cases dead with
      | false => rfl
      | true =>
        simp only [if_true, map_bind, map_pure, reseen]
        refine bind_congr fun dropped => ?_
        rw [bury_forget, forget_lineBytes]

/-! ## Whole runs -/

/-- If blocks can always be dropped, a run answers every access, unless an event counter of 64 bits
overflows. -/
theorem Sound.watchAll_spec {seen : Nat} (h : p.Sound seen)
    (hdrop : ∀ (cache : τ) (block : UInt64) (secure : Bool),
      (BlockInvalidator.dropDead cache block secure).isOk) (cache : τ) (accesses : List Access) :
    Delivers (watchAll Dbcp.observe p cache accesses) (Exhausted (seen + accesses.length))
      fun result => result.1.length = accesses.length := by
  induction accesses generalizing p seen cache with
  | nil => rfl
  | cons access rest ih =>
    have hlength : seen + (access :: rest).length = seen + 1 + rest.length := by
      rw [List.length_cons]
      omega
    rw [watchAll, hlength]
    refine (h.observe_spec access cache (fun _ => True)
      (fun fault => Exhausted.mono (Nat.le_add_right (seen + 1) rest.length))
      (.trivial_of_isOk (hdrop cache _ _))).bind ?_
    rintro ⟨targets, p', cache'⟩ ⟨⟨hp', -⟩, -⟩
    refine (ih hp' cache').bind ?_
    rintro ⟨more, p'', cache''⟩ hmore
    exact congrArg (· + 1) hmore

/-- Any other number of histories is accepted as well, and makes the same prefetcher but for its
history. -/
theorem new_resize {lineBytes size : UInt64} {settings : DbcpSettings}
    (h : Dbcp.new lineBytes settings = .ok p) (hsize : size ≠ 0) :
    ∃ q, Dbcp.new lineBytes { settings with historyTableSize := size } = .ok q ∧
      q.forget = p.forget := by
  obtain ⟨confidence, policy, table, hpow, hcheck, hconfidence, hpolicy, htable, rfl⟩ :=
    new_eq_ok_iff.1 h
  have hpos : 1 ≤ size.toNat := Nat.pos_of_ne_zero fun hzero => hsize (UInt64.toNat_inj.1 hzero)
  have hrules := (DbcpSettings.check_eq_ok_iff.1 hcheck).2
  exact ⟨_, new_eq_ok_iff.2 ⟨confidence, policy, table, hpow,
    DbcpSettings.check_eq_ok_iff.2 ⟨hpos, hrules⟩, hconfidence, hpolicy, htable, rfl⟩, rfl⟩

/-- **The history has no influence.** Whatever the accesses, and whatever the cache does when a
block is dropped, a prefetcher answers and acts as the one without a history does. All histories
stay empty, the table is indexed by the block with the low bits of the program counter folded in,
and a prefetcher with any other number of histories cannot be told apart. If blocks can always be
dropped, only a run of 2^64 accesses may stop. -/
theorem watch_eq_memoryless {lineBytes : UInt64} {settings : DbcpSettings}
    (hnew : Dbcp.new lineBytes settings = .ok p) (cache : τ) (accesses : List Access) :
    reseen forget <$> watchAll Dbcp.observe p cache accesses =
        watchAll Memoryless.observe p.forget cache accesses ∧
      (∀ answers p' cache', watchAll Dbcp.observe p cache accesses = .ok (answers, p', cache') →
        (∀ entry ∈ p'.history, entry = .empty) ∧
          ∀ block pc, p'.index block pc = .ok (p'.forget.index block pc)) ∧
      (∀ size ≠ 0, ∃ q, Dbcp.new lineBytes { settings with historyTableSize := size } = .ok q ∧
        reseen forget <$> watchAll Dbcp.observe q cache accesses =
          reseen forget <$> watchAll Dbcp.observe p cache accesses) ∧
      ((∀ (cache : τ) block secure, (BlockInvalidator.dropDead cache block secure).isOk) →
        Delivers (watchAll Dbcp.observe p cache accesses) (Exhausted accesses.length)
          fun result => result.1.length = accesses.length) := by
  have hrun {q : Dbcp} (hq : q.Blank) : reseen forget <$> watchAll Dbcp.observe q cache accesses =
      watchAll Memoryless.observe q.forget cache accesses :=
    watchAll_map Blank.observe Blank.observe_forget hq cache accesses
  have hblank := new_blank hnew
  refine ⟨hrun hblank, ?_, ?_, ?_⟩
  · intro answers p' cache' hp'
    have hblank' := watchAll_keeps Blank.observe hblank hp'
    exact ⟨hblank'.eq_empty, hblank'.index_eq⟩
  · intro size hsize
    obtain ⟨q, hq, hforget⟩ := new_resize hnew hsize
    refine ⟨q, hq, ?_⟩
    rw [hrun hblank, hrun (new_blank hq), hforget]
  · intro hdrop
    have hspec := (new_sound hnew).1.watchAll_spec hdrop cache accesses
    rwa [Nat.zero_add] at hspec

end

/-- A cache that only writes down which blocks it is told to drop. -/
structure DropLog where
  dropped : List (UInt64 × Bool)
deriving DecidableEq, Repr

instance : BlockInvalidator DropLog where
  dropDead log block secure := .ok (true, ⟨log.dropped ++ [(block, secure)]⟩)

/-- A table of one entry learns the signature of a context at the second access to it, and predicts
the block dead at the third, with seven histories as with one. -/
theorem watch_eq_memoryless_third_access :
    ∃ p q m, Dbcp.new 64 .hasty = .ok p ∧
      Dbcp.new 64 { DbcpSettings.hasty with historyTableSize := 7 } = .ok q ∧
      reseen forget <$> watchAll Dbcp.observe p (DropLog.mk [])
        (List.replicate 3 ⟨70, some 5, false⟩) = .ok ([[], [], [128]], m, ⟨[(64, false)]⟩) ∧
      reseen forget <$> watchAll Dbcp.observe q (DropLog.mk [])
        (List.replicate 3 ⟨70, some 5, false⟩) = .ok ([[], [], [128]], m, ⟨[(64, false)]⟩) ∧
      Delivers (watchAll Dbcp.observe p (DropLog.mk []) (List.replicate 3 ⟨70, some 5, false⟩))
        (Exhausted 3) fun result => result.1.length = 3 := by
  obtain ⟨hrun, -, hresize, hdelivers⟩ := watch_eq_memoryless
    (show Dbcp.new 64 .hasty = .ok _ from rfl) (DropLog.mk [])
    (List.replicate 3 ⟨70, some 5, false⟩)
  obtain ⟨q, hq, hsame⟩ := hresize 7 (by decide)
  exact ⟨_, q, _, rfl, hq, hrun.trans rfl, (hsame.trans hrun).trans rfl, hdelivers fun _ _ _ => rfl⟩

end Dbcp

end Residency
