import Residency.Prefetch.Choice
import Residency.Proofs.Prefetch.Dbcp

/-!
# What the selected prefetcher asks for

The next-line prefetcher always asks for as many blocks as its degree, the dead-block prefetcher for
one at most. Only the latter touches the cache.
-/

namespace Residency

/-- As many blocks are asked for as the degree says, unless they lie too far away. -/
theorem NextLine.targets_spec (p : NextLine) (h : p.lineBytes ≠ 0) (access : Access) :
    Delivers (p.targets access)
      (fun fault => fault = .overflow ∧ UInt64.size ≤ p.lineBytes.toNat * p.degree)
      fun targets => targets.length = p.degree := by
  rw [targets, Access.block_eq_ok h, ok_bind]
  refine Delivers.bind (.require fun hfar => ⟨rfl, Nat.le_of_not_lt hfar⟩) fun _ _ => ?_
  apply Delivers.of_eq_ok rfl
  rw [List.length_map, List.length_range']

namespace CacheSettings

/-- The most blocks that the prefetcher asks for on one access. -/
def reach (s : CacheSettings) : Nat :=
  match s.prefetcher with
  | .none => 0
  | .nextLine => max s.prefetchDegree.toNat 1
  | .dbcp => 1

/-- What may stop a cache on `accesses` accesses: a counter is used up, or the next-line prefetcher
reaches so far that the distance takes more than 64 bits. -/
def Excuses (s : CacheSettings) (accesses : Nat) (fault : Fault) : Prop :=
  Exhausted (accesses * (1 + s.reach)) fault ∨
    (s.prefetcher = .nextLine ∧ fault = .overflow ∧ UInt64.size ≤ s.lineBytes.toNat * s.reach)

variable {s : CacheSettings} {accesses more : Nat} {fault : Fault}

theorem reach_of_none (kind : s.prefetcher = .none) : s.reach = 0 := by
  rw [reach, kind]

theorem reach_of_nextLine (kind : s.prefetcher = .nextLine) :
    s.reach = max s.prefetchDegree.toNat 1 := by
  rw [reach, kind]

theorem reach_of_dbcp (kind : s.prefetcher = .dbcp) : s.reach = 1 := by
  rw [reach, kind]

theorem Excuses.mono (h : s.Excuses accesses fault) (hle : accesses ≤ more) :
    s.Excuses more fault :=
  h.imp_left (Exhausted.mono (Nat.mul_le_mul_right _ hle))

theorem Excuses.of_exhausted {bound : Nat} (hle : bound ≤ accesses * (1 + s.reach))
    (h : Exhausted bound fault) : s.Excuses accesses fault :=
  .inl (h.mono hle)

end CacheSettings

namespace Prefetcher

variable {s : CacheSettings} {accesses : Nat} {p : Prefetcher}

/-- The prefetcher is of the kind that the settings ask for, and has seen at most `accesses`
accesses. -/
inductive Selected (s : CacheSettings) (accesses : Nat) : Option Prefetcher → Prop
  | none (kind : s.prefetcher = .none) : Selected s accesses none
  | nextLine (kind : s.prefetcher = .nextLine) :
      Selected s accesses (some (.nextLine (.new s.lineBytes s.prefetchDegree.toNat)))
  | dbcp {p : Dbcp} (kind : s.prefetcher = .dbcp) (sound : p.Sound accesses)
      (lineBytes_eq : p.lineBytes = s.lineBytes) : Selected s accesses (some (.dbcp p))

theorem new_selected {selected : Option Prefetcher} (h : Prefetcher.new s = .ok selected) :
    Selected s 0 selected := by
  rw [Prefetcher.new] at h
  split at h
  · rename_i kind
    obtain rfl := Except.ok.inj h
    exact .none kind
  · rename_i kind
    obtain rfl := Except.ok.inj h
    exact .nextLine kind
  · rename_i kind
    obtain ⟨p, hp, hselected⟩ := accepted_bind_iff.1 h
    obtain rfl := Except.ok.inj hselected
    obtain ⟨hsound, hline⟩ := Dbcp.new_sound hp
    exact .dbcp kind hsound hline

theorem Selected.mono {selected : Option Prefetcher} (h : Selected s accesses selected) {more : Nat}
    (hle : accesses ≤ more) : Selected s more selected := by
  cases h with
  | none kind => exact .none kind
  | nextLine kind => exact .nextLine kind
  | dbcp kind sound lineBytes_eq => exact .dbcp kind (sound.mono hle) lineBytes_eq

/-- What the prefetcher asks for on an access, and what becomes of the cache behind it. Only a
dead-block prediction touches the cache. -/
inductive Watched {τ : Type} [BlockInvalidator τ] (s : CacheSettings) (access : Access)
    (cache : τ) : List UInt64 → τ → Prop
  | none (kind : s.prefetcher = .none) : Watched s access cache [] cache
  | nextLine {targets : List UInt64} (kind : s.prefetcher = .nextLine)
      (length_eq : targets.length = s.reach) : Watched s access cache targets cache
  | alive (kind : s.prefetcher = .dbcp) : Watched s access cache [] cache
  | dead {dropped : Bool} {cache' : τ} (kind : s.prefetcher = .dbcp)
      (drop : BlockInvalidator.dropDead cache (blockAddress s.lineBytes access.addr)
        access.secure = .ok (dropped, cache')) :
      Watched s access cache [blockAddress s.lineBytes access.addr + s.lineBytes] cache'

section

variable {τ : Type} [BlockInvalidator τ] {access : Access} {cache cache' : τ}
  {targets : List UInt64}

theorem Watched.length_le (h : Watched s access cache targets cache') :
    targets.length ≤ s.reach := by
  cases h with
  | none kind => exact Nat.zero_le _
  | nextLine kind length_eq => exact Nat.le_of_eq length_eq
  | alive kind => exact Nat.zero_le _
  | dead kind drop => exact Nat.le_of_eq (CacheSettings.reach_of_dbcp kind).symm

theorem Selected.observe_spec (h : Selected s accesses (some p)) (hline : s.lineBytes ≠ 0)
    (access : Access) (cache : τ)
    (hdrop : Delivers (BlockInvalidator.dropDead cache (blockAddress s.lineBytes access.addr)
      access.secure) (s.Excuses (accesses + 1)) fun _ => True) :
    Delivers (p.observe access cache) (s.Excuses (accesses + 1)) fun result =>
      Selected s (accesses + 1) (some result.2.1) ∧
        Watched s access cache result.1 result.2.2 := by
  cases h with
  | nextLine kind =>
    have hreach := (CacheSettings.reach_of_nextLine kind).symm
    refine Delivers.bind ((NextLine.targets_spec _ hline access).mono ?_ fun _ h => h) ?_
    · exact fun fault hfault => .inr ⟨kind, hreach ▸ hfault⟩
    · intro targets hlength
      exact ⟨.nextLine kind, .nextLine kind (hlength.trans hreach)⟩
  | @dbcp p kind sound lineBytes_eq =>
    have hreach := CacheSettings.reach_of_dbcp kind
    rw [← lineBytes_eq] at hdrop
    refine (sound.observe_spec access cache (fun cache' => ∃ dropped,
      BlockInvalidator.dropDead cache (blockAddress p.lineBytes access.addr) access.secure =
        .ok (dropped, cache')) (fun fault => ?_) ?_).bind ?_
    · refine CacheSettings.Excuses.of_exhausted ?_
      exact Nat.le_mul_of_pos_right _ (by omega)
    · exact hdrop.self.mono (fun _ hfault => hfault) fun result hresult => ⟨result.1, hresult.1⟩
    · rintro ⟨targets, p', cache'⟩ ⟨⟨hsound, hbytes⟩, ⟨rfl, rfl⟩ | ⟨rfl, dropped, hdropped⟩⟩
      · exact ⟨.dbcp kind hsound (hbytes.trans lineBytes_eq), .alive kind⟩
      · refine ⟨.dbcp kind hsound (hbytes.trans lineBytes_eq), ?_⟩
        rw [lineBytes_eq] at hdropped ⊢
        exact .dead kind hdropped

end

end Prefetcher

end Residency
