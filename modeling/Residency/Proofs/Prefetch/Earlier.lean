import Residency.Proofs.Prefetch.Provenance

/-!
# What has been seen before a block is predicted dead

What is predicted dead has been trained: an access has opened the entry of its key, and a later one
has written its signature. So it is the third access to its key at the earliest. The key and the
signature are all that counts: the block and the program counter may never have been seen.
-/

namespace Residency

namespace Memoryless

variable {m : Memoryless} {memory : RecencyMap DeadBlockEntry} {accesses : List Access}
  {key : TableKey} {signature : UInt64} {i j n : Nat}

/-- There have been two accesses to a key, the later one with a signature. -/
def SeenTwice (m : Memoryless) (key : TableKey) (signature : UInt64) (past : List Access) : Prop :=
  ∃ first second, [first, second].Sublist past ∧ m.key? first = some key ∧
    m.key? second = some key ∧ m.signature? second = some signature

/-- The accesses that opened an entry and wrote its signature are two. -/
theorem Opened.seenTwice (hopened : m.Opened memory accesses key i n)
    (hwritten : m.Written memory accesses key signature j n) (hlt : i < j) :
    m.SeenTwice key signature (accesses.take n) := by
  obtain ⟨first, hfirst, hfirstKey⟩ := hopened.by_access
  obtain ⟨second, hsecond, hsecondKey, hsignature⟩ := hwritten.by_access
  refine ⟨first, second, ?_, hfirstKey, hsecondKey, hsignature⟩
  have hmem : first ∈ accesses.take j :=
    List.mem_of_getElem? ((List.getElem?_take_of_lt hlt).trans hfirst)
  have hpair : ([first] ++ [second]).Sublist (accesses.take j ++ [second]) :=
    (List.singleton_sublist.2 hmem).append_right [second]
  have htake : accesses.take (j + 1) = accesses.take j ++ [second] := by
    rw [List.take_add_one, hsecond, Option.toList_some]
  rw [← htake] at hpair
  exact hpair.trans (List.take_sublist_take_left hwritten.lt)

end Memoryless

namespace Dbcp

variable {p : Dbcp} {lineBytes : UInt64} {settings : DbcpSettings}
  {τ : Type} [BlockInvalidator τ]

/-- **No block is predicted dead before the third access to its key.** The two earlier accesses had
the same index in the same security domain, and the later of them had the same signature, which is
not zero. -/
theorem watch_dead_seen_twice (hnew : Dbcp.new lineBytes settings = .ok p)
    (hdrop : ∀ (cache : τ) (block : UInt64) (secure : Bool),
      (BlockInvalidator.dropDead cache block secure).isOk) (cache : τ) (accesses : List Access) :
    Delivers (watchAll Dbcp.observe p cache accesses) (Exhausted accesses.length) fun result =>
      ∀ n access targets, accesses[n]? = some access → result.1[n]? = some targets → targets ≠ [] →
        ∃ key signature, p.forget.key? access = some key ∧
          p.forget.signature? access = some signature ∧ signature ≠ 0 ∧
            p.forget.SeenTwice key signature (accesses.take n) := by
  have hlearns := new_learns hnew
  have hrun := hlearns.watchAll_spec hdrop cache accesses
  rw [Nat.zero_add] at hrun
  refine hrun.mono (fun _ hfault => hfault) ?_
  rintro ⟨answers, p', cache'⟩ ⟨rfl, -⟩ n access targets haccess hanswer hdead
  obtain ⟨key, signature, i, j, hkey, hsignature, hne, hlt, hopened, hwritten⟩ :=
    Memoryless.exists_written ⟨_, hlearns.represents⟩ (fun _ => rfl) haccess hanswer hdead
  exact ⟨key, signature, hkey, hsignature, hne, hopened.seenTwice hwritten hlt⟩

/-- The third of three accesses to one entry is predicted dead, after an access with another
signature and one with its own. -/
theorem watch_dead_seen_twice_third_access :
    ∃ p p', Dbcp.new 64 .hasty = .ok p ∧
      watchAll Dbcp.observe p (DropLog.mk [])
          [⟨128, some 192, false⟩, ⟨70, some 0, false⟩, ⟨64, some 0, false⟩] =
        .ok ([[], [], [128]], p', ⟨[(64, false)]⟩) ∧
      p.forget.SeenTwice (64, false) 64 [⟨128, some 192, false⟩, ⟨70, some 0, false⟩] := by
  have hdelivers := watch_dead_seen_twice (show Dbcp.new 64 .hasty = .ok _ from rfl)
    (fun _ _ _ => rfl) (DropLog.mk [])
    [⟨128, some 192, false⟩, ⟨70, some 0, false⟩, ⟨64, some 0, false⟩]
  obtain ⟨key, signature, hkey, hsignature, -, htwice⟩ :=
    hdelivers.of_ok rfl 2 ⟨64, some 0, false⟩ [128] rfl rfl (by decide)
  obtain rfl : (64, false) = key := Option.some.inj hkey
  obtain rfl : 64 = signature := Option.some.inj hsignature
  exact ⟨_, _, rfl, rfl, htwice⟩

/-- The key of a context may have been seen with other contexts only, one of which had its
signature. Then it is predicted dead although neither its block nor its program counter has ever
been seen. -/
theorem watch_dead_never_seen :
    ∃ p p', Dbcp.new 64 .hasty = .ok p ∧
      watchAll Dbcp.observe p (DropLog.mk [])
          [⟨128, some 192, false⟩, ⟨0, some 64, false⟩, ⟨64, some 0, false⟩] =
        .ok ([[], [], [128]], p', ⟨[(64, false)]⟩) ∧
      ∀ earlier ∈ [⟨128, some 192, false⟩, (⟨0, some 64, false⟩ : Access)],
        blockAddress 64 earlier.addr ≠ blockAddress 64 64 ∧ earlier.pc ≠ some 0 :=
  ⟨_, _, rfl, rfl, by decide⟩

end Dbcp

end Residency
