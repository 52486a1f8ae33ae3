import Residency.Proofs.Oracle.Stream

/-!
# Replacement schedules

A schedule says what a fully associative cache holds after each access of a stream. Its hits are
reuses whose keys it has held all along. The keys of the reuses around a time are held at that time
and are not the accessed one, so a schedule that brings in every accessed key has one line less for
them. The oracle leaves that line out of account: what it reconstructs is optimal replacement for
one line more than it has been told, without bypassing.
-/

namespace Residency

/-- A way to run a fully associative cache of some lines on a stream: what it holds after the access
at each time. An access brings in no key but its own, and it may bypass the cache. -/
structure Schedule {κ : Type} [DecidableEq κ] (keys : List κ) (lines : Nat) where
  held : Nat → Finset κ
  held_zero : held 0 = ∅
  held_succ : ∀ t key, accessedAt keys (t + 1) = some key → held (t + 1) ⊆ insert key (held t)
  card_le : ∀ t, (held t).card ≤ lines

namespace Schedule

variable {κ : Type} [DecidableEq κ] {keys : List κ} {lines ways : Nat} {arcs : Finset Arc}

/-- The key that is accessed at a time is held already. -/
def Hit (s : Schedule keys lines) (t : Nat) : Prop :=
  ∃ key ∈ accessedAt keys t, key ∈ s.held (t - 1)

instance (s : Schedule keys lines) (t : Nat) : Decidable (s.Hit t) := by
  unfold Hit
  infer_instance

/-- The number of hits. -/
def hits (s : Schedule keys lines) : Nat :=
  (Finset.filter s.Hit (Finset.range (keys.length + 1))).card

/-- No access bypasses the cache. -/
def Fills (s : Schedule keys lines) : Prop :=
  ∀ t, ∀ key ∈ accessedAt keys t, key ∈ s.held t

/-- The key of an arc is held from its start until it is accessed again. -/
def Bridges (s : Schedule keys lines) (arc : Arc) : Prop :=
  ∀ key ∈ accessedAt keys arc.stop, ∀ t, arc.start ≤ t → t < arc.stop → key ∈ s.held t

/-! ## From hits to arcs -/

/-- A key that is held has been held since its last access. -/
theorem exists_last_access (s : Schedule keys lines) {key : κ} {t : Nat} (ht : t ≤ keys.length)
    (hheld : key ∈ s.held t) : ∃ start, start ≤ t ∧ accessedAt keys start = some key ∧
      (∀ u, start ≤ u → u ≤ t → key ∈ s.held u) ∧
      ∀ u, start < u → u ≤ t → accessedAt keys u ≠ some key := by
  induction t with
  | zero =>
    rw [s.held_zero] at hheld
    cases Finset.notMem_empty key hheld
  | succ t ih =>
    have hnow : accessedAt keys (t + 1) = some keys[t] := List.getElem?_eq_getElem ht
    by_cases hkey : keys[t] = key
    · refine ⟨t + 1, Nat.le_refl _, hkey ▸ hnow, fun u hle hge => ?_, fun u hlt hle => ?_⟩
      · obtain rfl := Nat.le_antisymm hge hle
        exact hheld
      · omega
    · -- It has not come in just now, so it was held before.
      have hbefore : key ∈ s.held t := by
        refine (Finset.mem_insert.1 (s.held_succ t _ hnow hheld)).resolve_left fun heq => ?_
        exact hkey heq.symm
      obtain ⟨start, hle, hat, hkept, hlater⟩ := ih (Nat.le_of_lt ht) hbefore
      refine ⟨start, Nat.le_succ_of_le hle, hat, fun u hstart hu => ?_, fun u hstart hu => ?_⟩
      · rcases Nat.lt_or_eq_of_le hu with hu | rfl
        · exact hkept u hstart (Nat.le_of_lt_succ hu)
        · exact hheld
      · rcases Nat.lt_or_eq_of_le hu with hu | rfl
        · exact hlater u hstart (Nat.le_of_lt_succ hu)
        · rw [hnow]
          exact fun heq => hkey (Option.some.inj heq)

/-- A hit ends a reuse whose key has been held all along. -/
theorem exists_reuse_of_hit (s : Schedule keys lines) {t : Nat} (hhit : s.Hit t) :
    ∃ arc : Arc, arc.stop = t ∧ arc.IsReuse keys ∧ s.Bridges arc := by
  obtain ⟨key, hkey, hheld⟩ := hhit
  have hbound := accessedAt_le hkey
  obtain ⟨start, hle, hat, hkept, hlater⟩ := s.exists_last_access (by omega) hheld
  refine ⟨⟨start, t⟩, rfl, ⟨key, hat, hkey, ?_, fun u hu => ?_⟩, fun k hk u hstart hlt => ?_⟩
  · show start < t
    omega
  · have hlt : start < u ∧ u < t := hu
    exact hlater u hlt.1 (by omega)
  · obtain rfl : key = k := Option.some.inj (hkey.symm.trans hk)
    have hlt : u < t := hlt
    exact hkept u hstart (by omega)

/-- As many reuses as there are hits have their keys held all along. -/
theorem exists_arcs (s : Schedule keys lines) : ∃ arcs : Finset Arc, arcs.card = s.hits ∧
    (∀ arc ∈ arcs, arc.IsReuse keys) ∧ ∀ arc ∈ arcs, s.Bridges arc := by
  have hex : ∀ t ∈ Finset.filter s.Hit (Finset.range (keys.length + 1)),
      ∃ arc : Arc, arc.stop = t ∧ arc.IsReuse keys ∧ s.Bridges arc :=
    fun t ht => s.exists_reuse_of_hit (Finset.mem_filter.1 ht).2
  have : Nonempty Arc := ⟨⟨0, 0⟩⟩
  choose! arcOf hstop hreuse hbridges using hex
  refine ⟨(Finset.filter s.Hit (Finset.range (keys.length + 1))).image arcOf, ?_, ?_, ?_⟩
  · refine Finset.card_image_of_injOn fun t ht u hu heq => ?_
    rw [← hstop t ht, ← hstop u hu, heq]
  · exact Finset.forall_mem_image.2 hreuse
  · exact Finset.forall_mem_image.2 hbridges

/-- The reuses around a time have different keys, all of them held and none of them the accessed
one. -/
theorem card_around_le (s : Schedule keys lines) (hreuse : ∀ arc ∈ arcs, arc.IsReuse keys)
    (hbridges : ∀ arc ∈ arcs, s.Bridges arc) (t : Nat) :
    (around arcs t).card ≤ (((s.held t).image some).erase (accessedAt keys t)).card := by
  refine Finset.card_le_card_of_injOn (fun arc => accessedAt keys arc.stop) ?_ ?_
  · intro arc harc
    obtain ⟨hmem, hspans⟩ := mem_around.1 harc
    obtain ⟨key, -, hstop, -, hinside⟩ := hreuse arc hmem
    show accessedAt keys arc.stop ∈ ((s.held t).image some).erase (accessedAt keys t)
    rw [hstop, Finset.mem_erase]
    refine ⟨(hinside t hspans).symm, Finset.mem_image_of_mem _ ?_⟩
    exact hbridges arc hmem key hstop t (Nat.le_of_lt hspans.1) hspans.2
  · intro a ha b hb heq
    obtain ⟨hmema, hspansa⟩ := mem_around.1 ha
    obtain ⟨hmemb, hspansb⟩ := mem_around.1 hb
    refine (hreuse a hmema).eq_of_overlap (hreuse b hmemb) heq ?_ ?_
    · exact Nat.lt_trans hspansa.1 hspansb.2
    · exact Nat.lt_trans hspansb.1 hspansa.2

theorem card_image_some_le (s : Schedule keys lines) (t : Nat) :
    ((s.held t).image some).card ≤ lines :=
  Nat.le_trans Finset.card_image_le (s.card_le t)

/-- The reuses that a schedule bridges are packed for its lines. -/
theorem packed_of_bridges (s : Schedule keys lines) (hreuse : ∀ arc ∈ arcs, arc.IsReuse keys)
    (hbridges : ∀ arc ∈ arcs, s.Bridges arc) : Packed lines arcs := by
  intro t
  calc (around arcs t).card ≤ _ := s.card_around_le hreuse hbridges t
    _ ≤ ((s.held t).image some).card := Finset.card_le_card (Finset.erase_subset ..)
    _ ≤ lines := s.card_image_some_le t

/-- If no access bypasses the cache, they are packed for one line less. -/
theorem Fills.packed_of_bridges {s : Schedule keys (ways + 1)} (h : s.Fills)
    (hreuse : ∀ arc ∈ arcs, arc.IsReuse keys) (hbridges : ∀ arc ∈ arcs, s.Bridges arc) :
    Packed ways arcs := by
  intro t
  rcases (around arcs t).eq_empty_or_nonempty with hnone | ⟨arc, harc⟩
  · rw [hnone]
    exact Nat.zero_le _
  · obtain ⟨hmem, hspans⟩ := mem_around.1 harc
    have hstop := (hreuse arc hmem).stop_le
    obtain ⟨key, -, hkey⟩ := Chronicle.exists_keyAt (c := { keys }) (t := t)
      (Nat.lt_of_le_of_lt (Nat.zero_le _) hspans.1) (Nat.le_trans (Nat.le_of_lt hspans.2) hstop)
    rw [Chronicle.keyAt_eq] at hkey
    have haccessed : accessedAt keys t ∈ (s.held t).image some :=
      hkey ▸ Finset.mem_image_of_mem _ (h t key hkey)
    refine Nat.le_of_lt_succ ?_
    calc (around arcs t).card ≤ _ := s.card_around_le hreuse hbridges t
      _ < ((s.held t).image some).card := Finset.card_erase_lt_of_mem haccessed
      _ ≤ ways + 1 := s.card_image_some_le t

/-! ## From arcs to hits -/

/-- What is held at a time for the sake of some arcs: the accessed key, and the keys of the arcs
around the time. -/
def bridging (keys : List κ) (arcs : Finset Arc) (t : Nat) : Finset κ :=
  {key ∈ keys.toFinset | accessedAt keys t = some key ∨
    ∃ arc ∈ arcs, arc.Spans t ∧ accessedAt keys arc.stop = some key}

theorem mem_bridging {t : Nat} {key : κ} : key ∈ bridging keys arcs t ↔
    accessedAt keys t = some key ∨
      ∃ arc ∈ arcs, arc.Spans t ∧ accessedAt keys arc.stop = some key := by
  rw [bridging, Finset.mem_filter, List.mem_toFinset, and_iff_right_iff_imp]
  rintro (hkey | ⟨arc, -, -, hkey⟩)
  · exact mem_of_accessedAt hkey
  · exact mem_of_accessedAt hkey

/-- One line more than the arcs are packed for is enough. -/
theorem card_bridging_le (hpacked : Packed ways arcs) (t : Nat) :
    (bridging keys arcs t).card ≤ ways + 1 := by
  have hsubset : (bridging keys arcs t).image some ⊆
      insert (accessedAt keys t) ((around arcs t).image fun arc => accessedAt keys arc.stop) := by
    intro k hk
    obtain ⟨key, hkey, rfl⟩ := Finset.mem_image.1 hk
    rcases mem_bridging.1 hkey with hnow | ⟨arc, hmem, hspans, hstop⟩
    · exact Finset.mem_insert.2 (.inl hnow.symm)
    · refine Finset.mem_insert_of_mem (Finset.mem_image.2 ⟨arc, ?_, hstop⟩)
      exact mem_around.2 ⟨hmem, hspans⟩
  calc (bridging keys arcs t).card = ((bridging keys arcs t).image some).card :=
        (Finset.card_image_of_injective _ (Option.some_injective κ)).symm
    _ ≤ _ := Finset.card_le_card hsubset
    _ ≤ ((around arcs t).image fun arc => accessedAt keys arc.stop).card + 1 :=
        Finset.card_insert_le ..
    _ ≤ ways + 1 := Nat.succ_le_succ (Nat.le_trans Finset.card_image_le (hpacked t))

/-- The schedule that brings in every accessed key and holds the keys of some packed reuses. -/
def ofArcs (hreuse : ∀ arc ∈ arcs, arc.IsReuse keys) (hpacked : Packed ways arcs) :
    Schedule keys (ways + 1) where
  held := bridging keys arcs
  held_zero := by
    refine Finset.eq_empty_of_forall_notMem fun key hkey => ?_
    rcases mem_bridging.1 hkey with hnow | ⟨arc, -, hspans, -⟩
    · cases hnow
    · exact Nat.not_lt_zero _ hspans.1
  held_succ := by
    intro t key hkey k hk
    rcases mem_bridging.1 hk with hnow | ⟨arc, hmem, hspans, hstop⟩
    · obtain rfl := Option.some.inj (hkey.symm.trans hnow)
      exact Finset.mem_insert_self ..
    · -- An arc around a time starts at the time before, or is around that as well.
      refine Finset.mem_insert_of_mem (mem_bridging.2 ?_)
      rcases Nat.lt_or_eq_of_le (Nat.le_of_lt_succ hspans.1) with hlt | heq
      · exact .inr ⟨arc, hmem, ⟨hlt, Nat.lt_of_succ_lt hspans.2⟩, hstop⟩
      · obtain ⟨k', hstart, hstop', -, -⟩ := hreuse arc hmem
        obtain rfl := Option.some.inj (hstop.symm.trans hstop')
        exact .inl (heq ▸ hstart)
  card_le := card_bridging_le hpacked

theorem ofArcs_fills (hreuse : ∀ arc ∈ arcs, arc.IsReuse keys) (hpacked : Packed ways arcs) :
    (ofArcs hreuse hpacked).Fills :=
  fun _ _ hkey => mem_bridging.2 (.inl hkey)

/-- Each of the reuses ends with a hit. -/
theorem card_le_hits_ofArcs (hreuse : ∀ arc ∈ arcs, arc.IsReuse keys) (hpacked : Packed ways arcs) :
    arcs.card ≤ (ofArcs hreuse hpacked).hits := by
  refine Finset.card_le_card_of_injOn Arc.stop ?_ ?_
  · intro arc hmem
    obtain ⟨key, hstart, hstop, hlt, -⟩ := hreuse arc hmem
    rw [Finset.mem_coe, Finset.mem_filter, Finset.mem_range]
    refine ⟨Nat.lt_succ_of_le (hreuse arc hmem).stop_le, key, hstop, mem_bridging.2 ?_⟩
    rcases Nat.lt_or_eq_of_le (Nat.le_sub_one_of_lt hlt) with hbefore | heq
    · exact .inr ⟨arc, hmem, ⟨hbefore, by omega⟩, hstop⟩
    · exact .inl (heq ▸ hstart)
  · intro a ha b hb heq
    exact (hreuse a ha).eq_of_stop (hreuse b hb) heq

end Schedule

namespace Oracle

variable {κ : Type} [DecidableEq κ] {ways multiplier : Nat} {o : Oracle κ}

/-- **The oracle is friendly as often as a cache with one line more can hit** that brings in every
accessed key, on a stream that is no longer than the ring. That is no less often than any schedule
for the lines it has been told hits, whether it bypasses the cache or not. -/
theorem replay_isGreatest_hits (ho : new ways multiplier = .ok o) {keys : List κ}
    (hlength : keys.length ≤ ways * multiplier) :
    ∃ verdicts o', o.replay keys = .ok (verdicts, o') ∧ verdicts.length = keys.length ∧
      IsGreatest {n | ∃ s : Schedule keys (min ways (UInt32.size - 1) + 1), s.Fills ∧ s.hits = n}
        (verdicts.countP Prediction.isFriendly) ∧
      ∀ s : Schedule keys (min ways (UInt32.size - 1)),
        s.hits ≤ verdicts.countP Prediction.isFriendly := by
  obtain ⟨-, hcapacity, -⟩ := new_eq_ok ho
  obtain ⟨verdicts, o', chosen, hreplay, hverdicts, hfriendly, hgreedy⟩ := replay_spec ho hlength
  rw [hcapacity] at hgreedy
  have hpacked := hgreedy.packed_reuses
  -- The hits of a schedule are packed reuses, so they are no more than those chosen.
  have hfilling : ∀ s : Schedule keys (min ways (UInt32.size - 1) + 1), s.Fills →
      s.hits ≤ chosen.card := by
    intro s hfills
    obtain ⟨arcs, hcard, hreuse, hbridges⟩ := s.exists_arcs
    rw [← hcard]
    exact hgreedy.card_le_reuses hreuse (hfills.packed_of_bridges hreuse hbridges)
  refine ⟨verdicts, o', hreplay, hverdicts, ⟨⟨.ofArcs hgreedy.among hpacked, ?_, ?_⟩, ?_⟩, ?_⟩
  · exact Schedule.ofArcs_fills hgreedy.among hpacked
  · rw [hfriendly]
    refine Nat.le_antisymm (hfilling _ (Schedule.ofArcs_fills hgreedy.among hpacked)) ?_
    exact Schedule.card_le_hits_ofArcs hgreedy.among hpacked
  · rintro n ⟨s, hfills, rfl⟩
    rw [hfriendly]
    exact hfilling s hfills
  · intro s
    obtain ⟨arcs, hcard, hreuse, hbridges⟩ := s.exists_arcs
    rw [hfriendly, ← hcard]
    exact hgreedy.card_le_reuses hreuse (s.packed_of_bridges hreuse hbridges)

/-- A stream of two nested reuses, which take two lines but do not overlap inside. -/
theorem replay_isGreatest_hits_nested :
    ∃ o : Oracle Nat, new 1 4 = .ok o ∧ [1, 2, 2, 1].length ≤ 1 * 4 ∧
      ∃ verdicts o', o.replay [1, 2, 2, 1] = .ok (verdicts, o') ∧
        verdicts.length = [1, 2, 2, 1].length ∧
        IsGreatest {n | ∃ s : Schedule [1, 2, 2, 1] (min 1 (UInt32.size - 1) + 1),
          s.Fills ∧ s.hits = n} (verdicts.countP Prediction.isFriendly) ∧
        ∀ s : Schedule [1, 2, 2, 1] (min 1 (UInt32.size - 1)),
          s.hits ≤ verdicts.countP Prediction.isFriendly :=
  ⟨_, rfl, by decide, replay_isGreatest_hits (show new 1 4 = .ok _ from rfl) (by decide)⟩

/-- On that stream an oracle for one line is friendly more often than any schedule for one line
hits: both reuses need a line between the second and the third access. -/
theorem replay_overpromises :
    ∃ (o : Oracle Nat) (verdicts : List Prediction) (o' : Oracle Nat), new 1 4 = .ok o ∧
      [1, 2, 2, 1].length ≤ 1 * 4 ∧ o.replay [1, 2, 2, 1] = .ok (verdicts, o') ∧
      ∀ s : Schedule [1, 2, 2, 1] 1, s.hits < verdicts.countP Prediction.isFriendly := by
  refine ⟨_, [.averse, .averse, .friendly, .friendly], _, rfl, by decide, rfl, fun s => ?_⟩
  have hmiddle : ∀ arc : Arc, arc.IsReuse [1, 2, 2, 1] → arc.start ≤ 2 ∧ 2 < arc.stop := by
    rintro ⟨start, stop⟩ ⟨key, hstart, hstop, hlt, -⟩
    have hpos := (accessedAt_le hstart).1
    have hle := (accessedAt_le hstop).2
    by_contra hnot
    have hadjacent : (start = 1 ∧ stop = 2) ∨ (start = 3 ∧ stop = 4) := by
      simp only [List.length_cons, List.length_nil] at hpos hle hlt hnot
      omega
    rcases hadjacent with ⟨rfl, rfl⟩ | ⟨rfl, rfl⟩
    · exact absurd (hstart.trans hstop.symm) (by decide)
    · exact absurd (hstart.trans hstop.symm) (by decide)
  obtain ⟨arcs, hcard, hreuse, hbridges⟩ := s.exists_arcs
  rw [← hcard]
  refine Nat.lt_succ_of_le (Finset.card_le_one.2 fun a ha b hb => ?_)
  obtain ⟨hstarta, hstopa⟩ := hmiddle a (hreuse a ha)
  obtain ⟨hstartb, hstopb⟩ := hmiddle b (hreuse b hb)
  obtain ⟨keya, -, hkeya, -, -⟩ := hreuse a ha
  obtain ⟨keyb, -, hkeyb, -, -⟩ := hreuse b hb
  have hhelda := hbridges a ha keya hkeya 2 hstarta hstopa
  have hheldb := hbridges b hb keyb hkeyb 2 hstartb hstopb
  obtain rfl : keya = keyb := Finset.card_le_one.1 (s.card_le 2) keya hhelda keyb hheldb
  refine (hreuse a ha).eq_of_overlap (hreuse b hb) (hkeya.trans hkeyb.symm) ?_ ?_
  · omega
  · omega

end Oracle

end Residency
