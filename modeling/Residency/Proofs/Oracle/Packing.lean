import Mathlib.Data.Finset.Max
import Residency.Proofs.Oracle.Chronicle

/-!
# Packing arcs

A set of arcs is packed for a number of ways if no time lies strictly inside more arcs than there
are ways. Taking every arc that still fits, in the order in which the arcs end, packs as many of
them as any choice can: whatever packed set we start from, an arc that the greedy choice takes can
be put in the place of one that starts late and ends later still. With more ways the greedy choice
takes all the arcs that it takes with fewer.
-/

namespace Residency

/-- The arcs that a time lies strictly inside of. -/
def around (arcs : Finset Arc) (time : Nat) : Finset Arc :=
  {arc ∈ arcs | arc.Spans time}

/-- No time lies strictly inside more than `ways` of the arcs. -/
def Packed (ways : Nat) (arcs : Finset Arc) : Prop :=
  ∀ time, (around arcs time).card ≤ ways

/-- The arcs that end before a time. -/
def endingBefore (arcs : Finset Arc) (time : Nat) : Finset Arc :=
  {arc ∈ arcs | arc.stop < time}

/-- The chosen arcs are those that fit in the order in which the arcs end: an arc is chosen exactly
if each time inside it lies inside fewer than `ways` of the arcs chosen before. -/
structure ChosenGreedily (ways : Nat) (all : Arc → Prop) (chosen : Finset Arc) : Prop where
  among : ∀ arc ∈ chosen, all arc
  mem_iff : ∀ arc, all arc → (arc ∈ chosen ↔ ∀ time, arc.Spans time →
    (around (endingBefore chosen arc.stop) time).card < ways)

section

variable {ways time : Nat} {arc : Arc} {arcs larger chosen : Finset Arc}

theorem mem_around : arc ∈ around arcs time ↔ arc ∈ arcs ∧ arc.Spans time :=
  Finset.mem_filter

theorem mem_endingBefore : arc ∈ endingBefore arcs time ↔ arc ∈ arcs ∧ arc.stop < time :=
  Finset.mem_filter

theorem endingBefore_eq_iff : endingBefore arcs time = endingBefore chosen time ↔
    ∀ arc, arc.stop < time → (arc ∈ arcs ↔ arc ∈ chosen) := by
  simp only [Finset.ext_iff, mem_endingBefore, and_congr_left_iff]

theorem around_mono (h : arcs ⊆ larger) : around arcs time ⊆ around larger time :=
  Finset.filter_subset_filter _ h

theorem Packed.mono (h : Packed ways larger) (hsub : arcs ⊆ larger) : Packed ways arcs :=
  fun time => Nat.le_trans (Finset.card_le_card (around_mono hsub)) (h time)

theorem endingBefore_subset {n : Nat} (h : time ≤ n) :
    endingBefore arcs time ⊆ endingBefore arcs n := by
  intro a ha
  obtain ⟨hmem, hend⟩ := mem_endingBefore.1 ha
  exact mem_endingBefore.2 ⟨hmem, by omega⟩

/-- Of two sets without a common arc, the arcs around a time add up. -/
theorem card_around_add_le (hdisjoint : Disjoint arcs chosen) (h : arcs ⊆ larger)
    (h' : chosen ⊆ larger) :
    (around arcs time).card + (around chosen time).card ≤ (around larger time).card := by
  have haround : Disjoint (around arcs time) (around chosen time) :=
    Finset.disjoint_filter_filter hdisjoint
  rw [← Finset.card_union_of_disjoint haround]
  exact Finset.card_le_card (Finset.union_subset (around_mono h) (around_mono h'))

theorem card_around_le_add (h : larger ⊆ arcs ∪ chosen) :
    (around larger time).card ≤ (around arcs time).card + (around chosen time).card := by
  refine Nat.le_trans (Finset.card_le_card (around_mono h)) ?_
  rw [around, Finset.filter_union]
  exact Finset.card_union_le ..

/-- Without an arc that is around a time, fewer arcs are. -/
theorem card_around_lt (h : arcs ⊆ larger) (hmem : arc ∈ larger) (hnot : arc ∉ arcs)
    (hspans : arc.Spans time) : (around arcs time).card < (around larger time).card := by
  refine Finset.card_lt_card ((Finset.ssubset_iff_of_subset (around_mono h)).2 ?_)
  exact ⟨arc, mem_around.2 ⟨hmem, hspans⟩, fun hin => hnot (mem_around.1 hin).1⟩

/-- A member of a packed set has found room behind those that end before it. -/
theorem Packed.room_of_mem (h : Packed ways arcs) (hmem : arc ∈ arcs) (hspans : arc.Spans time) :
    (around (endingBefore arcs arc.stop) time).card < ways := by
  have hnot : arc ∉ endingBefore arcs arc.stop := fun hin =>
    Nat.lt_irrefl _ (mem_endingBefore.1 hin).2
  have hlt := card_around_lt (Finset.filter_subset ..) hmem hnot hspans
  exact Nat.lt_of_lt_of_le hlt (h time)

/-- An arc can be added if each time inside it has room for one more. -/
theorem Packed.insert (h : Packed ways arcs)
    (hroom : ∀ time, arc.Spans time → (around arcs time).card < ways) :
    Packed ways (insert arc arcs) := by
  intro time
  rw [around, Finset.filter_insert]
  split
  · rename_i hspans
    exact Nat.le_trans (Finset.card_insert_le ..) (hroom time hspans)
  · exact h time

/-- An arc that fits behind the arcs ending before it can be taken in, for one that ends after it
if need be. The arcs ending before it are left as they are. -/
theorem Packed.exists_swap (h : Packed ways arcs) (hnot : ∀ a ∈ arcs, a.stop ≠ arc.stop)
    (hroom : ∀ time, arc.Spans time → (around (endingBefore arcs arc.stop) time).card < ways) :
    ∃ swapped, Packed ways swapped ∧ arcs.card ≤ swapped.card ∧ arc ∈ swapped ∧
      (∀ a ∈ swapped, a = arc ∨ a ∈ arcs) ∧
      ∀ a, a.stop < arc.stop → (a ∈ swapped ↔ a ∈ arcs) := by
  have harc : arc ∉ arcs := fun hmem => hnot arc hmem rfl
  rcases Finset.eq_empty_or_nonempty {a ∈ arcs | arc.stop < a.stop} with hnone | hsome
  · -- All other arcs end before it, so it can simply be added.
    have hbefore : endingBefore arcs arc.stop = arcs := by
      refine Finset.filter_true_of_mem fun a ha => ?_
      have hle := Finset.filter_eq_empty_iff.1 hnone ha
      have hne := hnot a ha
      omega
    rw [hbefore] at hroom
    refine ⟨Insert.insert arc arcs, h.insert hroom, ?_, Finset.mem_insert_self .., ?_, ?_⟩
    · rw [Finset.card_insert_of_notMem harc]
      exact Nat.le_succ _
    · intro a ha
      exact Finset.mem_insert.1 ha
    · intro a hlt
      have hne : a ≠ arc := fun heq => Nat.ne_of_lt hlt (congrArg Arc.stop heq)
      rw [Finset.mem_insert, or_iff_right hne]
  · -- Of the arcs that end after it, the one that starts first makes way.
    obtain ⟨late, hlate, hfirst⟩ := Finset.exists_min_image _ Arc.start hsome
    obtain ⟨hmem, hafter⟩ := Finset.mem_filter.1 hlate
    have hroom' : ∀ time, arc.Spans time → (around (arcs.erase late) time).card < ways := by
      intro time hspans
      by_cases hinside : late.Spans time
      · have hlt := card_around_lt (Finset.erase_subset late arcs) hmem
          (Finset.notMem_erase late arcs) hinside
        exact Nat.lt_of_lt_of_le hlt (h time)
      · -- Then no arc that ends after it is around this time.
        refine Nat.lt_of_le_of_lt (Finset.card_le_card fun a ha => ?_) (hroom time hspans)
        obtain ⟨hkept, haround⟩ := mem_around.1 ha
        have hold := Finset.mem_of_mem_erase hkept
        refine mem_around.2 ⟨mem_endingBefore.2 ⟨hold, ?_⟩, haround⟩
        have hne := hnot a hold
        by_contra hge
        have hfirst := hfirst a (Finset.mem_filter.2 ⟨hold, by omega⟩)
        refine hinside ⟨?_, ?_⟩
        · exact Nat.lt_of_le_of_lt hfirst haround.1
        · exact Nat.lt_trans hspans.2 hafter
    refine ⟨Insert.insert arc (arcs.erase late),
      (h.mono (Finset.erase_subset ..)).insert hroom', ?_, Finset.mem_insert_self .., ?_, ?_⟩
    · rw [Finset.card_insert_of_notMem fun hkept => harc (Finset.mem_of_mem_erase hkept)]
      exact Nat.le_of_eq (Finset.card_erase_add_one hmem).symm
    · intro a ha
      exact (Finset.mem_insert.1 ha).imp_right Finset.mem_of_mem_erase
    · intro a hlt
      have hne : a ≠ arc := fun heq => Nat.ne_of_lt hlt (congrArg Arc.stop heq)
      have hkept : a ≠ late := by
        rintro rfl
        exact Nat.lt_asymm hlt hafter
      rw [Finset.mem_insert, or_iff_right hne, Finset.mem_erase, and_iff_right hkept]

end

/-! ## The greedy choice -/

namespace ChosenGreedily

variable {ways n : Nat} {all : Arc → Prop} {arcs chosen : Finset Arc}

/-- At each time, the chosen arc around it that ends last has found room there. -/
theorem packed (h : ChosenGreedily ways all chosen)
    (hstop : ∀ a b, all a → all b → a.stop = b.stop → a = b) : Packed ways chosen := by
  intro time
  rcases (around chosen time).eq_empty_or_nonempty with hnone | hsome
  · rw [hnone]
    exact Nat.zero_le _
  · obtain ⟨last, hlast, hends⟩ := Finset.exists_max_image _ Arc.stop hsome
    obtain ⟨hmem, hspans⟩ := mem_around.1 hlast
    have hroom := (h.mem_iff last (h.among last hmem)).1 hmem time hspans
    refine Nat.le_of_lt_succ (Nat.lt_of_le_of_lt ?_ (Nat.succ_lt_succ hroom))
    rw [← Finset.card_erase_add_one hlast]
    refine Nat.succ_le_succ (Finset.card_le_card fun a ha => ?_)
    obtain ⟨hne, ha⟩ := Finset.mem_erase.1 ha
    obtain ⟨hchosen, haround⟩ := mem_around.1 ha
    refine mem_around.2 ⟨mem_endingBefore.2 ⟨hchosen, ?_⟩, haround⟩
    refine Nat.lt_of_le_of_ne (hends a ha) fun heq => hne ?_
    exact hstop a last (h.among a hchosen) (h.among last hmem) heq

/-- A packed set that agrees with the greedy choice on the arcs ending before a time can be made to
agree with it on those ending at that time too, without getting smaller. -/
theorem exchange (h : ChosenGreedily ways all chosen)
    (hstop : ∀ a b, all a → all b → a.stop = b.stop → a = b) (hall : ∀ a ∈ arcs, all a)
    (hpacked : Packed ways arcs) (hagree : endingBefore arcs n = endingBefore chosen n) :
    ∃ swapped, (∀ a ∈ swapped, all a) ∧ Packed ways swapped ∧ arcs.card ≤ swapped.card ∧
      endingBefore swapped (n + 1) = endingBefore chosen (n + 1) := by
  have hbefore := endingBefore_eq_iff.1 hagree
  by_cases hmissing : ∃ arc ∈ chosen, arc ∉ arcs ∧ arc.stop = n
  · -- The greedy choice takes an arc that the set does not have, so it is taken in.
    obtain ⟨arc, hchosen, hmem, rfl⟩ := hmissing
    have harc := h.among arc hchosen
    have hroom := (h.mem_iff arc harc).1 hchosen
    rw [← hagree] at hroom
    obtain ⟨swapped, hswapped, hcard, hin, hold, hsame⟩ := hpacked.exists_swap
      (fun a ha heq => hmem (hstop a arc (hall a ha) harc heq ▸ ha)) hroom
    have hall' : ∀ a ∈ swapped, all a := by
      intro a ha
      rcases hold a ha with rfl | ha
      · exact harc
      · exact hall a ha
    refine ⟨swapped, hall', hswapped, hcard, endingBefore_eq_iff.2 fun a hlt => ?_⟩
    rcases Nat.lt_or_eq_of_le (Nat.le_of_lt_succ hlt) with hlt | heq
    · exact (hsame a hlt).trans (hbefore a hlt)
    · constructor
      · intro ha
        exact hstop a arc (hall' a ha) harc heq ▸ hchosen
      · intro ha
        exact hstop a arc (h.among a ha) harc heq ▸ hin
  · refine ⟨arcs, hall, hpacked, Nat.le_refl _, endingBefore_eq_iff.2 fun a hlt => ?_⟩
    rcases Nat.lt_or_eq_of_le (Nat.le_of_lt_succ hlt) with hlt | rfl
    · exact hbefore a hlt
    · constructor
      · -- The arc has found room in the set, so the greedy choice takes it too.
        intro ha
        refine (h.mem_iff a (hall a ha)).2 fun time hspans => ?_
        rw [← hagree]
        exact hpacked.room_of_mem ha hspans
      · intro ha
        by_contra hmem
        exact hmissing ⟨a, ha, hmem, rfl⟩

/-- **The greedy choice is a largest one** among the packed sets, where no two arcs end at the same
time and all of them end before some time. -/
theorem card_le (h : ChosenGreedily ways all chosen)
    (hstop : ∀ a b, all a → all b → a.stop = b.stop → a = b) (hends : ∀ a, all a → a.stop < n)
    (hall : ∀ a ∈ arcs, all a) (hpacked : Packed ways arcs) : arcs.card ≤ chosen.card := by
  -- By exchanging the arcs one after the other, in the order in which they end.
  have hexchanged : ∀ m, ∃ swapped, (∀ a ∈ swapped, all a) ∧ Packed ways swapped ∧
      arcs.card ≤ swapped.card ∧ endingBefore swapped m = endingBefore chosen m := by
    intro m
    induction m with
    | zero => exact ⟨arcs, hall, hpacked, Nat.le_refl _, by simp [endingBefore]⟩
    | succ m ih =>
      obtain ⟨swapped, hall', hpacked', hcard, hagree⟩ := ih
      obtain ⟨swapped', hall'', hpacked'', hcard', hagree'⟩ :=
        h.exchange hstop hall' hpacked' hagree
      exact ⟨swapped', hall'', hpacked'', Nat.le_trans hcard hcard', hagree'⟩
  obtain ⟨swapped, hall', -, hcard, hagree⟩ := hexchanged n
  have hwhole : endingBefore swapped n = swapped :=
    Finset.filter_true_of_mem fun a ha => hends a (hall' a ha)
  calc arcs.card ≤ swapped.card := hcard
    _ = (endingBefore chosen n).card := by rw [← hagree, hwhole]
    _ ≤ chosen.card := Finset.card_le_card (Finset.filter_subset ..)

/-! ## The greedy choices for two numbers of ways -/

/-- An arc that is not chosen has met a full time. -/
theorem exists_full (h : ChosenGreedily ways all chosen) {arc : Arc} (harc : all arc)
    (hnot : arc ∉ chosen) :
    ∃ time, arc.Spans time ∧ ways ≤ (around (endingBefore chosen arc.stop) time).card := by
  rw [h.mem_iff arc harc] at hnot
  simp only [not_forall, Nat.not_lt] at hnot
  obtain ⟨time, hspans, hfull⟩ := hnot
  exact ⟨time, hspans, hfull⟩

/-- An arc that is not chosen has met a full time behind which no time inside it was full. -/
theorem exists_last_full (h : ChosenGreedily ways all chosen) {arc : Arc} (harc : all arc)
    (hnot : arc ∉ chosen) :
    ∃ time, arc.Spans time ∧ ways ≤ (around (endingBefore chosen arc.stop) time).card ∧
      ∀ later, arc.Spans later →
        ways ≤ (around (endingBefore chosen arc.stop) later).card → later ≤ time := by
  let full := (Finset.range arc.stop).filter fun time =>
    arc.Spans time ∧ ways ≤ (around (endingBefore chosen arc.stop) time).card
  have hfull : ∀ time, time ∈ full ↔
      arc.Spans time ∧ ways ≤ (around (endingBefore chosen arc.stop) time).card := by
    intro time
    simp only [full, Finset.mem_filter, Finset.mem_range, and_iff_right_iff_imp]
    intro h
    exact h.1.2
  obtain ⟨first, hfirst⟩ := h.exists_full harc hnot
  obtain ⟨last, hlast, hmax⟩ := full.exists_max_image id ⟨first, (hfull first).2 hfirst⟩
  obtain ⟨hspans, hcard⟩ := (hfull last).1 hlast
  refine ⟨last, hspans, hcard, ?_⟩
  intro later hspans' hcard'
  exact hmax later ((hfull later).2 ⟨hspans', hcard'⟩)

variable {more : Nat} {larger : Finset Arc}

/-- Behind the last full time of the choice for fewer ways, the choice for more ways has no more
additional arcs than it has additional ways: each of them has met a full time, so all of them lie
around the last full time that the latest of them has met. -/
theorem card_additional_le (h : ChosenGreedily ways all chosen)
    (h' : ChosenGreedily more all larger)
    (hstop : ∀ a b, all a → all b → a.stop = b.stop → a = b) (hle : ways ≤ more)
    (hsub : ∀ a ∈ chosen, a.stop < n → a ∈ larger) {time : Nat}
    (hroom : ∀ later, time ≤ later → (around (endingBefore chosen n) later).card < ways) :
    (around (endingBefore (larger \ chosen) n) time).card + ways ≤ more := by
  rcases (around (endingBefore (larger \ chosen) n) time).eq_empty_or_nonempty with hnone | hsome
  · rw [hnone]
    simpa using hle
  have hmem : ∀ a ∈ around (endingBefore (larger \ chosen) n) time,
      a ∈ larger ∧ a ∉ chosen ∧ a.stop < n ∧ a.Spans time := by
    simp [mem_around, mem_endingBefore, and_assoc]
  obtain ⟨latest, hlatest, hends⟩ := Finset.exists_max_image _ Arc.stop hsome
  obtain ⟨hlarger, hnot, hlt, hspans⟩ := hmem latest hlatest
  obtain ⟨full, hinside, hfull, hlast⟩ := h.exists_last_full (h'.among latest hlarger) hnot
  have hbehind : full < time := by
    by_contra hge
    have hgrow : endingBefore chosen latest.stop ⊆ endingBefore chosen n :=
      endingBefore_subset (Nat.le_of_lt hlt)
    have hcard : (around (endingBefore chosen latest.stop) full).card ≤
        (around (endingBefore chosen n) full).card :=
      Finset.card_le_card (around_mono hgrow)
    have := hroom full (by omega)
    omega
  have hothers : (around (endingBefore (larger \ chosen) n) time).erase latest ⊆
      around (endingBefore (larger \ chosen) latest.stop) full := by
    intro a ha
    obtain ⟨hne, ha⟩ := Finset.mem_erase.1 ha
    have hend := hends a ha
    obtain ⟨halarger, hanot, -, haspans⟩ := hmem a ha
    have hbefore : a.stop < latest.stop := by
      refine Nat.lt_of_le_of_ne hend fun heq => hne ?_
      exact hstop a latest (h'.among a halarger) (h'.among latest hlarger) heq
    -- It has met a full time itself, and none of those inside the latest comes later.
    obtain ⟨met, hmet, hmetfull⟩ := h.exists_full (h'.among a halarger) hanot
    have hmetle : met ≤ full := by
      by_cases hin : latest.Spans met
      · have hgrow : endingBefore chosen a.stop ⊆ endingBefore chosen latest.stop :=
          endingBefore_subset hend
        exact hlast met hin (hmetfull.trans (Finset.card_le_card (around_mono hgrow)))
      · have := hmet.2
        have := hinside.1
        simp only [Arc.Spans] at hin
        omega
    have hstart := hmet.1
    have hstop := haspans.2
    refine mem_around.2 ⟨mem_endingBefore.2 ⟨Finset.mem_sdiff.2 ⟨halarger, hanot⟩, hbefore⟩, ?_⟩
    exact ⟨by omega, by omega⟩
  -- With the chosen arcs they make up what the latest of them has found at that time.
  have hsum : (around (endingBefore chosen latest.stop) full).card +
      (around (endingBefore (larger \ chosen) latest.stop) full).card ≤
        (around (endingBefore larger latest.stop) full).card := by
    refine card_around_add_le (Finset.disjoint_filter_filter Finset.disjoint_sdiff) ?_ ?_
    · intro a ha
      obtain ⟨hchosen, hend⟩ := mem_endingBefore.1 ha
      exact mem_endingBefore.2 ⟨hsub a hchosen (by omega), hend⟩
    · exact Finset.filter_subset_filter _ Finset.sdiff_subset
  have hfound := (h'.mem_iff latest (h'.among latest hlarger)).1 hlarger full hinside
  have hothers := Finset.card_le_card hothers
  rw [Finset.card_erase_of_mem hlatest] at hothers
  omega

/-- Where the choice for fewer ways has taken an arc, no time from those inside it on is full. -/
theorem room_behind (h : ChosenGreedily ways all chosen) {arc : Arc} (hmem : arc ∈ chosen)
    {time later : Nat} (hspans : arc.Spans time) (hlater : time ≤ later) :
    (around (endingBefore chosen arc.stop) later).card < ways := by
  have hfits := (h.mem_iff arc (h.among arc hmem)).1 hmem
  by_cases hin : arc.Spans later
  · exact hfits later hin
  · -- Nothing that ends before the arc reaches beyond it.
    have hnone : around (endingBefore chosen arc.stop) later = ∅ := by
      refine Finset.eq_empty_of_forall_notMem ?_
      intro a ha
      obtain ⟨hbefore, haround⟩ := mem_around.1 ha
      have hend := (mem_endingBefore.1 hbefore).2
      have hreach := haround.2
      have hstart := hspans.1
      simp only [Arc.Spans] at hin
      omega
    have := hfits time hspans
    rw [hnone, Finset.card_empty]
    omega

/-- **More ways take no arc away.** The greedy choice for more ways takes every arc that the greedy
choice for fewer ways takes. -/
theorem subset_of_le (h : ChosenGreedily ways all chosen) (h' : ChosenGreedily more all larger)
    (hstop : ∀ a b, all a → all b → a.stop = b.stop → a = b) (hle : ways ≤ more) :
    chosen ⊆ larger := by
  -- By going through the arcs in the order in which they end.
  have hall : ∀ m, ∀ a ∈ chosen, a.stop < m → a ∈ larger := by
    intro m
    induction m with
    | zero =>
      intro a ha hlt
      omega
    | succ m ih =>
      intro a ha hlt
      rcases Nat.lt_or_eq_of_le (Nat.le_of_lt_succ hlt) with hlt | rfl
      · exact ih a ha hlt
      · refine (h'.mem_iff a (h.among a ha)).2 ?_
        intro time hspans
        have hchosen := h.room_behind ha hspans (Nat.le_refl time)
        have hadditional := h.card_additional_le h' hstop hle ih fun later hlater =>
          h.room_behind ha hspans hlater
        have hcover : endingBefore larger a.stop ⊆
            endingBefore chosen a.stop ∪ endingBefore (larger \ chosen) a.stop := by
          intro b hb
          obtain ⟨hblarger, hend⟩ := mem_endingBefore.1 hb
          simp only [Finset.mem_union, mem_endingBefore, Finset.mem_sdiff]
          tauto
        have hcard : (around (endingBefore larger a.stop) time).card ≤
            (around (endingBefore chosen a.stop) time).card +
              (around (endingBefore (larger \ chosen) a.stop) time).card :=
          card_around_le_add hcover
        omega
  intro a ha
  exact hall (a.stop + 1) a ha (Nat.lt_succ_self _)

end ChosenGreedily

end Residency
