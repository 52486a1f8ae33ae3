import Mathlib.Data.List.Dedup
import Mathlib.Order.Bounds.Defs
import Residency.Proofs.Oracle.Packing
import Residency.Proofs.Oracle.Refinement

/-!
# An oracle on a stream of accesses

Each key of a stream is asked for and then inserted with the oracle's own verdict. As long as the
stream is no longer than the ring, no key is forgotten, and the arcs that get charged are the greedy
choice among all the reuses in the stream. The oracle is then friendly as often as any packed set
has arcs.
-/

namespace Residency

/-! ## Reuses -/

section

variable {κ : Type}

/-- The key that is accessed at a time. The first access happens at time 1. -/
def accessedAt (keys : List κ) : Nat → Option κ
  | 0 => none
  | time + 1 => keys[time]?

/-- The arc leads from an access of a key to the next access of the same key. -/
def Arc.IsReuse (keys : List κ) (arc : Arc) : Prop :=
  ∃ key, accessedAt keys arc.start = some key ∧ accessedAt keys arc.stop = some key ∧
    arc.start < arc.stop ∧ ∀ t, arc.Spans t → accessedAt keys t ≠ some key

theorem Chronicle.keyAt_eq (c : Chronicle κ) (t : Nat) : c.keyAt t = accessedAt c.keys t := by
  cases t <;> rfl

theorem accessedAt_le {keys : List κ} {t : Nat} {key : κ} (h : accessedAt keys t = some key) :
    1 ≤ t ∧ t ≤ keys.length := by
  rw [← Chronicle.keyAt_eq { keys }] at h
  exact Chronicle.keyAt_le_time h

theorem accessedAt_append_of_le {keys : List κ} {t : Nat} (more : List κ) (h : t ≤ keys.length) :
    accessedAt (keys ++ more) t = accessedAt keys t := by
  cases t with
  | zero => rfl
  | succ t => exact List.getElem?_append_left h

theorem accessedAt_append_singleton (keys : List κ) (key : κ) :
    accessedAt (keys ++ [key]) (keys.length + 1) = some key := by
  simp [accessedAt]

theorem mem_of_accessedAt {keys : List κ} {t : Nat} {key : κ} (h : accessedAt keys t = some key) :
    key ∈ keys := by
  cases t with
  | zero => cases h
  | succ t => exact List.mem_of_getElem? h

namespace Arc.IsReuse

variable {keys : List κ} {a b arc : Arc}

theorem stop_le (h : arc.IsReuse keys) : arc.stop ≤ keys.length := by
  obtain ⟨key, -, hstop, -, -⟩ := h
  exact (accessedAt_le hstop).2

/-- Two reuses of one key that overlap are the same. -/
theorem eq_of_overlap (ha : a.IsReuse keys) (hb : b.IsReuse keys)
    (hkey : accessedAt keys a.stop = accessedAt keys b.stop) (hab : a.start < b.stop)
    (hba : b.start < a.stop) : a = b := by
  obtain ⟨key, hstarta, hstopa, -, hinsidea⟩ := ha
  obtain ⟨key', hstartb, hstopb, -, hinsideb⟩ := hb
  obtain rfl : key = key' := Option.some.inj (hstopa.symm.trans (hkey.trans hstopb))
  have hstart : a.start = b.start := by
    rcases Nat.lt_trichotomy a.start b.start with hlt | heq | hlt
    · exact absurd hstartb (hinsidea b.start ⟨hlt, hba⟩)
    · exact heq
    · exact absurd hstarta (hinsideb a.start ⟨hlt, hab⟩)
  have hstop : a.stop = b.stop := by
    rcases Nat.lt_trichotomy a.stop b.stop with hlt | heq | hlt
    · exact absurd hstopa (hinsideb a.stop ⟨hba, hlt⟩)
    · exact heq
    · exact absurd hstopb (hinsidea b.stop ⟨hab, hlt⟩)
  obtain ⟨start, stop⟩ := a
  obtain ⟨start', stop'⟩ := b
  exact congr (congrArg Arc.mk hstart) hstop

theorem start_lt (h : arc.IsReuse keys) : arc.start < arc.stop := by
  obtain ⟨key, -, -, hlt, -⟩ := h
  exact hlt

/-- No two reuses end at the same time. -/
theorem eq_of_stop (ha : a.IsReuse keys) (hb : b.IsReuse keys) (hstop : a.stop = b.stop) :
    a = b := by
  refine ha.eq_of_overlap hb (congrArg _ hstop) ?_ ?_
  · exact hstop ▸ ha.start_lt
  · exact hstop ▸ hb.start_lt

/-- A later access does not matter to an arc that has ended before. -/
theorem append_iff (hle : arc.stop ≤ keys.length) (key : κ) :
    arc.IsReuse (keys ++ [key]) ↔ arc.IsReuse keys := by
  by_cases hlt : arc.start < arc.stop
  · have hold : ∀ t, t ≤ arc.stop → accessedAt (keys ++ [key]) t = accessedAt keys t := by
      intro t ht
      exact accessedAt_append_of_le [key] (Nat.le_trans ht hle)
    refine exists_congr fun k => ?_
    rw [hold arc.start (Nat.le_of_lt hlt), hold arc.stop (Nat.le_refl _)]
    refine and_congr_right fun _ => and_congr_right fun _ => and_congr_right fun _ => ?_
    refine forall_congr' fun t => imp_congr_right fun ht => ?_
    rw [hold t (Nat.le_of_lt ht.2)]
  · exact iff_of_false (fun h => hlt h.start_lt) fun h => hlt h.start_lt

end Arc.IsReuse

end

namespace ChosenGreedily

variable {κ : Type} {ways : Nat} {keys : List κ} {arcs chosen : Finset Arc}

/-- A greedy choice among reuses is packed. -/
theorem packed_reuses (h : ChosenGreedily ways (Arc.IsReuse keys) chosen) : Packed ways chosen :=
  h.packed fun _ _ ha hb => ha.eq_of_stop hb

/-- A greedy choice among reuses is a largest one. -/
theorem card_le_reuses (h : ChosenGreedily ways (Arc.IsReuse keys) chosen)
    (hreuse : ∀ arc ∈ arcs, arc.IsReuse keys) (hpacked : Packed ways arcs) :
    arcs.card ≤ chosen.card := by
  refine h.card_le (n := keys.length + 1) ?_ ?_ hreuse hpacked
  · intro a b ha hb hstop
    exact ha.eq_of_stop hb hstop
  · intro arc harc
    exact Nat.lt_succ_of_le harc.stop_le

end ChosenGreedily

/-! ## The chronicle of a stream -/

namespace Chronicle

variable {κ : Type} {ways window : Nat} {c : Chronicle κ} {keys : List κ}
  {verdicts : List Prediction}

theorem Coherent.nodup_charged (h : c.Coherent) : c.charged.Nodup :=
  h.stops.imp fun hlt heq => Nat.ne_of_lt hlt (congrArg Arc.stop heq).symm

/-- The load of a time counts the charged arcs around it. -/
theorem Coherent.load_eq_card (h : c.Coherent) (t : Nat) :
    c.load t = (around c.charged.toFinset t).card := by
  have hfilter : around c.charged.toFinset t =
      (c.charged.filter fun arc => arc.Spans t).toFinset := by
    rw [List.toFinset_filter, around]
    simp
  rw [load, List.countP_eq_length_filter, hfilter,
    List.toFinset_card_of_nodup (h.nodup_charged.filter _)]

/-- What the chronicle of a stream is like when each key has been inserted with the verdict that
the chronicle had for it. -/
structure OfStream (ways : Nat) (c : Chronicle κ) (keys : List κ) (verdicts : List Prediction) :
    Prop where
  keys_eq : c.keys = keys
  /-- No key has been removed. -/
  remembered : ∀ key ∈ keys, ∃ start, c.last key = some start
  greedy : ChosenGreedily ways (Arc.IsReuse keys) c.charged.toFinset
  length_eq : verdicts.length = keys.length
  friendly_eq : verdicts.countP Prediction.isFriendly = c.charged.length

theorem OfStream.empty (ways : Nat) : OfStream ways ({} : Chronicle κ) [] [] where
  keys_eq := rfl
  remembered := by simp
  greedy := by
    refine ⟨by simp, ?_⟩
    rintro arc ⟨key, hstart, -⟩
    have := accessedAt_le hstart
    simp at this
    omega
  length_eq := rfl
  friendly_eq := rfl

/-- The arc that ends with one more access leads from the last access of its key. -/
theorem OfStream.openArc_of_isReuse (h : OfStream ways c keys verdicts) (hc : c.Coherent)
    (hwindow : keys.length < window) {key : κ} {arc : Arc} (hstop : arc.stop = keys.length + 1)
    (harc : arc.IsReuse (keys ++ [key])) : c.openArc window key = some arc := by
  obtain rfl := h.keys_eq
  obtain ⟨k, hstart, hk, hlt, hinside⟩ := harc
  rw [hstop, accessedAt_append_singleton] at hk
  obtain rfl : key = k := Option.some.inj hk
  have hold : ∀ t, t < arc.stop → accessedAt (c.keys ++ [key]) t = accessedAt c.keys t := by
    intro t ht
    exact accessedAt_append_of_le [key] (by omega)
  rw [hold arc.start hlt] at hstart
  obtain ⟨start, hlast⟩ := h.remembered key (mem_of_accessedAt hstart)
  have hspec := hc.last_spec key start hlast
  simp only [keyAt_eq] at hspec
  obtain ⟨hat, hlater⟩ := hspec
  have hbound := accessedAt_le hat
  obtain rfl : start = arc.start := by
    rcases Nat.lt_trichotomy start arc.start with hbefore | heq | hbehind
    · exact absurd hstart (hlater arc.start hbefore)
    · exact heq
    · have hmiss := hinside start ⟨hbehind, by omega⟩
      rw [hold start (by omega)] at hmiss
      exact absurd hat hmiss
  refine openArc_eq_some_iff.2 ⟨hlast, ?_, hstop⟩
  show c.keys.length - arc.start < window
  omega

variable [DecidableEq κ]

/-- An insert charges nothing that ends before it. -/
theorem endingBefore_insert (c : Chronicle κ) (key : κ) (protect : Bool) {n : Nat}
    (hn : n ≤ c.time + 1) :
    endingBefore (c.insert window key protect).charged.toFinset n =
      endingBefore c.charged.toFinset n := by
  ext arc
  simp only [mem_endingBefore, List.mem_toFinset, mem_charged_insert]
  refine and_congr_left fun hlt => or_iff_right ?_
  rintro ⟨-, hopen⟩
  have hstop := (openArc_eq_some_iff.1 hopen).2.2
  omega

/-- With its own verdicts a chronicle goes on choosing greedily. -/
theorem OfStream.greedy_insert (h : OfStream ways c keys verdicts) (hc : c.Coherent)
    (hwindow : keys.length < window) (key : κ) :
    ChosenGreedily ways (Arc.IsReuse (keys ++ [key]))
      (c.insert window key (decide (c.Keeps ways window key))).charged.toFinset where
  among := by
    intro arc harc
    obtain ⟨k, hreuse⟩ := (hc.insert window key _).charged_spec arc (List.mem_toFinset.1 harc)
    simp only [keyAt_eq] at hreuse
    rw [← h.keys_eq]
    exact ⟨k, hreuse⟩
  mem_iff := by
    intro arc harc
    rw [List.mem_toFinset, mem_charged_insert, decide_eq_true_iff]
    have htime : c.time = keys.length := congrArg List.length h.keys_eq
    have hle := harc.stop_le
    rw [List.length_append, List.length_singleton] at hle
    rcases Nat.lt_or_eq_of_le hle with hle | hnow
    · -- The arc has ended before, and nothing that is charged now matters to it.
      have hold := (Arc.IsReuse.append_iff (Nat.le_of_lt_succ hle) key).1 harc
      have hnot : ¬ (c.Keeps ways window key ∧ c.openArc window key = some arc) := by
        rintro ⟨-, hopen⟩
        have hstop := (openArc_eq_some_iff.1 hopen).2.2
        omega
      rw [or_iff_right hnot, c.endingBefore_insert key _ (by omega), ← List.mem_toFinset]
      exact h.greedy.mem_iff arc hold
    · -- The arc ends now, behind all that has been charged so far.
      have hopen := h.openArc_of_isReuse hc hwindow hnow harc
      have hstop := (openArc_eq_some_iff.1 hopen).2.2
      have hall : endingBefore c.charged.toFinset (c.time + 1) = c.charged.toFinset := by
        refine Finset.filter_true_of_mem fun a ha => ?_
        exact Nat.lt_succ_of_le (hc.stop_le (List.mem_toFinset.1 ha))
      have hnot : arc ∉ c.charged := fun hmem => by
        have := hc.stop_le hmem
        omega
      rw [or_iff_left hnot, and_iff_left hopen, hstop,
        c.endingBefore_insert key _ (Nat.le_refl _), hall, keeps_iff_openArc]
      simp only [hopen, Option.some.injEq, exists_eq_left', hc.load_eq_card]
      refine forall_congr' fun t => ?_
      constructor
      · intro hroom hspans
        exact hroom hspans.1 (by have := hspans.2; omega)
      · intro hroom hstart hle
        exact hroom ⟨hstart, by omega⟩

theorem OfStream.insert (h : OfStream ways c keys verdicts) (hc : c.Coherent)
    (hwindow : keys.length < window) (key : κ) :
    OfStream ways (c.insert window key (decide (c.Keeps ways window key))) (keys ++ [key])
      (verdicts ++ [.ofBool (decide (c.Keeps ways window key))]) where
  keys_eq := by rw [← h.keys_eq]; rfl
  remembered := by
    intro k hk
    rw [last_insert]
    split
    · exact ⟨_, rfl⟩
    · rename_i hne
      refine h.remembered k ((List.mem_append.1 hk).resolve_right fun hlast => hne ?_)
      exact List.mem_singleton.1 hlast
  greedy := h.greedy_insert hc hwindow key
  length_eq := by simp [h.length_eq]
  friendly_eq := by
    rw [List.countP_append, h.friendly_eq, List.countP_singleton, Prediction.isFriendly_ofBool]
    by_cases hkeeps : c.Keeps ways window key
    · obtain ⟨arc, hopen, -⟩ := keeps_iff_openArc.1 hkeeps
      simp [Chronicle.insert, hkeeps, hopen, Nat.add_comm]
    · simp [Chronicle.insert, hkeeps]

end Chronicle

/-! ## The oracle -/

namespace Oracle

variable {κ : Type} [DecidableEq κ] {ways multiplier : Nat} {o : Oracle κ}

/-- Asks for a verdict on a key, and inserts the key with that verdict. -/
def access (o : Oracle κ) (key : κ) : Checked (Prediction × Oracle κ) := do
  let verdict ← o.predict key
  return (verdict, ← o.insert key verdict.isFriendly)

/-- Accesses some keys in order, and answers the verdicts on them. -/
def replay (o : Oracle κ) (keys : List κ) : Checked (List Prediction × Oracle κ) :=
  keys.foldlM (fun (verdicts, o) key => do
    let (verdict, o) ← o.access key
    return (verdicts ++ [verdict], o)) ([], o)

/-- An access while the ring has room: the verdict is that of the chronicle, and the chronicle
notes an insert with this verdict. -/
theorem access_eq {window : Nat} {c : Chronicle κ} (ht : Tracks ways window o c)
    (hfits : FitsWord window) (hwindow : c.time < window) (key : κ) :
    ∃ o', o.access key = .ok (.ofBool (decide (c.Keeps ways window key)), o') ∧
      Tracks ways window o' (c.insert window key (decide (c.Keeps ways window key))) := by
  have hinsert := ht.insert key (decide (c.Keeps ways window key))
  cases h : o.insert key (decide (c.Keeps ways window key)) with
  | error fault =>
    obtain ⟨-, hfull⟩ := hinsert.of_error h
    rw [Chronicle.time_insert] at hfull
    exact absurd hfits (Nat.not_lt_of_le (Nat.le_trans hfull hwindow))
  | ok o' =>
    refine ⟨o', ?_, hinsert.of_ok h⟩
    rw [access, ht.predict_eq, ok_bind, Prediction.isFriendly_ofBool, h]
    rfl

/-- On a stream that is no longer than the ring, what the chronicle and the verdicts keep with every
access holds of them at the end. -/
theorem replay_induction (ho : new ways multiplier = .ok o) {keys : List κ}
    (hlength : keys.length ≤ ways * multiplier)
    {motive : List κ → List Prediction → Chronicle κ → Prop} (hstart : motive [] [] {})
    (hstep : ∀ done verdicts c key, c.Coherent → c.keys = done →
      done.length < ways * multiplier → motive done verdicts c →
      motive (done ++ [key])
        (verdicts ++ [.ofBool (decide (c.Keeps o.capacity (ways * multiplier) key))])
        (c.insert (ways * multiplier) key
          (decide (c.Keeps o.capacity (ways * multiplier) key)))) :
    ∃ verdicts o' c, o.replay keys = .ok (verdicts, o') ∧ c.Coherent ∧ motive keys verdicts c := by
  obtain ⟨hfits, -, ht⟩ := new_eq_ok ho
  have h : Delivers (o.replay keys) (fun _ => False) fun result =>
      ∃ c, Tracks o.capacity (ways * multiplier) result.2 c ∧ c.keys = keys ∧
        motive keys result.1 c := by
    refine Delivers.foldlM_history (motive := fun done (result : List Prediction × Oracle κ) =>
      ∃ c, Tracks o.capacity (ways * multiplier) result.2 c ∧ c.keys = done ∧
        motive done result.1 c) ⟨_, ht, rfl, hstart⟩ ?_
    rintro done key ⟨verdicts, o'⟩ hdone ⟨c, ht, rfl, hc⟩
    have hlt : c.keys.length < ways * multiplier := by
      have hle := hdone.length_le
      rw [List.length_append, List.length_singleton] at hle
      omega
    obtain ⟨o'', haccess, ht'⟩ := access_eq ht hfits hlt key
    refine .of_eq_ok (by simp only [haccess, ok_bind]; rfl) ⟨_, ht', rfl, ?_⟩
    exact hstep _ verdicts c key ht.coherent rfl hlt hc
  obtain ⟨⟨verdicts, o'⟩, hreplay, c, ht, -, hc⟩ := h.exists_ok
  exact ⟨verdicts, o', c, hreplay, ht.coherent, hc⟩

/-- On a stream that is no longer than the ring, the friendly verdicts count a greedy choice among
its reuses. -/
theorem replay_spec (ho : new ways multiplier = .ok o) {keys : List κ}
    (hlength : keys.length ≤ ways * multiplier) :
    ∃ verdicts o' chosen, o.replay keys = .ok (verdicts, o') ∧ verdicts.length = keys.length ∧
      verdicts.countP Prediction.isFriendly = chosen.card ∧
      ChosenGreedily o.capacity (Arc.IsReuse keys) chosen := by
  obtain ⟨verdicts, o', c, hreplay, hcoherent, hs⟩ := replay_induction ho hlength
    (motive := fun done verdicts c => c.OfStream o.capacity done verdicts) (.empty _)
    fun _ _ _ key hcoherent _ hwindow hs => hs.insert hcoherent hwindow key
  refine ⟨verdicts, o', c.charged.toFinset, hreplay, hs.length_eq, ?_, hs.greedy⟩
  rw [hs.friendly_eq, List.toFinset_card_of_nodup hcoherent.nodup_charged]

/-- **The greedy verdicts are optimal.** On a stream that is no longer than the ring, the oracle is
friendly as often as the largest set has reuses such that no time lies strictly inside more of them
than there are ways. -/
theorem replay_packs_most (hways : ways < UInt32.size) (ho : new ways multiplier = .ok o)
    {keys : List κ} (hlength : keys.length ≤ ways * multiplier) :
    ∃ verdicts o', o.replay keys = .ok (verdicts, o') ∧ verdicts.length = keys.length ∧
      IsGreatest {n | ∃ arcs : Finset Arc, (∀ arc ∈ arcs, arc.IsReuse keys) ∧
        Packed ways arcs ∧ arcs.card = n} (verdicts.countP Prediction.isFriendly) := by
  obtain ⟨-, hcapacity, -⟩ := new_eq_ok ho
  rw [Nat.min_eq_left (Nat.le_sub_one_of_lt hways)] at hcapacity
  obtain ⟨verdicts, o', chosen, hreplay, hverdicts, hfriendly, hgreedy⟩ := replay_spec ho hlength
  rw [hcapacity] at hgreedy
  refine ⟨verdicts, o', hreplay, hverdicts, ⟨chosen, hgreedy.among, hgreedy.packed_reuses, ?_⟩, ?_⟩
  · exact hfriendly.symm
  · rintro n ⟨arcs, hall, hpacked, rfl⟩
    rw [hfriendly]
    exact hgreedy.card_le_reuses hall hpacked

/-- Of two nested reuses only the inner one can be packed for one way. -/
theorem replay_packs_most_nested :
    ∃ o : Oracle Nat, 1 < UInt32.size ∧ new 1 8 = .ok o ∧ [1, 2, 3, 2, 1].length ≤ 1 * 8 ∧
      ∃ verdicts o', o.replay [1, 2, 3, 2, 1] = .ok (verdicts, o') ∧
        verdicts.length = [1, 2, 3, 2, 1].length ∧
        IsGreatest {n | ∃ arcs : Finset Arc, (∀ arc ∈ arcs, arc.IsReuse [1, 2, 3, 2, 1]) ∧
          Packed 1 arcs ∧ arcs.card = n} (verdicts.countP Prediction.isFriendly) :=
  ⟨_, by decide, rfl, by decide,
    replay_packs_most (by decide) (show new 1 8 = .ok _ from rfl) (by decide)⟩

end Oracle

end Residency
