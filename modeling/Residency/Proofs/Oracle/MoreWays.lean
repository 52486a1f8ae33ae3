import Residency.Proofs.Oracle.Stream

/-!
# More ways never take a friendly verdict back

Two oracles for different numbers of ways are asked about the same stream. The larger one is
friendly to more keys and charges more arcs, so at a time its counters may be the higher ones. But
the arcs that an oracle charges are the greedy choice among the reuses of the stream, and with more
ways the greedy choice loses no arc.
-/

namespace Residency

namespace Chronicle

variable {κ : Type} [DecidableEq κ] {c : Chronicle κ} {verdicts : List Prediction}

/-- The friendly verdicts are those on the accesses that end a charged arc. -/
def Explains (c : Chronicle κ) (verdicts : List Prediction) : Prop :=
  ∀ t : Nat, verdicts[t]? = some .friendly ↔ ∃ arc ∈ c.charged, arc.stop = t + 1

/-- An insert with the chronicle's own verdict charges an arc exactly if the verdict is friendly. -/
theorem exists_charged_insert (hc : c.Coherent) (window ways : Nat) (key : κ) :
    (∃ arc ∈ (c.insert window key (decide (c.Keeps ways window key))).charged,
      arc.stop = c.time + 1) ↔ c.Keeps ways window key := by
  simp only [mem_charged_insert, decide_eq_true_iff]
  constructor
  · rintro ⟨arc, ⟨hkeeps, -⟩ | hold, hstop⟩
    · exact hkeeps
    · have := hc.stop_le hold
      omega
  · intro hkeeps
    obtain ⟨arc, hopen, -⟩ := keeps_iff_openArc.1 hkeeps
    exact ⟨arc, .inl ⟨hkeeps, hopen⟩, (openArc_eq_some_iff.1 hopen).2.2⟩

/-- The arcs that end at another time have been charged before. -/
theorem exists_charged_insert_of_ne (window : Nat) (key : κ) (protect : Bool) {stop : Nat}
    (hstop : stop ≠ c.time + 1) :
    (∃ arc ∈ (c.insert window key protect).charged, arc.stop = stop) ↔
      ∃ arc ∈ c.charged, arc.stop = stop := by
  simp only [mem_charged_insert]
  constructor
  · rintro ⟨arc, ⟨-, hopen⟩ | hold, rfl⟩
    · exact absurd (openArc_eq_some_iff.1 hopen).2.2 hstop
    · exact ⟨arc, hold, rfl⟩
  · rintro ⟨arc, hold, rfl⟩
    exact ⟨arc, .inr hold, rfl⟩

theorem Explains.insert (h : c.Explains verdicts) (hc : c.Coherent)
    (hlength : verdicts.length = c.time) (window ways : Nat) (key : κ) :
    (c.insert window key (decide (c.Keeps ways window key))).Explains
      (verdicts ++ [.ofBool (decide (c.Keeps ways window key))]) := by
  intro t
  rcases Nat.lt_trichotomy t c.time with hlt | rfl | hgt
  · rw [List.getElem?_append_left (by omega), h t,
      exists_charged_insert_of_ne window key _ (by omega)]
  · rw [← hlength, List.getElem?_concat_length, hlength, exists_charged_insert hc]
    by_cases hkeeps : c.Keeps ways window key <;> simp [hkeeps, Prediction.ofBool]
  · rw [List.getElem?_eq_none (by simp; omega)]
    simp only [reduceCtorEq, false_iff, not_exists, not_and]
    intro arc harc hstop
    have hle := (hc.insert window key _).stop_le harc
    rw [time_insert] at hle
    omega

end Chronicle

namespace Oracle

variable {κ : Type} [DecidableEq κ] {ways more multiplier multiplier' : Nat}
  {small large o : Oracle κ}

/-- On a stream that is no longer than the ring, the friendly verdicts are those on the accesses
that end an arc of a greedy choice among the reuses. -/
theorem replay_explains (ho : new ways multiplier = .ok o) {keys : List κ}
    (hlength : keys.length ≤ ways * multiplier) :
    ∃ verdicts o' chosen, o.replay keys = .ok (verdicts, o') ∧ verdicts.length = keys.length ∧
      ChosenGreedily o.capacity (Arc.IsReuse keys) chosen ∧
      ∀ t : Nat, verdicts[t]? = some .friendly ↔ ∃ arc ∈ chosen, arc.stop = t + 1 := by
  obtain ⟨verdicts, o', c, hreplay, -, hstream, hexplains⟩ := replay_induction ho hlength
    (motive := fun done verdicts c => c.OfStream o.capacity done verdicts ∧ c.Explains verdicts)
    ⟨.empty _, by simp [Chronicle.Explains]⟩ (by
      rintro done verdicts c key hcoherent hkeys hwindow ⟨hstream, hexplains⟩
      have htime : verdicts.length = c.time := by rw [hstream.length_eq, ← hkeys]; rfl
      exact ⟨hstream.insert hcoherent hwindow key, hexplains.insert hcoherent htime _ _ key⟩)
  refine ⟨verdicts, o', c.charged.toFinset, hreplay, hstream.length_eq, hstream.greedy, ?_⟩
  intro t
  simpa only [List.mem_toFinset] using hexplains t

/-- **More ways never turn a friendly verdict averse**, on a stream that is no longer than either
ring. -/
theorem replay_friendly_mono (hle : ways ≤ more) (hmore : more < UInt32.size)
    (hsmall : new ways multiplier = .ok small) (hlarge : new more multiplier' = .ok large)
    {keys : List κ} (hlength : keys.length ≤ ways * multiplier)
    (hlength' : keys.length ≤ more * multiplier') :
    ∃ (verdicts verdicts' : List Prediction) (small' large' : Oracle κ),
      small.replay keys = .ok (verdicts, small') ∧
      large.replay keys = .ok (verdicts', large') ∧ verdicts.length = keys.length ∧
      verdicts'.length = keys.length ∧
      ∀ t : Nat, verdicts[t]? = some .friendly → verdicts'[t]? = some .friendly := by
  obtain ⟨verdicts, small', chosen, hreplay, hverdicts, hgreedy, hcharged⟩ :=
    replay_explains hsmall hlength
  obtain ⟨verdicts', large', larger, hreplay', hverdicts', hgreedy', hcharged'⟩ :=
    replay_explains hlarge hlength'
  have hways : small.capacity = ways := by
    rw [(new_eq_ok hsmall).2.1]
    omega
  have hways' : large.capacity = more := by
    rw [(new_eq_ok hlarge).2.1]
    omega
  rw [hways] at hgreedy
  rw [hways'] at hgreedy'
  have hsub : chosen ⊆ larger :=
    hgreedy.subset_of_le hgreedy' (fun _ _ ha hb => ha.eq_of_stop hb) hle
  refine ⟨verdicts, verdicts', small', large', hreplay, hreplay', hverdicts, hverdicts', ?_⟩
  intro t hfriendly
  obtain ⟨arc, hmem, hstop⟩ := (hcharged t).1 hfriendly
  exact (hcharged' t).2 ⟨arc, hsub hmem, hstop⟩

/-- One way has no room for the first reuse of key 1, and two ways have. What it charges there takes
none of the other reuses away. -/
theorem replay_friendly_mono_one_more :
    ∃ small large : Oracle Nat, 1 ≤ 2 ∧ 2 < UInt32.size ∧ new 1 8 = .ok small ∧
      new 2 4 = .ok large ∧ [1, 2, 3, 2, 3, 1, 1].length ≤ 1 * 8 ∧
      [1, 2, 3, 2, 3, 1, 1].length ≤ 2 * 4 ∧
      ∃ (verdicts verdicts' : List Prediction) (small' large' : Oracle Nat),
        small.replay [1, 2, 3, 2, 3, 1, 1] = .ok (verdicts, small') ∧
        large.replay [1, 2, 3, 2, 3, 1, 1] = .ok (verdicts', large') ∧
        verdicts.length = [1, 2, 3, 2, 3, 1, 1].length ∧
        verdicts'.length = [1, 2, 3, 2, 3, 1, 1].length ∧
        ∀ t : Nat, verdicts[t]? = some .friendly → verdicts'[t]? = some .friendly :=
  ⟨_, _, by decide, by decide, rfl, rfl, by decide, by decide,
    replay_friendly_mono (by decide) (by decide) (show new 1 8 = .ok _ from rfl)
      (show new 2 4 = .ok _ from rfl) (by decide) (by decide)⟩

end Oracle

end Residency
