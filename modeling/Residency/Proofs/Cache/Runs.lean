import Residency.Cache.Request
import Residency.Proofs.Accepted
import Residency.Proofs.Contents.Accounted
import Residency.Proofs.Replacement.Policy

/-!
# New caches and their runs

An accepted cache is empty, and its sizes are those of its settings. What every request preserves, a
run preserves.
-/

namespace Residency

theorem Contents.held_empty {σ : Type} {g : Geometry} (policy : σ)
    (hfits : FitsWord (g.sets * g.ways)) (id : LineId) :
    (Contents.empty g policy).held id = none := by
  by_cases hl : id.Within g.sets g.ways
  · rw [held_of_get hl (Slots.get_uniform hfits hl)]
    rfl
  · rw [held]
    exact if_neg hl

/-- Empty contents are sound, whatever policy serves them. -/
theorem Contents.empty_accounted {σ : Type} [ReplacementPolicy σ] [LawfulPolicy σ] {g : Geometry}
    {policy : σ} (hpow : g.lineBytes.isPowerOfTwo) (hways : 0 < g.ways)
    (hfits : FitsWord (g.sets * g.ways))
    (hserves : LawfulPolicy.Serves g.sets g.ways 0 (fun _ => false) policy) :
    (Contents.empty g policy).Accounted 0 0 := by
  have hheld := held_empty policy hfits
  refine ⟨⟨hpow, hways, Slots.uniform_shaped _ hfits, ?_, ?_, ?_⟩, ?_⟩
  · intro id line hl hline hvalid
    obtain rfl := Except.ok.inj ((Slots.get_uniform hfits hl).symm.trans hline)
    cases hvalid
  · intro a b pair ha
    rw [hheld] at ha
    cases ha
  · refine LawfulPolicy.serves_congr hserves fun id _ => ?_
    rw [hheld]
    rfl
  · have hnone : (Contents.empty g policy).occupancy = 0 :=
      List.countP_eq_zero.2 fun id _ => by simp [hheld]
    rw [hnone]
    constructor <;> simp [empty]

namespace Cache

/-- The request is an access. -/
def isAccess : Request → Bool
  | .access _ => true
  | _ => false

theorem run_singleton (c : Cache) (request : Request) :
    c.run [request] = do
      let (reply, c) ← c.perform request
      return ([reply], c) := rfl

/-- An invariant that speaks of the requests and the replies so far, and is kept by every further
request, holds at the end of a run. -/
theorem run_history {motive : List Request → List Reply → Cache → Prop} {excused : Fault → Prop}
    {requests : List Request} {c : Cache} (h : motive [] [] c)
    (hstep : ∀ done replies request c, done ++ [request] <+: requests → motive done replies c →
      Delivers (c.perform request) excused fun result =>
        motive (done ++ [request]) (replies ++ [result.1]) result.2) :
    Delivers (c.run requests) excused fun result => motive requests result.1 result.2 := by
  induction requests using List.reverseRecOn with
  | nil => exact h
  | append_singleton earlier request ih =>
    rw [run_append]
    refine (ih fun done replies other c hdone => hstep done replies other c ?_).bind ?_
    · exact hdone.trans (List.prefix_append ..)
    · rintro ⟨replies, c'⟩ h'
      dsimp only
      rw [run_singleton]
      have hperform := hstep earlier replies request c' (List.prefix_refl _) h'
      cases hresult : c'.perform request with
      | error fault => exact hperform.of_error hresult
      | ok result => exact hperform.of_ok hresult

theorem run_cons_eq_ok {c c' : Cache} {request : Request} {rest : List Request}
    {replies : List Reply} (h : c.run (request :: rest) = .ok (replies, c')) :
    ∃ reply c₁ more, c.perform request = .ok (reply, c₁) ∧ c₁.run rest = .ok (more, c') ∧
      replies = reply :: more := by
  rw [run] at h
  obtain ⟨⟨reply, c₁⟩, hperform, h⟩ := bind_eq_ok_iff.1 h
  obtain ⟨⟨more, c₂⟩, hrest, h⟩ := bind_eq_ok_iff.1 h
  obtain ⟨rfl, rfl⟩ := Prod.mk.inj (Except.ok.inj h)
  exact ⟨reply, c₁, more, hperform, hrest, rfl⟩

/-- Two runs, of which one leaves some requests out. What both sides keep where they carry out the
same request, and what the one side keeps where the other does nothing, is kept by the runs; and
the replies are those of the longer run to the requests of the shorter one. -/
theorem run_filter {motive : Cache → Cache → Prop} {keep : Request → Bool}
    {requests : List Request} {c c' d d' : Cache} {replies replies' : List Reply}
    (hboth : ∀ request c c' d d' reply reply', keep request = true → motive c d →
      c.perform request = .ok (reply, c') → d.perform request = .ok (reply', d') →
      reply' = reply ∧ motive c' d')
    (hleft : ∀ request c c' d reply, keep request = false → motive c d →
      c.perform request = .ok (reply, c') → motive c' d)
    (h : motive c d) (hc : c.run requests = .ok (replies, c'))
    (hd : d.run (requests.filter keep) = .ok (replies', d')) :
    replies' = ((requests.zip replies).filter fun step => keep step.1).map (·.2) ∧
      motive c' d' := by
  induction requests generalizing c d replies replies' with
  | nil =>
    obtain ⟨rfl, rfl⟩ := Prod.mk.inj (Except.ok.inj hc)
    obtain ⟨rfl, rfl⟩ := Prod.mk.inj (Except.ok.inj hd)
    exact ⟨rfl, h⟩
  | cons request rest ih =>
    obtain ⟨reply, c₁, more, hperform, hrest, rfl⟩ := run_cons_eq_ok hc
    cases hkeep : keep request with
    | true =>
      rw [List.filter_cons_of_pos hkeep] at hd
      obtain ⟨reply', d₁, more', hperform', hrest', rfl⟩ := run_cons_eq_ok hd
      obtain ⟨rfl, hmotive⟩ := hboth request c c₁ d d₁ reply reply' hkeep h hperform hperform'
      obtain ⟨rfl, hlast⟩ := ih hmotive hrest hrest'
      exact ⟨by simp [hkeep], hlast⟩
    | false =>
      rw [List.filter_cons_of_neg (by simp [hkeep])] at hd
      have hmotive := hleft request c c₁ d reply hkeep h hperform
      obtain ⟨rfl, hlast⟩ := ih hmotive hrest hd
      exact ⟨by simp [hkeep], hlast⟩

/-- Two runs of the same requests. What two caches keep whenever they carry out the same request,
replying in a certain relation, is kept by the runs, and all replies are in the relation. -/
theorem run_related {motive : Cache → Cache → Prop} {R : Reply → Reply → Prop}
    {requests : List Request} {c c' d d' : Cache} {replies replies' : List Reply}
    (hstep : ∀ request c c' d d' reply reply', motive c d →
      c.perform request = .ok (reply, c') → d.perform request = .ok (reply', d') →
      R reply reply' ∧ motive c' d')
    (h : motive c d) (hc : c.run requests = .ok (replies, c'))
    (hd : d.run requests = .ok (replies', d')) :
    List.Forall₂ R replies replies' ∧ motive c' d' := by
  induction requests generalizing c d replies replies' with
  | nil =>
    obtain ⟨rfl, rfl⟩ := Prod.mk.inj (Except.ok.inj hc)
    obtain ⟨rfl, rfl⟩ := Prod.mk.inj (Except.ok.inj hd)
    exact ⟨.nil, h⟩
  | cons request rest ih =>
    obtain ⟨reply, c₁, more, hperform, hrest, rfl⟩ := run_cons_eq_ok hc
    obtain ⟨reply', d₁, more', hperform', hrest', rfl⟩ := run_cons_eq_ok hd
    obtain ⟨hreply, hmotive⟩ := hstep request c c₁ d d₁ reply reply' h hperform hperform'
    obtain ⟨hmore, hlast⟩ := ih hmotive hrest hrest'
    exact ⟨.cons hreply hmore, hlast⟩

/-- Two runs of the same requests, where the same request gets the same reply on both sides. -/
theorem run_both {motive : Cache → Cache → Prop} {requests : List Request} {c c' d d' : Cache}
    {replies replies' : List Reply}
    (hboth : ∀ request c c' d d' reply reply', motive c d →
      c.perform request = .ok (reply, c') → d.perform request = .ok (reply', d') →
      reply' = reply ∧ motive c' d')
    (h : motive c d) (hc : c.run requests = .ok (replies, c'))
    (hd : d.run requests = .ok (replies', d')) : replies' = replies ∧ motive c' d' := by
  obtain ⟨hreplies, hlast⟩ := run_related hboth h hc hd
  refine ⟨?_, hlast⟩
  have hsame : List.Forall₂ (· = ·) replies replies' := hreplies.imp fun _ _ heq => heq.symm
  rw [List.forall₂_eq_eq_eq] at hsame
  exact hsame.symm

/-- What has been checked of the settings of a cache that has been built. -/
theorem new_eq_ok {settings : CacheSettings} {c : Cache} (h : Cache.new settings = .ok c) :
    ∃ geometry policy prefetcher, c = ⟨settings.enabled, .empty geometry policy, prefetcher⟩ ∧
      geometry.lineBytes = settings.lineBytes.toNat ∧ geometry.sets = settings.numSets ∧
      geometry.ways = settings.ways.toNat ∧ geometry.lineBytes.isPowerOfTwo ∧ 0 < geometry.ways ∧
      FitsWord (geometry.sets * geometry.ways) ∧
      Policy.new settings.policy geometry.sets geometry.ways settings.hawkeye = .ok policy ∧
      Prefetcher.new settings = .ok prefetcher := by
  simp only [Cache.new, accepted_bind_iff, accepted_refuseIf_iff, accepted_pure_iff, exists_const,
    not_not] at h
  obtain ⟨_, hcheck, policy, hpolicy, prefetcher, hprefetcher, geometry, hgeometry, hfits, rfl⟩ := h
  obtain ⟨hline, hsets, hways⟩ := Geometry.new_eq_ok hgeometry
  simp only [CacheSettings.check, accepted_bind_iff, accepted_refuseIf_iff, exists_const,
    not_not] at hcheck
  obtain ⟨hpow, hpos, -⟩ := hcheck
  have hpos : 0 < settings.ways.toNat := Nat.pos_of_ne_zero fun hzero =>
    hpos (UInt64.toNat_inj.1 hzero)
  rw [← hsets, ← hways] at hpolicy hfits
  exact ⟨geometry, policy, prefetcher, rfl, hline, hsets, hways, hline ▸ hpow, hways ▸ hpos, hfits,
    hpolicy, hprefetcher⟩

theorem new_accounted {settings : CacheSettings} {c : Cache} (h : Cache.new settings = .ok c) :
    c.contents.Accounted 0 0 := by
  obtain ⟨geometry, policy, prefetcher, rfl, -, -, -, hpow, hways, hfits, hpolicy, -⟩ := new_eq_ok h
  exact Contents.empty_accounted hpow hways hfits (Policy.new_serves hpolicy)

end Cache

end Residency
