import Mathlib.Data.List.Forall2
import Mathlib.Data.List.Induction
import Residency.Fault

/-!
# What a computation that may fault delivers

`Delivers x excused post` says of a checked computation that it ends with a result for which
`post` holds, or stops with a fault that `excused` allows for. Every operation gets one such
statement, and the statement of a sequence is put together from those of its parts. A computation
that may not fault at all has an `excused` that no fault satisfies.
-/

namespace Residency

@[simp] theorem ok_bind {α β : Type} (a : α) (next : α → Checked β) :
    (.ok a : Checked α) >>= next = next a := rfl

@[simp] theorem pure_eq_ok {α : Type} (a : α) : (pure a : Checked α) = .ok a := rfl

/-- The computation ends with a result that satisfies `post`, or with an excused fault. -/
def Delivers {α : Type} (x : Checked α) (excused : Fault → Prop) (post : α → Prop) : Prop :=
  match x with
  | .ok a => post a
  | .error fault => excused fault

/-- The only fault allowed for is a 64-bit counter without a value left, and that only where
counting to `bound` takes more than 64 bits. -/
def Exhausted (bound : Nat) (fault : Fault) : Prop :=
  fault = .exhausted ∧ UInt64.size ≤ bound

theorem Exhausted.mono {bound larger : Nat} (h : bound ≤ larger) {fault : Fault}
    (hfault : Exhausted bound fault) : Exhausted larger fault :=
  ⟨hfault.1, Nat.le_trans hfault.2 h⟩

theorem exists_of_isOk {α : Type} {x : Checked α} (h : x.isOk) : ∃ a, x = .ok a := by
  cases x with
  | ok a => exact ⟨a, rfl⟩
  | error fault => cases h

namespace Delivers

variable {α β : Type} {x : Checked α} {excused allowed : Fault → Prop} {post weaker : α → Prop}

theorem of_eq_ok {a : α} (hx : x = .ok a) (h : post a) : Delivers x excused post := by
  subst hx
  exact h

theorem of_exists (h : ∃ a, x = .ok a ∧ post a) : Delivers x excused post := by
  obtain ⟨a, hx, ha⟩ := h
  exact of_eq_ok hx ha

theorem of_eq_error {fault : Fault} (hx : x = .error fault) (h : excused fault) :
    Delivers x excused post := by
  subst hx
  exact h

theorem of_ok {a : α} (h : Delivers x excused post) (hx : x = .ok a) : post a := by
  subst hx
  exact h

theorem of_error {fault : Fault} (h : Delivers x excused post) (hx : x = .error fault) :
    excused fault := by
  subst hx
  exact h

theorem of_isOk (h : Delivers x excused post) (hx : x.isOk) : ∃ a, x = .ok a ∧ post a := by
  cases x with
  | ok a => exact ⟨a, rfl, h⟩
  | error fault => cases hx

theorem exists_ok (h : Delivers x (fun _ => False) post) : ∃ a, x = .ok a ∧ post a := by
  cases x with
  | ok a => exact ⟨a, rfl, h⟩
  | error fault => exact h.elim

/-- What ends with a result has no need of an excuse. -/
theorem trivial_of_isOk (hx : x.isOk) : Delivers x excused fun _ => True := by
  cases x with
  | ok a => exact trivial
  | error fault => cases hx

/-- What ends with a result as the first of two computations has a result with which the second
one ends. -/
theorem of_isOk_bind {next : α → Checked β} (h : Delivers x excused post)
    (hx : (x >>= next).isOk) : ∃ a, x = .ok a ∧ post a ∧ (next a).isOk := by
  cases x with
  | ok a => exact ⟨a, rfl, h, hx⟩
  | error fault => cases hx

/-- Where any fault is allowed for, it is enough to look at the results. -/
theorem of_forall_ok (h : ∀ a, x = .ok a → post a) : Delivers x (fun _ => True) post := by
  cases x with
  | ok a => exact h a rfl
  | error fault => exact trivial

theorem self (h : Delivers x excused post) : Delivers x excused fun a => x = .ok a ∧ post a := by
  cases x with
  | ok a => exact ⟨rfl, h⟩
  | error fault => exact h

theorem mono (h : Delivers x excused post) (hexcused : ∀ fault, excused fault → allowed fault)
    (hpost : ∀ a, post a → weaker a) : Delivers x allowed weaker := by
  cases x with
  | ok a => exact hpost a h
  | error fault => exact hexcused fault h

/-- Two computations in sequence: the second starts where the first has ended. -/
theorem bind {next : α → Checked β} {final : β → Prop} (h : Delivers x excused post)
    (hnext : ∀ a, post a → Delivers (next a) excused final) :
    Delivers (x >>= next) excused final := by
  cases x with
  | ok a => exact hnext a h
  | error fault => exact h

theorem map {f : α → β} {final : β → Prop} (h : Delivers x excused fun a => final (f a)) :
    Delivers (x.map f) excused final := by
  cases x with
  | ok a => exact h
  | error fault => exact h

theorem of_map {f : α → β} {final : β → Prop} (h : Delivers (f <$> x) excused final) :
    Delivers x excused fun a => final (f a) := by
  cases x with
  | ok a => exact h
  | error fault => exact h

theorem require {condition : Prop} [Decidable condition] {fault : Fault}
    (h : ¬ condition → excused fault) :
    Delivers (Residency.require condition fault) excused fun _ => condition := by
  by_cases hc : condition
  · exact of_eq_ok (require_eq_ok hc) hc
  · exact of_eq_error (by simp [Residency.require, hc]) (h hc)

/-- An invariant that speaks of the steps already taken, and is kept by every further one, holds at
the end of all of them. -/
theorem foldlM_history {step : β → α → Checked β} {motive : List α → β → Prop} {as : List α}
    {b : β} (h : motive [] b)
    (hstep : ∀ done a b, done ++ [a] <+: as → motive done b →
      Delivers (step b a) excused (motive (done ++ [a]))) :
    Delivers (as.foldlM step b) excused (motive as) := by
  induction as using List.reverseRecOn with
  | nil => exact h
  | append_singleton earlier a ih =>
    rw [List.foldlM_append]
    refine (ih fun done a b hdone => hstep done a b ?_).bind fun b' h' => ?_
    · exact hdone.trans (List.prefix_append ..)
    · rw [List.foldlM_cons]
      exact (hstep earlier a b' (List.prefix_refl _) h').bind fun b'' h'' => h''

end Delivers

/-- Two folds over one list that end without a fault: what every two steps keep is kept. -/
theorem foldlM_both {α β : Type} {motive : β → β → Prop} {step : β → α → Checked β} {as : List α}
    (hstep : ∀ a ∈ as, ∀ b b' d d', motive b d → step b a = .ok b' → step d a = .ok d' →
      motive b' d')
    {b b' d d' : β} (h : motive b d) (hb : as.foldlM step b = .ok b')
    (hd : as.foldlM step d = .ok d') : motive b' d' := by
  induction as generalizing b d with
  | nil =>
    obtain rfl := Except.ok.inj hb
    obtain rfl := Except.ok.inj hd
    exact h
  | cons a rest ih =>
    rw [List.foldlM_cons] at hb hd
    obtain ⟨b₁, hb₁, hb⟩ := bind_eq_ok_iff.1 hb
    obtain ⟨d₁, hd₁, hd⟩ := bind_eq_ok_iff.1 hd
    exact ih (fun a ha => hstep a (List.mem_cons_of_mem _ ha))
      (hstep a (List.mem_cons_self ..) b b₁ d d₁ h hb₁ hd₁) hb hd

/-- If no step faults, neither does going through a list, and each result comes from its step. -/
theorem mapM_eq_ok {α β : Type} {f : α → Checked β} {spec : α → β → Prop} {as : List α}
    (h : ∀ a ∈ as, ∃ b, f a = .ok b ∧ spec a b) :
    ∃ bs, as.mapM f = .ok bs ∧ List.Forall₂ spec as bs := by
  induction as with
  | nil => exact ⟨[], rfl, .nil⟩
  | cons a rest ih =>
    obtain ⟨b, hb, hspec⟩ := h a (by simp)
    obtain ⟨bs, hbs, hall⟩ := ih fun a ha => h a (by simp [ha])
    refine ⟨b :: bs, ?_, .cons hspec hall⟩
    rw [List.mapM_cons, hb, ok_bind, hbs, ok_bind, pure_eq_ok]

end Residency
