import Residency.Proofs.Oracle.Refinement

/-!
# Oracles that answer alike

What an oracle says of a key depends on how many inserts lie behind the last insert of the key, and
on the loads of the times since. Two oracles that agree on both for some keys answer alike for these
keys, and still do when they are told the same from then on. What else they have been told before
does not matter: their clocks may differ, and so may what their rings hold of earlier times.
-/

namespace Residency

namespace Chronicle

variable {κ : Type} {c c' : Chronicle κ} {key : κ} {ways window : Nat} {keys : κ → Bool}

/-- The number of inserts behind the last insert of a key. -/
def age (c : Chronicle κ) (key : κ) : Option Nat :=
  (c.last key).map (c.time - ·)

/-- The load of the time that lies some inserts back. -/
def loadBack (c : Chronicle κ) (back : Nat) : Nat :=
  c.load (c.time - back)

theorem age_eq_some_iff {age : Nat} :
    c.age key = some age ↔ ∃ start, c.last key = some start ∧ c.time - start = age :=
  Option.map_eq_some_iff

theorem keeps_iff_age :
    c.Keeps ways window key ↔
      ∃ age, c.age key = some age ∧ age < window ∧ ∀ back, back < age → c.loadBack back < ways := by
  rw [keeps_iff]
  constructor
  · rintro ⟨start, hlast, hlive, hall⟩
    refine ⟨c.time - start, age_eq_some_iff.2 ⟨start, hlast, rfl⟩, hlive, ?_⟩
    intro back hback
    exact hall (c.time - back) (by omega) (by omega)
  · rintro ⟨age, hage, hlive, hall⟩
    obtain ⟨start, hlast, rfl⟩ := age_eq_some_iff.1 hage
    refine ⟨start, hlast, hlive, ?_⟩
    intro t hstart ht
    have hback := hall (c.time - t) (by omega)
    rwa [loadBack, Nat.sub_sub_self ht] at hback

/-! ## One insert later -/

section

variable [DecidableEq κ]

/-- An insert leaves all other keys one insert further behind. -/
theorem Coherent.age_insert (h : c.Coherent) (window : Nat) (key : κ) (protect : Bool) (k : κ) :
    (c.insert window key protect).age k =
      if k = key then some 0 else (c.age k).map (· + 1) := by
  rw [age, last_insert, time_insert]
  by_cases hk : k = key
  · simp [hk]
  · rw [if_neg hk, if_neg hk, age, Option.map_map]
    cases hlast : c.last k with
    | none => rfl
    | some start =>
      have hle := h.last_le hlast
      simp only [Option.map_some, Function.comp_apply, Option.some.injEq]
      omega

/-- The new time is free. -/
theorem Coherent.loadBack_insert_zero (h : c.Coherent) (window : Nat) (key : κ) (protect : Bool) :
    (c.insert window key protect).loadBack 0 = 0 :=
  (h.insert window key protect).load_eq_zero (Nat.le_refl _)

/-- The times behind the last insert of the key are charged. -/
theorem loadBack_insert_succ (c : Chronicle κ) (window : Nat) (key : κ) (protect : Bool)
    (back : Nat) :
    (c.insert window key protect).loadBack (back + 1) = c.loadBack back +
      if protect ∧ ∃ age, c.age key = some age ∧ age < window ∧ back < age then 1 else 0 := by
  have hspans : (∃ arc, c.openArc window key = some arc ∧ arc.Spans (c.time - back)) ↔
      ∃ age, c.age key = some age ∧ age < window ∧ back < age := by
    constructor
    · rintro ⟨arc, hopen, hstart, -⟩
      obtain ⟨hlast, hlive, -⟩ := openArc_eq_some_iff.1 hopen
      exact ⟨_, age_eq_some_iff.2 ⟨_, hlast, rfl⟩, hlive, by omega⟩
    · rintro ⟨age, hage, hlive, hback⟩
      obtain ⟨start, hlast, rfl⟩ := age_eq_some_iff.1 hage
      refine ⟨⟨start, c.time + 1⟩, openArc_eq_some_iff.2 ⟨hlast, hlive, rfl⟩, ?_, ?_⟩
      · show start < c.time - back
        omega
      · show c.time - back < c.time + 1
        omega
  rw [loadBack, time_insert, Nat.add_sub_add_right, load_insert, loadBack]
  simp only [hspans]

end

/-! ## Agreement on some keys -/

/-- The chronicles agree on the ages of some keys, and on the loads of the times that are younger
than one of them. -/
structure Alike (keys : κ → Bool) (c c' : Chronicle κ) : Prop where
  age_eq : ∀ key, keys key = true → c'.age key = c.age key
  load_eq : ∀ key age back, keys key = true → c.age key = some age → back < age →
    c'.loadBack back = c.loadBack back

namespace Alike

theorem of_none (c c' : Chronicle κ) : Alike (fun _ => false) c c' where
  age_eq := by simp
  load_eq := by simp

theorem symm (h : Alike keys c c') : Alike keys c' c where
  age_eq := fun key hkey => (h.age_eq key hkey).symm
  load_eq := fun key age back hkey hage hback =>
    (h.load_eq key age back hkey (h.age_eq key hkey ▸ hage) hback).symm

theorem keeps_iff (h : Alike keys c c') (hkey : keys key = true) :
    c'.Keeps ways window key ↔ c.Keeps ways window key := by
  rw [keeps_iff_age, keeps_iff_age, h.age_eq key hkey]
  refine exists_congr fun age => and_congr_right fun hage => and_congr_right fun _ => ?_
  refine forall_congr' fun back => imp_congr_right fun hback => ?_
  rw [h.load_eq key age back hkey hage hback]

variable [DecidableEq κ]

theorem insert (h : Alike keys c c') (hc : c.Coherent) (hc' : c'.Coherent) (window : Nat)
    (hkey : keys key = true) (protect : Bool) :
    Alike keys (c.insert window key protect) (c'.insert window key protect) where
  age_eq := by
    intro k hk
    rw [hc.age_insert, hc'.age_insert, h.age_eq k hk]
  load_eq := by
    intro k age back hk hage hback
    rw [hc.age_insert] at hage
    cases back with
    | zero => rw [hc.loadBack_insert_zero, hc'.loadBack_insert_zero]
    | succ back =>
      -- Something is younger than the key, so it is not the one that has just been inserted.
      split at hage
      · cases hage
        cases hback
      · obtain ⟨before, hbefore, rfl⟩ := Option.map_eq_some_iff.1 hage
        rw [loadBack_insert_succ, loadBack_insert_succ, h.age_eq key hkey,
          h.load_eq k before back hk hbefore (Nat.lt_of_succ_lt_succ hback)]

theorem remove (h : Alike keys c c') (key : κ) (known : Bool) :
    Alike (Function.update keys key known) (c.remove key) (c'.remove key) := by
  have hage : ∀ (d : Chronicle κ) (k : κ),
      (d.remove key).age k = if k = key then none else d.age k := by
    intro d k
    rw [age, last_remove]
    split <;> rfl
  have hkeys : ∀ k, Function.update keys key known k = true → k ≠ key → keys k = true := by
    intro k hk hne
    rwa [Function.update_of_ne hne] at hk
  refine ⟨?_, ?_⟩
  · intro k hk
    rw [hage, hage]
    split
    · rfl
    · exact h.age_eq k (hkeys k hk ‹_›)
  · intro k age back hk hk' hback
    rw [hage] at hk'
    split at hk'
    · cases hk'
    · exact h.load_eq k age back (hkeys k hk ‹_›) hk' hback

end Alike

end Chronicle

namespace Oracle

variable {κ : Type} [DecidableEq κ] {o o' p p' : Oracle κ} {keys : κ → Bool} {key : κ}
  {protect : Bool}

/-- The oracles have rings of one size and one capacity, and their chronicles agree on some keys. -/
def Alike (keys : κ → Bool) (o o' : Oracle κ) : Prop :=
  ∃ ways window c c', Tracks ways window o c ∧ Tracks ways window o' c' ∧ c.Alike keys c'

namespace Alike

/-- A new oracle agrees with itself, and no key is known. -/
theorem new {ways multiplier : Nat} (h : Oracle.new ways multiplier = .ok o) :
    Alike (fun _ => false) o o := by
  obtain ⟨-, -, htracks⟩ := new_eq_ok h
  exact ⟨_, _, _, _, htracks, htracks, .of_none _ _⟩

theorem symm (h : Alike keys o o') : Alike keys o' o := by
  obtain ⟨ways, window, c, c', hc, hc', halike⟩ := h
  exact ⟨ways, window, c', c, hc', hc, halike.symm⟩

/-- Without known keys only the rings have to fit. -/
theorem vacant (h : Alike keys o o') : Alike (fun _ => false) o o' := by
  obtain ⟨ways, window, c, c', hc, hc', -⟩ := h
  exact ⟨ways, window, c, c', hc, hc', .of_none c c'⟩

/-- A known key gets the same verdict. -/
theorem predict_eq (h : Alike keys o o') (hkey : keys key = true) :
    o'.predict key = o.predict key := by
  obtain ⟨ways, window, c, c', hc, hc', halike⟩ := h
  rw [hc.predict_eq, hc'.predict_eq]
  simp only [halike.keeps_iff hkey]

theorem insert (h : Alike keys o o') (hkey : keys key = true)
    (hp : o.insert key protect = .ok p) (hp' : o'.insert key protect = .ok p') :
    Alike keys p p' := by
  obtain ⟨ways, window, c, c', hc, hc', halike⟩ := h
  exact ⟨ways, window, _, _, (hc.insert key protect).of_ok hp, (hc'.insert key protect).of_ok hp',
    halike.insert hc.coherent hc'.coherent window hkey protect⟩

theorem remove (h : Alike keys o o') (key : κ) (known : Bool) :
    Alike (Function.update keys key known) (o.remove key) (o'.remove key) := by
  obtain ⟨ways, window, c, c', hc, hc', halike⟩ := h
  exact ⟨ways, window, _, _, hc.remove key, hc'.remove key, halike.remove key known⟩

/-- Without known keys the oracles agree whatever one of them is told. -/
theorem insert_left (h : Alike (fun _ => false) o o') (hp : o.insert key protect = .ok p) :
    Alike (fun _ => false) p o' := by
  obtain ⟨ways, window, c, c', hc, hc', -⟩ := h
  exact ⟨ways, window, _, _, (hc.insert key protect).of_ok hp, hc', .of_none _ _⟩

theorem remove_left (h : Alike (fun _ => false) o o') (key : κ) :
    Alike (fun _ => false) (o.remove key) o' := by
  obtain ⟨ways, window, c, c', hc, hc', -⟩ := h
  exact ⟨ways, window, _, _, hc.remove key, hc', .of_none _ _⟩

end Alike

end Oracle

end Residency
