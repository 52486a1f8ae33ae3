import Mathlib.Data.Finset.Card
import Mathlib.Data.List.Nodup
import Mathlib.Logic.Function.Basic
import Residency.Oracle

/-!
# An unbounded record of what an oracle is told

A chronicle is what an oracle would know if its memory had no bound: every insert since the last
reset, the last insert of each key that has not been removed, and every arc that has been charged.

`Coherent` is the invariant of every chronicle that calls lead to. Its main consequence is
`Coherent.load_lt`: a time is never charged by more keys than have been inserted since, the key
inserted at that very time not among them.
-/

namespace Residency

/-- The times from one insert of a key to its next. -/
structure Arc where
  start : Nat
  stop : Nat
deriving DecidableEq, Repr

/-- The time lies strictly inside the arc. -/
def Arc.Spans (arc : Arc) (time : Nat) : Prop :=
  arc.start < time ∧ time < arc.stop

instance (arc : Arc) (time : Nat) : Decidable (arc.Spans time) :=
  inferInstanceAs (Decidable (_ ∧ _))

/-- All that has happened since the last reset. -/
structure Chronicle (κ : Type) where
  /-- The inserted keys, the earliest first. The insert of the first key happens at time 1. -/
  keys : List κ := []
  /-- The time of each key's last insert, unless it has been removed since. -/
  last : κ → Option Nat := fun _ => none
  /-- The arcs that have been charged. -/
  charged : List Arc := []

/-- One thing that an oracle is told. -/
inductive OracleCall (κ : Type) where
  | insert (key : κ) (protect : Bool)
  | remove (key : κ)
  | reset
deriving DecidableEq, Repr

namespace Chronicle

variable {κ : Type}

/-- The time of the last insert. -/
def time (c : Chronicle κ) : Nat :=
  c.keys.length

/-- The key that is inserted at a time. -/
def keyAt (c : Chronicle κ) : Nat → Option κ
  | 0 => none
  | time + 1 => c.keys[time]?

/-- The number of charged arcs that a time lies strictly inside of. -/
def load (c : Chronicle κ) (time : Nat) : Nat :=
  c.charged.countP fun arc => arc.Spans time

/-- The arc that an insert of a key would charge now: there is one if the key's last insert has not
been removed and fewer than `window` inserts have happened since. -/
def openArc (c : Chronicle κ) (window : Nat) (key : κ) : Option Arc :=
  match c.last key with
  | none => none
  | some start => if c.time - start < window then some ⟨start, c.time + 1⟩ else none

/-- As far as the record shows, optimal replacement would have kept a key until now: its last insert
has not been removed, fewer than `window` inserts have happened since, and none of the times since
then lies inside as many charged arcs as there are ways. -/
def Keeps (c : Chronicle κ) (ways window : Nat) (key : κ) : Prop :=
  match c.last key with
  | none => False
  | some start => c.time - start < window ∧
      ∀ t ∈ List.range' (start + 1) (c.time - start), c.load t < ways

instance (c : Chronicle κ) (ways window : Nat) (key : κ) :
    Decidable (c.Keeps ways window key) := by
  unfold Keeps
  split <;> infer_instance

section

variable [DecidableEq κ]

/-- An insert happens at the next time, and charges the arc that it closes if told to. -/
def insert (c : Chronicle κ) (window : Nat) (key : κ) (protect : Bool) : Chronicle κ where
  keys := c.keys ++ [key]
  last := Function.update c.last key (some (c.time + 1))
  charged := (if protect then c.openArc window key else none).toList ++ c.charged

/-- A removed key has no last insert. Its charged arcs remain. -/
def remove (c : Chronicle κ) (key : κ) : Chronicle κ :=
  { c with last := Function.update c.last key none }

/-- The chronicle after a call. -/
def perform (window : Nat) (c : Chronicle κ) : OracleCall κ → Chronicle κ
  | .insert key protect => c.insert window key protect
  | .remove key => c.remove key
  | .reset => {}

/-- The chronicle of some calls. -/
def ofCalls (window : Nat) (calls : List (OracleCall κ)) : Chronicle κ :=
  calls.foldl (perform window) {}

end

/-! ## Reading a chronicle -/

theorem keyAt_le_time {c : Chronicle κ} {t : Nat} {key : κ} (h : c.keyAt t = some key) :
    1 ≤ t ∧ t ≤ c.time := by
  cases t with
  | zero => cases h
  | succ t =>
    obtain ⟨ht, -⟩ := List.getElem?_eq_some_iff.1 h
    exact ⟨by omega, ht⟩

theorem keyAt_eq_none {c : Chronicle κ} {t : Nat} (h : c.time < t) : c.keyAt t = none := by
  cases t with
  | zero => rfl
  | succ t => exact List.getElem?_eq_none (Nat.le_of_lt_succ h)

theorem exists_keyAt {c : Chronicle κ} {t : Nat} (h : 1 ≤ t) (ht : t ≤ c.time) :
    ∃ key ∈ c.keys, c.keyAt t = some key := by
  obtain ⟨s, rfl⟩ := Nat.exists_eq_add_of_le' h
  exact ⟨c.keys[s], List.getElem_mem ht, List.getElem?_eq_getElem ht⟩

/-- An arc that can be charged now ends at the time of the next insert. -/
theorem openArc_eq_some_iff {c : Chronicle κ} {window : Nat} {key : κ} {arc : Arc} :
    c.openArc window key = some arc ↔
      c.last key = some arc.start ∧ c.time - arc.start < window ∧ arc.stop = c.time + 1 := by
  obtain ⟨start, stop⟩ := arc
  unfold openArc
  cases c.last key with
  | none => simp
  | some r =>
    simp only [Option.ite_none_right_eq_some, Option.some.injEq, Arc.mk.injEq]
    constructor
    · rintro ⟨h, rfl, rfl⟩
      exact ⟨rfl, h, rfl⟩
    · rintro ⟨rfl, h, rfl⟩
      exact ⟨h, rfl, rfl⟩

theorem keeps_iff {c : Chronicle κ} {ways window : Nat} {key : κ} :
    c.Keeps ways window key ↔ ∃ start, c.last key = some start ∧ c.time - start < window ∧
      ∀ t, start < t → t ≤ c.time → c.load t < ways := by
  unfold Keeps
  cases c.last key with
  | none => simp
  | some start =>
    simp only [List.mem_range'_1, Option.some.injEq, exists_eq_left']
    refine and_congr_right fun _ => forall_congr' fun t => ?_
    constructor
    · exact fun h hs ht => h ⟨hs, by omega⟩
    · exact fun h ht => h ht.1 (by omega)

theorem keeps_iff_openArc {c : Chronicle κ} {ways window : Nat} {key : κ} :
    c.Keeps ways window key ↔ ∃ arc, c.openArc window key = some arc ∧
      ∀ t, arc.start < t → t ≤ c.time → c.load t < ways := by
  rw [keeps_iff]
  constructor
  · rintro ⟨start, hlast, hlive, hall⟩
    exact ⟨⟨start, c.time + 1⟩, openArc_eq_some_iff.2 ⟨hlast, hlive, rfl⟩, hall⟩
  · rintro ⟨arc, hopen, hall⟩
    obtain ⟨hlast, hlive, -⟩ := openArc_eq_some_iff.1 hopen
    exact ⟨arc.start, hlast, hlive, hall⟩

/-! ## What each call changes -/

section

variable [DecidableEq κ]

@[simp] theorem time_insert (c : Chronicle κ) (window : Nat) (key : κ) (protect : Bool) :
    (c.insert window key protect).time = c.time + 1 := by
  simp [insert, time]

theorem last_insert (c : Chronicle κ) (window : Nat) (key : κ) (protect : Bool) (k : κ) :
    (c.insert window key protect).last k = if k = key then some (c.time + 1) else c.last k :=
  Function.update_apply ..

theorem last_remove (c : Chronicle κ) (key k : κ) :
    (c.remove key).last k = if k = key then none else c.last k :=
  Function.update_apply ..

theorem keyAt_insert (c : Chronicle κ) (window : Nat) (key : κ) (protect : Bool) (t : Nat) :
    (c.insert window key protect).keyAt t = if t = c.time + 1 then some key else c.keyAt t := by
  cases t with
  | zero => simp [keyAt]
  | succ t =>
    simp only [keyAt, insert, time, Nat.add_right_cancel_iff]
    rcases Nat.lt_trichotomy t c.keys.length with h | rfl | h
    · rw [List.getElem?_append_left h, if_neg (by omega)]
    · simp
    · rw [if_neg (by omega), List.getElem?_eq_none (by simp; omega),
        List.getElem?_eq_none (by omega)]

/-- An insert charges at most the arc that it closes. -/
theorem mem_charged_insert {c : Chronicle κ} {window : Nat} {key : κ} {protect : Bool}
    {arc : Arc} : arc ∈ (c.insert window key protect).charged ↔
      (protect ∧ c.openArc window key = some arc) ∨ arc ∈ c.charged := by
  cases protect <;> simp [insert]

/-- An insert adds one unit to the load of the times inside the arc that it charges. -/
theorem load_insert (c : Chronicle κ) (window : Nat) (key : κ) (protect : Bool) (t : Nat) :
    (c.insert window key protect).load t = c.load t +
      if protect ∧ ∃ arc, c.openArc window key = some arc ∧ arc.Spans t then 1 else 0 := by
  cases protect with
  | false => simp [load, insert]
  | true =>
    cases hopen : c.openArc window key with
    | none => simp [load, insert, hopen]
    | some arc => simp [load, insert, hopen, List.countP_cons]

end

/-! ## Coherence -/

/-- What holds of every chronicle that has come about by calls. -/
structure Coherent (c : Chronicle κ) : Prop where
  /-- A key is not inserted again behind its last insert. -/
  last_spec : ∀ key start, c.last key = some start →
    c.keyAt start = some key ∧ ∀ t, start < t → c.keyAt t ≠ some key
  /-- A charged arc leads from an insert of a key to the next insert of the same key. -/
  charged_spec : ∀ arc ∈ c.charged, ∃ key, c.keyAt arc.start = some key ∧
    c.keyAt arc.stop = some key ∧ arc.start < arc.stop ∧
    ∀ t, arc.Spans t → c.keyAt t ≠ some key
  /-- At most one arc is charged at a time. -/
  stops : c.charged.Pairwise fun later earlier => earlier.stop < later.stop

namespace Coherent

variable {c : Chronicle κ}

theorem empty : Coherent ({} : Chronicle κ) where
  last_spec := by simp
  charged_spec := by simp
  stops := .nil

theorem last_le (h : c.Coherent) {key : κ} {start : Nat} (hl : c.last key = some start) :
    start ≤ c.time :=
  (keyAt_le_time (h.last_spec key start hl).1).2

theorem stop_le (h : c.Coherent) {arc : Arc} (ha : arc ∈ c.charged) : arc.stop ≤ c.time := by
  obtain ⟨key, -, hstop, -, -⟩ := h.charged_spec arc ha
  exact (keyAt_le_time hstop).2

/-- The present lies inside no charged arc, and neither does the future. -/
theorem load_eq_zero (h : c.Coherent) {t : Nat} (ht : c.time ≤ t) : c.load t = 0 := by
  rw [load, List.countP_eq_zero]
  intro arc ha
  have := h.stop_le ha
  simp only [decide_eq_true_eq]
  exact fun hspans => by have := hspans.2; omega

variable [DecidableEq κ]

theorem insert (h : c.Coherent) (window : Nat) (key : κ) (protect : Bool) :
    (c.insert window key protect).Coherent where
  last_spec := by
    intro k start hl
    rw [last_insert] at hl
    simp only [keyAt_insert]
    split at hl
    · rename_i hk
      obtain rfl : c.time + 1 = start := by simpa using hl
      refine ⟨by simp [hk], fun t ht => ?_⟩
      rw [if_neg (by omega), keyAt_eq_none (by omega)]
      simp
    · rename_i hk
      obtain ⟨hat, hlater⟩ := h.last_spec k start hl
      have hle := (keyAt_le_time hat).2
      refine ⟨by rw [if_neg (by omega), hat], fun t ht => ?_⟩
      split
      · simpa using Ne.symm hk
      · exact hlater t ht
  charged_spec := by
    intro arc ha
    simp only [keyAt_insert]
    rcases mem_charged_insert.1 ha with ⟨-, hopen⟩ | hold
    · obtain ⟨hl, -, hstop⟩ := openArc_eq_some_iff.1 hopen
      obtain ⟨hat, hlater⟩ := h.last_spec key arc.start hl
      have hle := (keyAt_le_time hat).2
      refine ⟨key, by rw [if_neg (by omega), hat], by simp [hstop], by omega, fun t ht => ?_⟩
      rw [if_neg (by have := ht.2; omega)]
      exact hlater t ht.1
    · obtain ⟨k, hstart, hstop, hlt, hinside⟩ := h.charged_spec arc hold
      have hle := (keyAt_le_time hstop).2
      refine ⟨k, by rw [if_neg (by omega), hstart], by rw [if_neg (by omega), hstop], hlt,
        fun t ht => ?_⟩
      rw [if_neg (by have := ht.2; omega)]
      exact hinside t ht
  stops := by
    refine List.pairwise_append.2 ⟨?_, h.stops, fun later hlater earlier hearlier => ?_⟩
    · cases (if protect then c.openArc window key else none) <;> simp
    · -- The arc that is charged now ends at the next time, and no other arc does.
      have hopen : c.openArc window key = some later := by
        cases protect <;> simp_all
      have := (openArc_eq_some_iff.1 hopen).2.2
      have := h.stop_le hearlier
      omega

theorem remove (h : c.Coherent) (key : κ) : (c.remove key).Coherent where
  last_spec := by
    intro k start hl
    rw [last_remove] at hl
    split at hl
    · cases hl
    · exact h.last_spec k start hl
  charged_spec := h.charged_spec
  stops := h.stops

end Coherent

/-! ## The load of a time -/

/-- The keys that have been inserted at a time or later. -/
def since [DecidableEq κ] (c : Chronicle κ) (time : Nat) : Finset κ :=
  (c.keys.drop (time - 1)).toFinset

theorem mem_since [DecidableEq κ] {c : Chronicle κ} {t s : Nat} {key : κ} (hs : t ≤ s)
    (h : c.keyAt s = some key) : key ∈ c.since t := by
  cases s with
  | zero => cases h
  | succ s =>
    rw [since, List.mem_toFinset, List.mem_drop_iff_getElem]
    obtain ⟨hlt, rfl⟩ := List.getElem?_eq_some_iff.1 h
    exact ⟨s - (t - 1), by omega, by congr 1; omega⟩

/-- Two charged arcs of one key do not overlap. -/
theorem Coherent.keyAt_stop_ne {c : Chronicle κ} (h : c.Coherent) {later earlier : Arc} {t : Nat}
    (hlater : later ∈ c.charged) (hearlier : earlier ∈ c.charged)
    (hstop : earlier.stop < later.stop) (hspans : later.Spans t) (hspans' : earlier.Spans t) :
    c.keyAt later.stop ≠ c.keyAt earlier.stop := by
  obtain ⟨key, -, hkey, -, hinside⟩ := h.charged_spec later hlater
  obtain ⟨key', -, hkey', -, -⟩ := h.charged_spec earlier hearlier
  have hmiss := hinside earlier.stop ⟨Nat.lt_trans hspans.1 hspans'.2, hstop⟩
  rw [hkey]
  exact Ne.symm hmiss

/-- A time is charged by fewer keys than have been inserted at it or later: at most once by each of
them, and not by the one that is inserted at it. -/
theorem Coherent.load_lt [DecidableEq κ] {c : Chronicle κ} (h : c.Coherent) {t : Nat}
    (ht : 1 ≤ t) (htime : t ≤ c.time) : c.load t < (c.since t).card := by
  -- The arcs around a time are counted by the keys that they end with.
  let around := c.charged.filter fun arc => arc.Spans t
  have haround : ∀ arc, arc ∈ around ↔ arc ∈ c.charged ∧ arc.Spans t := by simp [around]
  have hnodup : (around.map fun arc => c.keyAt arc.stop).Nodup := by
    refine List.pairwise_map.2 ((h.stops.filter _).imp_of_mem fun hlater hearlier hstop => ?_)
    obtain ⟨hlater, hspans⟩ := (haround _).1 hlater
    obtain ⟨hearlier, hspans'⟩ := (haround _).1 hearlier
    exact h.keyAt_stop_ne hlater hearlier hstop hspans hspans'
  obtain ⟨key, -, hkey⟩ := exists_keyAt ht htime
  have hsubset : (around.map fun arc => c.keyAt arc.stop).toFinset ⊆
      ((c.since t).image some).erase (some key) := by
    intro k hk
    obtain ⟨arc, harc, rfl⟩ := List.mem_map.1 (List.mem_toFinset.1 hk)
    obtain ⟨hcharged, hspans⟩ := (haround _).1 harc
    obtain ⟨k, -, hstop, -, hinside⟩ := h.charged_spec arc hcharged
    rw [hstop, Finset.mem_erase]
    refine ⟨fun heq => hinside t hspans (hkey.trans heq.symm), ?_⟩
    exact Finset.mem_image_of_mem _ (mem_since (Nat.le_of_lt hspans.2) hstop)
  have hmem : some key ∈ (c.since t).image some :=
    Finset.mem_image_of_mem _ (mem_since (Nat.le_refl t) hkey)
  calc c.load t = (around.map fun arc => c.keyAt arc.stop).toFinset.card := by
        rw [List.toFinset_card_of_nodup hnodup, List.length_map, load, List.countP_eq_length_filter]
    _ ≤ (((c.since t).image some).erase (some key)).card := Finset.card_le_card hsubset
    _ < ((c.since t).image some).card := Finset.card_erase_lt_of_mem hmem
    _ = (c.since t).card := Finset.card_image_of_injective _ (Option.some_injective κ)

end Chronicle

end Residency
