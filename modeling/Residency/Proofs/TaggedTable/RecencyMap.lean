import Mathlib.Algebra.GroupWithZero.Nat
import Mathlib.Data.List.Basic
import Mathlib.Logic.Function.Basic
import Residency.TaggedTable

/-!
# Visits to a table, and a bounded map in its place

A table is visited by looking an index up. A slot that is found may be used and its entry written;
if none is found, an entry may be installed. The reference for a table with the least-recently-used
policy is a map that keeps the bindings of each set in a list, the most recently used first, and
lets the last one go when a full list gets another.
-/

namespace Residency

/-- An index of a security domain. -/
abbrev TableKey := UInt64 × Bool

/-- What can be done with a slot that has been found. -/
inductive SlotUse (E : Type) where
  /-- It counts as used. -/
  | touch
  /-- Its entry is replaced. -/
  | write (data : E)

/-- A visit to a table. -/
structure Visit (E : Type) where
  /-- What is looked up. -/
  key : TableKey
  /-- What is done in turn with the slot, if there is one. -/
  uses : List (SlotUse E) := []
  /-- What is installed if there is none. -/
  install : Option E := none

/-! ## Visits to a table -/

namespace TaggedTable

variable {σ E : Type} [ReplacementPolicy σ]

/-- The entry that the table finds. -/
def lookup (t : TaggedTable σ E) (key : TableKey) : Checked (Option E) := do
  match ← t.find? key.1 key.2 with
  | some id => return some (← t.entry id)
  | none => return none

/-- Uses a slot. -/
def useSlot (id : LineId) (t : TaggedTable σ E) : SlotUse E → Checked (TaggedTable σ E)
  | .touch => t.use id
  | .write data => t.setEntry id data

/-- Empties a slot and fills it. -/
def install (t : TaggedTable σ E) (key : TableKey) (data : E) : Checked (TaggedTable σ E) := do
  let (id, t) ← t.makeRoom key.1
  t.put key.1 key.2 id data

/-- Carries out a visit, and answers the entry that was found. -/
def visit (t : TaggedTable σ E) (v : Visit E) : Checked (Option E × TaggedTable σ E) := do
  match ← t.find? v.key.1 v.key.2 with
  | some id =>
    let data ← t.entry id
    return (some data, ← v.uses.foldlM (useSlot id) t)
  | none =>
    match v.install with
    | some data => return (none, ← t.install v.key data)
    | none => return (none, t)

/-- Carries out visits in order. -/
def visitAll (t : TaggedTable σ E) : List (Visit E) → Checked (List (Option E) × TaggedTable σ E)
  | [] => return ([], t)
  | v :: rest => do
    let (reply, t) ← t.visit v
    let (replies, t) ← t.visitAll rest
    return (reply :: replies, t)

end TaggedTable

/-! ## The map -/

/-- Bindings of keys to entries, in one list for each set. -/
structure RecencyMap (E : Type) where
  /-- There is a list for each set below this one. -/
  sets : Nat
  /-- The most bindings that a list may hold. -/
  assoc : Nat
  setOf : UInt64 → Nat
  /-- The bindings of each set, the most recently used first. -/
  lists : Nat → List (TableKey × E)

namespace RecencyMap

variable {E : Type} {m : RecencyMap E} {key other : TableKey} {data : E} {set : Nat}

/-- Nothing is bound. -/
def empty (sets assoc : Nat) (setOf : UInt64 → Nat) : RecencyMap E :=
  ⟨sets, assoc, setOf, fun _ => []⟩

/-- The number of bindings. -/
def total (m : RecencyMap E) : Nat :=
  ((List.range m.sets).map fun set => (m.lists set).length).sum

/-- The list in which a key may be bound. -/
def listOf (m : RecencyMap E) (key : TableKey) : List (TableKey × E) :=
  m.lists (m.setOf key.1)

/-- Another list takes the place of the one in which a key may be bound. -/
def setList (m : RecencyMap E) (key : TableKey) (list : List (TableKey × E)) : RecencyMap E :=
  { m with lists := Function.update m.lists (m.setOf key.1) list }

/-- What a list binds a key to. -/
def entryIn (key : TableKey) (list : List (TableKey × E)) : Option E :=
  (list.find? (·.1 = key)).map (·.2)

/-- What a key is bound to. -/
def find? (m : RecencyMap E) (key : TableKey) : Option E :=
  entryIn key (m.listOf key)

/-- A binding in front of those of other keys. -/
def inFront (key : TableKey) (data : E) (list : List (TableKey × E)) : List (TableKey × E) :=
  (key, data) :: list.filter (·.1 ≠ key)

/-- The binding of a key with another entry, in its place. -/
def rebind (key : TableKey) (data : E) (list : List (TableKey × E)) : List (TableKey × E) :=
  list.map fun binding => if binding.1 = key then (key, data) else binding

/-- Without the last binding if the list is full. -/
def room (assoc : Nat) (list : List (TableKey × E)) : List (TableKey × E) :=
  if list.length = assoc then list.dropLast else list

/-- Moves a binding to the front of its list. -/
def touch (m : RecencyMap E) (key : TableKey) : RecencyMap E :=
  match m.find? key with
  | some data => m.setList key (inFront key data (m.listOf key))
  | none => m

/-- Replaces what a key is bound to. -/
def write (m : RecencyMap E) (key : TableKey) (data : E) : RecencyMap E :=
  m.setList key (rebind key data (m.listOf key))

/-- Lets the last binding of a full list go. -/
def makeRoom (m : RecencyMap E) (key : TableKey) : RecencyMap E :=
  m.setList key (room m.assoc (m.listOf key))

/-- Puts a binding in front of its list. -/
def push (m : RecencyMap E) (key : TableKey) (data : E) : RecencyMap E :=
  m.setList key ((key, data) :: m.listOf key)

/-- Binds a key that is not bound. -/
def install (m : RecencyMap E) (key : TableKey) (data : E) : RecencyMap E :=
  (m.makeRoom key).push key data

/-- Uses a binding. -/
def useKey (key : TableKey) (m : RecencyMap E) : SlotUse E → RecencyMap E
  | .touch => m.touch key
  | .write data => m.write key data

/-- Carries out a visit, and answers what the key was bound to. -/
def visit (m : RecencyMap E) (v : Visit E) : Option E × RecencyMap E :=
  match m.find? v.key with
  | some data => (some data, v.uses.foldl (useKey v.key) m)
  | none =>
    match v.install with
    | some data => (none, m.install v.key data)
    | none => (none, m)

/-- Carries out visits in order. -/
def visitAll (m : RecencyMap E) : List (Visit E) → List (Option E) × RecencyMap E
  | [] => ([], m)
  | v :: rest =>
    let (reply, m) := m.visit v
    let (replies, m) := m.visitAll rest
    (reply :: replies, m)

/-- The key that loses its binding to a visit: the last one of a full list that gets another. -/
def displaced (m : RecencyMap E) (v : Visit E) : Option TableKey :=
  match m.find? v.key, v.install with
  | none, some _ =>
    if (m.listOf v.key).length = m.assoc then (m.listOf v.key).getLast?.map (·.1) else none
  | _, _ => none

/-- All but the lists: how many there are, how long they may be, and which is whose. -/
def shape (m : RecencyMap E) : Nat × Nat × (UInt64 → Nat) :=
  (m.sets, m.assoc, m.setOf)

/-! ## What a visit leaves -/

theorem shape_useKey (m : RecencyMap E) (key : TableKey) (u : SlotUse E) :
    (useKey key m u).shape = m.shape := by
  cases u with
  | touch =>
    rw [useKey, touch]
    split <;> rfl
  | write data => rfl

theorem shape_foldl_useKey (m : RecencyMap E) (key : TableKey) (uses : List (SlotUse E)) :
    (uses.foldl (useKey key) m).shape = m.shape := by
  induction uses generalizing m with
  | nil => rfl
  | cons u rest ih => rw [List.foldl_cons, ih, shape_useKey]

theorem shape_visit (m : RecencyMap E) (v : Visit E) : (m.visit v).2.shape = m.shape := by
  rw [visit]
  split
  · exact shape_foldl_useKey m v.key v.uses
  · split <;> rfl

theorem shape_visitAll (m : RecencyMap E) (visits : List (Visit E)) :
    (m.visitAll visits).2.shape = m.shape := by
  induction visits generalizing m with
  | nil => rfl
  | cons v rest ih => exact (ih _).trans (shape_visit m v)

theorem listOf_setList (m : RecencyMap E) (key other : TableKey) (list : List (TableKey × E)) :
    (m.setList key list).listOf other =
      if m.setOf other.1 = m.setOf key.1 then list else m.listOf other := by
  simp only [listOf, setList, Function.update_apply]

theorem setList_setList (m : RecencyMap E) (key : TableKey) (list more : List (TableKey × E)) :
    (m.setList key list).setList key more = m.setList key more := by
  simp only [setList, Function.update_idem]

theorem entryIn_cons_self (key : TableKey) (data : E) (list : List (TableKey × E)) :
    entryIn key ((key, data) :: list) = some data := by
  simp [entryIn]

theorem entryIn_cons_of_ne {binding : TableKey × E} (list : List (TableKey × E))
    (h : binding.1 ≠ other) : entryIn other (binding :: list) = entryIn other list := by
  simp [entryIn, h]

theorem entryIn_eq_some_iff {list : List (TableKey × E)} (hn : (list.map (·.1)).Nodup) :
    entryIn key list = some data ↔ (key, data) ∈ list := by
  induction list with
  | nil => simp [entryIn]
  | cons binding rest ih =>
    obtain ⟨hnot, hrest⟩ := List.nodup_cons.1 hn
    rw [List.mem_cons]
    by_cases hkey : binding.1 = key
    · obtain ⟨bound, held⟩ := binding
      obtain rfl : bound = key := hkey
      rw [entryIn_cons_self]
      constructor
      · rintro ⟨⟩
        exact .inl rfl
      · rintro (heq | hmem)
        · rw [(Prod.mk.inj heq).2]
        · exact absurd (List.mem_map_of_mem hmem) hnot
    · rw [entryIn_cons_of_ne _ hkey, ih hrest, or_iff_right]
      rintro rfl
      exact hkey rfl

theorem entryIn_inFront_of_ne (list : List (TableKey × E)) (h : other ≠ key) :
    entryIn other (inFront key data list) = entryIn other list := by
  rw [inFront, entryIn_cons_of_ne _ (Ne.symm h)]
  induction list with
  | nil => rfl
  | cons binding rest ih =>
    by_cases hkey : binding.1 = key
    · rw [List.filter_cons_of_neg (by simpa using hkey), ih, entryIn_cons_of_ne]
      rw [hkey]
      exact Ne.symm h
    · rw [List.filter_cons_of_pos (by simpa using hkey)]
      by_cases hother : binding.1 = other
      · simp [entryIn, hother]
      · rw [entryIn_cons_of_ne _ hother, entryIn_cons_of_ne _ hother, ih]

theorem entryIn_rebind_of_ne (list : List (TableKey × E)) (h : other ≠ key) :
    entryIn other (rebind key data list) = entryIn other list := by
  induction list with
  | nil => rfl
  | cons binding rest ih =>
    rw [rebind, List.map_cons]
    by_cases hkey : binding.1 = key
    · rw [if_pos hkey, entryIn_cons_of_ne _ (Ne.symm h), entryIn_cons_of_ne]
      · exact ih
      · rw [hkey]
        exact Ne.symm h
    · rw [if_neg hkey]
      by_cases hother : binding.1 = other
      · simp [entryIn, hother]
      · rw [entryIn_cons_of_ne _ hother, entryIn_cons_of_ne _ hother]
        exact ih

/-- Making room unbinds the last key of a full list, and no other. -/
theorem entryIn_room {assoc : Nat} {list : List (TableKey × E)} (hn : (list.map (·.1)).Nodup)
    (other : TableKey) : entryIn other (room assoc list) =
      if list.length = assoc ∧ list.getLast?.map (·.1) = some other then none
      else entryIn other list := by
  by_cases hfull : list.length = assoc
  · rw [room, if_pos hfull]
    rcases List.eq_nil_or_concat' list with rfl | ⟨front, last, rfl⟩
    · simp
    · rw [List.dropLast_concat, List.getLast?_concat]
      by_cases hlast : last.1 = other
      · subst hlast
        have hnot : last.1 ∉ front.map (·.1) := by
          rw [List.map_append, List.nodup_append] at hn
          exact fun hmem => hn.2.2 last.1 hmem last.1 (by simp) rfl
        rw [if_pos ⟨hfull, rfl⟩, entryIn, Option.map_eq_none_iff, List.find?_eq_none]
        intro binding hbinding
        rw [decide_eq_true_iff]
        exact fun heq => hnot (List.mem_map.2 ⟨binding, hbinding, heq⟩)
      · rw [if_neg (by simpa using fun _ => hlast), entryIn, entryIn, List.find?_append]
        simp [hlast]
  · rw [room, if_neg hfull, if_neg fun h => hfull h.1]

/-- A binding in another list, or one that its list keeps, is kept. -/
theorem find?_setList {list : List (TableKey × E)}
    (h : entryIn other list = entryIn other (m.listOf key)) :
    (m.setList key list).find? other = m.find? other := by
  rw [find?, listOf_setList]
  split
  · rename_i hset
    rw [h, find?, listOf, listOf, hset]
  · rfl

theorem find?_useKey (m : RecencyMap E) (u : SlotUse E) (h : other ≠ key) :
    (useKey key m u).find? other = m.find? other := by
  cases u with
  | touch =>
    rw [useKey, touch]
    split
    · exact find?_setList (entryIn_inFront_of_ne _ h)
    · rfl
  | write data => exact find?_setList (entryIn_rebind_of_ne _ h)

theorem find?_foldl_useKey (m : RecencyMap E) (uses : List (SlotUse E)) (h : other ≠ key) :
    (uses.foldl (useKey key) m).find? other = m.find? other := by
  induction uses generalizing m with
  | nil => rfl
  | cons u rest ih => rw [List.foldl_cons, ih, find?_useKey m u h]

/-- To install a key displaces the last key of a full list, and no other. -/
theorem find?_install (hn : ((m.listOf key).map (·.1)).Nodup)
    (hplaced : ∀ binding ∈ m.listOf key, m.setOf binding.1.1 = m.setOf key.1)
    (h : other ≠ key) : (m.install key data).find? other =
      if (m.listOf key).length = m.assoc ∧ (m.listOf key).getLast?.map (·.1) = some other then none
      else m.find? other := by
  have hroom : (m.makeRoom key).listOf key = room m.assoc (m.listOf key) := by
    rw [makeRoom, listOf_setList, if_pos rfl]
  rw [install, push, hroom, makeRoom, setList_setList, find?, listOf_setList]
  by_cases hset : m.setOf other.1 = m.setOf key.1
  · have hlist : m.listOf other = m.listOf key := by rw [listOf, listOf, hset]
    rw [if_pos hset, entryIn_cons_of_ne _ (Ne.symm h), entryIn_room hn, find?, hlist]
  · rw [if_neg hset, if_neg]
    · rfl
    · rintro ⟨-, hlast⟩
      obtain ⟨binding, hbinding, rfl⟩ := Option.map_eq_some_iff.1 hlast
      exact hset (hplaced binding (List.mem_of_getLast? hbinding))

/-- A visit to a key leaves what any other key is bound to, unless it displaces that key. -/
theorem find?_visit {v : Visit E} (hn : ((m.listOf v.key).map (·.1)).Nodup)
    (hplaced : ∀ binding ∈ m.listOf v.key, m.setOf binding.1.1 = m.setOf v.key.1)
    (h : other ≠ v.key) : (m.visit v).2.find? other =
      if m.displaced v = some other then none else m.find? other := by
  rw [visit, displaced]
  cases hfound : m.find? v.key with
  | some data => simp [find?_foldl_useKey m v.uses h]
  | none =>
    cases hinstall : v.install with
    | none => simp
    | some data =>
      dsimp only
      rw [find?_install hn hplaced h]
      by_cases hfull : (m.listOf v.key).length = m.assoc
      · rw [if_pos hfull]
        simp only [hfull, true_and]
      · rw [if_neg hfull, if_neg fun hroom => hfull hroom.1]
        rfl

end RecencyMap

end Residency
