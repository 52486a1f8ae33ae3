import Residency.Fault
import Residency.Rejection

/-!
The oracle: an online reconstruction of optimal replacement for one set.

Time is counted in inserts. A ring holds one occupancy count for each of the last `size` times.
When a key returns, the times since its last insert form its arc. Optimal replacement would have
kept the key if no time of the arc is already taken by as many protected keys as there are ways;
the arc is then charged, one unit at every time strictly inside it.
-/

namespace Residency

/-- The oracle's verdict on a key that is about to be accessed. -/
inductive Prediction where
  /-- Optimal replacement would have kept the key. -/
  | friendly
  /-- Optimal replacement would have given the key up, or nothing is known about it. -/
  | averse
deriving DecidableEq, Repr

namespace Prediction

/-- The verdict that protects exactly when the condition holds. -/
def ofBool (keep : Bool) : Prediction :=
  if keep then friendly else averse

/-- Whether the verdict protects. -/
def isFriendly (prediction : Prediction) : Bool :=
  prediction = friendly

@[simp] theorem isFriendly_ofBool (keep : Bool) : (ofBool keep).isFriendly = keep := by
  cases keep <;> rfl

end Prediction

/-- An oracle whose ring covers the last `size` inserts. -/
structure Oracle (κ : Type) where
  size : Nat
  size_pos : 0 < size
  /-- The occupancy of each ring position. -/
  ring : Vector Nat size
  /-- The time of each key's last insert. -/
  lastSeen : List (κ × Nat)
  /-- The number of inserts since the start. -/
  clock : Nat
  /-- The occupancy at which a position is full. -/
  capacity : Nat

namespace Oracle

variable {κ : Type}

/-- An oracle for `ways` ways that remembers `ways * multiplier` inserts. -/
def new (ways multiplier : Nat) : Except Rejection (Oracle κ) :=
  if hw : ways = 0 then
    .error (.zeroSize .ways)
  else if hm : multiplier = 0 then
    .error (.zeroSize .historyMultiplier)
  else if FitsWord (ways * multiplier) then
    .ok {
      size := ways * multiplier
      size_pos := Nat.mul_pos (Nat.pos_of_ne_zero hw) (Nat.pos_of_ne_zero hm)
      ring := Vector.replicate _ 0
      lastSeen := []
      clock := 0
      capacity := min ways (UInt32.size - 1) }
  else
    .error .tooLarge

/-- The ring position of a time. -/
def position (o : Oracle κ) (time : Nat) : Fin o.size :=
  ⟨time % o.size, Nat.mod_lt _ o.size_pos⟩

/-- The ring position of the present. -/
def cursor (o : Oracle κ) : Nat :=
  o.position o.clock

/-- The occupancy of a ring position, if there is such a position. -/
def occupancy? (o : Oracle κ) (slot : Nat) : Option Nat :=
  o.ring[slot]?

/-- The number of keys whose last insert is remembered. -/
def trackedKeys (o : Oracle κ) : Nat :=
  o.lastSeen.length

/-- The ring positions behind a time up to the present. -/
def arc (o : Oracle κ) (time : Nat) : List (Fin o.size) :=
  (List.range' (time + 1) (o.clock - time)).map o.position

/-- One unit more at a ring position, unless it is full. -/
def charge (capacity : Nat) {size : Nat} (ring : Vector Nat size) (slot : Fin size) :
    Vector Nat size :=
  if ring[slot] < capacity then ring.set slot (ring[slot] + 1) else ring

/-- Forgets everything. -/
def reset (o : Oracle κ) : Oracle κ :=
  { o with ring := Vector.replicate _ 0, lastSeen := [], clock := 0 }

variable [DecidableEq κ]

/-- The time of a key's last insert that has not been removed. -/
def seen? (o : Oracle κ) (key : κ) : Option Nat :=
  (o.lastSeen.find? (·.1 = key)).map (·.2)

/-- The time of a key's last insert while the ring still covers it. -/
def live? (o : Oracle κ) (key : κ) : Checked (Option Nat) :=
  match o.seen? key with
  | none => return none
  | some time => do
    require (time ≤ o.clock) .overflow
    return if o.clock - time < o.size then some time else none

/-- Whether optimal replacement would have kept the key until now. -/
def predict (o : Oracle κ) (key : κ) : Checked Prediction := do
  match ← o.live? key with
  | none => return .averse
  | some time => return .ofBool ((o.arc time).all fun slot => o.ring[slot] < o.capacity)

/-- Records an access: opens an empty position for it and, if the key is to be protected and its
last insert is still covered, charges the times strictly between the two. -/
def insert (o : Oracle κ) (key : κ) (protect : Bool) : Checked (Oracle κ) := do
  let live ← o.live? key
  require (FitsWord (o.clock + 1)) .exhausted
  let now := o.clock + 1
  let opened := o.ring.set (o.position now) 0
  let between :=
    match live, protect with
    | some time, true => o.arc time
    | _, _ => []
  return { o with
    ring := between.foldl (charge o.capacity) opened
    lastSeen := (key, now) :: o.lastSeen.filter (·.1 ≠ key)
    clock := now }

/-- Forgets the last insert of a key. Its charges stay until the ring has moved past them. -/
def remove (o : Oracle κ) (key : κ) : Oracle κ :=
  { o with lastSeen := o.lastSeen.filter (·.1 ≠ key) }

end Oracle

end Residency
