import Residency.Prefetch.Choice
import Residency.Proofs.Prefetch.Courses

/-!
# A prefetcher decides alone

A prefetcher is handed the cache, and the dead-block prefetcher has a block dropped from it. Whether
the block was there changes neither what is asked for nor what the prefetcher remembers: it decides
as if nothing were behind it.
-/

namespace Residency

/-- Nothing is behind the prefetcher, and no block can be dropped from it. -/
instance : BlockInvalidator Unit where
  dropDead nothing _ _ := return (false, nothing)

section

variable {τ : Type} [BlockInvalidator τ] {access : Access} {cache cache' : τ}
  {targets : List UInt64}

theorem Dbcp.observe_alone {p p' : Dbcp}
    (h : p.observe access cache = .ok (targets, p', cache')) :
    p.observe access () = .ok (targets, p', ()) := by
  obtain ⟨_, halone⟩ := (observed_of_eq_ok h).with_other () fun _ _ => rfl
  exact halone.eq_ok

theorem Prefetcher.observe_alone {p p' : Prefetcher}
    (h : p.observe access cache = .ok (targets, p', cache')) :
    p.observe access () = .ok (targets, p', ()) := by
  cases p with
  | nextLine p =>
    simp only [observe, bind_eq_ok_iff, pure_eq_ok, Except.ok.injEq, Prod.mk.injEq] at h
    obtain ⟨_, htargets, rfl, rfl, -⟩ := h
    rw [observe, htargets]
    rfl
  | dbcp p =>
    simp only [observe, bind_eq_ok_iff, pure_eq_ok, Except.ok.injEq, Prod.mk.injEq] at h
    obtain ⟨⟨_, q, _⟩, hq, rfl, rfl, -⟩ := h
    rw [observe, Dbcp.observe_alone hq]
    rfl

end

namespace Prefetcher

/-- What a prefetcher, if there is one, asks for on an access with nothing behind it. -/
def decideOn (p : Option Prefetcher) (access : Access) :
    Checked (List UInt64 × Option Prefetcher) :=
  match p with
  | none => return ([], none)
  | some p => do
    let (targets, p, _) ← p.observe access ()
    return (targets, some p)

/-- What it asks for on some accesses in order. -/
def decideAll (p : Option Prefetcher) : List Access → Checked (List (Access × List UInt64))
  | [] => return []
  | access :: rest => do
    let (targets, p) ← decideOn p access
    return (access, targets) :: (← decideAll p rest)

theorem map_fst_decideAll {p : Option Prefetcher} {accesses : List Access}
    {decisions : List (Access × List UInt64)} (h : decideAll p accesses = .ok decisions) :
    decisions.map (·.1) = accesses := by
  induction accesses generalizing p decisions with
  | nil =>
    obtain rfl := Except.ok.inj h
    rfl
  | cons access rest ih =>
    obtain ⟨⟨targets, q⟩, -, h⟩ := bind_eq_ok_iff.1 h
    obtain ⟨later, hlater, h⟩ := bind_eq_ok_iff.1 h
    obtain rfl := Except.ok.inj h
    simp [ih hlater]

/-- Only the parameters of the selected prefetcher go into it. -/
theorem new_congr {s t : CacheSettings} (hline : t.lineBytes = s.lineBytes)
    (hkind : t.prefetcher = s.prefetcher)
    (hdegree : s.prefetcher = .nextLine → t.prefetchDegree = s.prefetchDegree)
    (hdbcp : s.prefetcher = .dbcp → t.dbcp = s.dbcp) : new t = new s := by
  rw [new, new, hkind, hline]
  cases hselected : s.prefetcher with
  | none => rfl
  | nextLine => rw [hdegree hselected]
  | dbcp => rw [hdbcp hselected]

end Prefetcher

end Residency
