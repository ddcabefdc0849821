import Mathlib.Tactic

/-!
# Pools divided between a free list and owners

Everything in a pool is on the free list or belongs to one of finitely many
owners.  Owners take things from the free list, give back all they own, and
new owners start with nothing; none of this loses or duplicates anything.
-/

namespace FreePools

variable {α : Type*}

/-- `all` is divided between `free` and the first `n` owners. -/
def Divided (all free : List α) (owned : ℕ → List α) (n : ℕ) : Prop :=
  (free ++ (List.range n).flatMap owned).Perm all

section Owners

variable {owned owned' : ℕ → List α} {n e f : ℕ}

/-- What one of the owners has, in front of what the others have. -/
theorem owned_perm (he : e < n) :
    ((List.range n).flatMap owned).Perm
      (owned e ++ ((List.range n).erase e).flatMap owned) := by
  have hsplit := List.perm_cons_erase (List.mem_range.mpr he)
  simpa using hsplit.flatMap_right owned

theorem others_congr (hother : ∀ f < n, f ≠ e → owned' f = owned f) :
    ((List.range n).erase e).flatMap owned' =
      ((List.range n).erase e).flatMap owned := by
  apply List.flatMap_congr
  intro f hf
  have hmem := (List.nodup_range.mem_erase_iff.mp hf)
  exact hother f (List.mem_range.mp hmem.2) hmem.1

theorem owned_congr (hsame : ∀ f < n, owned' f = owned f) :
    (List.range n).flatMap owned' = (List.range n).flatMap owned := by
  apply List.flatMap_congr
  intro f hf
  exact hsame f (List.mem_range.mp hf)

end Owners

section Divisions

variable {all free free' rest : List α} {owned owned' : ℕ → List α} {x : α}
  {n e f : ℕ}

theorem Divided.congr
    (h : Divided all free owned n) (hsame : ∀ f < n, owned' f = owned f) :
    Divided all free owned' n := by
  unfold Divided at h ⊢
  rw [owned_congr hsame]
  exact h

/-- An owner takes the first free thing. -/
theorem Divided.take
    (h : Divided all (x :: rest) owned n) (he : e < n)
    (hown : (owned' e).Perm (x :: owned e))
    (hother : ∀ f < n, f ≠ e → owned' f = owned f) :
    Divided all rest owned' n := by
  have hnew : ((List.range n).flatMap owned').Perm
      (x :: (List.range n).flatMap owned) := by
    refine (owned_perm he).trans ?_
    rw [others_congr hother]
    refine (hown.append_right _).trans ?_
    rw [List.cons_append]
    exact (owned_perm he).symm.cons x
  have hmove : (rest ++ (List.range n).flatMap owned').Perm
      (rest ++ x :: (List.range n).flatMap owned) := hnew.append_left rest
  exact hmove.trans (List.perm_middle.trans h)

/-- An owner gives back all it has. -/
theorem Divided.giveBack
    (h : Divided all free owned n) (he : e < n)
    (hfree : free'.Perm (owned e ++ free)) (hown : owned' e = [])
    (hother : ∀ f < n, f ≠ e → owned' f = owned f) :
    Divided all free' owned' n := by
  have hnew : ((List.range n).flatMap owned').Perm
      (((List.range n).erase e).flatMap owned) := by
    refine (owned_perm he).trans ?_
    rw [hown, others_congr hother, List.nil_append]
  have hold : (free ++ (List.range n).flatMap owned).Perm
      ((owned e ++ free) ++ ((List.range n).erase e).flatMap owned) := by
    refine ((owned_perm he).append_left free).trans ?_
    rw [← List.append_assoc]
    exact List.perm_append_comm.append_right _
  exact (hfree.append hnew).trans (hold.symm.trans h)

/-- A new owner with nothing. -/
theorem Divided.addOwner
    (h : Divided all free owned n) (hown : owned' n = [])
    (hsame : ∀ f < n, owned' f = owned f) :
    Divided all free owned' (n + 1) := by
  unfold Divided at h ⊢
  rw [List.range_succ, List.flatMap_append, owned_congr hsame]
  simpa [hown] using h

/-- Owners that have nothing are forgotten. -/
theorem Divided.dropOwners
    {k : ℕ} (h : Divided all free owned (n + k))
    (hnone : ∀ e, n ≤ e → e < n + k → owned e = []) :
    Divided all free owned n := by
  induction k with
  | zero => exact h
  | succ k ih =>
      refine ih ?_ fun e hle hlt => hnone e hle (by omega)
      unfold Divided at h ⊢
      rw [← Nat.add_assoc, List.range_succ, List.flatMap_append] at h
      simpa [hnone (n + k) (by omega) (by omega)] using h

theorem Divided.count (h : Divided all free owned n) :
    free.length + ((List.range n).map fun e => (owned e).length).sum =
      all.length := by
  have hlen := h.length_eq
  rwa [List.length_append, List.length_flatMap] at hlen

theorem Divided.nodup (h : Divided all free owned n) (hall : all.Nodup) :
    (free ++ (List.range n).flatMap owned).Nodup :=
  h.nodup_iff.mpr hall

theorem Divided.free_nodup (h : Divided all free owned n) (hall : all.Nodup) :
    free.Nodup :=
  (h.nodup hall).of_append_left

theorem Divided.owned_nodup
    (h : Divided all free owned n) (hall : all.Nodup) (he : e < n) :
    (owned e).Nodup := by
  have howned := (h.nodup hall).of_append_right
  exact ((owned_perm he).nodup_iff.mp howned).of_append_left

theorem Divided.mem_of_free (h : Divided all free owned n) (hx : x ∈ free) :
    x ∈ all :=
  h.subset (List.mem_append_left _ hx)

theorem Divided.mem_of_owned
    (h : Divided all free owned n) (he : e < n) (hx : x ∈ owned e) :
    x ∈ all :=
  h.subset (List.mem_append_right _
    (List.mem_flatMap.mpr ⟨e, List.mem_range.mpr he, hx⟩))

theorem Divided.not_owned_of_free
    (h : Divided all free owned n) (hall : all.Nodup) (he : e < n)
    (hx : x ∈ free) : x ∉ owned e := by
  intro hown
  have hdisj := List.disjoint_of_nodup_append (h.nodup hall)
  exact hdisj hx (List.mem_flatMap.mpr ⟨e, List.mem_range.mpr he, hown⟩)

/-- Nothing has two owners. -/
theorem Divided.owner_unique
    (h : Divided all free owned n) (hall : all.Nodup) (he : e < n) (hf : f < n)
    (hxe : x ∈ owned e) (hxf : x ∈ owned f) : f = e := by
  by_contra hne
  have howned := (h.nodup hall).of_append_right
  have hdisj :=
    List.disjoint_of_nodup_append ((owned_perm he).nodup_iff.mp howned)
  apply hdisj hxe
  rw [List.mem_flatMap]
  exact ⟨f, List.nodup_range.mem_erase_iff.mpr ⟨hne, List.mem_range.mpr hf⟩,
    hxf⟩

end Divisions

end FreePools
