import Mathlib.Tactic

/-!
# Items spread over lists

Every item has at most one home, and each list holds exactly the items whose
home it is, each of them once.  An item changes its home in two steps: it is
taken out of the list it is on, and it is put into another list at some place.
-/

namespace Placement

variable {Item Place : Type*} [DecidableEq Item] [DecidableEq Place]

structure Placed
    (home : Item → Option Place) (lists : Place → List Item) : Prop where
  mem : ∀ {q p}, p ∈ lists q ↔ home p = some q
  nodup : ∀ q, (lists q).Nodup

variable
    {home : Item → Option Place} {lists : Place → List Item}
    {p x : Item} {q q' : Place}

omit [DecidableEq Item] [DecidableEq Place] in
theorem Placed.not_mem (h : Placed home lists) (hnone : home p = none) :
    p ∉ lists q := by
  intro hmem
  rw [h.mem, hnone] at hmem
  cases hmem

omit [DecidableEq Item] [DecidableEq Place] in
theorem Placed.disjoint
    (h : Placed home lists) (hmem : p ∈ lists q) (hmem' : p ∈ lists q') :
    q = q' := by
  rw [h.mem] at hmem hmem'
  exact Option.some.inj (hmem.symm.trans hmem')

omit [DecidableEq Place] in
theorem Placed.remove (h : Placed home lists) (p : Item) :
    Placed (Function.update home p none) fun q => (lists q).erase p := by
  constructor
  · intro q x
    rw [(h.nodup q).mem_erase_iff, h.mem]
    by_cases hx : x = p
    · simp [hx]
    · simp [hx]
  · intro q
    exact (h.nodup q).erase p

/-- Put a homeless item anywhere into a list. -/
theorem Placed.place
    {l : List Item} (h : Placed home lists) (hnone : home p = none)
    (hperm : l.Perm (p :: lists q)) :
    Placed (Function.update home p (some q)) (Function.update lists q l) := by
  constructor
  · intro r x
    by_cases hr : r = q
    · subst hr
      rw [Function.update_self, hperm.mem_iff, List.mem_cons, h.mem]
      by_cases hx : x = p
      · simp [hx]
      · simp [hx]
    · rw [Function.update_of_ne hr, h.mem]
      by_cases hx : x = p
      · subst hx
        simp [hnone, Ne.symm hr]
      · simp [hx]
  · intro r
    by_cases hr : r = q
    · subst hr
      rw [Function.update_self, hperm.nodup_iff, List.nodup_cons]
      exact ⟨h.not_mem hnone, h.nodup r⟩
    · rw [Function.update_of_ne hr]
      exact h.nodup r

omit [DecidableEq Place] in
/-- An item without a home stays where it is not. -/
theorem Placed.update_none (h : Placed home lists) (hnone : home p = none) :
    Placed (Function.update home p none) lists := by
  rw [← hnone, Function.update_eq_self]
  exact h

end Placement
