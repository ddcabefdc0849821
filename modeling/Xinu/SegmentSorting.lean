import Mathlib.Logic.Equiv.Basic
import Mathlib.Tactic

/-!
# Sorting a segment in place

Elements stand at natural numbers.  A routine that sorts a segment exchanges
the elements of the segment and compares them with a function whose result
has the sign of the comparison.
-/

namespace SegmentSorting

variable {α : Type*}

/-- The signs of the results put all elements in order. -/
structure Orders (cmp : α → α → ℤ) : Prop where
  swap : ∀ x y, cmp x y < 0 ↔ 0 < cmp y x
  trans : ∀ x y z, cmp x y ≤ 0 → cmp y z ≤ 0 → cmp x z ≤ 0

/-- The elements of a segment have changed places. -/
def Rearranged (a l : ℕ) (f g : ℕ → α) : Prop :=
  ∃ σ : Equiv.Perm ℕ, (∀ x, ¬ (a ≤ x ∧ x < l) → σ x = x) ∧ g = f ∘ σ

def SortedOn (cmp : α → α → ℤ) (f : ℕ → α) (a l : ℕ) : Prop :=
  ∀ x y, a ≤ x → x < y → y < l → cmp (f x) (f y) ≤ 0

section Comparing

variable {cmp : α → α → ℤ} {x y z : α}

theorem Orders.eq_self (h : Orders cmp) (x : α) : cmp x x = 0 := by
  have hswap := h.swap x x
  omega

theorem Orders.eq_symm (h : Orders cmp) (hxy : cmp x y = 0) : cmp y x = 0 := by
  have hxy' := h.swap x y
  have hyx := h.swap y x
  omega

theorem Orders.eq_trans (h : Orders cmp) (hxy : cmp x y = 0)
    (hyz : cmp y z = 0) : cmp x z = 0 := by
  have hle := h.trans x y z hxy.le hyz.le
  have hge := h.trans z y x (h.eq_symm hyz).le (h.eq_symm hxy).le
  have hswap := h.swap x z
  omega

theorem Orders.lt_of_lt_of_eq (h : Orders cmp) (hxy : cmp x y < 0)
    (hyz : cmp y z = 0) : cmp x z < 0 := by
  by_contra hxz
  have hzx : cmp z x ≤ 0 := by
    have hswap := h.swap x z
    omega
  have hyx := h.trans y z x hyz.le hzx
  have hswap := h.swap x y
  omega

theorem Orders.gt_of_gt_of_eq (h : Orders cmp) (hxy : 0 < cmp x y)
    (hyz : cmp y z = 0) : 0 < cmp x z := by
  by_contra hxz
  have hyx := h.trans x z y (not_lt.mp hxz) (h.eq_symm hyz).le
  omega

end Comparing

section Places

variable {a a' l l' i j : ℕ} {f g k : ℕ → α}

theorem Rearranged.refl (a l : ℕ) (f : ℕ → α) : Rearranged a l f f :=
  ⟨1, fun _ _ => rfl, rfl⟩

theorem Rearranged.trans
    (h : Rearranged a l f g) (h' : Rearranged a l g k) :
    Rearranged a l f k := by
  obtain ⟨σ, hσ, rfl⟩ := h
  obtain ⟨τ, hτ, rfl⟩ := h'
  refine ⟨σ * τ, fun x hx => ?_, rfl⟩
  rw [Equiv.Perm.mul_apply, hτ x hx, hσ x hx]

theorem Rearranged.mono
    (h : Rearranged a l f g) (ha : a' ≤ a) (hl : l ≤ l') :
    Rearranged a' l' f g := by
  obtain ⟨σ, hσ, hg⟩ := h
  exact ⟨σ, fun x hx => hσ x fun hin => hx ⟨ha.trans hin.1, hin.2.trans_le hl⟩,
    hg⟩

theorem Rearranged.swap
    (hi : a ≤ i ∧ i < l) (hj : a ≤ j ∧ j < l) :
    Rearranged a l f (f ∘ Equiv.swap i j) := by
  refine ⟨Equiv.swap i j, fun x hx => ?_, rfl⟩
  apply Equiv.swap_apply_of_ne_of_ne
  · rintro rfl
    exact hx hi
  · rintro rfl
    exact hx hj

theorem Rearranged.outside
    (h : Rearranged a l f g) {x : ℕ} (hx : ¬ (a ≤ x ∧ x < l)) : g x = f x := by
  obtain ⟨σ, hσ, rfl⟩ := h
  rw [Function.comp_apply, hσ x hx]

/-- A permutation that moves nothing outside of a segment keeps it. -/
theorem inside_of_fixes
    {σ : Equiv.Perm ℕ} (hσ : ∀ x, ¬ (a ≤ x ∧ x < l) → σ x = x) {x : ℕ}
    (hx : a ≤ x ∧ x < l) : a ≤ σ x ∧ σ x < l := by
  by_contra hout
  have hfix := σ.injective (hσ (σ x) hout)
  exact hout (hfix.symm ▸ hx)

/-- What holds of all elements of a segment still does. -/
theorem Rearranged.forall_mem
    (h : Rearranged a l f g) (P : α → Prop)
    (hf : ∀ x, a ≤ x → x < l → P (f x)) : ∀ x, a ≤ x → x < l → P (g x) := by
  obtain ⟨σ, hσ, rfl⟩ := h
  intro x hle hlt
  obtain ⟨hle', hlt'⟩ := inside_of_fixes hσ ⟨hle, hlt⟩
  exact hf (σ x) hle' hlt'

/-- The list of the elements is permuted. -/
theorem Rearranged.perm (h : Rearranged 0 l f g) :
    ((List.range l).map g).Perm ((List.range l).map f) := by
  obtain ⟨σ, hσ, rfl⟩ := h
  have hplaces : ((List.range l).map σ).Perm (List.range l) := by
    rw [List.perm_ext_iff_of_nodup (List.nodup_range.map σ.injective)
      List.nodup_range]
    intro x
    rw [List.mem_map, List.mem_range]
    constructor
    · rintro ⟨y, hy, rfl⟩
      exact (inside_of_fixes hσ ⟨Nat.zero_le y, List.mem_range.mp hy⟩).2
    · intro hx
      refine ⟨σ.symm x, List.mem_range.mpr ?_, σ.apply_symm_apply x⟩
      by_contra hout
      have hfix := hσ (σ.symm x) fun hin => hout hin.2
      rw [σ.apply_symm_apply] at hfix
      exact hout (hfix ▸ hx)
  rw [← List.map_map]
  exact hplaces.map f

end Places

section Parts

variable {cmp : α → α → ℤ} {p : α} {f g : ℕ → α} {a m k l : ℕ}

/-- The elements of a segment stand around those equal to a pivot. -/
structure Parted (cmp : α → α → ℤ) (p : α) (f : ℕ → α) (a m k l : ℕ) :
    Prop where
  low : a ≤ m
  pivots : m ≤ k
  high : k < l
  below : ∀ x, a ≤ x → x < m → cmp (f x) p < 0
  middle : ∀ x, m ≤ x → x ≤ k → cmp (f x) p = 0
  above : ∀ x, k < x → x < l → 0 < cmp (f x) p

theorem Parted.rearrange_low
    (h : Parted cmp p f a m k l) (hr : Rearranged a m f g) :
    Parted cmp p g a m k l where
  low := h.low
  pivots := h.pivots
  high := h.high
  below := hr.forall_mem (cmp · p < 0) h.below
  middle := fun x hm hk => by
    rw [hr.outside (by omega)]
    exact h.middle x hm hk
  above := fun x hk hl => by
    have hpivots := h.pivots
    rw [hr.outside (by omega)]
    exact h.above x hk hl

theorem Parted.rearrange_high
    (h : Parted cmp p f a m k l) (hr : Rearranged (k + 1) l f g) :
    Parted cmp p g a m k l where
  low := h.low
  pivots := h.pivots
  high := h.high
  below := fun x ha hm => by
    have hpivots := h.pivots
    rw [hr.outside (by omega)]
    exact h.below x ha hm
  middle := fun x hm hk => by
    rw [hr.outside (by omega)]
    exact h.middle x hm hk
  above := hr.forall_mem (0 < cmp · p) h.above

theorem SortedOn.of_short (hshort : l ≤ a + 1) : SortedOn cmp f a l :=
  fun _ _ _ _ _ => by omega

theorem SortedOn.congr
    (h : SortedOn cmp f a l) (hsame : ∀ x, a ≤ x → x < l → g x = f x) :
    SortedOn cmp g a l := by
  intro x y hx hxy hy
  rw [hsame x hx (by omega), hsame y (by omega) hy]
  exact h x y hx hxy hy

/-- Two sorted parts around a pivot are a sorted segment. -/
theorem Parted.sorted
    (ho : Orders cmp) (h : Parted cmp p f a m k l)
    (hlow : SortedOn cmp f a m) (hhigh : SortedOn cmp f (k + 1) l) :
    SortedOn cmp f a l := by
  have hle : ∀ x, a ≤ x → x ≤ k → cmp (f x) p ≤ 0 := by
    intro x hx hxk
    by_cases hxm : x < m
    · exact (h.below x hx hxm).le
    · exact (h.middle x (by omega) hxk).le
  have hge : ∀ x, m ≤ x → x < l → cmp p (f x) ≤ 0 := by
    intro x hx hxl
    by_cases hxk : x ≤ k
    · exact (ho.eq_symm (h.middle x hx hxk)).le
    · exact ((ho.swap p (f x)).mpr (h.above x (by omega) hxl)).le
  intro x y hx hxy hy
  by_cases hym : y < m
  · exact hlow x y hx hxy hym
  · by_cases hxk : x ≤ k
    · exact ho.trans _ _ _ (hle x hx hxk) (hge y (by omega) hy)
    · exact hhigh x y (by omega) hxy hy

/-- The list of the elements of a sorted segment is sorted. -/
theorem SortedOn.pairwise (h : SortedOn cmp f 0 l) :
    ((List.range l).map f).Pairwise fun x y => cmp x y ≤ 0 := by
  rw [List.pairwise_map]
  refine List.Pairwise.imp_of_mem ?_ List.pairwise_lt_range
  intro x y _ hy hxy
  exact h x y (Nat.zero_le x) hxy (List.mem_range.mp hy)

end Parts

end SegmentSorting
