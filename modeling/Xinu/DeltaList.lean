import Mathlib.Tactic

/-!
# Lists of differences

A list of deadlines can store, with each item, only the difference to the item
before it.  The time until an item is due is the sum of the differences up to
and including its own.  An item is put in or taken out without changing when
any other item is due, if the item behind it is charged or credited the
difference.
-/

namespace DeltaList

variable {Item : Type*} [DecidableEq Item]

/-- The time until `x` is due. -/
def dueIn (keys : Item → ℤ) (x : Item) : List Item → ℤ
  | [] => 0
  | y :: l => keys y + if y = x then 0 else dueIn keys x l

section Rules

variable {keys keys' : Item → ℤ} {x p : Item} {l l' : List Item}

theorem dueIn_cons {y : Item} :
    dueIn keys x (y :: l) = keys y + if y = x then 0 else dueIn keys x l :=
  rfl

theorem dueIn_congr (hkeys : ∀ y ∈ l, keys' y = keys y) :
    dueIn keys' x l = dueIn keys x l := by
  induction l with
  | nil => rfl
  | cons y l ih =>
      rw [dueIn_cons, dueIn_cons, hkeys y (by simp), ih fun z hz => hkeys z (by simp [hz])]

theorem dueIn_append_left (hx : x ∈ l) :
    dueIn keys x (l ++ l') = dueIn keys x l := by
  induction l with
  | nil => cases hx
  | cons y l ih =>
      rw [List.cons_append, dueIn_cons, dueIn_cons]
      by_cases hy : y = x
      · rw [if_pos hy, if_pos hy]
      · rw [if_neg hy, if_neg hy, ih ((List.mem_cons.mp hx).resolve_left
          (Ne.symm hy))]

theorem dueIn_append_right (hx : x ∉ l) :
    dueIn keys x (l ++ l') = (l.map keys).sum + dueIn keys x l' := by
  induction l with
  | nil => simp
  | cons y l ih =>
      have hy : y ≠ x := fun heq => hx (by simp [heq])
      rw [List.cons_append, dueIn_cons, if_neg hy,
        ih fun hmem => hx (by simp [hmem]), List.map_cons, List.sum_cons]
      ring

theorem dueIn_nonneg (hkeys : ∀ y ∈ l, 0 ≤ keys y) : 0 ≤ dueIn keys x l := by
  induction l with
  | nil => exact le_refl 0
  | cons y l ih =>
      have hy := hkeys y (by simp)
      have hl := ih fun z hz => hkeys z (by simp [hz])
      rw [dueIn_cons]
      split_ifs <;> omega

/-- Nobody is due before the first item. -/
theorem first_le_dueIn
    {y : Item} (hkeys : ∀ z ∈ l, 0 ≤ keys z) : keys y ≤ dueIn keys x (y :: l) := by
  have hl := dueIn_nonneg (x := x) hkeys
  rw [dueIn_cons]
  split_ifs <;> omega

/-- A list without differences is due at once. -/
theorem dueIn_zero (hkeys : ∀ y ∈ l, keys y = 0) : dueIn keys x l = 0 := by
  induction l with
  | nil => rfl
  | cons y l ih =>
      rw [dueIn_cons, hkeys y (by simp), ih fun z hz => hkeys z (by simp [hz])]
      simp

/-- What the first item is charged, everybody is charged. -/
theorem dueIn_charge
    {y : Item} {n : ℤ} (hfirst : keys' y = keys y - n)
    (hkeys : ∀ z ∈ l, keys' z = keys z) :
    dueIn keys' x (y :: l) = dueIn keys x (y :: l) - n := by
  rw [dueIn_cons, dueIn_cons, hfirst, dueIn_congr hkeys]
  ring

/-- The place of `p` between `l` and `l'`: the item behind it has been charged
the difference that `p` stores. -/
structure Spliced
    (keys keys' : Item → ℤ) (p : Item) (l l' : List Item) : Prop where
  before : ∀ y ∈ l, keys' y = keys y
  behind : ∀ y ∈ l'.head?, keys y = keys' p + keys' y
  after : ∀ y ∈ l'.tail, keys' y = keys y

/-- With `p` in its place everybody else is due when they were without it. -/
theorem Spliced.dueIn_eq
    (h : Spliced keys keys' p l l') (hx : x ≠ p) (hmem : x ∈ l ++ l') :
    dueIn keys' x (l ++ p :: l') = dueIn keys x (l ++ l') := by
  by_cases hl : x ∈ l
  · rw [dueIn_append_left hl, dueIn_append_left hl, dueIn_congr h.before]
  · have hsum : (l.map keys').sum = (l.map keys).sum :=
      congrArg List.sum (List.map_congr_left h.before)
    rw [dueIn_append_right hl, dueIn_append_right hl, hsum, dueIn_cons,
      if_neg hx.symm]
    have hl' : x ∈ l' := (List.mem_append.mp hmem).resolve_left hl
    cases l' with
    | nil => cases hl'
    | cons y l' =>
        have hy : keys y = keys' p + keys' y := h.behind y (by simp)
        have htail : dueIn keys' x l' = dueIn keys x l' := dueIn_congr h.after
        rw [dueIn_cons, dueIn_cons, htail, hy]
        ring

/-- `p` itself is due after the items before it and its own difference. -/
theorem Spliced.dueIn_self (h : Spliced keys keys' p l l') (hp : p ∉ l) :
    dueIn keys' p (l ++ p :: l') = (l.map keys).sum + keys' p := by
  rw [dueIn_append_right hp, dueIn_cons, if_pos rfl, add_zero,
    List.map_congr_left h.before]

end Rules

end DeltaList
