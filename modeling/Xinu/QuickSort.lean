import Xinu.SegmentSorting

/-!
# qsort

The quicksort of lib/qsort.c with its bytes.  A pointer into the array is the
number of its element.  The elements between `lp` and `hp` are equal to the
pivot; the scans from both ends move elements past them until they meet.

`none` is more turns of a loop than the budget, or more activations of `qs1`
at once than the depth.
-/

namespace Xinu.QuickSort

open SegmentSorting

abbrev Mem := ℕ → BitVec 8

/-- The loop of `qsexc` over the bytes of two elements. -/
def qsexcLoop : ℕ → ℕ → ℕ → Mem → Mem
  | 0, _, _, mem => mem
  | n + 1, ri, rj, mem =>
      let c := mem ri
      let mem := Function.update mem ri (mem rj)
      qsexcLoop n (ri + 1) (rj + 1) (Function.update mem rj c)

/-- The loop of `qstexc` over the bytes of three elements. -/
def qstexcLoop : ℕ → ℕ → ℕ → ℕ → Mem → Mem
  | 0, _, _, _, mem => mem
  | n + 1, ri, rj, rk, mem =>
      let c := mem ri
      let mem := Function.update mem ri (mem rk)
      let mem := Function.update mem rk (mem rj)
      qstexcLoop n (ri + 1) (rj + 1) (rk + 1) (Function.update mem rj c)

/-- The bytes of an element of an array. -/
def element (a es : ℕ) (mem : Mem) (x : ℕ) : List (BitVec 8) :=
  (List.range es).map fun k => mem (a + x * es + k)

def elements (a n es : ℕ) (mem : Mem) : List (List (BitVec 8)) :=
  (List.range n).map (element a es mem)

/-- The array, `qses` and `qscmp`, which compares the bytes of elements. -/
structure Sorter where
  base : ℕ
  qses : ℕ
  qses_pos : 0 < qses
  qscmp : List (BitVec 8) → List (BitVec 8) → ℤ

/-- The variables of `qs1` and the memory. -/
structure Scan where
  mem : Mem
  i : ℕ
  j : ℕ
  lp : ℕ
  hp : ℕ

/-- The places in `qs1` that a jump leads to. -/
inductive Label where
  /-- The start of the outer loop. -/
  | top
  | loop
  deriving DecidableEq

namespace Sorter

variable (q : Sorter)

def elem (mem : Mem) (x : ℕ) : List (BitVec 8) :=
  element q.base q.qses mem x

def cmp (mem : Mem) (x y : ℕ) : ℤ := q.qscmp (q.elem mem x) (q.elem mem y)

def qsexc (i j : ℕ) (mem : Mem) : Mem :=
  qsexcLoop q.qses (q.base + i * q.qses) (q.base + j * q.qses) mem

def qstexc (i j k : ℕ) (mem : Mem) : Mem :=
  qstexcLoop q.qses (q.base + i * q.qses) (q.base + j * q.qses)
    (q.base + k * q.qses) mem

/-- The code of `qs1` from one label to the next; `none` is where the scans
have met. -/
def step : Label → Scan → Option (Label × Scan)
  | .top, s =>
      if s.i < s.lp then
        let c := q.cmp s.mem s.i s.lp
        if c = 0 then
          some (.top,
            { s with lp := s.lp - 1, mem := q.qsexc s.i (s.lp - 1) s.mem })
        else if c < 0 then some (.top, { s with i := s.i + 1 })
        else some (.loop, s)
      else some (.loop, s)
  | .loop, s =>
      if s.hp < s.j then
        let c := q.cmp s.mem s.hp s.j
        if c = 0 then
          some (.loop,
            { s with hp := s.hp + 1, mem := q.qsexc (s.hp + 1) s.j s.mem })
        else if 0 < c then
          if s.i = s.lp then
            some (.loop,
              { s with
                i := s.lp + 1, lp := s.lp + 1, hp := s.hp + 1
                mem := q.qstexc s.i (s.hp + 1) s.j s.mem })
          else
            some (.top,
              { s with
                i := s.i + 1, j := s.j - 1, mem := q.qsexc s.i s.j s.mem })
        else some (.loop, { s with j := s.j - 1 })
      else if s.i = s.lp then none
      else
        some (.top,
          { s with
            lp := s.lp - 1, hp := s.hp - 1, j := s.hp - 1
            mem := q.qstexc s.j (s.lp - 1) s.i s.mem })

/-- From a label to where the scans have met. -/
def partition : ℕ → Label → Scan → Option Scan
  | 0, _, _ => none
  | budget + 1, label, s =>
      match q.step label s with
      | none => some s
      | some (label, s) => partition budget label s

/-- `qs1` from `start` on, with the call of itself for the smaller part. -/
def qs1From (qs1 : Mem → ℕ → ℕ → Option Mem) (budget : ℕ) :
    ℕ → Mem → ℕ → ℕ → Option Mem
  | 0, _, _, _ => none
  | turns + 1, mem, a, l =>
      if l - a ≤ 1 then some mem
      else
        let lp := a + (l - a) / 2
        (q.partition budget .top ⟨mem, a, l - 1, lp, lp⟩).bind fun s =>
          if l - s.hp ≤ s.lp - a then
            (qs1 s.mem (s.hp + 1) l).bind fun mem =>
              qs1From qs1 budget turns mem a s.lp
          else
            (qs1 s.mem a s.lp).bind fun mem =>
              qs1From qs1 budget turns mem (s.hp + 1) l

/-- `qs1` on the elements from `a` to before `l`. -/
def qs1 (budget : ℕ) : ℕ → Mem → ℕ → ℕ → Option Mem
  | 0 => fun _ _ _ => none
  | depth + 1 => q.qs1From (qs1 budget depth) budget budget

end Sorter

def qsort (a n es : ℕ) (hes : 0 < es)
    (fc : List (BitVec 8) → List (BitVec 8) → ℤ) (budget depth : ℕ)
    (mem : Mem) : Option Mem :=
  (Sorter.mk a es hes fc).qs1 budget depth mem 0 n

/-! ## The exchanges -/

section Bytes

variable {n ri rj rk : ℕ} {mem : Mem}

/-- Two areas that are the same or do not meet. -/
def SameOrApart (n ri rj : ℕ) : Prop := ri = rj ∨ ri + n ≤ rj ∨ rj + n ≤ ri

theorem qsexcLoop_apply (h : SameOrApart n ri rj) (x : ℕ) :
    qsexcLoop n ri rj mem x =
      if ri ≤ x ∧ x < ri + n then mem (x - ri + rj)
      else if rj ≤ x ∧ x < rj + n then mem (x - rj + ri)
      else mem x := by
  induction n generalizing ri rj mem with
  | zero =>
      rw [if_neg (by omega), if_neg (by omega)]
      rfl
  | succ n ih =>
      unfold SameOrApart at h ih
      rw [qsexcLoop, ih (by omega)]
      simp only [Function.update_apply]
      split_ifs <;> first | omega | rfl | (congr 1; omega)

theorem qstexcLoop_apply
    (hij : ri + n ≤ rj ∨ rj + n ≤ ri) (hik : ri + n ≤ rk ∨ rk + n ≤ ri)
    (hjk : SameOrApart n rj rk) (x : ℕ) :
    qstexcLoop n ri rj rk mem x =
      if rj ≤ x ∧ x < rj + n then mem (x - rj + ri)
      else if rk ≤ x ∧ x < rk + n then mem (x - rk + rj)
      else if ri ≤ x ∧ x < ri + n then mem (x - ri + rk)
      else mem x := by
  induction n generalizing ri rj rk mem with
  | zero =>
      rw [if_neg (by omega), if_neg (by omega), if_neg (by omega)]
      rfl
  | succ n ih =>
      unfold SameOrApart at hjk ih
      -- the first byte of each area is exchanged here, the others by the rest of the run
      have hother : ∀ y, y ≠ ri → y ≠ rj → y ≠ rk →
          Function.update (Function.update (Function.update mem ri (mem rk)) rk
            (Function.update mem ri (mem rk) rj)) rj (mem ri) y = mem y := by
        intro y hyi hyj hyk
        rw [Function.update_of_ne hyj, Function.update_of_ne hyk, Function.update_of_ne hyi]
      rw [qstexcLoop, ih (by omega) (by omega) (by omega)]
      by_cases hxj : x = rj
      · rw [if_neg (by omega), if_neg (by omega), if_neg (by omega), if_pos (by omega),
          hxj, Function.update_self, Nat.sub_self, Nat.zero_add]
      by_cases hxk : x = rk
      · rw [if_neg (by omega), if_neg (by omega), if_neg (by omega), if_neg (by omega),
          if_pos (by omega), Function.update_of_ne hxj, hxk, Function.update_self,
          Function.update_of_ne (by omega), Nat.sub_self, Nat.zero_add]
      by_cases hxi : x = ri
      · rw [if_neg (by omega), if_neg (by omega), if_neg (by omega), if_neg (by omega),
          if_neg (by omega), if_pos (by omega), Function.update_of_ne hxj,
          Function.update_of_ne hxk, hxi, Function.update_self, Nat.sub_self,
          Nat.zero_add]
      by_cases hj : rj ≤ x ∧ x < rj + (n + 1)
      · rw [if_pos (by omega), if_pos hj, hother _ (by omega) (by omega) (by omega)]
        congr 1
        omega
      rw [if_neg (by omega), if_neg hj]
      by_cases hk : rk ≤ x ∧ x < rk + (n + 1)
      · rw [if_pos (by omega), if_pos hk, hother _ (by omega) (by omega) (by omega)]
        congr 1
        omega
      rw [if_neg (by omega), if_neg hk]
      by_cases hi : ri ≤ x ∧ x < ri + (n + 1)
      · rw [if_pos (by omega), if_pos hi, hother _ (by omega) (by omega) (by omega)]
        congr 1
        omega
      rw [if_neg (by omega), if_neg hi, hother x hxi hxj hxk]

end Bytes

namespace Sorter

variable {q : Sorter} {mem mem' mem'' : Mem} {i j k x : ℕ}

theorem mem_area {c : ℕ} (hc : c < q.qses) :
    q.base + i * q.qses ≤ q.base + x * q.qses + c ∧
      q.base + x * q.qses + c < q.base + i * q.qses + q.qses ↔ x = i := by
  constructor
  · rintro ⟨hle, hlt⟩
    by_contra hne
    rcases Nat.lt_or_gt_of_ne hne with hlow | hhigh
    · have hmul := Nat.mul_le_mul_right q.qses (Nat.succ_le_of_lt hlow)
      rw [Nat.succ_mul] at hmul
      omega
    · have hmul := Nat.mul_le_mul_right q.qses (Nat.succ_le_of_lt hhigh)
      rw [Nat.succ_mul] at hmul
      omega
  · rintro rfl
    omega

theorem areas_apart (hne : i ≠ j) :
    q.base + i * q.qses + q.qses ≤ q.base + j * q.qses ∨
      q.base + j * q.qses + q.qses ≤ q.base + i * q.qses := by
  rcases Nat.lt_or_gt_of_ne hne with hlow | hhigh
  · have hmul := Nat.mul_le_mul_right q.qses (Nat.succ_le_of_lt hlow)
    rw [Nat.succ_mul] at hmul
    omega
  · have hmul := Nat.mul_le_mul_right q.qses (Nat.succ_le_of_lt hhigh)
    rw [Nat.succ_mul] at hmul
    omega

theorem areas_sameOrApart (i j : ℕ) :
    SameOrApart q.qses (q.base + i * q.qses) (q.base + j * q.qses) := by
  by_cases hij : i = j
  · exact Or.inl (by rw [hij])
  · exact Or.inr (areas_apart hij)

theorem elem_qsexc :
    q.elem (q.qsexc i j mem) = q.elem mem ∘ Equiv.swap i j := by
  funext x
  refine List.map_congr_left fun c hc => ?_
  rw [List.mem_range] at hc
  rw [qsexc, qsexcLoop_apply (areas_sameOrApart i j)]
  simp only [mem_area hc, Equiv.swap_apply_def]
  split_ifs with hi hj
  · subst hi
    congr 1
    omega
  · subst hj
    congr 1
    omega
  · rfl

theorem elem_qstexc (hij : i ≠ j) (hik : i ≠ k) :
    q.elem (q.qstexc i j k mem) =
      (q.elem mem ∘ Equiv.swap i k) ∘ Equiv.swap j k := by
  funext x
  refine List.map_congr_left fun c hc => ?_
  rw [List.mem_range] at hc
  rw [qstexc, qstexcLoop_apply (areas_apart hij) (areas_apart hik)
    (areas_sameOrApart j k)]
  simp only [mem_area hc]
  split_ifs with hj hk hi
  · subst hj
    rw [Equiv.swap_apply_left, Equiv.swap_apply_right]
    congr 1
    omega
  · subst hk
    rw [Equiv.swap_apply_right,
      Equiv.swap_apply_of_ne_of_ne hij.symm (Ne.symm hj)]
    congr 1
    omega
  · subst hi
    rw [Equiv.swap_apply_of_ne_of_ne hj hk, Equiv.swap_apply_left]
    congr 1
    omega
  · rw [Equiv.swap_apply_of_ne_of_ne hj hk, Equiv.swap_apply_of_ne_of_ne hi hk]

theorem elem_qsexc_left : q.elem (q.qsexc i j mem) i = q.elem mem j := by
  rw [elem_qsexc, Function.comp_apply, Equiv.swap_apply_left]

theorem elem_qsexc_right : q.elem (q.qsexc i j mem) j = q.elem mem i := by
  rw [elem_qsexc, Function.comp_apply, Equiv.swap_apply_right]

theorem elem_qsexc_of_ne (hi : x ≠ i) (hj : x ≠ j) :
    q.elem (q.qsexc i j mem) x = q.elem mem x := by
  rw [elem_qsexc, Function.comp_apply, Equiv.swap_apply_of_ne_of_ne hi hj]

theorem elem_qstexc_first (hij : i ≠ j) (hik : i ≠ k) :
    q.elem (q.qstexc i j k mem) i = q.elem mem k := by
  rw [elem_qstexc hij hik, Function.comp_apply, Function.comp_apply,
    Equiv.swap_apply_of_ne_of_ne hij hik, Equiv.swap_apply_left]

theorem elem_qstexc_second (hij : i ≠ j) (hik : i ≠ k) :
    q.elem (q.qstexc i j k mem) j = q.elem mem i := by
  rw [elem_qstexc hij hik, Function.comp_apply, Function.comp_apply,
    Equiv.swap_apply_left, Equiv.swap_apply_right]

theorem elem_qstexc_of_ne
    (hij : i ≠ j) (hik : i ≠ k) (hi : x ≠ i) (hj : x ≠ j) (hk : x ≠ k) :
    q.elem (q.qstexc i j k mem) x = q.elem mem x := by
  rw [elem_qstexc hij hik, Function.comp_apply, Function.comp_apply,
    Equiv.swap_apply_of_ne_of_ne hj hk, Equiv.swap_apply_of_ne_of_ne hi hk]

/-- Elements of a segment have changed places and no other byte. -/
structure Exchanged (q : Sorter) (a l : ℕ) (mem mem' : Mem) : Prop where
  elems : Rearranged a l (q.elem mem) (q.elem mem')
  outside : ∀ x, x < q.base + a * q.qses ∨ q.base + l * q.qses ≤ x →
    mem' x = mem x

section Exchanged

variable {a a' l l' : ℕ}

theorem Exchanged.refl (q : Sorter) (a l : ℕ) (mem : Mem) :
    q.Exchanged a l mem mem where
  elems := Rearranged.refl a l _
  outside := fun _ _ => rfl

theorem Exchanged.trans
    (h : q.Exchanged a l mem mem') (h' : q.Exchanged a l mem' mem'') :
    q.Exchanged a l mem mem'' where
  elems := h.elems.trans h'.elems
  outside := fun x hx => (h'.outside x hx).trans (h.outside x hx)

theorem Exchanged.mono
    (h : q.Exchanged a l mem mem') (ha : a' ≤ a) (hl : l ≤ l') :
    q.Exchanged a' l' mem mem' where
  elems := h.elems.mono ha hl
  outside := fun x hx => by
    have hlow := Nat.mul_le_mul_right q.qses ha
    have hhigh := Nat.mul_le_mul_right q.qses hl
    exact h.outside x (by omega)

theorem outside_area {b : ℕ} (hi : a ≤ i ∧ i < l)
    (hx : b < q.base + a * q.qses ∨ q.base + l * q.qses ≤ b) :
    ¬ (q.base + i * q.qses ≤ b ∧ b < q.base + i * q.qses + q.qses) := by
  have hlow := Nat.mul_le_mul_right q.qses hi.1
  have hhigh := Nat.mul_le_mul_right q.qses (Nat.succ_le_of_lt hi.2)
  rw [Nat.succ_mul] at hhigh
  omega

theorem Exchanged.of_qsexc (hi : a ≤ i ∧ i < l) (hj : a ≤ j ∧ j < l) :
    q.Exchanged a l mem (q.qsexc i j mem) where
  elems := by
    rw [elem_qsexc]
    exact Rearranged.swap hi hj
  outside := fun x hx => by
    rw [qsexc, qsexcLoop_apply (areas_sameOrApart i j),
      if_neg (outside_area hi hx), if_neg (outside_area hj hx)]

theorem Exchanged.of_qstexc
    (hi : a ≤ i ∧ i < l) (hj : a ≤ j ∧ j < l) (hk : a ≤ k ∧ k < l)
    (hij : i ≠ j) (hik : i ≠ k) :
    q.Exchanged a l mem (q.qstexc i j k mem) where
  elems := by
    rw [elem_qstexc hij hik]
    exact (Rearranged.swap hi hk).trans (Rearranged.swap hj hk)
  outside := fun x hx => by
    rw [qstexc, qstexcLoop_apply (areas_apart hij) (areas_apart hik)
      (areas_sameOrApart j k), if_neg (outside_area hj hx),
      if_neg (outside_area hk hx), if_neg (outside_area hi hx)]

end Exchanged

/-! ## The scans of a segment -/

/-- What holds at a label of `qs1` with the pivot `p`: the elements before
`i` are below it and those after `j` above it. -/
structure Split (q : Sorter) (p : List (BitVec 8)) (a l : ℕ) (label : Label)
    (s : Scan) : Prop where
  order : a ≤ s.i ∧ s.i ≤ s.lp ∧ s.lp ≤ s.hp ∧ s.hp ≤ s.j ∧ s.j < l
  below : ∀ x, a ≤ x → x < s.i → q.qscmp (q.elem s.mem x) p < 0
  middle : ∀ x, s.lp ≤ x → x ≤ s.hp → q.qscmp (q.elem s.mem x) p = 0
  above : ∀ x, s.j < x → x < l → 0 < q.qscmp (q.elem s.mem x) p
  /-- The scan from the left has stopped at an element above the pivot. -/
  found : label = .loop → s.i < s.lp → 0 < q.qscmp (q.elem s.mem s.i) p

/-- Twice the elements that are not compared, and the pass over `top`. -/
def work : Label → Scan → ℕ
  | .top, s => 2 * (s.lp - s.i + (s.j - s.hp)) + 1
  | .loop, s => 2 * (s.lp - s.i + (s.j - s.hp))

/-- A step of the scans that keeps the invariant. -/
structure Advances (q : Sorter) (p : List (BitVec 8)) (a l : ℕ)
    (label : Label) (s : Scan) (label' : Label) (s' : Scan) : Prop where
  split : q.Split p a l label' s'
  exchanged : q.Exchanged a l s.mem s'.mem
  work : work label' s' < work label s

section Steps

variable {p : List (BitVec 8)} {a l : ℕ} {label : Label} {s : Scan}

theorem Split.cmp_low (h : q.Split p a l label s) :
    q.qscmp (q.elem s.mem s.lp) p = 0 :=
  h.middle s.lp le_rfl h.order.2.2.1

theorem Split.cmp_high (h : q.Split p a l label s) :
    q.qscmp (q.elem s.mem s.hp) p = 0 :=
  h.middle s.hp h.order.2.2.1 le_rfl

/-- An element at `i` equal to the pivot goes to its other equals. -/
theorem Split.gather_low
    (ho : Orders q.qscmp) (h : q.Split p a l .top s) (hlt : s.i < s.lp)
    (hc : q.cmp s.mem s.i s.lp = 0) :
    q.Advances p a l .top s .top
      { s with lp := s.lp - 1, mem := q.qsexc s.i (s.lp - 1) s.mem } := by
  have horder := h.order
  constructor
  · constructor <;> dsimp only
    · omega
    · intro x hx hxi
      rw [elem_qsexc_of_ne (by omega) (by omega)]
      exact h.below x hx hxi
    · intro x hx hxhp
      by_cases hpivot : x = s.lp - 1
      · rw [hpivot, elem_qsexc_right]
        exact ho.eq_trans hc h.cmp_low
      · rw [elem_qsexc_of_ne (by omega) hpivot]
        exact h.middle x (by omega) hxhp
    · intro x hxj hx
      rw [elem_qsexc_of_ne (by omega) (by omega)]
      exact h.above x hxj hx
    · exact nofun
  · exact Exchanged.of_qsexc (by omega) (by omega)
  · simp only [Sorter.work]
    omega

/-- The scan from the left passes an element below the pivot. -/
theorem Split.pass_low
    (ho : Orders q.qscmp) (h : q.Split p a l .top s) (hlt : s.i < s.lp)
    (hc : q.cmp s.mem s.i s.lp < 0) :
    q.Advances p a l .top s .top { s with i := s.i + 1 } := by
  have horder := h.order
  constructor
  · constructor <;> dsimp only
    · omega
    · intro x hx hxi
      by_cases hlast : x = s.i
      · rw [hlast]
        exact ho.lt_of_lt_of_eq hc h.cmp_low
      · exact h.below x hx (by omega)
    · exact h.middle
    · exact h.above
    · exact nofun
  · exact Exchanged.refl q a l s.mem
  · simp only [Sorter.work]
    omega

/-- The scan from the left stops. -/
theorem Split.stop_low
    (h : q.Split p a l .top s)
    (hfound : s.i < s.lp → 0 < q.qscmp (q.elem s.mem s.i) p) :
    q.Advances p a l .top s .loop s := by
  constructor
  · exact { h with found := fun _ => hfound }
  · exact Exchanged.refl q a l s.mem
  · simp only [Sorter.work]
    omega

/-- An element at `j` equal to the pivot goes to its other equals. -/
theorem Split.gather_high
    (ho : Orders q.qscmp) (h : q.Split p a l .loop s) (hlt : s.hp < s.j)
    (hc : q.cmp s.mem s.hp s.j = 0) :
    q.Advances p a l .loop s .loop
      { s with hp := s.hp + 1, mem := q.qsexc (s.hp + 1) s.j s.mem } := by
  have horder := h.order
  constructor
  · constructor <;> dsimp only
    · omega
    · intro x hx hxi
      rw [elem_qsexc_of_ne (by omega) (by omega)]
      exact h.below x hx hxi
    · intro x hx hxhp
      by_cases hpivot : x = s.hp + 1
      · rw [hpivot, elem_qsexc_left]
        exact ho.eq_trans (ho.eq_symm hc) h.cmp_high
      · rw [elem_qsexc_of_ne hpivot (by omega)]
        exact h.middle x hx (by omega)
    · intro x hxj hx
      rw [elem_qsexc_of_ne (by omega) (by omega)]
      exact h.above x hxj hx
    · intro hloop hi
      rw [elem_qsexc_of_ne (by omega) (by omega)]
      exact h.found hloop hi
  · exact Exchanged.of_qsexc (by omega) (by omega)
  · simp only [Sorter.work]
    omega

/-- The scan from the right passes an element above the pivot. -/
theorem Split.pass_high
    (ho : Orders q.qscmp) (h : q.Split p a l .loop s) (hlt : s.hp < s.j)
    (hc : q.cmp s.mem s.hp s.j < 0) :
    q.Advances p a l .loop s .loop { s with j := s.j - 1 } := by
  have horder := h.order
  constructor
  · constructor <;> dsimp only
    · omega
    · exact h.below
    · exact h.middle
    · intro x hxj hx
      by_cases hlast : x = s.j
      · rw [hlast]
        exact ho.gt_of_gt_of_eq ((ho.swap _ _).mp hc) h.cmp_high
      · exact h.above x (by omega) hx
    · exact h.found
  · exact Exchanged.refl q a l s.mem
  · simp only [Sorter.work]
    omega

/-- With nothing on the left, the pivots move up for an element below. -/
theorem Split.cross_low
    (ho : Orders q.qscmp) (h : q.Split p a l .loop s) (hlt : s.hp < s.j)
    (hc : 0 < q.cmp s.mem s.hp s.j) (hi : s.i = s.lp) :
    q.Advances p a l .loop s .loop
      { s with
        i := s.lp + 1, lp := s.lp + 1, hp := s.hp + 1
        mem := q.qstexc s.i (s.hp + 1) s.j s.mem } := by
  have horder := h.order
  have hne : s.i ≠ s.hp + 1 := by omega
  have hne' : s.i ≠ s.j := by omega
  constructor
  · constructor <;> dsimp only
    · omega
    · intro x hx hxi
      by_cases hlast : x = s.i
      · rw [hlast, elem_qstexc_first hne hne']
        exact ho.lt_of_lt_of_eq ((ho.swap _ _).mpr hc) h.cmp_high
      · rw [elem_qstexc_of_ne hne hne' hlast (by omega) (by omega)]
        exact h.below x hx (by omega)
    · intro x hx hxhp
      by_cases hpivot : x = s.hp + 1
      · rw [hpivot, elem_qstexc_second hne hne', hi]
        exact h.cmp_low
      · rw [elem_qstexc_of_ne hne hne' (by omega) hpivot (by omega)]
        exact h.middle x (by omega) (by omega)
    · intro x hxj hx
      rw [elem_qstexc_of_ne hne hne' (by omega) (by omega) (by omega)]
      exact h.above x hxj hx
    · intro _ hlow
      omega
  · exact Exchanged.of_qstexc (by omega) (by omega) (by omega) hne hne'
  · simp only [Sorter.work]
    omega

/-- An element above the pivot and one below it change places. -/
theorem Split.exchange
    (ho : Orders q.qscmp) (h : q.Split p a l .loop s) (hlt : s.hp < s.j)
    (hc : 0 < q.cmp s.mem s.hp s.j) (hi : s.i ≠ s.lp) :
    q.Advances p a l .loop s .top
      { s with
        i := s.i + 1, j := s.j - 1, mem := q.qsexc s.i s.j s.mem } := by
  have horder := h.order
  constructor
  · constructor <;> dsimp only
    · omega
    · intro x hx hxi
      by_cases hlast : x = s.i
      · rw [hlast, elem_qsexc_left]
        exact ho.lt_of_lt_of_eq ((ho.swap _ _).mpr hc) h.cmp_high
      · rw [elem_qsexc_of_ne hlast (by omega)]
        exact h.below x hx (by omega)
    · intro x hx hxhp
      rw [elem_qsexc_of_ne (by omega) (by omega)]
      exact h.middle x hx hxhp
    · intro x hxj hx
      by_cases hlast : x = s.j
      · rw [hlast, elem_qsexc_right]
        exact h.found rfl (by omega)
      · rw [elem_qsexc_of_ne (by omega) hlast]
        exact h.above x (by omega) hx
    · exact nofun
  · exact Exchanged.of_qsexc (by omega) (by omega)
  · simp only [Sorter.work]
    omega

/-- With nothing on the right, the pivots move down for an element above. -/
theorem Split.cross_high
    (h : q.Split p a l .loop s) (hmet : ¬ s.hp < s.j) (hi : s.i ≠ s.lp) :
    q.Advances p a l .loop s .top
      { s with
        lp := s.lp - 1, hp := s.hp - 1, j := s.hp - 1
        mem := q.qstexc s.j (s.lp - 1) s.i s.mem } := by
  have horder := h.order
  have hj : s.j = s.hp := by omega
  have hne : s.j ≠ s.lp - 1 := by omega
  have hne' : s.j ≠ s.i := by omega
  constructor
  · constructor <;> dsimp only
    · omega
    · intro x hx hxi
      rw [elem_qstexc_of_ne hne hne' (by omega) (by omega) (by omega)]
      exact h.below x hx hxi
    · intro x hx hxhp
      by_cases hpivot : x = s.lp - 1
      · rw [hpivot, elem_qstexc_second hne hne', hj]
        exact h.cmp_high
      · rw [elem_qstexc_of_ne hne hne' (by omega) hpivot (by omega)]
        exact h.middle x (by omega) (by omega)
    · intro x hxj hx
      by_cases hlast : x = s.j
      · rw [hlast, elem_qstexc_first hne hne']
        exact h.found rfl (by omega)
      · rw [elem_qstexc_of_ne hne hne' hlast (by omega) (by omega)]
        exact h.above x (by omega) hx
    · exact nofun
  · exact Exchanged.of_qstexc (by omega) (by omega) (by omega) hne hne'
  · simp only [Sorter.work]
    omega

/-- The scans have met around the pivots. -/
theorem Split.parted
    (h : q.Split p a l .loop s) (hmet : ¬ s.hp < s.j) (hi : s.i = s.lp) :
    Parted q.qscmp p (q.elem s.mem) a s.lp s.hp l := by
  have horder := h.order
  constructor
  · omega
  · omega
  · omega
  · exact fun x hx hxlp => h.below x hx (by omega)
  · exact h.middle
  · exact fun x hxhp hx => h.above x (by omega) hx

theorem step_top
    (ho : Orders q.qscmp) (h : q.Split p a l .top s) :
    ∃ label' s', q.step .top s = some (label', s') ∧
      q.Advances p a l .top s label' s' := by
  by_cases hlt : s.i < s.lp
  · rcases lt_trichotomy (q.cmp s.mem s.i s.lp) 0 with hneg | hzero | hpos
    · refine ⟨_, _, ?_, h.pass_low ho hlt hneg⟩
      simp only [step, if_pos hlt, if_neg hneg.ne, if_pos hneg]
    · refine ⟨_, _, ?_, h.gather_low ho hlt hzero⟩
      simp only [step, if_pos hlt, if_pos hzero]
    · refine ⟨_, _, ?_,
        h.stop_low fun _ => ho.gt_of_gt_of_eq hpos h.cmp_low⟩
      simp only [step, if_pos hlt, if_neg hpos.ne', if_neg hpos.not_gt]
  · refine ⟨_, _, ?_, h.stop_low fun hlow => absurd hlow hlt⟩
    simp only [step, if_neg hlt]

theorem step_loop
    (ho : Orders q.qscmp) (h : q.Split p a l .loop s) :
    (q.step .loop s = none ∧
        Parted q.qscmp p (q.elem s.mem) a s.lp s.hp l) ∨
      ∃ label' s', q.step .loop s = some (label', s') ∧
        q.Advances p a l .loop s label' s' := by
  by_cases hlt : s.hp < s.j
  · right
    rcases lt_trichotomy (q.cmp s.mem s.hp s.j) 0 with hneg | hzero | hpos
    · refine ⟨_, _, ?_, h.pass_high ho hlt hneg⟩
      simp only [step, if_pos hlt, if_neg hneg.ne, if_neg hneg.not_gt]
    · refine ⟨_, _, ?_, h.gather_high ho hlt hzero⟩
      simp only [step, if_pos hlt, if_pos hzero]
    · by_cases hi : s.i = s.lp
      · refine ⟨_, _, ?_, h.cross_low ho hlt hpos hi⟩
        simp only [step, if_pos hlt, if_neg hpos.ne', if_pos hpos, if_pos hi]
      · refine ⟨_, _, ?_, h.exchange ho hlt hpos hi⟩
        simp only [step, if_pos hlt, if_neg hpos.ne', if_pos hpos, if_neg hi]
  · by_cases hi : s.i = s.lp
    · left
      refine ⟨?_, h.parted hlt hi⟩
      simp only [step, if_neg hlt, if_pos hi]
    · right
      refine ⟨_, _, ?_, h.cross_high hlt hi⟩
      simp only [step, if_neg hlt, if_neg hi]

theorem partition_parts
    (ho : Orders q.qscmp) {budget : ℕ} (h : q.Split p a l label s)
    (hbudget : work label s < budget) :
    ∃ s', q.partition budget label s = some s' ∧
      Parted q.qscmp p (q.elem s'.mem) a s'.lp s'.hp l ∧
      q.Exchanged a l s.mem s'.mem := by
  induction budget generalizing label s with
  | zero => omega
  | succ budget ih =>
      have hstep : (q.step label s = none ∧
          Parted q.qscmp p (q.elem s.mem) a s.lp s.hp l) ∨
          ∃ label' s', q.step label s = some (label', s') ∧
            q.Advances p a l label s label' s' := by
        cases label with
        | top => exact Or.inr (step_top ho h)
        | loop => exact step_loop ho h
      rcases hstep with ⟨hnone, hparted⟩ | ⟨label', s', hsome, hadv⟩
      · refine ⟨s, ?_, hparted, Exchanged.refl q a l s.mem⟩
        simp only [partition, hnone]
      · have hwork := hadv.work
        obtain ⟨s'', hrun, hparted, hex⟩ := ih hadv.split (by omega)
        refine ⟨s'', ?_, hparted, hadv.exchanged.trans hex⟩
        simp only [partition, hsome, hrun]

end Steps

/-! ## The parts of a segment -/

section Parts

variable {a l budget : ℕ}

/-- The middle element is the pivot. -/
theorem start_split (ho : Orders q.qscmp) (hlong : 1 < l - a) (mem : Mem) :
    q.Split (q.elem mem (a + (l - a) / 2)) a l .top
      ⟨mem, a, l - 1, a + (l - a) / 2, a + (l - a) / 2⟩ := by
  constructor <;> dsimp only
  · omega
  · intro x hx hxa
    omega
  · intro x hx hxm
    rw [le_antisymm hxm hx]
    exact ho.eq_self _
  · intro x hxl hx
    omega
  · exact nofun

/-- The result is the memory with a segment sorted. -/
def Sorts (q : Sorter) (a l : ℕ) (mem : Mem) (result : Option Mem) : Prop :=
  ∃ mem', result = some mem' ∧ SortedOn q.qscmp (q.elem mem') a l ∧
    q.Exchanged a l mem mem'

theorem qs1From_short
    (qs1 : Mem → ℕ → ℕ → Option Mem) {turns : ℕ} (hturns : 0 < turns)
    (hshort : l - a ≤ 1) (mem : Mem) :
    q.Sorts a l mem (q.qs1From qs1 budget turns mem a l) := by
  obtain ⟨turns, rfl⟩ := Nat.exists_eq_succ_of_ne_zero hturns.ne'
  refine ⟨mem, ?_, SortedOn.of_short (by omega), Exchanged.refl q a l mem⟩
  rw [qs1From, if_pos hshort]

/-- The part that `qs1` calls itself for is at most half of the segment. -/
theorem qs1From_sorts
    (ho : Orders q.qscmp) {qs1 : Mem → ℕ → ℕ → Option Mem} {half turns : ℕ}
    (hqs1 : ∀ mem a l, l - a < half → 2 * (l - a) < budget →
      q.Sorts a l mem (qs1 mem a l))
    (hturns : l - a < turns) (hhalf : l - a < 2 * half)
    (hbudget : 2 * (l - a) < budget) (mem : Mem) :
    q.Sorts a l mem (q.qs1From qs1 budget turns mem a l) := by
  induction turns generalizing mem a l with
  | zero => omega
  | succ turns ih =>
      by_cases hshort : l - a ≤ 1
      · exact qs1From_short qs1 (Nat.succ_pos turns) hshort mem
      obtain ⟨s, hpart, hparted, hex⟩ := partition_parts ho
        (start_split ho (not_le.mp hshort) mem)
        (show work _ _ < budget by simp only [work]; omega)
      have hlow := hparted.low
      have hpivots := hparted.pivots
      have hhigh := hparted.high
      by_cases hsmall : l - s.hp ≤ s.lp - a
      · obtain ⟨mem₁, hrun₁, hsorted₁, hex₁⟩ :=
          hqs1 s.mem (s.hp + 1) l (by omega) (by omega)
        obtain ⟨mem₂, hrun₂, hsorted₂, hex₂⟩ :=
          ih (a := a) (l := s.lp) (by omega) (by omega) (by omega) mem₁
        refine ⟨mem₂, ?_, ?_, ?_⟩
        · simp only [qs1From, if_neg hshort, hpart, Option.bind_some,
            if_pos hsmall, hrun₁]
          exact hrun₂
        · have hparted₂ := (hparted.rearrange_high hex₁.elems).rearrange_low
            hex₂.elems
          exact hparted₂.sorted ho hsorted₂
            (hsorted₁.congr fun x hx _ => hex₂.elems.outside (by omega))
        · exact hex.trans ((hex₁.mono (by omega) le_rfl).trans
            (hex₂.mono le_rfl (by omega)))
      · obtain ⟨mem₁, hrun₁, hsorted₁, hex₁⟩ :=
          hqs1 s.mem a s.lp (by omega) (by omega)
        obtain ⟨mem₂, hrun₂, hsorted₂, hex₂⟩ :=
          ih (a := s.hp + 1) (l := l) (by omega) (by omega) (by omega) mem₁
        refine ⟨mem₂, ?_, ?_, ?_⟩
        · simp only [qs1From, if_neg hshort, hpart, Option.bind_some,
            if_neg hsmall, hrun₁]
          exact hrun₂
        · have hparted₂ := (hparted.rearrange_low hex₁.elems).rearrange_high
            hex₂.elems
          exact hparted₂.sorted ho
            (hsorted₁.congr fun x _ hx => hex₂.elems.outside (by omega))
            hsorted₂
        · exact hex.trans ((hex₁.mono le_rfl (by omega)).trans
            (hex₂.mono (by omega) le_rfl))

theorem qs1_sorts
    (ho : Orders q.qscmp) (depth : ℕ) (hdepth : l - a < 2 ^ (depth + 1))
    (hbudget : 2 * (l - a) < budget) (mem : Mem) :
    q.Sorts a l mem (q.qs1 budget (depth + 1) mem a l) := by
  induction depth generalizing mem a l with
  | zero => exact qs1From_short _ (by omega) (by omega) mem
  | succ depth ih =>
      rw [pow_succ, mul_comm] at hdepth
      exact qs1From_sorts ho (fun mem a l => fun hhalf hbudget =>
        ih hhalf hbudget mem) (by omega) hdepth hbudget mem

end Parts

end Sorter

/-- A comparison that orders all elements sorts any array of them, with no
other byte changed and no more activations of `qs1` at once than the number
of elements has binary digits. -/
theorem qsort_sorts
    {fc : List (BitVec 8) → List (BitVec 8) → ℤ} (ho : Orders fc)
    {a n es budget : ℕ} (hes : 0 < es) (hbudget : 2 * n < budget) (mem : Mem) :
    ∃ mem', qsort a n es hes fc budget (Nat.log 2 n + 1) mem = some mem' ∧
      (elements a n es mem').Pairwise (fun x y => fc x y ≤ 0) ∧
      (elements a n es mem').Perm (elements a n es mem) ∧
      ∀ x, x < a ∨ a + n * es ≤ x → mem' x = mem x := by
  obtain ⟨mem', hrun, hsorted, hex⟩ := Sorter.qs1_sorts (q := ⟨a, es, hes, fc⟩)
    ho (Nat.log 2 n) (a := 0) (l := n)
    (by simpa using Nat.lt_pow_succ_log_self Nat.one_lt_two n) (by simpa) mem
  refine ⟨mem', hrun, hsorted.pairwise, hex.elems.perm, fun x hx => ?_⟩
  exact hex.outside x (by simpa using hx)

/-- The order of the first bytes. -/
def byKey (x y : List (BitVec 8)) : ℤ :=
  ((x.headD 0).toNat : ℤ) - (y.headD 0).toNat

theorem byKey_orders : Orders byKey where
  swap := fun x y => by
    simp only [byKey]
    omega
  trans := fun x y z hxy hyz => by
    simp only [byKey] at hxy hyz ⊢
    omega

/-- Five elements of two bytes, with keys that fall. -/
def fallingKeys : Mem := fun x => BitVec.ofNat 8 (100 - x)

theorem qsort_sorts_fallingKeys :
    ∃ mem', qsort 8 5 2 Nat.two_pos byKey 11 (Nat.log 2 5 + 1) fallingKeys =
        some mem' ∧
      (elements 8 5 2 mem').Pairwise (fun x y => byKey x y ≤ 0) ∧
      (elements 8 5 2 mem').Perm (elements 8 5 2 fallingKeys) ∧
      ∀ x, x < 8 ∨ 8 + 5 * 2 ≤ x → mem' x = fallingKeys x :=
  qsort_sorts byKey_orders Nat.two_pos (by decide) fallingKeys

end Xinu.QuickSort
