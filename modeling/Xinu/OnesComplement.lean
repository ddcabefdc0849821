import Mathlib.Tactic

/-!
# The Internet checksum

Bytes are read as 16-bit words in network order, with a zero byte behind an
odd one.  The checksum is the complement of their sum with every carry out of
the low 16 bits added in again.
-/

namespace OnesComplement

def words : List (BitVec 8) → List ℕ
  | hi :: lo :: rest => (hi.toNat * 256 + lo.toNat) :: words rest
  | [hi] => [hi.toNat * 256]
  | [] => []

/-- The sum of the words, with all of its carries. -/
def wordSum (bytes : List (BitVec 8)) : ℕ := (words bytes).sum

/-- Add the carries in until there is none. -/
def foldCarries (s : ℕ) : ℕ :=
  if s < 65536 then s else foldCarries (s / 65536 + s % 65536)
termination_by s
decreasing_by omega

def internetChecksum (bytes : List (BitVec 8)) : ℕ :=
  65535 - foldCarries (wordSum bytes)

/-- One addition of the carries leaves none. -/
def CarriesOnce (s : ℕ) : Prop := s / 65536 + s % 65536 < 65536

instance (s : ℕ) : Decidable (CarriesOnce s) :=
  inferInstanceAs (Decidable (_ < _))

/-- Folding keeps the residue modulo `65535`, and zero comes from zero only. -/
theorem foldCarries_eq (s : ℕ) :
    foldCarries s = if s = 0 then 0 else (s - 1) % 65535 + 1 := by
  induction s using foldCarries.induct with
  | case1 s hs =>
      rw [foldCarries, if_pos hs]
      split_ifs <;> omega
  | case2 s hs ih =>
      rw [foldCarries, if_neg hs, ih]
      split_ifs <;> omega

theorem foldCarries_carry (s : ℕ) :
    foldCarries s = foldCarries (s / 65536 + s % 65536) := by
  by_cases hs : s < 65536
  · rw [Nat.div_eq_of_lt hs, Nat.mod_eq_of_lt hs, Nat.zero_add]
  · rw [foldCarries, if_neg hs]

/-- The carries of a sum together with the complement of its own first fold:
a carry that the complement has missed is left over. -/
theorem carries_of_complement {s : ℕ} (hs : s / 65536 ≤ 65535) :
    (s + (65535 - (s / 65536 + s % 65536) % 65536)) / 65536 +
        (s + (65535 - (s / 65536 + s % 65536) % 65536)) % 65536 =
      if CarriesOnce s then 65535 else 65536 := by
  have hlo : s % 65536 < 65536 := Nat.mod_lt _ (by norm_num)
  have hsplit : s = 65536 * (s / 65536) + s % 65536 := by omega
  split_ifs with honce
  · unfold CarriesOnce at honce
    have htotal : s + (65535 - (s / 65536 + s % 65536) % 65536) =
        65536 * (s / 65536) + (65535 - s / 65536) := by omega
    rw [htotal]
    omega
  · unfold CarriesOnce at honce
    have htotal : s + (65535 - (s / 65536 + s % 65536) % 65536) =
        65536 * (s / 65536 + 1) + (65535 - s / 65536) := by omega
    rw [htotal]
    omega

theorem wordSum_cons_cons (hi lo : BitVec 8) (rest : List (BitVec 8)) :
    wordSum (hi :: lo :: rest) = hi.toNat * 256 + lo.toNat + wordSum rest := by
  simp [wordSum, words]

theorem range_add_two (len : ℕ) (f : ℕ → BitVec 8) :
    (List.range (len + 2)).map f =
      f 0 :: f 1 :: (List.range len).map fun k => f (k + 2) := by
  rw [List.range_succ_eq_map, List.range_succ_eq_map]
  simp [Function.comp_def]

/-- The sum of the words as a loop over the bytes forms it. -/
theorem wordSum_map_range (len : ℕ) (f : ℕ → BitVec 8) :
    wordSum ((List.range len).map f) =
      ((List.range (len / 2)).map fun i =>
        (f (2 * i)).toNat * 256 + (f (2 * i + 1)).toNat).sum +
        if len % 2 ≠ 0 then (f (2 * (len / 2))).toNat * 256 else 0 := by
  induction len using Nat.strong_induction_on generalizing f with
  | _ len ih =>
      match len with
      | 0 => rfl
      | 1 => simp [wordSum, words]
      | len + 2 =>
          have hhalf : (len + 2) / 2 = len / 2 + 1 := by omega
          have hodd : (len + 2) % 2 = len % 2 := by omega
          rw [range_add_two, wordSum_cons_cons, ih len (by omega), hhalf, hodd,
            List.range_succ_eq_map]
          have hshift : ∀ i : ℕ, 2 * i.succ = 2 * i + 2 := fun i => by omega
          have hnext : ∀ i : ℕ, 2 * i + 2 + 1 = 2 * i + 1 + 2 :=
            fun i => by omega
          simp only [List.map_cons, List.map_map, List.sum_cons,
            Function.comp_def, mul_zero, Nat.zero_add, hshift, hnext]
          omega

/-- A word that was zero has been filled in. -/
theorem sum_filled
    {g g' : ℕ → ℕ} {j n v : ℕ} (hj : j < n) (hzero : g j = 0)
    (hfilled : g' j = v) (hrest : ∀ i, i ≠ j → g' i = g i) :
    ((List.range n).map g').sum = ((List.range n).map g).sum + v := by
  induction n with
  | zero => omega
  | succ n ih =>
      rw [List.range_succ, List.map_append, List.map_append, List.sum_append,
        List.sum_append]
      by_cases hn : j = n
      · have hbelow : (List.range n).map g' = (List.range n).map g := by
          apply List.map_congr_left
          intro i hi
          apply hrest
          have := List.mem_range.mp hi
          omega
        subst hn
        simp [hbelow, hzero, hfilled]
      · have hlast := hrest n (Ne.symm hn)
        have hbelow := ih (by omega)
        simp only [List.map_cons, List.map_nil, List.sum_singleton, hbelow,
          hlast]
        omega

theorem wordSum_filled
    {f f' : ℕ → BitVec 8} {len j v : ℕ} (hj : 2 * j + 1 < len)
    (hhi : f (2 * j) = 0) (hlo : f (2 * j + 1) = 0)
    (hfilled : (f' (2 * j)).toNat * 256 + (f' (2 * j + 1)).toNat = v)
    (hrest : ∀ k, k ≠ 2 * j → k ≠ 2 * j + 1 → f' k = f k) :
    wordSum ((List.range len).map f') =
      wordSum ((List.range len).map f) + v := by
  rw [wordSum_map_range, wordSum_map_range,
    sum_filled (n := len / 2) (show j < len / 2 by omega)
      (g := fun i => (f (2 * i)).toNat * 256 + (f (2 * i + 1)).toNat)
      (by simp [hhi, hlo]) hfilled]
  · by_cases hodd : len % 2 ≠ 0
    · rw [if_pos hodd, if_pos hodd, hrest _ (by omega) (by omega)]
      omega
    · rw [if_neg hodd, if_neg hodd]
      omega
  · intro i hi
    rw [hrest _ (by omega) (by omega), hrest _ (by omega) (by omega)]

theorem sum_le_of_words (g : ℕ → ℕ) (n : ℕ) (hg : ∀ i, g i ≤ 65535) :
    ((List.range n).map g).sum ≤ 65535 * n := by
  induction n with
  | zero => simp
  | succ n ih =>
      have hlast := hg n
      rw [List.range_succ, List.map_append, List.sum_append]
      simp only [List.map_cons, List.map_nil, List.sum_singleton]
      omega

theorem wordSum_le (len : ℕ) (f : ℕ → BitVec 8) :
    wordSum ((List.range len).map f) ≤ 65535 * ((len + 1) / 2) := by
  have hwords := sum_le_of_words
    (fun i => (f (2 * i)).toNat * 256 + (f (2 * i + 1)).toNat) (len / 2)
    fun i => by
      have hhi := (f (2 * i)).isLt
      have hlo := (f (2 * i + 1)).isLt
      omega
  have hlast := (f (2 * (len / 2))).isLt
  rw [wordSum_map_range]
  split_ifs <;> omega

end OnesComplement
