import Mathlib.Data.Nat.Digits.Lemmas

/-!
# Numerals

A printer that divides a fixed number of times gets the digits of a number with
zeros above them.  The numeral is what is left without these zeros, and its
value is read from the first digit to the last.
-/

namespace Numerals

/-- The lowest `k` digits, the lowest one first. -/
def lowDigits (b : ℕ) : ℕ → ℕ → List ℕ
  | 0, _ => []
  | k + 1, n => n % b :: lowDigits b k (n / b)

/-- The numeral of a number; that of zero has one digit. -/
def numeral {α : Type} (b : ℕ) (digit : ℕ → α) (n : ℕ) : List α :=
  if n = 0 then [digit 0] else (Nat.digits b n).reverse.map digit

section Digits

variable {b k n : ℕ}

@[simp] theorem length_lowDigits (b k n : ℕ) : (lowDigits b k n).length = k := by
  induction k generalizing n with
  | zero => rfl
  | succ k ih => rw [lowDigits, List.length_cons, ih]

theorem lowDigits_lt (hb : 0 < b) : ∀ d ∈ lowDigits b k n, d < b := by
  induction k generalizing n with
  | zero => simp [lowDigits]
  | succ k ih =>
    intro d hd
    rcases List.mem_cons.mp hd with rfl | hd
    · exact Nat.mod_lt n hb
    · exact ih d hd

theorem lowDigits_eq_map (b k n : ℕ) :
    lowDigits b k n = (List.range k).map fun i => n / b ^ i % b := by
  induction k generalizing n with
  | zero => rfl
  | succ k ih =>
    rw [lowDigits, ih, List.range_succ_eq_map, List.map_cons, List.map_map,
      pow_zero, Nat.div_one]
    congr 1
    apply List.map_congr_left
    intro i _
    show n / b / b ^ i % b = n / b ^ (i + 1) % b
    rw [Nat.div_div_eq_div_mul, pow_succ']

theorem lowDigits_succ (b k n : ℕ) :
    lowDigits b (k + 1) n = lowDigits b k n ++ [n / b ^ k % b] := by
  rw [lowDigits_eq_map, lowDigits_eq_map, List.range_succ, List.map_append]
  rfl

/-- Without the zeros above it, the digits are those of the number. -/
theorem dropWhile_lowDigits (hb : 1 < b) (hn : n < b ^ k) :
    (lowDigits b k n).reverse.dropWhile (· = 0) = (Nat.digits b n).reverse := by
  induction k generalizing n with
  | zero =>
    have hzero : n = 0 := by simpa using hn
    rw [hzero, Nat.digits_zero]
    rfl
  | succ k ih =>
    have hdiv : n / b < b ^ k := by
      rw [Nat.div_lt_iff_lt_mul (by omega)]
      rwa [pow_succ] at hn
    rw [lowDigits, List.reverse_cons, List.dropWhile_append, ih hdiv]
    by_cases hlow : n < b
    · rw [Nat.div_eq_of_lt hlow, Nat.digits_zero, Nat.mod_eq_of_lt hlow]
      by_cases hzero : n = 0
      · simp [hzero]
      · rw [Nat.digits_of_lt b n hzero hlow]
        simp [hzero]
    · have hpos : 0 < n := by omega
      have hnext : n / b ≠ 0 := by
        have := Nat.div_pos (Nat.not_lt.mp hlow) (by omega)
        omega
      rw [Nat.digits_def' hb hpos, List.reverse_cons, if_neg]
      rw [List.isEmpty_iff, List.reverse_eq_nil_iff,
        Nat.digits_eq_nil_iff_eq_zero]
      exact hnext

/-- If the highest digit is not zero, no digit is dropped. -/
theorem digits_eq_lowDigits (hb : 1 < b) (hlow : b ^ k ≤ n) (hn : n < b ^ (k + 1)) :
    Nat.digits b n = lowDigits b (k + 1) n := by
  induction k generalizing n with
  | zero =>
    have hne : n ≠ 0 := by
      rw [pow_zero] at hlow
      omega
    have hlt : n < b := by simpa using hn
    rw [Nat.digits_of_lt b n hne hlt]
    simp [lowDigits, Nat.mod_eq_of_lt hlt]
  | succ k ih =>
    have hpos : 0 < n := lt_of_lt_of_le (Nat.pow_pos (by omega)) hlow
    rw [Nat.digits_def' hb hpos, lowDigits, ih]
    · rw [Nat.le_div_iff_mul_le (by omega)]
      rwa [pow_succ] at hlow
    · rw [Nat.div_lt_iff_lt_mul (by omega)]
      rwa [pow_succ] at hn

/-- The value of a numeral, read from its first digit on. -/
theorem foldl_digits (b n : ℕ) :
    (Nat.digits b n).reverse.foldl (fun acc d => acc * b + d) 0 = n := by
  rw [List.foldl_reverse]
  calc
    (Nat.digits b n).foldr (fun d acc => acc * b + d) 0 =
        (Nat.digits b n).foldr (fun d acc => (d : ℕ) + b * acc) 0 := by
          congr 1
          funext d acc
          rw [Nat.mul_comm, Nat.add_comm]
    _ = Nat.ofDigits b (Nat.digits b n) :=
      (Nat.ofDigits_eq_foldr b (Nat.digits b n)).symm
    _ = n := Nat.ofDigits_digits b n

theorem length_numeral_le {α : Type} {digit : ℕ → α} (hb : 1 < b) (hk : 0 < k)
    (hn : n < b ^ k) : (numeral b digit n).length ≤ k := by
  unfold numeral
  by_cases hzero : n = 0
  · rw [if_pos hzero]
    exact hk
  · rw [if_neg hzero, List.length_map, List.length_reverse,
      Nat.digits_length_le_iff hb]
    exact hn

end Digits

section Characters

variable {α : Type} [DecidableEq α] {b k n : ℕ} {digit : ℕ → α}

/-- What a printer leaves of the characters of the digits. -/
theorem dropWhile_map_lowDigits
    (hb : 1 < b) (hn : n < b ^ k) (hdigit : ∀ d < b, digit d = digit 0 → d = 0) :
    ((lowDigits b k n).map digit).reverse.dropWhile (· = digit 0) =
      (Nat.digits b n).reverse.map digit := by
  rw [← List.map_reverse, List.dropWhile_map, ← dropWhile_lowDigits hb hn]
  congr 1
  have hlt : ∀ d ∈ (lowDigits b k n).reverse, d < b := fun d hd =>
    lowDigits_lt (by omega) d (List.mem_reverse.mp hd)
  generalize (lowDigits b k n).reverse = ds at hlt ⊢
  induction ds with
  | nil => rfl
  | cons d ds ih =>
    have hd : (digit d = digit 0) ↔ d = 0 :=
      ⟨hdigit d (hlt d List.mem_cons_self), fun h => by rw [h]⟩
    by_cases hzero : d = 0
    · rw [List.dropWhile_cons_of_pos (by simp [hzero]),
        List.dropWhile_cons_of_pos (by simp [hzero])]
      exact ih fun e he => hlt e (List.mem_cons_of_mem d he)
    · rw [List.dropWhile_cons_of_neg (by simpa [hd] using hzero),
        List.dropWhile_cons_of_neg (by simpa using hzero)]

end Characters

end Numerals
