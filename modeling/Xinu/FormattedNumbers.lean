import Xinu.FormattedOutput

/-!
# The digit routines of the formatters

Each routine writes the numeral of its number.  That of `_fdoprnt` for base ten
does so for numbers that are not negative.
-/

namespace Xinu.FormattedOutput

open ByteMemory Numerals

/-! ## Characters of digits -/

theorem digitChar_zero : digitChar 0 = ch '0' := rfl

theorem upperChar_zero : upperChar 0 = ch '0' := rfl

theorem digitChar_eq_zero : ∀ d < 16, digitChar d = digitChar 0 → d = 0 := by
  decide

theorem upperChar_eq_zero : ∀ d < 16, upperChar d = upperChar 0 → d = 0 := by
  decide

theorem digitChar_decimal : ∀ d < 10, BitVec.ofNat 8 (d + 48) = digitChar d := by
  decide

/-- The routines write the numeral if `temp` has its digits. -/
theorem writeDigits_lowDigits
    {b k n : ℕ} {digit : ℕ → Byte} (hb : 1 < b) (hbase : b ≤ 16)
    (hn : n < b ^ k) (hk : 0 < k) (hzero : digit 0 = ch '0')
    (hdigit : ∀ d < 16, digit d = digit 0 → d = 0) :
    writeDigits ((lowDigits b k n).map digit) = numeral b digit n := by
  have hdrop := @dropWhile_map_lowDigits _ _ b k n digit hb hn
    fun d hd => hdigit d (by omega)
  unfold writeDigits numeral
  rw [← hzero, hdrop]
  by_cases hn0 : n = 0
  · subst hn0
    obtain ⟨k, rfl⟩ := Nat.exists_eq_succ_of_ne_zero (Nat.pos_iff_ne_zero.mp hk)
    rw [if_pos rfl, Nat.digits_zero, lowDigits, Nat.zero_mod]
    rfl
  · rw [if_neg hn0]
    cases hds : (Nat.digits b n).reverse.map digit with
    | nil =>
      rw [List.map_eq_nil_iff, List.reverse_eq_nil_iff,
        Nat.digits_eq_nil_iff_eq_zero] at hds
      exact absurd hds hn0
    | cons d ds => rfl

/-! ## Digits of some bits -/

section Shifts

variable {bits : ℕ} {digit : Word → Byte}

theorem shiftDigits_eq (n : ℕ) (num : Word) :
    shiftDigits bits digit n num =
      (List.range n).map fun i => digit (num.sshiftRight (bits * i)) := by
  induction n generalizing num with
  | zero => rfl
  | succ n ih =>
    rw [shiftDigits, ih, List.range_succ_eq_map, List.map_cons, List.map_map,
      Nat.mul_zero, BitVec.sshiftRight_zero]
    congr 1
    apply List.map_congr_left
    intro i _
    show digit ((num.sshiftRight bits).sshiftRight (bits * i)) =
      digit (num.sshiftRight (bits * (i + 1)))
    rw [← BitVec.sshiftRight_add, Nat.mul_succ, Nat.add_comm]

/-- The low bits of a shifted number are bits of the number as long as they do
not reach beyond its sign. -/
theorem toNat_sshiftRight_mod (num : Word) {k s : ℕ} (hks : k + s ≤ 32) :
    (num.sshiftRight k).toNat % 2 ^ s = num.toNat / 2 ^ k % 2 ^ s := by
  apply Nat.eq_of_testBit_eq
  intro i
  rw [Nat.testBit_mod_two_pow, Nat.testBit_mod_two_pow, Nat.testBit_div_two_pow]
  by_cases hi : i < s
  · have hbit : (num.sshiftRight k).toNat.testBit i =
        (num.sshiftRight k).getLsbD i := rfl
    have hnum : num.toNat.testBit (i + k) = num.getLsbD (i + k) := rfl
    rw [hbit, hnum, BitVec.getLsbD_sshiftRight, if_pos (by omega),
      Nat.add_comm k i]
    simp [hi]
    omega
  · simp [hi]

/-- A routine whose turns stay inside the number takes its digits. -/
theorem shiftDigits_lowDigits
    {char : ℕ → Byte} {n : ℕ} (num : Word) (hn : bits * n ≤ 32)
    (hdigit : ∀ w : Word, digit w = char (w.toNat % 2 ^ bits)) :
    shiftDigits bits digit n num = (lowDigits (2 ^ bits) n num.toNat).map char := by
  rw [shiftDigits_eq, lowDigits_eq_map, List.map_map]
  apply List.map_congr_left
  intro i hi
  have hlt := List.mem_range.mp hi
  have hks : bits * i + bits ≤ 32 := by
    calc bits * i + bits = bits * (i + 1) := by ring
      _ ≤ bits * n := Nat.mul_le_mul_left bits hlt
      _ ≤ 32 := hn
  show digit (num.sshiftRight (bits * i)) =
    char (num.toNat / (2 ^ bits) ^ i % 2 ^ bits)
  rw [hdigit, toNat_sshiftRight_mod num hks, ← pow_mul]

end Shifts

theorem toNat_and_mask (w : Word) (s : ℕ) (hs : s ≤ 32) :
    (w &&& BitVec.ofNat 32 (2 ^ s - 1)).toNat = w.toNat % 2 ^ s := by
  have hmask : (BitVec.ofNat 32 (2 ^ s - 1)).toNat = 2 ^ s - 1 := by
    rw [BitVec.toNat_ofNat]
    apply Nat.mod_eq_of_lt
    have : 2 ^ s ≤ 2 ^ 32 := Nat.pow_le_pow_right (by omega) hs
    have : 0 < 2 ^ s := Nat.two_pow_pos s
    omega
  rw [BitVec.toNat_and, hmask, Nat.and_two_pow_sub_one_eq_mod]

theorem lowerHex_eq (w : Word) : lowerHex w = digitChar (w.toNat % 2 ^ 4) := by
  unfold lowerHex digitChar
  rw [← toNat_and_mask w 4 (by omega)]
  rfl

theorem upperHex_eq (w : Word) : upperHex w = upperChar (w.toNat % 2 ^ 4) := by
  unfold upperHex upperChar
  rw [← toNat_and_mask w 4 (by omega)]
  rfl

theorem octal_eq (w : Word) : octal w = digitChar (w.toNat % 2 ^ 3) := by
  have hchar : ∀ d < 8, BitVec.ofNat 8 d + ch '0' = digitChar d := by decide
  have hmask : (w &&& 0o7).toNat = w.toNat % 2 ^ 3 :=
    toNat_and_mask w 3 (by omega)
  have hlt : w.toNat % 2 ^ 3 < 8 := Nat.mod_lt _ (by omega)
  unfold octal
  rw [← hchar _ hlt, ← hmask]
  congr 1

theorem binary_eq (w : Word) : binary w = digitChar (w.toNat % 2 ^ 1) := by
  have hint : w.toInt.tmod 2 = 0 ↔ w.toNat % 2 = 0 := by
    rw [← Int.dvd_iff_tmod_eq_zero, BitVec.toInt_eq_toNat_cond]
    split_ifs <;> omega
  unfold binary
  by_cases heven : w.toNat % 2 = 0
  · rw [if_pos (hint.mpr heven), pow_one, heven]
    rfl
  · have hodd : w.toNat % 2 = 1 := by omega
    rw [if_neg (mt hint.mp heven), pow_one, hodd]
    rfl

theorem prtl16_eq (w : Word) : prtl16 w = numeral 16 digitChar w.toNat := by
  unfold prtl16
  rw [shiftDigits_lowDigits w (by omega) lowerHex_eq]
  exact writeDigits_lowDigits (by norm_num) (by norm_num) w.isLt (by omega)
    digitChar_zero digitChar_eq_zero

theorem prtX16_eq (w : Word) : prtX16 w = numeral 16 upperChar w.toNat := by
  unfold prtX16
  rw [shiftDigits_lowDigits w (by omega) upperHex_eq]
  exact writeDigits_lowDigits (by norm_num) (by norm_num) w.isLt (by omega)
    upperChar_zero upperChar_eq_zero

theorem prtl2_eq (w : Word) : prtl2 w = numeral 2 digitChar w.toNat := by
  unfold prtl2
  rw [shiftDigits_lowDigits w (by omega) binary_eq]
  exact writeDigits_lowDigits (by norm_num) (by norm_num) w.isLt (by omega)
    digitChar_zero digitChar_eq_zero

/-- The highest octal digit has two bits, above which the shift has filled in
the sign. -/
theorem prtl8_eq (w : Word) : prtl8 w = numeral 8 digitChar w.toNat := by
  have hmask : ∀ d < 8, digitChar d &&& ch '3' = digitChar (d % 4) := by decide
  have hten : (shiftDigits 3 octal 11 w).take 10 =
      (lowDigits 8 10 w.toNat).map digitChar := by
    rw [shiftDigits_eq, ← List.map_take, List.take_range,
      show min 10 11 = 10 from rfl, ← shiftDigits_eq]
    exact shiftDigits_lowDigits w (by omega) octal_eq
  have hlast : ((shiftDigits 3 octal 11 w).drop 10).map (· &&& ch '3') =
      [digitChar (w.toNat / 8 ^ 10 % 8)] := by
    have hdrop : (shiftDigits 3 octal 11 w).drop 10 =
        [octal (w.sshiftRight 30)] := by
      rw [shiftDigits_eq]
      rfl
    have hbits := @toNat_sshiftRight_mod w 30 2 (by omega)
    have hlt := w.isLt
    rw [hdrop, List.map_singleton, octal_eq,
      hmask _ (show _ % 2 ^ 3 < 8 from Nat.mod_lt _ (by omega))]
    congr 2
    omega
  unfold prtl8
  dsimp only
  rw [hten, hlast, ← List.map_singleton, ← List.map_append, ← lowDigits_succ]
  exact writeDigits_lowDigits (by norm_num) (by norm_num)
    (lt_trans w.isLt (by norm_num)) (by omega) digitChar_zero digitChar_eq_zero

/-! ## Base ten -/

theorem decimals_eq (k n : ℕ) :
    decimals k (n : ℤ) = (lowDigits 10 k n).map digitChar := by
  induction k generalizing n with
  | zero => rfl
  | succ k ih =>
    have hmod : ((n : ℤ).tmod 10 + 48) = ((n % 10 + 48 : ℕ) : ℤ) := by
      rw [Int.tmod_eq_emod_of_nonneg (by omega)]
      omega
    have hdiv : (n : ℤ).tdiv 10 = ((n / 10 : ℕ) : ℤ) := by
      rw [Int.tdiv_eq_ediv_of_nonneg (by omega)]
      omega
    rw [decimals, lowDigits, List.map_cons, hdiv, ih, hmod, BitVec.ofInt_natCast,
      digitChar_decimal _ (Nat.mod_lt n (by omega))]

theorem fdPrtl10_eq (w : Word) (hw : 0 ≤ w.toInt) :
    fdPrtl10 w = numeral 10 digitChar w.toNat := by
  have hnat : w.toInt = (w.toNat : ℤ) := by
    rw [BitVec.toInt_eq_toNat_cond] at hw ⊢
    split_ifs at hw ⊢ with hlt
    · rfl
    · have := w.isLt
      omega
  unfold fdPrtl10
  rw [hnat, decimals_eq]
  exact writeDigits_lowDigits (by norm_num) (by norm_num)
    (lt_trans w.isLt (by norm_num)) (by omega) digitChar_zero digitChar_eq_zero

theorem natAbs_lt (w : Word) : w.toInt.natAbs < 10 ^ 10 := by
  have hlow : -2 ^ 31 ≤ w.toInt := BitVec.le_toInt w
  have hhigh : w.toInt < 2 ^ 31 := BitVec.toInt_lt
  omega

theorem doPrtl10_eq (w : Word) :
    doPrtl10 w = numeral 10 digitChar w.toInt.natAbs := by
  have hlt := natAbs_lt w
  have hdigit : (if w.toInt < 0 then -(w.toInt.tmod 10) else w.toInt.tmod 10) + 48 =
      ((w.toInt.natAbs % 10 + 48 : ℕ) : ℤ) := by
    split_ifs with hneg
    · rw [← Int.neg_tmod, Int.tmod_eq_emod_of_nonneg (by omega)]
      omega
    · rw [Int.tmod_eq_emod_of_nonneg (by omega)]
      omega
  have hrest : w.toInt.tdiv (if w.toInt < 0 then -10 else 10) =
      ((w.toInt.natAbs / 10 : ℕ) : ℤ) := by
    split_ifs with hneg
    · rw [Int.tdiv_neg, ← Int.neg_tdiv, Int.tdiv_eq_ediv_of_nonneg (by omega)]
      omega
    · rw [Int.tdiv_eq_ediv_of_nonneg (by omega)]
      omega
  have hdigits : BitVec.ofInt 8 ((w.toInt.natAbs % 10 + 48 : ℕ) : ℤ) ::
      decimals 9 ((w.toInt.natAbs / 10 : ℕ) : ℤ) =
        (lowDigits 10 10 w.toInt.natAbs).map digitChar := by
    rw [decimals_eq, BitVec.ofInt_natCast,
      digitChar_decimal _ (Nat.mod_lt _ (by omega))]
    rfl
  unfold doPrtl10
  dsimp only
  rw [hdigit, hrest, hdigits]
  exact writeDigits_lowDigits (by norm_num) (by norm_num) hlt (by omega)
    digitChar_zero digitChar_eq_zero

/-! ## Numbers without a sign -/

theorem toInt_neg_iff (w : Word) : w.toInt < 0 ↔ 2 ^ 31 ≤ w.toNat := by
  have := w.isLt
  rw [BitVec.toInt_eq_toNat_cond]
  split_ifs <;> omega

theorem toNat_lowered (w : Word) (hw : 10 ^ 9 ≤ w.toNat) :
    (w - 1000000000).toNat = w.toNat - 10 ^ 9 := by
  have hbillion : (1000000000 : Word).toNat = 10 ^ 9 := by decide
  have := w.isLt
  rw [BitVec.toNat_sub, hbillion]
  omega

/-- `%u` lowers a number with the sign bit until it has none. -/
theorem lower_spec (w : Word) :
    ∃ larg digit1, lower 3 w 0 = (larg, BitVec.ofNat 8 digit1) ∧
      0 ≤ larg.toInt ∧ w.toNat = larg.toNat + digit1 * 10 ^ 9 ∧
      (digit1 = 0 ∨ 10 ^ 9 ≤ larg.toNat) := by
  have hlt := w.isLt
  by_cases h₀ : w.toInt < 0
  · have hw := (toInt_neg_iff w).mp h₀
    have h₁ := toNat_lowered w (by omega)
    by_cases hneg₁ : (w - 1000000000).toInt < 0
    · have hw₁ := (toInt_neg_iff _).mp hneg₁
      have h₂ := toNat_lowered (w - 1000000000) (by omega)
      by_cases hneg₂ : (w - 1000000000 - 1000000000).toInt < 0
      · have hw₂ := (toInt_neg_iff _).mp hneg₂
        have h₃ := toNat_lowered (w - 1000000000 - 1000000000) (by omega)
        have hnonneg := mt (toInt_neg_iff
          (w - 1000000000 - 1000000000 - 1000000000)).mp (by omega)
        refine ⟨_, 3, ?_, not_lt.mp hnonneg, by omega, by omega⟩
        rw [lower, if_pos h₀, lower, if_pos hneg₁, lower, if_pos hneg₂]
        rfl
      · have hw₂ := mt (toInt_neg_iff _).mpr hneg₂
        refine ⟨_, 2, ?_, not_lt.mp hneg₂, by omega, by omega⟩
        rw [lower, if_pos h₀, lower, if_pos hneg₁, lower, if_neg hneg₂]
        rfl
    · have hw₁ := mt (toInt_neg_iff _).mpr hneg₁
      refine ⟨_, 1, ?_, not_lt.mp hneg₁, by omega, by omega⟩
      rw [lower, if_pos h₀, lower, if_neg hneg₁]
      rfl
  · refine ⟨w, 0, ?_, not_lt.mp h₀, by omega, Or.inl rfl⟩
    rw [lower, if_neg h₀]
    rfl

/-- A number of ten digits: the highest digit and the others. -/
theorem numeral_ten (n : ℕ) (hlow : 10 ^ 9 ≤ n) (hn : n < 10 ^ 10) :
    numeral 10 digitChar n =
      digitChar (n / 10 ^ 9) :: (lowDigits 10 9 n).reverse.map digitChar := by
  have htop : n / 10 ^ 9 % 10 = n / 10 ^ 9 := by omega
  unfold numeral
  rw [if_neg (by omega), digits_eq_lowDigits (by norm_num) hlow hn, lowDigits_succ,
    htop, List.reverse_append]
  rfl

theorem unsignedText_eq
    {prtl10 : Word → List Byte} (w : Word)
    (hprtl10 : ∀ w : Word, 0 ≤ w.toInt → prtl10 w = numeral 10 digitChar w.toNat) :
    unsignedText prtl10 w = numeral 10 digitChar w.toNat := by
  have hchar : ∀ d < 10, ∀ e < 10, d + e < 10 →
      digitChar d + BitVec.ofNat 8 e = digitChar (d + e) := by decide
  have hlt := w.isLt
  obtain ⟨larg, digit1, hlower, hnonneg, hw, hlow⟩ := lower_spec w
  unfold unsignedText
  rw [hlower]
  dsimp only
  rw [hprtl10 larg hnonneg]
  rcases hlow with hzero | hlow
  · subst hzero
    have heq : w.toNat = larg.toNat := by omega
    rw [heq]
    cases numeral 10 digitChar larg.toNat with
    | nil => rfl
    | cons c str =>
      show (c + 0#8) :: str = c :: str
      rw [BitVec.add_zero]
  · have hrest : lowDigits 10 9 w.toNat = lowDigits 10 9 larg.toNat := by
      rw [lowDigits_eq_map, lowDigits_eq_map]
      apply List.map_congr_left
      intro i hi
      have hi9 := List.mem_range.mp hi
      interval_cases i <;> omega
    rw [numeral_ten _ hlow (by omega), numeral_ten w.toNat (by omega) (by omega),
      hrest]
    dsimp only
    rw [hchar _ (by omega) digit1 (by omega) (by omega)]
    congr 2
    omega

end Xinu.FormattedOutput
