import Mathlib.Data.List.TakeWhile
import Xinu.FormattedNumbers

/-!
# What the formatters emit

The characters of a directive are compared with its standard meaning through
the parts that are not blank: a field is its digits or its text, with blanks on
one side.
-/

namespace Xinu.FormattedOutput

open ByteMemory Numerals

/-! ## Fields -/

/-- A text with `k` blanks on one side. -/
def place (left : Bool) (body : List Byte) (k : ℕ) : List Byte :=
  if left then body ++ List.replicate k (ch ' ')
  else List.replicate k (ch ' ') ++ body

def Solid (text : List Byte) : Prop := ∀ c ∈ text, c ≠ ch ' '

def signText (sign : Bool) : List Byte := if sign then [ch '-'] else []

section Fields

variable {x y : List Byte} {l l' : Bool} {k m : ℕ}

theorem length_place (l : Bool) (x : List Byte) (k : ℕ) :
    (place l x k).length = x.length + k := by
  cases l
  · show (List.replicate k (ch ' ') ++ x).length = x.length + k
    rw [List.length_append, List.length_replicate, Nat.add_comm]
  · show (x ++ List.replicate k (ch ' ')).length = x.length + k
    rw [List.length_append, List.length_replicate]

theorem filter_place (hx : Solid x) (l : Bool) (k : ℕ) :
    (place l x k).filter (· ≠ ch ' ') = x := by
  have hblank : (List.replicate k (ch ' ')).filter (· ≠ ch ' ') = [] := by
    rw [List.filter_replicate]
    rfl
  have hsolid : x.filter (· ≠ ch ' ') = x :=
    List.filter_eq_self.mpr fun c hc => by simpa using hx c hc
  cases l
  · show (List.replicate k (ch ' ') ++ x).filter (· ≠ ch ' ') = x
    rw [List.filter_append, hblank, hsolid, List.nil_append]
  · show (x ++ List.replicate k (ch ' ')).filter (· ≠ ch ' ') = x
    rw [List.filter_append, hblank, hsolid, List.append_nil]

@[simp] theorem place_zero (l : Bool) (x : List Byte) : place l x 0 = x := by
  cases l
  · exact List.nil_append x
  · exact List.append_nil x

/-- A field of solid characters determines them, its blanks and their side. -/
theorem place_eq_iff (hx : Solid x) (hy : Solid y) (hne : x ≠ []) :
    place l x k = place l' y m ↔ x = y ∧ k = m ∧ (k = 0 ∨ l = l') := by
  constructor
  · intro h
    have hxy : x = y := by
      rw [← filter_place hx l k, h, filter_place hy l' m]
    subst hxy
    have hkm : k = m := by
      have hlength := congrArg List.length h
      rw [length_place, length_place] at hlength
      omega
    subst hkm
    refine ⟨rfl, rfl, ?_⟩
    by_contra hside
    obtain ⟨hk, hll'⟩ := not_or.mp hside
    obtain ⟨k, rfl⟩ := Nat.exists_eq_succ_of_ne_zero hk
    obtain ⟨c, x, rfl⟩ := List.exists_cons_of_ne_nil hne
    have hc : c ≠ ch ' ' := hx c List.mem_cons_self
    -- one side starts with a blank and the other with a solid character
    cases l <;> cases l'
    · exact hll' rfl
    · exact hc (List.cons.inj h).1.symm
    · exact hc (List.cons.inj h).1
    · exact hll' rfl
  · rintro ⟨rfl, rfl, hside⟩
    rcases hside with rfl | rfl
    · rw [place_zero, place_zero]
    · rfl

theorem solid_append : Solid (x ++ y) ↔ Solid x ∧ Solid y :=
  List.forall_mem_append

theorem solid_signText (sign : Bool) : Solid (signText sign) := by
  cases sign
  · intro c hc
    cases hc
  · intro c hc
    rw [List.mem_singleton.mp hc]
    decide

theorem solid_zeros (k : ℕ) : Solid (List.replicate k (ch '0')) := by
  intro c hc
  rw [List.eq_of_mem_replicate hc]
  decide

theorem justify_eq_place (leftjust : Bool) (width : ℤ) (body : List Byte) :
    justify leftjust width body =
      place (leftjust ∨ width < 0) body (width.natAbs - body.length) := by
  unfold justify place
  by_cases h : leftjust = true ∨ width < 0
  · rw [if_pos h, if_pos (by simpa using h)]
  · rw [if_neg h, if_neg (by simpa using h)]

end Fields

/-! ## The common end -/

section Pad

variable {leftjust sign : Bool} {fmin fmax : ℤ} {str : List Byte}

theorem limit_nonneg (n : ℤ) : 0 ≤ limit n := by
  unfold limit
  split_ifs <;> omega

theorem length_keep :
    ((keep fmax str).length : ℤ) =
      if limit fmax = 0 then (str.length : ℤ)
      else if (str.length : ℤ) > limit fmax then limit fmax else str.length := by
  have hnonneg := limit_nonneg fmax
  unfold keep
  split_ifs with hzero hlong
  · rfl
  · rw [List.length_take]
    omega
  · rw [List.length_take]
    omega

theorem take_keep : str.take (keep fmax str).length = keep fmax str := by
  unfold keep
  split_ifs with hzero
  · exact List.take_length
  · rw [List.length_take]
    by_cases hle : (limit fmax).toNat ≤ str.length
    · rw [Nat.min_eq_left hle]
    · rw [Nat.min_eq_right (by omega), List.take_length,
        List.take_of_length_le (by omega)]

def padding (sign : Bool) (fmin fmax : ℤ) (str : List Byte) : ℕ :=
  (limit fmin).toNat - (signText sign ++ keep fmax str).length

theorem pad_eq (fill : Byte) :
    pad leftjust fill sign fmin fmax str =
      (if sign ∧ fill = ch '0' then [ch '-'] else []) ++
        (if leftjust then []
          else List.replicate (padding sign fmin fmax str) fill) ++
        (if sign ∧ fill = ch ' ' then [ch '-'] else []) ++
        keep fmax str ++
        (if leftjust then List.replicate (padding sign fmin fmax str) fill
          else []) := by
  have hmin := limit_nonneg fmin
  have hmax := limit_nonneg fmax
  have hlength := @length_keep fmax str
  have hsign : ((signText sign).length : ℤ) = if sign then 1 else 0 := by
    cases sign <;> rfl
  have hpadding : padding sign fmin fmax str =
      (limit fmin).toNat - ((signText sign).length + (keep fmax str).length) := by
    rw [padding, List.length_append]
  unfold pad
  dsimp only
  by_cases hany : limit fmax ≠ 0 ∨ limit fmin ≠ 0
  · rw [if_pos hany]
    dsimp only
    have hkept : (if limit fmax ≠ 0 then
        if (str.length : ℤ) > limit fmax then limit fmax else (str.length : ℤ)
        else (str.length : ℤ)) = ((keep fmax str).length : ℤ) := by
      rw [hlength]
      split_ifs <;> first | rfl | contradiction
    rw [hkept, Int.toNat_natCast, take_keep]
    have hleading : (if sign = true then
          (if limit fmin ≠ 0 then limit fmin - (keep fmax str).length else 0) - 1
        else
          if limit fmin ≠ 0 then limit fmin - (keep fmax str).length else 0).toNat =
        padding sign fmin fmax str := by
      rw [hpadding]
      split_ifs at hsign ⊢ <;> omega
    rw [hleading]
  · rw [if_neg hany]
    dsimp only
    obtain ⟨hmax0, hmin0⟩ := not_or.mp hany
    have hkeep : keep fmax str = str := if_pos (not_not.mp hmax0)
    have hzero : padding sign fmin fmax str = 0 := by
      rw [hpadding]
      omega
    rw [hzero, hkeep, Int.toNat_natCast, List.take_length]
    rfl

theorem pad_blanks :
    pad leftjust (ch ' ') sign fmin fmax str =
      place leftjust (signText sign ++ keep fmax str)
        (padding sign fmin fmax str) := by
  have hfill : ch ' ' ≠ ch '0' := by decide
  rw [pad_eq]
  cases sign <;> cases leftjust <;> simp [place, signText, hfill]

theorem pad_zeros :
    pad leftjust (ch '0') sign fmin fmax str =
      signText sign ++
        (if leftjust then
          keep fmax str ++ List.replicate (padding sign fmin fmax str) (ch '0')
        else
          List.replicate (padding sign fmin fmax str) (ch '0') ++
            keep fmax str) := by
  have hfill : ch '0' ≠ ch ' ' := by decide
  rw [pad_eq]
  cases sign <;> cases leftjust <;> simp [signText, hfill]

end Pad

/-! ## Widths and precisions -/

section Amounts

variable (d : Directive)

theorem wrap_cases (n : Amount) :
    (n.val < 2 ^ 31 ∧ wrap n.val = n.val) ∨ 2 ^ 31 ≤ n.val := by
  have hleast := n.least
  by_cases hlt : n.val < 2 ^ 31
  · refine Or.inl ⟨hlt, ?_⟩
    unfold wrap
    rw [BitVec.toInt_ofInt]
    exact Int.bmod_eq_of_le (by norm_num; omega) (by norm_num; omega)
  · exact Or.inr (not_lt.mp hlt)

theorem limit_le (n : ℤ) : limit n ≤ 80 := by
  unfold limit MAXSTR
  split_ifs <;> omega

/-- The formatters take a width from 0 to `MAXSTR`. -/
theorem fieldWidth_cases :
    (0 ≤ d.width.val ∧ d.width.val ≤ MAXSTR ∧
        (d.fieldWidth : ℤ) = d.width.val) ∨
      (d.width.val < 0 ∧ d.fieldWidth = 0) ∨
      (MAXSTR < d.width.val ∧ (d.fieldWidth : ℤ) ≤ MAXSTR) := by
  have hmax : MAXSTR = 80 := rfl
  have hle := limit_le (wrap d.width.val)
  unfold Directive.fieldWidth
  rcases wrap_cases d.width with ⟨hlt, hwrap⟩ | hlarge
  · rw [hwrap] at hle ⊢
    unfold limit at hle ⊢
    split_ifs at hle ⊢ <;> omega
  · omega

/-- The padding is right exactly if there is room. -/
theorem room_iff (n : ℕ) :
    d.fieldWidth - n = d.width.val.natAbs - n ↔ d.Room n := by
  have hmax : MAXSTR = 80 := rfl
  have hcases := fieldWidth_cases d
  unfold Directive.Room
  omega

theorem keep_zero (str : List Byte) : keep 0 str = str := rfl

/-- What a precision leaves, for a number of any length. -/
theorem keep_precision (str : List Byte) :
    match d.precision with
    | none => d.kept str = str
    | some p =>
        (p = 0 → d.kept str = str) ∧
          ((p : ℤ) ≤ MAXSTR → 0 < p → d.kept str = str.take p) := by
  have hmax : MAXSTR = 80 := rfl
  unfold Directive.precision Directive.kept
  cases hprec : d.prec with
  | none => rfl
  | some p =>
    dsimp only [Option.elim]
    rcases wrap_cases p with ⟨hlt, hwrap⟩ | hlarge
    · rw [hwrap]
      split_ifs with hneg
      · have hlimit : limit p.val = 0 := if_pos (Or.inr hneg)
        exact if_pos hlimit
      · dsimp only
        constructor
        · intro hzero
          have hval : p.val = 0 := by omega
          have hlimit : limit p.val = 0 := by
            rw [hval]
            rfl
          exact if_pos hlimit
        · intro hle hpos
          have hlimit : limit p.val = p.val := if_neg (by omega)
          unfold keep
          rw [hlimit, if_neg (by omega)]
    · rw [if_neg (by omega)]
      dsimp only
      constructor
      · intro hzero
        omega
      · intro hle _
        omega

theorem length_kept_le (str : List Byte) : (d.kept str).length ≤ str.length := by
  unfold Directive.kept keep
  split_ifs
  · exact le_rfl
  · exact List.length_take_le' _ _

end Amounts

/-! ## Numbers -/

section Numbers

variable {d : Directive} {sign : Bool} {fmax : ℤ} {ds D : List Byte} {n : ℕ}

/-- Without the flag `0`: the digits are right, and so is the padding. -/
theorem blanks_iff
    (hsolid : Solid (keep fmax ds)) (hD : Solid D) (hne : keep fmax ds ≠ []) :
    pad d.leftjust (ch ' ') sign (wrap d.width.val) fmax ds =
        justify d.leftjust d.width.val (signText sign ++ D) ↔
      keep fmax ds = D ∧ d.Room (D.length + (signText sign).length) := by
  have hcases := fieldWidth_cases d
  have hfield : (limit (wrap d.width.val)).toNat = d.fieldWidth := rfl
  rw [pad_blanks, justify_eq_place, place_eq_iff
    (solid_append.mpr ⟨solid_signText sign, hsolid⟩)
    (solid_append.mpr ⟨solid_signText sign, hD⟩)
    (by simp [hne]), List.append_cancel_left_eq, and_congr_right_iff]
  rintro rfl
  rw [padding, hfield, ← room_iff, List.length_append, Nat.add_comm]
  refine and_iff_left_of_imp fun hroom => ?_
  by_cases hneg : d.width.val < 0
  · left
    omega
  · right
    simp [hneg]

/-- With the flag `0`, where the standard has blanks. -/
theorem zeros_iff
    (hsolid : Solid (keep fmax ds)) (hD : Solid D) (hne : keep fmax ds ≠ []) :
    pad d.leftjust (ch '0') sign (wrap d.width.val) fmax ds =
        justify d.leftjust d.width.val (signText sign ++ D) ↔
      (if d.leftjust then
          keep fmax ds ++ List.replicate
            (d.fieldWidth - ((signText sign).length + (keep fmax ds).length))
            (ch '0')
        else
          List.replicate
            (d.fieldWidth - ((signText sign).length + (keep fmax ds).length))
            (ch '0') ++ keep fmax ds) = D ∧
        d.width.val.natAbs ≤ (signText sign).length + D.length := by
  have hpadding : padding sign (wrap d.width.val) fmax ds =
      d.fieldWidth - ((signText sign).length + (keep fmax ds).length) := by
    rw [padding, List.length_append]
    rfl
  have hplace : ∀ x : List Byte, x = place true x 0 := fun x =>
    (place_zero true x).symm
  rw [pad_zeros, justify_eq_place, hpadding]
  generalize hX : (if d.leftjust = true then _ else _) = X
  have hsolidX : Solid X := by
    rw [← hX]
    split_ifs
    · exact solid_append.mpr ⟨hsolid, solid_zeros _⟩
    · exact solid_append.mpr ⟨solid_zeros _, hsolid⟩
  have hneX : X ≠ [] := by
    rw [← hX]
    split_ifs <;> simp [hne]
  rw [hplace (signText sign ++ X), place_eq_iff
    (solid_append.mpr ⟨solid_signText sign, hsolidX⟩)
    (solid_append.mpr ⟨solid_signText sign, hD⟩)
    (by simp [hneX]), List.append_cancel_left_eq, List.length_append]
  constructor
  · rintro ⟨heq, hzero, -⟩
    exact ⟨heq, by omega⟩
  · rintro ⟨heq, hwide⟩
    exact ⟨heq, by omega, Or.inl rfl⟩

/-- With the flag `0`, digits that nothing cuts and the standard has as they are. -/
theorem zeros_same_iff
    (hsolid : Solid ds) (hne : ds ≠ []) (hkeep : keep fmax ds = ds) :
    pad d.leftjust (ch '0') sign (wrap d.width.val) fmax ds =
        justify d.leftjust d.width.val (signText sign ++ ds) ↔
      d.width.val.natAbs ≤ ds.length + (signText sign).length := by
  have hcases := fieldWidth_cases d
  rw [zeros_iff (by rwa [hkeep]) hsolid (by rwa [hkeep]), hkeep,
    Nat.add_comm ds.length]
  constructor
  · intro h
    exact h.2
  · intro hwide
    have hnone : d.fieldWidth - ((signText sign).length + ds.length) = 0 := by
      omega
    rw [hnone]
    refine ⟨?_, hwide⟩
    split_ifs
    · exact List.append_nil ds
    · exact List.nil_append ds

/-- What is used of the numeral of a number. -/
structure NumberText (ds : List Byte) (n : ℕ) : Prop where
  solid : Solid ds
  ne_nil : ds ≠ []
  head : n ≠ 0 → ∀ l, ds ≠ ch '0' :: l
  zero : n = 0 → ds = [ch '0']

theorem numberText_numeral
    {b : ℕ} {digit : ℕ → Byte} (hb : 1 < b) (hbase : b ≤ 16)
    (hzero : digit 0 = ch '0') (hdigit : ∀ d < 16, digit d = digit 0 → d = 0)
    (hsolid : ∀ d < 16, digit d ≠ ch ' ') (n : ℕ) :
    NumberText (numeral b digit n) n := by
  by_cases hn : n = 0
  · subst hn
    have hnumeral : numeral b digit 0 = [ch '0'] := by
      rw [← hzero]
      exact if_pos rfl
    rw [hnumeral]
    refine ⟨?_, List.cons_ne_nil _ _, fun h => absurd rfl h, fun _ => rfl⟩
    intro c hc
    rw [List.mem_singleton.mp hc]
    decide
  · have hnumeral : numeral b digit n = (Nat.digits b n).reverse.map digit :=
      if_neg hn
    rw [hnumeral]
    refine ⟨?_, ?_, ?_, fun h => absurd h hn⟩
    · intro c hc
      obtain ⟨e, he, rfl⟩ := List.mem_map.mp hc
      have hlt := Nat.digits_lt_base hb (List.mem_reverse.mp he)
      exact hsolid e (by omega)
    · rw [ne_eq, List.map_eq_nil_iff, List.reverse_eq_nil_iff,
        Nat.digits_eq_nil_iff_eq_zero]
      exact hn
    · intro _ l hl
      cases hds : (Nat.digits b n).reverse with
      | nil =>
        rw [hds] at hl
        cases hl
      | cons e es =>
        rw [hds, List.map_cons] at hl
        have hlast := Nat.getLast_digit_ne_zero b hn
        have he : e ∈ Nat.digits b n := by
          rw [← List.mem_reverse, hds]
          exact List.mem_cons_self
        have hlt := Nat.digits_lt_base hb he
        have hezero : e = 0 := by
          apply hdigit e (by omega)
          rw [hzero]
          exact (List.cons.inj hl).1
        have hrev : Nat.digits b n = es.reverse ++ [e] := by
          rw [← List.reverse_reverse (Nat.digits b n), hds, List.reverse_cons]
        simp only [hrev, List.getLast_append_singleton] at hlast
        exact hlast hezero

variable {b : ℕ} {digit : ℕ → Byte} {cuts : Bool}

theorem length_signText (sign : Bool) :
    (signText sign).length = if sign then 1 else 0 := by
  cases sign <;> rfl

theorem number_iff_none
    (htext : NumberText (numeral b digit n) n) (hp : d.precision = none)
    (hkeep : keep fmax (numeral b digit n) = numeral b digit n) :
    pad d.leftjust (if d.zero then ch '0' else ch ' ') sign (wrap d.width.val) fmax
        (numeral b digit n) = d.number sign b digit n ↔
      d.PlainNumber cuts (signText sign).length n (numeral b digit n) := by
  have hcases := fieldWidth_cases d
  unfold Directive.number Directive.PlainNumber
  simp only [hp]
  generalize numeral b digit n = ds at *
  have hsgn : (if sign = true then [ch '-'] else []) = signText sign := rfl
  have hsolid : Solid (keep fmax ds) := by
    rw [hkeep]
    exact htext.solid
  have hne : keep fmax ds ≠ [] := by
    rw [hkeep]
    exact htext.ne_nil
  rw [hsgn]
  by_cases hz : d.zero = true
  · by_cases hside : d.leftjust = true ∨ d.width.val < 0
    · rw [if_pos hz, if_neg (fun h => h.2.1 hside),
        zeros_same_iff htext.solid htext.ne_nil hkeep]
      have hroom := room_iff d (ds.length + (signText sign).length)
      constructor
      · intro hwide
        exact ⟨Or.inl (by omega), fun _ => Or.inl hwide⟩
      · rintro ⟨hroom, hzeros⟩
        rcases hzeros hz with hwide | hright
        · exact hwide
        · have hneg := hside.resolve_left (by simp [hright])
          unfold Directive.Room at hroom
          omega
    · have hl : ¬ d.leftjust = true := fun h => hside (Or.inl h)
      rw [if_pos hz, if_pos ⟨hz, hside, trivial⟩, pad_zeros, hkeep, if_neg hl,
        List.append_assoc, List.append_cancel_left_eq, List.append_cancel_right_eq]
      have hroom := room_iff d (ds.length + (signText sign).length)
      have hpadding : padding sign (wrap d.width.val) fmax ds =
          d.fieldWidth - (ds.length + (signText sign).length) := by
        rw [padding, hkeep, List.length_append, Nat.add_comm]
        rfl
      rw [List.replicate_inj, hpadding, List.length_append,
        Nat.add_comm (signText sign).length, hroom]
      constructor
      · rintro ⟨h, -⟩
        exact ⟨h, fun _ => Or.inr (by simpa using hl)⟩
      · rintro ⟨h, -⟩
        exact ⟨h, Or.inr rfl⟩
  · rw [if_neg hz, if_neg (fun h => hz h.1), blanks_iff hsolid htext.solid hne]
    constructor
    · rintro ⟨-, hroom⟩
      exact ⟨hroom, fun h => absurd h hz⟩
    · rintro ⟨hroom, -⟩
      exact ⟨hkeep, hroom⟩

/-- The digits that a precision asks for. -/
def preciseDigits (p n : ℕ) (ds : List Byte) : List Byte :=
  if p = 0 ∧ n = 0 then [] else List.replicate (p - ds.length) (ch '0') ++ ds

theorem number_some {p : ℕ} (hp : d.precision = some p) :
    d.number sign b digit n =
      justify d.leftjust d.width.val
        (signText sign ++ preciseDigits p n (numeral b digit n)) := by
  unfold Directive.number preciseDigits
  simp only [hp]
  rw [if_neg (by simp)]
  rfl

theorem solid_preciseDigits {p : ℕ} (hsolid : Solid ds) :
    Solid (preciseDigits p n ds) := by
  unfold preciseDigits
  split_ifs
  · intro c hc
    cases hc
  · exact solid_append.mpr ⟨solid_zeros _, hsolid⟩

/-- Fewer digits than the precision asks for. -/
theorem number_iff_short
    {p : ℕ} (htext : NumberText ds n) (hshort : ds.length < p)
    (hkept : (keep fmax ds).length ≤ ds.length)
    (hkeep : (p : ℤ) ≤ MAXSTR → keep fmax ds = ds)
    (hne : keep fmax ds ≠ []) (hsolid : Solid (keep fmax ds)) :
    pad d.leftjust (if d.zero then ch '0' else ch ' ') sign (wrap d.width.val) fmax
        ds = justify d.leftjust d.width.val
          (signText sign ++ preciseDigits p n ds) ↔
      d.zero = true ∧ (d.leftjust = true → n = 0) ∧
        d.width.val = p + (signText sign).length ∧ d.width.val ≤ MAXSTR := by
  have hmax : MAXSTR = 80 := rfl
  have hcases := fieldWidth_cases d
  have hD : preciseDigits p n ds =
      List.replicate (p - ds.length) (ch '0') ++ ds :=
    if_neg (by omega)
  have hlength : (preciseDigits p n ds).length = p := by
    rw [hD, List.length_append, List.length_replicate]
    omega
  have hsolidD : Solid (preciseDigits p n ds) := solid_preciseDigits htext.solid
  by_cases hz : d.zero = true
  · rw [if_pos hz, zeros_iff hsolid hsolidD hne, hlength]
    constructor
    · rintro ⟨heq, hwide⟩
      have hsum := congrArg List.length heq
      rw [hlength] at hsum
      have hfield : d.fieldWidth = p + (signText sign).length := by
        split_ifs at hsum <;>
          rw [List.length_append, List.length_replicate] at hsum <;> omega
      refine ⟨hz, fun hl => ?_, by omega, by omega⟩
      by_contra hn
      obtain ⟨j, hj⟩ := Nat.exists_eq_succ_of_ne_zero
        (show p - ds.length ≠ 0 by omega)
      rw [if_pos hl, hkeep (by omega), hD, hj, List.replicate_succ] at heq
      obtain ⟨c, l, hds⟩ := List.exists_cons_of_ne_nil htext.ne_nil
      rw [hds, List.cons_append, List.cons_append] at heq
      exact htext.head hn l (by rw [hds, (List.cons.inj heq).1])
    · rintro ⟨-, hl, hw, hle⟩
      have hk : d.fieldWidth - ((signText sign).length + ds.length) =
          p - ds.length := by omega
      refine ⟨?_, by omega⟩
      rw [hkeep (by omega), hk, hD]
      split_ifs with hleft
      · rw [htext.zero (hl hleft)]
        show List.replicate 1 (ch '0') ++ _ = _ ++ List.replicate 1 (ch '0')
        rw [List.replicate_append_replicate, List.replicate_append_replicate,
          Nat.add_comm]
      · rfl
  · rw [if_neg hz, blanks_iff hsolid hsolidD hne]
    constructor
    · rintro ⟨heq, -⟩
      have := congrArg List.length heq
      omega
    · rintro ⟨h, -⟩
      exact absurd h hz

theorem number_iff_cut
    {p : ℕ} (htext : NumberText ds n) (hpos : 0 < p) (hcut : p < ds.length)
    (hkeep : keep fmax ds = ds.take p) :
    pad d.leftjust (if d.zero then ch '0' else ch ' ') sign (wrap d.width.val) fmax
        ds = justify d.leftjust d.width.val
          (signText sign ++ preciseDigits p n ds) ↔
      d.zero = true ∧ d.leftjust = true ∧
        d.width.val = ds.length + (signText sign).length ∧
          d.width.val ≤ MAXSTR ∧ ∀ c ∈ ds.drop p, c = ch '0' := by
  have hmax : MAXSTR = 80 := rfl
  have hcases := fieldWidth_cases d
  have hnone : p - ds.length = 0 := by omega
  have hD : preciseDigits p n ds = ds := by
    unfold preciseDigits
    rw [if_neg (by omega), hnone]
    rfl
  have hlength : (keep fmax ds).length = p := by
    rw [hkeep, List.length_take]
    omega
  have hsolid : Solid (keep fmax ds) := by
    rw [hkeep]
    exact fun c hc => htext.solid c (List.mem_of_mem_take hc)
  have hne : keep fmax ds ≠ [] := by
    intro hnil
    rw [hnil, List.length_nil] at hlength
    omega
  by_cases hz : d.zero = true
  · rw [if_pos hz, hD, zeros_iff hsolid htext.solid hne, hlength, hkeep]
    by_cases hl : d.leftjust = true
    · rw [if_pos hl]
      have hsplit : ds.take p ++ List.replicate
            (d.fieldWidth - ((signText sign).length + p)) (ch '0') = ds ↔
          List.replicate (d.fieldWidth - ((signText sign).length + p)) (ch '0') =
            ds.drop p := by
        conv_lhs => rhs; rw [← List.take_append_drop p ds]
        rw [List.append_cancel_left_eq]
      rw [hsplit]
      constructor
      · rintro ⟨heq, hwide⟩
        have hsum := congrArg List.length heq
        rw [List.length_replicate, List.length_drop] at hsum
        refine ⟨hz, hl, by omega, by omega, ?_⟩
        rw [← heq]
        exact fun c hc => List.eq_of_mem_replicate hc
      · rintro ⟨-, -, hw, hle, hzeros⟩
        refine ⟨?_, by omega⟩
        have hk : d.fieldWidth - ((signText sign).length + p) =
            (ds.drop p).length := by
          rw [List.length_drop]
          omega
        rw [hk]
        exact (List.eq_replicate_of_mem hzeros).symm
    · rw [if_neg hl]
      constructor
      · rintro ⟨heq, -⟩
        have hsum := congrArg List.length heq
        rw [List.length_append, List.length_replicate, List.length_take] at hsum
        obtain ⟨j, hj⟩ := Nat.exists_eq_succ_of_ne_zero
          (show d.fieldWidth - ((signText sign).length + p) ≠ 0 by omega)
        rw [hj, List.replicate_succ, List.cons_append] at heq
        by_cases hn : n = 0
        · rw [htext.zero hn, List.length_singleton] at hcut
          omega
        · exact absurd heq.symm (htext.head hn _)
      · rintro ⟨-, hleft, -⟩
        exact absurd hleft hl
  · rw [if_neg hz, hD, blanks_iff hsolid htext.solid hne]
    constructor
    · rintro ⟨heq, -⟩
      have := congrArg List.length heq
      omega
    · rintro ⟨h, -⟩
      exact absurd h hz

/-- A number with enough digits, which the precision does not cut. -/
theorem number_iff_enough
    {p : ℕ} (htext : NumberText ds n) (henough : p ≤ ds.length)
    (hkeep : keep fmax ds = ds) :
    pad d.leftjust (if d.zero then ch '0' else ch ' ') sign (wrap d.width.val) fmax
        ds = justify d.leftjust d.width.val
          (signText sign ++ preciseDigits p n ds) ↔
      (p = 0 → n ≠ 0) ∧ d.Room (ds.length + (signText sign).length) ∧
        (d.zero = true → d.width.val.natAbs ≤ ds.length + (signText sign).length) := by
  have hcases := fieldWidth_cases d
  have hsolid : Solid (keep fmax ds) := by
    rw [hkeep]
    exact htext.solid
  have hne : keep fmax ds ≠ [] := by
    rw [hkeep]
    exact htext.ne_nil
  have hsolidD : Solid (preciseDigits p n ds) := solid_preciseDigits htext.solid
  by_cases hnothing : p = 0 ∧ n = 0
  · have hD : preciseDigits p n ds = [] := if_pos hnothing
    have hlength : 0 < ds.length := List.length_pos_of_ne_nil htext.ne_nil
    refine iff_of_false ?_ fun h => h.1 hnothing.1 hnothing.2
    rw [hD] at hsolidD ⊢
    by_cases hz : d.zero = true
    · rw [if_pos hz, zeros_iff hsolid hsolidD hne, hkeep]
      rintro ⟨heq, -⟩
      have := congrArg List.length heq
      split_ifs at this <;> rw [List.length_append] at this <;>
        simp only [List.length_nil] at this <;> omega
    · rw [if_neg hz, blanks_iff hsolid hsolidD hne, hkeep]
      rintro ⟨heq, -⟩
      exact htext.ne_nil heq
  · have hnone : p - ds.length = 0 := by omega
    have hD : preciseDigits p n ds = ds := by
      unfold preciseDigits
      rw [if_neg hnothing, hnone]
      rfl
    have hpn : p = 0 → n ≠ 0 := fun hp hn => hnothing ⟨hp, hn⟩
    rw [hD]
    by_cases hz : d.zero = true
    · rw [if_pos hz, zeros_same_iff htext.solid htext.ne_nil hkeep]
      constructor
      · intro hwide
        exact ⟨hpn, Or.inl (by omega), fun _ => hwide⟩
      · rintro ⟨-, -, hzeros⟩
        exact hzeros hz
    · rw [if_neg hz, blanks_iff hsolid htext.solid hne]
      constructor
      · rintro ⟨-, hroom⟩
        exact ⟨hpn, hroom, fun h => absurd h hz⟩
      · rintro ⟨-, hroom, -⟩
        exact ⟨hkeep, hroom⟩

theorem solid_kept (hsolid : Solid ds) : Solid (d.kept ds) := by
  unfold Directive.kept keep
  split_ifs
  · exact hsolid
  · exact fun c hc => hsolid c (List.mem_of_mem_take hc)

theorem kept_ne_nil (hne : ds ≠ []) : d.kept ds ≠ [] := by
  have hnonneg := limit_nonneg (wrap (d.prec.elim 0 Amount.val))
  unfold Directive.kept keep
  split_ifs with hzero
  · exact hne
  · rw [ne_eq, List.take_eq_nil_iff, not_or]
    exact ⟨by omega, hne⟩

/-- A number is emitted right exactly if its options are plain. -/
theorem number_iff
    (htext : NumberText (numeral b digit n) n)
    (hlength : cuts = true → (numeral b digit n).length ≤ 10)
    (hkeep : keep fmax (numeral b digit n) =
      if cuts then d.kept (numeral b digit n) else numeral b digit n) :
    pad d.leftjust (if d.zero then ch '0' else ch ' ') sign (wrap d.width.val) fmax
        (numeral b digit n) = d.number sign b digit n ↔
      d.PlainNumber cuts (signText sign).length n (numeral b digit n) := by
  have hmax : MAXSTR = 80 := rfl
  have hprec := keep_precision d (numeral b digit n)
  cases hp : d.precision with
  | none =>
    rw [hp] at hprec
    refine number_iff_none htext hp ?_
    rw [hkeep, hprec, ite_self]
  | some p =>
    rw [hp] at hprec
    obtain ⟨hzero, htake⟩ := hprec
    rw [number_some hp]
    unfold Directive.PlainNumber
    simp only [hp]
    generalize numeral b digit n = ds at *
    by_cases hshort : ds.length < p
    · rw [if_pos hshort]
      refine number_iff_short htext hshort ?_ ?_ ?_ ?_
      · rw [hkeep]
        split_ifs
        · exact length_kept_le d ds
        · exact le_rfl
      · intro hle
        rw [hkeep]
        split_ifs
        · rw [htake hle (by omega), List.take_of_length_le (by omega)]
        · rfl
      · rw [hkeep]
        split_ifs
        · exact kept_ne_nil htext.ne_nil
        · exact htext.ne_nil
      · rw [hkeep]
        split_ifs
        · exact solid_kept htext.solid
        · exact htext.solid
    · rw [if_neg hshort]
      by_cases hcut : cuts = true ∧ 0 < p ∧ p < ds.length
      · have ⟨hcuts, hpos, hlt⟩ := hcut
        have hten := hlength hcuts
        have htaken : keep fmax ds = ds.take p := by
          rw [hkeep, if_pos hcuts, htake (by omega) hpos]
        rw [number_iff_cut htext hpos hlt htaken, if_pos hcut]
        have hsgn : (signText sign).length ≤ 1 := by
          cases sign <;> decide
        constructor
        · rintro ⟨hz, hl, hw, -, hzeros⟩
          exact ⟨hz, hl, hw, hzeros⟩
        · rintro ⟨hz, hl, hw, hzeros⟩
          exact ⟨hz, hl, hw, by omega, hzeros⟩
      · rw [if_neg hcut]
        refine number_iff_enough htext (by omega) ?_
        rw [hkeep]
        split_ifs with hcuts
        · by_cases hp0 : p = 0
          · exact hzero hp0
          · have heq : p = ds.length := by
              have : ¬ (0 < p ∧ p < ds.length) := fun h => hcut ⟨hcuts, h⟩
              omega
            have hten := hlength hcuts
            rw [htake (by omega) (by omega), heq, List.take_length]
        · rfl

end Numbers

/-! ## Texts -/

section Texts

variable {d : Directive}

theorem blank_append {x y : List Byte} : Blank (x ++ y) ↔ Blank x ∧ Blank y :=
  List.forall_mem_append

theorem blank_replicate (k : ℕ) : Blank (List.replicate k (ch ' ')) :=
  fun _ hc => List.eq_of_mem_replicate hc

theorem blank_iff {x : List Byte} :
    Blank x ↔ x = List.replicate x.length (ch ' ') :=
  ⟨List.eq_replicate_of_mem, fun h => h ▸ blank_replicate _⟩

/-- A text that is shifted by blanks is blank. -/
theorem blank_of_shift {x r : List Byte} {j : ℕ} (hj : 0 < j)
    (h : x ++ r = List.replicate j (ch ' ') ++ x) : Blank x := by
  by_contra hx
  have hall : ¬ ∀ c ∈ x, decide (c = ch ' ') = true := by
    simpa [Blank] using hx
  have hleft : ((x ++ r).takeWhile (· = ch ' ')).length =
      (x.takeWhile (· = ch ' ')).length := by
    rw [List.takeWhile_append, if_neg]
    intro hlength
    apply hall
    have hself : x.takeWhile (· = ch ' ') = x :=
      (List.takeWhile_prefix _).eq_of_length hlength
    exact List.takeWhile_eq_self_iff.mp hself
  have hright : ((List.replicate j (ch ' ') ++ x).takeWhile (· = ch ' ')).length =
      j + (x.takeWhile (· = ch ' ')).length := by
    rw [List.takeWhile_append_of_pos (fun c hc => by
      simpa using List.eq_of_mem_replicate hc), List.length_append,
      List.length_replicate]
  rw [h] at hleft
  omega

theorem append_blanks_iff {r : List Byte} {a m : ℕ} :
    r ++ List.replicate a (ch ' ') = List.replicate m (ch ' ') ↔
      r.length + a = m ∧ Blank r := by
  constructor
  · intro h
    have hlength := congrArg List.length h
    rw [List.length_append, List.length_replicate, List.length_replicate] at hlength
    have hblank : Blank (r ++ List.replicate a (ch ' ')) := by
      rw [h]
      exact blank_replicate m
    exact ⟨hlength, (blank_append.mp hblank).1⟩
  · rintro ⟨rfl, hblank⟩
    rw [blank_iff.mp hblank, List.length_replicate,
      List.replicate_append_replicate]

/-- Two texts, one of which continues the other, with blanks on the right. -/
theorem blanks_right_iff {y r : List Byte} {a m : ℕ} :
    (y ++ r) ++ List.replicate a (ch ' ') = y ++ List.replicate m (ch ' ') ↔
      (y ++ r).length + a = y.length + m ∧ Blank r := by
  rw [List.append_assoc, List.append_cancel_left_eq, append_blanks_iff,
    List.length_append]
  refine and_congr_left fun _ => ?_
  omega

theorem blanks_left_iff {y r : List Byte} {a m : ℕ} :
    List.replicate a (ch ' ') ++ (y ++ r) = List.replicate m (ch ' ') ++ y ↔
      (y ++ r).length + a = y.length + m ∧
        (y ++ r = y ∨ (Blank (y ++ r) ∧ Blank y)) := by
  constructor
  · intro h
    have hlength := congrArg List.length h
    simp only [List.length_append, List.length_replicate] at hlength
    refine ⟨by rw [List.length_append]; omega, ?_⟩
    by_cases hr : r = []
    · left
      rw [hr, List.append_nil]
    · have hpos : 0 < r.length := List.length_pos_of_ne_nil hr
      have hm : m = a + r.length := by omega
      rw [hm, ← List.replicate_append_replicate, List.append_assoc,
        List.append_cancel_left_eq] at h
      have hy := blank_of_shift hpos h
      right
      refine ⟨?_, hy⟩
      rw [h]
      exact blank_append.mpr ⟨blank_replicate _, hy⟩
  · rintro ⟨hlength, hsame | ⟨hlong, hy⟩⟩
    · rw [hsame] at hlength ⊢
      rw [show a = m by omega]
    · have hright : List.replicate m (ch ' ') ++ y =
          List.replicate (m + y.length) (ch ' ') := by
        rw [← List.replicate_append_replicate, ← blank_iff.mp hy]
      have hleft : List.replicate a (ch ' ') ++ (y ++ r) =
          List.replicate (a + (y ++ r).length) (ch ' ') := by
        rw [← List.replicate_append_replicate, ← blank_iff.mp hlong]
      rw [hleft, hright]
      congr 1
      omega

theorem sum_eq_max {x : List Byte} {k : ℕ} :
    x.length + (k - x.length) = max x.length k := by
  omega

/-- A text is emitted right exactly if its options are plain. -/
theorem text_iff (d : Directive) (str : List Byte) :
    pad d.leftjust (ch ' ') false (wrap d.width.val)
        (wrap (d.prec.elim 0 Amount.val)) str =
      justify d.leftjust d.width.val (d.text str) ↔ d.PlainText str := by
  have hcases := fieldWidth_cases d
  have hpadding : padding false (wrap d.width.val)
      (wrap (d.prec.elim 0 Amount.val)) str =
        d.fieldWidth - (d.kept str).length :=
    rfl
  have hkept : signText false ++ keep (wrap (d.prec.elim 0 Amount.val)) str =
      d.kept str :=
    rfl
  have hprefix : d.kept str <+: str := by
    unfold Directive.kept keep
    split_ifs
    · exact List.prefix_rfl
    · exact List.take_prefix _ _
  have hprefix' : d.text str <+: str := by
    unfold Directive.text
    split
    · exact List.prefix_rfl
    · exact List.take_prefix _ _
  unfold Directive.PlainText
  dsimp only
  rw [pad_blanks, justify_eq_place, hkept, hpadding]
  generalize d.text str = text at *
  generalize d.kept str = kept at *
  have hsplit : (∃ r, kept = text ++ r) ∨ ∃ r, text = kept ++ r := by
    rcases Nat.le_total text.length kept.length with hle | hle
    · obtain ⟨r, hr⟩ := List.prefix_of_prefix_length_le hprefix' hprefix hle
      exact Or.inl ⟨r, hr.symm⟩
    · obtain ⟨r, hr⟩ := List.prefix_of_prefix_length_le hprefix hprefix' hle
      exact Or.inr ⟨r, hr.symm⟩
  rw [← sum_eq_max, ← sum_eq_max]
  by_cases hside : d.leftjust = true ∨ d.width.val < 0
  · have hleft : place d.leftjust kept (d.fieldWidth - kept.length) =
        kept ++ List.replicate (d.fieldWidth - kept.length) (ch ' ') := by
      by_cases hl : d.leftjust = true
      · rw [hl]
        rfl
      · have hnone : d.fieldWidth - kept.length = 0 := by
          have := hside.resolve_left hl
          omega
        rw [hnone, place_zero]
        exact (List.append_nil kept).symm
    rw [if_pos hside, hleft, decide_eq_true hside]
    show _ = text ++ _ ↔ _
    rcases hsplit with ⟨r, rfl⟩ | ⟨r, rfl⟩
    · rw [blanks_right_iff, List.drop_left]
      refine and_congr_right fun _ => (and_iff_left ?_).symm
      rw [List.drop_eq_nil_of_le (by simp)]
      exact fun c hc => absurd hc List.not_mem_nil
    · rw [eq_comm, blanks_right_iff, List.drop_left, eq_comm]
      refine and_congr_right fun _ => (and_iff_right ?_).symm
      rw [List.drop_eq_nil_of_le (by simp)]
      exact fun c hc => absurd hc List.not_mem_nil
  · have hl : d.leftjust = false := by
      simpa using fun h => hside (Or.inl h)
    rw [if_neg hside, hl, decide_eq_false (by simpa [hl] using hside)]
    show List.replicate _ _ ++ kept = List.replicate _ _ ++ text ↔ _
    rcases hsplit with ⟨r, rfl⟩ | ⟨r, rfl⟩
    · exact blanks_left_iff
    · rw [eq_comm, blanks_left_iff, eq_comm, eq_comm (a := kept),
        and_comm (a := Blank kept)]

end Texts

end Xinu.FormattedOutput
