import Xinu.FormatterLaw

/-!
# The agreement of the formatters

A call of a formatter runs over its steps with the conversion buffer, which is
either untouched or has a text in it.  Up to the first hazard both formatters do
the same, and each step is right exactly if its options are plain.
-/

namespace Xinu.FormattedOutput

open ByteMemory Numerals

/-! ## One directive -/

def doEmit : Directive → Cells → Emitted := emit doPrtl10 doPrtl10

def fdEmit : Directive → Cells → Emitted :=
  emit (fun w => fdPrtl10 (if w.toInt < 0 then -w else w)) fdPrtl10

/-- The state of the buffer: untouched at its start, or with a text. -/
def Inv (ready : Bool) (cells : Cells) : Prop :=
  if ready then (cells.text stringSize 0).2 = true else cells 0 = none

section Directives

variable {d : Directive} {cells : Cells} {ready : Bool}

theorem text_initialised
    {k n i : ℕ} (hnul : cells k = some 0) (hset : ∀ j < k, cells j ≠ none)
    (hi : i ≤ k) (hk : k < i + n) : (cells.text n i).2 = true := by
  induction n generalizing i with
  | zero => omega
  | succ n ih =>
    rw [Cells.text]
    cases hc : cells i with
    | none =>
      by_cases hik : i = k
      · rw [hik, hnul] at hc
        cases hc
      · exact absurd hc (hset i (by omega))
    | some c =>
      dsimp only
      split_ifs with hzero
      · rfl
      · have hne : i ≠ k := by
          rintro rfl
          rw [hnul] at hc
          exact hzero (Option.some.inj hc).symm
        exact ih (by omega) (by omega)

theorem inv_write {text : List Byte} (hlength : text.length < stringSize) :
    Inv true (cells.write text) := by
  refine text_initialised ?_ ?_ (Nat.zero_le text.length) (by omega)
  · unfold Cells.write
    rw [if_neg (lt_irrefl _), if_pos rfl]
  · intro j hj
    unfold Cells.write
    rw [if_pos hj, List.getElem?_eq_getElem hj]
    exact Option.some_ne_none _

theorem inv_set (c : Byte) : Inv true ((cells.set 0 c).set 1 0) := by
  refine @text_initialised _ 1 stringSize 0 ?_ ?_ (by omega) (by decide)
  · unfold Cells.set
    rw [Function.update_self]
  · intro j hj
    have hzero : j = 0 := by omega
    subst hzero
    have hother : ((cells.set 0 c).set 1 0) 0 = some c := by
      unfold Cells.set
      rw [Function.update_of_ne (by decide), Function.update_self]
    rw [hother]
    exact Option.some_ne_none _

theorem toNat_of_nonneg {w : Word} (hw : 0 ≤ w.toInt) : w.toInt.natAbs = w.toNat := by
  have := w.isLt
  rw [BitVec.toInt_eq_toNat_cond] at hw ⊢
  split_ifs at hw ⊢ <;> omega

theorem doUnsigned_eq (w : Word) :
    unsignedText doPrtl10 w = numeral 10 digitChar w.toNat := by
  apply unsignedText_eq
  intro v hv
  rw [doPrtl10_eq, toNat_of_nonneg hv]

theorem fdUnsigned_eq (w : Word) :
    unsignedText fdPrtl10 w = numeral 10 digitChar w.toNat :=
  unsignedText_eq w fdPrtl10_eq

/-- `_fdoprnt` negates every negative number but the least one. -/
theorem fdDecimal_eq (w : Word) (hw : w ≠ 0x80000000) :
    fdPrtl10 (if w.toInt < 0 then -w else w) =
      numeral 10 digitChar w.toInt.natAbs := by
  by_cases hneg : w.toInt < 0
  · have hlarge := (toInt_neg_iff w).mp hneg
    have hlt := w.isLt
    have hne : w.toNat ≠ 2 ^ 31 := fun h => hw (BitVec.eq_of_toNat_eq h)
    have hminus : (-w).toNat = 2 ^ 32 - w.toNat := by
      rw [BitVec.toNat_neg]
      omega
    have hnonneg : ¬ (-w).toInt < 0 := by
      rw [toInt_neg_iff]
      omega
    have habs : w.toInt.natAbs = 2 ^ 32 - w.toNat := by
      rw [BitVec.toInt_eq_toNat_cond, if_neg (by omega)]
      omega
    rw [if_pos hneg, fdPrtl10_eq _ (not_lt.mp hnonneg), hminus, habs]
  · rw [if_neg hneg, fdPrtl10_eq w (not_lt.mp hneg), toNat_of_nonneg (not_lt.mp hneg)]

theorem length_decimal (w : Word) :
    (numeral 10 digitChar w.toInt.natAbs).length ≤ 10 :=
  length_numeral_le (by norm_num) (by norm_num) (natAbs_lt w)

theorem length_unsigned {b : ℕ} {digit : ℕ → Byte} (k : ℕ) (w : Word)
    (hb : 1 < b) (hk : 0 < k) (hw : 2 ^ 32 ≤ b ^ k) :
    (numeral b digit w.toNat).length ≤ k :=
  length_numeral_le hb hk (lt_of_lt_of_le w.isLt hw)

/-- `%b` fits in the buffer up to 19 digits. -/
theorem length_binary_lt (w : Word) :
    (prtl2 w).length < stringSize ↔ w.toNat < 2 ^ 19 := by
  have hsize : stringSize = 20 := rfl
  rw [prtl2_eq, hsize]
  unfold numeral
  split_ifs with hzero
  · rw [hzero]
    decide
  · rw [List.length_map, List.length_reverse, Nat.lt_succ_iff,
      Nat.digits_length_le_iff (by norm_num)]

/-- Without a hazard both formatters do the same, safely, and leave the buffer
as expected. -/
theorem emit_hazardFree (hinv : Inv ready cells) (hfree : d.HazardFree ready) :
    doEmit d cells = fdEmit d cells ∧ (doEmit d cells).safe = true ∧
      Inv (d.readyAfter ready) (doEmit d cells).cells := by
  have hsize : stringSize = 20 := rfl
  obtain ⟨leftjust, zero, width, prec, datum⟩ := d
  unfold doEmit fdEmit emit
  cases datum with
  | c w => exact ⟨rfl, rfl, inv_set _⟩
  | s str => exact ⟨rfl, rfl, hinv⟩
  | d w =>
    have hlength := length_decimal w
    dsimp only
    rw [doPrtl10_eq, fdDecimal_eq w hfree]
    exact ⟨rfl, decide_eq_true (by omega), inv_write (by omega)⟩
  | u w =>
    have hlength := @length_unsigned 10 digitChar 10 w (by omega) (by omega)
      (by norm_num)
    dsimp only
    rw [doUnsigned_eq, fdUnsigned_eq]
    exact ⟨rfl, decide_eq_true (by omega), inv_write (by omega)⟩
  | o w =>
    have hlength := @length_unsigned 8 digitChar 11 w (by omega) (by omega)
      (by norm_num)
    dsimp only
    rw [prtl8_eq]
    exact ⟨rfl, decide_eq_true (by omega), inv_write (by omega)⟩
  | X w =>
    have hlength := @length_unsigned 16 upperChar 8 w (by omega) (by omega)
      (by norm_num)
    dsimp only
    rw [prtX16_eq]
    exact ⟨rfl, decide_eq_true (by omega), inv_write (by omega)⟩
  | x w =>
    have hlength := @length_unsigned 16 digitChar 8 w (by omega) (by omega)
      (by norm_num)
    dsimp only
    rw [prtl16_eq]
    exact ⟨rfl, decide_eq_true (by omega), inv_write (by omega)⟩
  | b w =>
    have hlength := (length_binary_lt w).mpr hfree
    dsimp only
    exact ⟨rfl, decide_eq_true hlength, inv_write hlength⟩
  | other f =>
    have hready : ready = true := hfree
    subst hready
    exact ⟨rfl, hinv, hinv⟩

/-! ## Hazards -/

theorem head_keep (fmax : ℤ) (c : Byte) (l : List Byte) :
    (keep fmax (c :: l)).head? = some c := by
  have hnonneg := limit_nonneg fmax
  unfold keep
  split_ifs with hzero
  · rfl
  · obtain ⟨k, hk⟩ := Nat.exists_eq_succ_of_ne_zero
      (show (limit fmax).toNat ≠ 0 by omega)
    rw [hk]
    rfl

/-- Numbers of the same length that begin differently are emitted differently,
whatever follows. -/
theorem pad_ne
    {leftjust sign : Bool} {fill : Byte} {fmin fmax : ℤ} {c c' : Byte}
    {l l' rest rest' : List Byte} (hlength : l.length = l'.length) (hc : c ≠ c') :
    pad leftjust fill sign fmin fmax (c :: l) ++ rest ≠
      pad leftjust fill sign fmin fmax (c' :: l') ++ rest' := by
  have hkept : (keep fmax (c :: l)).length = (keep fmax (c' :: l')).length := by
    have h := @length_keep fmax (c :: l)
    have h' := @length_keep fmax (c' :: l')
    rw [List.length_cons] at h h'
    rw [← hlength] at h'
    omega
  have hpadding : padding sign fmin fmax (c :: l) =
      padding sign fmin fmax (c' :: l') := by
    rw [padding, padding, List.length_append, List.length_append, hkept]
  intro heq
  rw [pad_eq, pad_eq, hpadding] at heq
  simp only [List.append_assoc, List.append_cancel_left_eq] at heq
  have hhead := congrArg List.head? heq
  simp only [List.head?_append, head_keep, Option.some_or] at hhead
  exact hc (Option.some.inj hhead)

/-- At a hazard the formatters differ, whatever follows, or one of them is not
safe. -/
theorem emit_hazard (hinv : Inv ready cells) (hfree : ¬ d.HazardFree ready) :
    (∀ rest rest', (doEmit d cells).chars ++ rest ≠
        (fdEmit d cells).chars ++ rest') ∨
      (doEmit d cells).safe = false := by
  obtain ⟨leftjust, zero, width, prec, datum⟩ := d
  cases datum with
  | d w =>
    have hw : w = 0x80000000 := not_not.mp hfree
    subst hw
    left
    have hdo : doPrtl10 0x80000000 = ch '2' :: (ch '1' :: ch '4' :: ch '7' ::
        ch '4' :: ch '8' :: ch '3' :: ch '6' :: ch '4' :: ch '8' :: []) := by
      decide
    have hfd : fdPrtl10 (if (0x80000000 : Word).toInt < 0 then -0x80000000
        else 0x80000000) = ch '.' :: (ch '/' :: ch ',' :: ch ')' :: ch ',' ::
          ch '(' :: ch '-' :: ch '*' :: ch ',' :: ch '(' :: []) := by
      decide
    intro rest rest'
    unfold doEmit fdEmit emit
    dsimp only
    rw [hdo, hfd]
    exact pad_ne rfl (by decide)
  | b w =>
    have hlength := mt (length_binary_lt w).mp hfree
    right
    unfold doEmit emit
    dsimp only
    exact decide_eq_false hlength
  | other f =>
    right
    have hready : ready = false := by simpa [Directive.HazardFree] using hfree
    subst hready
    have hnone : cells 0 = none := hinv
    show (cells.text stringSize 0).2 = false
    rw [show stringSize = 19 + 1 from rfl, Cells.text, hnone]
  | c w => exact absurd trivial hfree
  | s str => exact absurd trivial hfree
  | u w => exact absurd trivial hfree
  | o w => exact absurd trivial hfree
  | X w => exact absurd trivial hfree
  | x w => exact absurd trivial hfree

/-! ## The standard meaning of one directive -/

theorem digitChar_ne_blank : ∀ d < 16, digitChar d ≠ ch ' ' := by
  decide

theorem upperChar_ne_blank : ∀ d < 16, upperChar d ≠ ch ' ' := by
  decide

theorem numberText_digitChar {b : ℕ} (n : ℕ) (hb : 1 < b) (hbase : b ≤ 16) :
    NumberText (numeral b digitChar n) n :=
  numberText_numeral hb hbase digitChar_zero digitChar_eq_zero
    digitChar_ne_blank n

theorem numberText_upperChar (n : ℕ) :
    NumberText (numeral 16 upperChar n) n :=
  numberText_numeral (by norm_num) (by norm_num) upperChar_zero
    upperChar_eq_zero upperChar_ne_blank n

/-- A number of `%u`, `%o`, `%X`, `%x` or `%b`, which has no sign and is not
cut. -/
theorem unsigned_iff
    {b n : ℕ} {digit : ℕ → Byte} (htext : NumberText (numeral b digit n) n) :
    pad d.leftjust (if d.zero then ch '0' else ch ' ') false (wrap d.width.val) 0
        (numeral b digit n) = d.number false b digit n ↔
      d.PlainNumber false 0 n (numeral b digit n) :=
  number_iff htext (fun h => absurd h (by decide)) (keep_zero _)

/-- `%c` emits no NUL. -/
theorem char_iff (d : Directive) (c : Byte) :
    pad d.leftjust (ch ' ') false (wrap d.width.val) 0 (if c = 0 then [] else [c]) =
        justify d.leftjust d.width.val [c] ↔
      c ≠ 0 ∧ d.Room 1 := by
  have hcases := fieldWidth_cases d
  rw [pad_blanks, justify_eq_place, keep_zero]
  by_cases hc : c = 0
  · subst hc
    refine iff_of_false ?_ fun h => h.1 rfl
    rw [if_pos rfl]
    intro heq
    have hnul : (0 : Byte) ∈ place d.leftjust (signText false ++ [])
        (padding false (wrap d.width.val) 0 []) := by
      rw [heq]
      unfold place
      split_ifs <;> simp
    have hblank : Blank (place d.leftjust (signText false ++ [])
        (padding false (wrap d.width.val) 0 [])) := by
      unfold place
      split_ifs
      · exact blank_append.mpr ⟨fun _ h => absurd h List.not_mem_nil,
          blank_replicate _⟩
      · exact blank_append.mpr ⟨blank_replicate _,
          fun _ h => absurd h List.not_mem_nil⟩
    exact absurd (hblank 0 hnul) (by decide)
  · have hpadding : padding false (wrap d.width.val) 0 [c] = d.fieldWidth - 1 := rfl
    rw [if_neg hc, hpadding, and_iff_right hc, ← room_iff]
    show place d.leftjust [c] _ = place _ [c] _ ↔ _
    constructor
    · intro heq
      have hlength := congrArg List.length heq
      rw [length_place, length_place] at hlength
      exact Nat.add_left_cancel hlength
    · intro hroom
      rw [List.length_singleton, ← hroom]
      by_cases hneg : d.width.val < 0
      · rw [show d.fieldWidth - 1 = 0 by omega, place_zero, place_zero]
      · simp [hneg]

/-- Every directive is emitted right exactly if its options are plain. -/
theorem emit_standard (d : Directive) (cells : Cells) :
    (∀ text ∈ d.standard, (doEmit d cells).chars = text) ↔ d.Plain := by
  have hsome : ∀ x y : List Byte, (∀ text ∈ some y, x = text) ↔ x = y := by
    intro x y
    constructor
    · intro h
      exact h y rfl
    · rintro rfl text ⟨⟩
      rfl
  obtain ⟨leftjust, zero, width, prec, datum⟩ := d
  unfold doEmit emit Directive.standard Directive.Plain
  cases datum with
  | c w =>
    dsimp only
    rw [hsome]
    exact char_iff ⟨leftjust, zero, width, prec, .c w⟩ (w.setWidth 8)
  | s str =>
    dsimp only
    rw [hsome]
    exact text_iff ⟨leftjust, zero, width, prec, .s str⟩ str
  | d w =>
    dsimp only
    rw [hsome, doPrtl10_eq]
    have hiff := @number_iff ⟨leftjust, zero, width, prec, .d w⟩
      (decide (w.toInt < 0)) (wrap (prec.elim 0 Amount.val)) w.toInt.natAbs 10
      digitChar true
      (numberText_digitChar _ (by norm_num) (by norm_num))
      (fun _ => length_decimal w) rfl
    rw [length_signText] at hiff
    simpa using hiff
  | u w =>
    dsimp only
    rw [hsome, doUnsigned_eq]
    exact @unsigned_iff ⟨leftjust, zero, width, prec, .u w⟩ 10 w.toNat digitChar
      (numberText_digitChar _ (by norm_num) (by norm_num))
  | o w =>
    dsimp only
    rw [hsome, prtl8_eq]
    exact @unsigned_iff ⟨leftjust, zero, width, prec, .o w⟩ 8 w.toNat digitChar
      (numberText_digitChar _ (by norm_num) (by norm_num))
  | X w =>
    dsimp only
    rw [hsome, prtX16_eq]
    exact @unsigned_iff ⟨leftjust, zero, width, prec, .X w⟩ 16 w.toNat upperChar
      (numberText_upperChar _)
  | x w =>
    dsimp only
    rw [hsome, prtl16_eq]
    exact @unsigned_iff ⟨leftjust, zero, width, prec, .x w⟩ 16 w.toNat digitChar
      (numberText_digitChar _ (by norm_num) (by norm_num))
  | b w =>
    dsimp only
    rw [hsome, prtl2_eq]
    exact @unsigned_iff ⟨leftjust, zero, width, prec, .b w⟩ 2 w.toNat digitChar
      (numberText_digitChar _ (by norm_num) (by norm_num))
  | other f => exact iff_of_true (fun _ h => absurd h (Option.not_mem_none _)) trivial

end Directives

/-! ## Runs -/

def doRun : List Step → Cells → List (List Byte × Bool) := run doPrtl10 doPrtl10

def fdRun : List Step → Cells → List (List Byte × Bool) :=
  run (fun w => fdPrtl10 (if w.toInt < 0 then -w else w)) fdPrtl10

def SameAndSafe (ran ran' : List (List Byte × Bool)) : Prop :=
  ran.flatMap Prod.fst = ran'.flatMap Prod.fst ∧ (∀ e ∈ ran, e.2 = true) ∧
    ∀ e ∈ ran', e.2 = true

section Runs

variable {steps : List Step} {cells : Cells} {ready : Bool}

theorem sameAndSafe_cons
    {e : List Byte × Bool} {ran ran' : List (List Byte × Bool)} :
    SameAndSafe (e :: ran) (e :: ran') ↔ e.2 = true ∧ SameAndSafe ran ran' := by
  unfold SameAndSafe
  rw [List.flatMap_cons, List.flatMap_cons, List.append_cancel_left_eq,
    List.forall_mem_cons, List.forall_mem_cons]
  tauto

theorem doRun_directive (d : Directive) :
    doRun (.directive d :: steps) cells =
      ((doEmit d cells).chars, (doEmit d cells).safe) ::
        doRun steps (doEmit d cells).cells :=
  rfl

theorem fdRun_directive (d : Directive) :
    fdRun (.directive d :: steps) cells =
      ((fdEmit d cells).chars, (fdEmit d cells).safe) ::
        fdRun steps (fdEmit d cells).cells :=
  rfl

/-- The formatters agree up to the first hazard and no further. -/
theorem sameAndSafe_run (hinv : Inv ready cells) :
    SameAndSafe (doRun steps cells) (fdRun steps cells) ↔
      HazardFree ready steps := by
  induction steps generalizing ready cells with
  | nil =>
    refine iff_of_true ⟨rfl, ?_, ?_⟩ trivial
    · exact fun e he => absurd he List.not_mem_nil
    · exact fun e he => absurd he List.not_mem_nil
  | cons step steps ih =>
    cases step with
    | echo c =>
      show SameAndSafe (([c], true) :: doRun steps cells)
        (([c], true) :: fdRun steps cells) ↔ HazardFree ready steps
      rw [sameAndSafe_cons, ih hinv]
      exact and_iff_right rfl
    | endOfFormat =>
      show SameAndSafe (([ch '%'], true) :: doRun steps cells)
        (([ch '%'], true) :: fdRun steps cells) ↔ HazardFree ready steps
      rw [sameAndSafe_cons, ih hinv]
      exact and_iff_right rfl
    | directive d =>
      rw [doRun_directive, fdRun_directive, HazardFree]
      by_cases hfree : d.HazardFree ready
      · obtain ⟨hsame, hsafe, hnext⟩ := emit_hazardFree hinv hfree
        rw [← hsame, sameAndSafe_cons, ih hnext, and_iff_right hfree]
        exact and_iff_right hsafe
      · refine iff_of_false ?_ fun h => hfree h.1
        rintro ⟨hchars, hsafe, -⟩
        rcases emit_hazard hinv hfree with hne | hhazard
        · rw [List.flatMap_cons, List.flatMap_cons] at hchars
          exact hne _ _ hchars
        · have := hsafe _ List.mem_cons_self
          rw [hhazard] at this
          cases this

/-- Each step of a run is right exactly if its options are plain. -/
theorem standard_run :
    Standard steps (doRun steps cells) ↔ ∀ step ∈ steps, step.Plain := by
  have hecho : ∀ c : Byte, (∀ text ∈ some [c], [c] = text) := by
    rintro c text ⟨⟩
    rfl
  induction steps generalizing cells with
  | nil => exact iff_of_true List.Forall₂.nil fun e he => absurd he List.not_mem_nil
  | cons step steps ih =>
    rw [List.forall_mem_cons]
    cases step with
    | echo c =>
      show List.Forall₂ _ (_ :: _) (([c], true) :: doRun steps cells) ↔ _
      rw [List.forall₂_cons]
      exact and_congr (iff_of_true (hecho c) trivial) ih
    | endOfFormat =>
      show List.Forall₂ _ (_ :: _) (([ch '%'], true) :: doRun steps cells) ↔ _
      rw [List.forall₂_cons]
      exact and_congr
        (iff_of_true (fun _ h => absurd h (Option.not_mem_none _)) trivial) ih
    | directive d =>
      rw [doRun_directive]
      show List.Forall₂ _ (_ :: _) (_ :: _) ↔ _
      rw [List.forall₂_cons]
      exact and_congr (emit_standard d cells) ih

end Runs

/-! ## Calls -/

/-- For this format and these arguments the formatters agree, safely, and emit
what the format stands for. -/
def Meets (fmt : List Byte) (args : List Arg) : Prop :=
  ∀ steps ∈ call fmt args, Agree steps ∧ Standard steps (doprnt steps)

/-- No step is a hazard, and all options are plain. -/
def Clean (fmt : List Byte) (args : List Arg) : Prop :=
  ∀ steps ∈ call fmt args, HazardFree false steps ∧ ∀ step ∈ steps, step.Plain

theorem agree_iff (steps : List Step) : Agree steps ↔ HazardFree false steps := by
  have hinv : Inv false fun _ => none := rfl
  rw [← sameAndSafe_run hinv]
  exact ⟨fun h => ⟨h.same, h.doSafe, h.fdSafe⟩, fun h => ⟨h.1, h.2.1, h.2.2⟩⟩

/-- The formatters meet the standard, both and safely, exactly for the calls
without a hazard and with plain options. -/
theorem formatters_meet_iff (fmt : List Byte) (args : List Arg) :
    Meets fmt args ↔ Clean fmt args := by
  refine forall₂_congr fun steps _ => and_congr (agree_iff steps) ?_
  exact standard_run

/-- `%d` of the least number: `_fdoprnt` negates it, which changes nothing. -/
theorem least_number_differs :
    ¬ Meets [ch '%', ch 'd'] [.word 0x80000000] := by
  intro h
  have hsame := (h [.directive ⟨false, false, ⟨0, by decide⟩, none,
    .d 0x80000000⟩] rfl).1.same
  revert hsame
  decide

end Xinu.FormattedOutput
