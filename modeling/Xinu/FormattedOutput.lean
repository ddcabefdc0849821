import Mathlib.Data.BitVec
import Xinu.HeapAllocator
import Xinu.Numerals

/-!
# The output formatters

`_doprnt` and `_fdoprnt` are two copies of one formatter.  They differ in the
conversion of negative decimal numbers, and `_doprnt` has three conversions
more, which are left out here together with their format characters.  The
formatters convert a number in a buffer of 20 bytes on their stack, which is
not initialised and keeps its content from one conversion to the next.
-/

namespace Xinu.FormattedOutput

open ByteMemory

abbrev Byte := BitVec 8

def MAXSTR : ℤ := 80

def stringSize : ℕ := 20

def ch (c : Char) : Byte := BitVec.ofNat 8 c.toNat

/-! ## The digit routines -/

/-- The end of every digit routine, which writes the digits in `temp`, the lowest
one first, to `str` without the leading zeros. -/
def writeDigits (temp : List Byte) : List Byte :=
  match temp.reverse.dropWhile (· = ch '0') with
  | [] => temp.take 1
  | ds => ds

/-- `n` turns of the loop of `_prtl10`. -/
def decimals : ℕ → ℤ → List Byte
  | 0, _ => []
  | n + 1, num => BitVec.ofInt 8 (num.tmod 10 + 48) :: decimals n (num.tdiv 10)

/-- `_prtl10` of `fdoprnt.c`. -/
def fdPrtl10 (num : Word) : List Byte := writeDigits (decimals 10 num.toInt)

/-- `_prtl10` of `doprnt.c`, where the first digit takes the sign off. -/
def doPrtl10 (num : Word) : List Byte :=
  let num := num.toInt
  let digit := if num < 0 then -(num.tmod 10) else num.tmod 10
  let num := num.tdiv (if num < 0 then -10 else 10)
  writeDigits (BitVec.ofInt 8 (digit + 48) :: decimals 9 num)

/-- `n` turns of the loop of a routine that takes `bits` bits for a digit. -/
def shiftDigits (bits : ℕ) (digit : Word → Byte) : ℕ → Word → List Byte
  | 0, _ => []
  | n + 1, num =>
      digit num :: shiftDigits bits digit n (num.sshiftRight bits)

def octal (num : Word) : Byte := (num &&& 0o7).setWidth 8 + ch '0'

def prtl8 (num : Word) : List Byte :=
  let temp := shiftDigits 3 octal 11 num
  writeDigits (temp.take 10 ++ (temp.drop 10).map (· &&& ch '3'))

def lowerHex (num : Word) : Byte :=
  ch ("0123456789abcdef".toList.getD (num &&& 0x0f).toNat '0')

def upperHex (num : Word) : Byte :=
  ch ("0123456789ABCDEF".toList.getD (num &&& 0x0f).toNat '0')

def prtl16 (num : Word) : List Byte := writeDigits (shiftDigits 4 lowerHex 8 num)

def prtX16 (num : Word) : List Byte := writeDigits (shiftDigits 4 upperHex 8 num)

def binary (num : Word) : Byte :=
  if num.toInt.tmod 2 = 0 then ch '0' else ch '1'

def prtl2 (num : Word) : List Byte := writeDigits (shiftDigits 1 binary 32 num)

/-- The loop of `%u`, with `n` turns at most: the number that is left and how
often it has been lowered. -/
def lower : ℕ → Word → Byte → Word × Byte
  | 0, larg, digit1 => (larg, digit1)
  | n + 1, larg, digit1 =>
      if larg.toInt < 0 then lower n (larg - 1000000000) (digit1 + 1)
      else (larg, digit1)

/-- The text of `%u`; the loop ends after three turns. -/
def unsignedText (prtl10 : Word → List Byte) (larg : Word) : List Byte :=
  let (larg, digit1) := lower 3 larg 0
  match prtl10 larg with
  | [] => []
  | c :: str => (c + digit1) :: str

/-! ## Format strings -/

/-- A width or a precision. -/
inductive Field
  | star
  | num (n : ℕ)
  deriving DecidableEq

inductive Conv
  | c
  | s
  | d
  | u
  | o
  | X
  | x
  | b
  | other (f : Byte)
  deriving DecidableEq

def conv (f : Byte) : Option Conv :=
  if f = ch 'c' then some .c
  else if f = ch 's' then some .s
  else if f = ch 'd' then some .d
  else if f = ch 'u' then some .u
  else if f = ch 'o' then some .o
  else if f = ch 'X' then some .X
  else if f = ch 'x' then some .x
  else if f = ch 'b' then some .b
  else if f = ch 'f' ∨ f = ch 'H' ∨ f = ch 'h' then none
  else some (.other f)

structure Spec where
  leftjust : Bool
  zero : Bool
  fmin : Field
  fmax : Option Field
  conv : Conv
  deriving DecidableEq

inductive Item
  | echo (c : Byte)
  | spec (s : Spec)
  | endOfFormat
  deriving DecidableEq

def isDigit (c : Byte) : Bool := ch '0' ≤ c ∧ c ≤ ch '9'

/-- A width, or what follows the point of a precision. -/
def field (fmt : List Byte) : Field × List Byte :=
  match fmt with
  | [] => (.num 0, [])
  | c :: rest =>
      if c = ch '*' then (.star, rest)
      else
        (.num ((fmt.takeWhile isDigit).foldl
          (fun n d => n * 10 + (d - ch '0').toNat) 0), fmt.dropWhile isDigit)

/-- A character that may be left out. -/
def accept (c : Byte) (fmt : List Byte) : Bool × List Byte :=
  match fmt with
  | [] => (false, [])
  | c' :: rest => if c' = c then (true, rest) else (false, fmt)

/-- What follows a `%`; a NUL ends the format. -/
def spec (fmt : List Byte) : Option (Item × List Byte) :=
  let (leftjust, fmt) := accept (ch '-') fmt
  let (zero, fmt) := accept (ch '0') fmt
  let (fmin, fmt) := field fmt
  let (point, fmt) := accept (ch '.') fmt
  let (fmax, fmt) :=
    if point then
      let (fmax, fmt) := field fmt
      (some fmax, fmt)
    else (none, fmt)
  match fmt with
  | [] => some (.endOfFormat, [])
  | f :: fmt => (conv f).map fun conv =>
      (.spec ⟨leftjust, zero, fmin, fmax, conv⟩, fmt)

/-- The items of a format of at most `n` characters. -/
def items : ℕ → List Byte → Option (List Item)
  | 0, _ => some []
  | _ + 1, [] => some []
  | n + 1, c :: fmt =>
      if c ≠ ch '%' then (items n fmt).map (.echo c :: ·)
      else
        match accept (ch '%') fmt with
        | (true, fmt) => (items n fmt).map (.echo (ch '%') :: ·)
        | (false, fmt) => (spec fmt).bind fun (item, fmt) =>
            (items n fmt).map (item :: ·)

theorem length_accept_le (c : Byte) (fmt : List Byte) :
    (accept c fmt).2.length ≤ fmt.length := by
  cases fmt with
  | nil => exact le_rfl
  | cons c' rest =>
    unfold accept
    dsimp only
    split_ifs
    · exact Nat.le_succ _
    · exact le_rfl

theorem length_field_le (fmt : List Byte) :
    (field fmt).2.length ≤ fmt.length := by
  cases fmt with
  | nil => exact le_rfl
  | cons c rest =>
    unfold field
    dsimp only
    split_ifs
    · exact Nat.le_succ _
    · exact (List.dropWhile_sublist _).length_le

theorem length_spec_le {fmt rest : List Byte} {item : Item}
    (h : spec fmt = some (item, rest)) : rest.length ≤ fmt.length := by
  have hminus := length_accept_le (ch '-') fmt
  have hzero := length_accept_le (ch '0') (accept (ch '-') fmt).2
  have hfmin := length_field_le (accept (ch '0') (accept (ch '-') fmt).2).2
  have hpoint := length_accept_le (ch '.')
    (field (accept (ch '0') (accept (ch '-') fmt).2).2).2
  have hfmax := length_field_le (accept (ch '.')
    (field (accept (ch '0') (accept (ch '-') fmt).2).2).2).2
  unfold spec at h
  dsimp only at h
  split at h
  · cases h
    exact Nat.zero_le _
  · rename_i f fmt' hfmt
    obtain ⟨conv, -, hrest⟩ := Option.map_eq_some_iff.mp h
    cases hrest
    have hlength := congrArg List.length hfmt
    rw [List.length_cons] at hlength
    split_ifs at hlength <;> dsimp only at hlength <;> omega

/-- The number of characters is enough for the items. -/
theorem items_enough {n : ℕ} {fmt : List Byte} (hn : fmt.length ≤ n) :
    items n fmt = items fmt.length fmt := by
  have hstable : ∀ n fmt, fmt.length ≤ n → items (n + 1) fmt = items n fmt := by
    intro n
    induction n with
    | zero =>
      intro fmt hfmt
      rw [List.length_eq_zero_iff.mp (Nat.le_zero.mp hfmt)]
      rfl
    | succ n ih =>
      intro fmt hfmt
      cases fmt with
      | nil => rfl
      | cons c fmt =>
        have hlength : fmt.length ≤ n := Nat.le_of_succ_le_succ hfmt
        rw [items, items]
        split_ifs
        · rw [ih fmt hlength]
        · have haccept := length_accept_le (ch '%') fmt
          split
          · rename_i fmt' heq
            rw [heq] at haccept
            rw [ih fmt' (le_trans haccept hlength)]
          · rename_i fmt' heq
            rw [heq] at haccept
            apply Option.bind_congr
            rintro ⟨item, rest⟩ hspec
            have hrest := length_spec_le hspec
            dsimp only
            rw [ih rest (le_trans hrest (le_trans haccept hlength))]
  induction n, hn using Nat.le_induction with
  | base => rfl
  | succ m hm ih => rw [hstable m fmt hm, ih]

/-! ## Arguments -/

inductive Arg
  | word (w : Word)
  | str (s : List Byte)
  deriving DecidableEq

inductive Datum
  | c (w : Word)
  | s (str : List Byte)
  | d (w : Word)
  | u (w : Word)
  | o (w : Word)
  | X (w : Word)
  | x (w : Word)
  | b (w : Word)
  | other (f : Byte)
  deriving DecidableEq

/-- A width or a precision with its value, which is at least the least `int`. -/
structure Amount where
  val : ℤ
  least : -2 ^ 31 ≤ val

structure Directive where
  leftjust : Bool
  zero : Bool
  width : Amount
  prec : Option Amount
  datum : Datum

inductive Step
  | echo (c : Byte)
  | directive (d : Directive)
  | endOfFormat

/-- `va_arg` for a width or a precision. -/
def Field.take : Field → List Arg → Option (Amount × List Arg)
  | .num n, args => some (⟨n, by omega⟩, args)
  | .star, .word w :: args => some (⟨w.toInt, BitVec.le_toInt w⟩, args)
  | .star, _ => none

def Conv.take : Conv → List Arg → Option (Datum × List Arg)
  | .c, .word w :: args => some (.c w, args)
  | .s, .str text :: args => some (.s text, args)
  | .d, .word w :: args => some (.d w, args)
  | .u, .word w :: args => some (.u w, args)
  | .o, .word w :: args => some (.o w, args)
  | .X, .word w :: args => some (.X w, args)
  | .x, .word w :: args => some (.x w, args)
  | .b, .word w :: args => some (.b w, args)
  | .other f, args => some (.other f, args)
  | _, _ => none

def Spec.take (s : Spec) (args : List Arg) : Option (Directive × List Arg) :=
  (s.fmin.take args).bind fun (width, args) =>
    match s.fmax with
    | none => (s.conv.take args).map fun (datum, args) =>
        (⟨s.leftjust, s.zero, width, none, datum⟩, args)
    | some fmax => (fmax.take args).bind fun (prec, args) =>
        (s.conv.take args).map fun (datum, args) =>
          (⟨s.leftjust, s.zero, width, some prec, datum⟩, args)

/-- The items with their arguments, if these are of the right kind and there
are enough. -/
def supply : List Item → List Arg → Option (List Step)
  | [], _ => some []
  | .echo c :: items, args => (supply items args).map (.echo c :: ·)
  | .endOfFormat :: items, args => (supply items args).map (.endOfFormat :: ·)
  | .spec s :: items, args => (s.take args).bind fun (d, args) =>
      (supply items args).map (.directive d :: ·)

/-- What a call of a formatter is to do, from its format and its arguments. -/
def call (fmt : List Byte) (args : List Arg) : Option (List Step) :=
  (items fmt.length fmt).bind fun items => supply items args

/-! ## The conversion buffer -/

/-- The buffer; a byte is absent before it is written. -/
abbrev Cells := ℕ → Option Byte

def Cells.set (cells : Cells) (i : ℕ) (c : Byte) : Cells :=
  Function.update cells i (some c)

/-- Write a text and a NUL from the start of the buffer on. -/
def Cells.write (cells : Cells) (text : List Byte) : Cells := fun i =>
  if i < text.length then text[i]? else if i = text.length then some 0 else cells i

/-- The text from cell `i` on, up to a NUL in the next `n` cells, with whether
all its cells and that of the NUL are initialised. -/
def Cells.text (cells : Cells) : ℕ → ℕ → List Byte × Bool
  | 0, _ => ([], false)
  | n + 1, i =>
      match cells i with
      | none => ([], false)
      | some c =>
          if c = 0 then ([], true)
          else ((c :: (Cells.text cells n (i + 1)).1), (Cells.text cells n (i + 1)).2)

/-- What a conversion emits, the buffer after it, and whether it has stayed
inside the buffer and read only initialised bytes of it. -/
structure Emitted where
  chars : List Byte
  cells : Cells
  safe : Bool

/-! ## The formatters -/

/-- A width or a precision that the formatters do not take counts as 0. -/
def limit (n : ℤ) : ℤ := if n > MAXSTR ∨ n < 0 then 0 else n

/-- What the precision `fmax` leaves of a text. -/
def keep (fmax : ℤ) (str : List Byte) : List Byte :=
  if limit fmax = 0 then str else str.take (limit fmax).toNat

/-- The common end of all conversions: the padding and the sign around `str`. -/
def pad (leftjust : Bool) (fill : Byte) (sign : Bool) (fmin fmax : ℤ)
    (str : List Byte) : List Byte :=
  let length := (str.length : ℤ)
  let fmin := limit fmin
  let fmax := limit fmax
  let leading := 0
  let (leading, length) :=
    if fmax ≠ 0 ∨ fmin ≠ 0 then
      let length := if fmax ≠ 0 then if length > fmax then fmax else length
        else length
      let leading := if fmin ≠ 0 then fmin - length else leading
      let leading := if sign then leading - 1 else leading
      (leading, length)
    else (leading, length)
  let filling := List.replicate leading.toNat fill
  (if sign ∧ fill = ch '0' then [ch '-'] else []) ++
    (if leftjust then [] else filling) ++
    (if sign ∧ fill = ch ' ' then [ch '-'] else []) ++
    str.take length.toNat ++
    (if leftjust then filling else [])

/-- A number as a C `int`. -/
def wrap (n : ℤ) : ℤ := (BitVec.ofInt 32 n).toInt

/-- One directive.  `decimal` gives the text of `%d` for a number whose sign has
been noted, and `prtl10` is the digit routine. -/
def emit (decimal prtl10 : Word → List Byte) (d : Directive) (cells : Cells) :
    Emitted :=
  let fmin := wrap d.width.val
  let fmax := wrap (d.prec.elim 0 Amount.val)
  let fill := if d.zero then ch '0' else ch ' '
  let number := fun (sign : Bool) (fmax : ℤ) (text : List Byte) =>
    (⟨pad d.leftjust fill sign fmin fmax text, cells.write text,
      text.length < stringSize⟩ : Emitted)
  match d.datum with
  | .c w =>
      let c : Byte := w.setWidth 8
      ⟨pad d.leftjust (ch ' ') false fmin 0 (if c = 0 then [] else [c]),
        (cells.set 0 c).set 1 0, true⟩
  | .s str => ⟨pad d.leftjust (ch ' ') false fmin fmax str, cells, true⟩
  | .d w => number (w.toInt < 0) fmax (decimal w)
  | .u w => number false 0 (unsignedText prtl10 w)
  | .o w => number false 0 (prtl8 w)
  | .X w => number false 0 (prtX16 w)
  | .x w => number false 0 (prtl16 w)
  | .b w => number false 0 (prtl2 w)
  | .other f =>
      let (text, initialised) := cells.text stringSize 0
      ⟨f :: pad d.leftjust fill false fmin fmax text, cells, initialised⟩

def run (decimal prtl10 : Word → List Byte) :
    List Step → Cells → List (List Byte × Bool)
  | [], _ => []
  | .echo c :: steps, cells => ([c], true) :: run decimal prtl10 steps cells
  | .endOfFormat :: steps, cells =>
      ([ch '%'], true) :: run decimal prtl10 steps cells
  | .directive d :: steps, cells =>
      let e := emit decimal prtl10 d cells
      (e.chars, e.safe) :: run decimal prtl10 steps e.cells

/-- `_doprnt`: what each step of a call emits and whether it is safe. -/
def doprnt (steps : List Step) : List (List Byte × Bool) :=
  run doPrtl10 doPrtl10 steps fun _ => none

/-- `_fdoprnt`, which negates a negative decimal number. -/
def fdoprnt (steps : List Step) : List (List Byte × Bool) :=
  run (fun w => fdPrtl10 (if w.toInt < 0 then -w else w)) fdPrtl10 steps
    fun _ => none

/-! ## The standard meaning -/

def digitChar (d : ℕ) : Byte := ch ("0123456789abcdef".toList.getD d '0')

def upperChar (d : ℕ) : Byte := ch ("0123456789ABCDEF".toList.getD d '0')

/-- A text in a field of at least the given width; a negative width is a minus
sign and a width. -/
def justify (leftjust : Bool) (width : ℤ) (body : List Byte) : List Byte :=
  let filling := List.replicate (width.natAbs - body.length) (ch ' ')
  if leftjust ∨ width < 0 then body ++ filling else filling ++ body

/-- The precision; a negative one counts as absent. -/
def Directive.precision (d : Directive) : Option ℕ :=
  match d.prec with
  | none => none
  | some p => if p.val < 0 then none else some p.val.toNat

def Directive.text (d : Directive) (str : List Byte) : List Byte :=
  match d.precision with
  | none => str
  | some p => str.take p

/-- A number with at least as many digits as the precision says.  The flag `0`
fills the field with zeros, unless there is a precision or a minus sign. -/
def Directive.number (d : Directive) (sign : Bool) (b : ℕ) (digit : ℕ → Byte)
    (n : ℕ) : List Byte :=
  let digits := Numerals.numeral b digit n
  let digits :=
    match d.precision with
    | none => digits
    | some p =>
        if p = 0 ∧ n = 0 then []
        else List.replicate (p - digits.length) (ch '0') ++ digits
  let sgn := if sign then [ch '-'] else []
  if d.zero ∧ ¬ (d.leftjust ∨ d.width.val < 0) ∧ d.precision = none then
    sgn ++ List.replicate (d.width.val.natAbs - (sgn ++ digits).length) (ch '0') ++
      digits
  else justify d.leftjust d.width.val (sgn ++ digits)

/-- What a directive stands for; nothing is said about the other characters. -/
def Directive.standard (d : Directive) : Option (List Byte) :=
  match d.datum with
  | .c w => some (justify d.leftjust d.width.val [w.setWidth 8])
  | .s str => some (justify d.leftjust d.width.val (d.text str))
  | .d w => some (d.number (w.toInt < 0) 10 digitChar w.toInt.natAbs)
  | .u w => some (d.number false 10 digitChar w.toNat)
  | .o w => some (d.number false 8 digitChar w.toNat)
  | .X w => some (d.number false 16 upperChar w.toNat)
  | .x w => some (d.number false 16 digitChar w.toNat)
  | .b w => some (d.number false 2 digitChar w.toNat)
  | .other _ => none

def Step.standard : Step → Option (List Byte)
  | .echo c => some [c]
  | .directive d => d.standard
  | .endOfFormat => none

/-! ## The law of the formatters -/

/-- Both formatters emit the same characters, stay inside their buffers and read
only initialised bytes of them. -/
structure Agree (steps : List Step) : Prop where
  same : (doprnt steps).flatMap Prod.fst = (fdoprnt steps).flatMap Prod.fst
  doSafe : ∀ e ∈ doprnt steps, e.2 = true
  fdSafe : ∀ e ∈ fdoprnt steps, e.2 = true

def Standard (steps : List Step) (emitted : List (List Byte × Bool)) : Prop :=
  List.Forall₂ (fun step e => ∀ text ∈ step.standard, e.1 = text) steps emitted

/-- `%d` has no least number, `%b` has at most 19 digits, and another format
character comes after a conversion that has filled the buffer. -/
def Directive.HazardFree (d : Directive) (ready : Bool) : Prop :=
  match d.datum with
  | .d w => w ≠ 0x80000000
  | .b w => w.toNat < 2 ^ 19
  | .other _ => ready = true
  | _ => True

/-- The directive leaves a text in the buffer, or one was there. -/
def Directive.readyAfter (d : Directive) (ready : Bool) : Bool :=
  match d.datum with
  | .s _ | .other _ => ready
  | _ => true

def HazardFree : Bool → List Step → Prop
  | _, [] => True
  | ready, .echo _ :: steps | ready, .endOfFormat :: steps =>
      HazardFree ready steps
  | ready, .directive d :: steps =>
      d.HazardFree ready ∧ HazardFree (d.readyAfter ready) steps

def Directive.fieldWidth (d : Directive) : ℕ := (limit (wrap d.width.val)).toNat

/-- What the formatters take of the text of `%s` or `%d`. -/
def Directive.kept (d : Directive) (text : List Byte) : List Byte :=
  keep (wrap (d.prec.elim 0 Amount.val)) text

/-- The field needs no padding, or its width is one that the formatters take. -/
def Directive.Room (d : Directive) (n : ℕ) : Prop :=
  d.width.val.natAbs ≤ n ∨ (0 ≤ d.width.val ∧ d.width.val ≤ MAXSTR)

def Blank (text : List Byte) : Prop := ∀ c ∈ text, c = ch ' '

/-- `%s` has the right length, and what the formatters cut off or leave
differently is blank, as is the padding there. -/
def Directive.PlainText (d : Directive) (str : List Byte) : Prop :=
  let text := d.text str
  let kept := d.kept str
  max kept.length d.fieldWidth = max text.length d.width.val.natAbs ∧
    if d.leftjust ∨ d.width.val < 0 then
      Blank (kept.drop text.length) ∧ Blank (text.drop kept.length)
    else kept = text ∨ (Blank kept ∧ Blank text)

/-- A number with `sgn` characters for its sign, whose digits are those of `n`.
Without a precision only the width counts, and zeros may not be filled in on the
right.  With one, nothing is filled in at all, or a field with zeros is as wide as
the precision asks for; `cuts` says that the formatters cut the number, which is
right only if zeros on the right make up for it. -/
def Directive.PlainNumber (d : Directive) (cuts : Bool) (sgn n : ℕ)
    (digits : List Byte) : Prop :=
  match d.precision with
  | none => d.Room (digits.length + sgn) ∧
      (d.zero = true → d.width.val.natAbs ≤ digits.length + sgn ∨
        d.leftjust = false)
  | some p =>
      if digits.length < p then
        d.zero = true ∧ (d.leftjust = true → n = 0) ∧ d.width.val = p + sgn ∧
          d.width.val ≤ MAXSTR
      else if cuts ∧ 0 < p ∧ p < digits.length then
        d.zero = true ∧ d.leftjust = true ∧ d.width.val = digits.length + sgn ∧
          ∀ c ∈ digits.drop p, c = ch '0'
      else
        (p = 0 → n ≠ 0) ∧ d.Room (digits.length + sgn) ∧
          (d.zero = true → d.width.val.natAbs ≤ digits.length + sgn)

/-- The options of the directive mean to the formatters what they should. -/
def Directive.Plain (d : Directive) : Prop :=
  match d.datum with
  | .c w => w.setWidth 8 ≠ (0 : Byte) ∧ d.Room 1
  | .s str => d.PlainText str
  | .d w => d.PlainNumber true (if w.toInt < 0 then 1 else 0) w.toInt.natAbs
      (Numerals.numeral 10 digitChar w.toInt.natAbs)
  | .u w => d.PlainNumber false 0 w.toNat (Numerals.numeral 10 digitChar w.toNat)
  | .o w => d.PlainNumber false 0 w.toNat (Numerals.numeral 8 digitChar w.toNat)
  | .X w => d.PlainNumber false 0 w.toNat (Numerals.numeral 16 upperChar w.toNat)
  | .x w => d.PlainNumber false 0 w.toNat (Numerals.numeral 16 digitChar w.toNat)
  | .b w => d.PlainNumber false 0 w.toNat (Numerals.numeral 2 digitChar w.toNat)
  | .other _ => True

def Step.Plain : Step → Prop
  | .directive d => d.Plain
  | _ => True

end Xinu.FormattedOutput
