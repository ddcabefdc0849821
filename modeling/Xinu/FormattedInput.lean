import Xinu.FormatterAgreement

/-!
# Scanning numbers

`sscanf` gives `_doscan` the functions `sgetch` and `sungetch`, which walk along
a string.  `_innum` scans a number; it classifies the characters with a
condition that no decimal digit meets.
-/

namespace Xinu.FormattedInput

open ByteMemory FormattedOutput Numerals

/-! ## sscanf.c -/

def EOF : ℤ := -2

/-- The string that is scanned, and how far. -/
structure Source where
  str : List Byte
  pos : ℕ

/-- The next character as an `int`; it stays in front of the NUL. -/
def sgetch (s : Source) : ℤ × Source :=
  match s.str[s.pos]? with
  | none => (EOF, s)
  | some c => if c = 0 then (EOF, s) else (c.toInt, { s with pos := s.pos + 1 })

def sungetch (s : Source) : Source := { s with pos := s.pos - 1 }

/-! ## _innum -/

def code (c : Char) : ℤ := (ch c).toInt

def isdigit (c : ℤ) : Bool := code '0' ≤ c ∧ c ≤ code '9'

/-- The condition under which `_innum` takes a character into the number. -/
def accepted (base : ℕ) (c : ℤ) : Bool :=
  (isdigit c ∨ base = 16) ∧
    ((code 'a' ≤ c ∧ c ≤ code 'f') ∨ (code 'A' ≤ c ∧ c ≤ code 'F'))

/-- `lcval` after a character. -/
def accumulate (base : ℕ) (lcval : Word) (c : ℤ) : Word :=
  let lcval :=
    if base = 8 then lcval <<< 3
    else if base = 10 then ((lcval <<< 2) + lcval) <<< 1
    else lcval <<< 4
  let c :=
    if code '0' ≤ c ∧ c ≤ code '9' then c - code '0'
    else if code 'a' ≤ c ∧ c ≤ code 'f' then c - (code 'a' - 10)
    else c - (code 'A' - 10)
  lcval + BitVec.ofInt 32 c

/-- The loop over blanks; `n` bounds the characters that are left. -/
def skipBlanks : ℕ → Source → ℤ × Source
  | 0, s => sgetch s
  | n + 1, s =>
      let (c, s) := sgetch s
      if c = code ' ' ∨ c = code '\t' ∨ c = code '\n' then skipBlanks n s
      else (c, s)

/-- The state of the loop over the digits: the character that has been read, how
many are in `numbuf`, the value and the source. -/
structure Digits where
  c : ℤ
  np : ℕ
  lcval : Word
  src : Source

/-- The loop over the digits, for at most `len` of them. -/
def digitLoop (base : ℕ) : ℕ → Digits → Digits
  | 0, s => s
  | len + 1, s =>
      if accepted base s.c then
        let (c, src) := sgetch s.src
        digitLoop base len ⟨c, s.np + 1, accumulate base s.lcval s.c, src⟩
      else s

inductive Size
  | short
  | regular
  | long
  deriving DecidableEq

/-- What `_innum` returns: whether it has stored a number, the number, whether
the input has ended, and the source. -/
structure Scanned where
  stored : Bool
  lcval : Word
  eof : Bool
  src : Source

def innum (assign : Bool) (type : Byte) (len : ℤ) (src : Source) : Scanned :=
  let base := if type = ch 'o' then 8 else if type = ch 'x' then 16 else 10
  let (c, src) := skipBlanks src.str.length src
  let negflg := c = code '-'
  let np := if c = code '-' then 1 else 0
  let (c, len, src) :=
    if c = code '-' ∨ c = code '+' then
      let (c, src) := sgetch src
      (c, len - 1, src)
    else (c, len, src)
  let s := digitLoop base len.toNat ⟨c, np, 0, src⟩
  let lcval := if negflg then -s.lcval else s.lcval
  let (eof, src) := if s.c ≠ EOF then (false, sungetch s.src) else (true, s.src)
  ⟨assign ∧ s.np ≠ 0, lcval, eof, src⟩

/-! ## _doscan -/

/-- The result of a scan: the source, the number of matches, the next argument,
and what has been stored for which argument. -/
structure ScanState where
  src : Source
  nmatch : ℕ
  argp : ℕ
  stored : List (ℕ × Size × Word)

structure ScanSpec where
  assign : Bool
  len : ℤ
  size : Size
  type : Byte

/-- `*fmt++`, where a NUL ends the format. -/
def next (fmt : List Byte) : Byte × List Byte :=
  match fmt with
  | [] => (0, [])
  | c :: fmt => (c, fmt)

/-- What follows a `%`. -/
def scanSpec (fmt : List Byte) : ScanSpec × List Byte :=
  let (star, fmt) := accept (ch '*') fmt
  let len := wrap ((fmt.takeWhile FormattedOutput.isDigit).foldl
    (fun n d => n * 10 + ((d - ch '0').toNat : ℤ)) 0)
  let len := if len = 0 then 30000 else len
  let (c, fmt) := next (fmt.dropWhile FormattedOutput.isDigit)
  let (size, c, fmt) :=
    if c = ch 'l' then (Size.long, next fmt)
    else if c = ch 'h' then (Size.short, next fmt)
    else (Size.regular, c, fmt)
  let (size, c) :=
    if ch 'A' ≤ c ∧ c ≤ ch 'Z' then (Size.long, c + 32) else (size, c)
  (⟨!star, len, size, c⟩, fmt)

/-- A character of the format that stands for itself: the result of the scan if
it ends. -/
def literal (c : Byte) (s : ScanState) : Option ℤ × ScanState :=
  let (c₁, src) := sgetch s.src
  if c₁ ≠ c.toInt then
    if c₁ = EOF then (some (-1), { s with src := src })
    else (some s.nmatch, { s with src := sungetch src })
  else (none, { s with src := src })

/-- `_doscan` for a format of at most `n` characters, without `%c`, `%s` and
`%[`. -/
def doscan : ℕ → List Byte → ScanState → Option (ℤ × ScanState)
  | _, [], s => some (s.nmatch, s)
  | 0, _ :: _, _ => none
  | n + 1, c :: fmt, s =>
      if c = ch '%' then
        match accept (ch '%') fmt with
        | (true, fmt) =>
            match literal (ch '%') s with
            | (some result, s) => some (result, s)
            | (none, s) => doscan n fmt s
        | (false, fmt) =>
            let (spec, fmt) := scanSpec fmt
            if spec.type = 0 then some (-1, s)
            else if spec.type = ch 'c' ∨ spec.type = ch 's' ∨
                spec.type = ch '[' then none
            else
              let r := innum spec.assign spec.type spec.len s.src
              let s : ScanState :=
                { src := r.src
                  nmatch := if r.stored then s.nmatch + 1 else s.nmatch
                  argp := if spec.assign then s.argp + 1 else s.argp
                  stored := if r.stored then
                      s.stored ++ [(s.argp, spec.size, r.lcval)]
                    else s.stored }
              if r.eof then some (if s.nmatch ≠ 0 then s.nmatch else -1, s)
              else doscan n fmt s
      else if c = ch ' ' ∨ c = ch '\n' ∨ c = ch '\t' then
        let (c₁, src) := skipBlanks s.src.str.length s.src
        doscan n fmt { s with src := if c₁ ≠ EOF then sungetch src else src }
      else
        match literal c s with
        | (some result, s) => some (result, s)
        | (none, s) => doscan n fmt s

def sscanf (str fmt : List Byte) : Option (ℤ × ScanState) :=
  doscan fmt.length fmt ⟨⟨str, 0⟩, 0, 0, []⟩

/-! ## Scanning what has been printed -/

def sprintf (fmt : List Byte) (args : List Arg) : Option (List Byte) :=
  (call fmt args).map fun steps => (fdoprnt steps).flatMap Prod.fst

inductive Radix
  | d
  | x
  | o
  deriving DecidableEq

def Radix.type : Radix → Byte
  | .d => ch 'd'
  | .x => ch 'x'
  | .o => ch 'o'

def Radix.base : Radix → ℕ
  | .d => 10
  | .x => 16
  | .o => 8

def Radix.format (r : Radix) : List Byte := [ch '%', r.type]

def DigitOf (base : ℕ) (c : Byte) : Prop :=
  ∃ d < base, c = digitChar d ∨ c = upperChar d

def Alphanumeric (c : Byte) : Prop :=
  (ch '0' ≤ c ∧ c ≤ ch '9') ∨ (ch 'a' ≤ c ∧ c ≤ ch 'z') ∨ (ch 'A' ≤ c ∧ c ≤ ch 'Z')

/-- What may follow a number: nothing, or a digit or letter that does not belong
to the base. -/
def Foreign (base : ℕ) (rest : List Byte) : Prop :=
  ∀ c ∈ rest.head?, Alphanumeric c ∧ ¬ DigitOf base c

/-- The text of `n` and what follows it are scanned to `n`, with one match, and
exactly the text is consumed. -/
def ScansBack (r : Radix) (n : Word) : Prop :=
  ∀ text ∈ sprintf r.format [.word n], ∀ rest, Foreign r.base rest →
    ∃ s, sscanf (text ++ rest) r.format = some (1, s) ∧
      s.stored = [(0, .regular, n)] ∧ s.src.pos = text.length

def IsLetter (c : Byte) : Prop := ch 'a' ≤ c ∧ c ≤ ch 'f'

instance (c : Byte) : Decidable (IsLetter c) :=
  inferInstanceAs (Decidable (_ ∧ _))

/-! ## The source -/

section Source

variable {str l rest : List Byte} {p : ℕ} {c : Byte}

theorem sgetch_cons (h : str.drop p = c :: l) (hc : c ≠ 0) :
    sgetch ⟨str, p⟩ = (c.toInt, ⟨str, p + 1⟩) := by
  have hget : str[p]? = some c := by
    rw [← List.head?_drop, h]
    rfl
  unfold sgetch
  dsimp only
  rw [hget]
  exact if_neg hc

theorem sgetch_nil (h : str.drop p = []) : sgetch ⟨str, p⟩ = (EOF, ⟨str, p⟩) := by
  have hget : str[p]? = none := by
    rw [← List.head?_drop, h]
    rfl
  unfold sgetch
  dsimp only
  rw [hget]

theorem drop_succ_of_cons (h : str.drop p = c :: l) : str.drop (p + 1) = l := by
  rw [← List.drop_drop, h]
  rfl

/-- What holds of every byte is checked by its number. -/
theorem forall_byte {P : Byte → Prop} (h : ∀ k < 256, P (BitVec.ofNat 8 k)) (c : Byte) :
    P c := by
  have hc := h c.toNat c.isLt
  rwa [BitVec.ofNat_toNat, BitVec.setWidth_eq] at hc

/-- A character that is neither blank nor a sign nor the end of the string. -/
def Inside (c : ℤ) : Prop :=
  (c ≠ code ' ' ∧ c ≠ code '\t' ∧ c ≠ code '\n') ∧ c ≠ code '-' ∧ c ≠ code '+'

instance (c : ℤ) : Decidable (Inside c) := inferInstanceAs (Decidable (_ ∧ _))

instance (c : Byte) : Decidable (Alphanumeric c) :=
  inferInstanceAs (Decidable (_ ∨ _))

theorem alphanumeric_spec (hc : Alphanumeric c) :
    c ≠ 0 ∧ c.toInt ≠ EOF ∧ Inside c.toInt := by
  have hnumber : (48 ≤ c.toNat ∧ c.toNat ≤ 57) ∨ (97 ≤ c.toNat ∧ c.toNat ≤ 122) ∨
      (65 ≤ c.toNat ∧ c.toNat ≤ 90) := hc
  have hint : c.toInt = c.toNat := BitVec.toInt_eq_toNat_of_lt (by omega)
  have hcodes : code ' ' = 32 ∧ code '\t' = 9 ∧ code '\n' = 10 ∧ code '-' = 45 ∧
      code '+' = 43 := by
    decide
  refine ⟨?_, ?_, ?_⟩
  · rintro rfl
    exact absurd hc (by decide)
  · rw [hint, EOF]
    omega
  · unfold Inside
    omega

theorem letter_spec (hc : IsLetter c) :
    Alphanumeric c ∧ accepted 16 c.toInt = true := by
  have hnumber : 97 ≤ c.toNat ∧ c.toNat ≤ 102 := hc
  have hint : c.toInt = c.toNat := BitVec.toInt_eq_toNat_of_lt (by omega)
  have hcodes : code 'a' = 97 ∧ code 'f' = 102 := by decide
  have hend : c.toNat ≤ 122 := by omega
  exact ⟨Or.inr (Or.inl ⟨hc.1, hend⟩),
    decide_eq_true ⟨Or.inr rfl, Or.inl (by omega)⟩⟩

/-- A character that is taken into a number belongs to the base, and the base is
16. -/
theorem accepted_base {base : ℕ} {n : ℤ} (h : accepted base n = true) :
    base = 16 := by
  unfold accepted at h
  simp only [decide_eq_true_eq] at h
  rcases h with ⟨hdigit | hbase, hletter⟩
  · have hlow : code '0' ≤ n ∧ n ≤ code '9' := by simpa [isdigit] using hdigit
    have h9 : code '9' = 57 := by decide
    have ha : code 'a' = 97 := by decide
    have hA : code 'A' = 65 := by decide
    omega
  · exact hbase

/-! ## The digits -/

/-- Letters up to the end of the string or a character that is not taken. -/
theorem digitLoop_letters
    {len np : ℕ} {lcval : Word} (h : str.drop p = l ++ rest)
    (hl : ∀ c ∈ l, IsLetter c)
    (hrest : ∀ c ∈ rest.head?, c ≠ 0 ∧ accepted 16 c.toInt = false)
    (hlen : l.length < len) :
    digitLoop 16 len
        ⟨(sgetch ⟨str, p⟩).1, np, lcval, (sgetch ⟨str, p⟩).2⟩ =
      ⟨(sgetch ⟨str, p + l.length⟩).1, np + l.length,
        l.foldl (fun v c => accumulate 16 v c.toInt) lcval,
        (sgetch ⟨str, p + l.length⟩).2⟩ := by
  induction l generalizing p np lcval len with
  | nil =>
    obtain ⟨len, rfl⟩ := Nat.exists_eq_succ_of_ne_zero (by omega : len ≠ 0)
    have hstop : accepted 16 (sgetch ⟨str, p⟩).1 = false := by
      cases hrest' : rest with
      | nil =>
        rw [hrest', List.append_nil] at h
        rw [sgetch_nil h]
        show accepted 16 EOF = false
        decide
      | cons c rest' =>
        have ⟨hc, hno⟩ := hrest c (by rw [hrest']; rfl)
        rw [hrest', List.nil_append] at h
        rw [sgetch_cons h hc]
        exact hno
    rw [digitLoop]
    dsimp only
    rw [hstop]
    rfl
  | cons c l ih =>
    obtain ⟨len, rfl⟩ := Nat.exists_eq_succ_of_ne_zero (by omega : len ≠ 0)
    obtain ⟨halnum, haccepted⟩ := letter_spec (hl c List.mem_cons_self)
    have hget := sgetch_cons h (alphanumeric_spec halnum).1
    have hdrop := drop_succ_of_cons h
    have hrun := @ih (p + 1) len (np + 1) (accumulate 16 lcval c.toInt) hdrop
      (fun c' hc' => hl c' (List.mem_cons_of_mem c hc'))
      (by rw [List.length_cons] at hlen; omega)
    rw [hget, digitLoop]
    dsimp only
    rw [haccepted, if_pos rfl, hrun, List.length_cons, List.foldl_cons,
      show p + 1 + l.length = p + (l.length + 1) by omega,
      show np + 1 + l.length = np + (l.length + 1) by omega]

/-- Outside base 16 no character is taken. -/
theorem digitLoop_other {base : ℕ} (len : ℕ) (s : Digits) (hbase : base ≠ 16) :
    digitLoop base len s = s := by
  cases len with
  | zero => rfl
  | succ len =>
    rw [digitLoop, if_neg]
    exact fun h => hbase (accepted_base h)

end Source

/-! ## Letters and their value -/

theorem isLetter_digitChar : ∀ d < 16, IsLetter (digitChar d) ↔ 10 ≤ d := by
  decide

theorem accumulate_digitChar (a : ℕ) :
    ∀ d, 10 ≤ d → d < 16 →
      accumulate 16 (BitVec.ofNat 32 a) (digitChar d).toInt =
        BitVec.ofNat 32 (a * 16 + d) := by
  have hcode : ∀ d < 16, 10 ≤ d → (digitChar d).toInt = d + 87 := by decide
  intro d hlow hlt
  have h0 : code '0' = 48 := by decide
  have h9 : code '9' = 57 := by decide
  have ha : code 'a' = 97 := by decide
  have hf : code 'f' = 102 := by decide
  unfold accumulate
  rw [hcode d hlt hlow, h0, h9, ha, hf, if_neg (by decide), if_neg (by decide),
    if_neg (by omega), if_pos (by omega)]
  apply BitVec.eq_of_toNat_eq
  have hd : (d : ℤ) + 87 - (97 - 10) = ((d : ℕ) : ℤ) := by omega
  dsimp only
  rw [hd, BitVec.ofInt_natCast, BitVec.toNat_add, BitVec.toNat_shiftLeft,
    BitVec.toNat_ofNat, BitVec.toNat_ofNat, BitVec.toNat_ofNat, Nat.shiftLeft_eq]
  omega

theorem foldl_digitChar (ds : List ℕ) (a : ℕ) (hds : ∀ d ∈ ds, 10 ≤ d ∧ d < 16) :
    (ds.map digitChar).foldl (fun v c => accumulate 16 v c.toInt)
        (BitVec.ofNat 32 a) =
      BitVec.ofNat 32 (ds.foldl (fun acc d => acc * 16 + d) a) := by
  induction ds generalizing a with
  | nil => rfl
  | cons d ds ih =>
    obtain ⟨hlow, hlt⟩ := hds d List.mem_cons_self
    rw [List.map_cons, List.foldl_cons, List.foldl_cons,
      accumulate_digitChar a d hlow hlt]
    exact ih _ fun e he => hds e (List.mem_cons_of_mem d he)

/-- A numeral of letters only is read as its number. -/
theorem foldl_numeral (n : Word)
    (hletters : ∀ c ∈ numeral 16 digitChar n.toNat, IsLetter c) :
    (numeral 16 digitChar n.toNat).foldl
        (fun v c => accumulate 16 v c.toInt) 0 = n := by
  have hne : n.toNat ≠ 0 := by
    intro hzero
    rw [hzero] at hletters
    exact absurd (hletters (ch '0') (by decide)) (by decide)
  have hnumeral : numeral 16 digitChar n.toNat =
      (Nat.digits 16 n.toNat).reverse.map digitChar :=
    if_neg hne
  have hds : ∀ d ∈ (Nat.digits 16 n.toNat).reverse, 10 ≤ d ∧ d < 16 := by
    intro d hd
    have hlt : d < 16 :=
      Nat.digits_lt_base (by norm_num) (List.mem_reverse.mp hd)
    refine ⟨(isLetter_digitChar d hlt).mp (hletters _ ?_), hlt⟩
    rw [hnumeral]
    exact List.mem_map_of_mem hd
  rw [hnumeral]
  have hfold := foldl_digitChar _ 0 hds
  rw [foldl_digits] at hfold
  rw [show (0 : Word) = BitVec.ofNat 32 0 from rfl, hfold, BitVec.ofNat_toNat,
    BitVec.setWidth_eq]

/-! ## Scanning with the three formats -/

/-- The scan is that of one number, whose end decides the result. -/
theorem sscanf_radix (r : Radix) (str : List Byte) :
    sscanf str r.format =
      (let i := innum true r.type 30000 ⟨str, 0⟩
       some (if i.stored then 1 else if i.eof then -1 else 0,
         ⟨i.src, if i.stored then 1 else 0, 1,
           if i.stored then [(0, .regular, i.lcval)] else []⟩)) := by
  have hscan : sscanf str r.format =
      (let i := innum true r.type 30000 ⟨str, 0⟩
       let s : ScanState := ⟨i.src, if i.stored then 1 else 0, 1,
          if i.stored then [(0, .regular, i.lcval)] else []⟩
       if i.eof then some (if s.nmatch ≠ 0 then (s.nmatch : ℤ) else -1, s)
       else some ((s.nmatch : ℤ), s)) := by
    cases r <;> rfl
  rw [hscan]
  dsimp only
  cases (innum true r.type 30000 ⟨str, 0⟩).eof <;>
    cases (innum true r.type 30000 ⟨str, 0⟩).stored <;> rfl

section Scan

variable {l rest : List Byte}

theorem skipBlanks_inside {n : ℕ} {s : Source} (h : Inside (sgetch s).1) :
    skipBlanks n s = sgetch s := by
  obtain ⟨⟨hblank, htab, hline⟩, -⟩ := h
  cases n with
  | zero => rfl
  | succ n =>
    rw [skipBlanks]
    dsimp only
    rw [if_neg]
    rintro (h | h | h)
    · exact hblank h
    · exact htab h
    · exact hline h

/-- A number without blanks or a sign before it. -/
theorem innum_inside {assign : Bool} {type : Byte} {len : ℤ} {src : Source}
    (h : Inside (sgetch src).1) :
    innum assign type len src =
      (let base := if type = ch 'o' then 8 else if type = ch 'x' then 16 else 10
       let s := digitLoop base len.toNat ⟨(sgetch src).1, 0, 0, (sgetch src).2⟩
       ⟨assign ∧ s.np ≠ 0, s.lcval, s.c = EOF,
         if s.c = EOF then s.src else sungetch s.src⟩) := by
  have ⟨_, hminus, hplus⟩ := h
  have hsign : ¬ ((sgetch src).1 = code '-' ∨ (sgetch src).1 = code '+') :=
    not_or.mpr ⟨hminus, hplus⟩
  unfold innum
  rw [skipBlanks_inside h]
  dsimp only
  rw [if_neg hsign, if_neg hminus]
  simp only [hminus, if_false]
  generalize digitLoop _ _ _ = s
  by_cases hc : s.c = EOF
  · rw [if_neg (not_not.mpr hc), if_pos hc, decide_eq_true hc]
  · rw [if_pos hc, if_neg hc, decide_eq_false hc]

theorem inside_eof : Inside EOF := by
  decide

/-- Letters and what follows them, scanned in base 16: the letters are the
number. -/
theorem innum_letters
    (hl : ∀ c ∈ l, IsLetter c)
    (hrest : ∀ c ∈ rest.head?, Alphanumeric c ∧ accepted 16 c.toInt = false)
    (hlen : l.length < 30000) :
    innum true (ch 'x') 30000 ⟨l ++ rest, 0⟩ =
      ⟨l ≠ [], l.foldl (fun v c => accumulate 16 v c.toInt) 0, rest = [],
        ⟨l ++ rest, l.length⟩⟩ := by
  have hhead : ∀ {p : ℕ} {l' : List Byte}, (l ++ rest).drop p = l' →
      (∀ c ∈ l'.head?, Alphanumeric c) → Inside (sgetch ⟨l ++ rest, p⟩).1 := by
    intro p l' hdrop hl'
    cases l' with
    | nil =>
      rw [sgetch_nil hdrop]
      exact inside_eof
    | cons c l' =>
      have halnum := alphanumeric_spec (hl' c rfl)
      rw [sgetch_cons hdrop halnum.1]
      exact halnum.2.2
  have hinside : Inside (sgetch ⟨l ++ rest, 0⟩).1 := by
    refine hhead rfl fun c hc => ?_
    cases l with
    | nil => exact (hrest c hc).1
    | cons c' l =>
      cases hc
      exact (letter_spec (hl _ List.mem_cons_self)).1
  have hrun := @digitLoop_letters (l ++ rest) l rest 0 30000 0 0 rfl hl
    (fun c hc => ⟨(alphanumeric_spec (hrest c hc).1).1, (hrest c hc).2⟩) hlen
  have hx : ch 'x' ≠ ch 'o' := by decide
  have hnp : (0 + l.length ≠ 0) ↔ l ≠ [] := by
    rw [Nat.zero_add, ne_eq, List.length_eq_zero_iff]
  rw [innum_inside hinside]
  dsimp only
  rw [if_neg hx, if_pos rfl, show (30000 : ℤ).toNat = 30000 from rfl, hrun,
    Nat.zero_add]
  dsimp only
  cases hr : rest with
  | nil =>
    have hget : sgetch ⟨l ++ [], l.length⟩ = (EOF, ⟨l ++ [], l.length⟩) :=
      sgetch_nil (by simp)
    rw [hget]
    simp [List.length_eq_zero_iff]
  | cons c rest' =>
    have halnum := alphanumeric_spec (hrest c (by rw [hr]; rfl)).1
    have hget : sgetch ⟨l ++ c :: rest', l.length⟩ =
        (c.toInt, ⟨l ++ c :: rest', l.length + 1⟩) :=
      sgetch_cons (List.drop_left) halnum.1
    rw [hget]
    simp [List.length_eq_zero_iff, halnum.2.1, sungetch]

/-- In another base nothing but 0 is ever stored. -/
theorem innum_other {type : Byte} {assign : Bool} {len : ℤ} {src : Source}
    (htype : type ≠ ch 'x') : (innum assign type len src).lcval = 0 := by
  have hbase : (if type = ch 'o' then 8 else if type = ch 'x' then 16 else 10) ≠
      16 := by
    rw [if_neg htype]
    split_ifs <;> decide
  unfold innum
  dsimp only
  rw [digitLoop_other _ _ hbase]
  split_ifs <;> simp

end Scan

/-! ## Texts that are scanned back -/

theorem sprintf_hex (n : Word) :
    sprintf (Radix.format .x) [.word n] = some (numeral 16 digitChar n.toNat) := by
  have hpad : sprintf (Radix.format .x) [.word n] =
      some (pad false (ch ' ') false (wrap 0) 0 (prtl16 n) ++ []) :=
    rfl
  have hwidth : padding false (wrap 0) 0 (prtl16 n) = 0 := by
    have hlimit : (limit (wrap 0)).toNat = 0 := by decide
    rw [padding, hlimit]
    exact Nat.zero_sub _
  rw [hpad, pad_blanks, hwidth, place_zero, List.append_nil, keep_zero, prtl16_eq]
  rfl

theorem sprintf_radix (r : Radix) (n : Word) :
    ∃ text, sprintf r.format [.word n] = some text := by
  cases r <;> exact ⟨_, rfl⟩

/-- A hexadecimal digit that is no letter is not taken. -/
theorem digitChar_rejected : ∀ d < 16, ¬ IsLetter (digitChar d) →
    Alphanumeric (digitChar d) ∧ accepted 16 (digitChar d).toInt = false := by
  decide

instance (base : ℕ) (c : Byte) : Decidable (DigitOf base c) :=
  inferInstanceAs (Decidable (∃ d < base, _))

/-- A character that is taken is a digit of the base. -/
theorem digitOf_of_accepted {base : ℕ} {c : Byte}
    (h : accepted base c.toInt = true) : DigitOf base c := by
  have hbase := accepted_base h
  subst hbase
  exact forall_byte (P := fun c => accepted 16 c.toInt = true → DigitOf 16 c)
    (by decide +kernel) c h

/-- A character that does not belong to the base ends the number. -/
theorem rejected_of_not_digitOf {base : ℕ} {c : Byte} (h : ¬ DigitOf base c) :
    accepted base c.toInt = false := by
  by_contra haccepted
  exact h (digitOf_of_accepted (by simpa using haccepted))

theorem length_hex (n : Word) : (numeral 16 digitChar n.toNat).length ≤ 8 :=
  length_unsigned 8 n (by norm_num) (by norm_num) (by norm_num)

theorem hex_ne_nil (n : Word) : numeral 16 digitChar n.toNat ≠ [] :=
  (numberText_digitChar n.toNat (by norm_num) (by norm_num)).ne_nil

theorem mem_hex {n : Word} {c : Byte} (hc : c ∈ numeral 16 digitChar n.toNat) :
    ∃ d < 16, c = digitChar d := by
  unfold numeral at hc
  split_ifs at hc
  · exact ⟨0, by omega, List.mem_singleton.mp hc⟩
  · obtain ⟨d, hd, rfl⟩ := List.mem_map.mp hc
    exact ⟨d, Nat.digits_lt_base (by norm_num) (List.mem_reverse.mp hd), rfl⟩

theorem scansBack_of_letters (n : Word)
    (hletters : ∀ c ∈ numeral 16 digitChar n.toNat, IsLetter c) :
    ScansBack .x n := by
  intro text htext rest hrest
  rw [sprintf_hex] at htext
  cases htext
  have hlength := length_hex n
  have hscan := innum_letters hletters
    (fun c hc => ⟨(hrest c hc).1, rejected_of_not_digitOf (hrest c hc).2⟩)
    (by omega)
  have hne : decide (numeral 16 digitChar n.toNat ≠ []) = true :=
    decide_eq_true (hex_ne_nil n)
  rw [sscanf_radix]
  dsimp only
  rw [show (Radix.type .x) = ch 'x' from rfl, hscan, hne, foldl_numeral n hletters]
  exact ⟨_, rfl, rfl, rfl⟩

theorem letters_of_scansBack (n : Word) (h : ScansBack .x n) :
    ∀ c ∈ numeral 16 digitChar n.toNat, IsLetter c := by
  obtain ⟨s, hs, -, hpos⟩ := h _ (sprintf_hex n) []
    (fun c hc => absurd hc (Option.not_mem_none _))
  have hlength := length_hex n
  have hdigits := @mem_hex n
  generalize numeral 16 digitChar n.toNat = text at hs hpos hlength hdigits ⊢
  by_contra hletters
  -- the scan stops at the first digit that is no letter
  have hsplit : text.takeWhile (IsLetter ·) ++ text.dropWhile (IsLetter ·) = text :=
    List.takeWhile_append_dropWhile
  have hl : ∀ c ∈ text.takeWhile (IsLetter ·), IsLetter c := by
    intro c hc
    simpa using List.mem_takeWhile_imp hc
  have hrest : ∀ c ∈ (text.dropWhile (IsLetter ·)).head?,
      Alphanumeric c ∧ accepted 16 c.toInt = false := by
    intro c hc
    have hmem : c ∈ text := (List.dropWhile_sublist _).subset
      (List.mem_of_mem_head? hc)
    have hnot : ¬ IsLetter c := by
      have := List.head?_dropWhile_not (IsLetter ·) text
      rw [hc] at this
      simpa using this
    obtain ⟨d, hd, rfl⟩ := hdigits hmem
    exact digitChar_rejected d hd hnot
  have htake : (text.takeWhile (IsLetter ·)).length < text.length := by
    by_contra hge
    have hself : text.takeWhile (IsLetter ·) = text :=
      (List.takeWhile_prefix _).eq_of_length_le (not_lt.mp hge)
    rw [hself] at hl
    exact hletters hl
  have hscan := innum_letters hl hrest (by omega)
  rw [hsplit] at hscan
  rw [List.append_nil, sscanf_radix] at hs
  dsimp only at hs
  rw [show (Radix.type .x) = ch 'x' from rfl, hscan] at hs
  have hsrc := (Prod.mk.inj (Option.some.inj hs)).2
  rw [← hsrc] at hpos
  dsimp only at hpos
  omega

theorem not_scansBack_other {r : Radix} (hr : r ≠ .x) (n : Word) :
    ¬ ScansBack r n := by
  intro h
  have htype : r.type ≠ ch 'x' := by
    cases r
    · decide
    · exact absurd rfl hr
    · decide
  have hnil : Foreign r.base [] := fun c hc => absurd hc (Option.not_mem_none _)
  have hn : n = 0 := by
    obtain ⟨text, htext⟩ := sprintf_radix r n
    obtain ⟨s, hs, hstored, -⟩ := h text htext [] hnil
    rw [sscanf_radix] at hs
    dsimp only at hs
    have hstate := (Prod.mk.inj (Option.some.inj hs)).2
    rw [← hstate] at hstored
    dsimp only at hstored
    split_ifs at hstored
    · rw [innum_other htype] at hstored
      have hpair := (List.cons.inj hstored).1
      exact (Prod.mk.inj (Prod.mk.inj hpair).2).2.symm
  subst hn
  have hzero : sprintf r.format [.word 0] = some [ch '0'] := by
    cases r <;> decide
  have hresult : (sscanf ([ch '0'] ++ []) r.format).map Prod.fst = some 0 := by
    cases r <;> decide
  obtain ⟨s, hs, -⟩ := h _ hzero [] hnil
  rw [hs] at hresult
  cases hresult

/-- A number is scanned back exactly if it is scanned in base 16 and all its
digits are letters; a character that does not belong to the base always ends the
number. -/
theorem scansBack_iff (r : Radix) (n : Word) :
    (ScansBack r n ↔
        r = .x ∧ ∀ c ∈ numeral 16 digitChar n.toNat, IsLetter c) ∧
      ∀ base c, ¬ DigitOf base c → accepted base c.toInt = false := by
  constructor
  · constructor
    · intro h
      have hr : r = .x := by
        by_contra hr
        exact not_scansBack_other hr n h
      subst hr
      exact ⟨rfl, letters_of_scansBack n h⟩
    · rintro ⟨rfl, hletters⟩
      exact scansBack_of_letters n hletters
  · exact fun base c hforeign => rejected_of_not_digitOf hforeign

theorem seven_is_not_scanned : ¬ ScansBack .d 7 := by
  intro h
  obtain ⟨s, hs, -⟩ := h [ch '7'] (by decide) []
    (fun c hc => absurd hc (Option.not_mem_none _))
  have hresult : (sscanf ([ch '7'] ++ []) (Radix.format .d)).map Prod.fst =
      some 0 := by
    decide
  rw [hs] at hresult
  cases hresult

end Xinu.FormattedInput
