import Xinu.NamePrefixes
import Mathlib.Data.List.TakeWhile

/-!
# The command line

`lexan` divides the line of a command into tokens: the characters `&`, `<` and
`>`, quoted strings and words.  What a line consists of is said apart from the
scanner, by a relation between a line, its first tokens and what is left, and
the scanner follows that relation token by token.
-/

namespace Xinu.Lexan

open Namespace (Ch Str)

def NULLCH : Ch := 0
def SH_NEWLINE : Ch := 0x0a
def SH_AMPER : Ch := 0x26
def SH_BLANK : Ch := 0x20
def SH_TAB : Ch := 0x09
def SH_SQUOTE : Ch := 0x27
def SH_DQUOTE : Ch := 0x22
def SH_LESS : Ch := 0x3c
def SH_GREATER : Ch := 0x3e

def SHELL_MAXTOK : ℕ := 32

def SH_TOK_AMPER : ℤ := 0
def SH_TOK_LESS : ℤ := 1
def SH_TOK_GREATER : ℤ := 2
def SH_TOK_OTHER : ℤ := 3

/-! ## lexan.c -/

/-- The local variables and the caller's arrays. -/
structure Scan where
  p : ℕ
  ntok : ℕ
  tbindex : ℕ
  tokbuf : Str
  tok : ℕ → ℤ
  toktyp : ℕ → ℤ

structure Result where
  ret : ℤ
  /-- What is stored in `*tlen`, if anything is. -/
  tlen : Option ℤ
  scan : Scan

def isEnd (c : Ch) : Bool := c = NULLCH || c = SH_NEWLINE

def isBlank (c : Ch) : Bool := c = SH_BLANK || c = SH_TAB

def isQuote (c : Ch) : Bool := c = SH_SQUOTE || c = SH_DQUOTE

def isRedirect (c : Ch) : Bool := c = SH_LESS || c = SH_GREATER

/-- The loop over a word goes on. -/
def inWord (c : Ch) : Bool :=
  !(isEnd c || isRedirect c || isBlank c || c = SH_AMPER || isQuote c)

section Loops

variable (line : Str)

def skipBlanks : ℕ → ℕ → Option ℕ
  | 0, _ => none
  | n + 1, p => if isBlank (line p) then skipBlanks n (p + 1) else some p

/-- Copies up to the quote or the end of the line, which is passed too. -/
def copyQuoted (quote : Ch) : ℕ → Scan → Option (Ch × Scan)
  | 0, _ => none
  | n + 1, σ =>
      let ch := line σ.p
      let σ := { σ with p := σ.p + 1 }
      if ch ≠ quote ∧ !isEnd ch then
        copyQuoted quote n
          { σ with tokbuf := Function.update σ.tokbuf σ.tbindex ch,
                   tbindex := σ.tbindex + 1 }
      else some (ch, σ)

def copyWord : ℕ → Scan → Option Scan
  | 0, _ => none
  | n + 1, σ =>
      if inWord (line σ.p) then
        copyWord n
          { σ with tokbuf := Function.update σ.tokbuf σ.tbindex (line σ.p),
                   tbindex := σ.tbindex + 1, p := σ.p + 1 }
      else some σ

/-- `tokbuf[tbindex++] = ch`. -/
def Scan.store (σ : Scan) (ch : Ch) : Scan :=
  { σ with tokbuf := Function.update σ.tokbuf σ.tbindex ch, tbindex := σ.tbindex + 1 }

def Scan.setType (σ : Scan) (typ : ℤ) : Scan :=
  { σ with toktyp := Function.update σ.toktyp σ.ntok typ }

def Scan.past (σ : Scan) : Scan := { σ with p := σ.p + 1 }

def Scan.count (σ : Scan) : Scan := { σ with ntok := σ.ntok + 1 }

def Scan.start (σ : Scan) : Scan :=
  { σ with tok := Function.update σ.tok σ.ntok σ.tbindex }

def Scan.single (σ : Scan) (typ : ℤ) (ch : Ch) : Scan :=
  (((σ.setType typ).store ch).store NULLCH).count.past

/-- From the setting of `tok` to the end of the loop's body; `next` is the rest
of the run. -/
def scanToken (n : ℕ) (next : Scan → Option Result) (σ : Scan) : Option Result :=
  let ch := line σ.p
  let σ := σ.start
  if ch = SH_AMPER then next (σ.single SH_TOK_AMPER ch)
  else if ch = SH_LESS then next (σ.single SH_TOK_LESS ch)
  else if ch = SH_GREATER then next (σ.single SH_TOK_GREATER ch)
  else
    let σ := σ.setType SH_TOK_OTHER
    if isQuote ch then
      (copyQuoted line ch n σ.past).bind fun (last, σ) =>
        if last ≠ ch then some ⟨SYSERR.toInt, none, σ⟩
        else next (σ.store NULLCH).count
    else
      (copyWord line n (σ.store ch).past).bind fun σ =>
        if isQuote (line σ.p) || isRedirect (line σ.p) then
          some ⟨SYSERR.toInt, none, σ⟩
        else next (σ.store NULLCH).count

/-- The loop from its test on; the inner loops get the same fuel. -/
def lexanLoop : ℕ → Scan → Option Result
  | 0, _ => none
  | n + 1, σ =>
      if isEnd (line σ.p) then some ⟨σ.ntok, some σ.tbindex, σ⟩
      else if σ.ntok ≥ SHELL_MAXTOK then some ⟨SYSERR.toInt, none, σ⟩
      else
        (skipBlanks line (n + 1) σ.p).bind fun p =>
          if isEnd (line p) then some ⟨σ.ntok, some σ.tbindex, { σ with p := p }⟩
          else scanToken line (n + 1) (lexanLoop n) { σ with p := p }

end Loops

/-- `lexan` on the caller's arrays; `none` when the fuel does not suffice. -/
def lexan (line : Str) (fuel : ℕ) (tokbuf : Str) (tok toktyp : ℕ → ℤ) :
    Option Result :=
  lexanLoop line fuel ⟨0, 0, 0, tokbuf, tok, toktyp⟩

/-! ## What a line consists of -/

inductive Token where
  | amper
  | less
  | greater
  | quoted (quote : Ch) (s : List Ch)
  | word (s : List Ch)
  deriving DecidableEq

namespace Token

/-- The token as it stands in the line. -/
def source : Token → List Ch
  | amper => [SH_AMPER]
  | less => [SH_LESS]
  | greater => [SH_GREATER]
  | quoted quote s => quote :: s ++ [quote]
  | word s => s

/-- The string that the token stands for. -/
def text : Token → List Ch
  | amper => [SH_AMPER]
  | less => [SH_LESS]
  | greater => [SH_GREATER]
  | quoted _ s => s
  | word s => s

def type : Token → ℤ
  | amper => SH_TOK_AMPER
  | less => SH_TOK_LESS
  | greater => SH_TOK_GREATER
  | quoted _ _ => SH_TOK_OTHER
  | word _ => SH_TOK_OTHER

def stored (t : Token) : List Ch := t.text ++ [NULLCH]

/-- A quoted string ends at the next quote of its kind.  A word ends at the end
of the line, a blank or an ampersand. -/
def Valid : Token → List Ch → Prop
  | quoted quote s, _ => isQuote quote ∧ quote ∉ s
  | word s, rest => s ≠ [] ∧ (∀ c ∈ s, inWord c) ∧
      ∀ c ∈ rest.head?, isBlank c ∨ c = SH_AMPER
  | _, _ => True

end Token

/-- The line consists of the tokens, with blanks before them, and the rest. -/
inductive Reads : List Ch → List Token → List Ch → Prop
  | nil (rest : List Ch) : Reads rest [] rest
  | cons {blanks line rest : List Ch} {t : Token} {ts : List Token}
      (hblanks : ∀ c ∈ blanks, isBlank c) (hvalid : t.Valid line)
      (hreads : Reads line ts rest) : Reads (blanks ++ t.source ++ line) (t :: ts) rest

/-- The rest of a line begins with a quote that is not closed, or with a word
directly followed by a quote or a redirection. -/
inductive Stuck : List Ch → Prop
  | quote {blanks s : List Ch} {quote : Ch} (hblanks : ∀ c ∈ blanks, isBlank c)
      (hquote : isQuote quote) (hopen : quote ∉ s) : Stuck (blanks ++ quote :: s)
  | word {blanks s rest : List Ch} {c : Ch} (hblanks : ∀ c ∈ blanks, isBlank c)
      (hne : s ≠ []) (hword : ∀ c ∈ s, inWord c) (hnext : isQuote c ∨ isRedirect c) :
      Stuck (blanks ++ s ++ c :: rest)

structure Accepted (l : List Ch) (toks : List Token) (rest : List Ch) : Prop where
  reads : Reads l toks rest
  blanks : ∀ c ∈ rest, isBlank c
  count : toks.length < SHELL_MAXTOK ∨ toks.length = SHELL_MAXTOK ∧ rest = []

def Rejected (l : List Ch) : Prop :=
  ∃ toks rest, Reads l toks rest ∧
    (toks.length = SHELL_MAXTOK ∧ rest ≠ [] ∨ toks.length < SHELL_MAXTOK ∧ Stuck rest)

/-- The memory from `p` on holds the characters and then the end of the line. -/
def LineAt (line : Str) : ℕ → List Ch → Prop
  | p, [] => isEnd (line p)
  | p, c :: l => line p = c ∧ isEnd c = false ∧ LineAt line (p + 1) l

/-- The array, with the values written from `i` on. -/
def write {α : Type} (f : ℕ → α) (i : ℕ) : List α → ℕ → α
  | [] => f
  | a :: l => write (Function.update f i a) (i + 1) l

/-- Where each token starts in the token buffer. -/
def offsets (base : ℕ) : List Token → List ℤ
  | [] => []
  | t :: ts => base :: offsets (base + t.stored.length) ts

/-! ## The loops -/

section Loops

variable {line : Str} {p n : ℕ} {l rest s blanks : List Ch} {quote : Ch} {σ : Scan}

theorem isEnd_cases {c : Ch} (h : isEnd c) : c = NULLCH ∨ c = SH_NEWLINE := by
  simpa [isEnd] using h

theorem isBlank_cases {c : Ch} (h : isBlank c) : c = SH_BLANK ∨ c = SH_TAB := by
  simpa [isBlank] using h

theorem isQuote_cases {c : Ch} (h : isQuote c) : c = SH_SQUOTE ∨ c = SH_DQUOTE := by
  simpa [isQuote] using h

theorem isEnd_not_blank {c : Ch} : isEnd c → isBlank c = false := by
  intro h
  rcases isEnd_cases h with rfl | rfl <;> rfl

theorem isEnd_not_inWord {c : Ch} : isEnd c → inWord c = false := by
  intro h
  simp [inWord, h]

theorem isEnd_not_next {c : Ch} : isEnd c → (isQuote c || isRedirect c) = false := by
  intro h
  rcases isEnd_cases h with rfl | rfl <;> rfl

theorem isQuote_not_isEnd {c : Ch} : isQuote c → isEnd c = false := by
  intro h
  rcases isQuote_cases h with rfl | rfl <;> rfl

theorem isQuote_not_single {c : Ch} :
    isQuote c → isBlank c = false ∧ c ≠ SH_AMPER ∧ c ≠ SH_LESS ∧ c ≠ SH_GREATER := by
  intro h
  rcases isQuote_cases h with rfl | rfl <;> decide

theorem inWord_not_single {c : Ch} :
    inWord c → isBlank c = false ∧ c ≠ SH_AMPER ∧ c ≠ SH_LESS ∧ c ≠ SH_GREATER ∧
      isQuote c = false := by
  intro h
  simp only [inWord, isRedirect, Bool.not_eq_true', Bool.or_eq_false_iff,
    decide_eq_false_iff_not] at h
  obtain ⟨⟨⟨⟨-, hless, hgreater⟩, hblank⟩, hamper⟩, hquote⟩ := h
  exact ⟨hblank, hamper, hless, hgreater, hquote⟩

theorem follows_word {c : Ch} (h : isBlank c ∨ c = SH_AMPER) :
    inWord c = false ∧ isQuote c = false ∧ isRedirect c = false := by
  rcases h with h | rfl
  · rcases isBlank_cases h with rfl | rfl <;> decide
  · decide

theorem not_inWord_of_next {c : Ch} (h : isQuote c ∨ isRedirect c) :
    inWord c = false := by
  rcases h with h | h <;> simp [inWord, h]

theorem not_inWord_cases {c : Ch} (h : isEnd c = false) (hout : inWord c = false) :
    (isBlank c ∨ c = SH_AMPER) ∨ isQuote c ∨ isRedirect c := by
  simp only [inWord, h, Bool.not_eq_false', Bool.or_eq_true, decide_eq_true_eq,
    Bool.false_eq_true, false_or] at hout
  rcases hout with ((hredirect | hblank) | hamper) | hquote
  · exact Or.inr (Or.inr hredirect)
  · exact Or.inl (Or.inl hblank)
  · exact Or.inl (Or.inr hamper)
  · exact Or.inr (Or.inl hquote)

theorem LineAt.drop (a : List Ch) (h : LineAt line p (a ++ l)) :
    LineAt line (p + a.length) l := by
  induction a generalizing p with
  | nil => exact h
  | cons c a ih =>
      rw [List.length_cons, Nat.add_comm a.length, ← Nat.add_assoc]
      exact ih h.2.2

theorem LineAt.isEnd_nil (h : LineAt line p []) : isEnd (line p) = true := h

theorem LineAt.not_isEnd (h : LineAt line p l) (hne : l ≠ []) :
    isEnd (line p) = false := by
  cases l with
  | nil => exact absurd rfl hne
  | cons c l => exact h.1 ▸ h.2.1

/-- A test that fails at the end of a line and on the next character. -/
theorem LineAt.next {f : Ch → Bool} (h : LineAt line p l)
    (hend : ∀ c, isEnd c → f c = false) (hhead : ∀ c ∈ l.head?, f c = false) :
    f (line p) = false := by
  cases l with
  | nil => exact hend _ h
  | cons c l => exact h.1 ▸ hhead c rfl

@[simp] theorem write_nil {α : Type} (f : ℕ → α) (i : ℕ) : write f i [] = f := rfl

@[simp] theorem write_cons {α : Type} (f : ℕ → α) (i : ℕ) (a : α) (l : List α) :
    write f i (a :: l) = write (Function.update f i a) (i + 1) l := rfl

theorem write_append {α : Type} (f : ℕ → α) (i : ℕ) (a b : List α) :
    write f i (a ++ b) = write (write f i a) (i + a.length) b := by
  induction a generalizing f i with
  | nil => rfl
  | cons c a ih =>
      rw [List.cons_append, write_cons, ih, write_cons, List.length_cons,
        Nat.add_right_comm, Nat.add_assoc]

theorem write_of_not_mem {α : Type} (f : ℕ → α) (i k : ℕ) (l : List α)
    (hk : k < i ∨ i + l.length ≤ k) : write f i l k = f k := by
  induction l generalizing f i with
  | nil => rfl
  | cons c l ih =>
      rw [List.length_cons] at hk
      rw [write_cons, ih _ _ (by omega), Function.update_of_ne (by omega)]

theorem write_get {α : Type} (f : ℕ → α) (i k : ℕ) (l : List α) (hk : k < l.length) :
    write f i l (i + k) = l.get ⟨k, hk⟩ := by
  induction l generalizing f i k with
  | nil => exact absurd hk (Nat.not_lt_zero k)
  | cons c l ih =>
      cases k with
      | zero => rw [write_cons, write_of_not_mem _ _ _ _ (by omega), Nat.add_zero,
          Function.update_self]; rfl
      | succ k =>
          rw [write_cons, show i + (k + 1) = i + 1 + k by omega,
            ih _ _ _ (Nat.lt_of_succ_lt_succ hk)]
          rfl

theorem skipBlanks_spec (h : LineAt line p (blanks ++ rest))
    (hblanks : ∀ c ∈ blanks, isBlank c) (hrest : ∀ c ∈ rest.head?, isBlank c = false)
    (hn : blanks.length < n) :
    skipBlanks line n p = some (p + blanks.length) := by
  induction blanks generalizing p n with
  | nil =>
      obtain ⟨n, rfl⟩ := Nat.exists_eq_add_one_of_ne_zero (Nat.ne_of_gt hn)
      have hno := h.next (fun c => isEnd_not_blank) hrest
      rw [skipBlanks, hno]
      rfl
  | cons b blanks ih =>
      rw [List.length_cons] at hn ⊢
      obtain ⟨n, rfl⟩ := Nat.exists_eq_add_one_of_ne_zero (Nat.ne_of_gt (Nat.zero_lt_of_lt hn))
      rw [skipBlanks, h.1, if_pos (hblanks b List.mem_cons_self),
        ih h.2.2 (fun c hc => hblanks c (List.mem_cons_of_mem b hc)) (by omega)]
      congr 1
      omega

/-- The scan after `w` has been copied from the line. -/
def Scan.copied (σ : Scan) (w : List Ch) : Scan :=
  { σ with p := σ.p + w.length, tokbuf := write σ.tokbuf σ.tbindex w,
           tbindex := σ.tbindex + w.length }

theorem Scan.copied_cons (c : Ch) (w : List Ch) :
    ({ σ with tokbuf := Function.update σ.tokbuf σ.tbindex c,
              tbindex := σ.tbindex + 1, p := σ.p + 1 } : Scan).copied w =
      σ.copied (c :: w) := by
  simp only [Scan.copied, List.length_cons, write_cons]
  congr 1 <;> omega

theorem copyQuoted_spec (h : LineAt line σ.p (s ++ quote :: rest)) (hs : quote ∉ s)
    (hn : s.length < n) :
    copyQuoted line quote n σ =
      some (quote, { σ.copied s with p := σ.p + s.length + 1 }) := by
  induction s generalizing σ n with
  | nil =>
      obtain ⟨n, rfl⟩ := Nat.exists_eq_add_one_of_ne_zero (Nat.ne_of_gt hn)
      have hquote : line σ.p = quote := h.1
      rw [copyQuoted]
      simp only [hquote, ne_eq, not_true_eq_false, false_and, if_false]
      rfl
  | cons c s ih =>
      rw [List.length_cons] at hn
      obtain ⟨n, rfl⟩ := Nat.exists_eq_add_one_of_ne_zero (Nat.ne_of_gt (Nat.zero_lt_of_lt hn))
      have hc : line σ.p = c := h.1
      have hne : c ≠ quote := fun heq => hs (heq ▸ List.mem_cons_self)
      rw [copyQuoted]
      simp only [hc, ne_eq, hne, not_false_eq_true, h.2.1, Bool.not_false, and_self,
        if_true]
      rw [ih (σ := { σ with tokbuf := Function.update σ.tokbuf σ.tbindex c,
                            tbindex := σ.tbindex + 1, p := σ.p + 1 }) h.2.2
        (fun hin => hs (List.mem_cons_of_mem c hin)) (by omega), Scan.copied_cons]
      simp only [List.length_cons]
      congr 3
      omega

/-- Without a closing quote the copy goes to the end of the line. -/
theorem copyQuoted_open (h : LineAt line σ.p s) (hs : quote ∉ s)
    (hquote : isEnd quote = false) (hn : s.length < n) :
    ∃ last, last ≠ quote ∧ copyQuoted line quote n σ =
      some (last, { σ.copied s with p := σ.p + s.length + 1 }) := by
  induction s generalizing σ n with
  | nil =>
      obtain ⟨n, rfl⟩ := Nat.exists_eq_add_one_of_ne_zero (Nat.ne_of_gt hn)
      have hend : isEnd (line σ.p) = true := h
      have hne : line σ.p ≠ quote := by
        intro heq
        rw [heq, hquote] at hend
        contradiction
      refine ⟨line σ.p, hne, ?_⟩
      rw [copyQuoted]
      simp only [hend, Bool.not_true, Bool.false_eq_true, and_false, if_false]
      rfl
  | cons c s ih =>
      rw [List.length_cons] at hn
      obtain ⟨n, rfl⟩ := Nat.exists_eq_add_one_of_ne_zero (Nat.ne_of_gt (Nat.zero_lt_of_lt hn))
      have hc : line σ.p = c := h.1
      have hne : c ≠ quote := fun heq => hs (heq ▸ List.mem_cons_self)
      obtain ⟨last, hlast, hcopy⟩ := ih
        (σ := { σ with tokbuf := Function.update σ.tokbuf σ.tbindex c,
                       tbindex := σ.tbindex + 1, p := σ.p + 1 }) h.2.2
        (fun hin => hs (List.mem_cons_of_mem c hin)) (n := n) (by omega)
      refine ⟨last, hlast, ?_⟩
      rw [copyQuoted]
      simp only [hc, ne_eq, hne, not_false_eq_true, h.2.1, Bool.not_false, and_self,
        if_true]
      rw [hcopy, Scan.copied_cons]
      simp only [List.length_cons]
      congr 3
      omega

theorem copyWord_spec (h : LineAt line σ.p (s ++ rest)) (hs : ∀ c ∈ s, inWord c)
    (hrest : ∀ c ∈ rest.head?, inWord c = false) (hn : s.length < n) :
    copyWord line n σ = some (σ.copied s) := by
  induction s generalizing σ n with
  | nil =>
      obtain ⟨n, rfl⟩ := Nat.exists_eq_add_one_of_ne_zero (Nat.ne_of_gt hn)
      have hno := h.next (fun c => isEnd_not_inWord) hrest
      rw [copyWord, hno]
      rfl
  | cons c s ih =>
      rw [List.length_cons] at hn
      obtain ⟨n, rfl⟩ := Nat.exists_eq_add_one_of_ne_zero (Nat.ne_of_gt (Nat.zero_lt_of_lt hn))
      have hc : line σ.p = c := h.1
      rw [copyWord, hc, if_pos (hs c List.mem_cons_self),
        ih (σ := { σ with tokbuf := Function.update σ.tokbuf σ.tbindex c,
                          tbindex := σ.tbindex + 1, p := σ.p + 1 }) h.2.2
          (fun c' hc' => hs c' (List.mem_cons_of_mem c hc')) (by omega),
        Scan.copied_cons]

end Loops

/-! ## One token -/

section Tokens

variable {line : Str} {n : ℕ} {l rest blanks : List Ch} {σ : Scan} {t : Token}
  {ts : List Token}

/-- The scan after a token that follows so many blanks. -/
def Scan.advance (σ : Scan) (skipped : ℕ) (t : Token) : Scan where
  p := σ.p + skipped + t.source.length
  ntok := σ.ntok + 1
  tbindex := σ.tbindex + t.stored.length
  tokbuf := write σ.tokbuf σ.tbindex t.stored
  tok := Function.update σ.tok σ.ntok σ.tbindex
  toktyp := Function.update σ.toktyp σ.ntok t.type

/-- The blanks before a character that is none. -/
theorem lexanLoop_blanks {c : Ch} (h : LineAt line σ.p (blanks ++ c :: l))
    (hblanks : ∀ c ∈ blanks, isBlank c) (hc : isBlank c = false)
    (hntok : σ.ntok < SHELL_MAXTOK) (hn : blanks.length ≤ n) :
    lexanLoop line (n + 1) σ =
      scanToken line (n + 1) (lexanLoop line n) { σ with p := σ.p + blanks.length } := by
  have hhere : line (σ.p + blanks.length) = c := (h.drop blanks).1
  have hend : isEnd c = false := (h.drop blanks).2.1
  have hskip := skipBlanks_spec h hblanks
    (fun c' hc' => by rw [List.head?_cons, Option.mem_some_iff] at hc'; exact hc' ▸ hc)
    (Nat.lt_succ_of_le hn)
  rw [lexanLoop, h.not_isEnd (by simp), if_neg (by simp), if_neg (by omega), hskip,
    Option.bind_some, hhere, hend, if_neg (by simp)]

theorem lexanLoop_token (h : LineAt line σ.p (blanks ++ t.source ++ l))
    (hblanks : ∀ c ∈ blanks, isBlank c) (hvalid : t.Valid l)
    (hntok : σ.ntok < SHELL_MAXTOK) (hn : (blanks ++ t.source ++ l).length ≤ n) :
    lexanLoop line (n + 1) σ = lexanLoop line n (σ.advance blanks.length t) := by
  rw [List.length_append, List.length_append] at hn
  rw [List.append_assoc] at h
  cases t with
  | amper =>
      have hhere : line (σ.p + blanks.length) = SH_AMPER := (h.drop blanks).1
      rw [lexanLoop_blanks h hblanks (by decide) hntok (by omega), scanToken]
      simp only [hhere, if_true]
      rfl
  | less =>
      have hhere : line (σ.p + blanks.length) = SH_LESS := (h.drop blanks).1
      rw [lexanLoop_blanks h hblanks (by decide) hntok (by omega), scanToken]
      simp only [hhere, if_neg (show SH_LESS ≠ SH_AMPER by decide), if_true]
      rfl
  | greater =>
      have hhere : line (σ.p + blanks.length) = SH_GREATER := (h.drop blanks).1
      rw [lexanLoop_blanks h hblanks (by decide) hntok (by omega), scanToken]
      simp only [hhere, if_neg (show SH_GREATER ≠ SH_AMPER by decide),
        if_neg (show SH_GREATER ≠ SH_LESS by decide), if_true]
      rfl
  | quoted quote s =>
      obtain ⟨hquote, hs⟩ := hvalid
      obtain ⟨hblank, hamper, hless, hgreater⟩ := isQuote_not_single hquote
      have hsource : (Token.quoted quote s).source ++ l = quote :: (s ++ quote :: l) := by
        simp [Token.source]
      rw [hsource] at h
      simp only [Token.source, List.length_append, List.length_cons] at hn
      have hhere : line (σ.p + blanks.length) = quote := (h.drop blanks).1
      have hcopy := copyQuoted_spec (n := n + 1) (σ := (Scan.setType (Scan.start
        { σ with p := σ.p + blanks.length }) SH_TOK_OTHER).past) (h.drop blanks).2.2 hs
        (by omega)
      rw [lexanLoop_blanks h hblanks hblank hntok (by omega), scanToken]
      simp only [hhere, if_neg hamper, if_neg hless, if_neg hgreater, hquote, if_true,
        hcopy, Option.bind_some, ne_eq, not_true_eq_false, if_false]
      congr 1
      simp only [Scan.advance, Scan.start, Scan.past, Scan.count, Scan.store,
        Scan.setType, Scan.copied, Token.source, Token.stored, Token.text, Token.type,
        write_append, write_cons, write_nil, List.length_append, List.length_cons,
        List.length_nil]
      congr 1
      omega
  | word s =>
      obtain ⟨hne, hs, hnext⟩ := hvalid
      obtain ⟨c, s, rfl⟩ := List.exists_cons_of_ne_nil hne
      obtain ⟨hblank, hamper, hless, hgreater, hquote⟩ :=
        inWord_not_single (hs c List.mem_cons_self)
      have hhere : line (σ.p + blanks.length) = c := (h.drop blanks).1
      have htail : LineAt line (σ.p + blanks.length + 1) (s ++ l) := (h.drop blanks).2.2
      simp only [Token.source, List.length_cons] at hn
      have hlast : (isQuote (line (σ.p + blanks.length + 1 + s.length)) ||
          isRedirect (line (σ.p + blanks.length + 1 + s.length))) = false :=
        LineAt.next (f := fun c => isQuote c || isRedirect c) (htail.drop s)
          (fun _ => isEnd_not_next) fun c' hc' => by
            obtain ⟨-, hq, hr⟩ := follows_word (hnext c' hc')
            simp only [hq, hr, Bool.or_false]
      have hcopy := copyWord_spec (n := n + 1) (σ := (Scan.store (Scan.setType (Scan.start
        { σ with p := σ.p + blanks.length }) SH_TOK_OTHER) c).past) htail
        (fun c' hc' => hs c' (List.mem_cons_of_mem c hc'))
        (fun c' hc' => (follows_word (hnext c' hc')).1) (by omega)
      have hp : (Scan.copied (Scan.store (Scan.setType (Scan.start
          { σ with p := σ.p + blanks.length }) SH_TOK_OTHER) c).past s).p =
            σ.p + blanks.length + 1 + s.length := rfl
      rw [lexanLoop_blanks (l := s ++ l) h hblanks hblank hntok (by omega), scanToken]
      simp only [hhere, if_neg hamper, if_neg hless, if_neg hgreater, hquote,
        Bool.false_eq_true, if_false, hcopy, Option.bind_some, hp, hlast]
      congr 1
      simp only [Scan.advance, Scan.start, Scan.past, Scan.count, Scan.store,
        Scan.setType, Scan.copied, Token.source, Token.stored, Token.text, Token.type,
        write_append, write_cons, write_nil, List.length_append, List.length_cons,
        List.length_nil, List.cons_append]
      congr 1 <;> omega

end Tokens

/-! ## The whole line -/

section Lines

variable {line : Str} {n : ℕ} {l rest blanks : List Ch} {σ τ : Scan} {t : Token}
  {ts toks : List Token}

/-- The arrays after the tokens. -/
structure Scanned (σ : Scan) (toks : List Token) (τ : Scan) : Prop where
  ntok : τ.ntok = σ.ntok + toks.length
  tbindex : τ.tbindex = σ.tbindex + (toks.flatMap Token.stored).length
  tokbuf : τ.tokbuf = write σ.tokbuf σ.tbindex (toks.flatMap Token.stored)
  tok : τ.tok = write σ.tok σ.ntok (offsets σ.tbindex toks)
  toktyp : τ.toktyp = write σ.toktyp σ.ntok (toks.map Token.type)

theorem Scanned.cons {skipped : ℕ} (h : Scanned (σ.advance skipped t) ts τ) :
    Scanned σ (t :: ts) τ where
  ntok := by
    rw [h.ntok, List.length_cons]
    simp only [Scan.advance]
    omega
  tbindex := by
    rw [h.tbindex, List.flatMap_cons, List.length_append]
    simp only [Scan.advance]
    omega
  tokbuf := by
    rw [h.tokbuf, List.flatMap_cons, write_append]
    rfl
  tok := h.tok
  toktyp := h.toktyp

theorem Token.source_ne_nil (h : t.Valid l) : t.source ≠ [] := by
  cases t with
  | word s => exact h.1
  | _ => exact List.cons_ne_nil _ _

theorem Token.stored_length (t : Token) : t.stored.length ≤ t.source.length + 1 := by
  cases t <;> simp [Token.stored, Token.source, Token.text]

theorem Reads.length (h : Reads l toks rest) :
    (toks.flatMap Token.stored).length + rest.length ≤ l.length + toks.length := by
  induction h with
  | nil rest => simp
  | cons hblanks hvalid hreads ih =>
      rename_i t ts
      have := t.stored_length
      simp only [List.flatMap_cons, List.length_append, List.length_cons]
      omega

theorem lexanLoop_tokens (hreads : Reads l toks rest) (h : LineAt line σ.p l)
    (hcount : σ.ntok + toks.length ≤ SHELL_MAXTOK) (hn : l.length ≤ n) :
    ∃ n' τ, lexanLoop line (n + 1) σ = lexanLoop line (n' + 1) τ ∧
      Scanned σ toks τ ∧ LineAt line τ.p rest ∧ rest.length ≤ n' := by
  induction hreads generalizing σ n with
  | nil rest => exact ⟨n, σ, rfl, ⟨rfl, rfl, rfl, rfl, rfl⟩, h, hn⟩
  | cons hblanks hvalid hreads ih =>
      rename_i t ts
      rw [List.length_cons] at hcount
      have hpos := List.length_pos_iff.mpr (Token.source_ne_nil hvalid)
      have hstep := lexanLoop_token h hblanks hvalid (by omega) hn
      have hnext := h.drop _
      rw [List.length_append] at hnext
      simp only [List.length_append] at hn
      obtain ⟨n, rfl⟩ := Nat.exists_eq_add_one_of_ne_zero (show n ≠ 0 by omega)
      obtain ⟨n', τ, hrun, hscanned, hline, hfuel⟩ :=
        ih (σ := σ.advance _ t) (n := n)
          (by simp only [Scan.advance, Nat.add_assoc]; exact hnext)
          (by simp only [Scan.advance]; omega) (by omega)
      exact ⟨n', τ, hstep.trans hrun, hscanned.cons, hline, hfuel⟩

theorem lexanLoop_end (h : LineAt line σ.p rest) (hblanks : ∀ c ∈ rest, isBlank c)
    (hcount : σ.ntok < SHELL_MAXTOK ∨ rest = []) (hn : rest.length ≤ n) :
    ∃ p, lexanLoop line (n + 1) σ =
      some ⟨σ.ntok, some σ.tbindex, { σ with p := p }⟩ := by
  by_cases hnil : rest = []
  · subst hnil
    exact ⟨σ.p, by rw [lexanLoop, h.isEnd_nil]; rfl⟩
  · have hlt := hcount.resolve_right hnil
    have hline : LineAt line σ.p (rest ++ []) := by rwa [List.append_nil]
    have hskip := skipBlanks_spec hline hblanks (by simp) (Nat.lt_succ_of_le hn)
    refine ⟨σ.p + rest.length, ?_⟩
    rw [lexanLoop, h.not_isEnd hnil, if_neg (by simp), if_neg (by omega), hskip,
      Option.bind_some, (hline.drop rest).isEnd_nil, if_pos rfl]

theorem lexanLoop_full (h : LineAt line σ.p rest) (hne : rest ≠ [])
    (hcount : σ.ntok = SHELL_MAXTOK) :
    lexanLoop line (n + 1) σ = some ⟨SYSERR.toInt, none, σ⟩ := by
  rw [lexanLoop, h.not_isEnd hne, if_neg (by simp), if_pos (by omega)]

/-- What an unfinished token may have left in the arrays. -/
structure Unfinished (σ : Scan) (size : ℕ) (τ : Scan) : Prop where
  ntok : τ.ntok = σ.ntok
  tokbuf : ∀ k, k < σ.tbindex ∨ σ.tbindex + size ≤ k → τ.tokbuf k = σ.tokbuf k
  tok : ∀ k, k ≠ σ.ntok → τ.tok k = σ.tok k
  toktyp : ∀ k, k ≠ σ.ntok → τ.toktyp k = σ.toktyp k

theorem lexanLoop_stuck (h : LineAt line σ.p rest) (hstuck : Stuck rest)
    (hcount : σ.ntok < SHELL_MAXTOK) (hn : rest.length ≤ n) :
    ∃ τ, lexanLoop line (n + 1) σ = some ⟨SYSERR.toInt, none, τ⟩ ∧
      Unfinished σ rest.length τ := by
  cases hstuck with
  | quote hblanks hquote hopen =>
      rename_i blanks s quote
      obtain ⟨hblank, hamper, hless, hgreater⟩ := isQuote_not_single hquote
      simp only [List.length_append, List.length_cons] at hn ⊢
      have hhere : line (σ.p + blanks.length) = quote := (h.drop blanks).1
      obtain ⟨last, hlast, hcopy⟩ := copyQuoted_open (n := n + 1) (σ := (Scan.setType
        (Scan.start { σ with p := σ.p + blanks.length }) SH_TOK_OTHER).past)
        (h.drop blanks).2.2 hopen (isQuote_not_isEnd hquote) (by omega)
      rw [lexanLoop_blanks h hblanks hblank hcount (by omega), scanToken]
      simp only [hhere, if_neg hamper, if_neg hless, if_neg hgreater, hquote, if_true,
        hcopy, Option.bind_some, if_pos hlast]
      refine ⟨_, rfl, rfl, fun k hk => ?_, fun k hk => ?_, fun k hk => ?_⟩
      · exact write_of_not_mem _ _ _ _
          (hk.imp id fun hge => show σ.tbindex + s.length ≤ k by omega)
      · exact Function.update_of_ne hk _ _
      · exact Function.update_of_ne hk _ _
  | word hblanks hne hs hnext =>
      rename_i blanks s rest c'
      obtain ⟨c, s, rfl⟩ := List.exists_cons_of_ne_nil hne
      obtain ⟨hblank, hamper, hless, hgreater, hquote⟩ :=
        inWord_not_single (hs c List.mem_cons_self)
      rw [List.append_assoc] at h
      simp only [List.length_append, List.length_cons] at hn ⊢
      have hhere : line (σ.p + blanks.length) = c := (h.drop blanks).1
      have htail : LineAt line (σ.p + blanks.length + 1) (s ++ c' :: rest) :=
        (h.drop blanks).2.2
      have hlast : line (σ.p + blanks.length + 1 + s.length) = c' := (htail.drop s).1
      have hcopy := copyWord_spec (n := n + 1) (σ := (Scan.store (Scan.setType (Scan.start
        { σ with p := σ.p + blanks.length }) SH_TOK_OTHER) c).past) htail
        (fun c' hc' => hs c' (List.mem_cons_of_mem c hc'))
        (fun d hd => by
          rw [List.head?_cons, Option.mem_some_iff] at hd
          exact hd ▸ not_inWord_of_next hnext) (by omega)
      have hp : (Scan.copied (Scan.store (Scan.setType (Scan.start
          { σ with p := σ.p + blanks.length }) SH_TOK_OTHER) c).past s).p =
            σ.p + blanks.length + 1 + s.length := rfl
      have hbad : (isQuote c' || isRedirect c') = true := by
        rwa [Bool.or_eq_true]
      rw [lexanLoop_blanks h hblanks hblank hcount (by omega), scanToken]
      simp only [hhere, if_neg hamper, if_neg hless, if_neg hgreater, hquote,
        Bool.false_eq_true, if_false, hcopy, Option.bind_some, hp, hlast, hbad, if_true]
      refine ⟨_, rfl, rfl, fun k hk => ?_, fun k hk => ?_, fun k hk => ?_⟩
      · refine (write_of_not_mem _ _ k s ?_).trans (Function.update_of_ne ?_ _ _)
        · show k < σ.tbindex + 1 ∨ σ.tbindex + 1 + s.length ≤ k
          omega
        · show k ≠ σ.tbindex
          omega
      · exact Function.update_of_ne hk _ _
      · exact Function.update_of_ne hk _ _

/-- What starts with a character of a word: the word, or what may not follow it. -/
theorem word_or_stuck
    {blanks r : List Ch} {c : Ch} (hblanks : ∀ c ∈ blanks, isBlank c)
    (hword : inWord c) (hend : ∀ d ∈ c :: r, isEnd d = false) :
    Stuck (blanks ++ c :: r) ∨
      ∃ (t : Token) (rest : List Ch), c :: r = t.source ++ rest ∧ t.Valid rest := by
  set w := (c :: r).takeWhile inWord with hw
  have hws : ∀ d ∈ w, inWord d := fun d hd => List.mem_takeWhile_imp hd
  have hwne : w ≠ [] := by
    rw [hw, List.takeWhile_cons_of_pos hword]
    exact List.cons_ne_nil _ _
  have hrsplit : w ++ (c :: r).dropWhile inWord = c :: r :=
    List.takeWhile_append_dropWhile
  cases hafter : (c :: r).dropWhile inWord with
  | nil =>
      rw [hafter] at hrsplit
      exact Or.inr ⟨.word w, [], hrsplit.symm, hwne, hws, by simp⟩
  | cons d u =>
      rw [hafter] at hrsplit
      have hd : inWord d = false := by
        have := List.head_dropWhile_not inWord (l := c :: r) (by simp [hafter])
        simpa [hafter] using this
      have hdend : isEnd d = false := hend d (by rw [← hrsplit]; simp)
      rcases not_inWord_cases hdend hd with hstop | hbad
      · refine Or.inr ⟨.word w, d :: u, hrsplit.symm, hwne, hws, fun e he => ?_⟩
        rw [List.head?_cons, Option.mem_some_iff] at he
        exact he ▸ hstop
      · left
        rw [← hrsplit, ← List.append_assoc]
        exact .word hblanks hwne hws hbad

/-- What starts with a quote: the quoted text, or a quote that is not closed. -/
theorem quoted_or_stuck
    {blanks r : List Ch} {c : Ch} (hblanks : ∀ c ∈ blanks, isBlank c)
    (hquote : isQuote c) :
    Stuck (blanks ++ c :: r) ∨
      ∃ (t : Token) (rest : List Ch), c :: r = t.source ++ rest ∧ t.Valid rest := by
  by_cases hclosed : c ∈ r
  · obtain ⟨s, u, rfl, hs⟩ := List.eq_append_cons_of_mem hclosed
    exact Or.inr ⟨.quoted c s, u, by simp [Token.source], hquote, hs⟩
  · exact Or.inl (.quote hblanks hquote hclosed)

/-- Any other character that is not blank is a token. -/
theorem mark_of_not_word
    {r : List Ch} {c : Ch} (hend : isEnd c = false) (hblank : isBlank c = false)
    (hword : ¬ inWord c) (hquote : ¬ isQuote c) :
    ∃ (t : Token) (rest : List Ch), c :: r = t.source ++ rest ∧ t.Valid rest := by
  rcases not_inWord_cases hend (by simpa using hword) with
    (hblank' | hamper) | hq | hredirect
  · rw [hblank] at hblank'
    contradiction
  · exact ⟨.amper, r, by simp [Token.source, hamper], trivial⟩
  · exact absurd hq hquote
  · unfold isRedirect at hredirect
    rw [Bool.or_eq_true, decide_eq_true_iff, decide_eq_true_iff] at hredirect
    rcases hredirect with hless | hgreater
    · exact ⟨.less, r, by simp [Token.source, hless], trivial⟩
    · exact ⟨.greater, r, by simp [Token.source, hgreater], trivial⟩

/-- A first token, or the reason why there is none. -/
theorem first_token (hl : ∀ c ∈ l, isEnd c = false) :
    (∀ c ∈ l, isBlank c) ∨ Stuck l ∨
      ∃ (blanks : List Ch) (t : Token) (rest : List Ch),
        l = blanks ++ t.source ++ rest ∧ (∀ c ∈ blanks, isBlank c) ∧ t.Valid rest := by
  have hsplit : l.takeWhile isBlank ++ l.dropWhile isBlank = l :=
    List.takeWhile_append_dropWhile
  have hblanks : ∀ c ∈ l.takeWhile isBlank, isBlank c := fun c hc =>
    List.mem_takeWhile_imp hc
  cases hrest : l.dropWhile isBlank with
  | nil =>
      rw [hrest, List.append_nil] at hsplit
      rw [hsplit] at hblanks
      exact Or.inl hblanks
  | cons c r =>
      rw [hrest] at hsplit
      have hc : isBlank c = false := by
        have := List.head_dropWhile_not isBlank (l := l) (by simp [hrest])
        simpa [hrest] using this
      have hend : ∀ d ∈ c :: r, isEnd d = false := fun d hd =>
        hl d (by rw [← hsplit]; exact List.mem_append_right _ hd)
      have hfirst : Stuck (l.takeWhile isBlank ++ c :: r) ∨
          ∃ (t : Token) (rest : List Ch), c :: r = t.source ++ rest ∧ t.Valid rest := by
        by_cases hword : inWord c
        · exact word_or_stuck hblanks hword hend
        by_cases hquote : isQuote c
        · exact quoted_or_stuck hblanks hquote
        · exact Or.inr
            (mark_of_not_word (hend c List.mem_cons_self) hc hword hquote)
      right
      rcases hfirst with hstuck | ⟨t, rest, htok, hvalid⟩
      · left
        rwa [hsplit] at hstuck
      · refine Or.inr ⟨l.takeWhile isBlank, t, rest, ?_, hblanks, hvalid⟩
        rw [List.append_assoc, ← htok, hsplit]

theorem accepted_or_rejected (m : ℕ) (hl : ∀ c ∈ l, isEnd c = false) :
    ∃ toks rest, Reads l toks rest ∧ toks.length ≤ m ∧
      (toks.length = m ∧ rest ≠ [] ∨ toks.length < m ∧ Stuck rest ∨
        (∀ c ∈ rest, isBlank c) ∧ (toks.length < m ∨ rest = [])) := by
  induction m generalizing l with
  | zero =>
      refine ⟨[], l, .nil l, le_rfl, ?_⟩
      by_cases hnil : l = []
      · exact Or.inr (Or.inr ⟨by simp [hnil], Or.inr hnil⟩)
      · exact Or.inl ⟨rfl, hnil⟩
  | succ m ih =>
      rcases first_token hl with hblanks | hstuck | ⟨blanks, t, u, rfl, hblanks, hvalid⟩
      · exact ⟨[], l, .nil l, Nat.zero_le _, Or.inr (Or.inr ⟨hblanks, Or.inl (by simp)⟩)⟩
      · exact ⟨[], l, .nil l, Nat.zero_le _, Or.inr (Or.inl ⟨by simp, hstuck⟩)⟩
      · obtain ⟨toks, rest, hreads, hle, hcases⟩ :=
          ih fun c hc => hl c (List.mem_append_right _ hc)
        refine ⟨t :: toks, rest, .cons hblanks hvalid hreads, ?_, ?_⟩
        · rw [List.length_cons]
          omega
        · rw [List.length_cons, Nat.add_right_cancel_iff, Nat.add_lt_add_iff_right]
          exact hcases

theorem LineAt.not_isEnd_of_mem {p : ℕ} (h : LineAt line p l) :
    ∀ c ∈ l, isEnd c = false := by
  induction l generalizing p with
  | nil => simp
  | cons c l ih =>
      intro d hd
      rcases List.mem_cons.mp hd with rfl | hd
      · exact h.2.1
      · exact ih h.2.2 d hd

end Lines

/-- The result describes the tokens, in the arrays as they were before. -/
structure Describes (r : Result) (tokbuf : Str) (tok toktyp : ℕ → ℤ)
    (toks : List Token) : Prop where
  ret : r.ret = toks.length
  tlen : r.tlen = some ((toks.flatMap Token.stored).length : ℤ)
  tokbuf : r.scan.tokbuf = write tokbuf 0 (toks.flatMap Token.stored)
  tok : r.scan.tok = write tok 0 (offsets 0 toks)
  toktyp : r.scan.toktyp = write toktyp 0 (toks.map Token.type)

/-- Nothing is written past `tokbuf[len + number of tokens]`, where `len` counts
the characters before the end of the line, or past the arrays. -/
structure Bounded (r : Result) (tokbuf : Str) (tok toktyp : ℕ → ℤ) (len : ℕ) :
    Prop where
  tokbuf : ∀ k ≥ len + r.scan.ntok, r.scan.tokbuf k = tokbuf k
  tok : ∀ k ≥ SHELL_MAXTOK, r.scan.tok k = tok k
  toktyp : ∀ k ≥ SHELL_MAXTOK, r.scan.toktyp k = toktyp k

section Spec

variable {line : Str} {l rest : List Ch} {toks : List Token} {fuel : ℕ}
  (tokbuf : Str) (tok toktyp : ℕ → ℤ)

theorem offsets_length (base : ℕ) (toks : List Token) :
    (offsets base toks).length = toks.length := by
  induction toks generalizing base with
  | nil => rfl
  | cons t toks ih => rw [offsets, List.length_cons, List.length_cons, ih]

theorem lexan_accepted (hline : LineAt line 0 l) (hfuel : l.length < fuel)
    (h : Accepted l toks rest) :
    ∃ r, lexan line fuel tokbuf tok toktyp = some r ∧
      Describes r tokbuf tok toktyp toks ∧ Bounded r tokbuf tok toktyp l.length := by
  obtain ⟨n, rfl⟩ := Nat.exists_eq_add_one_of_ne_zero (Nat.ne_of_gt (Nat.zero_lt_of_lt hfuel))
  have hle : toks.length ≤ SHELL_MAXTOK := by
    rcases h.count with hlt | ⟨heq, -⟩
    · exact hlt.le
    · exact heq.le
  obtain ⟨n', τ, hrun, hscanned, hrest, hn'⟩ := lexanLoop_tokens (n := n)
    (σ := ⟨0, 0, 0, tokbuf, tok, toktyp⟩) h.reads hline
    (by rw [Nat.zero_add]; exact hle) (by omega)
  have hntok : τ.ntok = toks.length := hscanned.ntok.trans (Nat.zero_add _)
  have htb : τ.tbindex = (toks.flatMap Token.stored).length :=
    hscanned.tbindex.trans (Nat.zero_add _)
  obtain ⟨p, hend⟩ := lexanLoop_end hrest h.blanks
    (h.count.imp (fun hlt => by omega) And.right) hn'
  have hsize := h.reads.length
  refine ⟨_, hrun.trans hend, ⟨by simp only [hntok], by simp only [htb],
    hscanned.tokbuf, hscanned.tok, hscanned.toktyp⟩,
    fun k hk => ?_, fun k hk => ?_, fun k hk => ?_⟩
  · dsimp only at hk ⊢
    rw [hscanned.tokbuf]
    exact write_of_not_mem _ _ _ _ (Or.inr (by dsimp only; omega))
  · dsimp only
    rw [hscanned.tok]
    exact write_of_not_mem _ _ _ _ (Or.inr (by rw [offsets_length]; dsimp only; omega))
  · dsimp only
    rw [hscanned.toktyp]
    exact write_of_not_mem _ _ _ _ (Or.inr (by rw [List.length_map]; dsimp only; omega))

theorem lexan_rejected (hline : LineAt line 0 l) (hfuel : l.length < fuel)
    (h : Rejected l) :
    ∃ r, lexan line fuel tokbuf tok toktyp = some r ∧ r.ret = SYSERR.toInt ∧
      Bounded r tokbuf tok toktyp l.length := by
  obtain ⟨n, rfl⟩ := Nat.exists_eq_add_one_of_ne_zero (Nat.ne_of_gt (Nat.zero_lt_of_lt hfuel))
  obtain ⟨toks, rest, hreads, hcases⟩ := h
  have hle : toks.length ≤ SHELL_MAXTOK := by
    rcases hcases with ⟨heq, -⟩ | ⟨hlt, -⟩
    · exact heq.le
    · exact hlt.le
  obtain ⟨n', τ, hrun, hscanned, hrest, hn'⟩ := lexanLoop_tokens (n := n)
    (σ := ⟨0, 0, 0, tokbuf, tok, toktyp⟩) hreads hline
    (by rw [Nat.zero_add]; exact hle) (by omega)
  have hntok : τ.ntok = toks.length := hscanned.ntok.trans (Nat.zero_add _)
  have htb : τ.tbindex = (toks.flatMap Token.stored).length :=
    hscanned.tbindex.trans (Nat.zero_add _)
  have hsize := hreads.length
  have htokbuf : ∀ k ≥ τ.tbindex, τ.tokbuf k = tokbuf k := by
    intro k hk
    rw [hscanned.tokbuf]
    exact write_of_not_mem _ _ _ _ (Or.inr (by dsimp only; omega))
  have htok : ∀ k ≥ SHELL_MAXTOK, τ.tok k = tok k := by
    intro k hk
    rw [hscanned.tok]
    exact write_of_not_mem _ _ _ _ (Or.inr (by rw [offsets_length]; dsimp only; omega))
  have htoktyp : ∀ k ≥ SHELL_MAXTOK, τ.toktyp k = toktyp k := by
    intro k hk
    rw [hscanned.toktyp]
    exact write_of_not_mem _ _ _ _ (Or.inr (by rw [List.length_map]; dsimp only; omega))
  rcases hcases with ⟨heq, hne⟩ | ⟨hlt, hstuck⟩
  · refine ⟨_, hrun.trans (lexanLoop_full hrest hne (by omega)), rfl,
      fun k hk => ?_, htok, htoktyp⟩
    exact htokbuf k (by dsimp only at hk; omega)
  · obtain ⟨υ, hstop, hunfinished⟩ := lexanLoop_stuck hrest hstuck (by omega) hn'
    refine ⟨_, hrun.trans hstop, rfl, fun k hk => ?_, fun k hk => ?_, fun k hk => ?_⟩
    · dsimp only at hk ⊢
      rw [hunfinished.ntok] at hk
      rw [hunfinished.tokbuf k (Or.inr (by omega))]
      exact htokbuf k (by omega)
    · exact (hunfinished.tok k (by omega)).trans (htok k hk)
    · exact (hunfinished.toktyp k (by omega)).trans (htoktyp k hk)

theorem accepted_of_not_rejected (hline : LineAt line 0 l) (h : ¬ Rejected l) :
    ∃ toks rest, Accepted l toks rest := by
  obtain ⟨toks, rest, hreads, hle, hfull | hstuck | ⟨hblanks, hcount⟩⟩ :=
    accepted_or_rejected SHELL_MAXTOK hline.not_isEnd_of_mem
  · exact absurd ⟨toks, rest, hreads, Or.inl hfull⟩ h
  · exact absurd ⟨toks, rest, hreads, Or.inr hstuck⟩ h
  · refine ⟨toks, rest, hreads, hblanks, ?_⟩
    by_cases hlt : toks.length < SHELL_MAXTOK
    · exact Or.inl hlt
    · exact Or.inr ⟨by omega, hcount.resolve_left hlt⟩

end Spec

/-- On every line that ends, `lexan` ends.  It returns `SYSERR` exactly for the
lines that are rejected, and for any other line the arrays describe its tokens;
in both cases it stays inside of the arrays. -/
theorem lexan_spec
    (line : Str) (l : List Ch) (fuel : ℕ) (tokbuf : Str) (tok toktyp : ℕ → ℤ)
    (hline : LineAt line 0 l) (hfuel : l.length < fuel) :
    ∃ r, lexan line fuel tokbuf tok toktyp = some r ∧
      (r.ret = SYSERR.toInt ↔ Rejected l) ∧
      (¬ Rejected l → ∃ toks rest, Accepted l toks rest) ∧
      (∀ toks rest, Accepted l toks rest → Describes r tokbuf tok toktyp toks) ∧
      Bounded r tokbuf tok toktyp l.length := by
  have hcount : ∀ toks : List Token, (toks.length : ℤ) ≠ SYSERR.toInt := by
    intro toks
    rw [show SYSERR.toInt = -1 from rfl]
    omega
  by_cases hrejected : Rejected l
  · obtain ⟨r, hrun, hret, hbounded⟩ :=
      lexan_rejected tokbuf tok toktyp hline hfuel hrejected
    refine ⟨r, hrun, iff_of_true hret hrejected, fun hno => absurd hrejected hno, ?_,
      hbounded⟩
    intro toks rest haccepted
    obtain ⟨r', hrun', hdescribes, -⟩ :=
      lexan_accepted tokbuf tok toktyp hline hfuel haccepted
    rw [hrun] at hrun'
    cases hrun'
    exact absurd (hdescribes.ret.symm.trans hret) (hcount toks)
  · obtain ⟨toks, rest, haccepted⟩ := accepted_of_not_rejected hline hrejected
    obtain ⟨r, hrun, hdescribes, hbounded⟩ :=
      lexan_accepted tokbuf tok toktyp hline hfuel haccepted
    refine ⟨r, hrun, iff_of_false ?_ hrejected, fun _ => ⟨toks, rest, haccepted⟩, ?_,
      hbounded⟩
    · rw [hdescribes.ret]
      exact hcount toks
    · intro toks' rest' haccepted'
      obtain ⟨r', hrun', hdescribes', -⟩ :=
        lexan_accepted tokbuf tok toktyp hline hfuel haccepted'
      rw [hrun] at hrun'
      cases hrun'
      exact hdescribes'

/-- The line `ls>f`, which is rejected, ended by a newline. -/
theorem lexan_spec_redirected_word :
    ∃ r, lexan (Namespace.ofList [0x6c, 0x73, 0x3e, 0x66, 0x0a]) 5 (fun _ => 0)
      (fun _ => 0) (fun _ => 0) = some r ∧ r.ret = SYSERR.toInt := by
  obtain ⟨r, hrun, hret, -⟩ :=
    lexan_spec (Namespace.ofList [0x6c, 0x73, 0x3e, 0x66, 0x0a]) [0x6c, 0x73, 0x3e, 0x66] 5
      (fun _ => 0) (fun _ => 0) (fun _ => 0) ⟨rfl, rfl, rfl, rfl, rfl, rfl, rfl, rfl, rfl⟩
      (by decide)
  refine ⟨r, hrun, hret.mpr ⟨[], [0x6c, 0x73, 0x3e, 0x66], .nil _, Or.inr ⟨by decide, ?_⟩⟩⟩
  exact @Stuck.word [] [0x6c, 0x73] [0x66] 0x3e (by simp) (by simp) (by decide)
    (by decide)

end Xinu.Lexan
