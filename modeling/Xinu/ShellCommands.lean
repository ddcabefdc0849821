import Xinu.CommandLines
import Xinu.ContextSwitch
import Xinu.ShellWait

/-!
# The commands of the shell

Behind `lexan` the shell takes a final ampersand and up to two redirections off
the end of the line.  What remains becomes the argument vector of the process
that `create` makes: `addargs` stores the tokens at the low end of the new
stack and puts the address of the vector in the place of a marker that `create`
has pushed.
-/

namespace Xinu.Shell

open ByteMemory Lexan ContextSwitch Kernel
open Namespace (Ch Str)

/-! ## shell.c -/

/-- The variables that the shell sets while it looks at the tokens; a file name
is given by its place in the token buffer. -/
structure Request where
  ntok : ℕ
  tlen : ℤ
  backgnd : Bool
  inname : Option ℤ
  outname : Option ℤ

section Parsing

variable (tok toktyp : ℕ → ℤ)

def background (ntok : ℕ) (tlen : ℤ) : Request :=
  if toktyp (ntok - 1) = SH_TOK_AMPER then ⟨ntok - 1, tlen - 2, true, none, none⟩
  else ⟨ntok, tlen, false, none, none⟩

/-- The test for a redirection, which shell.c has twice.  Only the second looks
whether a name is set already; for the first none is. -/
def redirect (r : Request) : Option Request :=
  if 3 ≤ r.ntok ∧ (toktyp (r.ntok - 2) = SH_TOK_LESS ∨
      toktyp (r.ntok - 2) = SH_TOK_GREATER) then
    if toktyp (r.ntok - 1) ≠ SH_TOK_OTHER then none
    else if toktyp (r.ntok - 2) = SH_TOK_LESS then
      if r.inname.isSome then none
      else some { r with
        inname := some (tok (r.ntok - 1)), ntok := r.ntok - 2, tlen := tok (r.ntok - 2) }
    else if r.outname.isSome then none
    else some { r with
      outname := some (tok (r.ntok - 1)), ntok := r.ntok - 2, tlen := tok (r.ntok - 2) }
  else some r

/-- The index at which the loop over the types stops. -/
def otherLoop : ℕ → ℕ → ℕ
  | 0, i => i
  | n + 1, i => if toktyp i ≠ SH_TOK_OTHER then i else otherLoop n (i + 1)

/-- From the check for an ampersand to the check of the types; `none` is a
syntax error. -/
def parse (ntok : ℕ) (tlen : ℤ) : Option Request :=
  (redirect tok toktyp (background toktyp ntok tlen)).bind fun r =>
    (redirect tok toktyp r).bind fun r =>
      if r.ntok = 0 ∨ otherLoop toktyp r.ntok 0 < r.ntok then none else some r

end Parsing

/-! ## addargs.c -/

/-- `memcpy` from the token buffer. -/
def copyBytes (mem : Memory) (dst : Word) (src : Str) (n : ℕ) : Memory := fun query =>
  if (query - dst).toNat < n then src (query - dst).toNat else mem query

def storeArgs (argloc argstr : Word) (tok : ℕ → ℤ) : ℕ → ℕ → Memory → Memory
  | 0, _, mem => mem
  | n + 1, i, mem => storeArgs argloc argstr tok n (i + 1)
      (write32 mem (argloc + BitVec.ofNat 32 (4 * i)) (argstr + BitVec.ofInt 32 (tok i)))

/-- The search for the marker, up to the base of the stack. -/
def searchLoop (mem : Memory) (dummy prstkbase : Word) : ℕ → Word → Option Word
  | 0, _ => none
  | n + 1, search =>
      if search.toNat < prstkbase.toNat then
        if read32 mem search = dummy then some search
        else searchLoop mem dummy prstkbase n (search + 4)
      else none

/-- `addargs` for a process with the given stack. -/
def addargs (prstkptr prstkbase prstklen : Word) (ntok : ℕ) (tok : ℕ → ℤ) (tlen : ℤ)
    (tokbuf : Str) (dummy : Word) (mem : Memory) : Memory × Word :=
  if ntok ≤ 0 ∨ tlen < 0 then (mem, SYSERR)
  else
    let aloc := prstkbase - prstklen + 4
    let argloc := (aloc + 3) &&& ~~~(3 : Word)
    let argstr := argloc + BitVec.ofNat 32 (4 * (ntok + 1))
    let mem := storeArgs argloc argstr tok ntok 0 mem
    let mem := write32 mem (argloc + BitVec.ofNat 32 (4 * ntok)) 0
    let mem := copyBytes mem argstr tokbuf tlen.toNat
    match searchLoop mem dummy prstkbase (prstklen.toNat / 4) prstkptr with
    | some search => (write32 mem search argloc, OK)
    | none => (mem, SYSERR)

/-- What the shell does with a line up to the call of `resume`: the memory with
the new stack, the status of `addargs` and the request.  The stack that
`create` gets has its last word at `saddr`; `none` when no process is created. -/
def startCommand (line : Str) (fuel : ℕ) (tokbuf : Str) (tok toktyp : ℕ → ℤ)
    (saddr funcaddr tmparg : Word) (mem : Memory) : Option (Memory × Word × Request) :=
  (lexan line fuel tokbuf tok toktyp).bind fun r =>
    if r.ret = SYSERR.toInt ∨ r.ret = 0 then none
    else
      (parse r.scan.tok r.scan.toktyp r.ret.toNat (r.tlen.getD 0)).map fun q =>
        let created := initStack mem saddr funcaddr [BitVec.ofNat 32 q.ntok, tmparg]
        let (mem, status) := addargs created.2 saddr SHELL_CMDSTK q.ntok r.scan.tok
          q.tlen r.scan.tokbuf tmparg created.1
        (mem, status, q)

/-! ## Commands -/

/-- A command line, token by token. -/
structure Command where
  words : List Token
  redirections : List (Token × Token)
  backgnd : Bool

namespace Command

def tokens (c : Command) : List Token :=
  c.words ++ c.redirections.flatMap (fun r => [r.1, r.2]) ++
    if c.backgnd then [.amper] else []

structure WellFormed (c : Command) : Prop where
  nonempty : c.words ≠ []
  words : ∀ t ∈ c.words, t.type = SH_TOK_OTHER
  redirections : ∀ r ∈ c.redirections,
    (r.1 = .less ∨ r.1 = .greater) ∧ r.2.type = SH_TOK_OTHER

end Command

/-- The bytes that the tokens take in the token buffer. -/
def size (ts : List Token) : ℕ := (ts.flatMap Token.stored).length

structure Arrays (tok toktyp : ℕ → ℤ) (toks : List Token) : Prop where
  tok : ∀ i < toks.length, tok i = size (toks.take i)
  toktyp : ∀ i (hi : i < toks.length), toktyp i = (toks.get ⟨i, hi⟩).type

/-- What is left of the request when the tokens behind `ts` are taken off. -/
structure Covers (r : Request) (ts : List Token) : Prop where
  ntok : r.ntok = ts.length
  tlen : r.tlen = size ts

section Parsing

variable {tok toktyp : ℕ → ℤ} {toks ts us : List Token} {r r' : Request}

theorem size_append (ts us : List Token) : size (ts ++ us) = size ts + size us := by
  unfold size
  rw [List.flatMap_append, List.length_append]

theorem Token.type_eq_amper {t : Token} (h : t.type = SH_TOK_AMPER) : t = .amper := by
  cases t with
  | amper => rfl
  | _ => exact absurd h (by simp only [Token.type]; decide)

theorem Token.type_eq_less {t : Token} (h : t.type = SH_TOK_LESS) : t = .less := by
  cases t with
  | less => rfl
  | _ => exact absurd h (by simp only [Token.type]; decide)

theorem Token.type_eq_greater {t : Token} (h : t.type = SH_TOK_GREATER) :
    t = .greater := by
  cases t with
  | greater => rfl
  | _ => exact absurd h (by simp only [Token.type]; decide)

theorem Arrays.get (h : Arrays tok toktyp (ts ++ us)) {i : ℕ} (hi : i < us.length) :
    toktyp (ts.length + i) = (us.get ⟨i, hi⟩).type := by
  rw [h.toktyp (ts.length + i) (by rw [List.length_append]; omega)]
  simp

theorem Arrays.place (h : Arrays tok toktyp (ts ++ us)) (hne : us ≠ []) :
    tok ts.length = size ts := by
  have hpos := List.length_pos_iff.mpr hne
  rw [h.tok ts.length (by rw [List.length_append]; omega), List.take_left]

theorem background_spec (h : Arrays tok toktyp toks) (hne : toks ≠ []) :
    ∃ ts, Covers (background toktyp toks.length (size toks)) ts ∧
      toks = ts ++ if (background toktyp toks.length (size toks)).backgnd then
        [.amper] else [] := by
  obtain ⟨ts, t, rfl⟩ : ∃ ts t, toks = ts ++ [t] :=
    ⟨toks.dropLast, toks.getLast hne, (List.dropLast_append_getLast hne).symm⟩
  have hlast : toktyp ((ts ++ [t]).length - 1) = t.type := by
    have := @Arrays.get _ _ ts [t] h 0 (by simp)
    simpa using this
  unfold background
  rw [hlast]
  by_cases hamper : t.type = SH_TOK_AMPER
  · rw [if_pos hamper]
    refine ⟨ts, ⟨by simp, ?_⟩, by rw [Token.type_eq_amper hamper]; rfl⟩
    rw [size_append, Token.type_eq_amper hamper]
    show ((size ts + 2 : ℕ) : ℤ) - 2 = size ts
    omega
  · rw [if_neg hamper]
    exact ⟨ts ++ [t], ⟨rfl, rfl⟩, by simp⟩

/-- A redirection takes two tokens off the end, or nothing. -/
theorem redirect_spec (h : Arrays tok toktyp (ts ++ us)) (hcovers : Covers r ts)
    (hr : redirect tok toktyp r = some r') :
    r'.backgnd = r.backgnd ∧ (Covers r' ts ∨
      ∃ ts' op name, ts = ts' ++ [op, name] ∧ Covers r' ts' ∧
        (op = .less ∨ op = .greater) ∧ name.type = SH_TOK_OTHER) := by
  unfold redirect at hr
  by_cases hop : 3 ≤ r.ntok ∧ (toktyp (r.ntok - 2) = SH_TOK_LESS ∨
      toktyp (r.ntok - 2) = SH_TOK_GREATER)
  · rw [if_pos hop] at hr
    obtain ⟨hcount, hredirect⟩ := hop
    rw [hcovers.ntok] at hcount
    obtain ⟨ts', op, name, rfl⟩ : ∃ ts' op name, ts = ts' ++ [op, name] := by
      refine ⟨ts.take (ts.length - 2), ts.get ⟨ts.length - 2, by omega⟩,
        ts.get ⟨ts.length - 1, by omega⟩, ?_⟩
      conv_lhs => rw [← List.take_append_drop (ts.length - 2) ts]
      congr 1
      rw [List.drop_eq_getElem_cons (by omega), List.drop_eq_getElem_cons (by omega),
        List.drop_eq_nil_of_le (by omega)]
      simp only [List.get_eq_getElem, show ts.length - 2 + 1 = ts.length - 1 by omega]
    have hlen : r.ntok - 2 = ts'.length := by
      rw [hcovers.ntok, List.length_append]
      simp
    have hlen' : r.ntok - 1 = ts'.length + 1 := by
      rw [hcovers.ntok, List.length_append]
      simp
    rw [List.append_assoc] at h
    have hopt : toktyp ts'.length = op.type := h.get (i := 0) (by simp)
    have hname : toktyp (ts'.length + 1) = name.type := h.get (i := 1) (by simp)
    have hplace : tok ts'.length = size ts' := h.place (by simp)
    rw [hlen, hlen', hopt, hname, hplace] at hr
    rw [hlen, hopt] at hredirect
    by_cases hother : name.type = SH_TOK_OTHER
    · rw [if_neg (not_not.mpr hother)] at hr
      have hkind : op = .less ∨ op = .greater :=
        hredirect.imp Token.type_eq_less Token.type_eq_greater
      split_ifs at hr <;> cases hr <;>
        exact ⟨rfl, Or.inr ⟨ts', op, name, rfl, ⟨rfl, rfl⟩, hkind, hother⟩⟩
    · rw [if_pos hother] at hr
      contradiction
  · rw [if_neg hop] at hr
    cases hr
    exact ⟨rfl, Or.inl hcovers⟩

theorem otherLoop_spec (n i : ℕ) :
    (∀ k, i ≤ k → k < i + n → toktyp k = SH_TOK_OTHER) ∨
      otherLoop toktyp n i < i + n := by
  induction n generalizing i with
  | zero => exact Or.inl fun k hk hk' => absurd hk' (by omega)
  | succ n ih =>
      rw [otherLoop]
      by_cases htype : toktyp i = SH_TOK_OTHER
      · rw [if_neg (not_not.mpr htype)]
        refine (ih (i + 1)).imp (fun hall k hk hk' => ?_) fun hlt => by omega
        by_cases hki : k = i
        · rw [hki, htype]
        · exact hall k (by omega) (by omega)
      · rw [if_pos htype]
        exact Or.inr (by omega)

/-- What the shell accepts is a command with its redirections. -/
theorem parse_spec (h : Arrays tok toktyp toks) (hne : toks ≠ [])
    (hparse : parse tok toktyp toks.length (size toks) = some r) :
    ∃ c : Command, c.tokens = toks ∧ c.WellFormed ∧ c.backgnd = r.backgnd ∧
      Covers r c.words := by
  obtain ⟨ts, hcovers, htoks⟩ := background_spec h hne
  unfold parse at hparse
  obtain ⟨r₁, hr₁, hparse⟩ := Option.bind_eq_some_iff.mp hparse
  obtain ⟨r₂, hr₂, hparse⟩ := Option.bind_eq_some_iff.mp hparse
  rw [htoks] at h
  obtain ⟨hback₁, hcase₁⟩ := redirect_spec h hcovers hr₁
  split_ifs at hparse with hbad
  cases hparse
  push Not at hbad
  -- the tokens that are left and the redirections behind them
  have hleft : ∃ (words : List Token) (redirections : List (Token × Token)), ts = words ++
      redirections.flatMap (fun p => [p.1, p.2]) ∧
        Covers r words ∧ r.backgnd = r₁.backgnd ∧ ∀ p ∈ redirections,
          (p.1 = .less ∨ p.1 = .greater) ∧ p.2.type = SH_TOK_OTHER := by
    rcases hcase₁ with hsame₁ | ⟨ts₁, op₁, name₁, rfl, hcovers₁, hop₁, hname₁⟩
    · obtain ⟨hback₂, hsame₂ | ⟨ts₂, op₂, name₂, rfl, hcovers₂, hop₂, hname₂⟩⟩ :=
        redirect_spec h hsame₁ hr₂
      · exact ⟨ts, [], by simp, hsame₂, hback₂, by simp⟩
      · exact ⟨ts₂, [(op₂, name₂)], by simp, hcovers₂, hback₂,
          by simpa using ⟨hop₂, hname₂⟩⟩
    · rw [List.append_assoc] at h
      obtain ⟨hback₂, hsame₂ | ⟨ts₂, op₂, name₂, rfl, hcovers₂, hop₂, hname₂⟩⟩ :=
        redirect_spec h hcovers₁ hr₂
      · exact ⟨ts₁, [(op₁, name₁)], by simp, hsame₂, hback₂,
          by simpa using ⟨hop₁, hname₁⟩⟩
      · refine ⟨ts₂, [(op₂, name₂), (op₁, name₁)], by simp, hcovers₂, hback₂, ?_⟩
        intro p hp
        rcases List.mem_cons.mp hp with rfl | hp
        · exact ⟨hop₂, hname₂⟩
        · rw [List.mem_singleton.mp hp]
          exact ⟨hop₁, hname₁⟩
  obtain ⟨words, redirections, rfl, hcovers₂, hback₂, hredirections⟩ := hleft
  refine ⟨⟨words, redirections, r.backgnd⟩, ?_, ⟨?_, ?_, hredirections⟩, rfl, hcovers₂⟩
  · rw [htoks, Command.tokens, hback₂, hback₁]
  · intro (hnil : words = [])
    exact hbad.1 (by rw [hcovers₂.ntok, hnil]; rfl)
  · have hall := (@otherLoop_spec toktyp r.ntok 0).resolve_right
      (by rw [Nat.zero_add]; omega)
    intro t ht
    obtain ⟨i, hi, rfl⟩ := List.mem_iff_getElem.mp ht
    have hlt : i < words.length := hi
    have hi' : i < r.ntok := by
      rw [hcovers₂.ntok]
      exact hi
    have htype := hall i (Nat.zero_le i) (by omega)
    rw [List.append_assoc] at h
    rw [h.toktyp i (by rw [List.length_append]; omega)] at htype
    simpa [List.getElem_append_left hi] using htype

end Parsing

/-! ## The new stack -/

def SHELL_BUFLEN : ℕ := 129

/-- Where the marker, the code and the new stack lie.  The heap, from which all
stacks come, begins behind the image of the kernel, and the variable `tmparg`
is on the stack of the shell. -/
structure Layout (minheap saddr funcaddr tmparg : Word) : Prop where
  aligned : Aligned saddr
  image : INITRET.toNat < minheap.toNat
  code : funcaddr.toNat < minheap.toNat
  heap : minheap.toNat + SHELL_CMDSTK.toNat ≤ saddr.toNat + 4
  marker : minheap.toNat ≤ tmparg.toNat
  apart : tmparg.toNat + SHELL_CMDSTK.toNat < saddr.toNat + 4 ∨
    saddr.toNat + 4 ≤ tmparg.toNat

/-- The lowest word of the stack, where `addargs` puts the vector. -/
def argloc (saddr : Word) : Word := saddr - SHELL_CMDSTK + 4

/-- How far above it the frame of the new process begins. -/
def FRAME : ℕ := 8132

/-- The stack of a process that is about to run with the tokens as arguments:
the frame is the one that `create` makes for a function of the count and the
vector, the entries of the vector point to the tokens, each with its null byte,
and the strings lie between the vector and the frame. -/
structure Started (mem : Memory) (saddr funcaddr : Word) (ts : List Token) : Prop where
  lowest : (argloc saddr).toNat + SHELL_CMDSTK.toNat = saddr.toNat + 4
  words : WordsAt mem (argloc saddr + BitVec.ofNat 32 FRAME)
    (firstSaved saddr funcaddr [BitVec.ofNat 32 ts.length, argloc saddr]).words
  entry : ∀ i (hi : i < ts.length), ∃ place : ℕ,
    read32 mem (argloc saddr + BitVec.ofNat 32 (4 * i)) =
        argloc saddr + BitVec.ofNat 32 place ∧
      4 * (ts.length + 1) ≤ place ∧
      place + (ts.get ⟨i, hi⟩).stored.length ≤ FRAME ∧
      ∀ j (hj : j < (ts.get ⟨i, hi⟩).stored.length),
        mem (argloc saddr + BitVec.ofNat 32 (place + j)) =
          (ts.get ⟨i, hi⟩).stored.get ⟨j, hj⟩
  null : read32 mem (argloc saddr + BitVec.ofNat 32 (4 * ts.length)) = 0

section Stack

variable {mem : Memory} {low argstr saddr funcaddr tmparg minheap dummy base sp : Word}
  {tok : ℕ → ℤ} {tokbuf src : Str} {n : ℕ} {ws : List Word}

theorem storeArgs_read (hlow : Aligned low) (n i k : ℕ) (mem : Memory)
    (hn : 4 * (i + n) < 2 ^ 32) (hk : 4 * k < 2 ^ 32) :
    read32 (storeArgs low argstr tok n i mem) (low + BitVec.ofNat 32 (4 * k)) =
      if i ≤ k ∧ k < i + n then argstr + BitVec.ofInt 32 (tok k)
      else read32 mem (low + BitVec.ofNat 32 (4 * k)) := by
  induction n generalizing i mem with
  | zero => rw [storeArgs, if_neg (by omega)]
  | succ n ih =>
      rw [storeArgs, ih (i + 1) _ (by omega),
        read32_write32_aligned mem _ (aligned_add hlow i) (aligned_add hlow k)]
      by_cases heq : k = i
      · subst heq
        rw [if_neg (by omega), if_pos rfl, if_pos (by omega)]
      · rw [if_neg (offset_ne (by omega) (by omega) heq)]
        by_cases hin : i + 1 ≤ k ∧ k < i + 1 + n
        · rw [if_pos hin, if_pos (by omega)]
        · rw [if_neg hin, if_neg (by omega)]

theorem copyBytes_read {d k : ℕ} (hd : d + n ≤ 8192) (hk : 4 * k + 4 ≤ 8192)
    (hfar : 4 * k + 4 ≤ d ∨ d + n ≤ 4 * k) :
    read32 (copyBytes mem (low + BitVec.ofNat 32 d) src n)
        (low + BitVec.ofNat 32 (4 * k)) =
      read32 mem (low + BitVec.ofNat 32 (4 * k)) := by
  refine read32_congr fun offset hoffset => if_neg ?_
  bv_omega

theorem copyBytes_get {d j : ℕ} (hd : d + n ≤ 8192) (hj : j < n) :
    copyBytes mem (low + BitVec.ofNat 32 d) src n (low + BitVec.ofNat 32 (d + j)) =
      src j := by
  have hsub : (low + BitVec.ofNat 32 (d + j) - (low + BitVec.ofNat 32 d)).toNat = j := by
    bv_omega
  unfold copyBytes
  rw [hsub, if_pos hj]

theorem write32_below {d k : ℕ} {x : Word} (hd : d < k) (hk : k ≤ 8192) :
    write32 mem (low + BitVec.ofNat 32 k) x (low + BitVec.ofNat 32 d) =
      mem (low + BitVec.ofNat 32 d) := by
  refine write32_of_far _ _ _ _ ?_
  bv_omega

/-- The search stops at the first word that is the marker. -/
theorem searchLoop_spec (h : WordsAt mem sp ws) {i : ℕ} (hi : i < ws.length)
    (hfirst : ∀ j (hj : j < ws.length), j < i → ws.get ⟨j, hj⟩ ≠ dummy)
    (hat : ws.get ⟨i, hi⟩ = dummy)
    (hbase : ∀ j ≤ i, (sp + BitVec.ofNat 32 (4 * j)).toNat < base.toNat)
    (n k : ℕ) (hk : k ≤ i) (hn : i < k + n) :
    searchLoop mem dummy base n (sp + BitVec.ofNat 32 (4 * k)) =
      some (sp + BitVec.ofNat 32 (4 * i)) := by
  induction n generalizing k with
  | zero => omega
  | succ n ih =>
      rw [searchLoop, if_pos (hbase k hk), h k (by omega)]
      by_cases hlast : k = i
      · subst hlast
        rw [if_pos hat]
      · rw [if_neg (hfirst k (by omega) (by omega)),
          show sp + BitVec.ofNat 32 (4 * k) + 4 = sp + BitVec.ofNat 32 (4 * (k + 1)) by
            rw [show 4 * (k + 1) = 4 * k + 4 by omega, BitVec.ofNat_add, BitVec.add_assoc]
            rfl]
        exact ih (k + 1) (by omega) (by omega)

theorem roundWord (x : Word) (hx : Aligned x) : (x + 3) &&& ~~~(3 : Word) = x := by
  have hshift : ∀ y : Word, y &&& ~~~(3 : Word) = (y >>> 2) <<< 2 := by
    intro y
    apply BitVec.eq_of_getLsbD_eq
    intro i hi
    interval_cases i <;> simp
  unfold Aligned at hx
  apply BitVec.eq_of_toNat_eq
  rw [hshift, BitVec.toNat_shiftLeft, BitVec.toNat_ushiftRight, Nat.shiftLeft_eq,
    Nat.shiftRight_eq_div_pow]
  bv_omega

theorem Layout.argloc_toNat (h : Layout minheap saddr funcaddr tmparg) :
    (argloc saddr).toNat + 8192 = saddr.toNat + 4 := by
  have hheap := h.heap
  have hsize : SHELL_CMDSTK = 8192 := rfl
  rw [hsize] at hheap
  unfold argloc
  rw [hsize]
  bv_omega

theorem Layout.argloc_aligned (h : Layout minheap saddr funcaddr tmparg) :
    Aligned (argloc saddr) := by
  have haligned := h.aligned
  have hlow := h.argloc_toNat
  unfold Aligned at haligned ⊢
  omega

theorem frame_sp (args : List Word) (hargs : args.length = 2) :
    (firstSaved saddr funcaddr args).sp = argloc saddr + BitVec.ofNat 32 FRAME := by
  rw [firstSaved_sp, hargs]
  unfold argloc FRAME SHELL_CMDSTK
  bv_omega

/-- No word below the second argument is the marker. -/
theorem Layout.marker_first (h : Layout minheap saddr funcaddr tmparg) (hn : n ≤ 32)
    (j : ℕ)
    (hj : j < (firstSaved saddr funcaddr [BitVec.ofNat 32 n, tmparg]).words.length)
    (hj13 : j < 13) :
    (firstSaved saddr funcaddr [BitVec.ofNat 32 n, tmparg]).words.get ⟨j, hj⟩ ≠
      tmparg := by
  have hlow := h.argloc_toNat
  have himage := h.image
  have hcode := h.code
  have hmarker := h.marker
  have happart := h.apart
  have hret : INITRET.toNat = 0x10479B := rfl
  have hsize : SHELL_CMDSTK.toNat = 8192 := rfl
  rw [hsize] at happart
  rw [hret] at himage
  have hlist : (firstSaved saddr funcaddr [BitVec.ofNat 32 n, tmparg]).words =
      [0, 0, saddr - 16 - 4, saddr - 56, 0, 0, 0, 0, 0x200, saddr, funcaddr, INITRET,
        BitVec.ofNat 32 n, tmparg, STACKMAGIC] := rfl
  simp only [hlist, List.get_eq_getElem]
  have hne : ∀ x : Word, x.toNat ≠ tmparg.toNat → x ≠ tmparg :=
    fun x hx heq => hx (congrArg BitVec.toNat heq)
  have hinitret : INITRET.toNat ≠ tmparg.toNat := by
    rw [hret]
    omega
  interval_cases j <;> refine hne _ ?_ <;> simp only [List.getElem_cons_zero,
    List.getElem_cons_succ]
  all_goals first
    | exact hinitret
    | bv_omega

theorem stored_get (ts : List Token) {i j : ℕ} (hi : i < ts.length)
    (hj : j < (ts.get ⟨i, hi⟩).stored.length) :
    ∃ hlt : size (ts.take i) + j < (ts.flatMap Token.stored).length,
      (ts.flatMap Token.stored).get ⟨size (ts.take i) + j, hlt⟩ =
        (ts.get ⟨i, hi⟩).stored.get ⟨j, hj⟩ := by
  have hsplit : ts.flatMap Token.stored = (ts.take i).flatMap Token.stored ++
      ((ts.get ⟨i, hi⟩).stored ++ (ts.drop (i + 1)).flatMap Token.stored) := by
    conv_lhs => rw [← List.take_append_drop i ts, List.flatMap_append,
      List.drop_eq_getElem_cons hi, List.flatMap_cons]
    rfl
  have hlt : size (ts.take i) + j < (ts.flatMap Token.stored).length := by
    rw [hsplit, List.length_append, List.length_append]
    unfold size
    omega
  refine ⟨hlt, ?_⟩
  simp only [List.get_eq_getElem] at hj ⊢
  simp only [hsplit]
  unfold size
  rw [List.getElem_append_right (by omega), List.getElem_append_left (by simpa using hj)]
  simp

theorem size_take_le (ts : List Token) {i : ℕ} (hi : i < ts.length) :
    size (ts.take i) + (ts.get ⟨i, hi⟩).stored.length ≤ size ts := by
  have hsplit : ts = ts.take i ++ (ts.get ⟨i, hi⟩ :: ts.drop (i + 1)) := by
    conv_lhs => rw [← List.take_append_drop i ts, List.drop_eq_getElem_cons hi]
    rfl
  conv_rhs => rw [hsplit]
  rw [size_append]
  unfold size
  rw [List.flatMap_cons, List.length_append]
  omega

/-- The words of the stack that `addargs` has filled, outside the strings. -/
theorem filled_read {size k : ℕ} (hlow : Aligned low) (hn : n ≤ SHELL_MAXTOK)
    (hsize : 4 * (n + 1) + size ≤ 8192) (hk : 4 * k + 4 ≤ 8192)
    (hfar : 4 * k + 4 ≤ 4 * (n + 1) ∨ 4 * (n + 1) + size ≤ 4 * k) :
    read32 (copyBytes (write32 (storeArgs low argstr tok n 0 mem)
        (low + BitVec.ofNat 32 (4 * n)) 0) (low + BitVec.ofNat 32 (4 * (n + 1))) src size)
        (low + BitVec.ofNat 32 (4 * k)) =
      if k = n then 0
      else if k < n then argstr + BitVec.ofInt 32 (tok k)
      else read32 mem (low + BitVec.ofNat 32 (4 * k)) := by
  have hmax : SHELL_MAXTOK = 32 := rfl
  rw [copyBytes_read hsize hk hfar,
    read32_write32_aligned _ 0 (aligned_add hlow _) (aligned_add hlow k)]
  by_cases heq : k = n
  · rw [if_pos (by rw [heq]), if_pos heq]
  · rw [if_neg (offset_ne (by omega) (by omega) heq), if_neg heq,
      storeArgs_read hlow _ _ _ _ (by omega) (by omega)]
    by_cases hlt : k < n
    · rw [if_pos ⟨Nat.zero_le k, by omega⟩, if_pos hlt]
    · rw [if_neg (by omega), if_neg hlt]

/-- `addargs` on the stack that `create` has just laid out. -/
theorem addargs_spec (h : Layout minheap saddr funcaddr tmparg) (ts : List Token)
    (hne : ts ≠ []) (hcount : ts.length ≤ SHELL_MAXTOK) (hsize : size ts ≤ 161)
    (htok : ∀ i < ts.length, tok i = size (ts.take i))
    (htokbuf : ∀ k (hk : k < (ts.flatMap Token.stored).length),
      tokbuf k = (ts.flatMap Token.stored).get ⟨k, hk⟩) :
    let created := initStack mem saddr funcaddr [BitVec.ofNat 32 ts.length, tmparg]
    ∃ mem', addargs created.2 saddr SHELL_CMDSTK ts.length tok (size ts) tokbuf tmparg
        created.1 = (mem', OK) ∧ Started mem' saddr funcaddr ts := by
  intro created
  have hpos := List.length_pos_iff.mpr hne
  have hlow := h.argloc_aligned
  have hplace := h.argloc_toNat
  have hmax : SHELL_MAXTOK = 32 := rfl
  have hframe : FRAME = 8132 := rfl
  have hsp : created.2 = argloc saddr + BitVec.ofNat 32 FRAME :=
    initStack_sp.trans (frame_sp _ rfl)
  -- the frame lies above the vector and the strings
  have hup : ∀ j, argloc saddr + BitVec.ofNat 32 FRAME + BitVec.ofNat 32 (4 * j) =
      argloc saddr + BitVec.ofNat 32 (4 * (2033 + j)) := by
    intro j
    rw [show 4 * (2033 + j) = 8132 + 4 * j by omega, BitVec.ofNat_add, hframe,
      BitVec.add_assoc]
  set argstr := argloc saddr + BitVec.ofNat 32 (4 * (ts.length + 1)) with hargstr
  set mem₁ := storeArgs (argloc saddr) argstr tok ts.length 0 created.1 with hmem₁
  set mem₂ := write32 mem₁ (argloc saddr + BitVec.ofNat 32 (4 * ts.length)) 0 with hmem₂
  set mem₃ := copyBytes mem₂ argstr tokbuf (size ts) with hmem₃
  have hread : ∀ k, 4 * k + 4 ≤ 8192 →
      (4 * k + 4 ≤ 4 * (ts.length + 1) ∨ 4 * (ts.length + 1) + size ts ≤ 4 * k) →
      read32 mem₃ (argloc saddr + BitVec.ofNat 32 (4 * k)) =
        if k = ts.length then 0
        else if k < ts.length then argstr + BitVec.ofInt 32 (tok k)
        else read32 created.1 (argloc saddr + BitVec.ofNat 32 (4 * k)) :=
    fun k hk hfar => filled_read hlow hcount (by omega) hk hfar
  have hwords : WordsAt mem₃ (argloc saddr + BitVec.ofNat 32 FRAME)
      (firstSaved saddr funcaddr [BitVec.ofNat 32 ts.length, tmparg]).words := by
    have hfirst := @initStack_words mem _ funcaddr
      [BitVec.ofNat 32 ts.length, tmparg] h.aligned (by simp)
    rw [frame_sp _ rfl] at hfirst
    refine hfirst.congr fun j hj => ?_
    have hj15 : j < 15 := hj
    rw [hup, hread (2033 + j) (by omega) (Or.inr (by omega)), if_neg (by omega),
      if_neg (by omega)]
  have hlen : (firstSaved saddr funcaddr
      [BitVec.ofNat 32 ts.length, tmparg]).words.length = 15 := rfl
  have hsearch := @searchLoop_spec _ _ saddr _ _ hwords 13 (by omega)
    (fun j hj hj13 => h.marker_first (by omega) j hj hj13) rfl
    (fun j hj => by
      rw [hup]
      bv_omega) 2048 0 (Nat.zero_le _) (by omega)
  rw [Nat.mul_zero, BitVec.add_zero, hup] at hsearch
  refine ⟨write32 mem₃ (argloc saddr + BitVec.ofNat 32 (4 * (2033 + 13))) (argloc saddr),
    ?_, hplace, ?_, fun i hi => ?_, ?_⟩
  · unfold addargs
    have hround : (saddr - SHELL_CMDSTK + 4 + 3) &&& ~~~(3 : Word) = argloc saddr :=
      roundWord _ hlow
    rw [if_neg (by omega), hsp, Int.toNat_natCast]
    dsimp only
    rw [hround, ← hargstr, ← hmem₁, ← hmem₂, ← hmem₃,
      show SHELL_CMDSTK.toNat / 4 = 2048 from rfl, hsearch]
  · have hset := hwords.set (x := argloc saddr) (aligned_add hlow 2033)
      (by omega) (i := 13) (by omega)
    rw [hup] at hset
    exact hset
  · have := size_take_le ts hi
    refine ⟨4 * (ts.length + 1) + size (ts.take i), ?_, by omega, by omega,
      fun j hj => ?_⟩
    · rw [read32_write32_aligned mem₃ _ (aligned_add hlow _) (aligned_add hlow i),
        if_neg (offset_ne (by omega) (by omega) (by omega)),
        hread i (by omega) (Or.inl (by omega)), if_neg (by omega), if_pos hi, htok i hi,
        hargstr, BitVec.ofInt_natCast, BitVec.add_assoc, ← BitVec.ofNat_add]
    · obtain ⟨hlt, hget⟩ := stored_get ts hi hj
      rw [write32_below (by omega) (by omega), hmem₃, hargstr, Nat.add_assoc,
        copyBytes_get (by omega) (show _ < size ts from hlt), htokbuf _ hlt, hget]
  · rw [read32_write32_aligned mem₃ _ (aligned_add hlow _) (aligned_add hlow _),
      if_neg (offset_ne (by omega) (by omega) (by omega)),
      hread ts.length (by omega) (Or.inl le_rfl), if_pos rfl]

end Stack

section Lines

variable {line : Str} {l rest : List Ch} {toks : List Token} {fuel : ℕ} {r : Result}
  {tokbuf : Str} {tok toktyp : ℕ → ℤ}

theorem offsets_get (base : ℕ) (toks : List Token) {i : ℕ}
    (hi : i < (offsets base toks).length) :
    (offsets base toks).get ⟨i, hi⟩ = base + size (toks.take i) := by
  induction toks generalizing base i with
  | nil => exact absurd hi (Nat.not_lt_zero i)
  | cons t toks ih =>
      cases i with
      | zero => simp [offsets, size]
      | succ i =>
          have := ih (base + t.stored.length) (i := i)
            (Nat.lt_of_succ_lt_succ hi)
          simp only [offsets, List.get_eq_getElem, List.getElem_cons_succ,
            List.take_succ_cons] at this ⊢
          rw [this]
          unfold size
          rw [List.flatMap_cons, List.length_append]
          push_cast
          omega

theorem arrays_of_describes (h : Describes r tokbuf tok toktyp toks) :
    Arrays r.scan.tok r.scan.toktyp toks where
  tok i hi := by
    have hi' : i < (offsets 0 toks).length := by rwa [offsets_length]
    have hget := write_get tok 0 i _ hi'
    rw [offsets_get, Nat.zero_add] at hget
    rw [h.tok, hget]
    simp
  toktyp i hi := by
    have hi' : i < (toks.map Token.type).length := by rwa [List.length_map]
    have hget := write_get toktyp 0 i _ hi'
    rw [Nat.zero_add] at hget
    rw [h.toktyp, hget]
    simp

/-- The words come first on the line, and their bytes first in the buffer. -/
theorem Command.words_prefix (c : Command) : c.words <+: c.tokens :=
  ⟨_, (List.append_assoc _ _ _).symm⟩

theorem Command.size_words {c : Command} (h : Accepted l c.tokens rest)
    (hlen : l.length ≤ SHELL_BUFLEN) : size c.words ≤ 161 := by
  have hcount : c.tokens.length ≤ SHELL_MAXTOK := by
    rcases h.count with hlt | ⟨hfull, -⟩
    · exact hlt.le
    · exact hfull.le
  obtain ⟨us, hus⟩ := c.words_prefix
  have hle := h.reads.length
  have hsum := size_append c.words us
  rw [hus] at hsum
  unfold SHELL_BUFLEN at hlen
  unfold SHELL_MAXTOK at hcount
  unfold size at hsum ⊢
  omega

theorem Command.tokbuf_words {c : Command} (h : Describes r tokbuf tok toktyp c.tokens)
    {k : ℕ} (hk : k < (c.words.flatMap Token.stored).length) :
    r.scan.tokbuf k = (c.words.flatMap Token.stored).get ⟨k, hk⟩ := by
  obtain ⟨us, hus⟩ := c.words_prefix
  have hflat : c.tokens.flatMap Token.stored =
      c.words.flatMap Token.stored ++ us.flatMap Token.stored := by
    rw [← hus, List.flatMap_append]
  have hk' : k < (c.tokens.flatMap Token.stored).length := by
    rw [hflat, List.length_append]
    omega
  have hget := write_get tokbuf 0 k _ hk'
  rw [Nat.zero_add] at hget
  rw [h.tokbuf, hget]
  simp only [List.get_eq_getElem, hflat]
  rw [List.getElem_append_left hk]

end Lines

/-- Whatever the shell accepts, the process that it creates has the words of the
command as its arguments. -/
theorem command_started
    (line : Str) (l : List Ch) (fuel : ℕ) (tokbuf : Str) (tok toktyp : ℕ → ℤ)
    (minheap saddr funcaddr tmparg : Word) (mem mem' : Memory) (status : Word)
    (q : Request) (hline : LineAt line 0 l) (hlen : l.length ≤ SHELL_BUFLEN)
    (hfuel : l.length < fuel) (hlayout : Layout minheap saddr funcaddr tmparg)
    (hstart : startCommand line fuel tokbuf tok toktyp saddr funcaddr tmparg mem =
      some (mem', status, q)) :
    ∃ (c : Command) (rest : List Ch), Accepted l c.tokens rest ∧ c.WellFormed ∧
      q.backgnd = c.backgnd ∧ q.ntok = c.words.length ∧ status = OK ∧
      Started mem' saddr funcaddr c.words := by
  have hrejected : ¬ Rejected l := by
    intro hrejected
    obtain ⟨r, hrun, hret, -⟩ := lexan_rejected tokbuf tok toktyp hline hfuel hrejected
    rw [startCommand, hrun, Option.bind_some, if_pos (Or.inl hret)] at hstart
    contradiction
  obtain ⟨toks, rest, haccepted⟩ := accepted_of_not_rejected hline hrejected
  obtain ⟨r, hrun, hdescribes, -⟩ := lexan_accepted tokbuf tok toktyp hline hfuel haccepted
  rw [startCommand, hrun, Option.bind_some] at hstart
  split_ifs at hstart with hnone
  obtain ⟨q', hparse, heq⟩ := Option.map_eq_some_iff.mp hstart
  rw [hdescribes.ret, Int.toNat_natCast, hdescribes.tlen, Option.getD_some] at hparse
  have hne : toks ≠ [] := by
    rintro rfl
    exact hnone (Or.inr hdescribes.ret)
  obtain ⟨c, rfl, hwf, hbackgnd, hcovers⟩ :=
    parse_spec (arrays_of_describes hdescribes) hne hparse
  obtain ⟨us, hus⟩ := c.words_prefix
  have hcount : c.tokens.length ≤ SHELL_MAXTOK := by
    rcases haccepted.count with hlt | ⟨hfull, -⟩
    · exact hlt.le
    · exact hfull.le
  have hwords : c.words.length ≤ c.tokens.length := c.words_prefix.length_le
  obtain ⟨mem'', hadd, hstarted⟩ := @addargs_spec mem _ _ _ _ r.scan.tok
    r.scan.tokbuf hlayout c.words hwf.nonempty (by omega)
    (Command.size_words haccepted hlen)
    (fun i hi => by
      rw [(arrays_of_describes hdescribes).tok i (by omega), ← hus,
        List.take_append_of_le_length hi.le])
    fun k hk => Command.tokbuf_words hdescribes hk
  rw [hcovers.ntok, hcovers.tlen] at heq
  dsimp only at heq
  rw [hadd] at heq
  obtain ⟨rfl, rfl, rfl⟩ := heq
  exact ⟨c, rest, haccepted, hwf, hbackgnd.symm, hcovers.ntok, rfl, hstarted⟩

/-- The line `ls &`. -/
theorem command_started_ls :
    ∃ (mem : Memory) (q : Request) (c : Command), q.ntok = c.words.length ∧
      Started mem 0x300000 0x100200 c.words := by
  obtain ⟨⟨mem, status, q⟩, hstart⟩ := Option.isSome_iff_exists.mp
    (show (startCommand (Namespace.ofList [0x6c, 0x73, 0x20, 0x26, 0x0a]) 6 (fun _ => 0)
      (fun _ => 0) (fun _ => 0) 0x300000 0x100200 0x400000 (fun _ => 0)).isSome = true by
        decide)
  obtain ⟨c, -, -, -, -, hntok, -, hstarted⟩ := command_started
    (Namespace.ofList [0x6c, 0x73, 0x20, 0x26, 0x0a]) [0x6c, 0x73, 0x20, 0x26] 6 _ _ _
    0x200000 0x300000 0x100200 0x400000 _ mem status q
    ⟨rfl, rfl, rfl, rfl, rfl, rfl, rfl, rfl, rfl⟩ (by decide) (by decide)
    ⟨by decide, by decide, by decide, by decide, by decide, Or.inr (by decide)⟩ hstart
  exact ⟨mem, q, c, hntok, hstarted⟩

end Xinu.Shell
