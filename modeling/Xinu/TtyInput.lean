import Xinu.CountingSemaphore
import Xinu.RingBuffer
import Xinu.TransitionSystem

/-!
# Input from a tty line

One ring buffer serves raw, cbreak and cooked input.  In cooked mode the
characters of the current line stand behind those that readers may take, and
erasing and killing take them back.  A reader runs with interrupts disabled, so
a call of `ttygetc` can only be suspended where it waits.  What an arriving
character puts into the echo buffer belongs to the output side.
-/

namespace Xinu.TtyInput

open RingBuffer TransitionSystem

abbrev Ch := BitVec 8

def TY_IBUFLEN : ℤ := 128
def TY_NEWLINE : Ch := 0x0a
def TY_RETURN : Ch := 0x0d
def TY_BACKSP : Ch := 0x08
def TY_BACKSP2 : Ch := 0x7f
def TY_EOFCH : Ch := 0x04
def TY_KILLCH : Ch := 0x15
def TY_STOPCH : Ch := 0x13
def TY_STRTCH : Ch := 0x11

/-- `TY_IMRAW`, `TY_IMCOOKED` and `TY_IMCBREAK`. -/
inductive Mode
  | raw
  | cooked
  | cbreak
  deriving DecidableEq

inductive Getc
  | eof
  | char (ch : Ch)
  deriving DecidableEq

/-- The fields of `ttycblk` for input.  The last four record what readers have
got, the current line after editing, the characters that have been accepted
for readers, and those that readers have removed. -/
structure Ttyi where
  tyihead : ℤ
  tyitail : ℤ
  tyibuff : ℤ → Ch
  tyisem : CountingSemaphore ℤ
  tyimode : Mode
  tyicrlf : Bool
  tyierase : Bool
  tyierasec : Ch
  tyierasec2 : Ch
  tyeof : Bool
  tyeofch : Ch
  tyikill : Bool
  tyikillc : Ch
  tyicursor : ℤ
  tyoflow : Bool
  tyoheld : Bool
  tyostop : Ch
  tyostart : Ch
  returned : ℤ → Option Getc
  line : List Ch
  accepted : List Ch
  delivered : List Ch

/-- What becomes of an arriving character. -/
inductive Input
  | ignored
  | flow (held : Bool)
  | raw
  | cbreak
  | kill
  | erase
  | endOfLine
  | refused
  | eof
  | insert
  deriving DecidableEq

namespace Ttyi

variable (t : Ttyi)

/-! ## The lower half -/

/-- `semcount` of the input semaphore, or zero if processes wait. -/
def avail : ℤ := if t.tyisem.count < 0 then 0 else t.tyisem.count

/-- The character after the mapping of a return, which raw mode leaves out. -/
def mapped (ch : Ch) : Ch :=
  if t.tyimode ≠ .raw ∧ ch = TY_RETURN ∧ t.tyicrlf then TY_NEWLINE else ch

/-- The branch that `ttyhandle_in` takes for a mapped character. -/
def branch (ch : Ch) : Input :=
  if t.tyimode = .raw then
    if t.avail ≥ TY_IBUFLEN then .ignored else .raw
  else if t.tyoflow ∧ ch = t.tyostart then .flow false
  else if t.tyoflow ∧ ch = t.tyostop then .flow true
  else if t.tyimode = .cbreak then
    if t.avail ≥ TY_IBUFLEN then .refused else .cbreak
  else if ch = t.tyikillc ∧ t.tyikill then .kill
  else if (ch = t.tyierasec ∨ ch = t.tyierasec2) ∧ t.tyierase then .erase
  else if ch = TY_NEWLINE ∨ ch = TY_RETURN then .endOfLine
  else if t.avail + t.tyicursor ≥ TY_IBUFLEN - 1 then .refused
  else if ch = t.tyeofch ∧ t.tyeof then
    if t.tyicursor ≠ 0 then .refused else .eof
  else .insert

/-- `*tyitail++ = ch`, with the wrap. -/
def put (ch : Ch) : Ttyi :=
  { t with
    tyibuff := Function.update t.tyibuff t.tyitail ch
    tyitail := advance TY_IBUFLEN t.tyitail }

/-- Store a character without editing. -/
def direct (ch : Ch) : Ttyi :=
  let t := t.put ch
  { t with tyisem := t.tyisem.signal, accepted := t.accepted ++ [ch] }

def killLine : Ttyi :=
  { t with
    tyitail := retreat TY_IBUFLEN t.tyitail t.tyicursor.toNat
    tyicursor := 0
    line := [] }

def erase1 : Ttyi :=
  { t with
    tyitail := retreat TY_IBUFLEN t.tyitail 1
    line := t.line.dropLast }

/-- Make the line available. -/
def endLine (ch : Ch) : Ttyi :=
  let t := t.put ch
  { t with
    tyisem := CountingSemaphore.signaln (t.tyicursor + 1).toNat t.tyisem
    tyicursor := 0
    accepted := t.accepted ++ (t.line ++ [ch])
    line := [] }

/-- Store the end-of-file character, without the wrap. -/
def storeEof (ch : Ch) : Ttyi :=
  { t with
    tyibuff := Function.update t.tyibuff t.tyitail ch
    tyitail := t.tyitail + 1
    tyisem := t.tyisem.signal
    accepted := t.accepted ++ [ch] }

/-- Put a character into the current line. -/
def insert (ch : Ch) : Ttyi :=
  let t := t.put ch
  { t with tyicursor := t.tyicursor + 1, line := t.line ++ [ch] }

/-- `ttyhandle_in` for a character that the UART has received. -/
def ttyhandleIn (ch : Ch) : Ttyi :=
  let ch := t.mapped ch
  match t.branch ch with
  | .ignored => t
  | .flow held => { t with tyoheld := held }
  | .raw => t.direct ch
  | .cbreak => ({ t with tyoheld := false }).direct ch
  | .kill => ({ t with tyoheld := false }).killLine
  | .erase =>
      if t.tyicursor > 0 then
        ({ t with tyoheld := false, tyicursor := t.tyicursor - 1 }).erase1
      else { t with tyoheld := false }
  | .endOfLine => ({ t with tyoheld := false }).endLine ch
  | .refused => { t with tyoheld := false }
  | .eof => ({ t with tyoheld := false }).storeEof ch
  | .insert => ({ t with tyoheld := false }).insert ch

/-! ## The upper half -/

/-- The end of `ttygetc`, which removes the character at the head. -/
def remove (pid : ℤ) : Ttyi :=
  let ch := t.tyibuff t.tyihead
  let value := if t.tyimode = .cooked ∧ t.tyeof ∧ ch = t.tyeofch then Getc.eof
    else .char ch
  { t with
    tyihead := advance TY_IBUFLEN t.tyihead
    tyisem := t.tyisem.goOn pid
    returned := Function.update t.returned pid (some value)
    delivered := t.delivered ++ [ch] }

/-- `ttygetc` up to the place where it may have to wait, or to its end. -/
def ttygetc (pid : ℤ) : Ttyi :=
  let t : Ttyi := { t with tyisem := t.tyisem.wait pid }
  if t.tyisem.count < 0 then t else t.remove pid

/-- The functions of `ttycontrol` that set the mode. -/
def setMode (mode : Mode) : Ttyi := { t with tyimode := mode }

end Ttyi

inductive TtyiAction
  | arrive (ch : Ch)
  | getc (pid : ℤ)
  | resume (pid : ℤ)
  | mode (mode : Mode)

/-- One step: a character arrives, a reader calls `ttygetc`, a reader that was
let through goes on, or the mode changes. -/
def ttyiStep (t : Ttyi) : TtyiAction → Option Ttyi
  | .arrive ch => some (t.ttyhandleIn ch)
  | .getc pid =>
      if pid ∈ t.tyisem.waiting ∨ pid ∈ t.tyisem.passed then none
      else some (t.ttygetc pid)
  | .resume pid => if pid ∈ t.tyisem.passed then some (t.remove pid) else none
  | .mode mode => some (t.setMode mode)

def ttyInit : Ttyi where
  tyihead := 0
  tyitail := 0
  tyibuff _ := 0
  tyisem := .init 0
  tyimode := .cooked
  tyicrlf := true
  tyierase := true
  tyierasec := TY_BACKSP
  tyierasec2 := TY_BACKSP2
  tyeof := true
  tyeofch := TY_EOFCH
  tyikill := true
  tyikillc := TY_KILLCH
  tyicursor := 0
  tyoflow := true
  tyoheld := false
  tyostop := TY_STOPCH
  tyostart := TY_STRTCH
  returned _ := none
  line := []
  accepted := []
  delivered := []

/-- The buffer holds the accepted characters that no reader has removed and
behind them the current line, whose length is `tyicursor`; the semaphore
stands for the former. -/
structure InputLaw (t : Ttyi) : Prop where
  tail_inside : 0 ≤ t.tyitail ∧ t.tyitail < TY_IBUFLEN
  buffer : ∃ committed, t.accepted = t.delivered ++ committed ∧
    Holds TY_IBUFLEN t.tyibuff t.tyihead t.tyitail (committed ++ t.line) ∧
    (committed.length : ℤ) = t.tyisem.count + t.tyisem.inside
  cursor : t.tyicursor = t.line.length

/-- The number of characters that are stored and not removed. -/
def Ttyi.held (t : Ttyi) : ℤ :=
  (t.accepted.length : ℤ) - t.delivered.length + t.line.length

/-- A character that is stored finds a free cell, an end of file is not put
into the last cell of the array, and no character is stored without editing
behind an unfinished line. -/
def Fits (t : Ttyi) : Input → Prop
  | .raw | .cbreak => t.held < TY_IBUFLEN ∧ t.tyicursor = 0
  | .eof => t.held < TY_IBUFLEN ∧ t.tyitail ≠ TY_IBUFLEN - 1
  | .endOfLine | .insert => t.held < TY_IBUFLEN
  | .ignored | .flow _ | .kill | .erase | .refused => True

instance (t : Ttyi) (input : Input) : Decidable (Fits t input) := by
  cases input <;> unfold Fits <;> infer_instance

def AllFit (t : Ttyi) : TtyiAction → Prop
  | .arrive ch => Fits t (t.branch (t.mapped ch))
  | _ => True

instance (t : Ttyi) (action : TtyiAction) : Decidable (AllFit t action) := by
  cases action <;> unfold AllFit <;> infer_instance

/-! ## The invariant -/

section Law

variable {t t' : Ttyi} {action : TtyiAction} {pid : ℤ} {ch : Ch}
  {committed : List Ch}

structure InInv (t : Ttyi) (committed : List Ch) : Prop where
  accepted : t.accepted = t.delivered ++ committed
  holds : Holds TY_IBUFLEN t.tyibuff t.tyihead t.tyitail (committed ++ t.line)
  cursor : t.tyicursor = t.line.length
  sound : t.tyisem.Sound
  counted : (committed.length : ℤ) = t.tyisem.count + t.tyisem.inside

theorem InInv.law (h : InInv t committed) : InputLaw t where
  tail_inside := h.holds.tail_inRange
  buffer := ⟨committed, h.accepted, h.holds, h.counted⟩
  cursor := h.cursor

theorem InInv.held_eq (h : InInv t committed) :
    t.held = ((committed ++ t.line).length : ℤ) := by
  unfold Ttyi.held
  rw [h.accepted, List.length_append, List.length_append]
  push_cast
  ring

/-- Output that is held or released does not concern the input. -/
theorem InInv.hold (h : InInv t committed) (held : Bool) :
    InInv { t with tyoheld := held } committed :=
  ⟨h.accepted, h.holds, h.cursor, h.sound, h.counted⟩

theorem InInv.direct
    (h : InInv t committed) (hroom : t.held < TY_IBUFLEN)
    (hcursor : t.tyicursor = 0) :
    InInv (t.direct ch) (committed ++ [ch]) := by
  rw [h.held_eq] at hroom
  have hline : t.line = [] := by
    apply List.eq_nil_of_length_eq_zero
    have hlen := h.cursor
    omega
  have hholds := h.holds.put (x := ch) hroom
  have hcounted := h.counted
  refine ⟨?_, ?_, h.cursor, h.sound.signal, ?_⟩
  · show t.accepted ++ [ch] = t.delivered ++ (committed ++ [ch])
    rw [h.accepted, List.append_assoc]
  · rw [hline, List.append_nil] at hholds
    show Holds _ _ _ _ ((committed ++ [ch]) ++ t.line)
    rw [hline, List.append_nil]
    exact hholds
  · show (((committed ++ [ch]).length : ℕ) : ℤ) =
      t.tyisem.signal.count + t.tyisem.signal.inside
    rw [CountingSemaphore.count_signal, CountingSemaphore.inside_signal,
      List.length_append, List.length_singleton]
    push_cast
    omega

theorem InInv.killLine (h : InInv t committed) :
    InInv t.killLine committed where
  accepted := h.accepted
  holds := by
    show Holds _ _ _ (retreat TY_IBUFLEN t.tyitail t.tyicursor.toNat)
      (committed ++ [])
    rw [h.cursor, Int.toNat_natCast, List.append_nil]
    exact h.holds.unput
  cursor := rfl
  sound := h.sound
  counted := h.counted

theorem InInv.erase1 (h : InInv t committed) (hcursor : t.tyicursor > 0) :
    InInv ({ t with tyoheld := false, tyicursor := t.tyicursor - 1 }).erase1
      committed := by
  have hlen := h.cursor
  have hne : t.line ≠ [] := by
    intro hnil
    rw [hnil, List.length_nil] at hlen
    push_cast at hlen
    omega
  have hsplit : t.line = t.line.dropLast ++ [t.line.getLast hne] :=
    (List.dropLast_append_getLast hne).symm
  have hholds := h.holds
  rw [hsplit, ← List.append_assoc] at hholds
  refine ⟨h.accepted, hholds.unput, ?_, h.sound, h.counted⟩
  show t.tyicursor - 1 = (t.line.dropLast.length : ℤ)
  rw [List.length_dropLast]
  omega

theorem InInv.endLine
    (h : InInv t committed) (hroom : t.held < TY_IBUFLEN) :
    InInv (t.endLine ch) (committed ++ (t.line ++ [ch])) := by
  rw [h.held_eq] at hroom
  have hholds := h.holds.put (x := ch) hroom
  have hcounted := h.counted
  have hcursor := h.cursor
  refine ⟨?_, ?_, rfl, h.sound.signaln, ?_⟩
  · show t.accepted ++ (t.line ++ [ch]) =
      t.delivered ++ (committed ++ (t.line ++ [ch]))
    rw [h.accepted, List.append_assoc]
  · rw [List.append_assoc] at hholds
    show Holds _ _ _ _ ((committed ++ (t.line ++ [ch])) ++ [])
    rw [List.append_nil]
    exact hholds
  · show (((committed ++ (t.line ++ [ch])).length : ℕ) : ℤ) =
      (CountingSemaphore.signaln (t.tyicursor + 1).toNat t.tyisem).count +
        (CountingSemaphore.signaln (t.tyicursor + 1).toNat t.tyisem).inside
    rw [CountingSemaphore.count_signaln, CountingSemaphore.inside_signaln,
      List.length_append, List.length_append, List.length_singleton]
    push_cast
    omega

/-- Without the wrap, the tail is right unless it was at the last cell. -/
theorem InInv.storeEof
    (h : InInv t committed) (hroom : t.held < TY_IBUFLEN)
    (hcursor : t.tyicursor = 0) (hlast : t.tyitail ≠ TY_IBUFLEN - 1) :
    InInv (t.storeEof ch) (committed ++ [ch]) := by
  have hadvance : advance TY_IBUFLEN t.tyitail = t.tyitail + 1 := by
    have htail := h.holds.tail_inRange
    unfold advance
    rw [if_neg (by omega)]
  have hdirect : InInv (t.direct ch) (committed ++ [ch]) :=
    h.direct hroom hcursor
  refine ⟨hdirect.accepted, ?_, hdirect.cursor, hdirect.sound, hdirect.counted⟩
  have hholds := hdirect.holds
  simp only [Ttyi.direct, Ttyi.put, hadvance] at hholds
  exact hholds

theorem InInv.insert
    (h : InInv t committed) (hroom : t.held < TY_IBUFLEN) :
    InInv (t.insert ch) committed := by
  rw [h.held_eq] at hroom
  have hholds := h.holds.put (x := ch) hroom
  rw [List.append_assoc] at hholds
  refine ⟨h.accepted, hholds, ?_, h.sound, h.counted⟩
  show t.tyicursor + 1 = ((t.line ++ [ch]).length : ℤ)
  rw [h.cursor, List.length_append, List.length_singleton]
  push_cast
  ring

theorem else_of_ite_eq
    {α : Type} {c : Prop} [Decidable c] {a b x : α}
    (h : (if c then a else b) = x) (ha : a ≠ x) : b = x := by
  split_ifs at h
  · exact absurd h ha
  · exact h

/-- The end of file is stored only at the start of a line. -/
theorem branch_eof (hbranch : t.branch ch = .eof) : t.tyicursor = 0 := by
  unfold Ttyi.branch at hbranch
  have hcooked := else_of_ite_eq hbranch (by split_ifs <;> nofun)
  have hstop := else_of_ite_eq (else_of_ite_eq hcooked nofun) nofun
  have hline := else_of_ite_eq hstop (by split_ifs <;> nofun)
  have hkept := else_of_ite_eq (else_of_ite_eq hline nofun) nofun
  have hroom := else_of_ite_eq (else_of_ite_eq hkept nofun) nofun
  split_ifs at hroom with heof hcursor
  exact of_not_not hcursor

theorem InInv.ttyhandleIn
    (h : InInv t committed) (hfits : AllFit t (.arrive ch)) :
    ∃ committed, InInv (t.ttyhandleIn ch) committed := by
  have hstart := h.hold false
  unfold Ttyi.ttyhandleIn
  change Fits t (t.branch (t.mapped ch)) at hfits
  dsimp only
  cases hbranch : t.branch (t.mapped ch) with
  | ignored => exact ⟨committed, h⟩
  | flow held => exact ⟨committed, h.hold held⟩
  | raw =>
      rw [hbranch] at hfits
      exact ⟨_, h.direct hfits.1 hfits.2⟩
  | cbreak =>
      rw [hbranch] at hfits
      exact ⟨_, hstart.direct hfits.1 hfits.2⟩
  | kill => exact ⟨committed, hstart.killLine⟩
  | erase =>
      dsimp only
      split_ifs with hcursor
      · exact ⟨committed, h.erase1 hcursor⟩
      · exact ⟨committed, hstart⟩
  | endOfLine =>
      rw [hbranch] at hfits
      exact ⟨_, hstart.endLine hfits⟩
  | refused => exact ⟨committed, hstart⟩
  | eof =>
      rw [hbranch] at hfits
      exact ⟨_, hstart.storeEof hfits.1 (branch_eof hbranch) hfits.2⟩
  | insert =>
      rw [hbranch] at hfits
      exact ⟨committed, hstart.insert hfits⟩

/-- A reader that has passed finds a character and removes it. -/
theorem InInv.remove
    (h : InInv t committed) (hpassed : pid ∈ t.tyisem.passed) :
    ∃ committed, InInv (t.remove pid) committed := by
  have hinside := CountingSemaphore.inside_goOn hpassed
  have hcounted := h.counted
  have hsound := h.sound.count_inside
  have hpos := List.length_pos_of_mem hpassed
  cases committed with
  | nil =>
      rw [List.length_nil] at hcounted
      push_cast at hcounted
      omega
  | cons first rest =>
      have hholds := h.holds
      rw [List.cons_append] at hholds
      refine ⟨rest, ?_, hholds.take, h.cursor, h.sound.goOn, ?_⟩
      · show t.accepted = (t.delivered ++ [t.tyibuff t.tyihead]) ++ rest
        rw [h.accepted, hholds.first, List.append_assoc]
        rfl
      · show (rest.length : ℤ) =
          t.tyisem.count + (t.tyisem.goOn pid).inside
        rw [List.length_cons] at hcounted
        push_cast at hcounted
        omega

theorem InInv.ttygetc (h : InInv t committed) (pid : ℤ) :
    ∃ committed, InInv (t.ttygetc pid) committed := by
  have hwait : InInv { t with tyisem := t.tyisem.wait pid } committed := by
    refine ⟨h.accepted, h.holds, h.cursor, h.sound.wait, ?_⟩
    have hcounted := h.counted
    rw [CountingSemaphore.count_wait, CountingSemaphore.inside_wait]
    push_cast
    omega
  unfold Ttyi.ttygetc
  dsimp only
  split_ifs with hcount
  · exact ⟨committed, hwait⟩
  · refine hwait.remove ?_
    rw [CountingSemaphore.count_wait] at hcount
    dsimp only
    unfold CountingSemaphore.wait
    rw [if_neg hcount]
    exact List.mem_append_right _ (List.mem_singleton.mpr rfl)

theorem InInv.step
    (h : InInv t committed) (hfits : AllFit t action)
    (hstep : ttyiStep t action = some t') : ∃ committed, InInv t' committed := by
  cases action with
  | arrive ch =>
      cases hstep
      exact h.ttyhandleIn hfits
  | getc pid =>
      simp only [ttyiStep] at hstep
      split_ifs at hstep
      cases hstep
      exact h.ttygetc pid
  | resume pid =>
      simp only [ttyiStep] at hstep
      split_ifs at hstep with hpassed
      cases hstep
      exact h.remove hpassed
  | mode mode =>
      cases hstep
      exact ⟨committed, h.accepted, h.holds, h.cursor, h.sound, h.counted⟩

/-- Input is delivered as it was accepted in every run in which each stored
character fits. -/
theorem tty_input_sound
    (hreach : Reach ttyiStep AllFit ttyInit t) : InputLaw t := by
  obtain ⟨committed, hinv⟩ := hreach.invariant
    (fun t => ∃ committed, InInv t committed)
    ⟨[], rfl, .empty le_rfl (by decide), rfl, .init le_rfl, rfl⟩
    fun _ _ _ ⟨_, h⟩ hfits hstep => h.step hfits hstep
  exact hinv.law

end Law

/-- A line with an erased character, for a reader that waits; then one raw
character. -/
theorem tty_input_sound_edited :
    ∃ t, Reach ttyiStep AllFit ttyInit t ∧
      t.delivered = [0x61, 0x0a, 0x63] ∧ InputLaw t := by
  have hview : (run (fun t action => if AllFit t action then ttyiStep t action
      else none) ttyInit
      [.getc 1, .arrive 0x61, .arrive 0x62, .arrive TY_BACKSP, .arrive TY_RETURN,
        .resume 1, .getc 1, .mode .raw, .getc 2, .arrive 0x63, .resume 2]).map
        (fun t => t.delivered) = some [0x61, 0x0a, 0x63] := by
    decide
  obtain ⟨t, hrun, hdelivered⟩ := Option.map_eq_some_iff.mp hview
  have hreach := Reach.run_checked _ .start hrun
  exact ⟨t, hreach, hdelivered, tty_input_sound hreach⟩

/-- After 127 characters a file end is typed, and the tail leaves the
buffer. -/
theorem end_of_file_leaves_buffer :
    ¬ ∀ t, Reach ttyiStep (fun _ _ => True) ttyInit t → InputLaw t := by
  intro hlaw
  have hview : (run (fun t action => if True then ttyiStep t action else none)
      ttyInit (List.replicate 126 (.arrive 0x61) ++
        [.arrive TY_NEWLINE, .getc 1, .arrive TY_EOFCH])).map
        (fun t => t.tyitail) = some 128 := by
    decide +kernel
  obtain ⟨t, hrun, htail⟩ := Option.map_eq_some_iff.mp hview
  have hinside := (hlaw t (Reach.run_checked _ .start hrun)).tail_inside
  rw [htail] at hinside
  exact absurd hinside.2 (by decide)

end Xinu.TtyInput
