import Xinu.CountingSemaphore
import Xinu.RingBuffer
import Xinu.TransitionSystem

/-!
# Output on a tty line

Writers wait for space, store a character and enable the transmit interrupt;
the interrupt handler sends echoed characters first, then as many characters
of the output buffer as it believes to be there, and signals the semaphore for
each.  Writers run with interrupts disabled, so a call of `ttyputc` can only
be suspended where it waits.
-/

namespace Xinu.TtyOutput

open RingBuffer TransitionSystem

abbrev Ch := BitVec 8

def TY_OBUFLEN : ℤ := 64
def TY_EBUFLEN : ℤ := 20
def UART_FIFO_SIZE : ℕ := 16
def TY_NEWLINE : Ch := 0x0a
def TY_RETURN : Ch := 0x0d

/-- The fields of `ttycblk` for output, the transmit interrupt enable bit of
the UART, and the characters that each suspended writer has still to store.
`stored` and `sent` record what has gone into and out of the output buffer,
`echoed` what has gone out of the echo buffer. -/
structure Ttyo where
  tyohead : ℤ
  tyotail : ℤ
  tyobuff : ℤ → Ch
  tyosem : CountingSemaphore ℤ
  tyehead : ℤ
  tyetail : ℤ
  tyebuff : ℤ → Ch
  tyoheld : Bool
  tyocrlf : Bool
  etbei : Bool
  todo : ℤ → List Ch
  stored : List Ch
  sent : List Ch
  echoed : List Ch

namespace Ttyo

variable (t : Ttyo)

/-! ## The upper half -/

def ttykickout : Ttyo := { t with etbei := true }

/-- `*tyotail++ = ch`, the wrap and the start of output. -/
def store (ch : Ch) : Ttyo :=
  ({ t with
    tyobuff := Function.update t.tyobuff t.tyotail ch
    tyotail := advance TY_OBUFLEN t.tyotail
    stored := t.stored ++ [ch] }).ttykickout

/-- Store characters until the semaphore makes the writer wait. -/
def putAll (pid : ℤ) : List Ch → Ttyo → Ttyo
  | [], t => { t with todo := Function.update t.todo pid [] }
  | ch :: rest, t =>
      let t : Ttyo := { t with tyosem := t.tyosem.wait pid }
      if t.tyosem.count < 0 then
        { t with todo := Function.update t.todo pid (ch :: rest) }
      else
        putAll pid rest (({ t with tyosem := t.tyosem.goOn pid }).store ch)

/-- `ttyputc`, which sends a return before a newline. -/
def ttyputc (pid : ℤ) (ch : Ch) : Ttyo :=
  if ch = TY_NEWLINE ∧ t.tyocrlf then t.putAll pid [TY_RETURN, ch]
  else t.putAll pid [ch]

/-- A writer that was suspended goes on. -/
def resume (pid : ℤ) (ch : Ch) (rest : List Ch) : Ttyo :=
  (({ t with tyosem := t.tyosem.goOn pid }).store ch).putAll pid rest

/-! ## The lower half -/

def eputc (ch : Ch) : Ttyo :=
  ({ t with
    tyebuff := Function.update t.tyebuff t.tyetail ch
    tyetail := advance TY_EBUFLEN t.tyetail }).ttykickout

/-- Send from the echo buffer; the result includes the space that is left. -/
def echoLoop : ℕ → Ttyo → Ttyo × ℕ
  | 0, t => (t, 0)
  | uspace + 1, t =>
      if t.tyehead ≠ t.tyetail then
        echoLoop uspace { t with
          tyehead := advance TY_EBUFLEN t.tyehead
          echoed := t.echoed ++ [t.tyebuff t.tyehead] }
      else (t, uspace + 1)

/-- Send the character at the head of the output buffer. -/
def sendOne : Ttyo :=
  { t with
    tyohead := advance TY_OBUFLEN t.tyohead
    sent := t.sent ++ [t.tyobuff t.tyohead] }

/-- Send from the output buffer; the result includes the number sent. -/
def outLoop : ℕ → ℤ → Ttyo → Ttyo × ℕ
  | 0, _, t => (t, 0)
  | uspace + 1, avail, t =>
      if avail > 0 then
        let (t, ochars) := outLoop uspace (avail - 1) t.sendOne
        (t, ochars + 1)
      else (t, 0)

/-- `ttyhandle_out` for a transmit FIFO with `fifo` cells. -/
def ttyhandleOut (fifo : ℕ) : Ttyo :=
  if t.tyoheld then t
  else if t.tyehead = t.tyetail ∧ t.tyosem.count ≥ TY_OBUFLEN then
    { t with etbei := false }
  else
    let (t, uspace) := echoLoop fifo t
    let avail := TY_OBUFLEN - t.tyosem.count
    let (t, ochars) := outLoop uspace avail t
    if ochars > 0 then
      { t with tyosem := CountingSemaphore.signaln ochars t.tyosem }
    else t

end Ttyo

inductive TtyoAction
  | putc (pid : ℤ) (ch : Ch)
  | resume (pid : ℤ)
  | echo (ch : Ch)
  | hold (held : Bool)
  | transmit

/-- One step of a writer, of the input side (an echo, or output held and
released) or of the transmit interrupt. -/
def ttyoStep (fifo : ℕ) (t : Ttyo) : TtyoAction → Option Ttyo
  | .putc pid ch => if t.todo pid = [] then some (t.ttyputc pid ch) else none
  | .resume pid =>
      match t.todo pid with
      | [] => none
      | ch :: rest =>
          if pid ∈ t.tyosem.passed then some (t.resume pid ch rest) else none
  | .echo ch => some (t.eputc ch)
  | .hold held => some { t with tyoheld := held }
  | .transmit => if t.etbei then some (t.ttyhandleOut fifo) else none

def ttyInit : Ttyo where
  tyohead := 0
  tyotail := 0
  tyobuff _ := 0
  tyosem := .init TY_OBUFLEN
  tyehead := 0
  tyetail := 0
  tyebuff _ := 0
  tyoheld := false
  tyocrlf := true
  etbei := true
  todo _ := []
  stored := []
  sent := []
  echoed := []

/-- The buffer holds the characters that were stored and not yet sent, in
their order. -/
def OutputLaw (t : Ttyo) : Prop :=
  ∃ queue, t.stored = t.sent ++ queue ∧
    Holds TY_OBUFLEN t.tyobuff t.tyohead t.tyotail queue

/-- The number of characters in the echo buffer. -/
def Ttyo.echoPending (t : Ttyo) : ℤ :=
  if t.tyehead ≤ t.tyetail then t.tyetail - t.tyehead
  else t.tyetail - t.tyehead + TY_EBUFLEN

/-- When the interrupt handler runs, no writer is between its wait and its
store, or the space in the FIFO that echoes leave is not larger than the number
of stored characters. -/
def EnoughStored (fifo : ℕ) (t : Ttyo) : TtyoAction → Prop
  | .transmit => t.tyoheld = false → t.tyosem.inside = 0 ∨
      (fifo : ℤ) - t.echoPending ≤ (t.stored.length : ℤ) - t.sent.length
  | _ => True

instance (fifo : ℕ) (t : Ttyo) (action : TtyoAction) :
    Decidable (EnoughStored fifo t action) := by
  cases action <;> unfold EnoughStored <;> infer_instance

/-! ## The invariant -/

section Law

variable {fifo : ℕ} {t t' : Ttyo} {action : TtyoAction} {pid : ℤ} {ch : Ch}
  {queue : List Ch}

/-- The indices of the echo buffer point into it. -/
structure EchoInside (t : Ttyo) : Prop where
  head_nonneg : 0 ≤ t.tyehead
  head_lt : t.tyehead < TY_EBUFLEN
  tail_nonneg : 0 ≤ t.tyetail
  tail_lt : t.tyetail < TY_EBUFLEN

/-- The count is the free space, less the writers that are inside. -/
structure OutInv (t : Ttyo) (queue : List Ch) : Prop where
  echo : EchoInside t
  stored : t.stored = t.sent ++ queue
  holds : Holds TY_OBUFLEN t.tyobuff t.tyohead t.tyotail queue
  sound : t.tyosem.Sound
  counted : (queue.length : ℤ) + t.tyosem.inside = TY_OBUFLEN - t.tyosem.count

theorem EchoInside.congr
    (h : EchoInside t) (hhead : t'.tyehead = t.tyehead)
    (htail : t'.tyetail = t.tyetail) : EchoInside t' := by
  obtain ⟨hnonneg, hlt, hnonneg', hlt'⟩ := h
  constructor <;> omega

theorem OutInv.same
    (h : OutInv t queue) (hecho : EchoInside t') (hstored : t'.stored = t.stored)
    (hsent : t'.sent = t.sent) (hbuff : t'.tyobuff = t.tyobuff)
    (hhead : t'.tyohead = t.tyohead) (htail : t'.tyotail = t.tyotail)
    (hsem : t'.tyosem = t.tyosem) : OutInv t' queue := by
  refine ⟨hecho, ?_, ?_, ?_, ?_⟩
  · rw [hstored, hsent]
    exact h.stored
  · rw [hbuff, hhead, htail]
    exact h.holds
  · rw [hsem]
    exact h.sound
  · rw [hsem]
    exact h.counted

/-- A writer that has passed finds room and stores its character. -/
theorem OutInv.store
    (h : OutInv t queue) (hpassed : pid ∈ t.tyosem.passed) :
    OutInv (({ t with tyosem := t.tyosem.goOn pid }).store ch)
      (queue ++ [ch]) := by
  have hsound := h.sound.count_inside
  have hcounted := h.counted
  have hpos := List.length_pos_of_mem hpassed
  have hinside := CountingSemaphore.inside_goOn hpassed
  refine ⟨h.echo.congr rfl rfl, ?_, h.holds.put (by omega), h.sound.goOn, ?_⟩
  · show t.stored ++ [ch] = t.sent ++ (queue ++ [ch])
    rw [h.stored, List.append_assoc]
  · show (((queue ++ [ch]).length : ℕ) : ℤ) + (t.tyosem.goOn pid).inside = _
    rw [List.length_append, List.length_singleton]
    show _ = TY_OBUFLEN - t.tyosem.count
    push_cast
    omega

theorem OutInv.wait (h : OutInv t queue) :
    OutInv { t with tyosem := t.tyosem.wait pid } queue where
  echo := h.echo.congr rfl rfl
  stored := h.stored
  holds := h.holds
  sound := h.sound.wait
  counted := by
    have hcounted := h.counted
    simp only [CountingSemaphore.count_wait, CountingSemaphore.inside_wait]
    push_cast
    omega

theorem mem_passed_wait {s : CountingSemaphore ℤ}
    (hcount : ¬ (s.wait pid).count < 0) : pid ∈ (s.wait pid).passed := by
  rw [CountingSemaphore.count_wait] at hcount
  unfold CountingSemaphore.wait
  rw [if_neg hcount]
  exact List.mem_append_right _ (List.mem_singleton.mpr rfl)

theorem OutInv.putAll (l : List Ch) (h : OutInv t queue) :
    ∃ queue, OutInv (t.putAll pid l) queue := by
  induction l generalizing t queue with
  | nil => exact ⟨queue, h.same (h.echo.congr rfl rfl) rfl rfl rfl rfl rfl rfl⟩
  | cons ch rest ih =>
      have hwait := @OutInv.wait t pid queue h
      rw [Ttyo.putAll]
      dsimp only
      split_ifs with hcount
      · exact ⟨queue,
          hwait.same (hwait.echo.congr rfl rfl) rfl rfl rfl rfl rfl rfl⟩
      · exact ih (hwait.store (mem_passed_wait hcount))

theorem OutInv.ttyputc (h : OutInv t queue) (pid : ℤ) (ch : Ch) :
    ∃ queue, OutInv (t.ttyputc pid ch) queue := by
  unfold Ttyo.ttyputc
  split_ifs
  · exact h.putAll _
  · exact h.putAll _

/-- The echo loop touches nothing but the echo buffer. -/
theorem echoLoop_frame (uspace : ℕ) :
    (Ttyo.echoLoop uspace t).1.stored = t.stored ∧
      (Ttyo.echoLoop uspace t).1.sent = t.sent ∧
      (Ttyo.echoLoop uspace t).1.tyobuff = t.tyobuff ∧
      (Ttyo.echoLoop uspace t).1.tyohead = t.tyohead ∧
      (Ttyo.echoLoop uspace t).1.tyotail = t.tyotail ∧
      (Ttyo.echoLoop uspace t).1.tyosem = t.tyosem := by
  induction uspace generalizing t with
  | zero => exact ⟨rfl, rfl, rfl, rfl, rfl, rfl⟩
  | succ uspace ih =>
      rw [Ttyo.echoLoop]
      split_ifs
      · exact ih
      · exact ⟨rfl, rfl, rfl, rfl, rfl, rfl⟩

/-- What the echo loop leaves of the space. -/
theorem echoLoop_space (uspace : ℕ) (h : EchoInside t) :
    EchoInside (Ttyo.echoLoop uspace t).1 ∧
      ((Ttyo.echoLoop uspace t).2 : ℤ) = max 0 (uspace - t.echoPending) := by
  induction uspace generalizing t with
  | zero =>
      refine ⟨h, ?_⟩
      obtain ⟨hnonneg, hlt, hnonneg', hlt'⟩ := h
      show (0 : ℤ) = max 0 (0 - t.echoPending)
      unfold Ttyo.echoPending
      split_ifs <;> omega
  | succ uspace ih =>
      obtain ⟨hnonneg, hlt, hnonneg', hlt'⟩ := h
      rw [Ttyo.echoLoop]
      split_ifs with hempty
      · obtain ⟨hnonneg₁, hlt₁⟩ := advance_inRange
          (show 0 < TY_EBUFLEN by decide) hnonneg
        obtain ⟨hecho, hspace⟩ := @ih { t with
          tyehead := advance TY_EBUFLEN t.tyehead
          echoed := t.echoed ++ [t.tyebuff t.tyehead] }
          ⟨hnonneg₁, hlt₁, hnonneg', hlt'⟩
        refine ⟨hecho, ?_⟩
        rw [hspace]
        unfold Ttyo.echoPending advance
        push_cast
        split_ifs <;> omega
      · refine ⟨⟨hnonneg, hlt, hnonneg', hlt'⟩, ?_⟩
        have hsame : t.tyehead = t.tyetail := of_not_not hempty
        unfold Ttyo.echoPending
        rw [if_pos hsame.le]
        push_cast
        omega

theorem OutInv.echoLoop (h : OutInv t queue) (uspace : ℕ) :
    OutInv (Ttyo.echoLoop uspace t).1 queue := by
  obtain ⟨hstored, hsent, hbuff, hhead, htail, hsem⟩ := @echoLoop_frame t uspace
  exact h.same (echoLoop_space uspace h.echo).1 hstored hsent hbuff hhead htail
    hsem

/-- If the loop over the output buffer does not go beyond the stored
characters, it sends the first ones. -/
theorem outLoop_spec
    {uspace : ℕ} {avail : ℤ} (hstored : t.stored = t.sent ++ queue)
    (hholds : Holds TY_OBUFLEN t.tyobuff t.tyohead t.tyotail queue)
    (henough : (uspace : ℤ) ≤ queue.length ∨ avail ≤ queue.length) :
    ∃ rest, (Ttyo.outLoop uspace avail t).1.stored =
        (Ttyo.outLoop uspace avail t).1.sent ++ rest ∧
      Holds TY_OBUFLEN (Ttyo.outLoop uspace avail t).1.tyobuff
        (Ttyo.outLoop uspace avail t).1.tyohead
        (Ttyo.outLoop uspace avail t).1.tyotail rest ∧
      rest.length + (Ttyo.outLoop uspace avail t).2 = queue.length ∧
      (Ttyo.outLoop uspace avail t).1.tyosem = t.tyosem ∧
      (Ttyo.outLoop uspace avail t).1.tyehead = t.tyehead ∧
      (Ttyo.outLoop uspace avail t).1.tyetail = t.tyetail := by
  induction uspace generalizing t avail queue with
  | zero => exact ⟨queue, hstored, hholds, rfl, rfl, rfl, rfl⟩
  | succ uspace ih =>
      rw [Ttyo.outLoop]
      split_ifs with havail
      · cases queue with
        | nil =>
            simp only [List.length_nil] at henough
            push_cast at henough
            omega
        | cons first queue =>
            rw [List.length_cons] at henough
            push_cast at henough
            have hsent : t.sendOne.stored = t.sendOne.sent ++ queue := by
              show t.stored = (t.sent ++ [t.tyobuff t.tyohead]) ++ queue
              rw [hstored, hholds.first, List.append_assoc]
              rfl
            obtain ⟨rest, hrest, hring, hlen, hsem⟩ :=
              @ih t.sendOne queue (avail - 1) hsent hholds.take (by omega)
            refine ⟨rest, hrest, hring, ?_, hsem⟩
            rw [List.length_cons]
            dsimp only
            omega
      · exact ⟨queue, hstored, hholds, rfl, rfl, rfl, rfl⟩

theorem OutInv.ttyhandleOut
    (h : OutInv t queue) (henough : EnoughStored fifo t .transmit) :
    ∃ queue, OutInv (t.ttyhandleOut fifo) queue := by
  unfold Ttyo.ttyhandleOut
  split_ifs with hheld hempty
  · exact ⟨queue, h⟩
  · exact ⟨queue, h.same (h.echo.congr rfl rfl) rfl rfl rfl rfl rfl rfl⟩
  · have henough := henough (Bool.eq_false_of_not_eq_true hheld)
    have hlen : (t.stored.length : ℤ) - t.sent.length = queue.length := by
      rw [h.stored, List.length_append]
      push_cast
      ring
    have hspace := (echoLoop_space fifo h.echo).2
    rw [hlen] at henough
    have hsem := (@echoLoop_frame t fifo).2.2.2.2.2
    have hecho := h.echoLoop fifo
    generalize Ttyo.echoLoop fifo t = e at hspace hsem hecho ⊢
    obtain ⟨t₁, uspace⟩ := e
    dsimp only at hspace hsem hecho ⊢
    have hcounted := hecho.counted
    obtain ⟨rest, hstored, hholds, hsum, hsem', hehead, hetail⟩ :=
      @outLoop_spec t₁ queue uspace (TY_OBUFLEN - t₁.tyosem.count) hecho.stored
        hecho.holds (by
          rcases henough with hnone | hfew
          · rw [← hsem] at hnone
            exact Or.inr (by omega)
          · exact Or.inl (by omega))
    generalize Ttyo.outLoop uspace (TY_OBUFLEN - t₁.tyosem.count) t₁ = o
      at hstored hholds hsum hsem' hehead hetail ⊢
    obtain ⟨t₂, ochars⟩ := o
    dsimp only at hstored hholds hsum hsem' hehead hetail ⊢
    have hinside : EchoInside t₂ := hecho.echo.congr hehead hetail
    split_ifs with hsent
    · refine ⟨rest, hinside.congr rfl rfl, hstored, hholds, ?_, ?_⟩
      · rw [hsem']
        exact hecho.sound.signaln
      · rw [CountingSemaphore.count_signaln, CountingSemaphore.inside_signaln,
          hsem']
        omega
    · refine ⟨rest, hinside, hstored, hholds, ?_, ?_⟩
      · rw [hsem']
        exact hecho.sound
      · rw [hsem']
        omega

theorem OutInv.step
    (h : OutInv t queue) (henough : EnoughStored fifo t action)
    (hstep : ttyoStep fifo t action = some t') : ∃ queue, OutInv t' queue := by
  cases action with
  | putc pid ch =>
      simp only [ttyoStep] at hstep
      split_ifs at hstep
      cases hstep
      exact h.ttyputc pid ch
  | resume pid =>
      simp only [ttyoStep] at hstep
      cases htodo : t.todo pid with
      | nil =>
          rw [htodo] at hstep
          cases hstep
      | cons ch rest =>
          rw [htodo] at hstep
          dsimp only at hstep
          split_ifs at hstep with hpassed
          cases hstep
          exact (h.store hpassed).putAll rest
  | echo ch =>
      cases hstep
      obtain ⟨hnonneg, hlt⟩ := advance_inRange
        (show 0 < TY_EBUFLEN by decide) h.echo.tail_nonneg
      exact ⟨queue, h.same ⟨h.echo.head_nonneg, h.echo.head_lt, hnonneg, hlt⟩ rfl
        rfl rfl rfl rfl rfl⟩
  | hold held =>
      cases hstep
      exact ⟨queue, h.same (h.echo.congr rfl rfl) rfl rfl rfl rfl rfl rfl⟩
  | transmit =>
      simp only [ttyoStep] at hstep
      split_ifs at hstep
      cases hstep
      exact h.ttyhandleOut henough

/-- Output is sent as it was stored in every run in which the interrupt handler
is never misled by writers that have not stored their characters. -/
theorem tty_output_sound
    (hreach : Reach (ttyoStep fifo) (EnoughStored fifo) ttyInit t) :
    OutputLaw t := by
  obtain ⟨queue, hinv⟩ := hreach.invariant (fun t => ∃ queue, OutInv t queue)
    ⟨[], ⟨le_rfl, by decide, le_rfl, by decide⟩, rfl,
      .empty le_rfl (by decide), .init (by decide), rfl⟩
    fun _ _ _ ⟨_, h⟩ henough hstep => h.step henough hstep
  exact ⟨queue, hinv.stored, hinv.holds⟩

end Law

/-- Seventy characters of one writer, which has to wait once, and two
interrupts. -/
theorem tty_output_sound_waiting :
    ∃ t, Reach (ttyoStep UART_FIFO_SIZE) (EnoughStored UART_FIFO_SIZE) ttyInit
        t ∧ (t.stored.length, t.sent.length) = (65, 32) ∧ OutputLaw t := by
  have hview : (run (fun t action => if EnoughStored UART_FIFO_SIZE t action then
        ttyoStep UART_FIFO_SIZE t action else none) ttyInit
      (List.replicate 65 (.putc 1 0x61) ++ [.transmit, .resume 1, .transmit])).map
        (fun t => (t.stored.length, t.sent.length)) = some (65, 32) := by
    decide +kernel
  obtain ⟨t, hrun, hlen⟩ := Option.map_eq_some_iff.mp hview
  have hreach := Reach.run_checked _ .start hrun
  exact ⟨t, hreach, hlen, tty_output_sound hreach⟩

/-- While a writer that has been let through does not run, the handler takes
its missing character from the buffer. -/
theorem unstored_character_sent :
    ¬ ∀ t, Reach (ttyoStep UART_FIFO_SIZE) (fun _ _ => True) ttyInit t →
      OutputLaw t := by
  intro hlaw
  have hview : (run (fun t action => if True then
        ttyoStep UART_FIFO_SIZE t action else none) ttyInit
      (List.replicate 65 (.putc 1 0x61) ++ List.replicate 5 .transmit)).map
        (fun t => (t.stored.length, t.sent.length)) = some (64, 65) := by
    decide +kernel
  obtain ⟨t, hrun, hlen⟩ := Option.map_eq_some_iff.mp hview
  rw [Prod.mk.injEq] at hlen
  obtain ⟨queue, hstored, -⟩ := hlaw t (Reach.run_checked _ .start hrun)
  have hsum := congrArg List.length hstored
  rw [List.length_append, hlen.1, hlen.2] at hsum
  omega

end Xinu.TtyOutput
