import Xinu.TtyInput
import Xinu.TtyOutput

/-!
# The echo queue of a tty

What an arriving character makes visible goes into a ring of its own, which
the transmit interrupt empties before the output buffer.  Nobody asks whether
the ring is full, and a ring with equal head and tail counts as empty, so it is
right as long as nineteen characters at most are waiting.
-/

namespace Xinu.TtyEcho

open RingBuffer TransitionSystem TtyOutput

def TY_BLANK : Ch := 0x20
def TY_UPARROW : Ch := 0x5e
def TY_FULLCH : Ch := 0x07
def RUBOUT : Ch := 0x7f

/-- A tty with both its sides; `placed` records the calls of `eputc`. -/
structure Tty where
  input : TtyInput.Ttyi
  output : Ttyo
  tyiecho : Bool
  tyieback : Bool
  tyevis : Bool
  tyecrlf : Bool
  tyifullc : Ch
  placed : List Ch

namespace Tty

variable (t : Tty)

/-! ## ttyhandle_in.c -/

/-- `ch < TY_BLANK || ch == 0177`, where a `char` is signed. -/
def nonprintable (ch : Ch) : Bool := ch.toInt < TY_BLANK.toInt || ch = RUBOUT

/-- The calls of `eputc` that back up over one column. -/
def backup : List Ch :=
  if t.tyieback then [TtyInput.TY_BACKSP, TY_BLANK, TtyInput.TY_BACKSP]
  else [TtyInput.TY_BACKSP]

/-- The calls of `eputc` in `erase1`. -/
def erase1 : List Ch :=
  let ch := t.input.tyibuff
    (retreat TtyInput.TY_IBUFLEN t.input.tyitail 1)
  if t.tyiecho then
    if nonprintable ch then
      (if t.tyevis then t.backup else []) ++ t.backup
    else t.backup
  else []

/-- The calls of `eputc` in `echoch`. -/
def echoch (ch : Ch) : List Ch :=
  if (ch = TY_NEWLINE ∨ ch = TY_RETURN) ∧ t.tyecrlf then
    [TY_RETURN, TY_NEWLINE]
  else if nonprintable ch ∧ t.tyevis then [TY_UPARROW, ch + 0x40]
  else [ch]

/-- A refused character rings the bell, unless it is an end of file in
mid-line. -/
def refusal (ch : Ch) : List Ch :=
  if t.input.tyimode = .cooked ∧
      ¬ t.input.avail + t.input.tyicursor ≥ TtyInput.TY_IBUFLEN - 1 then
    if t.tyiecho then t.echoch ch else []
  else [t.tyifullc]

/-- The calls of `eputc` while `ttyhandle_in` handles a character. -/
def echoes (ch : Ch) : List Ch :=
  let ch := t.input.mapped ch
  match t.input.branch ch with
  | .ignored | .flow _ | .raw => []
  | .cbreak | .endOfLine | .eof | .insert =>
      if t.tyiecho then t.echoch ch else []
  | .kill => [TY_RETURN, TY_NEWLINE]
  | .erase => if t.input.tyicursor > 0 then t.erase1 else []
  | .refused => t.refusal ch

/-- The start character calls `ttykickout` as well. -/
def kicked (ch : Ch) : Ttyo :=
  if t.input.branch (t.input.mapped ch) = .flow false then t.output.ttykickout
  else t.output

/-- `ttyhandle_in`. -/
def ttyhandleIn (ch : Ch) : Tty :=
  let input := t.input.ttyhandleIn ch
  { t with
    input := input
    output := (t.echoes ch).foldl Ttyo.eputc
      { t.kicked ch with tyoheld := input.tyoheld }
    placed := t.placed ++ t.echoes ch }

end Tty

inductive TtyAction
  | arrive (ch : Ch)
  | getc (pid : ℤ)
  | gotten (pid : ℤ)
  | mode (mode : TtyInput.Mode)
  | echo (on : Bool)
  | putc (pid : ℤ) (ch : Ch)
  | resume (pid : ℤ)
  | transmit

/-- A character arrives, a reader, a writer or `ttycontrol` makes a step, or
the transmit interrupt occurs. -/
def ttyStep (fifo : ℕ) (t : Tty) : TtyAction → Option Tty
  | .arrive ch => some (t.ttyhandleIn ch)
  | .getc pid =>
      (TtyInput.ttyiStep t.input (.getc pid)).map fun i => { t with input := i }
  | .gotten pid =>
      (TtyInput.ttyiStep t.input (.resume pid)).map
        fun i => { t with input := i }
  | .mode mode =>
      (TtyInput.ttyiStep t.input (.mode mode)).map
        fun i => { t with input := i }
  | .echo on => some { t with tyiecho := on }
  | .putc pid ch =>
      (ttyoStep fifo t.output (.putc pid ch)).map fun o => { t with output := o }
  | .resume pid =>
      (ttyoStep fifo t.output (.resume pid)).map fun o => { t with output := o }
  | .transmit =>
      (ttyoStep fifo t.output .transmit).map fun o => { t with output := o }

/-- The characters that the interrupt handler takes to be in the echo buffer. -/
def pendingEcho (o : Ttyo) : List Ch :=
  (List.range o.echoPending.toNat).map
    fun k => o.tyebuff (position TY_EBUFLEN o.tyehead k)

/-- What has been sent and what the handler will send are the characters that
were placed. -/
def EchoLaw (t : Tty) : Prop :=
  t.placed = t.output.echoed ++ pendingEcho t.output

/-- The echo buffer has room for what the character makes visible. -/
def EchoFits (t : Tty) : TtyAction → Prop
  | .arrive ch => t.output.echoPending + (t.echoes ch).length < TY_EBUFLEN
  | _ => True

instance (t : Tty) (action : TtyAction) : Decidable (EchoFits t action) := by
  cases action <;> unfold EchoFits <;> infer_instance

/-- A tty whose echo queue has not been used; its settings are any. -/
structure Unused (t : Tty) : Prop where
  inside : 0 ≤ t.output.tyehead ∧ t.output.tyehead < TY_EBUFLEN
  empty : t.output.tyetail = t.output.tyehead
  placed : t.placed = []
  echoed : t.output.echoed = []

/-! ## The invariant -/

section Law

variable {fifo : ℕ} {t t' : Tty} {o o' : Ttyo} {action : TtyAction}
  {queue l : List Ch}

/-- The ring holds a queue that leaves one cell free. -/
structure EchoInv (o : Ttyo) (placed queue : List Ch) : Prop where
  placed : placed = o.echoed ++ queue
  holds : Holds TY_EBUFLEN o.tyebuff o.tyehead o.tyetail queue
  room : (queue.length : ℤ) < TY_EBUFLEN

structure EchoSame (o o' : Ttyo) : Prop where
  tyehead : o'.tyehead = o.tyehead
  tyetail : o'.tyetail = o.tyetail
  tyebuff : o'.tyebuff = o.tyebuff
  echoed : o'.echoed = o.echoed

theorem EchoInv.same
    {placed : List Ch} (h : EchoInv o placed queue) (hsame : EchoSame o o') :
    EchoInv o' placed queue := by
  obtain ⟨hhead, htail, hbuff, hechoed⟩ := hsame
  refine ⟨?_, ?_, h.room⟩
  · rw [hechoed]
    exact h.placed
  · rw [hhead, htail, hbuff]
    exact h.holds

theorem EchoInv.echoPending
    {placed : List Ch} (h : EchoInv o placed queue) :
    o.echoPending = queue.length := by
  obtain ⟨-, ⟨hhead, hlt, -, htail, -⟩, hroom⟩ := h
  unfold position at htail
  unfold Ttyo.echoPending
  have hpos : (0 : ℤ) ≤ queue.length := by positivity
  split_ifs at htail ⊢ <;> omega

theorem EchoInv.pendingEcho
    {placed : List Ch} (h : EchoInv o placed queue) : pendingEcho o = queue := by
  unfold TtyEcho.pendingEcho
  rw [h.echoPending, Int.toNat_natCast]
  apply List.ext_get
  · simp
  · intro k hk hk'
    simp [h.holds.cell k hk']

theorem EchoInv.eputc
    {placed : List Ch} (h : EchoInv o placed queue) (ch : Ch)
    (hroom : (queue.length : ℤ) + 1 < TY_EBUFLEN) :
    EchoInv (o.eputc ch) (placed ++ [ch]) (queue ++ [ch]) := by
  refine ⟨?_, h.holds.put (by omega), ?_⟩
  · rw [h.placed, List.append_assoc]
    rfl
  · rw [List.length_append, List.length_singleton]
    push_cast
    omega

theorem EchoInv.eputcs
    {placed : List Ch} (h : EchoInv o placed queue) (l : List Ch)
    (hroom : (queue.length : ℤ) + l.length < TY_EBUFLEN) :
    EchoInv (l.foldl Ttyo.eputc o) (placed ++ l) (queue ++ l) := by
  induction l generalizing o placed queue with
  | nil => simpa using h
  | cons ch l ih =>
      rw [List.length_cons] at hroom
      push_cast at hroom
      have hfirst := h.eputc ch (by omega)
      have hall := ih hfirst (by
        rw [List.length_append, List.length_singleton]
        push_cast
        omega)
      rw [List.append_assoc, List.append_assoc] at hall
      exact hall

/-! ## The interrupt handler -/

theorem EchoInv.echoLoop
    {placed : List Ch} (uspace : ℕ) (h : EchoInv o placed queue) :
    ∃ queue, EchoInv (Ttyo.echoLoop uspace o).1 placed queue := by
  induction uspace generalizing o queue with
  | zero => exact ⟨queue, h⟩
  | succ uspace ih =>
      rw [Ttyo.echoLoop]
      split_ifs with hsome
      · cases queue with
        | nil =>
            have htail := h.holds.tail_eq
            have hlt := h.holds.head_lt
            unfold position at htail
            simp [hlt] at htail
            exact absurd htail.symm hsome
        | cons first rest =>
            have hroom := h.room
            rw [List.length_cons] at hroom
            push_cast at hroom
            have hsent : EchoInv { o with
                tyehead := advance TY_EBUFLEN o.tyehead
                echoed := o.echoed ++ [o.tyebuff o.tyehead] } placed rest := by
              refine ⟨?_, h.holds.take, by omega⟩
              rw [h.placed, h.holds.first, List.append_assoc]
              rfl
            exact ih hsent
      · exact ⟨queue, h⟩

theorem EchoSame.refl (o : Ttyo) : EchoSame o o := ⟨rfl, rfl, rfl, rfl⟩

theorem EchoSame.trans
    {o'' : Ttyo} (h : EchoSame o o') (h' : EchoSame o' o'') :
    EchoSame o o'' :=
  ⟨h'.tyehead.trans h.tyehead, h'.tyetail.trans h.tyetail,
    h'.tyebuff.trans h.tyebuff, h'.echoed.trans h.echoed⟩

theorem echoSame_outLoop (uspace : ℕ) (avail : ℤ) :
    EchoSame o (Ttyo.outLoop uspace avail o).1 := by
  induction uspace generalizing o avail with
  | zero => exact .refl o
  | succ uspace ih =>
      rw [Ttyo.outLoop]
      split_ifs
      · have hsent := ih (o := o.sendOne) (avail - 1)
        exact ⟨hsent.tyehead, hsent.tyetail, hsent.tyebuff, hsent.echoed⟩
      · exact .refl o

theorem echoSame_putAll (pid : ℤ) (l : List Ch) :
    EchoSame o (o.putAll pid l) := by
  induction l generalizing o with
  | nil => exact ⟨rfl, rfl, rfl, rfl⟩
  | cons ch rest ih =>
      rw [Ttyo.putAll]
      dsimp only
      split_ifs
      · exact ⟨rfl, rfl, rfl, rfl⟩
      · have hrest := @ih (({ o with
          tyosem := (o.tyosem.wait pid).goOn pid } : Ttyo).store ch)
        exact ⟨hrest.tyehead, hrest.tyetail, hrest.tyebuff, hrest.echoed⟩

theorem EchoInv.ttyhandleOut
    {placed : List Ch} (h : EchoInv o placed queue) (fifo : ℕ) :
    ∃ queue, EchoInv (o.ttyhandleOut fifo) placed queue := by
  unfold Ttyo.ttyhandleOut
  split_ifs with hheld hempty
  · exact ⟨queue, h⟩
  · exact ⟨queue, h.same ⟨rfl, rfl, rfl, rfl⟩⟩
  · obtain ⟨rest, hecho⟩ := h.echoLoop fifo
    have hout := echoSame_outLoop (o := (Ttyo.echoLoop fifo o).1)
      (Ttyo.echoLoop fifo o).2
      (TY_OBUFLEN - (Ttyo.echoLoop fifo o).1.tyosem.count)
    have hsent := hecho.same hout
    refine ⟨rest, ?_⟩
    dsimp only
    split_ifs
    · exact hsent.same ⟨rfl, rfl, rfl, rfl⟩
    · exact hsent

theorem EchoInv.ttyo
    {placed : List Ch} {a : TtyoAction} (h : EchoInv o placed queue)
    (hnoecho : ∀ ch, a ≠ .echo ch) (hstep : ttyoStep fifo o a = some o') :
    ∃ queue, EchoInv o' placed queue := by
  cases a with
  | putc pid ch =>
      simp only [ttyoStep] at hstep
      split_ifs at hstep
      cases hstep
      unfold Ttyo.ttyputc
      split_ifs
      · exact ⟨queue, h.same (echoSame_putAll pid _)⟩
      · exact ⟨queue, h.same (echoSame_putAll pid _)⟩
  | resume pid =>
      simp only [ttyoStep] at hstep
      cases htodo : o.todo pid with
      | nil =>
          rw [htodo] at hstep
          cases hstep
      | cons ch rest =>
          rw [htodo] at hstep
          dsimp only at hstep
          split_ifs at hstep
          cases hstep
          have hstore : EchoSame o
              (({ o with tyosem := o.tyosem.goOn pid } : Ttyo).store ch) :=
            ⟨rfl, rfl, rfl, rfl⟩
          exact ⟨queue, h.same (hstore.trans (echoSame_putAll pid rest))⟩
  | echo ch => exact absurd rfl (hnoecho ch)
  | hold held =>
      cases hstep
      exact ⟨queue, h.same ⟨rfl, rfl, rfl, rfl⟩⟩
  | transmit =>
      simp only [ttyoStep] at hstep
      split_ifs at hstep
      cases hstep
      exact h.ttyhandleOut fifo

/-! ## Runs -/

theorem EchoInv.arrive
    (h : EchoInv t.output t.placed queue) (ch : Ch)
    (hfits : (queue.length : ℤ) + (t.echoes ch).length < TY_EBUFLEN) :
    EchoInv (t.ttyhandleIn ch).output (t.ttyhandleIn ch).placed
      (queue ++ t.echoes ch) := by
  have hkicked : EchoInv (t.kicked ch) t.placed queue := by
    unfold Tty.kicked
    split_ifs
    · exact h.same ⟨rfl, rfl, rfl, rfl⟩
    · exact h
  have hheld : EchoInv
      { t.kicked ch with tyoheld := (t.input.ttyhandleIn ch).tyoheld }
      t.placed queue :=
    hkicked.same ⟨rfl, rfl, rfl, rfl⟩
  exact hheld.eputcs (t.echoes ch) hfits

theorem EchoInv.step
    (h : EchoInv t.output t.placed queue) (hfits : EchoFits t action)
    (hstep : ttyStep fifo t action = some t') :
    ∃ queue, EchoInv t'.output t'.placed queue := by
  cases action with
  | arrive ch =>
      cases hstep
      change t.output.echoPending + _ < _ at hfits
      rw [h.echoPending] at hfits
      exact ⟨_, h.arrive ch hfits⟩
  | getc pid =>
      obtain ⟨i, -, rfl⟩ := Option.map_eq_some_iff.mp hstep
      exact ⟨queue, h⟩
  | gotten pid =>
      obtain ⟨i, -, rfl⟩ := Option.map_eq_some_iff.mp hstep
      exact ⟨queue, h⟩
  | mode mode =>
      cases hstep
      exact ⟨queue, h⟩
  | echo on =>
      cases hstep
      exact ⟨queue, h⟩
  | putc pid ch =>
      obtain ⟨o, ho, rfl⟩ := Option.map_eq_some_iff.mp hstep
      exact h.ttyo (fun ch hecho => by cases hecho) ho
  | resume pid =>
      obtain ⟨o, ho, rfl⟩ := Option.map_eq_some_iff.mp hstep
      exact h.ttyo (fun ch hecho => by cases hecho) ho
  | transmit =>
      obtain ⟨o, ho, rfl⟩ := Option.map_eq_some_iff.mp hstep
      exact h.ttyo (fun ch hecho => by cases hecho) ho

theorem Unused.inv (h : Unused t) : EchoInv t.output t.placed [] := by
  obtain ⟨⟨hnonneg, hlt⟩, hempty, hplaced, hechoed⟩ := h
  refine ⟨by rw [hplaced, hechoed]; rfl, ?_, by decide⟩
  rw [hempty]
  exact .empty hnonneg hlt

theorem eputcs_frame (l : List Ch) (hinside : EchoInside o) :
    (l.foldl Ttyo.eputc o).echoed = o.echoed ∧
      EchoInside (l.foldl Ttyo.eputc o) := by
  induction l generalizing o with
  | nil => exact ⟨rfl, hinside⟩
  | cons ch l ih =>
      obtain ⟨hnonneg, hlt⟩ := advance_inRange
        (show 0 < TY_EBUFLEN by decide) hinside.tail_nonneg
      exact ih (o := o.eputc ch)
        ⟨hinside.head_nonneg, hinside.head_lt, hnonneg, hlt⟩

/-- The handler never sees a full ring. -/
theorem length_pendingEcho (hinside : EchoInside o) :
    ((pendingEcho o).length : ℤ) < TY_EBUFLEN := by
  obtain ⟨hhead, hhead', htail, htail'⟩ := hinside
  unfold pendingEcho Ttyo.echoPending
  rw [List.length_map, List.length_range]
  split_ifs <;> omega

/-- The echo queue is right in every run in which every arriving character
finds room for its echo, and a character that does not makes it wrong. -/
theorem echo_queue_sound
    (start : Tty) (hstart : Unused start)
    (hreach : Reach (ttyStep fifo) EchoFits start t) :
    EchoLaw t ∧
      ∀ ch, EchoLaw (t.ttyhandleIn ch) ↔ EchoFits t (.arrive ch) := by
  obtain ⟨queue, hinv⟩ := hreach.invariant
    (fun t => ∃ queue, EchoInv t.output t.placed queue) ⟨[], hstart.inv⟩
    fun _ _ _ ⟨_, h⟩ hfits hstep => h.step hfits hstep
  refine ⟨?_, ?_⟩
  · unfold EchoLaw
    rw [hinv.pendingEcho]
    exact hinv.placed
  · intro ch
    change _ ↔ t.output.echoPending + _ < _
    rw [hinv.echoPending]
    constructor
    · intro hlaw
      obtain ⟨o, ho⟩ : ∃ o : Ttyo, o =
        { t.kicked ch with tyoheld := (t.input.ttyhandleIn ch).tyoheld } :=
        ⟨_, rfl⟩
      have hall : t.placed ++ t.echoes ch =
          ((t.echoes ch).foldl Ttyo.eputc o).echoed ++
            pendingEcho ((t.echoes ch).foldl Ttyo.eputc o) := by
        rw [ho]
        exact hlaw
      have hinside : EchoInside o := by
        rw [ho]
        have hhead := hinv.holds.head_nonneg
        have hhead' := hinv.holds.head_lt
        have htail := hinv.holds.tail_inRange
        unfold Tty.kicked
        split_ifs <;> exact ⟨hhead, hhead', htail.1, htail.2⟩
      have hkept : o.echoed = t.output.echoed := by
        rw [ho]
        unfold Tty.kicked
        split_ifs <;> rfl
      obtain ⟨hechoed, hafter⟩ := eputcs_frame (t.echoes ch) hinside
      have hshort := length_pendingEcho hafter
      have hsum := congrArg List.length hall
      rw [hinv.placed, hechoed, hkept] at hsum
      simp only [List.length_append] at hsum
      omega
    · intro hfits
      have hnext := hinv.arrive ch hfits
      unfold EchoLaw
      rw [hnext.pendingEcho]
      exact hnext.placed

end Law

def ttyInit : Tty where
  input := TtyInput.ttyInit
  output := TtyOutput.ttyInit
  tyiecho := true
  tyieback := true
  tyevis := true
  tyecrlf := true
  tyifullc := TY_FULLCH
  placed := []

theorem unused_ttyInit : Unused ttyInit :=
  ⟨⟨le_rfl, by decide⟩, rfl, rfl, rfl⟩

/-- A line with an erased control character, between two interrupts. -/
theorem echo_queue_sound_edited :
    ∃ t, Reach (ttyStep UART_FIFO_SIZE) EchoFits ttyInit t ∧
      (t.placed.length, t.output.echoed.length) = (11, 9) ∧ EchoLaw t := by
  have hview : (run (fun t action => if EchoFits t action then
        ttyStep UART_FIFO_SIZE t action else none) ttyInit
      [.arrive 0x61, .arrive 0x01, .arrive TtyInput.TY_BACKSP, .transmit,
        .arrive TtyInput.TY_RETURN]).map
        (fun t => (t.placed.length, t.output.echoed.length)) = some (11, 9) := by
    decide
  obtain ⟨t, hrun, hlen⟩ := Option.map_eq_some_iff.mp hview
  have hreach := Reach.run_checked _ .start hrun
  exact ⟨t, hreach, hlen, (echo_queue_sound ttyInit unused_ttyInit hreach).1⟩

/-- Twenty characters before the first interrupt. -/
theorem echo_queue_wraps :
    ¬ ∀ t, Reach (ttyStep UART_FIFO_SIZE) (fun _ _ => True) ttyInit t →
      EchoLaw t := by
  intro hlaw
  have hview : (run (fun t action => if True then
        ttyStep UART_FIFO_SIZE t action else none) ttyInit
      (List.replicate 20 (.arrive 0x61))).map
        (fun t => (t.placed.length, t.output.echoed.length,
          (pendingEcho t.output).length)) = some (20, 0, 0) := by
    decide +kernel
  obtain ⟨t, hrun, hlen⟩ := Option.map_eq_some_iff.mp hview
  simp only [Prod.mk.injEq] at hlen
  have hsum := congrArg List.length (hlaw t (Reach.run_checked _ .start hrun))
  rw [List.length_append, hlen.1, hlen.2.1, hlen.2.2] at hsum
  omega

end Xinu.TtyEcho
