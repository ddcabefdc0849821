import Xinu.TtyInput

/-!
# Looking ahead on a tty line

`TC_NEXTC` waits for a character like `ttygetc`, but it looks at the tail of
the buffer, where the next arriving character will be stored, and not at the
head, where the next reader finds its own.  The two agree when the tail cell
holds by chance what the head cell holds.
-/

namespace Xinu.TtyInput

open RingBuffer TransitionSystem

def EOF : ℤ := -2

/-- The value of `ttygetc`; a character comes as a `char`, which is signed. -/
def Getc.devcall : Getc → ℤ
  | .eof => EOF
  | .char ch => ch.toInt

namespace Ttyi

variable (t : Ttyi)

/-- What `ttygetc` makes of the character at the head. -/
def next : Getc :=
  if t.tyimode = .cooked ∧ t.tyeof ∧ t.tyibuff t.tyihead = t.tyeofch then .eof
  else .char (t.tyibuff t.tyihead)

/-- `TC_NEXTC` from the place where it may have waited: its own permit has been
used, and it gives one back. -/
def look (pid : ℤ) : Ttyi × ℤ :=
  let ch := t.tyibuff t.tyitail
  ({ t with tyisem := (t.tyisem.goOn pid).signal }, ch.toInt)

/-- `TC_NEXTC` up to the place where it may have to wait, or to its end. -/
def nextc (pid : ℤ) : Ttyi × Option ℤ :=
  let t : Ttyi := { t with tyisem := t.tyisem.wait pid }
  if t.tyisem.count < 0 then (t, none)
  else
    let (t, value) := t.look pid
    (t, some value)

end Ttyi

inductive LookAction
  | tty (action : TtyiAction)
  | nextc (pid : ℤ)
  | look (pid : ℤ)

/-- A tty, and the processes that wait inside `TC_NEXTC`. -/
structure LookState where
  tty : Ttyi
  looking : List ℤ

/-- A step of the tty, or one of a process that looks ahead. -/
def lookStep (s : LookState) : LookAction → Option LookState
  | .tty (.resume pid) =>
      if pid ∈ s.looking then none
      else (ttyiStep s.tty (.resume pid)).map fun t => { s with tty := t }
  | .tty action => (ttyiStep s.tty action).map fun t => { s with tty := t }
  | .nextc pid =>
      if pid ∈ s.tty.tyisem.members then none
      else
        match s.tty.nextc pid with
        | (t, none) => some ⟨t, pid :: s.looking⟩
        | (t, some _) => some { s with tty := t }
  | .look pid =>
      if pid ∈ s.looking ∧ pid ∈ s.tty.tyisem.passed then
        some ⟨(s.tty.look pid).1, s.looking.erase pid⟩
      else none

def lookInit : LookState := ⟨ttyInit, []⟩

def LookFits (s : LookState) : LookAction → Prop
  | .tty action => AllFit s.tty action
  | _ => True

instance (s : LookState) (action : LookAction) :
    Decidable (LookFits s action) := by
  cases action <;> unfold LookFits <;> infer_instance

section Lookahead

variable {t t' : Ttyi} {pid reader : ℤ}

theorem InInv.look
    {committed : List Ch} (h : InInv t committed)
    (hpassed : pid ∈ t.tyisem.passed) : InInv (t.look pid).1 committed := by
  refine ⟨h.accepted, h.holds, h.cursor, h.sound.goOn.signal, ?_⟩
  have hinside := CountingSemaphore.inside_goOn hpassed
  have hcounted := h.counted
  show (committed.length : ℤ) =
    ((t.tyisem.goOn pid).signal).count + ((t.tyisem.goOn pid).signal).inside
  rw [CountingSemaphore.count_signal, CountingSemaphore.inside_signal,
    CountingSemaphore.count_goOn]
  omega

theorem InInv.nextc
    {committed : List Ch} (h : InInv t committed) (pid : ℤ) :
    InInv (t.nextc pid).1 committed := by
  have hwait : InInv { t with tyisem := t.tyisem.wait pid } committed := by
    refine ⟨h.accepted, h.holds, h.cursor, h.sound.wait, ?_⟩
    have hcounted := h.counted
    rw [CountingSemaphore.count_wait, CountingSemaphore.inside_wait]
    push_cast
    omega
  unfold Ttyi.nextc
  dsimp only
  split_ifs with hcount
  · exact hwait
  · apply hwait.look
    rw [CountingSemaphore.count_wait] at hcount
    dsimp only
    unfold CountingSemaphore.wait
    rw [if_neg hcount]
    exact List.mem_append_right _ (List.mem_singleton.mpr rfl)

theorem LookState.inv
    {s : LookState} (hreach : Reach lookStep LookFits lookInit s) :
    ∃ committed, InInv s.tty committed := by
  refine hreach.invariant (fun s => ∃ committed, InInv s.tty committed)
    ⟨[], rfl, .empty le_rfl (by decide), rfl, .init le_rfl, rfl⟩ ?_
  rintro s action s' ⟨committed, hinv⟩ hfits hstep
  cases action with
  | tty action =>
      have hbase : ∃ t, ttyiStep s.tty action = some t ∧
          { s with tty := t } = s' := by
        cases action with
        | resume pid =>
            simp only [lookStep] at hstep
            split_ifs at hstep
            exact Option.map_eq_some_iff.mp hstep
        | arrive ch => exact Option.map_eq_some_iff.mp hstep
        | getc pid => exact Option.map_eq_some_iff.mp hstep
        | mode mode => exact Option.map_eq_some_iff.mp hstep
      obtain ⟨t, ht, rfl⟩ := hbase
      exact hinv.step hfits ht
  | nextc pid =>
      have hnext := hinv.nextc pid
      simp only [lookStep] at hstep
      split_ifs at hstep
      cases hr : s.tty.nextc pid with
      | mk t value =>
          rw [hr] at hstep hnext
          cases value <;> cases hstep <;> exact ⟨committed, hnext⟩
  | look pid =>
      simp only [lookStep] at hstep
      split_ifs at hstep with hcond
      cases hstep
      exact ⟨committed, hinv.look hcond.2⟩

/-- What an arriving character never changes. -/
structure HeadKept (t t' : Ttyi) : Prop where
  tyihead : t'.tyihead = t.tyihead
  tyimode : t'.tyimode = t.tyimode
  tyeof : t'.tyeof = t.tyeof
  tyeofch : t'.tyeofch = t.tyeofch
  delivered : t'.delivered = t.delivered
  accepted : ∃ l, t'.accepted = t.accepted ++ l
  count : t.tyisem.count ≤ t'.tyisem.count

theorem HeadKept.trans
    {t'' : Ttyi} (h : HeadKept t t') (h' : HeadKept t' t'') :
    HeadKept t t'' := by
  obtain ⟨l, hl⟩ := h.accepted
  obtain ⟨l', hl'⟩ := h'.accepted
  exact ⟨h'.tyihead.trans h.tyihead, h'.tyimode.trans h.tyimode,
    h'.tyeof.trans h.tyeof, h'.tyeofch.trans h.tyeofch,
    h'.delivered.trans h.delivered,
    ⟨l ++ l', by rw [hl', hl, List.append_assoc]⟩, h.count.trans h'.count⟩

/-- The character that the next reader gets stays while others arrive. -/
theorem HeadKept.next_eq
    {committed committed' : List Ch} (hkept : HeadKept t t')
    (h : InInv t committed) (h' : InInv t' committed')
    (havail : 0 < t.tyisem.count) : t'.next = t.next := by
  have hcell : t'.tyibuff t'.tyihead = t.tyibuff t.tyihead := by
    obtain ⟨l, haccepted⟩ := hkept.accepted
    rw [h.accepted, h'.accepted, hkept.delivered, List.append_assoc,
      List.append_cancel_left_eq] at haccepted
    have hcounted := h.counted
    cases committed with
    | nil =>
        rw [List.length_nil] at hcounted
        push_cast at hcounted
        omega
    | cons c rest =>
        have hholds := h.holds
        have hholds' := h'.holds
        rw [haccepted, List.cons_append, List.cons_append] at hholds'
        rw [List.cons_append] at hholds
        rw [hholds.first, hholds'.first]
  unfold Ttyi.next
  rw [hcell, hkept.tyimode, hkept.tyeof, hkept.tyeofch]

end Lookahead

end Xinu.TtyInput
