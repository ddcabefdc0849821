import Xinu.KernelRuns

/-!
# Semaphores

The count of a semaphore stands for two things: permits that are left, when it
is positive, and processes that wait, when it is negative.  The log tells how
many permits there were, how many waits they let pass, and who waits in which
order.  Every move keeps the three in step.
-/

namespace Xinu

open ByteMemory LinkedTable Placement TransitionSystem Kernel

/-! ## What the log says about a semaphore -/

/-- One event, seen from the waiting line of `sem`. -/
def lineStep (sem : ℤ) (line : List ℤ) : Event → Option (List ℤ)
  | .started s _ =>
      if s = sem then (if line = [] then some [] else none) else some line
  | .waited s p => some (if s = sem then line ++ [p] else line)
  | .released s p | .flushed s p =>
      if s = sem then (if line.head? = some p then some line.tail else none)
      else some line
  | .withdrawn s p => some (if s = sem then line.erase p else line)
  | _ => some line

/-- The processes that wait for `sem`, in the order in which they came; it is
`none` when somebody has been released out of turn. -/
def waitLine (sem : ℤ) : List Event → Option (List ℤ)
  | [] => some []
  | e :: log => (waitLine sem log).bind fun line => lineStep sem line e

/-- The starting count and the signals since the semaphore was last created or
reset. -/
def permits (sem : ℤ) : List Event → ℤ
  | [] => 0
  | .started s count :: log => if s = sem then count else permits sem log
  | .signalled s :: log => permits sem log + if s = sem then 1 else 0
  | _ :: log => permits sem log

/-- The waits that were passed since the semaphore was last created or reset,
without those that a reset or a deletion ended. -/
def passes (sem : ℤ) : List Event → ℤ
  | [] => 0
  | .started s _ :: log => if s = sem then 0 else passes sem log
  | .passed s :: log => passes sem log + if s = sem then 1 else 0
  | .released s _ :: log => passes sem log + if s = sem then 1 else 0
  | _ :: log => passes sem log

def OfSem (sem : ℤ) : Event → Prop
  | .started s _ | .passed s | .waited s _ | .signalled s | .released s _
  | .flushed s _ | .withdrawn s _ => s = sem
  | _ => False

section Replay

variable {sem p : ℤ} {log w later earlier : List Event} {line : List ℤ}

/-- An event about another semaphore changes nothing of this one. -/
theorem quiet_event {e : Event} (he : ¬ OfSem sem e) :
    (∀ line, lineStep sem line e = some line) ∧
      permits sem (e :: log) = permits sem log ∧
      passes sem (e :: log) = passes sem log := by
  cases e with
  | started s _ | passed s | waited s _ | signalled s | released s _
  | flushed s _ | withdrawn s _ =>
      have hother : s ≠ sem := he
      simp [lineStep, permits, passes, hother]
  | _ => exact ⟨fun _ => rfl, rfl, rfl⟩

theorem replay_quiet (hquiet : ∀ e ∈ w, ¬ OfSem sem e) :
    waitLine sem (w ++ log) = waitLine sem log ∧
      permits sem (w ++ log) = permits sem log ∧
      passes sem (w ++ log) = passes sem log := by
  induction w with
  | nil => exact ⟨rfl, rfl, rfl⟩
  | cons e w ih =>
      obtain ⟨hline, hpermits, hpasses⟩ :=
        ih fun x hx => hquiet x (List.mem_cons_of_mem _ hx)
      obtain ⟨hstep, hpermit, hpass⟩ := quiet_event (hquiet e List.mem_cons_self)
      rw [List.cons_append, waitLine, hline]
      refine ⟨?_, hpermit.trans hpermits, hpass.trans hpasses⟩
      cases waitLine sem log with
      | none => rfl
      | some line => exact hstep line

theorem waitLine_append (hlog : waitLine sem (later ++ log) = some line) :
    ∃ before, waitLine sem log = some before := by
  induction later generalizing line with
  | nil => exact ⟨line, hlog⟩
  | cons e later ih =>
      rw [List.cons_append, waitLine, Option.bind_eq_some_iff] at hlog
      obtain ⟨before, hbefore, -⟩ := hlog
      exact ih hbefore

/-- Whoever is released is the first in line. -/
theorem waitLine_released
    (hlog : waitLine sem (later ++ .released sem p :: earlier) = some line) :
    ∃ rest, waitLine sem earlier = some (p :: rest) := by
  obtain ⟨after, hafter⟩ := waitLine_append hlog
  rw [waitLine, Option.bind_eq_some_iff] at hafter
  obtain ⟨before, hbefore, hstep⟩ := hafter
  rw [lineStep, if_pos rfl] at hstep
  split_ifs at hstep with hhead
  cases before with
  | nil => cases hhead
  | cons x rest =>
      cases hhead
      exact ⟨rest, hbefore⟩

end Replay

/-! ## The books of one semaphore -/

/-- The entry `s` of the semaphore, its queue and the log agree. -/
structure SemBooks
    (deleting : Prop) (sem : ℤ) (s : Sentry) (line : List ℤ)
    (log : List Event) : Prop where
  replay : waitLine sem log = some line
  length : (line.length : ℤ) = max 0 (-s.scount)
  books : s.sstate = .used →
    s.scount + line.length + passes sem log = permits sem log
  bound : passes sem log ≤ permits sem log
  idle : ¬ deleting → s.sstate = .free → 0 ≤ s.scount

/-- The action deletes the semaphore, which was in use when it began. -/
def Deleting (action : Action) (a : Kernel QueueLists) (sem : ℤ) : Prop :=
  action = .call (.semdelete sem) ∧ (a.semtab sem).sstate = .used

def SemInv (action : Action) (a b : Kernel QueueLists) : Prop :=
  ∀ sem, SemId sem → SemBooks (Deleting action a sem) sem (b.semtab sem)
    (b.waiters sem) b.log

section Books

variable {action : Action} {a b c : Kernel QueueLists} {sem p x : ℤ}
variable {w log : List Event} {deleting : Prop} {s : Sentry}
variable {line : List ℤ}

theorem SemBooks.quiet
    (h : SemBooks deleting sem s line log)
    (hquiet : ∀ e ∈ w, ¬ OfSem sem e) :
    SemBooks deleting sem s line (w ++ log) := by
  obtain ⟨hline, hpermits, hpasses⟩ :
      waitLine sem (w ++ log) = waitLine sem log ∧
        permits sem (w ++ log) = permits sem log ∧
        passes sem (w ++ log) = passes sem log := replay_quiet hquiet
  constructor
  · rw [hline]
    exact h.replay
  · exact h.length
  · rw [hpasses, hpermits]
    exact h.books
  · rw [hpasses, hpermits]
    exact h.bound
  · exact h.idle

/-- Moves that concern no semaphore. -/
theorem SemInv.same
    (h : SemInv action a b) (hsemtab : c.semtab = b.semtab)
    (hwaiters : ∀ sem, SemId sem → c.waiters sem = b.waiters sem)
    (hlog : c.log = w ++ b.log)
    (hquiet : ∀ sem, ∀ e ∈ w, ¬ OfSem sem e) : SemInv action a c := by
  intro sem hid
  rw [hsemtab, hwaiters sem hid, hlog]
  exact (h sem hid).quiet (hquiet sem)

/-- Moves that concern one semaphore. -/
theorem SemInv.at
    (sem : ℤ) (h : SemInv action a b)
    (hsemtab : ∀ x, x ≠ sem → c.semtab x = b.semtab x)
    (hwaiters : ∀ x, SemId x → x ≠ sem → c.waiters x = b.waiters x)
    (hlog : c.log = w ++ b.log)
    (hquiet : ∀ x, x ≠ sem → ∀ e ∈ w, ¬ OfSem x e)
    (hself : SemId sem → SemBooks (Deleting action a sem) sem (c.semtab sem)
      (c.waiters sem) c.log) : SemInv action a c := by
  intro x hid
  by_cases hx : x = sem
  · subst hx
    exact hself hid
  · rw [hsemtab x hx, hwaiters x hid hx, hlog]
    exact (h x hid).quiet (hquiet x hx)

theorem not_ofSem_nil (sem : ℤ) : ∀ e ∈ ([] : List Event), ¬ OfSem sem e := by
  simp

theorem waiters_enlist (b : Kernel QueueLists) (p : ℤ) (hid : SemId sem) :
    (b.enlist p).waiters sem = b.waiters sem :=
  lists_enlist_of_ne b p (semq_ne_readyq hid)

/-- A process that does not wait is on no semaphore's queue. -/
theorem Queued.waiters_erase
    (hq : Queued b) (hp : b.state p ≠ .wait) (hid : SemId sem) :
    (b.waiters sem).erase p = b.waiters sem := by
  refine List.erase_of_not_mem fun hmem => hp ?_
  exact ((hq.mem_waiters hid).mp hmem).1

theorem waiters_delay
    (b : Kernel QueueLists) (p ticks : ℤ) (s : PrState) (hid : SemId sem) :
    (b.delay p ticks s).waiters sem = b.waiters sem :=
  lists_insertd_of_ne ticks (semq_ne_sleepq hid)

theorem waiters_unsleepEarly
    (hq : Queued b) (hp : b.state p ≠ .wait) (hid : SemId sem) :
    (b.unsleepEarly p).waiters sem = b.waiters sem := by
  show ((b.queues.creditNext p SLEEPQ).lists (semq sem)).erase p = _
  rw [lists_creditNext]
  exact hq.waiters_erase hp hid

theorem Queued.waiters_length_le (hq : Queued b) (hid : SemId sem) :
    (b.waiters sem).length ≤ 100 := by
  refine processes_length_le (hq.placed.nodup _) fun hmem => ?_
  exact hq.bounded (by simp [((hq.mem_waiters hid).mp hmem).1])

theorem semtab_bumpCount (b : Kernel QueueLists) (sem step : ℤ) :
    (b.bumpCount sem step).semtab sem =
      { b.semtab sem with scount := int32 ((b.semtab sem).scount + step) } := by
  rw [bumpCount, setScount, semtab_setSem_self]

theorem semtab_bumpCount_of_ne (step : ℤ) (hx : x ≠ sem) :
    (b.bumpCount sem step).semtab x = b.semtab x := by
  rw [bumpCount, setScount, semtab_setSem_of_ne _ _ _ _ hx]

/-- A waiter leaves the line without a signal, and the count goes up. -/
theorem SemBooks.leave
    {e : Event} {rest : List ℤ}
    (h : SemBooks deleting sem s line log) (hle : line.length ≤ 100)
    (hlength : line.length = rest.length + 1)
    (hline : waitLine sem (e :: log) = some rest)
    (hpermits : permits sem (e :: log) = permits sem log)
    (hpasses : passes sem (e :: log) = passes sem log) :
    SemBooks deleting sem { s with scount := int32 (s.scount + 1) } rest
      (e :: log) := by
  have hlen := h.length
  have hscount : int32 (s.scount + 1) = s.scount + 1 :=
    int32_of_range (by omega) (by omega)
  constructor
  · exact hline
  · show (rest.length : ℤ) = max 0 (-int32 (s.scount + 1))
    rw [hscount]
    omega
  · intro hused
    have hbooks := h.books hused
    show int32 (s.scount + 1) + _ + _ = _
    rw [hscount, hpermits, hpasses]
    omega
  · rw [hpermits, hpasses]
    exact h.bound
  · intro hnot hfree
    have hidle := h.idle hnot hfree
    omega

theorem waitLine_cons
    {e : Event} {rest : List ℤ} (hlog : waitLine sem log = some line)
    (hstep : lineStep sem line e = some rest) :
    waitLine sem (e :: log) = some rest := by
  rw [waitLine, hlog]
  exact hstep

/-- A wait that passes takes a permit. -/
theorem SemBooks.pass
    (h : SemBooks deleting sem s line log) (hused : s.sstate = .used)
    (hrange : InRange s.scount) (hle : line.length ≤ 100)
    (hcount : 0 ≤ int32 (s.scount - 1)) :
    SemBooks deleting sem { s with scount := int32 (s.scount + -1) } line
      (.passed sem :: log) := by
  have hlen := h.length
  obtain ⟨hlow, hhigh⟩ := hrange
  have hscount : int32 (s.scount - 1) = s.scount - 1 :=
    int32_of_range (by omega) (by omega)
  rw [hscount] at hcount
  have hbooks := h.books hused
  have hpasses : passes sem (.passed sem :: log) = passes sem log + 1 := by
    simp [passes]
  rw [← sub_eq_add_neg, hscount]
  constructor
  · exact waitLine_cons h.replay rfl
  · show _ = max 0 (-(s.scount - 1))
    omega
  · intro _
    show s.scount - 1 + _ + _ = permits sem log
    rw [hpasses]
    omega
  · rw [hpasses]
    show _ ≤ permits sem log
    omega
  · intro _ hfree
    exact hcount

theorem SemBooks.wait
    (h : SemBooks deleting sem s line log) (hused : s.sstate = .used)
    (hrange : InRange s.scount) (hle : line.length ≤ 100)
    (hcount : int32 (s.scount - 1) < 0) :
    SemBooks deleting sem { s with scount := int32 (s.scount + -1) }
      (line ++ [p]) (.waited sem p :: log) := by
  have hlen := h.length
  obtain ⟨hlow, hhigh⟩ := hrange
  have hscount : int32 (s.scount - 1) = s.scount - 1 :=
    int32_of_range (by omega) (by omega)
  rw [hscount] at hcount
  have hbooks := h.books hused
  rw [← sub_eq_add_neg, hscount]
  constructor
  · refine waitLine_cons h.replay ?_
    rw [lineStep, if_pos rfl]
  · rw [List.length_append]
    show ((line.length + 1 : ℕ) : ℤ) = max 0 (-(s.scount - 1))
    push_cast
    omega
  · intro _
    rw [List.length_append]
    show s.scount - 1 + ((line.length + 1 : ℕ) : ℤ) + passes sem log =
      permits sem log
    push_cast
    omega
  · exact h.bound
  · intro _ hfree
    rw [show s.sstate = .free from hfree] at hused
    cases hused

/-- A signal that nobody waits for is a permit. -/
theorem SemBooks.signal
    (h : SemBooks deleting sem s line log) (hused : s.sstate = .used)
    (hcount : 0 ≤ s.scount) (hrange : s.scount + 1 < 2 ^ 31) :
    SemBooks deleting sem { s with scount := int32 (s.scount + 1) } line
      (.signalled sem :: log) := by
  have hlen := h.length
  have hbooks := h.books hused
  have hpermits : permits sem (.signalled sem :: log) =
      permits sem log + 1 := by
    simp [permits]
  rw [int32_of_range (by omega) hrange]
  constructor
  · exact waitLine_cons h.replay rfl
  · show _ = max 0 (-(s.scount + 1))
    omega
  · intro _
    rw [hpermits]
    show s.scount + 1 + _ + passes sem log = _
    omega
  · have hbound := h.bound
    rw [hpermits]
    show passes sem log ≤ _
    omega
  · intro _ hfree
    rw [show s.sstate = .free from hfree] at hused
    cases hused

/-- A signal lets the first process of the line pass. -/
theorem SemBooks.release
    {rest : List ℤ} (h : SemBooks deleting sem s (p :: rest) log)
    (hused : s.sstate = .used) (hle : (p :: rest).length ≤ 100) :
    SemBooks deleting sem { s with scount := int32 (s.scount + 1) } rest
      (.released sem p :: .signalled sem :: log) := by
  have hlen := h.length
  have hbooks := h.books hused
  have hbound := h.bound
  rw [List.length_cons] at hlen hbooks hle
  push_cast at hlen hbooks
  have hpermits : permits sem (.released sem p :: .signalled sem :: log) =
      permits sem log + 1 := by
    simp [permits]
  have hpasses : passes sem (.released sem p :: .signalled sem :: log) =
      passes sem log + 1 := by
    simp [passes]
  rw [int32_of_range (by omega) (by omega)]
  constructor
  · refine waitLine_cons (waitLine_cons h.replay rfl) ?_
    simp [lineStep]
  · show _ = max 0 (-(s.scount + 1))
    omega
  · intro _
    rw [hpermits, hpasses]
    show s.scount + 1 + _ + _ = _
    omega
  · rw [hpermits, hpasses]
    omega
  · intro _ hfree
    rw [show s.sstate = .free from hfree] at hused
    cases hused

/-- The semaphore starts with a count and nobody in line. -/
theorem SemBooks.started
    {count : ℤ} (h : SemBooks deleting sem s [] log) (hpos : 0 ≤ count)
    {s' : Sentry} (hcount : s'.scount = count) :
    SemBooks deleting sem s' [] (.started sem count :: log) := by
  have hpermits : permits sem (.started sem count :: log) = count := by
    simp [permits]
  have hpasses : passes sem (.started sem count :: log) = 0 := by
    simp [passes]
  constructor
  · refine waitLine_cons h.replay ?_
    simp [lineStep]
  · rw [hcount, List.length_nil]
    push_cast
    omega
  · intro _
    rw [hpermits, hpasses, hcount]
    simp
  · rw [hpermits, hpasses]
    exact hpos
  · intro _ _
    omega

end Books

/-! ## Moves -/

section Moves

variable {action : Action} {a b c : Kernel QueueLists} {sem p v : ℤ}

theorem SemInv.unlink
    (h : SemInv action a b) (hq : Queued b) (hp : b.state p ≠ .wait) :
    SemInv action a (b.unlink p) :=
  h.same rfl (fun _ hid => hq.waiters_erase hp hid) rfl not_ofSem_nil

theorem SemInv.enlist (h : SemInv action a b) : SemInv action a (b.enlist p) :=
  h.same rfl (fun _ hid => waiters_enlist b p hid) rfl not_ofSem_nil

theorem SemInv.unsleepEarly
    (h : SemInv action a b) (hq : Queued b) (hp : b.state p ≠ .wait) :
    SemInv action a (b.unsleepEarly p) :=
  h.same rfl (fun _ hid => waiters_unsleepEarly hq hp hid)
    (w := [.unslept p]) rfl (by simp [OfSem])

/-- A waiter leaves the line without a signal. -/
theorem SemInv.leave
    {e : Event} {rest : List ℤ} (h : SemInv action a b) (hq : Queued b)
    (hid : SemId sem) (hsemtab : c.semtab = (b.bumpCount sem 1).semtab)
    (hwaiters : ∀ x, SemId x → x ≠ sem → c.waiters x = b.waiters x)
    (hrest : c.waiters sem = rest) (hlog : c.log = e :: b.log)
    (hquiet : ∀ x, x ≠ sem → ¬ OfSem x e)
    (hlength : (b.waiters sem).length = rest.length + 1)
    (hstep : lineStep sem (b.waiters sem) e = some rest)
    (hpermits : permits sem (e :: b.log) = permits sem b.log)
    (hpasses : passes sem (e :: b.log) = passes sem b.log) :
    SemInv action a c := by
  refine h.at sem ?_ hwaiters (w := [e]) hlog ?_ ?_
  · intro x hx
    rw [hsemtab, semtab_bumpCount_of_ne 1 hx]
  · intro x hx ev hev
    rw [List.mem_singleton.mp hev]
    exact hquiet x hx
  · intro _
    rw [hsemtab, semtab_bumpCount, hrest, hlog]
    exact (h sem hid).leave (hq.waiters_length_le hid) hlength
      (waitLine_cons (h sem hid).replay hstep) hpermits hpasses

/-- Another semaphore's line does not hold a waiter of `sem`. -/
theorem Queued.waiters_erase_other
    {x : ℤ} (hq : Queued b) (hid : SemId sem) (hidx : SemId x) (hx : x ≠ sem)
    (hp : p ∈ b.waiters sem) : (b.waiters x).erase p = b.waiters x := by
  refine List.erase_of_not_mem fun hmem => hx ?_
  have hsem := ((hq.mem_waiters hid).mp hp).2
  rw [← ((hq.mem_waiters hidx).mp hmem).2, hsem]

theorem SemInv.setFree (h : SemInv action a b) (v : ℤ) :
    SemInv action a (b.setFree v) :=
  h.same rfl (fun _ _ => rfl) rfl not_ofSem_nil

theorem SemInv.bury (h : SemInv action a b) (hq : Queued b) (v : ℤ) :
    SemInv action a (b.bury v) := by
  unfold Kernel.bury
  split
  case h_3 hwait =>
      have hid := hq.waits hwait
      have hmem : v ∈ b.waiters (b.proctab v).prsem :=
        (hq.mem_waiters hid).mpr ⟨hwait, rfl⟩
      have hleave : SemInv action a (((b.bumpCount (b.proctab v).prsem 1).unlink
          v).note (.withdrawn (b.proctab v).prsem v)) := by
        refine h.leave hq hid rfl ?_ rfl rfl ?_ ?_ ?_ rfl rfl
        · exact fun x hidx hx => hq.waiters_erase_other hid hidx hx hmem
        · exact fun x hx heq => hx heq.symm
        · show _ = ((b.waiters _).erase v).length + 1
          rw [List.length_erase_of_mem hmem]
          have hpos := List.length_pos_of_mem hmem
          omega
        · rw [lineStep, if_pos rfl]
          rfl
      exact hleave.setFree v
  case h_1 hsleep =>
      exact (h.unsleepEarly hq (by simp [hsleep])).setFree v
  case h_2 hrectim =>
      exact (h.unsleepEarly hq (by simp [hrectim])).setFree v
  case h_4 hready =>
      exact (h.unlink hq (by simp [hready])).setFree v
  case h_5 => exact h.setFree v

/-- The line after its first process has become ready. -/
theorem waiters_release
    {l : List ℤ} (hid : SemId sem) (hfirst : b.waiters sem = p :: l) :
    ((b.unlink p).enlist p).waiters sem = l := by
  rw [waiters_enlist (b.unlink p) p hid]
  show (b.waiters sem).erase p = l
  rw [hfirst, List.erase_cons_head]

/-- Every move keeps the books of every semaphore. -/
theorem Move.semInv
    (hmove : Move action a b c) (hrange : SignalsInRange a action)
    (hq : Queued b) (h : SemInv action a b) : SemInv action a c := by
  have hnil := not_ofSem_nil
  have hsame : ∀ {c : Kernel QueueLists}, c.semtab = b.semtab →
      c.queues = b.queues → c.log = b.log → SemInv action a c := by
    intro c hsemtab hqueues hlog
    refine h.same hsemtab (fun sem _ => ?_) (w := []) hlog hnil
    unfold waiters Kernel.lists
    rw [hqueues]
  have hnote : ∀ (c : Kernel QueueLists) (e : Event), c.semtab = b.semtab →
      c.queues = b.queues → c.log = e :: b.log → (∀ sem, ¬ OfSem sem e) →
        SemInv action a c := by
    intro c e hsemtab hqueues hlog he
    refine h.same hsemtab (fun sem _ => ?_) (w := [e]) hlog ?_
    · unfold waiters Kernel.lists
      rw [hqueues]
    · intro sem ev hev
      rw [List.mem_singleton.mp hev]
      exact he sem
  cases hmove with
  | adjust hadjust =>
      rw [hadjust.eq]
      exact hsame rfl rfl rfl
  | demote => exact h.enlist
  | @dispatch _ p l hidle hfirst =>
      have hready : b.state p = .ready := by
        rw [← hq.mem_readyq, hfirst]
        simp
      have hunlink := h.unlink hq (p := p) (by simp [hready])
      exact hunlink.same rfl (fun _ _ => rfl) rfl hnil
  | suspendCurr => exact hsame rfl rfl rfl
  | @suspendReady _ p hready =>
      have hunlink := h.unlink hq (p := p) (by simp [hready])
      exact hunlink.same rfl (fun _ _ => rfl) rfl hnil
  | resume => exact h.enlist
  | chprio => exact hsame rfl rfl rfl
  | @deliver _ p msg => exact hnote _ (.sent p msg) rfl rfl rfl (by simp [OfSem])
  | @deliverRecv _ p msg =>
      have hdeposit : SemInv action a (b.deposit p msg) :=
        hnote _ (.sent p msg) rfl rfl rfl (by simp [OfSem])
      exact hdeposit.enlist
  | @deliverRectim _ p msg hempty hrectim =>
      have hdeposit : SemInv action a (b.deposit p msg) :=
        hnote _ (.sent p msg) rfl rfl rfl (by simp [OfSem])
      exact (hdeposit.unsleepEarly (hq.deposit p msg) (by simp [hrectim])).enlist
  | awaitMessage => exact hsame rfl rfl rfl
  | fetch => exact hnote _ _ rfl rfl rfl (by simp [OfSem])
  | fetchRet => exact hnote _ _ rfl rfl rfl (by simp [OfSem])
  | fetchTimed => exact hnote _ _ rfl rfl rfl (by simp [OfSem])
  | timeOut => exact hnote _ _ rfl rfl rfl (by simp [OfSem])
  | @sleep _ ticks =>
      exact h.same rfl (fun _ hid => waiters_delay b _ _ _ hid)
        (w := [.slept b.currpid ticks]) rfl (by simp [OfSem])
  | @awaitTimed _ ticks =>
      exact h.same rfl (fun _ hid => waiters_delay b _ ticks .rectim hid)
        (w := [.slept b.currpid ticks]) rfl (by simp [OfSem])
  | tick =>
      refine h.same rfl (fun sem _ => ?_) (w := [.ticked]) rfl
        (by simp [OfSem])
      exact congrFun (lists_decFirstkey SLEEPQ a.queues) (semq sem)
  | @expire _ p l haction hfirst hdue =>
      have hmem : p ∈ b.lists SLEEPQ := by simp [hfirst]
      have hwait : b.state p ≠ .wait := by
        rcases hq.mem_sleepq.mp hmem with hs | hs <;> simp [hs]
      have hexpired : SemInv action a ((b.unlink p).note (.expired p)) :=
        (h.unlink hq hwait).same rfl (fun _ _ => rfl) (w := [.expired p])
          rfl (by simp [OfSem])
      exact hexpired.enlist
  | @pass _ sem hid hused hcount =>
      refine h.at sem (fun x hx => semtab_bumpCount_of_ne (-1) hx)
        (fun _ _ _ => rfl) (w := [.passed sem]) rfl ?_ fun _ => ?_
      · simp [OfSem, eq_comm]
      · show SemBooks _ sem ((b.bumpCount sem (-1)).semtab sem) _ _
        rw [semtab_bumpCount]
        exact (h sem hid).pass hused (hq.wired.counts sem)
          (hq.waiters_length_le hid) hcount
  | @wait _ sem hid hused hcurr hnull hcount =>
      have hline : ∀ x, ((b.bumpCount sem (-1)).waitOn sem b.currpid).waiters x =
          if x = sem then b.waiters sem ++ [b.currpid] else b.waiters x := by
        intro x
        show Function.update b.queues.lists (semq sem) _ (semq x) = _
        by_cases hx : x = sem
        · rw [hx, Function.update_self, if_pos rfl]
          rfl
        · rw [Function.update_of_ne (mt semq_inj.mp hx), if_neg hx]
          rfl
      refine h.at sem (fun x hx => semtab_bumpCount_of_ne (-1) hx) ?_
        (w := [.waited sem b.currpid]) rfl ?_ fun _ => ?_
      · intro x _ hx
        rw [hline, if_neg hx]
      · simp [OfSem, eq_comm]
      · show SemBooks _ sem ((b.bumpCount sem (-1)).semtab sem) _ _
        rw [semtab_bumpCount, hline, if_pos rfl]
        exact (h sem hid).wait hused (hq.wired.counts sem)
          (hq.waiters_length_le hid) hcount
  | @signal _ sem hid hused hcount hone =>
      refine h.at sem (fun x hx => semtab_bumpCount_of_ne 1 hx)
        (fun _ _ _ => rfl) (w := [.signalled sem]) rfl ?_ fun _ => ?_
      · simp [OfSem, eq_comm]
      · show SemBooks _ sem ((b.bumpCount sem 1).semtab sem) _ _
        rw [semtab_bumpCount]
        exact (h sem hid).signal hused hcount (hone hrange)
  | @release _ sem p l hid hused hcount hfirst =>
      have hmem : p ∈ b.waiters sem := by simp [hfirst]
      have hlength := hq.waiters_length_le hid
      have hbooks := h sem hid
      rw [hfirst] at hbooks hlength
      refine h.at sem (fun x hx => semtab_bumpCount_of_ne 1 hx) ?_
        (w := [.released sem p, .signalled sem]) rfl ?_ fun _ => ?_
      · intro x hidx hx
        refine (waiters_enlist _ p hidx).trans ?_
        exact hq.waiters_erase_other hid hidx hx hmem
      · simp [OfSem, eq_comm]
      · show SemBooks _ sem ((b.bumpCount sem 1).semtab sem)
          (((b.unlink p).enlist p).waiters sem) _
        rw [semtab_bumpCount, waiters_release hid hfirst]
        exact hbooks.release hused hlength
  | @flush _ sem p l hid hfirst =>
      have hmem : p ∈ b.waiters sem := by simp [hfirst]
      refine h.leave hq hid rfl ?_ (waiters_release hid hfirst) rfl
        (by simp [OfSem, eq_comm]) (by rw [hfirst]; rfl) ?_ rfl rfl
      · intro x hidx hx
        refine (waiters_enlist _ p hidx).trans ?_
        exact hq.waiters_erase_other hid hidx hx hmem
      · simp [lineStep, hfirst]
  | @stray _ sem w hid hcount hnone =>
      have hlength := (h sem hid).length
      rw [hnone, List.length_nil] at hlength
      push_cast at hlength
      omega
  | @semcreate _ sem count haction hid hfree hpos =>
      have hbooks := h sem hid
      have hidle := hbooks.idle (fun hdel => by
        obtain ⟨n, hn⟩ := haction
        rw [hn] at hdel
        cases hdel.1) hfree
      have hnone : b.waiters sem = [] := by
        have hlength := hbooks.length
        exact List.eq_nil_of_length_eq_zero (by omega)
      rw [hnone] at hbooks
      let used : Sentry → Sentry := fun s =>
        { s with sstate := .used, scount := count }
      refine h.at sem (fun x hx => semtab_setSem_of_ne b x sem used hx)
        (fun _ _ _ => rfl) (w := [.started sem count]) rfl ?_ fun _ => ?_
      · simp [OfSem, eq_comm]
      · rw [show ((b.setSem sem used).note (.started sem count)).waiters sem =
          [] from hnone]
        refine hbooks.started hpos ?_
        exact congrArg Sentry.scount (semtab_setSem_self b sem used)
  | @semreset _ sem count hid hused hnone hpos =>
      have hbooks := h sem hid
      rw [hnone] at hbooks
      let reset : Sentry → Sentry := fun s => { s with scount := count }
      refine h.at sem (fun x hx => semtab_setSem_of_ne b x sem reset hx)
        (fun _ _ _ => rfl) (w := [.started sem count]) rfl ?_ fun _ => ?_
      · simp [OfSem, eq_comm]
      · rw [show ((b.setScount sem count).note (.started sem count)).waiters sem =
          [] from hnone]
        refine hbooks.started hpos ?_
        exact congrArg Sentry.scount (semtab_setSem_self b sem reset)
  | @semfree sem haction hid hused =>
      refine h.at sem (fun x hx => semtab_setSem_of_ne _ _ _ _ hx)
        (fun _ _ _ => rfl) (w := []) rfl (fun x _ => hnil x) fun _ => ?_
      rw [semtab_setSem_self]
      have hbooks := h sem hid
      refine ⟨hbooks.replay, hbooks.length, ?_, hbooks.bound, ?_⟩
      · intro hused
        cases hused
      · exact fun hnot => absurd ⟨haction, hused⟩ hnot
  | @semdone _ sem hid hfree hcount hone =>
      refine h.at sem (fun x hx => semtab_bumpCount_of_ne 1 hx)
        (fun _ _ _ => rfl) (w := []) rfl (fun x _ => hnil x) fun _ => ?_
      have hbooks := h sem hid
      have hlength := hbooks.length
      have hhigh := hone hrange
      rw [semtab_bumpCount, int32_of_range (by omega) hhigh]
      refine ⟨hbooks.replay, ?_, ?_, hbooks.bound, ?_⟩
      · show ((b.waiters sem).length : ℤ) = max 0 (-((b.semtab sem).scount + 1))
        omega
      · intro hused
        rw [show (b.semtab sem).sstate = .used from hused] at hfree
        cases hfree
      · intro _ _
        show 0 ≤ (b.semtab sem).scount + 1
        omega
  | @create _ p entry =>
      exact hnote _ (.created p b.births) rfl rfl rfl (by simp [OfSem])
  | setdesc => exact hsame rfl rfl rfl
  | pushFrame => exact hsame rfl rfl rfl
  | popFrame => exact hsame rfl rfl rfl
  | kill => exact hsame rfl rfl rfl
  | killClose => exact hsame rfl rfl rfl
  | @killFinish v s i rest haction hctx hlast hcurr =>
      have hfreed : SemInv action a ((a.popFrame a.currpid).note
          (.stackFreed v (a.proctab v).serial)) :=
        hnote _ _ rfl rfl rfl (by simp [OfSem])
      exact hfreed.bury ((hq.popFrame _).note _) v

theorem Moves.semInv
    (hmoves : Moves action a a c) (hrange : SignalsInRange a action)
    (hq : Queued a) (h : SemInv action a a) : SemInv action a c := by
  have hboth : Queued c ∧ SemInv action a c := by
    induction hmoves with
    | refl => exact ⟨hq, h⟩
    | tail _ hmove ih =>
        exact ⟨hmove.queued ih.1, hmove.semInv hrange ih.1 ih.2⟩
  exact hboth.2

end Moves

/-! ## Runs -/

/-- An entry in use has one process in its queue for each unit below zero, all
of them waiting for it, in the order in which they came; whoever is released is
the first in line; and no more waits have passed than there were permits. -/
structure SemaphoreLaw (k : Kernel Queuetab) (sem : ℤ) : Prop where
  queue : (k.semtab sem).sstate = .used → ∃ l,
    Linked k.queues.next k.queues.prev (k.semtab sem).squeue l
      ((k.semtab sem).squeue + 1) ∧
    l.Nodup ∧ (l.length : ℤ) = max 0 (-(k.semtab sem).scount) ∧
    (∀ p, p ∈ l ↔ k.state p = .wait ∧ (k.proctab p).prsem = sem) ∧
    waitLine sem k.log = some l
  order : ∀ {p later earlier}, k.log = later ++ .released sem p :: earlier →
    ∃ rest, waitLine sem earlier = some (p :: rest)
  bound : passes sem k.log ≤ permits sem k.log

section Law

variable {mem : Memory} {memlistAddr imageEnd : Word}
variable {k₀ k : Kernel Queuetab} {action : Action} {a c : Kernel QueueLists}
variable {sem : ℤ}

/-- Between two steps no semaphore is being deleted. -/
def SemSettled (a : Kernel QueueLists) : Prop :=
  ∀ sem, SemId sem →
    SemBooks False sem (a.semtab sem) (a.waiters sem) a.log

theorem SemSettled.start (h : SemSettled a) : SemInv action a a := by
  intro sem hid
  have hbooks := h sem hid
  exact ⟨hbooks.replay, hbooks.length, hbooks.books, hbooks.bound,
    fun _ => hbooks.idle not_false⟩

/-- A deletion leaves a positive count behind. -/
theorem SemInv.settled
    (h : SemInv action a c) (ha : SemSettled a)
    (hrange : SignalsInRange a action) (hcompleted : Completed action a c) :
    SemSettled c := by
  intro sem hid
  have hbooks := h sem hid
  refine ⟨hbooks.replay, hbooks.length, hbooks.books, hbooks.bound, ?_⟩
  intro _ hfree
  by_cases hdeleting : Deleting action a sem
  · obtain ⟨haction, hused⟩ := hdeleting
    have hcount := hcompleted.deleted haction hid hused
    have hlength := (ha sem hid).length
    subst haction
    have hhigh : (a.semtab sem).scount + 1 < 2 ^ 31 := hrange
    rw [hcount, int32_of_range (by omega) (by omega)]
    omega
  · exact hbooks.idle hdeleting hfree

theorem boot_semSettled (heap : Heap) (stk : Word) :
    SemSettled (bootKernel emptyLists heap stk) := by
  intro sem _
  refine ⟨rfl, rfl, ?_, le_refl _, fun _ _ => le_refl _⟩
  intro hused
  cases hused

theorem semaphoreLaw_of_settled
    {t : Queuetab} (ha : Settled a) (ht : Represents t a.queues)
    (h : SemSettled a) (hid : SemId sem) : SemaphoreLaw (a.withTable t) sem := by
  have hbooks := h sem hid
  have hqueue : ((a.withTable t).semtab sem).squeue = semq sem :=
    ha.queued.wired.squeue sem
  refine ⟨fun _ => ⟨a.waiters sem, ?_, ht.nodup _, hbooks.length,
    fun p => ha.queued.mem_waiters hid, hbooks.replay⟩, ?_, hbooks.bound⟩
  · rw [hqueue]
    exact ht.linked (queueId_semq hid)
  · intro p later earlier hlog
    have hline := hbooks.replay
    rw [show a.log = later ++ .released sem p :: earlier from hlog] at hline
    exact waitLine_released hline

/-- In every run in which no count reaches the limit of 32 bits, the count, the
queue and the history of every semaphore agree. -/
theorem semaphores_account
    (hboot : sysinit mem memlistAddr imageEnd = some k₀)
    (hreach : Reach step SignalsInRange k₀ k) (hid : SemId sem) :
    SemaphoreLaw k sem := by
  obtain ⟨a, t, rfl, ht, ha, h⟩ := run_invariant hboot hreach SemSettled
    boot_semSettled <| by
      intro action a c t ha ht hallowed h hmoves hc _ hcompleted
      have hrange : SignalsInRange a action := hallowed
      exact (hmoves.semInv hrange ha.queued h.start).settled h hrange hcompleted
  exact semaphoreLaw_of_settled ha ht h hid

end Law

/-- A run in which a process waits on a semaphore and is released. -/
theorem semaphores_account_linkedBoot :
    ∃ k₀ k, sysinit (fun _ => 0) 0x121C30 0x143000 = some k₀ ∧
      Reach step SignalsInRange k₀ k ∧ SemId 0 ∧
      (k.currpid, k.state 1, (k.semtab 0).scount) = (0, .wait, -1) ∧
      SemaphoreLaw k 0 := by
  have hid : SemId 0 := by
    unfold SemId NSEM
    decide
  obtain ⟨k₀, k, hboot, hreach, hview⟩ := linkedBoot_run SignalsInRange
    (fun k => (k.currpid, k.state 1, (k.semtab 0).scount))
    [.call (.semcreate 0), .call (.create 0 1000 20 []), .call (.resume 1),
      .call (.wait 0)]
    (v := (0, .wait, -1)) (by decide +kernel)
    (allowed_of_forall fun k action hmem => by
      simp only [List.mem_cons, List.not_mem_nil, or_false] at hmem
      rcases hmem with rfl | rfl | rfl | rfl <;> trivial)
  exact ⟨k₀, k, hboot, hreach, hid, hview,
    semaphores_account hboot hreach hid⟩

end Xinu
