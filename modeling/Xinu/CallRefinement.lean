import Xinu.KernelRefinement

/-!
# Every call is a chain of moves

Each primitive of the machine over the queue table is followed by the kernel
over lists, call by call, and so is the rest of a call that runs after a
context switch.
-/

namespace Xinu

open ByteMemory Kernel

section Messages

variable {action : Action} {a b : Kernel QueueLists} {t : Queuetab}
variable {pid : ℤ} {msg : Word}

theorem unsleep_withTable
    {v : ℤ} (hq : Queued b) (ht : Represents t b.queues)
    (hsleep : b.state v = .sleep ∨ b.state v = .rectim) :
    ∃ t', ((b.withTable t).unsleep v).1 = (b.unsleepEarly v).withTable t' ∧
      Represents t' (b.unsleepEarly v).queues := by
  have hmem : v ∈ b.lists SLEEPQ := hq.mem_sleepq.mpr hsleep
  have hlive : b.state v ≠ .free := by
    rcases hsleep with hs | hs <;> simp [hs]
  have hbad : (b.withTable t).isbadpid v = false :=
    (hq.bounded hlive).not_bad hlive
  have hguard : ¬ ((b.withTable t).state v ≠ .sleep ∧
      (b.withTable t).state v ≠ .rectim) := by
    rintro ⟨hs, hs'⟩
    rcases hsleep with h | h
    · exact hs h
    · exact hs' h
  have hcredit := ht.creditNext hmem
  refine ⟨(t.creditNext v).getitem v, ?_, hcredit.getitem (q := SLEEPQ) ?_⟩
  · unfold unsleep
    rw [if_neg (by simp [hbad]), if_neg hguard]
    rfl
  · rw [lists_creditNext]
    exact hmem

theorem Along.send (h : Along action a b t) :
    Follows action a ((b.withTable t).send pid msg).1 := by
  have hq := h.settled.queued
  unfold Kernel.send
  by_cases hbad : b.isbadpid pid = true
  · rw [if_pos (show (b.withTable t).isbadpid pid = true from hbad)]
    exact h.stop
  rw [if_neg (show ¬ (b.withTable t).isbadpid pid = true from hbad)]
  obtain ⟨hid, hlive⟩ := isbadpid_false (Bool.not_eq_true _ ▸ hbad)
  by_cases hfull : (b.proctab pid).prhasmsg = true
  · rw [if_pos (show ((b.withTable t).proctab pid).prhasmsg = true from hfull)]
    exact h.stop
  rw [if_neg (show ¬ ((b.withTable t).proctab pid).prhasmsg = true from hfull)]
  have hempty := Bool.eq_false_iff.mpr hfull
  have hdeposit := hq.deposit pid msg
  simp only [state_deposit, state_withTable]
  by_cases hrecv : b.state pid = .recv
  · rw [if_pos hrecv]
    have hhome : ((b.deposit pid msg).proctab pid).home = none :=
      home_none (by simp [hrecv]) (by simp [hrecv]) (by simp [hrecv])
        (by simp [hrecv])
    exact h.ready (hdeposit.loose hhome) hid (by simp [hrecv]) h.rep
      (.deliverRecv hempty hrecv) rfl
  rw [if_neg hrecv]
  by_cases hrectim : b.state pid = .rectim
  · rw [if_pos hrectim]
    obtain ⟨t', hunsleep, hrep⟩ := unsleep_withTable (t := t) (v := pid)
      hdeposit h.rep (Or.inr (by simp [hrectim]))
    rw [show (b.withTable t).deposit pid msg = (b.deposit pid msg).withTable t
      from rfl, hunsleep]
    exact h.ready (hdeposit.unsleepEarly pid) hid (by simp [hrectim]) hrep
      (.deliverRectim hempty hrectim) rfl
  rw [if_neg hrectim]
  have hmove : Move action a b (b.deposit pid msg) :=
    .deliver hlive hempty hrecv hrectim
  refine (h.move hmove (.deposit b pid msg) ?_ rfl h.rep).stop
  rw [state_deposit]
  exact h.settled.running

/-- A process that may block is not the null process. -/
def MayBlock (b : Kernel QueueLists) : Prop := b.currpid ≠ NULLPROC

theorem Along.fetch
    (h : Along action a b t) (hctx : Callable b)
    (hfull : (b.proctab b.currpid).prhasmsg = true) :
    Follows action a ((b.withTable t).fetch b.currpid) := by
  have hmove : Move action a b (b.fetch b.currpid) :=
    .fetch h.settled.running hfull hctx
  refine (h.move hmove (.fetch b b.currpid) ?_ rfl h.rep).stop
  rw [state_fetch]
  exact h.settled.running

theorem Along.timeOut
    (h : Along action a b t)
    (hempty : (b.proctab b.currpid).prhasmsg = false) :
    Follows action a ((b.withTable t).note (.timedOut b.currpid)) := by
  have hmove : Move action a b (b.note (.timedOut b.currpid)) :=
    .timeOut h.settled.running hempty
  exact (h.move hmove (.note b _) h.settled.running rfl h.rep).stop

theorem Along.receive
    (h : Along action a b t) (hblock : MayBlock b) (hctx : Callable b) :
    Follows action a (b.withTable t).receive := by
  unfold Kernel.receive
  by_cases hempty : (b.proctab b.currpid).prhasmsg = false
  · rw [if_pos (show ((b.withTable t).proctab
      (b.withTable t).currpid).prhasmsg = false from hempty)]
    have hmove : Move action a b
        ((b.setState b.currpid .recv).pushFrame b.currpid .receiveRet) :=
      .awaitMessage h.settled.running hempty hblock hctx
    exact h.resched hmove rfl h.rep
  · rw [if_neg (show ¬ ((b.withTable t).proctab
      (b.withTable t).currpid).prhasmsg = false from hempty)]
    exact h.fetch hctx ((Bool.not_eq_false _).mp hempty)

theorem Along.recvclr (h : Along action a b t) (hctx : Callable b) :
    Follows action a (b.withTable t).recvclr.1 := by
  unfold Kernel.recvclr
  by_cases hfull : (b.proctab b.currpid).prhasmsg = true
  · rw [if_pos (show ((b.withTable t).proctab
      (b.withTable t).currpid).prhasmsg = true from hfull)]
    exact h.fetch hctx hfull
  · rw [if_neg (show ¬ ((b.withTable t).proctab
      (b.withTable t).currpid).prhasmsg = true from hfull)]
    exact h.stop

/-- `insertd` puts the current process on the sleep queue. -/
theorem insertd_currpid
    (h : Along action a b t) (ticks : ℤ) :
    ∃ t', (b.withTable t).insertd b.currpid (b.withTable t).sleepq ticks =
        (({ b with queues := b.queues.insertd b.currpid SLEEPQ ticks } :
          Kernel QueueLists).withTable t', OK) ∧
      Represents t' (b.queues.insertd b.currpid SLEEPQ ticks) := by
  have hq := h.settled.queued
  have hloose := hq.curr_loose h.settled.running
  rw [show (b.withTable t).sleepq = SLEEPQ from hq.wired.sleepq]
  exact insertd_withTable h.rep queueId_sleepq hq.current
    (by simp [h.settled.running]) hloose.not_mem

theorem Along.recvtime
    {maxwait : ℤ} (h : Along action a b t) (hblock : MayBlock b)
    (hctx : Callable b) (hrange : maxwait < 2 ^ 31) :
    Follows action a ((b.withTable t).recvtime maxwait) := by
  unfold Kernel.recvtime
  by_cases hneg : maxwait < 0
  · rw [if_pos hneg]
    exact h.stop
  rw [if_neg hneg]
  by_cases hempty : (b.proctab b.currpid).prhasmsg = false
  · rw [if_pos (show ((b.withTable t).proctab
      (b.withTable t).currpid).prhasmsg = false from hempty)]
    obtain ⟨t', hinsert, hrep⟩ := insertd_currpid h maxwait
    have hmove : Move action a b
        ((b.delay b.currpid maxwait .rectim).pushFrame b.currpid
          .recvtimeRet) :=
      .awaitTimed h.settled.running hempty hblock hctx (not_lt.mp hneg) hrange
    rw [show (b.withTable t).currpid = b.currpid from rfl, hinsert]
    exact h.resched hmove rfl hrep
  · rw [if_neg (show ¬ ((b.withTable t).proctab
      (b.withTable t).currpid).prhasmsg = false from hempty)]
    have hfull := (Bool.not_eq_false _).mp hempty
    unfold Kernel.fetchOrTimeout
    rw [if_pos (show ((b.withTable t).proctab
      (b.withTable t).currpid).prhasmsg = true from hfull)]
    exact h.fetch hctx hfull

end Messages

section Scheduling

variable {action : Action} {a b : Kernel QueueLists} {t : Queuetab}
variable {pid : ℤ}

theorem Along.yield (h : Along action a b t) :
    Follows action a (b.withTable t).yield.1 :=
  Follows.resched h.moves h.settled.queued h.settled.undeferred h.rep

theorem Along.sleepms
    {delay : ℤ} (h : Along action a b t) (hblock : MayBlock b)
    (hrange : delay < 2 ^ 31) :
    Follows action a ((b.withTable t).sleepms delay).1 := by
  unfold Kernel.sleepms
  by_cases hneg : delay < 0
  · rw [if_pos hneg]
    exact h.stop
  rw [if_neg hneg]
  by_cases hzero : delay = 0
  · rw [if_pos hzero]
    exact h.yield
  rw [if_neg hzero]
  obtain ⟨t', hinsert, hrep⟩ := insertd_currpid h delay
  have hmove : Move action a b (b.delay b.currpid delay .sleep) :=
    .sleep h.settled.running hblock (by omega) hrange
  rw [show (b.withTable t).currpid = b.currpid from rfl, hinsert]
  exact h.resched hmove rfl hrep

theorem Along.sleep
    {delay : ℤ} (h : Along action a b t) (hblock : MayBlock b) :
    Follows action a ((b.withTable t).sleep delay).1 := by
  unfold Kernel.sleep
  by_cases hbad : delay < 0 ∨ MAXSECONDS < delay
  · rw [if_pos hbad]
    exact h.stop
  · rw [if_neg hbad]
    unfold MAXSECONDS at hbad
    exact h.sleepms hblock (by omega)

theorem Along.suspend (h : Along action a b t) :
    Follows action a ((b.withTable t).suspend pid).1 := by
  have hq := h.settled.queued
  unfold Kernel.suspend
  by_cases hbad : b.isbadpid pid = true ∨ pid = NULLPROC
  · rw [if_pos (show (b.withTable t).isbadpid pid = true ∨ pid = NULLPROC from
      hbad)]
    exact h.stop
  rw [if_neg (show ¬ ((b.withTable t).isbadpid pid = true ∨ pid = NULLPROC) from
    hbad)]
  have hnull : pid ≠ NULLPROC := fun hp => hbad (Or.inr hp)
  by_cases hstate : b.state pid ≠ .curr ∧ b.state pid ≠ .ready
  · rw [if_pos (show (b.withTable t).state pid ≠ .curr ∧
      (b.withTable t).state pid ≠ .ready from hstate)]
    exact h.stop
  rw [if_neg (show ¬ ((b.withTable t).state pid ≠ .curr ∧
    (b.withTable t).state pid ≠ .ready) from hstate)]
  dsimp only
  by_cases hready : b.state pid = .ready
  · rw [if_pos (show (b.withTable t).state pid = .ready from hready)]
    have hmem := hq.mem_readyq.mpr hready
    have hne : b.currpid ≠ pid := by
      rintro rfl
      rw [h.settled.running] at hready
      cases hready
    have hmove : Move action a b ((b.unlink pid).setState pid .susp) :=
      .suspendReady hready hnull
    refine (h.move hmove ?_ ?_ rfl (h.rep.getitem hmem)).stop
    · refine ⟨rfl, fun hp => List.mem_of_mem_erase hp, ?_⟩
      intro x _
      exact prio_setState (b.unlink pid) pid x .susp
    · rw [state_setState_of_ne _ _ _ _ hne]
      exact h.settled.running
  · rw [if_neg (show ¬ (b.withTable t).state pid = .ready from hready)]
    have hcurr : b.state pid = .curr := by
      by_contra hcurr
      exact hstate ⟨hcurr, hready⟩
    have heq := hq.unique hcurr
    subst heq
    have hmove : Move action a b (b.setState b.currpid .susp) :=
      .suspendCurr hcurr hnull
    exact h.resched hmove rfl h.rep

theorem Along.resume (h : Along action a b t) :
    Follows action a ((b.withTable t).resume pid).1 := by
  have hq := h.settled.queued
  unfold Kernel.resume
  by_cases hbad : b.isbadpid pid = true
  · rw [if_pos (show (b.withTable t).isbadpid pid = true from hbad)]
    exact h.stop
  rw [if_neg (show ¬ (b.withTable t).isbadpid pid = true from hbad)]
  obtain ⟨hid, hlive⟩ := isbadpid_false (Bool.not_eq_true _ ▸ hbad)
  by_cases hsusp : b.state pid = .susp
  · rw [if_neg (show ¬ (b.withTable t).state pid ≠ .susp from
      fun hne => hne hsusp)]
    have hhome : (b.proctab pid).home = none :=
      home_none (by simp [hsusp]) (by simp [hsusp]) (by simp [hsusp])
        (by simp [hsusp])
    exact h.ready (hq.loose hhome) hid hlive h.rep (.resume hsusp) rfl
  · rw [if_pos (show (b.withTable t).state pid ≠ .susp from hsusp)]
    exact h.stop

theorem follows_chprio
    {newprio : Int16} (ha : Settled a) (ht : Represents t a.queues) :
    Follows (.call (.chprio pid newprio)) a
      ((a.withTable t).chprio pid newprio).1 := by
  unfold Kernel.chprio
  by_cases hbad : a.isbadpid pid = true
  · rw [if_pos (show (a.withTable t).isbadpid pid = true from hbad)]
    exact (Along.start ha ht).stop
  rw [if_neg (show ¬ (a.withTable t).isbadpid pid = true from hbad)]
  obtain ⟨-, hlive⟩ := isbadpid_false (Bool.not_eq_true _ ▸ hbad)
  have hmove : Move (.call (.chprio pid newprio)) a a
      (a.setProc pid fun e => { e with prprio := newprio }) :=
    .chprio rfl hlive
  refine ⟨_, t, .single hmove, ht, rfl, ⟨hmove.queued ha.queued, ?_,
    ha.undeferred⟩, .chprio rfl hlive⟩
  refine (state_setProc a pid _ _ ?_).trans ha.running
  exact fun _ => rfl

end Scheduling

section Semaphores

variable {action : Action} {a b : Kernel QueueLists} {t : Queuetab}
variable {sem p : ℤ}

theorem isbadsem_false (h : isbadsem sem = false) : SemId sem := by
  simp [isbadsem] at h
  exact h

theorem SState.used_of_ne {s : SState} (h : s ≠ .free) : s = .used := by
  cases s
  · exact absurd rfl h
  · rfl

theorem Along.wait (h : Along action a b t) (hblock : MayBlock b) :
    Follows action a ((b.withTable t).wait sem).1 := by
  have hq := h.settled.queued
  unfold Kernel.wait
  by_cases hbad : isbadsem sem = true
  · rw [if_pos hbad]
    exact h.stop
  rw [if_neg hbad]
  have hid := isbadsem_false (Bool.eq_false_iff.mpr hbad)
  by_cases hfree : (b.semtab sem).sstate = .free
  · rw [if_pos (show ((b.withTable t).semtab sem).sstate = .free from hfree)]
    exact h.stop
  rw [if_neg (show ¬ ((b.withTable t).semtab sem).sstate = .free from hfree)]
  have hused := SState.used_of_ne hfree
  have hcount : (((b.bumpCount sem (-1)).withTable t).semtab sem).scount =
      int32 ((b.semtab sem).scount - 1) :=
    scount_bumpCount b sem (-1)
  rw [show (b.withTable t).setScount sem
    (int32 (((b.withTable t).semtab sem).scount - 1)) =
      (b.bumpCount sem (-1)).withTable t from rfl]
  dsimp only
  rw [hcount]
  by_cases hneg : int32 ((b.semtab sem).scount - 1) < 0
  · rw [if_pos hneg]
    have hmove : Move action a b ((b.bumpCount sem (-1)).waitOn sem b.currpid) :=
      .wait hid hused h.settled.running hblock hneg
    let c := (b.bumpCount sem (-1)).setProc b.currpid fun e =>
      { e with prstate := .wait, prsem := sem }
    have hcode : (((b.bumpCount sem (-1)).withTable t).setState b.currpid
        .wait).setProc b.currpid (fun e => { e with prsem := sem }) =
          c.withTable t :=
      setProc_setProc _ _ _ _
    have hlive : c.state b.currpid ≠ .free := by
      rw [show c.state b.currpid = .wait from state_setProc_self _ _ _]
      decide
    have hqueue : (c.semtab sem).squeue = semq sem := by
      rw [← hq.wired.squeue sem]
      exact squeue_bumpCount b sem sem (-1)
    obtain ⟨henqueue, hrep⟩ := enqueue_withTable (a := c) h.rep
      (queueId_semq hid) hq.current hlive
      (hq.curr_loose h.settled.running).not_mem
    have hblocked : ∀ k : Kernel Queuetab, k = c.withTable t →
        Follows action a (((k.enqueue k.currpid (k.semtab sem).squeue).1.note
          (.waited sem
            (k.enqueue k.currpid (k.semtab sem).squeue).1.currpid)).resched) := by
      rintro _ rfl
      rw [show ((c.withTable t).semtab sem).squeue = semq sem from hqueue,
        show (c.withTable t).currpid = b.currpid from rfl, henqueue]
      have hfollow := h.resched hmove rfl hrep
      exact hfollow
    exact hblocked _ hcode
  · rw [if_neg hneg]
    have hmove : Move action a b ((b.bumpCount sem (-1)).note (.passed sem)) :=
      .pass hid hused (not_lt.mp hneg)
    exact (h.move hmove (.of_same rfl rfl fun _ => rfl)
      h.settled.running rfl h.rep).stop

/-! ## One signal -/

/-- The state in which the first waiter has been taken off its queue. -/
def released (b : Kernel QueueLists) (sem p : ℤ) : Kernel QueueLists :=
  (((b.bumpCount sem 1).note (.signalled sem)).note (.released sem p)).unlink p

theorem signalOnce_free (hcount : 0 ≤ (b.semtab sem).scount) :
    (b.withTable t).signalOnce sem =
      ((b.bumpCount sem 1).note (.signalled sem)).withTable t := by
  unfold signalOnce
  dsimp only
  rw [if_neg (show ¬ ((b.withTable t).semtab sem).scount < 0 from
    not_lt.mpr hcount)]
  rfl

theorem squeue_bumped (hq : Queued b) (sem : ℤ) (e : Event) :
    ((((b.bumpCount sem 1).note e).withTable t).semtab sem).squeue =
      semq sem := by
  rw [← hq.wired.squeue sem]
  exact squeue_bumpCount b sem sem 1

theorem signalOnce_waiter
    {l : List ℤ} (hq : Queued b) (ht : Represents t b.queues) (hid : SemId sem)
    (hcount : (b.semtab sem).scount < 0) (hfirst : b.waiters sem = p :: l) :
    ∃ t', (b.withTable t).signalOnce sem =
        (((released b sem p).withTable t').ready p).1 ∧
      Represents t' (released b sem p).queues := by
  obtain ⟨t', hdequeue, hrep⟩ := dequeue_withTable (t := t)
    (a := (b.bumpCount sem 1).note (.signalled sem)) ht (queueId_semq hid) hfirst
  refine ⟨t', ?_, hrep⟩
  have hcode : (b.withTable t).signalOnce sem =
      ((((((b.bumpCount sem 1).note (.signalled sem)).withTable t).dequeue
        (semq sem)).1.note (.released sem
          ((((b.bumpCount sem 1).note (.signalled sem)).withTable t).dequeue
            (semq sem)).2)).ready
        ((((b.bumpCount sem 1).note (.signalled sem)).withTable t).dequeue
          (semq sem)).2).1 := by
    unfold signalOnce
    dsimp only
    rw [if_pos (show ((b.withTable t).semtab sem).scount < 0 from hcount),
      ← squeue_bumped (t := t) hq sem (.signalled sem)]
    rfl
  rw [hcode, hdequeue]
  rfl

theorem ready_empty (k : Kernel Queuetab) : (k.ready EMPTY).1 = k := by
  unfold Kernel.ready
  rw [if_pos (by simp [isbadpid, EMPTY])]

theorem signalOnce_stray
    (hq : Queued b) (ht : Represents t b.queues) (hid : SemId sem)
    (hcount : (b.semtab sem).scount < 0) (hnone : b.waiters sem = []) :
    (b.withTable t).signalOnce sem =
      ({ b.bumpCount sem 1 with
        log := [.released sem EMPTY, .signalled sem] ++ b.log } :
          Kernel QueueLists).withTable t := by
  have hdequeue := dequeue_empty (t := t)
    (a := (b.bumpCount sem 1).note (.signalled sem)) ht (queueId_semq hid) hnone
  have hcode : (b.withTable t).signalOnce sem =
      ((((((b.bumpCount sem 1).note (.signalled sem)).withTable t).dequeue
        (semq sem)).1.note (.released sem
          ((((b.bumpCount sem 1).note (.signalled sem)).withTable t).dequeue
            (semq sem)).2)).ready
        ((((b.bumpCount sem 1).note (.signalled sem)).withTable t).dequeue
          (semq sem)).2).1 := by
    unfold signalOnce
    dsimp only
    rw [if_pos (show ((b.withTable t).semtab sem).scount < 0 from hcount),
      ← squeue_bumped (t := t) hq sem (.signalled sem)]
    rfl
  rw [hcode, hdequeue, ready_empty]
  rfl

theorem waiter_waits
    {l : List ℤ} (hq : Queued b) (hid : SemId sem)
    (hfirst : b.waiters sem = p :: l) : ProcId p ∧ b.state p = .wait := by
  have hmem : p ∈ b.waiters sem := by simp [hfirst]
  have hstate := ((hq.mem_waiters hid).mp hmem).1
  exact ⟨hq.bounded (by simp [hstate]), hstate⟩

theorem Queued.released
    (hq : Queued b) : Loose p (Xinu.released b sem p) :=
  (((hq.bumpCount sem 1).note _).note _).unlink p

theorem Along.signalOnce
    (h : Along action a b t) (hid : SemId sem)
    (hused : (b.semtab sem).sstate = .used)
    (hrange : SignalsInRange a action → (b.semtab sem).scount + 1 < 2 ^ 31) :
    Follows action a ((b.withTable t).signalOnce sem) := by
  have hq := h.settled.queued
  by_cases hcount : (b.semtab sem).scount < 0
  · cases hlist : b.waiters sem with
    | nil =>
        rw [signalOnce_stray hq h.rep hid hcount hlist]
        have hmove : Move action a b _ := .stray hid hcount hlist
          (Or.inl rfl)
        exact (h.move hmove (.of_same rfl rfl fun _ => rfl)
          h.settled.running rfl h.rep).stop
    | cons p l =>
        obtain ⟨hproc, hwait⟩ := waiter_waits hq hid hlist
        obtain ⟨t', hsignal, hrep⟩ := signalOnce_waiter hq h.rep hid hcount hlist
        rw [hsignal]
        have hlive : (released b sem p).state p ≠ .free := by
          rw [show (released b sem p).state p = b.state p from rfl, hwait]
          decide
        exact h.ready hq.released hproc hlive hrep
          (.release hid hused hcount hlist) rfl
  · rw [signalOnce_free (not_lt.mp hcount)]
    have hmove := Move.signal hid hused (not_lt.mp hcount) hrange
    exact (h.move hmove (.of_same rfl rfl fun _ => rfl)
      h.settled.running rfl h.rep).stop

theorem Deferring.signalOnce
    (h : Deferring action a b t) (hid : SemId sem)
    (hused : (b.semtab sem).sstate = .used)
    (hrange : SignalsInRange a action → (b.semtab sem).scount + 1 < 2 ^ 31) :
    ∃ c t', (b.withTable t).signalOnce sem = c.withTable t' ∧
      Deferring action a c t' ∧
      c.semtab = (b.bumpCount sem 1).semtab := by
  have hq := h.queued
  by_cases hcount : (b.semtab sem).scount < 0
  · cases hlist : b.waiters sem with
    | nil =>
        have hmove : Move action a b _ := .stray hid hcount hlist
          (Or.inl rfl)
        exact ⟨_, t, signalOnce_stray hq h.rep hid hcount hlist,
          h.move hmove (.of_same rfl rfl fun _ => rfl)
            h.running rfl rfl h.rep, rfl⟩
    | cons p l =>
        obtain ⟨hproc, hwait⟩ := waiter_waits hq hid hlist
        obtain ⟨t', hsignal, hrep⟩ := signalOnce_waiter hq h.rep hid hcount hlist
        have hlive : (released b sem p).state p ≠ .free := by
          rw [show (released b sem p).state p = b.state p from rfl, hwait]
          decide
        obtain ⟨t'', hready, hnext⟩ := h.ready hq.released hproc hlive hrep
          (.release hid hused hcount hlist) rfl rfl (fun _ => rfl)
          (by simp [hwait])
        exact ⟨_, t'', hsignal.trans hready, hnext, rfl⟩
  · have hmove := Move.signal hid hused (not_lt.mp hcount) hrange
    exact ⟨_, t, signalOnce_free (not_lt.mp hcount),
      h.move hmove (.of_same rfl rfl fun _ => rfl)
        h.running rfl rfl h.rep, rfl⟩

theorem Deferring.signalnLoop
    (count : ℕ) (h : Deferring action a b t) (hid : SemId sem)
    (hused : (b.semtab sem).sstate = .used)
    (hrange : SignalsInRange a action →
      (b.semtab sem).scount + count < 2 ^ 31) :
    ∃ c t', (b.withTable t).signalnLoop sem count = c.withTable t' ∧
      Deferring action a c t' := by
  induction count generalizing b t with
  | zero => exact ⟨b, t, rfl, h⟩
  | succ count ih =>
      have hone : SignalsInRange a action →
          (b.semtab sem).scount + 1 < 2 ^ 31 := by
        intro hok
        have hle := hrange hok
        push_cast at hle
        omega
      obtain ⟨c, t', hsignal, hnext, hsemtab⟩ := h.signalOnce hid hused hone
      have hused' : (c.semtab sem).sstate = .used := by
        rw [hsemtab, sstate_bumpCount]
        exact hused
      have hrange' : SignalsInRange a action →
          (c.semtab sem).scount + count < 2 ^ 31 := by
        intro hok
        have hle := hrange hok
        have hlow := (h.queued.wired.counts sem).1
        push_cast at hle
        rw [hsemtab, scount_bumpCount, int32_of_range (by omega) (hone hok)]
        omega
      obtain ⟨d, t'', hloop, hlast⟩ := ih hnext hused' hrange'
      refine ⟨d, t'', ?_, hlast⟩
      rw [Kernel.signalnLoop, hsignal, hloop]

theorem Along.signal
    (h : Along (.call (.signal sem)) a a t) :
    Follows (.call (.signal sem)) a ((a.withTable t).signal sem).1 := by
  unfold Kernel.signal
  by_cases hbad : isbadsem sem = true
  · rw [if_pos hbad]
    exact h.stop
  rw [if_neg hbad]
  by_cases hfree : (a.semtab sem).sstate = .free
  · rw [if_pos (show ((a.withTable t).semtab sem).sstate = .free from hfree)]
    exact h.stop
  · rw [if_neg (show ¬ ((a.withTable t).semtab sem).sstate = .free from hfree)]
    exact h.signalOnce (isbadsem_false (Bool.eq_false_iff.mpr hbad))
      (SState.used_of_ne hfree) fun hok => hok

theorem Along.signaln
    {count : Int32} (h : Along (.call (.signaln sem count)) a a t) :
    Follows (.call (.signaln sem count)) a
      ((a.withTable t).signaln sem count.toInt).1 := by
  unfold Kernel.signaln
  by_cases hbad : isbadsem sem = true ∨ count.toInt < 0
  · rw [if_pos hbad]
    exact h.stop
  rw [if_neg hbad]
  have hid := isbadsem_false (Bool.eq_false_iff.mpr fun hb => hbad (Or.inl hb))
  have hpos : 0 ≤ count.toInt := not_lt.mp fun hneg => hbad (Or.inr hneg)
  by_cases hfree : (a.semtab sem).sstate = .free
  · rw [if_pos (show ((a.withTable t).semtab sem).sstate = .free from hfree)]
    exact h.stop
  rw [if_neg (show ¬ ((a.withTable t).semtab sem).sstate = .free from hfree)]
  obtain ⟨hstart, hdefer⟩ := h.deferStart
  obtain ⟨c, t', hloop, hlast⟩ := hdefer.signalnLoop count.toInt.toNat hid
    (SState.used_of_ne hfree) (by
      intro hok
      rw [Int.toNat_of_nonneg hpos]
      exact hok)
  dsimp only
  rw [hstart, hloop]
  exact hlast.deferStop

/-! ## Creation -/

/-- What `newsem` does: it moves its cursor and may mark an entry as used. -/
theorem newsemLoop_withTable
    (i : ℕ) (b : Kernel QueueLists) (hnext : SemId b.nextsem) :
    ∃ n, SemId n ∧
      ((b.withTable t).newsemLoop i =
          (({ b with nextsem := n } : Kernel QueueLists).withTable t,
            SYSERR.toInt) ∨
        ∃ sem, SemId sem ∧ (b.semtab sem).sstate = .free ∧
          (b.withTable t).newsemLoop i =
            ((({ b with nextsem := n } : Kernel QueueLists).setSem sem
              fun s => { s with sstate := .used }).withTable t, sem)) := by
  induction i generalizing b with
  | zero => exact ⟨b.nextsem, hnext, Or.inl rfl⟩
  | succ i ih =>
      let n := if NSEM ≤ b.nextsem + 1 then 0 else b.nextsem + 1
      have hn : SemId n := by
        unfold SemId NSEM at hnext
        unfold SemId NSEM
        simp only [n, NSEM]
        split_ifs <;> omega
      have hcursor : (if NSEM ≤ b.nextsem + 1 then
          ({ (b.withTable t) with nextsem := 0 } : Kernel Queuetab)
          else { (b.withTable t) with nextsem := b.nextsem + 1 }) =
            ({ b with nextsem := n } : Kernel QueueLists).withTable t := by
        simp only [n]
        split_ifs <;> rfl
      by_cases hfree : (b.semtab b.nextsem).sstate = .free
      · refine ⟨n, hn, Or.inr ⟨b.nextsem, hnext, hfree, ?_⟩⟩
        rw [newsemLoop]
        dsimp only
        rw [show (b.withTable t).nextsem = b.nextsem from rfl, hcursor,
          if_pos (show (((({ b with nextsem := n } :
            Kernel QueueLists).withTable t).semtab b.nextsem).sstate = .free)
            from hfree)]
        rfl
      · obtain ⟨m, hm, hloop⟩ := ih { b with nextsem := n } hn
        refine ⟨m, hm, ?_⟩
        have hcode : (b.withTable t).newsemLoop (i + 1) =
            (({ b with nextsem := n } :
              Kernel QueueLists).withTable t).newsemLoop i := by
          rw [newsemLoop]
          dsimp only
          rw [show (b.withTable t).nextsem = b.nextsem from rfl, hcursor,
            if_neg (show ¬ (((({ b with nextsem := n } :
              Kernel QueueLists).withTable t).semtab b.nextsem).sstate = .free)
              from hfree)]
        rw [hcode]
        exact hloop

theorem Along.semcreate
    {count : ℤ} (h : Along action a b t)
    (haction : ∃ n, action = .call (.semcreate n)) (hrange : count < 2 ^ 31) :
    Follows action a ((b.withTable t).semcreate count).1 := by
  have hq := h.settled.queued
  unfold Kernel.semcreate
  by_cases hneg : count < 0
  · rw [if_pos hneg]
    exact h.stop
  rw [if_neg hneg]
  obtain ⟨n, hn, hloop⟩ := newsemLoop_withTable (t := t) NSEM.toNat b
    hq.wired.nextsem
  have hsame : SameTables b { b with nextsem := n } := ⟨rfl, id, fun _ => hn⟩
  have hcursor := h.move (.adjust hsame)
    (.of_same rfl rfl fun _ => rfl) h.settled.running rfl h.rep
  unfold Kernel.newsem
  rcases hloop with hnone | ⟨sem, hid, hfree, hsome⟩
  · rw [hnone]
    exact hcursor.stop
  · have hne : sem ≠ SYSERR.toInt := by
      have hsys : SYSERR.toInt = -1 := by decide
      unfold SemId at hid
      omega
    have hmove : Move action a { b with nextsem := n } _ :=
      .semcreate haction hid hfree (not_lt.mp hneg) hrange
    have hstop := (hcursor.move hmove
      (.of_same rfl rfl fun _ => rfl)
      h.settled.running rfl h.rep).stop
    rw [hsome]
    dsimp only
    rw [if_neg hne]
    rw [← setSem_setSem { b with nextsem := n } sem
      (fun s => { s with sstate := .used })
      (fun s => { s with scount := count })] at hstop
    exact hstop

/-! ## Deletion and reset -/

/-- The state in which a waiter has been taken off without a signal. -/
def flushed (b : Kernel QueueLists) (sem p : ℤ) : Kernel QueueLists :=
  ((b.bumpCount sem 1).note (.flushed sem p)).unlink p

/-- `ready(getfirst(q))` for the first waiter, with rescheduling deferred. -/
theorem flush_withTable
    {l : List ℤ} (hq : Queued b) (ht : Represents t b.queues) (hid : SemId sem)
    (hdefer : 0 < b.ndefers) (hfirst : b.waiters sem = p :: l) :
    ∃ t', ((((b.withTable t).getfirst (semq sem)).1.note
          (.flushed sem ((b.withTable t).getfirst (semq sem)).2)).ready
          ((b.withTable t).getfirst (semq sem)).2).1 =
        ({ ((b.note (.flushed sem p)).unlink p).enlist p with
          attempt := true } : Kernel QueueLists).withTable t' ∧
      Represents t' (((b.note (.flushed sem p)).unlink p).enlist p).queues := by
  obtain ⟨hproc, hwait⟩ := waiter_waits hq hid hfirst
  obtain ⟨hget, hrep⟩ := getfirst_withTable ht (queueId_semq hid) hfirst
  have hloose : Loose p ((b.note (.flushed sem p)).unlink p) :=
    (hq.note _).unlink p
  have hlive : ((b.note (.flushed sem p)).unlink p).state p ≠ .free := by
    rw [state_unlink, state_note, hwait]
    decide
  obtain ⟨t', hready, hrep'⟩ := ready_withTable hloose hproc hlive hrep
  refine ⟨t', ?_, hrep'⟩
  rw [hget]
  exact hready.trans (resched_deferred hdefer)

theorem Deferring.flush
    {l : List ℤ} {t' : Queuetab} (h : Deferring action a b t) (hid : SemId sem)
    (hfirst : b.waiters sem = p :: l)
    (hrep : Represents t' ((flushed b sem p).enlist p).queues) :
    Deferring action a { (flushed b sem p).enlist p with attempt := true } t' := by
  obtain ⟨-, hwait⟩ := waiter_waits h.queued hid hfirst
  exact (h.enlist (c := flushed b sem p) (.flush hid hfirst) rfl rfl
    (fun _ => rfl) (by simp [hwait]) hrep).2

theorem waiters_flushed
    {l : List ℤ} (hid : SemId sem) (hfirst : b.waiters sem = p :: l) :
    ((flushed b sem p).enlist p).waiters sem = l := by
  rw [waiters, lists_enlist_of_ne _ _ (semq_ne_readyq hid)]
  show (b.waiters sem).erase p = l
  rw [hfirst, List.erase_cons_head]

theorem Deferring.semdeleteLoop
    (fuel : ℕ) (h : Deferring action a b t) (hid : SemId sem)
    (hfree : (b.semtab sem).sstate = .free)
    (hrange : SignalsInRange a action → (b.semtab sem).scount + 1 < 2 ^ 31)
    (hfuel : (-(b.semtab sem).scount).toNat < fuel) :
    ∃ c t', (b.withTable t).semdeleteLoop sem fuel = c.withTable t' ∧
      Deferring action a c t' ∧ (c.semtab sem).scount =
        int32 (max 0 (b.semtab sem).scount + 1) := by
  induction fuel generalizing b t with
  | zero => omega
  | succ fuel ih =>
      have hlow := (h.queued.wired.counts sem).1
      by_cases hcount : (b.semtab sem).scount < 0
      · have hnext : ((b.bumpCount sem 1).semtab sem).scount =
            (b.semtab sem).scount + 1 := by
          rw [scount_bumpCount, int32_of_range (by omega) (by omega)]
        have hlt : (-((b.bumpCount sem 1).semtab sem).scount).toNat < fuel := by
          rw [hnext]
          omega
        have hmax : max 0 ((b.bumpCount sem 1).semtab sem).scount =
            max 0 (b.semtab sem).scount := by
          rw [hnext]
          omega
        rw [← hmax]
        have hrange' : SignalsInRange a action →
            ((b.bumpCount sem 1).semtab sem).scount + 1 < 2 ^ 31 := by
          rw [hnext]
          omega
        have hbumped := h.queued.bumpCount sem 1
        have hqueue : (((b.bumpCount sem 1).withTable t).semtab sem).squeue =
            semq sem := hbumped.wired.squeue sem
        have hcode : (b.withTable t).semdeleteLoop sem (fuel + 1) =
            Kernel.semdeleteLoop sem fuel
              ((((((b.bumpCount sem 1).withTable t).getfirst
                (semq sem)).1.note (.flushed sem
                  (((b.bumpCount sem 1).withTable t).getfirst
                    (semq sem)).2)).ready
                (((b.bumpCount sem 1).withTable t).getfirst
                  (semq sem)).2).1) := by
          rw [Kernel.semdeleteLoop]
          dsimp only
          rw [if_pos (show ((b.withTable t).semtab sem).scount < 0 from hcount),
            ← hqueue]
          rfl
        rw [hcode]
        cases hlist : b.waiters sem with
        | nil =>
            have hmove : Move action a b _ := .stray hid hcount
              hlist (Or.inr rfl)
            have hstray := h.move hmove
              (.of_same rfl rfl fun _ => rfl) h.running rfl rfl
              h.rep
            rw [getfirst_empty (a := b.bumpCount sem 1) h.rep (queueId_semq hid)
              hlist, ready_empty]
            refine ih hstray ?_ hrange' ?_
            · rw [← hfree]
              exact sstate_bumpCount b sem sem 1
            · exact hlt
        | cons p l =>
            obtain ⟨t', hflush, hrep⟩ := flush_withTable (t := t) hbumped h.rep
              hid (by rw [show (b.bumpCount sem 1).ndefers = 1 from h.deferred]
                      decide) hlist
            rw [hflush]
            refine ih (h.flush hid hlist hrep) ?_ hrange' ?_
            · rw [← hfree]
              exact sstate_bumpCount b sem sem 1
            · exact hlt
      · have hmove : Move action a b _ := .semdone hid hfree
          (not_lt.mp hcount) hrange
        refine ⟨b.bumpCount sem 1, t, ?_, h.move hmove
          (.of_same rfl rfl fun _ => rfl) h.running rfl rfl h.rep, ?_⟩
        swap
        · rw [scount_bumpCount, max_eq_right (not_lt.mp hcount)]
        rw [Kernel.semdeleteLoop]
        dsimp only
        rw [if_neg (show ¬ ((b.withTable t).semtab sem).scount < 0 from hcount)]
        rfl

/-- What is known about the count of a semaphore that has been deleted. -/
def Deleted (sem : ℤ) (a c : Kernel QueueLists) : Prop :=
  SemId sem → (a.semtab sem).sstate = .used →
    (c.semtab sem).scount = int32 (max 0 (a.semtab sem).scount + 1)

theorem follows_semdelete (ha : Settled a) (ht : Represents t a.queues) :
    ∃ c t', Moves (.call (.semdelete sem)) a a c ∧ Represents t' c.queues ∧
      ((a.withTable t).semdelete sem).1 = c.withTable t' ∧ Settled c ∧
      Picks (.call (.semdelete sem)) a c ∧ Deleted sem a c := by
  have h : Along (.call (.semdelete sem)) a a t := .start ha ht
  unfold Kernel.semdelete
  by_cases hbad : isbadsem sem = true
  · rw [if_pos hbad]
    obtain ⟨c, t', hmoves, hrep, hk, hsettled, hpicks⟩ := h.stop
    refine ⟨c, t', hmoves, hrep, hk, hsettled, hpicks, fun hid => ?_⟩
    simp [isbadsem] at hbad
    unfold SemId at hid
    omega
  rw [if_neg hbad]
  have hid := isbadsem_false (Bool.eq_false_iff.mpr hbad)
  by_cases hfree : (a.semtab sem).sstate = .free
  · rw [if_pos (show ((a.withTable t).semtab sem).sstate = .free from hfree)]
    obtain ⟨c, t', hmoves, hrep, hk, hsettled, hpicks⟩ := h.stop
    refine ⟨c, t', hmoves, hrep, hk, hsettled, hpicks, ?_⟩
    intro _ hused
    rw [hfree] at hused
    cases hused
  rw [if_neg (show ¬ ((a.withTable t).semtab sem).sstate = .free from hfree)]
  have hmove : Move (.call (.semdelete sem)) a a _ :=
    .semfree rfl hid (SState.used_of_ne hfree)
  have halong := h.move hmove (.of_same rfl rfl fun _ => rfl)
    h.settled.running rfl h.rep
  obtain ⟨hstart, hdefer⟩ := halong.deferStart
  have hfreed : (a.setSem sem fun s => { s with sstate := .free }).semtab sem =
      { a.semtab sem with sstate := .free } :=
    semtab_setSem_self _ _ _
  obtain ⟨c, t', hloop, hlast, hcount⟩ := hdefer.semdeleteLoop
    ((-((a.setSem sem fun s => { s with sstate := .free }).semtab
      sem).scount).toNat + 1) hid (by rw [hfreed]) (by rw [hfreed]; exact id)
    (by exact Nat.lt_succ_self _)
  rw [hfreed] at hcount
  obtain ⟨d, t'', hmoves, hrep, hk, hsettled, hpicks, haside⟩ :=
    hlast.deferStop_aside
  refine ⟨d, t'', hmoves, hrep, ?_, hsettled, hpicks, ?_⟩
  · dsimp only
    rw [show ((a.withTable t).setSem sem fun s => { s with sstate := .free }) =
      (a.setSem sem fun s => { s with sstate := .free }).withTable t from rfl,
      hstart, ← hk, ← hloop]
    rfl
  · intro _ _
    rw [haside.semtab]
    exact hcount

theorem setScount_flushed (c : ℤ) :
    ({ (((b.setScount sem c).note (.flushed sem p)).unlink p).enlist p with
      attempt := true } : Kernel QueueLists) =
    ({ (flushed b sem p).enlist p with
      attempt := true } : Kernel QueueLists).setScount sem c := by
  have hsem : (b.setScount sem c).semtab =
      ((b.bumpCount sem 1).setScount sem c).semtab := by
    rw [bumpCount, setScount, setScount, setScount, setSem_setSem]
  show ({ ((flushed b sem p).enlist p) with
    semtab := (b.setScount sem c).semtab, attempt := true } :
      Kernel QueueLists) = _
  rw [hsem]
  rfl

theorem Deferring.semresetLoop
    {count : ℤ} (fuel : ℕ) (h : Deferring action a b t) (hid : SemId sem)
    (hcount : InRange count) (hfuel : (b.waiters sem).length < fuel) :
    ∃ c t', ((b.setScount sem count).withTable t).semresetLoop sem fuel =
        (c.setScount sem count).withTable t' ∧ Deferring action a c t' ∧
      c.waiters sem = [] ∧
      (c.semtab sem).sstate = (b.semtab sem).sstate := by
  induction fuel generalizing b t with
  | zero => omega
  | succ fuel ih =>
      have hset : Queued (b.setScount sem count) :=
        h.queued.setSem sem _ (fun _ => rfl) hcount
      have hqueue : (((b.setScount sem count).withTable t).semtab sem).squeue =
          semq sem := hset.wired.squeue sem
      rw [Kernel.semresetLoop, hqueue]
      dsimp only
      cases hlist : b.waiters sem with
      | nil =>
          refine ⟨b, t, ?_, h, hlist, rfl⟩
          rw [getfirst_empty (a := b.setScount sem count) h.rep
            (queueId_semq hid) hlist, if_neg (fun hne => hne rfl)]
      | cons p l =>
          obtain ⟨hproc, -⟩ := waiter_waits h.queued hid hlist
          have hne : ((((b.setScount sem count).withTable t).getfirst
              (semq sem)).2) ≠ EMPTY := by
            rw [(getfirst_withTable (a := b.setScount sem count) h.rep
              (queueId_semq hid) hlist).1]
            unfold ProcId at hproc
            unfold EMPTY
            show p ≠ -1
            omega
          obtain ⟨t', hflush, hrep⟩ := flush_withTable (t := t) hset h.rep hid
            (by rw [show (b.setScount sem count).ndefers = 1 from h.deferred]
                decide) hlist
          rw [if_pos hne, hflush, setScount_flushed]
          have hnext := h.flush hid hlist hrep
          have hlength : (({ (flushed b sem p).enlist p with attempt := true } :
              Kernel QueueLists).waiters sem).length < fuel := by
            rw [show ({ (flushed b sem p).enlist p with attempt := true } :
              Kernel QueueLists).waiters sem = l from
                waiters_flushed hid hlist]
            rw [hlist, List.length_cons] at hfuel
            omega
          obtain ⟨c, t'', hloop, hlast, hnone, hstate⟩ := ih hnext hlength
          refine ⟨c, t'', hloop, hlast, hnone, ?_⟩
          rw [hstate]
          exact sstate_bumpCount b sem sem 1

theorem Along.semreset
    {count : ℤ} (h : Along action a b t) (hrange : count < 2 ^ 31) :
    Follows action a ((b.withTable t).semreset sem count).1 := by
  unfold Kernel.semreset
  by_cases hbad : count < 0 ∨ isbadsem sem = true ∨
      (b.semtab sem).sstate = .free
  · rw [if_pos (show count < 0 ∨ isbadsem sem = true ∨
      ((b.withTable t).semtab sem).sstate = .free from hbad)]
    exact h.stop
  rw [if_neg (show ¬ (count < 0 ∨ isbadsem sem = true ∨
    ((b.withTable t).semtab sem).sstate = .free) from hbad)]
  have hpos : 0 ≤ count := not_lt.mp fun hneg => hbad (Or.inl hneg)
  have hid := isbadsem_false
    (Bool.eq_false_iff.mpr fun hb => hbad (Or.inr (Or.inl hb)))
  have hused := SState.used_of_ne fun hf => hbad (Or.inr (Or.inr hf))
  obtain ⟨hstart, hdefer⟩ := h.deferStart
  obtain ⟨c, t', hloop, hlast, hnone, hstate⟩ := hdefer.semresetLoop
    (NPROC.toNat + 1) hid (h.settled.queued.wired.counts sem)
    (h.rep.length_le (semq sem) |> Nat.lt_succ_of_le)
  have hself : ({ b with ndefers := 1, attempt := false } :
      Kernel QueueLists).setScount sem (b.semtab sem).scount =
        { b with ndefers := 1, attempt := false } :=
    setScount_self _ sem
  have hmove : Move action a c _ := .semreset hid
    (hstate.trans hused) hnone hpos hrange
  have hreset := hlast.move hmove
    (.of_same rfl rfl fun _ => rfl) hlast.running rfl rfl
    hlast.rep
  have hcount : (c.setScount sem (b.semtab sem).scount).setScount sem count =
      c.setScount sem count := by
    unfold setScount
    rw [setSem_setSem]
  rw [hself, ← hstart] at hloop
  dsimp only
  rw [hloop, show ((c.setScount sem (b.semtab sem).scount).withTable
    t').setScount sem count = (c.setScount sem count).withTable t' from
      congrArg (fun k => k.withTable t') hcount]
  exact hreset.deferStop

end Semaphores

section Processes

variable {action : Action} {a b : Kernel QueueLists} {t : Queuetab}
variable {k : Kernel Queuetab} {pid v : ℤ}

/-- What `newpid` does: it moves its cursor and may find a free entry. -/
theorem newpidLoop_withTable
    (i : ℕ) (b : Kernel QueueLists) (hnext : 0 ≤ b.nextpid) :
    ∃ n pid, 0 ≤ n ∧
      (b.withTable t).newpidLoop i =
        (({ b with nextpid := n } : Kernel QueueLists).withTable t, pid) ∧
      (pid = SYSERR.toInt ∨ ProcId pid ∧ b.state pid = .free) := by
  induction i generalizing b with
  | zero => exact ⟨b.nextpid, SYSERR.toInt, hnext, rfl, Or.inl rfl⟩
  | succ i ih =>
      have hid : ProcId (b.nextpid % NPROC) := by
        unfold ProcId NPROC
        omega
      by_cases hfree : b.state (b.nextpid % NPROC) = .free
      · refine ⟨b.nextpid % NPROC + 1, b.nextpid % NPROC, ?_, ?_,
          Or.inr ⟨hid, hfree⟩⟩
        · unfold ProcId at hid
          omega
        · rw [newpidLoop]
          exact if_pos hfree
      · have hcode : (b.withTable t).newpidLoop (i + 1) =
            (({ b with nextpid := b.nextpid % NPROC + 1 } :
              Kernel QueueLists).withTable t).newpidLoop i := by
          rw [newpidLoop]
          exact if_neg hfree
        rw [hcode]
        exact ih { b with nextpid := b.nextpid % NPROC + 1 } (by
          unfold ProcId at hid
          show 0 ≤ b.nextpid % NPROC + 1
          omega)

theorem Along.heap (h : Along action a b t) (heap : Heap) :
    Along action a { b with heap := heap } t := by
  have hsame : SameTables b { b with heap := heap } := ⟨rfl, id, id⟩
  exact h.move (.adjust hsame) (.of_same rfl rfl fun _ => rfl)
    h.settled.running rfl h.rep

theorem Along.create
    {funcaddr ssize : Word} {priority : Int16} {args : List Word}
    {r : Kernel Queuetab × ℤ} (h : Along action a b t)
    (hcreate : (b.withTable t).create funcaddr ssize priority args = some r) :
    Follows action a r.1 := by
  have hq := h.settled.queued
  unfold Kernel.create at hcreate
  dsimp only at hcreate
  by_cases hprio : priority < 1
  · rw [if_pos hprio, Option.some.injEq] at hcreate
    rw [← hcreate]
    exact h.stop
  rw [if_neg hprio] at hcreate
  obtain ⟨n, pid, hn, hnewpid, hpid⟩ := newpidLoop_withTable (t := t)
    NPROC.toNat b hq.wired.nextpid
  have hsame : SameTables b { b with nextpid := n } := ⟨rfl, fun _ => hn, id⟩
  have hcursor := h.move (.adjust hsame) (.of_same rfl rfl fun _ => rfl)
    h.settled.running rfl h.rep
  unfold newpid at hcreate
  rw [hnewpid] at hcreate
  dsimp only at hcreate
  by_cases hnone : pid = SYSERR.toInt
  · rw [if_pos hnone, Option.some.injEq] at hcreate
    rw [← hcreate]
    exact hcursor.stop
  rw [if_neg hnone, Option.map_eq_some_iff] at hcreate
  obtain ⟨⟨heap, saddr⟩, -, hresult⟩ := hcreate
  dsimp only at hresult
  by_cases hsaddr : saddr = SYSERR
  · rw [if_pos hsaddr] at hresult
    rw [← hresult]
    exact (hcursor.heap heap).stop
  rw [if_neg hsaddr] at hresult
  obtain ⟨hid, hfree⟩ := hpid.resolve_left hnone
  rw [← hresult]
  let mem := (initStack heap.mem saddr funcaddr args).1
  have hheap := hcursor.heap { heap with mem := mem }
  let entry := newEntry (b.proctab pid) priority saddr
    (roundmb (if ssize < MINSTK then MINSTK else ssize))
    (initStack heap.mem saddr funcaddr args).2 b.currpid b.births
  have hmove : Move action a
      { b with nextpid := n, heap := { heap with mem := mem } } _ :=
    @Move.create _ _ _ pid entry hid hfree rfl rfl rfl rfl
  have hne : ∀ {x}, x = b.currpid ∨ x ∈ b.lists READYQ → x ≠ pid := by
    intro x hx heq
    rw [heq] at hx
    rcases hx with hcurr | hready
    · rw [hcurr, h.settled.running] at hfree
      cases hfree
    · rw [hq.mem_readyq.mp hready] at hfree
      cases hfree
  refine (hheap.move hmove ?_ ?_ rfl h.rep).stop
  · refine ⟨rfl, fun hx => hx, ?_⟩
    intro x hx
    exact congrArg (fun e => e.prprio.toInt)
      (proctab_setProc_of_ne b pid (fun _ => entry) x (hne hx))
  · exact (state_setProc_of_ne b pid (fun _ => entry) b.currpid
      (hne (Or.inl rfl))).trans h.settled.running

theorem Along.setdesc
    {i : ℕ} {descrp : ℤ} (h : Along action a b t)
    (hcall : (b.withTable t).perform (.setdesc pid i descrp) = some k) :
    Follows action a k := by
  rw [Kernel.perform] at hcall
  by_cases hbad : b.isbadpid pid = true
  · rw [if_pos (show (b.withTable t).isbadpid pid = true from hbad)] at hcall
    cases hcall
  rw [if_neg (show ¬ (b.withTable t).isbadpid pid = true from hbad),
    Option.some.injEq] at hcall
  rw [← hcall]
  have hmove : Move action a b (b.setProc pid fun e => { e with
      prdesc := Function.update (b.proctab pid).prdesc i descrp }) :=
    .setdesc
  have hstate : (b.setProc pid fun e => { e with
      prdesc := Function.update (b.proctab pid).prdesc i descrp }).state
        b.currpid = b.state b.currpid := by
    apply state_setProc
    exact fun _ => rfl
  exact (h.move hmove (.setProc b pid _ fun _ => rfl)
    (hstate.trans h.settled.running) rfl h.rep).stop

theorem follows_kill
    (ha : Settled a) (ht : Represents t a.queues) (hctx : Callable a) :
    Follows (.call (.kill pid)) a ((a.withTable t).kill pid).1 := by
  have halong : Along (.call (.kill pid)) a a t := .start ha ht
  unfold Kernel.kill
  by_cases hbad : a.isbadpid pid = true ∨ pid = NULLPROC ∨ a.state pid = .free
  · rw [if_pos (show (a.withTable t).isbadpid pid = true ∨ pid = NULLPROC ∨
      (a.withTable t).state pid = .free from hbad)]
    exact halong.stop
  rw [if_neg (show ¬ ((a.withTable t).isbadpid pid = true ∨ pid = NULLPROC ∨
    (a.withTable t).state pid = .free) from hbad)]
  have hlive : a.state pid ≠ .free := fun hf => hbad (Or.inr (Or.inr hf))
  have hnull : pid ≠ NULLPROC := fun hp => hbad (Or.inr (Or.inl hp))
  let b := { a with prcount := a.prcount - 1 }.pushFrame a.currpid
    (.kill pid (a.proctab pid).serial 0)
  have hmove : Move (.call (.kill pid)) a a b :=
    .kill rfl hlive hnull hctx
  have hquiet : Quiet a b := .of_same rfl rfl fun x =>
    prio_pushFrame { a with prcount := a.prcount - 1 } a.currpid x _
  have hrun : b.state a.currpid = .curr :=
    (state_pushFrame { a with prcount := a.prcount - 1 } _ _ _).trans ha.running
  have hstart := halong.move hmove hquiet hrun rfl ht
  show Follows _ a (if b.prcount ≤ 1 then
    ({ b with halted := true }.withTable t, OK)
    else (((b.withTable t).send (b.proctab pid).prparent
      (BitVec.ofInt 32 pid)).1, OK)).1
  by_cases hlast : b.prcount ≤ 1
  · rw [if_pos hlast]
    have hsame : SameTables b { b with halted := true } := ⟨rfl, id, id⟩
    exact (hstart.move (.adjust hsame) (.of_same rfl rfl fun _ => rfl) hrun rfl
      ht).stop
  · rw [if_neg hlast]
    exact hstart.send

theorem Along.killClose
    {s i : ℕ} {rest : List Frame} (h : Along action a b t)
    (hctx : b.context = .kill v s i :: rest) (hturn : i < 3) :
    Follows action a ((b.withTable t).killClose v s i) := by
  have hmove : Move action a b _ := .killClose hctx hturn
  let c := (b.popFrame b.currpid).pushFrame b.currpid (.kill v s (i + 1))
  have hrun : c.state b.currpid = .curr := by
    simp only [c, state_pushFrame, state_popFrame]
    exact h.settled.running
  have hcallable : Callable c := by
    unfold Callable context
    rw [show (c.proctab c.currpid).prctx = .kill v s (i + 1) ::
      ((b.popFrame b.currpid).proctab b.currpid).prctx from
        congrArg Procent.prctx (proctab_setProc_self _ _ _)]
    simp
  have hnext : Along action a c t := h.move hmove
    ((Quiet.popFrame b b.currpid).trans (.pushFrame _ _ _)) hrun rfl h.rep
  show Follows action a
    (if closeBlocks ((c.proctab v).prdesc i) = true then
      (c.pushFrame b.currpid .inClose).withTable t else c.withTable t)
  by_cases hblocks : closeBlocks ((c.proctab v).prdesc i) = true
  · rw [if_pos hblocks]
    have hpush : Move action a c (c.pushFrame c.currpid .inClose) :=
      .pushFrame (by simp) (by simp) hcallable
    refine (hnext.move hpush (.pushFrame _ _ _) ?_ rfl h.rep).stop
    rw [state_pushFrame]
    exact hrun
  · rw [if_neg hblocks]
    exact hnext.stop

/-- The table of a kernel in which a process has been buried. -/
theorem bury_withTable
    (hq : Queued b) (ht : Represents t b.queues) (hcurr : b.state v ≠ .curr) :
    ∃ t', Represents t' (b.bury v).queues ∧
      (match b.state v with
        | .curr => (((b.withTable t).setFree v).resched)
        | .sleep | .rectim => ((b.withTable t).unsleep v).1.setFree v
        | .wait =>
            let sem := ((b.withTable t).proctab v).prsem
            let k := (b.withTable t).setScount sem
              (int32 (((b.withTable t).semtab sem).scount + 1))
            ((k.getitem v).note (.withdrawn sem v)).setFree v
        | .ready => ((b.withTable t).getitem v).setFree v
        | _ => (b.withTable t).setFree v) = (b.bury v).withTable t' := by
  unfold bury
  cases hstate : b.state v with
  | curr => exact absurd hstate hcurr
  | sleep =>
      obtain ⟨t', hunsleep, hrep⟩ := unsleep_withTable hq ht (Or.inl hstate)
      refine ⟨t', hrep, ?_⟩
      dsimp only
      rw [hunsleep]
      rfl
  | rectim =>
      obtain ⟨t', hunsleep, hrep⟩ := unsleep_withTable hq ht (Or.inr hstate)
      refine ⟨t', hrep, ?_⟩
      dsimp only
      rw [hunsleep]
      rfl
  | wait =>
      have hmem : v ∈ b.waiters (b.proctab v).prsem :=
        (hq.mem_waiters (hq.waits hstate)).mpr ⟨hstate, rfl⟩
      exact ⟨t.getitem v, ht.getitem hmem, rfl⟩
  | ready =>
      have hmem : v ∈ b.lists READYQ := hq.mem_readyq.mpr hstate
      exact ⟨t.getitem v, ht.getitem hmem, rfl⟩
  | free => exact ⟨t, ht, rfl⟩
  | recv => exact ⟨t, ht, rfl⟩
  | susp => exact ⟨t, ht, rfl⟩

theorem state_setFree_of_ne {x : ℤ} (hx : x ≠ v) :
    (b.setFree v).state x = b.state x :=
  state_setProc_of_ne b v _ x hx

theorem bury_state_of_ne {x : ℤ} (hx : x ≠ v) :
    (b.bury v).state x = b.state x := by
  unfold bury
  split <;> exact state_setFree_of_ne hx

theorem bury_heap (b : Kernel QueueLists) (v : ℤ) (heap : Heap) :
    ({ b with heap := heap } : Kernel QueueLists).bury v =
      { b.bury v with heap := heap } := by
  unfold bury
  rw [show ({ b with heap := heap } : Kernel QueueLists).state v = b.state v
    from rfl]
  cases b.state v <;> rfl

theorem bury_lists {q x : ℤ} (hx : x ∈ (b.bury v).lists q) : x ∈ b.lists q := by
  have herase : ∀ {l : List ℤ}, x ∈ l.erase v → x ∈ l := List.mem_of_mem_erase
  unfold bury at hx
  split at hx
  · have hsub := herase hx
    rwa [lists_creditNext] at hsub
  · have hsub := herase hx
    rwa [lists_creditNext] at hsub
  · exact herase hx
  · exact herase hx
  · exact hx

theorem follows_killFinish
    {s i : ℕ} {rest : List Frame} (ha : Settled a) (ht : Represents t a.queues)
    (hctx : a.context = .kill v s i :: rest) (hlast : ¬ i < 3)
    (hkill : (a.withTable t).killFinish v = some k) : Follows .cont a k := by
  have hvictim : Victim v := by
    apply ha.queued.victims (x := a.currpid) (v := v) (s := s) (i := i)
    rw [show (a.proctab a.currpid).prctx = _ from hctx]
    simp
  have hserial : ((a.popFrame a.currpid).proctab v).serial =
      (a.proctab v).serial := by
    by_cases hv : v = a.currpid
    · rw [hv, popFrame, proctab_setProc_self]
    · rw [popFrame, proctab_setProc_of_ne _ _ _ _ hv]
  unfold killFinish at hkill
  dsimp only at hkill
  rw [Option.map_eq_some_iff] at hkill
  obtain ⟨⟨heap, status⟩, -, hresult⟩ := hkill
  dsimp only at hresult
  rw [show (((({ (a.withTable t).popFrame (a.withTable t).currpid with
    heap := heap } : Kernel Queuetab).proctab v)).serial) = _ from hserial]
    at hresult
  let b : Kernel QueueLists := { (a.popFrame a.currpid).note
    (.stackFreed v (a.proctab v).serial) with heap := heap }
  have hsame : SameTables (((a.popFrame a.currpid).note
      (.stackFreed v (a.proctab v).serial)).bury v) (b.bury v) := by
    rw [show b.bury v = _ from bury_heap _ v heap]
    exact ⟨rfl, id, id⟩
  have hmoves : Moves .cont a a (b.bury v) :=
    (Relation.ReflTransGen.single
      (.killFinish rfl hctx hlast ha.running)).tail (.adjust hsame)
  have hstate : ∀ x, b.state x = a.state x := fun x =>
    state_popFrame a a.currpid x
  have hpopped := (ha.queued.popFrame a.currpid).note
    (.stackFreed v (a.proctab v).serial)
  have hb : Queued b := hpopped.congr (fun _ => rfl) (fun _ => rfl)
    hpopped.victims rfl rfl { hpopped.wired with }
  have hqueued := hmoves.queued ha.queued
  have hquiet : Quiet a (b.bury v) := by
    refine ⟨bury_currpid _ _, bury_lists, ?_⟩
    intro x _
    rw [bury_prio]
    exact prio_popFrame a a.currpid x
  by_cases hcurr : a.state v = .curr
  · have hv : v = a.currpid := ha.queued.unique hcurr
    have hbury : b.bury v = b.setFree v := by
      unfold bury
      rw [hstate, hcurr]
    have hresched : k = ((b.setFree v).withTable t).resched := by
      rw [← hresult]
      show (match b.state v with
        | .curr => (((b.withTable t).setFree v).resched)
        | .sleep | .rectim => ((b.withTable t).unsleep v).1.setFree v
        | .wait =>
            let sem := ((b.withTable t).proctab v).prsem
            let k := (b.withTable t).setScount sem
              (int32 (((b.withTable t).semtab sem).scount + 1))
            ((k.getitem v).note (.withdrawn sem v)).setFree v
        | .ready => ((b.withTable t).getitem v).setFree v
        | _ => (b.withTable t).setFree v) = _
      rw [hstate, hcurr]
      rfl
    rw [hresched]
    rw [hbury] at hmoves hqueued
    exact Follows.resched hmoves hqueued ha.undeferred ht
  · obtain ⟨t', hrep, hcode⟩ := bury_withTable (t := t) (v := v) hb ht
      (by rw [hstate]; exact hcurr)
    have hne : a.currpid ≠ v := by
      rintro rfl
      exact hcurr ha.running
    refine ⟨b.bury v, t', hmoves, hrep, ?_, ⟨hqueued, ?_, ?_⟩, .quiet hquiet⟩
    · rw [← hresult]
      exact hcode
    · rw [bury_currpid, bury_state_of_ne (show b.currpid ≠ v from hne), hstate]
      exact ha.running
    · rw [bury_ndefers]
      exact ha.undeferred

/-! ## Frames -/

theorem Along.popFrame
    {frame : Frame} {rest : List Frame} (h : Along action a b t)
    (hctx : b.context = frame :: rest) (hkill : ∀ v s i, frame ≠ .kill v s i)
    (hret : frame ≠ .receiveRet) : Along action a (b.popFrame b.currpid) t := by
  refine h.move (.popFrame hctx hkill hret) (.popFrame b _) ?_ rfl h.rep
  rw [state_popFrame]
  exact h.settled.running

theorem Along.clkPreempt (h : Along action a b t) :
    Follows action a (b.withTable t).clkPreempt := by
  have hsame : ∀ preempt, SameTables b { b with preempt := preempt } :=
    fun _ => ⟨rfl, id, id⟩
  have hnext : ∀ preempt, Along action a { b with preempt := preempt } t :=
    fun preempt => h.move (.adjust (hsame preempt))
      (.of_same rfl rfl fun _ => rfl) h.settled.running rfl h.rep
  unfold Kernel.clkPreempt
  dsimp only
  by_cases hzero : b.preempt - 1 ≤ 0
  · rw [if_pos (show (b.withTable t).preempt - 1 ≤ 0 from hzero)]
    exact (hnext QUANTUM).yield
  · rw [if_neg (show ¬ (b.withTable t).preempt - 1 ≤ 0 from hzero)]
    exact (hnext (b.preempt - 1)).stop

theorem follows_recvtimeRet
    {rest : List Frame} (ha : Settled a) (ht : Represents t a.queues)
    (hctx : a.context = .recvtimeRet :: rest) :
    Follows .cont a
      (((a.withTable t).popFrame a.currpid).fetchOrTimeout a.currpid) := by
  have halong : Along .cont a a t := .start ha ht
  have hsame : ((a.popFrame a.currpid).proctab a.currpid).prhasmsg =
      (a.proctab a.currpid).prhasmsg := by
    rw [popFrame, proctab_setProc_self]
  unfold Kernel.fetchOrTimeout
  rw [show (((a.withTable t).popFrame a.currpid).proctab a.currpid).prhasmsg =
    (a.proctab a.currpid).prhasmsg from hsame]
  by_cases hfull : (a.proctab a.currpid).prhasmsg = true
  · rw [if_pos hfull]
    have hmove : Move .cont a a ((a.popFrame a.currpid).fetch a.currpid) :=
      .fetchTimed ha.running hctx hfull
    refine (halong.move hmove ((Quiet.popFrame a _).trans (.fetch _ _)) ?_ rfl
      ht).stop
    rw [state_fetch, state_popFrame]
    exact ha.running
  · rw [if_neg hfull]
    exact (halong.popFrame hctx (by simp) (by simp)).timeOut
      (hsame.trans (Bool.eq_false_iff.mpr hfull))

/-- The rest of a call, frame by frame. -/
theorem follows_proceed
    {frame : Frame} {rest : List Frame} (ha : Settled a)
    (ht : Represents t a.queues) (hctx : a.context = frame :: rest)
    (hproceed : (a.withTable t).proceed frame = some k) : Follows .cont a k := by
  have halong : Along .cont a a t := .start ha ht
  cases frame with
  | clkPreempt =>
      cases hproceed
      exact (halong.popFrame hctx (by simp) (by simp)).clkPreempt
  | receiveRet =>
      cases hproceed
      have hmove : Move .cont a a ((a.popFrame a.currpid).fetch a.currpid) :=
        .fetchRet ha.running hctx
      refine (halong.move hmove ((Quiet.popFrame a _).trans (.fetch _ _)) ?_ rfl
        ht).stop
      rw [state_fetch, state_popFrame]
      exact ha.running
  | recvtimeRet =>
      cases hproceed
      exact follows_recvtimeRet ha ht hctx
  | kill v s i =>
      rw [Kernel.proceed] at hproceed
      by_cases hturn : i < 3
      · rw [if_pos hturn, Option.some.injEq] at hproceed
        rw [← hproceed]
        exact halong.killClose hctx hturn
      · rw [if_neg hturn] at hproceed
        exact follows_killFinish ha ht hctx hturn hproceed
  | inClose => cases hproceed

end Processes

section Clock

variable {action : Action} {a b : Kernel QueueLists} {t : Queuetab} {p : ℤ}

/-- The state in which a sleeper whose time has come is off the queue. -/
def expired (b : Kernel QueueLists) (p : ℤ) : Kernel QueueLists :=
  (b.unlink p).note (.expired p)

theorem nonempty_withTable (k : Kernel Queuetab) (q : ℤ) :
    k.nonempty q = !k.isempty q := by
  unfold nonempty isempty
  by_cases hlt : k.queues.firstid q < NPROC
  · simp [hlt, not_le.mpr hlt]
  · simp [hlt, not_lt.mp hlt]

/-- The kernel in which the first sleeper has been charged for a tick. -/
def Kernel.ticked (a : Kernel QueueLists) : Kernel QueueLists :=
  { a with queues := a.queues.decFirstkey SLEEPQ }.note .ticked

/-- What serving the sleep queue does: `gone` has expired and `rest` stays. -/
structure Served
    (b c : Kernel QueueLists) (gone rest : List ℤ) : Prop where
  split : b.lists SLEEPQ = gone ++ rest
  left : c.lists SLEEPQ = rest
  due : ∀ p ∈ gone, b.key p ≤ 0
  later : ∀ p l, rest = p :: l → 0 < b.key p
  keys : ∀ p ∈ rest, c.key p = b.key p
  log : c.log = (gone.map Event.expired).reverse ++ b.log

theorem Served.aside
    {c d : Kernel QueueLists} {gone rest : List ℤ} (h : Served b c gone rest)
    (haside : Aside c d) : Served b d gone rest := by
  have hne : SLEEPQ ≠ READYQ := by
    unfold SLEEPQ READYQ
    omega
  refine ⟨h.split, ?_, h.due, h.later, ?_, haside.log.trans h.log⟩
  · rw [haside.lists hne, h.left]
  · intro p hp
    rw [haside.keys hne (by rw [h.left]; exact hp)]
    exact h.keys p hp

theorem Deferring.wakeupLoop
    (fuel : ℕ) (h : Deferring .tick a b t)
    (hfuel : (b.lists SLEEPQ).length < fuel) :
    ∃ c t' gone rest, (b.withTable t).wakeupLoop fuel = c.withTable t' ∧
      Deferring .tick a c t' ∧ Served b c gone rest := by
  induction fuel generalizing b t with
  | zero => omega
  | succ fuel ih =>
      have hsleepq : (b.withTable t).sleepq = SLEEPQ := h.queued.wired.sleepq
      rw [Kernel.wakeupLoop, hsleepq, nonempty_withTable,
        firstkey_withTable h.rep queueId_sleepq]
      cases hlist : b.lists SLEEPQ with
      | nil =>
          have hempty := (isempty_withTable h.rep queueId_sleepq).mpr hlist
          rw [if_neg (by simp [hempty])]
          exact ⟨b, t, [], [], rfl, h, hlist, hlist, by simp, by simp, by simp,
            rfl⟩
      | cons p l =>
          have hempty := isempty_cons h.rep queueId_sleepq hlist
          have hkey : b.queues.firstkey SLEEPQ = b.key p := by
            unfold QueueLists.firstkey
            rw [show b.queues.lists SLEEPQ = p :: l from hlist]
            rfl
          rw [hkey]
          by_cases hdue : b.key p ≤ 0
          · have hmem : p ∈ b.lists SLEEPQ := by simp [hlist]
            have hstate := h.queued.mem_sleepq.mp hmem
            have hlive : b.state p ≠ .free := by
              rcases hstate with hs | hs <;> simp [hs]
            obtain ⟨t', hdequeue, hrep⟩ := dequeue_withTable h.rep
              queueId_sleepq hlist
            have hloose : Loose p (expired b p) := (h.queued.unlink p).note _
            obtain ⟨t'', hready, hnext⟩ := h.ready hloose
              (h.queued.bounded hlive) hlive hrep (.expire rfl hlist hdue) rfl
              rfl (fun _ => rfl) (by rcases hstate with hs | hs <;> simp [hs])
            have hrest : ({ (expired b p).enlist p with attempt := true } :
                Kernel QueueLists).lists SLEEPQ = l := by
              refine (lists_enlist_of_ne (expired b p) p (by decide)).trans ?_
              show (b.lists SLEEPQ).erase p = l
              rw [hlist, List.erase_cons_head]
            have hlength : (({ (expired b p).enlist p with attempt := true } :
                Kernel QueueLists).lists SLEEPQ).length < fuel := by
              rw [hrest]
              rw [hlist, List.length_cons] at hfuel
              omega
            obtain ⟨c, t₃, gone, rest, hloop, hlast, hserved⟩ :=
              ih hnext hlength
            have hsplit : l = gone ++ rest := hrest.symm.trans hserved.split
            have hkeys : ∀ x ∈ l, ({ (expired b p).enlist p with
                attempt := true } : Kernel QueueLists).key x = b.key x := by
              intro x hx
              have hnodup := h.queued.placed.nodup SLEEPQ
              rw [show b.queues.lists SLEEPQ = p :: l from hlist] at hnodup
              refine Function.update_of_ne ?_ _ _
              rintro rfl
              exact (List.nodup_cons.mp hnodup).1 hx
            refine ⟨c, t₃, p :: gone, rest, ?_, hlast, ?_⟩
            swap
            · constructor
              · rw [hlist, hsplit]
                rfl
              · exact hserved.left
              · intro x hx
                rcases List.mem_cons.mp hx with rfl | hx
                · exact hdue
                · rw [← hkeys x (by rw [hsplit]; simp [hx])]
                  exact hserved.due x hx
              · intro x m hx
                rw [← hkeys x (by rw [hsplit, hx]; simp)]
                exact hserved.later x m hx
              · intro x hx
                rw [← hkeys x (by rw [hsplit]; simp [hx])]
                exact hserved.keys x hx
              · rw [hserved.log]
                show _ ++ Event.expired p :: b.log = _
                simp
            rw [if_pos ⟨by simp [hempty], hdue⟩, hdequeue, ← hloop, ← hready]
            rfl
          · rw [if_neg fun hand => hdue hand.2]
            refine ⟨b, t, [], p :: l, rfl, h, hlist, hlist, by simp, ?_,
              fun _ _ => rfl, rfl⟩
            intro x m hx
            cases hx
            exact not_le.mp hdue

/-- A step that has served the sleep queue of `b`. -/
def FollowsServed (a b : Kernel QueueLists) (k : Kernel Queuetab) : Prop :=
  ∃ c t, Moves .tick a a c ∧ Represents t c.queues ∧ k = c.withTable t ∧
    Settled c ∧ Picks .tick a c ∧ ∃ gone rest, Served b c gone rest

theorem Along.wakeup (h : Along .tick a b t) :
    FollowsServed a b (b.withTable t).wakeup := by
  obtain ⟨hstart, hdefer⟩ := h.deferStart
  obtain ⟨c, t', gone, rest, hloop, hlast, hserved⟩ := hdefer.wakeupLoop
    (NPROC.toNat + 1) (Nat.lt_succ_of_le (h.rep.length_le SLEEPQ))
  unfold Kernel.wakeup
  dsimp only
  rw [hstart, hloop]
  obtain ⟨d, t'', hmoves, hrep, hk, hsettled, hpicks, haside⟩ :=
    hlast.deferStop_aside
  have hbase : Served b c gone rest :=
    ⟨hserved.split, hserved.left, hserved.due, hserved.later, hserved.keys,
      hserved.log⟩
  exact ⟨d, t'', hmoves, hrep, hk, hsettled, hpicks, gone, rest,
    hbase.aside haside⟩

theorem Along.stopServed
    {c : Kernel QueueLists} (gone rest : List ℤ) (h : Along .tick a b t)
    (hserved : Served c b gone rest) : FollowsServed a c (b.withTable t) :=
  ⟨b, t, h.moves, h.rep, rfl, h.settled, .quiet h.quiet, gone, rest, hserved⟩

theorem keys_decFirstkey_nil (L : QueueLists) (hnil : L.lists SLEEPQ = []) :
    L.decFirstkey SLEEPQ = L := by
  unfold QueueLists.decFirstkey
  rw [hnil]

theorem follows_clkhandler
    (ha : Settled a) (ht : Represents t a.queues) (hctx : a.context = []) :
    FollowsServed a a.ticked (a.withTable t).clkhandler := by
  have halong : Along .tick a a t := .start ha ht
  let ticked := a.ticked
  let b := ticked.countMs.pushFrame a.currpid .clkPreempt
  have hnext : ∀ t', Represents t' (a.queues.decFirstkey SLEEPQ) →
      Along .tick a b t' := by
    intro t' hrep
    have hsame : SameTables ticked ticked.countMs := ⟨rfl, id, id⟩
    have hcallable : Callable ticked.countMs := by
      unfold Callable
      rw [show ticked.countMs.context = [] from hctx]
      simp
    have h₁ := halong.move (.tick rfl hctx)
      (.of_same rfl (lists_decFirstkey _ _) fun _ => rfl) ha.running rfl hrep
    have h₂ := h₁.move (.adjust hsame) (.of_same rfl rfl fun _ => rfl)
      ha.running rfl hrep
    have hpush : Move .tick a ticked.countMs
        (ticked.countMs.pushFrame ticked.countMs.currpid .clkPreempt) :=
      .pushFrame (by simp) (by simp) hcallable
    refine h₂.move hpush (.pushFrame _ _ _) ?_ rfl hrep
    rw [state_pushFrame]
    exact ha.running
  have hcode : (a.withTable t).clkhandler =
      if (a.withTable t).isempty a.sleepq then
        ({ b with queues := a.queues } : Kernel QueueLists).withTable t
      else if (t.decFirstkey a.sleepq).firstkey a.sleepq ≤ 0 then
        (b.withTable (t.decFirstkey a.sleepq)).wakeup
      else b.withTable (t.decFirstkey a.sleepq) :=
    rfl
  rw [ha.queued.wired.sleepq] at hcode
  rw [hcode]
  by_cases hempty : (a.withTable t).isempty SLEEPQ = true
  · rw [if_pos hempty]
    have hnil := (isempty_withTable ht queueId_sleepq).mp hempty
    have hkeys : a.queues.decFirstkey SLEEPQ = a.queues := by
      unfold QueueLists.decFirstkey
      rw [show a.queues.lists SLEEPQ = [] from hnil]
    have hsleep := hnext t (by rw [hkeys]; exact ht)
    have hnil' : ticked.lists SLEEPQ = [] :=
      (congrFun (lists_decFirstkey _ _) _).trans hnil
    rw [show ({ b with queues := a.queues } : Kernel QueueLists) = b from ?_]
    · exact hsleep.stopServed [] []
        ⟨hnil', hnil', by simp, by simp, by simp, rfl⟩
    · rw [← hkeys]
      rfl
  · rw [if_neg hempty]
    have hne : a.queues.lists SLEEPQ ≠ [] := fun hnil =>
      hempty ((isempty_withTable ht queueId_sleepq).mpr hnil)
    have hsleep := hnext _ (ht.decFirstkey queueId_sleepq hne)
    by_cases hdue : (t.decFirstkey SLEEPQ).firstkey SLEEPQ ≤ 0
    · rw [if_pos hdue]
      obtain ⟨c, t', hmoves, hrep, hk, hsettled, hpicks, gone, rest, hserved⟩ :=
        hsleep.wakeup
      exact ⟨c, t', hmoves, hrep, hk, hsettled, hpicks, gone, rest,
        hserved.split, hserved.left, hserved.due, hserved.later, hserved.keys,
        hserved.log⟩
    · rw [if_neg hdue]
      refine hsleep.stopServed [] (ticked.lists SLEEPQ)
        ⟨rfl, rfl, by simp, ?_, fun _ _ => rfl, rfl⟩
      intro p l hlist
      have hkey : b.queues.firstkey SLEEPQ = ticked.key p := by
        unfold QueueLists.firstkey
        rw [show b.queues.lists SLEEPQ = p :: l from hlist]
        rfl
      rw [← hkey, ← hsleep.rep.firstkey queueId_sleepq]
      exact not_le.mp hdue

end Clock

/-! ## Every step -/

section Steps

variable {action : Action} {a : Kernel QueueLists} {t : Queuetab}
variable {k : Kernel Queuetab}

/-- What else is known about the state that a step ends in. -/
structure Completed (action : Action) (a c : Kernel QueueLists) : Prop where
  deleted : ∀ {sem}, action = .call (.semdelete sem) → Deleted sem a c
  served : action = .tick → ∃ gone rest, Served a.ticked c gone rest

/-- The machine has completed the step that begins in `a`. -/
def FollowsStep (action : Action) (a : Kernel QueueLists)
    (k : Kernel Queuetab) : Prop :=
  ∃ c t, Moves action a a c ∧ Represents t c.queues ∧ k = c.withTable t ∧
    Settled c ∧ Picks action a c ∧ Completed action a c

theorem Follows.step
    (h : Follows action a k)
    (hdelete : ∀ sem, action ≠ .call (.semdelete sem))
    (htick : action ≠ .tick) : FollowsStep action a k := by
  obtain ⟨c, t, hmoves, hrep, hk, hsettled, hpicks⟩ := h
  exact ⟨c, t, hmoves, hrep, hk, hsettled, hpicks,
    fun heq => absurd heq (hdelete _), fun heq => absurd heq htick⟩

theorem nonblocking_mayBlock
    {c : Call} (hnull : ¬ (a.currpid = NULLPROC ∧ c.nonblocking = false))
    (hblock : c.nonblocking = false) : MayBlock a :=
  fun hcurr => hnull ⟨hcurr, hblock⟩

theorem follows_perform
    {c : Call} (ha : Settled a) (ht : Represents t a.queues)
    (hctx : Callable a)
    (hnull : ¬ (a.currpid = NULLPROC ∧ c.nonblocking = false))
    (hperform : (a.withTable t).perform c = some k) :
    FollowsStep (.call c) a k := by
  have halong : Along (.call c) a a t := .start ha ht
  have hblock := nonblocking_mayBlock (a := a) hnull
  have hint : ∀ x : Int32, x.toInt < 2 ^ 31 := Int32.toInt_lt
  by_cases hdelete : ∃ sem, c = .semdelete sem
  · obtain ⟨sem, rfl⟩ := hdelete
    cases hperform
    obtain ⟨d, t', hmoves, hrep, hk, hsettled, hpicks, hdeleted⟩ :=
      @follows_semdelete _ _ sem ha ht
    refine ⟨d, t', hmoves, hrep, hk, hsettled, hpicks, ?_, by simp⟩
    intro sem' heq
    cases heq
    exact hdeleted
  refine Follows.step ?_ (fun sem heq => hdelete ⟨sem, by simpa using heq⟩)
    (by simp)
  cases c with
  | create funcaddr ssize priority args =>
      rw [Kernel.perform, Option.map_eq_some_iff] at hperform
      obtain ⟨r, hcreate, hr⟩ := hperform
      rw [← hr]
      exact halong.create hcreate
  | resume pid =>
      cases hperform
      exact halong.resume
  | suspend pid =>
      cases hperform
      exact halong.suspend
  | kill pid =>
      cases hperform
      exact follows_kill ha ht hctx
  | yield =>
      cases hperform
      exact halong.yield
  | chprio pid newprio =>
      cases hperform
      exact follows_chprio ha ht
  | sleep delay =>
      cases hperform
      exact halong.sleep (hblock rfl)
  | sleepms delay =>
      cases hperform
      exact halong.sleepms (hblock rfl) (hint delay)
  | recvtime maxwait =>
      cases hperform
      exact halong.recvtime (hblock rfl) hctx (hint maxwait)
  | send pid msg =>
      cases hperform
      exact halong.send
  | receive =>
      cases hperform
      exact halong.receive (hblock rfl) hctx
  | recvclr =>
      cases hperform
      exact halong.recvclr hctx
  | wait sem =>
      cases hperform
      exact halong.wait (hblock rfl)
  | signal sem =>
      cases hperform
      exact halong.signal
  | signaln sem count =>
      cases hperform
      exact halong.signaln
  | semcreate count =>
      cases hperform
      exact halong.semcreate ⟨count, rfl⟩ (hint count)
  | semdelete sem =>
      exact absurd ⟨sem, rfl⟩ hdelete
  | semreset sem count =>
      cases hperform
      exact halong.semreset (hint count)
  | getmem nbytes =>
      rw [Kernel.perform, Option.map_eq_some_iff] at hperform
      obtain ⟨⟨heap, addr⟩, -, hr⟩ := hperform
      rw [← hr]
      exact (halong.heap heap).stop
  | freemem blkaddr nbytes =>
      rw [Kernel.perform, Option.map_eq_some_iff] at hperform
      obtain ⟨⟨heap, status⟩, -, hr⟩ := hperform
      rw [← hr]
      exact (halong.heap heap).stop
  | setdesc pid i descrp => exact halong.setdesc hperform

/-- Every step of the machine is a chain of moves. -/
theorem follows_step
    (ha : Settled a) (ht : Represents t a.queues)
    (hstep : step (a.withTable t) action = some k) :
    FollowsStep action a k := by
  unfold step at hstep
  by_cases hstop : (a.halted || a.hung) = true
  · rw [if_pos (show ((a.withTable t).halted || (a.withTable t).hung) = true
      from hstop)] at hstep
    cases hstep
  rw [if_neg (show ¬ ((a.withTable t).halted || (a.withTable t).hung) = true
    from hstop), show (a.withTable t).context = a.context from rfl] at hstep
  have hcall : ∀ c, Callable a → (if (a.withTable t).currpid = NULLPROC ∧
      c.nonblocking = false then none else (a.withTable t).perform c) = some k →
        FollowsStep (.call c) a k := by
    intro c hcallable hc
    by_cases hnull : a.currpid = NULLPROC ∧ c.nonblocking = false
    · rw [if_pos (show (a.withTable t).currpid = NULLPROC ∧ _ from hnull)] at hc
      cases hc
    · rw [if_neg (show ¬ ((a.withTable t).currpid = NULLPROC ∧ _) from hnull)]
        at hc
      exact follows_perform ha ht hcallable hnull hc
  cases action with
  | call c =>
      cases hctx : a.context with
      | nil =>
          rw [hctx] at hstep
          exact hcall c (by simp [Callable, hctx]) hstep
      | cons frame rest =>
          rw [hctx] at hstep
          cases frame <;> try cases hstep
          exact hcall c (by simp [Callable, hctx]) hstep
  | cont =>
      cases hctx : a.context with
      | nil =>
          rw [hctx] at hstep
          cases hstep
      | cons frame rest =>
          rw [hctx] at hstep
          exact (follows_proceed ha ht hctx hstep).step (by simp) (by simp)
  | tick =>
      cases hctx : a.context with
      | nil =>
          rw [hctx] at hstep
          cases hstep
          obtain ⟨c, t', hmoves, hrep, hk, hsettled, hpicks, hserved⟩ :=
            follows_clkhandler ha ht hctx
          exact ⟨c, t', hmoves, hrep, hk, hsettled, hpicks, by simp,
            fun _ => hserved⟩
      | cons frame rest =>
          rw [hctx] at hstep
          cases hstep
  | closeDone =>
      cases hctx : a.context with
      | nil =>
          rw [hctx] at hstep
          cases hstep
      | cons frame rest =>
          rw [hctx] at hstep
          cases frame <;> try cases hstep
          have halong : Along .closeDone a a t := .start ha ht
          exact (halong.popFrame hctx (by simp) (by simp)).stop.step (by simp)
            (by simp)

end Steps

end Xinu
