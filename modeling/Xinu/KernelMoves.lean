import Xinu.KernelCalls
import Xinu.Placement

/-!
# The kernel over lists

The abstract kernel keeps each queue as a list.  It runs by moves: a move is a
change that leaves every table consistent, such as a process that starts to
wait on a semaphore with its entry, the count and the queue changed together.
A step of the machine over the queue table is a chain of moves.

`Queued` says where every process is: on the ready list, on the sleep queue, on
the queue of the semaphore it waits for, or on no queue, as its state tells.
-/

namespace Xinu

open ByteMemory Placement

/-! ## Where a process belongs -/

def READYQ : ℤ := NPROC + 2 * NSEM

def SLEEPQ : ℤ := NPROC + 2 * NSEM + 2

/-- The queue of a semaphore. -/
def semq (sem : ℤ) : ℤ := NPROC + 2 * sem

def SemId (sem : ℤ) : Prop := 0 ≤ sem ∧ sem < NSEM

/-- The queue that a process with this entry is on. -/
def Procent.home (p : Procent) : Option ℤ :=
  match p.prstate with
  | .ready => some READYQ
  | .sleep | .rectim => some SLEEPQ
  | .wait => some (semq p.prsem)
  | _ => none

namespace Kernel

/-! ## Abstract operations -/

variable (a : Kernel QueueLists)

def lists (q : ℤ) : List ℤ := a.queues.lists q

def key (p : ℤ) : ℤ := a.queues.keys p

def homes : ℤ → Option ℤ := fun p => (a.proctab p).home

/-- The queue of a semaphore. -/
def waiters (sem : ℤ) : List ℤ := a.lists (semq sem)

def unlink (p : ℤ) : Kernel QueueLists :=
  { a with queues := a.queues.getitem p }

/-- Make a process ready. -/
def enlist (p : ℤ) : Kernel QueueLists :=
  let a := a.setState p .ready
  { a with queues := a.queues.insert p READYQ (a.prio p) }

/-- Let a process of the ready list run. -/
def dispatch (p : ℤ) : Kernel QueueLists :=
  { (a.unlink p).setState p .curr with currpid := p, preempt := QUANTUM }

/-- Put a process to sleep for a number of ticks. -/
def delay (p ticks : ℤ) (s : PrState) : Kernel QueueLists :=
  ({ a.setState p s with queues := a.queues.insertd p SLEEPQ ticks }).note
    (.slept p ticks)

/-- Take a process off the sleep queue before its time. -/
def unsleepEarly (p : ℤ) : Kernel QueueLists :=
  ({ a with queues := (a.queues.creditNext p SLEEPQ).getitem p }).note
    (.unslept p)

/-- Let a process wait on a semaphore. -/
def waitOn (sem p : ℤ) : Kernel QueueLists :=
  let a := a.setProc p fun e => { e with prstate := .wait, prsem := sem }
  ({ a with queues := a.queues.enqueue p (semq sem) }).note (.waited sem p)

/-- Change the count of a semaphore by one. -/
def bumpCount (sem step : ℤ) : Kernel QueueLists :=
  a.setScount sem (int32 ((a.semtab sem).scount + step))

/-- Free the entry of a process that has been killed, after its queue. -/
def bury (v : ℤ) : Kernel QueueLists :=
  match a.state v with
  | .sleep | .rectim => (a.unsleepEarly v).setFree v
  | .wait =>
      (((a.bumpCount (a.proctab v).prsem 1).unlink v).note
        (.withdrawn (a.proctab v).prsem v)).setFree v
  | .ready => (a.unlink v).setFree v
  | _ => a.setFree v

end Kernel

/-! ## Moves -/

/-- What an action asks for; the run of an action without overflow stays below
the limit of the semaphore count. -/
def SignalsInRange {Q : Type} (k : Kernel Q) : Action → Prop
  | .call (.signal sem) => (k.semtab sem).scount + 1 < 2 ^ 31
  | .call (.signaln sem count) =>
      (k.semtab sem).scount + count.toInt < 2 ^ 31
  | .call (.semdelete sem) => (k.semtab sem).scount + 1 < 2 ^ 31
  | _ => True

/-- States that differ in variables that no table depends on. -/
structure SameTables {Q : Type} (b c : Kernel Q) : Prop where
  eq : c = { b with
    ndefers := c.ndefers, attempt := c.attempt, preempt := c.preempt
    clktime := c.clktime, count1000 := c.count1000, nextpid := c.nextpid
    nextsem := c.nextsem, heap := c.heap, halted := c.halted }
  nextpid : 0 ≤ b.nextpid → 0 ≤ c.nextpid
  nextsem : SemId b.nextsem → SemId c.nextsem

/-- The current process is not about to fetch the message that woke it. -/
def Callable (a : Kernel QueueLists) : Prop :=
  a.context.head? ≠ some .receiveRet

open Kernel in
/-- The moves that an action can cause when it starts in state `a`. -/
inductive Move (action : Action) (a : Kernel QueueLists) :
    Kernel QueueLists → Kernel QueueLists → Prop
  | adjust {b c} (hsame : SameTables b c) : Move action a b c
  -- Scheduling.
  | demote {b} (hcurr : b.state b.currpid = .curr) :
      Move action a b (b.enlist b.currpid)
  | dispatch {b p l} (hidle : b.state b.currpid ≠ .curr)
      (hfirst : b.lists READYQ = p :: l) : Move action a b (b.dispatch p)
  | suspendCurr {b} (hcurr : b.state b.currpid = .curr)
      (hnull : b.currpid ≠ NULLPROC) :
      Move action a b (b.setState b.currpid .susp)
  | suspendReady {b p} (hready : b.state p = .ready) (hnull : p ≠ NULLPROC) :
      Move action a b ((b.unlink p).setState p .susp)
  | resume {b p} (hsusp : b.state p = .susp) : Move action a b (b.enlist p)
  | chprio {p newprio} (haction : action = .call (.chprio p newprio))
      (hlive : a.state p ≠ .free) :
      Move action a a (a.setProc p fun e => { e with prprio := newprio })
  -- Messages.
  | deliver {b p msg} (hlive : b.state p ≠ .free)
      (hempty : (b.proctab p).prhasmsg = false)
      (hrecv : b.state p ≠ .recv) (hrectim : b.state p ≠ .rectim) :
      Move action a b (b.deposit p msg)
  | deliverRecv {b p msg} (hempty : (b.proctab p).prhasmsg = false)
      (hrecv : b.state p = .recv) : Move action a b ((b.deposit p msg).enlist p)
  | deliverRectim {b p msg} (hempty : (b.proctab p).prhasmsg = false)
      (hrectim : b.state p = .rectim) :
      Move action a b (((b.deposit p msg).unsleepEarly p).enlist p)
  | awaitMessage {b} (hcurr : b.state b.currpid = .curr)
      (hempty : (b.proctab b.currpid).prhasmsg = false)
      (hnull : b.currpid ≠ NULLPROC) (hctx : Callable b) :
      Move action a b
        ((b.setState b.currpid .recv).pushFrame b.currpid .receiveRet)
  | fetch {b} (hcurr : b.state b.currpid = .curr)
      (hfull : (b.proctab b.currpid).prhasmsg = true) (hctx : Callable b) :
      Move action a b (b.fetch b.currpid)
  | fetchRet {b rest} (hcurr : b.state b.currpid = .curr)
      (hctx : b.context = .receiveRet :: rest) :
      Move action a b ((b.popFrame b.currpid).fetch b.currpid)
  | fetchTimed {b rest} (hcurr : b.state b.currpid = .curr)
      (hctx : b.context = .recvtimeRet :: rest)
      (hfull : (b.proctab b.currpid).prhasmsg = true) :
      Move action a b ((b.popFrame b.currpid).fetch b.currpid)
  | timeOut {b} (hcurr : b.state b.currpid = .curr)
      (hempty : (b.proctab b.currpid).prhasmsg = false) :
      Move action a b (b.note (.timedOut b.currpid))
  -- The sleep queue.
  | sleep {b ticks} (hcurr : b.state b.currpid = .curr)
      (hnull : b.currpid ≠ NULLPROC) (hpos : 0 < ticks)
      (hrange : ticks < 2 ^ 31) :
      Move action a b (b.delay b.currpid ticks .sleep)
  | awaitTimed {b ticks} (hcurr : b.state b.currpid = .curr)
      (hempty : (b.proctab b.currpid).prhasmsg = false)
      (hnull : b.currpid ≠ NULLPROC) (hctx : Callable b) (hpos : 0 ≤ ticks)
      (hrange : ticks < 2 ^ 31) :
      Move action a b
        ((b.delay b.currpid ticks .rectim).pushFrame b.currpid .recvtimeRet)
  | tick (haction : action = .tick) (hctx : a.context = []) :
      Move action a a
        ({ a with queues := a.queues.decFirstkey SLEEPQ }.note .ticked)
  | expire {b p l} (haction : action = .tick)
      (hfirst : b.lists SLEEPQ = p :: l) (hdue : b.key p ≤ 0) :
      Move action a b (((b.unlink p).note (.expired p)).enlist p)
  -- Semaphores.
  | pass {b sem} (hid : SemId sem) (hused : (b.semtab sem).sstate = .used)
      (hcount : 0 ≤ int32 ((b.semtab sem).scount - 1)) :
      Move action a b ((b.bumpCount sem (-1)).note (.passed sem))
  | wait {b sem} (hid : SemId sem) (hused : (b.semtab sem).sstate = .used)
      (hcurr : b.state b.currpid = .curr) (hnull : b.currpid ≠ NULLPROC)
      (hcount : int32 ((b.semtab sem).scount - 1) < 0) :
      Move action a b ((b.bumpCount sem (-1)).waitOn sem b.currpid)
  | signal {b sem} (hid : SemId sem) (hused : (b.semtab sem).sstate = .used)
      (hcount : 0 ≤ (b.semtab sem).scount)
      (hrange : SignalsInRange a action → (b.semtab sem).scount + 1 < 2 ^ 31) :
      Move action a b ((b.bumpCount sem 1).note (.signalled sem))
  | release {b sem p l} (hid : SemId sem)
      (hused : (b.semtab sem).sstate = .used)
      (hcount : (b.semtab sem).scount < 0)
      (hfirst : b.waiters sem = p :: l) :
      Move action a b
        ((((((b.bumpCount sem 1).note (.signalled sem)).note
          (.released sem p)).unlink p)).enlist p)
  | flush {b sem p l} (hid : SemId sem) (hfirst : b.waiters sem = p :: l) :
      Move action a b
        ((((b.bumpCount sem 1).note (.flushed sem p)).unlink p).enlist p)
  /-- A negative count without a waiter. -/
  | stray {b sem events} (hid : SemId sem)
      (hcount : (b.semtab sem).scount < 0) (hnone : b.waiters sem = [])
      (hevents : events = [.released sem EMPTY, .signalled sem] ∨
        events = [.flushed sem EMPTY]) :
      Move action a b { b.bumpCount sem 1 with log := events ++ b.log }
  | semcreate {b sem count} (haction : ∃ n, action = .call (.semcreate n))
      (hid : SemId sem)
      (hfree : (b.semtab sem).sstate = .free) (hpos : 0 ≤ count)
      (hrange : count < 2 ^ 31) :
      Move action a b
        ((b.setSem sem fun s => { s with sstate := .used, scount := count }).note
          (.started sem count))
  | semreset {b sem count} (hid : SemId sem)
      (hused : (b.semtab sem).sstate = .used) (hnone : b.waiters sem = [])
      (hpos : 0 ≤ count) (hrange : count < 2 ^ 31) :
      Move action a b ((b.setScount sem count).note (.started sem count))
  | semfree {sem} (haction : action = .call (.semdelete sem))
      (hid : SemId sem) (hused : (a.semtab sem).sstate = .used) :
      Move action a a (a.setSem sem fun s => { s with sstate := .free })
  | semdone {b sem} (hid : SemId sem)
      (hfree : (b.semtab sem).sstate = .free)
      (hcount : 0 ≤ (b.semtab sem).scount)
      (hrange : SignalsInRange a action → (b.semtab sem).scount + 1 < 2 ^ 31) :
      Move action a b (b.bumpCount sem 1)
  -- Processes.
  | create {b p entry} (hid : ProcId p) (hfree : b.state p = .free)
      (hstate : entry.prstate = .susp) (hempty : entry.prhasmsg = false)
      (hctx : entry.prctx = []) (hserial : entry.serial = b.births) :
      Move action a b
        (({ b with prcount := b.prcount + 1, births := b.births + 1 }.setProc p
          fun _ => entry).note (.created p b.births))
  | setdesc {b p desc} :
      Move action a b (b.setProc p fun e => { e with prdesc := desc })
  | pushFrame {b frame} (hkill : ∀ v s i, frame ≠ .kill v s i)
      (hret : frame ≠ .receiveRet) (hctx : Callable b) :
      Move action a b (b.pushFrame b.currpid frame)
  | popFrame {b frame rest} (hctx : b.context = frame :: rest)
      (hkill : ∀ v s i, frame ≠ .kill v s i) (hret : frame ≠ .receiveRet) :
      Move action a b (b.popFrame b.currpid)
  | kill {v} (haction : action = .call (.kill v)) (hlive : a.state v ≠ .free)
      (hnull : v ≠ NULLPROC) (hctx : Callable a) :
      Move action a a
        ({ a with prcount := a.prcount - 1 }.pushFrame a.currpid
          (.kill v (a.proctab v).serial 0))
  | killClose {b v s i rest} (hctx : b.context = .kill v s i :: rest)
      (hturn : i < 3) :
      Move action a b
        ((b.popFrame b.currpid).pushFrame b.currpid (.kill v s (i + 1)))
  | killFinish {v s i rest} (haction : action = .cont)
      (hctx : a.context = .kill v s i :: rest) (hlast : ¬ i < 3)
      (hcurr : a.state a.currpid = .curr) :
      Move action a a
        (((a.popFrame a.currpid).note
          (.stackFreed v (a.proctab v).serial)).bury v)

abbrev Moves (action : Action) (a : Kernel QueueLists) :
    Kernel QueueLists → Kernel QueueLists → Prop :=
  Relation.ReflTransGen (Move action a)

/-! ## Every process is where its state says -/

/-- The variables that `sysinit` sets once and for all. -/
structure Wired {Q : Type} (a : Kernel Q) : Prop where
  readylist : a.readylist = READYQ
  sleepq : a.sleepq = SLEEPQ
  squeue : ∀ sem, (a.semtab sem).squeue = semq sem
  counts : ∀ sem, InRange (a.semtab sem).scount
  nextpid : 0 ≤ a.nextpid
  nextsem : SemId a.nextsem
  alive : a.hung = false

/-- A victim of `kill` is a process other than the null process. -/
def Victim (v : ℤ) : Prop := ProcId v ∧ v ≠ NULLPROC

structure Queued (a : Kernel QueueLists) : Prop where
  placed : Placed a.homes a.queues.lists
  bounded : ∀ {x}, a.state x ≠ .free → ProcId x
  unique : ∀ {x}, a.state x = .curr → x = a.currpid
  current : ProcId a.currpid
  null : a.state NULLPROC = .curr ∨ a.state NULLPROC = .ready
  waits : ∀ {x}, a.state x = .wait → SemId (a.proctab x).prsem
  victims : ∀ {x v s i}, .kill v s i ∈ (a.proctab x).prctx → Victim v
  wired : Wired a

/-- As `Queued`, but `p` is on no queue while its entry is being changed. -/
structure Loose (p : ℤ) (a : Kernel QueueLists) : Prop where
  placed : Placed (Function.update a.homes p none) a.queues.lists
  bounded : ∀ {x}, x ≠ p → a.state x ≠ .free → ProcId x
  unique : ∀ {x}, x ≠ p → a.state x = .curr → x = a.currpid
  current : ProcId a.currpid
  null : p ≠ NULLPROC →
    a.state NULLPROC = .curr ∨ a.state NULLPROC = .ready
  waits : ∀ {x}, x ≠ p → a.state x = .wait → SemId (a.proctab x).prsem
  victims : ∀ {x v s i}, .kill v s i ∈ (a.proctab x).prctx → Victim v
  wired : Wired a

namespace Kernel

section Reads

variable {Q : Type} (k : Kernel Q) (p : ℤ) (f : Procent → Procent) (x : ℤ)

theorem proctab_setProc_self : (k.setProc p f).proctab p = f (k.proctab p) := by
  simp [setProc]

theorem proctab_setProc_of_ne (hx : x ≠ p) :
    (k.setProc p f).proctab x = k.proctab x := by
  simp [setProc, hx]

@[simp] theorem state_note (e : Event) : (k.note e).state x = k.state x := rfl

theorem state_setProc_self : (k.setProc p f).state p = (f (k.proctab p)).prstate := by
  rw [state, proctab_setProc_self]

theorem state_setProc_of_ne (hx : x ≠ p) : (k.setProc p f).state x = k.state x := by
  rw [state, proctab_setProc_of_ne k p f x hx]
  rfl

theorem state_setProc (hf : ∀ e, (f e).prstate = e.prstate) :
    (k.setProc p f).state x = k.state x := by
  by_cases hx : x = p
  · subst hx
    rw [state_setProc_self, hf]
    rfl
  · exact state_setProc_of_ne k p f x hx

@[simp] theorem state_setState_self (s : PrState) :
    (k.setState p s).state p = s :=
  state_setProc_self k p _

theorem state_setState_of_ne (s : PrState) (hx : x ≠ p) :
    (k.setState p s).state x = k.state x :=
  state_setProc_of_ne k p _ x hx

@[simp] theorem state_deposit (msg : Word) :
    (k.deposit p msg).state x = k.state x := by
  unfold deposit
  rw [state_note]
  exact state_setProc k p _ x fun _ => rfl

@[simp] theorem state_fetch : (k.fetch p).state x = k.state x := by
  unfold fetch
  rw [state_note]
  exact state_setProc k p _ x fun _ => rfl

@[simp] theorem state_pushFrame (frame : Frame) :
    (k.pushFrame p frame).state x = k.state x :=
  state_setProc k p _ x fun _ => rfl

@[simp] theorem state_popFrame : (k.popFrame p).state x = k.state x :=
  state_setProc k p _ x fun _ => rfl

theorem semtab_setSem_self (sem : ℤ) (g : Sentry → Sentry) :
    (k.setSem sem g).semtab sem = g (k.semtab sem) := by
  simp [setSem]

theorem semtab_setSem_of_ne (sem : ℤ) (g : Sentry → Sentry) (hx : x ≠ sem) :
    (k.setSem sem g).semtab x = k.semtab x := by
  simp [setSem, hx]

theorem setProc_setProc (g : Procent → Procent) :
    (k.setProc p f).setProc p g = k.setProc p fun e => g (f e) := by
  simp [setProc, Function.update_idem]

theorem proctab_setProc_setProc (g : Procent → Procent) :
    ((k.setProc p f).setProc p g).proctab =
      Function.update k.proctab p (g (f (k.proctab p))) := by
  rw [setProc_setProc]
  rfl

theorem setSem_setSem (sem : ℤ) (g g' : Sentry → Sentry) :
    (k.setSem sem g).setSem sem g' = k.setSem sem fun s => g' (g s) := by
  simp [setSem, Function.update_idem]

theorem setScount_self (sem : ℤ) :
    k.setScount sem (k.semtab sem).scount = k := by
  simp [setScount, setSem]

theorem squeue_setSem
    (sem : ℤ) (g : Sentry → Sentry) (hg : ∀ s, (g s).squeue = s.squeue) (x : ℤ) :
    ((k.setSem sem g).semtab x).squeue = (k.semtab x).squeue := by
  by_cases hx : x = sem
  · subst hx
    simp [setSem, hg]
  · simp [setSem, hx]

end Reads

section AbstractReads

variable (b : Kernel QueueLists) (p x : ℤ)

@[simp] theorem state_enlist_self : (b.enlist p).state p = .ready :=
  state_setState_self b p .ready

theorem state_enlist_of_ne (hx : x ≠ p) : (b.enlist p).state x = b.state x :=
  state_setState_of_ne b p x .ready hx

@[simp] theorem state_dispatch_self : (b.dispatch p).state p = .curr :=
  state_setState_self (b.unlink p) p .curr

theorem state_dispatch_of_ne (hx : x ≠ p) :
    (b.dispatch p).state x = b.state x :=
  state_setState_of_ne (b.unlink p) p x .curr hx

@[simp] theorem state_unlink : (b.unlink p).state x = b.state x := rfl

@[simp] theorem state_unsleepEarly :
    (b.unsleepEarly p).state x = b.state x := rfl

@[simp] theorem state_bumpCount (sem step : ℤ) :
    (b.bumpCount sem step).state x = b.state x := rfl

theorem scount_bumpCount (sem step : ℤ) :
    ((b.bumpCount sem step).semtab sem).scount =
      int32 ((b.semtab sem).scount + step) := by
  rw [bumpCount, setScount, semtab_setSem_self]

theorem squeue_bumpCount (sem step : ℤ) :
    ((b.bumpCount sem step).semtab x).squeue = (b.semtab x).squeue := by
  rw [bumpCount, setScount]
  refine squeue_setSem b sem _ ?_ x
  exact fun _ => rfl

theorem sstate_bumpCount (sem step : ℤ) :
    ((b.bumpCount sem step).semtab x).sstate = (b.semtab x).sstate := by
  by_cases hx : x = sem
  · subst hx
    rw [bumpCount, setScount, semtab_setSem_self]
  · rw [bumpCount, setScount, semtab_setSem_of_ne _ _ _ _ hx]

@[simp] theorem lists_unlink (q : ℤ) :
    (b.unlink p).lists q = (b.lists q).erase p := rfl

theorem lists_enlist_of_ne {q : ℤ} (hq : q ≠ READYQ) :
    (b.enlist p).lists q = b.lists q :=
  Function.update_of_ne hq _ _

end AbstractReads

end Kernel

section Placing

variable {a b c : Kernel QueueLists} {p : ℤ}

open Kernel

theorem Wired.setSem
    {Q : Type} {b : Kernel Q} (h : Wired b) (sem : ℤ) (g : Sentry → Sentry)
    (hg : ∀ s, (g s).squeue = s.squeue)
    (hcount : InRange (g (b.semtab sem)).scount) : Wired (b.setSem sem g) := by
  refine { h with squeue := ?_, counts := ?_ }
  · intro x
    rw [squeue_setSem b sem g hg]
    exact h.squeue x
  · intro x
    by_cases hx : x = sem
    · rw [hx, semtab_setSem_self]
      exact hcount
    · rw [semtab_setSem_of_ne _ _ _ _ hx]
      exact h.counts x

/-- Two kernels whose entries differ at `p` only. -/
theorem homes_of_ne
    (hother : ∀ x, x ≠ p → c.proctab x = b.proctab x) (o : Option ℤ) :
    Function.update c.homes p o = Function.update b.homes p o := by
  funext x
  by_cases hx : x = p
  · simp [hx]
  · simp [hx, Kernel.homes, hother x hx]

theorem Queued.loose (h : Queued b) (hhome : (b.proctab p).home = none) :
    Loose p b where
  placed := h.placed.update_none hhome
  bounded := fun _ => h.bounded
  unique := fun _ => h.unique
  current := h.current
  null := fun _ => h.null
  waits := fun _ => h.waits
  victims := h.victims
  wired := h.wired

theorem Queued.unlink (h : Queued b) (p : ℤ) : Loose p (b.unlink p) where
  placed := h.placed.remove p
  bounded := fun _ => h.bounded
  unique := fun _ => h.unique
  current := h.current
  null := fun _ => h.null
  waits := fun _ => h.waits
  victims := h.victims
  wired := { h.wired with }

/-- Change the entry of the loose process, and no queue. -/
theorem Loose.edit
    (h : Loose p b) (hother : ∀ x, x ≠ p → c.proctab x = b.proctab x)
    (hlists : c.queues.lists = b.queues.lists) (hcurr : c.currpid = b.currpid)
    (hwired : Wired c)
    (hctx : ∀ {v s i}, .kill v s i ∈ (c.proctab p).prctx → Victim v) :
    Loose p c where
  placed := by
    rw [homes_of_ne hother, hlists]
    exact h.placed
  bounded := by
    intro x hx hstate
    rw [state, hother x hx] at hstate
    exact h.bounded hx hstate
  unique := by
    intro x hx hstate
    rw [state, hother x hx] at hstate
    rw [hcurr]
    exact h.unique hx hstate
  current := by
    rw [hcurr]
    exact h.current
  null := by
    intro hnull
    rw [state, hother _ (Ne.symm hnull)]
    exact h.null hnull
  waits := by
    intro x hx hstate
    rw [state, hother x hx] at hstate
    rw [hother x hx]
    exact h.waits hx hstate
  victims := by
    intro x v s i hmem
    by_cases hx : x = p
    · subst hx
      exact hctx hmem
    · rw [hother x hx] at hmem
      exact h.victims hmem
  wired := hwired

theorem Loose.placed_some
    {q : ℤ} {l : List ℤ} (h : Loose p b)
    (hhome : (b.proctab p).home = some q)
    (hperm : l.Perm (p :: b.lists q)) :
    Placed b.homes (Function.update b.queues.lists q l) := by
  have hplaced := h.placed.place (Function.update_self p none b.homes) hperm
  rw [Function.update_idem, ← hhome] at hplaced
  rwa [show Function.update b.homes p (b.proctab p).home = b.homes from
    Function.update_eq_self p b.homes] at hplaced

theorem Loose.placed_none
    (h : Loose p b) (hhome : (b.proctab p).home = none) :
    Placed b.homes b.queues.lists := by
  have hplaced := h.placed
  rw [← hhome] at hplaced
  rwa [show Function.update b.homes p (b.proctab p).home = b.homes from
    Function.update_eq_self p b.homes] at hplaced

/-- The loose process goes where its state says. -/
theorem Loose.place
    {L : QueueLists} (h : Loose p b) (hplaced : Placed b.homes L.lists)
    (hid : ProcId p) (hcurr : b.state p = .curr → p = b.currpid)
    (hnull : p = NULLPROC → b.state p = .curr ∨ b.state p = .ready)
    (hwait : b.state p = .wait → SemId (b.proctab p).prsem) :
    Queued { b with queues := L } where
  placed := hplaced
  bounded := by
    intro x hstate
    by_cases hx : x = p
    · rw [hx]
      exact hid
    · exact h.bounded hx hstate
  unique := by
    intro x hstate
    by_cases hx : x = p
    · subst hx
      exact hcurr hstate
    · exact h.unique hx hstate
  current := h.current
  null := by
    by_cases hp : p = NULLPROC
    · have hstate := hnull hp
      rw [hp] at hstate
      exact hstate
    · exact h.null hp
  waits := by
    intro x hstate
    by_cases hx : x = p
    · subst hx
      exact hwait hstate
    · exact h.waits hx hstate
  victims := h.victims
  wired := { h.wired with }

/-- The loose process is on no queue, as its state says. -/
theorem Loose.settle
    (h : Loose p b) (hid : ProcId p) (hhome : (b.proctab p).home = none)
    (hcurr : b.state p = .curr → p = b.currpid)
    (hnull : p = NULLPROC → b.state p = .curr) : Queued b := by
  refine h.place (h.placed_none hhome) hid hcurr ?_ ?_
  · intro hp
    exact Or.inl (hnull hp)
  · intro hwait
    rw [state] at hwait
    rw [Procent.home, hwait] at hhome
    cases hhome

end Placing

/-! ## Lists that gain a process -/

theorem insertDescending_perm (keys : ℤ → ℤ) (key p : ℤ) (l : List ℤ) :
    (QueueLists.insertDescending keys key p l).Perm (p :: l) := by
  rw [insertDescending_eq]
  refine List.perm_middle.trans ?_
  rw [List.takeWhile_append_dropWhile]

theorem insertd_perm (keys : ℤ → ℤ) (key p : ℤ) (l : List ℤ) :
    ((QueueLists.deltaSplit keys key l).1 ++
      p :: (QueueLists.deltaSplit keys key l).2.2).Perm (p :: l) := by
  refine List.perm_middle.trans ?_
  rw [← deltaSplit_append]

section Arrivals

variable {b : Kernel QueueLists} {p : ℤ}

open Kernel

/-- Change the state of the loose process. -/
theorem Loose.setProc
    (h : Loose p b) (f : Procent → Procent)
    (hctx : ∀ {v s i}, .kill v s i ∈ (f (b.proctab p)).prctx → Victim v) :
    Loose p (b.setProc p f) := by
  apply h.edit
  · exact fun x hx => proctab_setProc_of_ne b p f x hx
  · rfl
  · rfl
  · exact { h.wired with }
  · rw [proctab_setProc_self]
    exact hctx

theorem Loose.setState (h : Loose p b) (s : PrState) :
    Loose p (b.setState p s) :=
  h.setProc _ h.victims

theorem Loose.note (h : Loose p b) (e : Event) : Loose p (b.note e) := by
  apply h.edit
  · exact fun _ _ => rfl
  · rfl
  · rfl
  · exact { h.wired with }
  · exact h.victims

theorem Loose.setSem
    (h : Loose p b) (sem : ℤ) (g : Sentry → Sentry)
    (hg : ∀ s, (g s).squeue = s.squeue)
    (hcount : InRange (g (b.semtab sem)).scount) : Loose p (b.setSem sem g) := by
  apply h.edit
  · exact fun _ _ => rfl
  · rfl
  · rfl
  · exact h.wired.setSem sem g hg hcount
  · exact h.victims

theorem Loose.enlist (h : Loose p b) (hid : ProcId p) : Queued (b.enlist p) := by
  have hloose := h.setState .ready
  have hstate : (b.setState p .ready).state p = .ready := by
    rw [state, Kernel.setState, proctab_setProc_self]
  refine hloose.place (L := (b.setState p .ready).queues.insert p READYQ
    ((b.setState p .ready).prio p)) ?_ hid ?_ ?_ ?_
  · refine hloose.placed_some ?_ (insertDescending_perm _ _ _ _)
    rw [state] at hstate
    rw [Procent.home, hstate]
  · rw [hstate]
    intro h
    cases h
  · intro _
    exact Or.inr hstate
  · rw [hstate]
    intro h
    cases h

theorem Loose.delay
    {s : PrState} (ticks : ℤ) (h : Loose p b) (hid : ProcId p)
    (hnull : p ≠ NULLPROC) (hs : s = .sleep ∨ s = .rectim) :
    Queued (b.delay p ticks s) := by
  have hloose := (h.setState s).note (.slept p ticks)
  have hstate : ((b.setState p s).note (.slept p ticks)).state p = s := by
    rw [state, Kernel.note, Kernel.setState, proctab_setProc_self]
  refine hloose.place (L := b.queues.insertd p SLEEPQ ticks) ?_ hid ?_ ?_ ?_
  · refine hloose.placed_some ?_ (insertd_perm _ _ _ _)
    rw [state] at hstate
    rw [Procent.home, hstate]
    rcases hs with rfl | rfl <;> rfl
  · rw [hstate]
    rcases hs with rfl | rfl <;> (intro h; cases h)
  · intro hp
    exact absurd hp hnull
  · rw [hstate]
    rcases hs with rfl | rfl <;> (intro h; cases h)

theorem Loose.waitOn
    {sem : ℤ} (h : Loose p b) (hid : ProcId p) (hnull : p ≠ NULLPROC)
    (hsem : SemId sem) : Queued (b.waitOn sem p) := by
  have hloose := (h.setProc (fun e => { e with prstate := .wait, prsem := sem })
    h.victims).note (.waited sem p)
  have hentry : ((b.setProc p fun e =>
      { e with prstate := .wait, prsem := sem }).note (.waited sem p)).proctab p =
        { b.proctab p with prstate := .wait, prsem := sem } := by
    rw [Kernel.note, proctab_setProc_self]
  refine hloose.place (L := b.queues.enqueue p (semq sem)) ?_ hid ?_ ?_ ?_
  · refine hloose.placed_some ?_ (List.perm_append_singleton p _)
    rw [hentry, Procent.home]
  · rw [state, hentry]
    intro h
    cases h
  · intro hp
    exact absurd hp hnull
  · rw [hentry]
    exact fun _ => hsem

end Arrivals

/-! ## What is on which queue -/

section Membership

variable {b : Kernel QueueLists} {p sem : ℤ}

open Kernel

theorem semq_ne_readyq (hsem : SemId sem) : semq sem ≠ READYQ := by
  unfold SemId NSEM at hsem
  unfold semq READYQ NPROC NSEM
  omega

theorem semq_ne_sleepq (hsem : SemId sem) : semq sem ≠ SLEEPQ := by
  unfold SemId NSEM at hsem
  unfold semq SLEEPQ NPROC NSEM
  omega

theorem semq_inj {sem' : ℤ} : semq sem = semq sem' ↔ sem = sem' := by
  unfold semq
  omega

theorem Queued.mem_lists (h : Queued b) {q : ℤ} :
    p ∈ b.lists q ↔ (b.proctab p).home = some q :=
  h.placed.mem

theorem Queued.mem_readyq (h : Queued b) :
    p ∈ b.lists READYQ ↔ b.state p = .ready := by
  have hwait : b.state p = .wait → semq (b.proctab p).prsem ≠ READYQ :=
    fun hs => semq_ne_readyq (h.waits hs)
  rw [h.mem_lists]
  unfold Procent.home
  unfold state at hwait ⊢
  cases hs : (b.proctab p).prstate <;> simp_all [READYQ, SLEEPQ]

theorem Queued.mem_sleepq (h : Queued b) :
    p ∈ b.lists SLEEPQ ↔ b.state p = .sleep ∨ b.state p = .rectim := by
  have hwait : b.state p = .wait → semq (b.proctab p).prsem ≠ SLEEPQ :=
    fun hs => semq_ne_sleepq (h.waits hs)
  rw [h.mem_lists]
  unfold Procent.home
  unfold state at hwait ⊢
  cases hs : (b.proctab p).prstate <;> simp_all [READYQ, SLEEPQ]

theorem Queued.mem_waiters (h : Queued b) (hsem : SemId sem) :
    p ∈ b.waiters sem ↔ b.state p = .wait ∧ (b.proctab p).prsem = sem := by
  have hready := semq_ne_readyq hsem
  have hsleep := semq_ne_sleepq hsem
  rw [waiters, h.mem_lists]
  unfold Procent.home state
  cases hs : (b.proctab p).prstate <;>
    simp [hready.symm, hsleep.symm, semq_inj]

/-- A process in any other state is on no queue. -/
theorem home_none
    (hsleep : b.state p ≠ .sleep) (hrectim : b.state p ≠ .rectim)
    (hwait : b.state p ≠ .wait) (hready : b.state p ≠ .ready) :
    (b.proctab p).home = none := by
  unfold state at hsleep hrectim hwait hready
  unfold Procent.home
  cases hstate : (b.proctab p).prstate <;> simp_all

theorem Queued.curr_loose (h : Queued b) (hcurr : b.state p = .curr) :
    Loose p b := by
  apply h.loose
  rw [state] at hcurr
  rw [Procent.home, hcurr]

theorem Queued.null_ready
    (h : Queued b) (hidle : b.state b.currpid ≠ .curr) :
    NULLPROC ∈ b.lists READYQ := by
  rw [h.mem_readyq]
  rcases h.null with hcurr | hready
  · have heq := h.unique hcurr
    rw [← heq] at hidle
    exact absurd hcurr hidle
  · exact hready

end Membership

/-! ## Moves keep every process in its place -/

section Preservation

variable {a b c : Kernel QueueLists} {p : ℤ} {action : Action}

open Kernel

/-- A change that no queue and no state depends on. -/
theorem Queued.congr
    (h : Queued b) (hstate : ∀ x, c.state x = b.state x)
    (hsem : ∀ x, (c.proctab x).prsem = (b.proctab x).prsem)
    (hctx : ∀ {x v s i}, .kill v s i ∈ (c.proctab x).prctx → Victim v)
    (hlists : c.queues.lists = b.queues.lists) (hcurr : c.currpid = b.currpid)
    (hwired : Wired c) : Queued c where
  placed := by
    have hhomes : c.homes = b.homes := by
      funext x
      have hx := hstate x
      unfold state at hx
      rw [homes, homes, Procent.home, Procent.home, hx, hsem x]
    rw [hhomes, hlists]
    exact h.placed
  bounded := by
    intro x hx
    rw [hstate] at hx
    exact h.bounded hx
  unique := by
    intro x hx
    rw [hstate] at hx
    rw [hcurr]
    exact h.unique hx
  current := by
    rw [hcurr]
    exact h.current
  null := by
    rw [hstate]
    exact h.null
  waits := by
    intro x hx
    rw [hstate] at hx
    rw [hsem]
    exact h.waits hx
  victims := hctx
  wired := hwired

/-- A change of an entry that keeps its state. -/
theorem Queued.setProc
    (f : Procent → Procent) (h : Queued b)
    (hstate : ∀ e, (f e).prstate = e.prstate)
    (hsem : ∀ e, (f e).prsem = e.prsem)
    (hctx : ∀ {v s i}, .kill v s i ∈ (f (b.proctab p)).prctx → Victim v) :
    Queued (b.setProc p f) := by
  refine h.congr ?_ ?_ ?_ rfl rfl { h.wired with }
  · intro x
    by_cases hx : x = p
    · rw [hx, state, proctab_setProc_self, hstate]
      rfl
    · rw [state, proctab_setProc_of_ne _ _ _ _ hx]
      rfl
  · intro x
    by_cases hx : x = p
    · rw [hx, proctab_setProc_self, hsem]
    · rw [proctab_setProc_of_ne _ _ _ _ hx]
  · intro x v s i hmem
    by_cases hx : x = p
    · subst hx
      rw [proctab_setProc_self] at hmem
      exact hctx hmem
    · rw [proctab_setProc_of_ne _ _ _ _ hx] at hmem
      exact h.victims hmem

theorem Queued.note (h : Queued b) (e : Event) : Queued (b.note e) :=
  h.congr (fun _ => rfl) (fun _ => rfl) h.victims rfl rfl { h.wired with }

theorem Queued.setSem
    (h : Queued b) (sem : ℤ) (g : Sentry → Sentry)
    (hg : ∀ s, (g s).squeue = s.squeue)
    (hcount : InRange (g (b.semtab sem)).scount) : Queued (b.setSem sem g) :=
  h.congr (fun _ => rfl) (fun _ => rfl) h.victims rfl rfl
    (h.wired.setSem sem g hg hcount)

theorem Queued.bumpCount (h : Queued b) (sem step : ℤ) :
    Queued (b.bumpCount sem step) := by
  unfold Kernel.bumpCount setScount
  exact h.setSem sem _ (fun _ => rfl) (int32_inRange _)

theorem Queued.deposit (h : Queued b) (p : ℤ) (msg : Word) :
    Queued (b.deposit p msg) := by
  apply Queued.note
  exact Queued.setProc _ h (fun _ => rfl) (fun _ => rfl) h.victims

theorem Queued.fetch (h : Queued b) (p : ℤ) : Queued (b.fetch p) := by
  apply Queued.note
  exact Queued.setProc _ h (fun _ => rfl) (fun _ => rfl) h.victims

theorem Queued.popFrame (h : Queued b) (p : ℤ) : Queued (b.popFrame p) :=
  Queued.setProc _ h (fun _ => rfl) (fun _ => rfl)
    fun hmem => h.victims (List.mem_of_mem_tail hmem)

theorem Queued.pushFrame
    {frame : Frame} (h : Queued b) (p : ℤ)
    (hvictim : ∀ {v s i}, frame = .kill v s i → Victim v) :
    Queued (b.pushFrame p frame) := by
  refine Queued.setProc _ h (fun _ => rfl) (fun _ => rfl) ?_
  intro v s i hmem
  rcases List.mem_cons.mp hmem with heq | hmem
  · exact hvictim heq.symm
  · exact h.victims hmem

theorem Loose.congrKeys
    {L : QueueLists} (h : Loose p b) (hlists : L.lists = b.queues.lists) :
    Loose p { b with queues := L } := by
  apply h.edit
  · exact fun _ _ => rfl
  · exact hlists
  · rfl
  · exact { h.wired with }
  · exact h.victims

theorem lists_creditNext (p q : ℤ) (L : QueueLists) :
    (L.creditNext p q).lists = L.lists := by
  unfold QueueLists.creditNext
  split <;> rfl

theorem lists_decFirstkey (q : ℤ) (L : QueueLists) :
    (L.decFirstkey q).lists = L.lists := by
  unfold QueueLists.decFirstkey
  split <;> rfl

theorem Queued.unsleepEarly (h : Queued b) (p : ℤ) :
    Loose p (b.unsleepEarly p) := by
  have hloose : Loose p { b.unlink p with
      queues := (b.queues.creditNext p SLEEPQ).getitem p } := by
    apply (h.unlink p).congrKeys
    show (fun q => ((b.queues.creditNext p SLEEPQ).lists q).erase p) = _
    rw [lists_creditNext]
    rfl
  exact hloose.note _

/-- An entry becomes free when the process is on no queue. -/
theorem Loose.setFree (h : Loose p b) (hid : ProcId p) (hnull : p ≠ NULLPROC) :
    Queued (b.setFree p) := by
  have hentry : (b.setFree p).proctab p =
      { b.proctab p with prstate := .free, prctx := [] } := by
    rw [Kernel.setFree, proctab_setProc_self]
  have hloose : Loose p (b.setFree p) := by
    unfold Kernel.setFree
    exact h.setProc _ fun hmem => by simp at hmem
  refine hloose.settle hid ?_ ?_ ?_
  · rw [hentry]
    rfl
  · rw [state, hentry]
    intro hcurr
    cases hcurr
  · exact fun hp => absurd hp hnull

theorem Queued.bury (h : Queued b) {v : ℤ} (hv : Victim v) :
    Queued (b.bury v) := by
  obtain ⟨hid, hnull⟩ := hv
  unfold Kernel.bury
  split
  · exact (h.unsleepEarly v).setFree hid hnull
  · exact (h.unsleepEarly v).setFree hid hnull
  · exact (((h.bumpCount _ 1).unlink v).note _).setFree hid hnull
  · exact (h.unlink v).setFree hid hnull
  · exact (h.loose (home_none ‹_› ‹_› ‹_› ‹_›)).setFree hid hnull

/-- The head of the ready list runs; nobody else does. -/
theorem Queued.dispatch
    {l : List ℤ} (h : Queued b) (hidle : b.state b.currpid ≠ .curr)
    (hfirst : b.lists READYQ = p :: l) : Queued (b.dispatch p) := by
  have hmem : p ∈ b.lists READYQ := by simp [hfirst]
  have hready := h.mem_readyq.mp hmem
  have hid : ProcId p := h.bounded (by simp [hready])
  have hloose := (h.unlink p).setState .curr
  have hentry : ((b.unlink p).setState p .curr).proctab p =
      { b.proctab p with prstate := .curr } := by
    rw [Kernel.setState, proctab_setProc_self]
    rfl
  have hhome : (((b.unlink p).setState p .curr).proctab p).home = none := by
    rw [hentry]
    rfl
  constructor
  · exact hloose.placed_none hhome
  · intro x hx
    by_cases heq : x = p
    · rw [heq]
      exact hid
    · exact hloose.bounded heq hx
  · intro x hx
    by_cases heq : x = p
    · exact heq
    · have hcurr := hloose.unique heq hx
      have hx' : b.state x = .curr := by
        rw [← hx]
        exact (state_dispatch_of_ne b p x heq).symm
      rw [hcurr] at hx'
      exact absurd hx' hidle
  · exact hid
  · by_cases heq : NULLPROC = p
    · refine Or.inl ?_
      rw [heq]
      exact congrArg Procent.prstate hentry
    · exact hloose.null (Ne.symm heq)
  · intro x hx
    by_cases heq : x = p
    · subst heq
      have hcurr : ((b.unlink x).setState x .curr).state x = .curr := by
        rw [state, hentry]
      rw [show (b.dispatch x).state x = .curr from hcurr] at hx
      cases hx
    · exact hloose.waits heq hx
  · exact hloose.victims
  · exact { hloose.wired with }

theorem SameTables.queued (h : Queued b) (hsame : SameTables b c) :
    Queued c := by
  rw [hsame.eq]
  refine h.congr (fun _ => rfl) (fun _ => rfl) h.victims rfl rfl ?_
  exact { h.wired with
    nextpid := hsame.nextpid h.wired.nextpid
    nextsem := hsame.nextsem h.wired.nextsem }

theorem Queued.setFrozen
    {s : PrState} (h : Loose p b) (hid : ProcId p) (hnull : p ≠ NULLPROC)
    (hs : s = .susp ∨ s = .recv) : Queued (b.setState p s) := by
  have hentry : (b.setState p s).proctab p =
      { b.proctab p with prstate := s } := by
    rw [Kernel.setState, proctab_setProc_self]
  refine (h.setState s).settle hid ?_ ?_ ?_
  · rw [hentry]
    rcases hs with rfl | rfl <;> rfl
  · rw [state, hentry]
    rcases hs with rfl | rfl <;> (intro hcurr; cases hcurr)
  · exact fun hp => absurd hp hnull

/-- Every move keeps every process where its state says. -/
theorem Move.queued (hmove : Move action a b c) (h : Queued b) : Queued c := by
  cases hmove with
  | adjust hsame => exact SameTables.queued h hsame
  | demote hcurr => exact (h.curr_loose hcurr).enlist h.current
  | dispatch hidle hfirst => exact h.dispatch hidle hfirst
  | suspendCurr hcurr hnull =>
      exact Queued.setFrozen (h.curr_loose hcurr) h.current hnull (Or.inl rfl)
  | suspendReady hready hnull =>
      have hid := h.bounded (by rw [hready]; decide)
      exact Queued.setFrozen (h.unlink _) hid hnull (Or.inl rfl)
  | resume hsusp =>
      refine (h.loose ?_).enlist (h.bounded (by rw [hsusp]; decide))
      exact home_none (by simp [hsusp]) (by simp [hsusp]) (by simp [hsusp])
        (by simp [hsusp])
  | chprio =>
      exact Queued.setProc _ h (fun _ => rfl) (fun _ => rfl) h.victims
  | deliver => exact h.deposit _ _
  | @deliverRecv _ p msg hempty hrecv =>
      have hstate : (b.deposit p msg).state p = .recv := by simp [hrecv]
      refine ((h.deposit p msg).loose ?_).enlist
        (h.bounded (by rw [hrecv]; decide))
      exact home_none (by simp [hstate]) (by simp [hstate]) (by simp [hstate])
        (by simp [hstate])
  | @deliverRectim _ p msg hempty hrectim =>
      exact ((h.deposit p msg).unsleepEarly p).enlist
        (h.bounded (by rw [hrectim]; decide))
  | awaitMessage hcurr hempty hnull hctx =>
      refine (Queued.setFrozen (h.curr_loose hcurr) h.current hnull
        (Or.inr rfl)).pushFrame _ ?_
      intro v s i hframe
      cases hframe
  | fetch => exact h.fetch _
  | fetchRet => exact (h.popFrame _).fetch _
  | fetchTimed => exact (h.popFrame _).fetch _
  | timeOut => exact h.note _
  | sleep hcurr hnull =>
      exact (h.curr_loose hcurr).delay _ h.current hnull (Or.inl rfl)
  | awaitTimed hcurr hempty hnull =>
      refine ((h.curr_loose hcurr).delay _ h.current hnull
        (Or.inr rfl)).pushFrame _ ?_
      intro v s i hframe
      cases hframe
  | tick =>
      apply Queued.note
      exact h.congr (fun _ => rfl) (fun _ => rfl) h.victims
        (lists_decFirstkey _ _) rfl { h.wired with }
  | @expire _ p l _ hfirst hdue =>
      have hmem : p ∈ b.lists SLEEPQ := by simp [hfirst]
      refine ((h.unlink p).note _).enlist (h.bounded ?_)
      rcases h.mem_sleepq.mp hmem with hs | hs <;> simp [hs]
  | pass => exact (h.bumpCount _ _).note _
  | @wait _ sem hid hused hcurr hnull hcount =>
      have hloose : Loose b.currpid (b.bumpCount sem (-1)) := by
        unfold bumpCount setScount
        exact (h.curr_loose hcurr).setSem sem _ (fun _ => rfl)
          (int32_inRange _)
      exact hloose.waitOn h.current hnull hid
  | signal => exact (h.bumpCount _ _).note _
  | @release _ sem p l hid hused hcount hfirst =>
      have hmem : p ∈ b.waiters sem := by simp [hfirst]
      have hstate := ((h.mem_waiters hid).mp hmem).1
      refine ((((h.bumpCount sem 1).note _).note _).unlink p).enlist
        (h.bounded ?_)
      simp [hstate]
  | @flush _ sem p l hid hfirst =>
      have hmem : p ∈ b.waiters sem := by simp [hfirst]
      have hstate := ((h.mem_waiters hid).mp hmem).1
      refine (((h.bumpCount sem 1).note _).unlink p).enlist (h.bounded ?_)
      simp [hstate]
  | @stray _ sem =>
      have hb := h.bumpCount sem 1
      exact hb.congr (fun _ => rfl) (fun _ => rfl) hb.victims rfl rfl
        { hb.wired with }
  | semcreate haction hid hfree hpos hrange =>
      apply Queued.note
      exact h.setSem _ _ (fun _ => rfl) ⟨le_trans (by norm_num) hpos, hrange⟩
  | semreset hid hused hnone hpos hrange =>
      apply Queued.note
      exact h.setSem _ _ (fun _ => rfl) ⟨le_trans (by norm_num) hpos, hrange⟩
  | @semfree sem => exact h.setSem _ _ (fun _ => rfl) (h.wired.counts sem)
  | semdone => exact h.bumpCount _ _
  | @create _ p entry hid hfree hstate hempty hctx hserial =>
      apply Queued.note
      have hhome : (b.proctab p).home = none :=
        home_none (by simp [hfree]) (by simp [hfree]) (by simp [hfree])
          (by simp [hfree])
      have hbase : Queued { b with
          prcount := b.prcount + 1, births := b.births + 1 } :=
        h.congr (fun _ => rfl) (fun _ => rfl) h.victims rfl rfl
          { h.wired with }
      have hloose := (hbase.loose hhome).setProc (fun _ => entry) fun hmem => by
        rw [hctx] at hmem
        cases hmem
      refine hloose.settle hid ?_ ?_ ?_
      · rw [proctab_setProc_self, Procent.home, hstate]
      · rw [state_setProc_self, hstate]
        intro hcurr
        cases hcurr
      · rintro rfl
        rcases h.null with hnull | hnull <;> simp [hnull] at hfree
  | setdesc => exact Queued.setProc _ h (fun _ => rfl) (fun _ => rfl) h.victims
  | pushFrame hkill =>
      exact h.pushFrame _ fun heq => absurd heq (hkill _ _ _)
  | popFrame => exact h.popFrame _
  | @kill v _ hlive hnull _ =>
      have hbase : Queued { a with prcount := a.prcount - 1 } :=
        h.congr (fun _ => rfl) (fun _ => rfl) h.victims rfl rfl
          { h.wired with }
      refine hbase.pushFrame _ ?_
      intro w s i hframe
      cases hframe
      exact ⟨h.bounded hlive, hnull⟩
  | @killClose _ v s i rest hctx hturn =>
      refine (h.popFrame _).pushFrame _ ?_
      intro w t j hframe
      cases hframe
      have hmem : .kill v s i ∈ (b.proctab b.currpid).prctx := by
        rw [show (b.proctab b.currpid).prctx = _ from hctx]
        simp
      exact h.victims hmem
  | @killFinish v s i rest _ hctx hlast hcurr =>
      have hmem : Frame.kill v s i ∈ (a.proctab a.currpid).prctx := by
        rw [show (a.proctab a.currpid).prctx = _ from hctx]
        simp
      exact ((h.popFrame _).note _).bury (h.victims hmem)

theorem Moves.queued (hmoves : Moves action a b c) (h : Queued b) :
    Queued c := by
  induction hmoves with
  | refl => exact h
  | tail _ hmove ih => exact hmove.queued ih

end Preservation

/-! ## What the operations leave alone -/

section Untouched

variable {Q : Type} (k : Kernel Q) (p : ℤ) (x : ℤ)

open Kernel

theorem prio_setProc
    (f : Procent → Procent) (hf : ∀ e, (f e).prprio = e.prprio) :
    (k.setProc p f).prio x = k.prio x := by
  unfold prio
  by_cases hx : x = p
  · subst hx
    rw [proctab_setProc_self, hf]
  · rw [proctab_setProc_of_ne _ _ _ _ hx]

theorem prio_setProc_self (f : Procent → Procent) :
    (k.setProc p f).prio p = (f (k.proctab p)).prprio.toInt := by
  rw [prio, proctab_setProc_self]

theorem prio_setProc_of_ne (f : Procent → Procent) (hx : x ≠ p) :
    (k.setProc p f).prio x = k.prio x := by
  rw [prio, proctab_setProc_of_ne _ _ _ _ hx]
  rfl

@[simp] theorem prio_setState (s : PrState) :
    (k.setState p s).prio x = k.prio x :=
  prio_setProc k p x _ fun _ => rfl

@[simp] theorem prio_pushFrame (frame : Frame) :
    (k.pushFrame p frame).prio x = k.prio x :=
  prio_setProc k p x _ fun _ => rfl

@[simp] theorem prio_popFrame : (k.popFrame p).prio x = k.prio x :=
  prio_setProc k p x _ fun _ => rfl

@[simp] theorem prio_setFree : (k.setFree p).prio x = k.prio x :=
  prio_setProc k p x _ fun _ => rfl

@[simp] theorem prio_note (e : Event) : (k.note e).prio x = k.prio x := rfl

@[simp] theorem prio_deposit (msg : Word) :
    (k.deposit p msg).prio x = k.prio x := by
  unfold deposit
  rw [prio_note]
  exact prio_setProc k p x _ fun _ => rfl

@[simp] theorem prio_fetch : (k.fetch p).prio x = k.prio x := by
  unfold fetch
  rw [prio_note]
  exact prio_setProc k p x _ fun _ => rfl

variable (b : Kernel QueueLists)

@[simp] theorem prio_unlink : (b.unlink p).prio x = b.prio x := rfl

@[simp] theorem prio_unsleepEarly :
    (b.unsleepEarly p).prio x = b.prio x := rfl

@[simp] theorem prio_bumpCount (sem step : ℤ) :
    (b.bumpCount sem step).prio x = b.prio x := rfl

@[simp] theorem prio_enlist : (b.enlist p).prio x = b.prio x :=
  prio_setState b p x .ready

@[simp] theorem prio_dispatch : (b.dispatch p).prio x = b.prio x :=
  prio_setState (b.unlink p) p x .curr

@[simp] theorem prio_delay (ticks : ℤ) (s : PrState) :
    (b.delay p ticks s).prio x = b.prio x :=
  prio_setState b p x s

@[simp] theorem prio_waitOn (sem : ℤ) :
    (b.waitOn sem p).prio x = b.prio x :=
  prio_setProc b p x (fun e => { e with prstate := .wait, prsem := sem })
    fun _ => rfl

theorem bury_prio : (b.bury p).prio x = b.prio x := by
  unfold bury
  split <;> simp

theorem bury_proctab : (b.bury p).proctab =
    Function.update b.proctab p
      { b.proctab p with prstate := .free, prctx := [] } := by
  unfold bury
  split <;> rfl

theorem bury_prcount : (b.bury p).prcount = b.prcount := by
  unfold bury
  split <;> rfl

theorem bury_births : (b.bury p).births = b.births := by
  unfold bury
  split <;> rfl

theorem bury_currpid : (b.bury p).currpid = b.currpid := by
  unfold bury
  split <;> rfl

theorem bury_ndefers : (b.bury p).ndefers = b.ndefers := by
  unfold bury
  split <;> rfl

end Untouched

/-! ## Keys of other processes -/

section Keys

variable {L : QueueLists} {p q x : ℤ}

theorem deltaSplit_mem
    {keys : ℤ → ℤ} {key : ℤ} {l : List ℤ}
    (hx : x ∈ (QueueLists.deltaSplit keys key l).2.2) : x ∈ l := by
  rw [deltaSplit_append keys key l]
  exact List.mem_append_right _ hx

theorem lists_insertd_of_ne {r : ℤ} (key : ℤ) (hr : r ≠ q) :
    (L.insertd p q key).lists r = L.lists r := by
  unfold QueueLists.insertd
  exact Function.update_of_ne hr _ _

theorem keys_insertd
    (key : ℤ) (hp : x ≠ p) (hx : x ∉ L.lists q) :
    (L.insertd p q key).keys x = L.keys x := by
  have hout : x ∉ (QueueLists.deltaSplit L.keys key (L.lists q)).2.2 :=
    fun hmem => hx (deltaSplit_mem hmem)
  unfold QueueLists.insertd
  dsimp only
  generalize (QueueLists.deltaSplit L.keys key (L.lists q)).2.2 = l at *
  cases l with
  | nil => exact Function.update_of_ne hp _ _
  | cons y l =>
      have hy : x ≠ y := by
        rintro rfl
        exact hout (by simp)
      rw [QueueLists.chargeHead, Function.update_of_ne hy,
        Function.update_of_ne hp]

theorem keys_creditNext (hx : x ∉ L.lists q) :
    (L.creditNext p q).keys x = L.keys x := by
  unfold QueueLists.creditNext
  cases hfollow : QueueLists.follower p (L.lists q) with
  | none => rfl
  | some y =>
      have hy : x ≠ y := by
        rintro rfl
        exact hx (follower_mem hfollow)
      exact Function.update_of_ne hy _ _

theorem keys_decFirstkey (hx : x ∉ L.lists q) :
    (L.decFirstkey q).keys x = L.keys x := by
  unfold QueueLists.decFirstkey
  cases hlist : L.lists q with
  | nil => rfl
  | cons y l =>
      have hy : x ≠ y := by
        rintro rfl
        exact hx (by simp [hlist])
      exact Function.update_of_ne hy _ _

end Keys

end Xinu
