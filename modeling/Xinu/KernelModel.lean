import Xinu.BootFreeList
import Xinu.QueueTable

/-!
# The kernel's tables and its scheduler

The state of the kernel is one record of the variables that the process
primitives read and write.  A process that has been switched out, or
interrupted, still has code to run when it is chosen again; the part of that
code that changes the state is kept as a list of frames in its table entry.

The record leaves the representation of the queues open, so that the same
record serves the kernel over the queue table and the kernel over plain lists.
Three components exist only for reasoning: the serial number of a process, the
number of processes created so far, and the log of what has happened.
-/

namespace Xinu

open ByteMemory

/-! ## Tables -/

/-- `PR_FREE` to `PR_RECTIM`. -/
inductive PrState where
  | free
  | curr
  | ready
  | recv
  | sleep
  | susp
  | wait
  | rectim
  deriving DecidableEq, Repr

/-- What a process still has to run when it is chosen again. -/
inductive Frame where
  /-- The rest of `clkhandler`, after the sleep queue has been served. -/
  | clkPreempt
  /-- `receive`, from the fetch of the message on. -/
  | receiveRet
  /-- `recvtime`, from the test of `prhasmsg` on. -/
  | recvtimeRet
  /-- `kill(pid)`, called for process number `serial`, at descriptor `i`. -/
  | kill (pid : ℤ) (serial : ℕ) (i : ℕ)
  /-- The close function of a device, called by `kill`. -/
  | inClose
  deriving DecidableEq, Repr

structure Procent where
  prstate : PrState
  prprio : Int16
  prstkptr : Word
  prstkbase : Word
  prstklen : Word
  prsem : ℤ
  prparent : ℤ
  prmsg : Word
  prhasmsg : Bool
  prdesc : ℕ → ℤ
  prctx : List Frame
  serial : ℕ

inductive SState where
  | free
  | used
  deriving DecidableEq, Repr

structure Sentry where
  sstate : SState
  scount : ℤ
  squeue : ℤ

/-- What the log records, newest first. -/
inductive Event where
  | sent (pid : ℤ) (msg : Word)
  | received (pid : ℤ) (msg : Word)
  | timedOut (pid : ℤ)
  | created (pid : ℤ) (serial : ℕ)
  | stackFreed (pid : ℤ) (serial : ℕ)
  | started (sem : ℤ) (count : ℤ)
  | passed (sem : ℤ)
  | waited (sem pid : ℤ)
  | signalled (sem : ℤ)
  | released (sem pid : ℤ)
  | flushed (sem pid : ℤ)
  | withdrawn (sem pid : ℤ)
  | slept (pid delay : ℤ)
  | ticked
  | expired (pid : ℤ)
  | unslept (pid : ℤ)
  deriving DecidableEq, Repr

/-- The kernel over queues of type `Q`. -/
structure Kernel (Q : Type) where
  proctab : ℤ → Procent
  queues : Q
  semtab : ℤ → Sentry
  readylist : ℤ
  sleepq : ℤ
  currpid : ℤ
  prcount : ℤ
  ndefers : ℤ
  attempt : Bool
  preempt : Word
  clktime : Word
  count1000 : Word
  nextpid : ℤ
  nextsem : ℤ
  heap : Heap
  halted : Bool
  hung : Bool
  births : ℕ
  log : List Event

/-! ## Constants -/

def NULLPROC : ℤ := 0

def QUANTUM : Word := 2

def MINSTK : Word := 400

def STACKMAGIC : Word := 0x0A0AAAA9

/-- The address of `userret` in the link map. -/
def INITRET : Word := 0x10479B

def CONSOLE : ℤ := 0

def MAXSECONDS : ℤ := 2147483

def DEFER_START : ℤ := 1

def DEFER_STOP : ℤ := 2

/-- A 32-bit signed counter. -/
def int32 (x : ℤ) : ℤ := x.bmod (2 ^ 32)

theorem int32_of_range {x : ℤ} (hlow : -2 ^ 31 ≤ x) (hhigh : x < 2 ^ 31) :
    int32 x = x := by
  unfold int32
  rw [Int.bmod_def]
  split_ifs <;> omega

def InRange (x : ℤ) : Prop := -2 ^ 31 ≤ x ∧ x < 2 ^ 31

theorem int32_inRange (x : ℤ) : InRange (int32 x) := by
  unfold InRange int32
  rw [Int.bmod_def]
  split_ifs <;> omega

def isbadsem (sem : ℤ) : Bool := sem < 0 || NSEM ≤ sem

namespace Kernel

/-! ## Updates of one entry -/

section Updates

variable {Q : Type}

def state (pid : ℤ) (k : Kernel Q) : PrState := (k.proctab pid).prstate

def prio (pid : ℤ) (k : Kernel Q) : ℤ := (k.proctab pid).prprio.toInt

def setProc (pid : ℤ) (f : Procent → Procent) (k : Kernel Q) : Kernel Q :=
  { k with proctab := Function.update k.proctab pid (f (k.proctab pid)) }

def setState (pid : ℤ) (s : PrState) (k : Kernel Q) : Kernel Q :=
  k.setProc pid fun p => { p with prstate := s }

def setSem (sem : ℤ) (f : Sentry → Sentry) (k : Kernel Q) : Kernel Q :=
  { k with semtab := Function.update k.semtab sem (f (k.semtab sem)) }

def setScount (sem count : ℤ) (k : Kernel Q) : Kernel Q :=
  k.setSem sem fun s => { s with scount := count }

def pushFrame (pid : ℤ) (frame : Frame) (k : Kernel Q) : Kernel Q :=
  k.setProc pid fun p => { p with prctx := frame :: p.prctx }

def popFrame (pid : ℤ) (k : Kernel Q) : Kernel Q :=
  k.setProc pid fun p => { p with prctx := p.prctx.tail }

def note (event : Event) (k : Kernel Q) : Kernel Q :=
  { k with log := event :: k.log }

/-- The millisecond counter of `clkhandler`. -/
def countMs (k : Kernel Q) : Kernel Q :=
  let second := k.count1000 - 1 ≤ 0
  { k with
    clktime := if second then k.clktime + 1 else k.clktime
    count1000 := if second then 1000 else k.count1000 - 1 }

def isbadpid (pid : ℤ) (k : Kernel Q) : Bool :=
  pid < 0 || NPROC ≤ pid || k.state pid = .free

end Updates

variable (k : Kernel Queuetab)

/-! ## Queues -/

def isempty (q : ℤ) : Bool := NPROC ≤ k.queues.firstid q

def nonempty (q : ℤ) : Bool := k.queues.firstid q < NPROC

def firstkey (q : ℤ) : ℤ := k.queues.firstkey q

def getitem (pid : ℤ) : Kernel Queuetab :=
  { k with queues := k.queues.getitem pid }

def getfirst (q : ℤ) : Kernel Queuetab × ℤ :=
  if k.isempty q then (k, EMPTY)
  else
    let pid := k.queues.firstid q
    (k.getitem pid, pid)

def enqueue (pid q : ℤ) : Kernel Queuetab × ℤ :=
  if isbadqid q || k.isbadpid pid then (k, SYSERR.toInt)
  else ({ k with queues := k.queues.enqueue pid q }, pid)

def dequeue (q : ℤ) : Kernel Queuetab × ℤ :=
  if isbadqid q then (k, SYSERR.toInt)
  else if k.isempty q then (k, EMPTY)
  else
    let (k, pid) := k.getfirst q
    ({ k with queues := k.queues.clearLinks pid }, pid)

def insert (pid q key : ℤ) : Kernel Queuetab × Word :=
  if isbadqid q || k.isbadpid pid then (k, SYSERR)
  else
    match k.queues.insert pid q key with
    | none => ({ k with hung := true }, SYSERR)
    | some queues => ({ k with queues := queues }, OK)

def insertd (pid q key : ℤ) : Kernel Queuetab × Word :=
  if isbadqid q || k.isbadpid pid then (k, SYSERR)
  else
    match k.queues.insertd pid q key with
    | none => ({ k with hung := true }, SYSERR)
    | some queues => ({ k with queues := queues }, OK)

/-! ## resched.c and ready.c -/

/-- The part of `resched` that forces a context switch. -/
def switch : Kernel Queuetab :=
  let (k, pid) := k.dequeue k.readylist
  let k := { k with currpid := pid }
  let k := k.setState k.currpid .curr
  { k with preempt := QUANTUM }

def resched : Kernel Queuetab :=
  if 0 < k.ndefers then
    { k with attempt := true }
  else if k.state k.currpid = .curr then
    if k.firstkey k.readylist < k.prio k.currpid then
      k
    else
      let k := k.setState k.currpid .ready
      let k := (k.insert k.currpid k.readylist (k.prio k.currpid)).1
      k.switch
  else
    k.switch

def reschedCntl (defer : ℤ) : Kernel Queuetab × Word :=
  if defer = DEFER_START then
    if k.ndefers = 0 then
      ({ k with ndefers := k.ndefers + 1, attempt := false }, OK)
    else
      ({ k with ndefers := k.ndefers + 1 }, OK)
  else if defer = DEFER_STOP then
    if k.ndefers ≤ 0 then (k, SYSERR)
    else
      let k := { k with ndefers := k.ndefers - 1 }
      if k.ndefers = 0 ∧ k.attempt = true then (k.resched, OK) else (k, OK)
  else (k, SYSERR)

def ready (pid : ℤ) : Kernel Queuetab × Word :=
  if k.isbadpid pid then (k, SYSERR)
  else
    let k := k.setState pid .ready
    let k := (k.insert pid k.readylist (k.prio pid)).1
    (k.resched, OK)

/-! ## unsleep.c, wakeup.c and clkhandler.c -/

def unsleep (pid : ℤ) : Kernel Queuetab × Word :=
  if k.isbadpid pid then (k, SYSERR)
  else if k.state pid ≠ .sleep ∧ k.state pid ≠ .rectim then (k, SYSERR)
  else
    let k := { k with queues := k.queues.creditNext pid }
    let k := k.getitem pid
    (k.note (.unslept pid), OK)

/-- The loop of `wakeup`; no queue holds more than `NPROC` processes. -/
def wakeupLoop : ℕ → Kernel Queuetab → Kernel Queuetab
  | 0, k => { k with hung := true }
  | fuel + 1, k =>
      if k.nonempty k.sleepq ∧ k.firstkey k.sleepq ≤ 0 then
        let (k, pid) := k.dequeue k.sleepq
        wakeupLoop fuel ((k.note (.expired pid)).ready pid).1
      else k

def wakeup : Kernel Queuetab :=
  let k := (k.reschedCntl DEFER_START).1
  let k := k.wakeupLoop (NPROC.toNat + 1)
  (k.reschedCntl DEFER_STOP).1

/-- `clkhandler` up to the preemption counter. -/
def clkhandler : Kernel Queuetab :=
  let k := (k.note .ticked).countMs
  let k := k.pushFrame k.currpid .clkPreempt
  if k.isempty k.sleepq then k
  else
    let k := { k with queues := k.queues.decFirstkey k.sleepq }
    if k.firstkey k.sleepq ≤ 0 then k.wakeup else k

/-- The rest of `clkhandler`. -/
def clkPreempt : Kernel Queuetab :=
  let k := { k with preempt := k.preempt - 1 }
  if k.preempt ≤ 0 then
    let k := { k with preempt := QUANTUM }
    k.resched
  else k

end Kernel

end Xinu
