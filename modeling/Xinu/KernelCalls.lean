import Xinu.KernelModel

/-!
# The process primitives

The calls of the kernel, each translated from its file under system/, and the
step function of the machine.  A call runs with interrupts disabled, so it is
one step up to the point where it gives the processor away; what it has left to
do after that point is pushed on the context of its process and runs when the
process is chosen again.
-/

namespace Xinu

open ByteMemory

inductive Call where
  | create (funcaddr ssize : Word) (priority : Int16) (args : List Word)
  | resume (pid : ℤ)
  | suspend (pid : ℤ)
  | kill (pid : ℤ)
  | yield
  | chprio (pid : ℤ) (newprio : Int16)
  | sleep (delay : Int32)
  | sleepms (delay : Int32)
  | recvtime (maxwait : Int32)
  | send (pid : ℤ) (msg : Word)
  | receive
  | recvclr
  | wait (sem : ℤ)
  | signal (sem : ℤ)
  | signaln (sem : ℤ) (count : Int32)
  | semcreate (count : Int32)
  | semdelete (sem : ℤ)
  | semreset (sem : ℤ) (count : Int32)
  | getmem (nbytes : Word)
  | freemem (blkaddr nbytes : Word)
  /-- `proctab[pid].prdesc[i] = descrp`, as the shell does for a child. -/
  | setdesc (pid : ℤ) (i : ℕ) (descrp : ℤ)
  deriving DecidableEq

/-- What happens next: the current process makes a call, it goes on with what
it has left to do, the clock interrupts it, or a device's close returns. -/
inductive Action where
  | call (c : Call)
  | cont
  | tick
  | closeDone
  deriving DecidableEq

namespace Kernel

/-! ## Messages -/

section Messages

variable {Q : Type}

/-- Put a message into the entry of its receiver. -/
def deposit (pid : ℤ) (msg : Word) (k : Kernel Q) : Kernel Q :=
  (k.setProc pid fun p => { p with prmsg := msg, prhasmsg := true }).note
    (.sent pid msg)

/-- Take the message out of the entry of a process. -/
def fetch (pid : ℤ) (k : Kernel Q) : Kernel Q :=
  (k.setProc pid fun p => { p with prhasmsg := false }).note
    (.received pid (k.proctab pid).prmsg)

/-- The end of `recvtime`. -/
def fetchOrTimeout (pid : ℤ) (k : Kernel Q) : Kernel Q :=
  if (k.proctab pid).prhasmsg then k.fetch pid else k.note (.timedOut pid)

end Messages

variable (k : Kernel Queuetab)

def send (pid : ℤ) (msg : Word) : Kernel Queuetab × Word :=
  if k.isbadpid pid then (k, SYSERR)
  else if (k.proctab pid).prhasmsg then (k, SYSERR)
  else
    let k := k.deposit pid msg
    if k.state pid = .recv then ((k.ready pid).1, OK)
    else if k.state pid = .rectim then
      (((k.unsleep pid).1.ready pid).1, OK)
    else (k, OK)

def receive : Kernel Queuetab :=
  if (k.proctab k.currpid).prhasmsg = false then
    let k := k.setState k.currpid .recv
    let k := k.pushFrame k.currpid .receiveRet
    k.resched
  else k.fetch k.currpid

def recvclr : Kernel Queuetab × Word :=
  if (k.proctab k.currpid).prhasmsg = true then
    (k.fetch k.currpid, (k.proctab k.currpid).prmsg)
  else (k, OK)

def recvtime (maxwait : ℤ) : Kernel Queuetab :=
  if maxwait < 0 then k
  else if (k.proctab k.currpid).prhasmsg = false then
    let (k, status) := k.insertd k.currpid k.sleepq maxwait
    if status = SYSERR then k
    else
      let k := k.setState k.currpid .rectim
      let k := k.pushFrame k.currpid .recvtimeRet
      (k.note (.slept k.currpid maxwait)).resched
  else k.fetchOrTimeout k.currpid

/-! ## Scheduling -/

def yield : Kernel Queuetab × Word := (k.resched, OK)

def sleepms (delay : ℤ) : Kernel Queuetab × Word :=
  if delay < 0 then (k, SYSERR)
  else if delay = 0 then (k.yield.1, OK)
  else
    let (k, status) := k.insertd k.currpid k.sleepq delay
    if status = SYSERR then (k, SYSERR)
    else
      let k := k.setState k.currpid .sleep
      ((k.note (.slept k.currpid delay)).resched, OK)

def sleep (delay : ℤ) : Kernel Queuetab × Word :=
  if delay < 0 ∨ MAXSECONDS < delay then (k, SYSERR)
  else ((k.sleepms (1000 * delay)).1, OK)

def suspend (pid : ℤ) : Kernel Queuetab × ℤ :=
  if k.isbadpid pid ∨ pid = NULLPROC then (k, SYSERR.toInt)
  else if k.state pid ≠ .curr ∧ k.state pid ≠ .ready then (k, SYSERR.toInt)
  else
    let k :=
      if k.state pid = .ready then (k.getitem pid).setState pid .susp
      else (k.setState pid .susp).resched
    (k, k.prio pid)

def resume (pid : ℤ) : Kernel Queuetab × ℤ :=
  if k.isbadpid pid then (k, SYSERR.toInt)
  else if k.state pid ≠ .susp then (k, SYSERR.toInt)
  else
    let prio := k.prio pid
    ((k.ready pid).1, prio)

def chprio (pid : ℤ) (newprio : Int16) : Kernel Queuetab × ℤ :=
  if k.isbadpid pid then (k, SYSERR.toInt)
  else
    let oldprio := k.prio pid
    (k.setProc pid fun p => { p with prprio := newprio }, oldprio)

/-! ## Semaphores -/

def wait (sem : ℤ) : Kernel Queuetab × Word :=
  if isbadsem sem then (k, SYSERR)
  else if (k.semtab sem).sstate = .free then (k, SYSERR)
  else
    let k := k.setScount sem (int32 ((k.semtab sem).scount - 1))
    if (k.semtab sem).scount < 0 then
      let k := k.setState k.currpid .wait
      let k := k.setProc k.currpid fun p => { p with prsem := sem }
      let k := (k.enqueue k.currpid (k.semtab sem).squeue).1
      ((k.note (.waited sem k.currpid)).resched, OK)
    else (k.note (.passed sem), OK)

/-- `if ((semptr->scount++) < 0) ready(dequeue(semptr->squeue))`. -/
def signalOnce (sem : ℤ) : Kernel Queuetab :=
  let count := (k.semtab sem).scount
  let k := (k.setScount sem (int32 (count + 1))).note (.signalled sem)
  if count < 0 then
    let (k, pid) := k.dequeue (k.semtab sem).squeue
    ((k.note (.released sem pid)).ready pid).1
  else k

def signal (sem : ℤ) : Kernel Queuetab × Word :=
  if isbadsem sem then (k, SYSERR)
  else if (k.semtab sem).sstate = .free then (k, SYSERR)
  else (k.signalOnce sem, OK)

def signalnLoop (sem : ℤ) : ℕ → Kernel Queuetab → Kernel Queuetab
  | 0, k => k
  | count + 1, k => signalnLoop sem count (k.signalOnce sem)

def signaln (sem count : ℤ) : Kernel Queuetab × Word :=
  if isbadsem sem ∨ count < 0 then (k, SYSERR)
  else if (k.semtab sem).sstate = .free then (k, SYSERR)
  else
    let k := (k.reschedCntl DEFER_START).1
    let k := k.signalnLoop sem count.toNat
    ((k.reschedCntl DEFER_STOP).1, OK)

def newsemLoop : ℕ → Kernel Queuetab → Kernel Queuetab × ℤ
  | 0, k => (k, SYSERR.toInt)
  | i + 1, k =>
      let sem := k.nextsem
      let k := { k with nextsem := k.nextsem + 1 }
      let k := if NSEM ≤ k.nextsem then { k with nextsem := 0 } else k
      if (k.semtab sem).sstate = .free then
        (k.setSem sem fun s => { s with sstate := .used }, sem)
      else newsemLoop i k

def newsem : Kernel Queuetab × ℤ := k.newsemLoop NSEM.toNat

def semcreate (count : ℤ) : Kernel Queuetab × ℤ :=
  if count < 0 then (k, SYSERR.toInt)
  else
    let (k, sem) := k.newsem
    if sem = SYSERR.toInt then (k, SYSERR.toInt)
    else ((k.setScount sem count).note (.started sem count), sem)

/-- The loop of `semdelete`; the count goes up to zero. -/
def semdeleteLoop (sem : ℤ) : ℕ → Kernel Queuetab → Kernel Queuetab
  | 0, k => { k with hung := true }
  | fuel + 1, k =>
      let count := (k.semtab sem).scount
      let k := k.setScount sem (int32 (count + 1))
      if count < 0 then
        let (k, pid) := k.getfirst (k.semtab sem).squeue
        semdeleteLoop sem fuel ((k.note (.flushed sem pid)).ready pid).1
      else k

def semdelete (sem : ℤ) : Kernel Queuetab × Word :=
  if isbadsem sem then (k, SYSERR)
  else if (k.semtab sem).sstate = .free then (k, SYSERR)
  else
    let k := k.setSem sem fun s => { s with sstate := .free }
    let k := (k.reschedCntl DEFER_START).1
    let k := k.semdeleteLoop sem ((-(k.semtab sem).scount).toNat + 1)
    ((k.reschedCntl DEFER_STOP).1, OK)

/-- The loop of `semreset`; no queue holds more than `NPROC` processes. -/
def semresetLoop (sem : ℤ) : ℕ → Kernel Queuetab → Kernel Queuetab
  | 0, k => { k with hung := true }
  | fuel + 1, k =>
      let (k, pid) := k.getfirst (k.semtab sem).squeue
      if pid ≠ EMPTY then
        semresetLoop sem fuel ((k.note (.flushed sem pid)).ready pid).1
      else k

def semreset (sem count : ℤ) : Kernel Queuetab × Word :=
  if count < 0 ∨ isbadsem sem ∨ (k.semtab sem).sstate = .free then (k, SYSERR)
  else
    let k := (k.reschedCntl DEFER_START).1
    let k := k.semresetLoop sem (NPROC.toNat + 1)
    let k := (k.setScount sem count).note (.started sem count)
    ((k.reschedCntl DEFER_STOP).1, OK)

/-! ## create.c -/

def newpidLoop : ℕ → Kernel Queuetab → Kernel Queuetab × ℤ
  | 0, k => (k, SYSERR.toInt)
  | i + 1, k =>
      let k := { k with nextpid := k.nextpid % NPROC }
      let pid := k.nextpid
      let k := { k with nextpid := k.nextpid + 1 }
      if k.state pid = .free then (k, pid) else newpidLoop i k

def newpid : Kernel Queuetab × ℤ := k.newpidLoop NPROC.toNat

/-- `*--saddr = value`. -/
def pushWord (stack : Memory × Word) (value : Word) : Memory × Word :=
  (write32 stack.1 (stack.2 - 4) value, stack.2 - 4)

/-- The initial stack of a process, half-way through a call of `ctxsw`. -/
def initStack (mem : Memory) (saddr funcaddr : Word) (args : List Word) :
    Memory × Word :=
  let savsp := saddr
  let stack := (write32 mem saddr STACKMAGIC, saddr)
  let stack := args.reverse.foldl pushWord stack
  let stack := pushWord stack INITRET
  let stack := pushWord stack funcaddr
  let stack := pushWord stack savsp
  let savsp := stack.2
  let stack := pushWord stack 0x200
  let stack := [0, 0, 0, 0, 0].foldl pushWord stack
  let pushsp := stack.2
  let stack := pushWord stack savsp
  let stack := [0, 0].foldl pushWord stack
  (write32 stack.1 pushsp stack.2, stack.2)

/-- The entry that `create` leaves for a new process. -/
def newEntry (p : Procent) (priority : Int16) (saddr ssize prstkptr : Word)
    (parent : ℤ) (serial : ℕ) : Procent where
  prstate := .susp
  prprio := priority
  prstkptr := prstkptr
  prstkbase := saddr
  prstklen := ssize
  prsem := -1
  prparent := parent
  prmsg := p.prmsg
  prhasmsg := false
  prdesc := fun i => if i < 3 then CONSOLE else p.prdesc i
  prctx := []
  serial := serial

/-- `none` is a search of the heap that does not end. -/
def create (funcaddr ssize : Word) (priority : Int16) (args : List Word) :
    Option (Kernel Queuetab × ℤ) :=
  let ssize := if ssize < MINSTK then MINSTK else ssize
  let ssize := roundmb ssize
  if priority < 1 then some (k, SYSERR.toInt)
  else
    let (k, pid) := k.newpid
    if pid = SYSERR.toInt then some (k, SYSERR.toInt)
    else
      (getstk ssize k.heap).map fun (heap, saddr) =>
        let k := { k with heap := heap }
        if saddr = SYSERR then (k, SYSERR.toInt)
        else
          let (mem, prstkptr) := initStack k.heap.mem saddr funcaddr args
          let entry := newEntry (k.proctab pid) priority saddr ssize prstkptr
            k.currpid k.births
          let k := { k with
            prcount := k.prcount + 1
            heap := { k.heap with mem := mem }
            births := k.births + 1 }
          ((k.setProc pid fun _ => entry).note (.created pid entry.serial), pid)

/-! ## kill.c -/

/-- The devices of conf.c whose close function can wait: the remote files and
the local files. -/
def closeBlocks (descrp : ℤ) : Bool :=
  (7 ≤ descrp && descrp ≤ 16) || (18 ≤ descrp && descrp ≤ 23)

/-- `kill` up to the notification of the parent. -/
def kill (pid : ℤ) : Kernel Queuetab × Word :=
  if k.isbadpid pid ∨ pid = NULLPROC ∨ k.state pid = .free then (k, SYSERR)
  else
    let k := { k with prcount := k.prcount - 1 }
    let k := k.pushFrame k.currpid (.kill pid (k.proctab pid).serial 0)
    if k.prcount ≤ 1 then ({ k with halted := true }, OK)
    else ((k.send (k.proctab pid).prparent (BitVec.ofInt 32 pid)).1, OK)

/-- One turn of the loop of `kill` over the descriptors. -/
def killClose (pid : ℤ) (serial i : ℕ) : Kernel Queuetab :=
  let k := k.popFrame k.currpid
  let k := k.pushFrame k.currpid (.kill pid serial (i + 1))
  if closeBlocks ((k.proctab pid).prdesc i) then k.pushFrame k.currpid .inClose
  else k

/-- `prptr->prstate = PR_FREE`; what the process had left to do is gone. -/
def setFree {Q : Type} (pid : ℤ) (k : Kernel Q) : Kernel Q :=
  k.setProc pid fun p => { p with prstate := .free, prctx := [] }

/-- `kill` from the release of the stack on.  A process that kills itself does
not come back from `resched`. -/
def killFinish (pid : ℤ) : Option (Kernel Queuetab) :=
  let k := k.popFrame k.currpid
  (freestk (k.proctab pid).prstkbase (k.proctab pid).prstklen k.heap).map
    fun (heap, _) =>
      let k := { k with heap := heap }
      let k := k.note (.stackFreed pid (k.proctab pid).serial)
      match k.state pid with
      | .curr => (k.setFree pid).resched
      | .sleep | .rectim => (k.unsleep pid).1.setFree pid
      | .wait =>
          let sem := (k.proctab pid).prsem
          let k := k.setScount sem (int32 ((k.semtab sem).scount + 1))
          ((k.getitem pid).note (.withdrawn sem pid)).setFree pid
      | .ready => (k.getitem pid).setFree pid
      | _ => k.setFree pid

/-! ## The machine -/

def perform : Call → Option (Kernel Queuetab)
  | .create funcaddr ssize priority args =>
      (k.create funcaddr ssize priority args).map Prod.fst
  | .resume pid => some (k.resume pid).1
  | .suspend pid => some (k.suspend pid).1
  | .kill pid => some (k.kill pid).1
  | .yield => some k.yield.1
  | .chprio pid newprio => some (k.chprio pid newprio).1
  | .sleep delay => some (k.sleep delay.toInt).1
  | .sleepms delay => some (k.sleepms delay.toInt).1
  | .recvtime maxwait => some (k.recvtime maxwait.toInt)
  | .send pid msg => some (k.send pid msg).1
  | .receive => some k.receive
  | .recvclr => some k.recvclr.1
  | .wait sem => some (k.wait sem).1
  | .signal sem => some (k.signal sem).1
  | .signaln sem count => some (k.signaln sem count.toInt).1
  | .semcreate count => some (k.semcreate count.toInt).1
  | .semdelete sem => some (k.semdelete sem).1
  | .semreset sem count => some (k.semreset sem count.toInt).1
  | .getmem nbytes =>
      (Xinu.getmem nbytes k.heap).map fun (heap, _) => { k with heap := heap }
  | .freemem blkaddr nbytes =>
      (Xinu.freemem blkaddr nbytes k.heap).map fun (heap, _) =>
        { k with heap := heap }
  | .setdesc pid i descrp =>
      if k.isbadpid pid then none
      else
        some (k.setProc pid fun p =>
          { p with prdesc := Function.update p.prdesc i descrp })

/-- Go on with a frame of the current process. -/
def proceed : Frame → Option (Kernel Queuetab)
  | .clkPreempt => some (k.popFrame k.currpid).clkPreempt
  | .receiveRet => some ((k.popFrame k.currpid).fetch k.currpid)
  | .recvtimeRet => some ((k.popFrame k.currpid).fetchOrTimeout k.currpid)
  | .kill pid serial i =>
      if i < 3 then some (k.killClose pid serial i) else k.killFinish pid
  | .inClose => none

end Kernel

/-- The calls that the null process may make: those that cannot block it. -/
def Call.nonblocking : Call → Bool
  | .kill _ | .sleep _ | .sleepms _ | .recvtime _ | .receive
  | .wait _ => false
  | _ => true

/-- What the current process has left to do. -/
def Kernel.context {Q : Type} (k : Kernel Q) : List Frame :=
  (k.proctab k.currpid).prctx

/-- One step.  Code that runs inside a device's close function may call the
kernel; interrupts are enabled only outside of every call. -/
def step (k : Kernel Queuetab) (action : Action) : Option (Kernel Queuetab) :=
  if k.halted || k.hung then none
  else
    match action, k.context with
    | .call c, [] | .call c, .inClose :: _ =>
        if k.currpid = NULLPROC ∧ c.nonblocking = false then none
        else k.perform c
    | .cont, frame :: _ => k.proceed frame
    | .tick, [] => some k.clkhandler
    | .closeDone, .inClose :: _ => some (k.popFrame k.currpid)
    | _, _ => none

/-! ## initialize.c -/

/-- The queues that `sysinit` and `clkinit` ask `newqueue` for: one for each
semaphore, the ready list and the sleep queue. -/
def bootQueues : ℕ → Queuetab
  | 0 => fun _ => ⟨0, 0, 0⟩
  | n + 1 => (bootQueues n).newqueue (NPROC + 2 * n)

/-- A table entry that has never been used. -/
def freeEntry : Procent where
  prstate := .free
  prprio := 0
  prstkptr := 0
  prstkbase := 0
  prstklen := 0
  prsem := 0
  prparent := 0
  prmsg := 0
  prhasmsg := false
  prdesc := fun _ => 0
  prctx := []
  serial := 0

def nullEntry (stk : Word) : Procent :=
  { freeEntry with prstate := .curr, prstkbase := stk, prstklen := NULLSTK }

/-- The tables that `sysinit` sets up, over queues of either kind. -/
def bootKernel {Q : Type} (queues : Q) (heap : Heap) (stk : Word) :
    Kernel Q where
  proctab := Function.update (fun _ => freeEntry) NULLPROC (nullEntry stk)
  queues := queues
  semtab := fun sem => ⟨.free, 0, NPROC + 2 * sem⟩
  readylist := NPROC + 2 * NSEM
  sleepq := NPROC + 2 * NSEM + 2
  currpid := NULLPROC
  prcount := 1
  ndefers := 0
  attempt := false
  preempt := QUANTUM
  clktime := 0
  count1000 := 1000
  nextpid := 1
  nextsem := 0
  heap := heap
  halted := false
  hung := false
  births := 1
  log := []

/-- `sysinit` up to the devices, whose initialization uses the calls above. -/
def sysinit (mem : Memory) (memlistAddr imageEnd : Word) :
    Option (Kernel Queuetab) :=
  (getstk NULLSTK (bootHeap mem memlistAddr imageEnd)).map fun (heap, stk) =>
    bootKernel (bootQueues (NSEM.toNat + 2)) heap stk

end Xinu
