import Xinu.HeapAllocator
import Xinu.NullLists
import Xinu.QueueTable

/-!
# The remote disk driver

The request queue and the cache of a remote disk, from rdsqfcns.c, rdsread.c,
rdswrite.c, rdscontrol.c, rdsopen.c and rdsprocess.c.  A node is known by its
number; number zero is the null pointer.

A device call runs at the highest priority until it suspends its caller, so it
is one step.  The communication process gives the processor away only while it
waits for a request and inside `rdscomm`; between two such points it runs
alone.  Every loop that follows pointers takes a budget of turns, and a loop
that never ends has no step with any budget.
-/

namespace Xinu.RemoteDisk

open ByteMemory LinkedTable

def NULL : ℤ := 0

def RD_QNODES : ℕ := NPROC.toNat

def RD_CNODES : ℕ := 32

def RD_BLKSIZ : Word := 512

/-- `RD_OP_READ`, `RD_OP_WRITE` and `RD_OP_SYNC`. -/
inductive RdOp where
  | read
  | write
  | sync
  deriving DecidableEq, Repr

structure Rdqnode where
  rd_next : ℤ
  rd_prev : ℤ
  rd_op : RdOp
  rd_blknum : Word
  rd_callbuf : Word
  rd_pid : ℤ
  deriving DecidableEq, Repr

structure Rdcnode (Block : Type) where
  rd_next : ℤ
  rd_prev : ℤ
  rd_blknum : Word
  rd_data : Block

/-- Where the communication process is. -/
inductive Comm where
  /-- At `wait(rdptr->rd_comsem)`. -/
  | waiting
  /-- In `rdscomm`, for the read request `rptr`. -/
  | reading (rptr : ℤ)
  /-- In the search for a later write of the block of `rptr`, at `tptr`. -/
  | searching (rptr tptr : ℤ)
  /-- In `rdscomm`, for a write request that has left the queue. -/
  | writing
  deriving DecidableEq, Repr

/-- The control block of one disk with the nodes it owns, the communication
process, the suspended callers and the blocks in the callers' buffers. -/
structure Rdscblk (Block : Type) where
  rd_open : Bool
  rd_chead : ℤ
  rd_ctail : ℤ
  rd_cfree : ℤ
  rd_qhead : ℤ
  rd_qtail : ℤ
  rd_qfree : ℤ
  rd_comruns : Bool
  rd_comsem : ℕ
  qnode : ℤ → Rdqnode
  cnode : ℤ → Rdcnode Block
  comm : Comm
  suspended : ℤ → Bool
  buffers : Word → Block

namespace Rdscblk

variable {Block : Type}

/-! ## Fields of nodes -/

section Fields

variable (d : Rdscblk Block)

def qnext (x : ℤ) : ℤ := (d.qnode x).rd_next

def qprev (x : ℤ) : ℤ := (d.qnode x).rd_prev

def cnext (x : ℤ) : ℤ := (d.cnode x).rd_next

def cprev (x : ℤ) : ℤ := (d.cnode x).rd_prev

def setQnode (x : ℤ) (f : Rdqnode → Rdqnode) : Rdscblk Block :=
  { d with qnode := Function.update d.qnode x (f (d.qnode x)) }

def setQnext (x next : ℤ) : Rdscblk Block :=
  d.setQnode x fun r => { r with rd_next := next }

def setQprev (x prev : ℤ) : Rdscblk Block :=
  d.setQnode x fun r => { r with rd_prev := prev }

def setCnode (x : ℤ) (f : Rdcnode Block → Rdcnode Block) : Rdscblk Block :=
  { d with cnode := Function.update d.cnode x (f (d.cnode x)) }

def setCnext (x next : ℤ) : Rdscblk Block :=
  d.setCnode x fun c => { c with rd_next := next }

def setCprev (x prev : ℤ) : Rdscblk Block :=
  d.setCnode x fun c => { c with rd_prev := prev }

/-- `memcpy(buff, data, RD_BLKSIZ)`. -/
def copyTo (buff : Word) (data : Block) : Rdscblk Block :=
  { d with buffers := Function.update d.buffers buff data }

/-- `resume(pid)` for a caller. -/
def resume (pid : ℤ) : Rdscblk Block :=
  { d with suspended := Function.update d.suspended pid false }

/-- `signal(rdptr->rd_comsem); suspend(getpid())`. -/
def signalSuspend (pid : ℤ) : Rdscblk Block :=
  { d with
    rd_comsem := d.rd_comsem + 1
    suspended := Function.update d.suspended pid true }

end Fields

variable (d : Rdscblk Block)

/-! ## rdsqfcns.c -/

def rdqunlink (rptr : ℤ) : Rdscblk Block × ℤ :=
  let nptr := d.qnext rptr
  let d :=
    if rptr = d.rd_qhead then
      if rptr = d.rd_qtail then { d with rd_qhead := NULL, rd_qtail := NULL }
      else { d with rd_qhead := nptr }
    else if rptr = d.rd_qtail then
      let pptr := d.qprev rptr
      { d with rd_qtail := pptr }.setQnext pptr NULL
    else
      let pptr := d.qprev rptr
      (d.setQnext pptr nptr).setQprev nptr pptr
  let d := d.setQnext rptr d.rd_qfree
  ({ d with rd_qfree := rptr }, nptr)

def rdqinsert (rptr : ℤ) : Rdscblk Block :=
  let tptr := d.rd_qtail
  let d := d.setQnext rptr NULL
  let d := d.setQprev rptr tptr
  if tptr = NULL then { d with rd_qhead := rptr, rd_qtail := rptr }
  else { d with rd_qtail := rptr }.setQnext tptr rptr

def rdcunlink (cptr : ℤ) : Rdscblk Block :=
  let nptr := d.cnext cptr
  let d :=
    if cptr = d.rd_chead then
      if cptr = d.rd_ctail then { d with rd_chead := NULL, rd_ctail := NULL }
      else { d with rd_chead := nptr }.setCprev nptr NULL
    else if cptr = d.rd_ctail then
      let pptr := d.cprev cptr
      { d with rd_ctail := pptr }.setCnext pptr NULL
    else
      let pptr := d.cprev cptr
      (d.setCnext pptr nptr).setCprev nptr pptr
  let d := d.setCnext cptr d.rd_cfree
  { d with rd_cfree := cptr }

/-- The node that `rdcinsert` uses, off the free list or off the cache. -/
def takeCnode : Rdscblk Block × ℤ :=
  let cptr := d.rd_cfree
  if cptr ≠ NULL then ({ d with rd_cfree := d.cnext cptr }, cptr)
  else
    let cptr := d.rd_ctail
    if d.rd_chead = d.rd_ctail then
      ({ d with rd_chead := NULL, rd_ctail := NULL }, cptr)
    else
      let tptr := d.cprev cptr
      ({ d.setCnext tptr NULL with rd_ctail := tptr }, cptr)

def rdcinsert (blk : Word) (data : Block) : Rdscblk Block :=
  let (d, cptr) := d.takeCnode
  let d := d.setCnode cptr fun c => { c with rd_blknum := blk, rd_data := data }
  let tptr := d.rd_chead
  let d := d.setCnext cptr tptr
  let d := d.setCprev cptr NULL
  let d := { d with rd_chead := cptr }
  if tptr = NULL then { d with rd_chead := cptr, rd_ctail := cptr }
  else d.setCprev tptr cptr

/-! ## The device calls -/

/-- The search of the cache in `rdsread` and in `rdswrite`. -/
def cacheSearch (blk : Word) (budget : ℕ) : Option ℤ :=
  walk NULL d.cnext (fun c => (d.cnode c).rd_blknum = blk) budget d.rd_chead

/-- The backward search of the request queue in `rdsread`. -/
def searchBack (blk : Word) (budget : ℕ) : Option ℤ :=
  walk NULL d.qprev (fun r => (d.qnode r).rd_blknum = blk) budget d.rd_qtail

/-- Take a request node off the free list and fill it in. -/
def request (op : RdOp) (blk buff : Word) (pid : ℤ) : Rdscblk Block × ℤ :=
  let rptr := d.rd_qfree
  let d := { d with rd_qfree := d.qnext rptr }
  (d.setQnode rptr fun r =>
    { r with rd_op := op, rd_blknum := blk, rd_callbuf := buff, rd_pid := pid },
    rptr)

/-- The insertion in `rdsread`. -/
def readInsert (rptr : ℤ) : Rdscblk Block :=
  if d.rd_qhead = NULL then
    let d := { d with rd_qhead := rptr, rd_qtail := rptr }
    (d.setQprev rptr NULL).setQnext rptr NULL
  else
    let tptr := d.rd_qtail
    let d := d.setQnext tptr rptr
    let d := d.setQprev rptr tptr
    let d := d.setQnext rptr NULL
    { d with rd_qtail := rptr }

/-- The insertion in `rdscontrol`. -/
def syncInsert (rptr : ℤ) : Rdscblk Block :=
  let d := d.setQnext rptr NULL
  let d := d.setQprev rptr d.rd_qtail
  let d := if d.rd_qtail = NULL then { d with rd_qhead := rptr } else d
  { d with rd_qtail := rptr }

def rdsread (budget : ℕ) (pid : ℤ) (buff blk : Word) :
    Option (Rdscblk Block × Word) :=
  if d.rd_open = false then some (d, SYSERR)
  else
    let d := { d with rd_comruns := true }
    (d.cacheSearch blk budget).bind fun cptr =>
      if cptr ≠ NULL then
        some (d.copyTo buff (d.cnode cptr).rd_data, RD_BLKSIZ)
      else
        (d.searchBack blk budget).map fun rptr =>
          if rptr ≠ NULL ∧ (d.qnode rptr).rd_op = .write then
            (d.copyTo buff (d.buffers (d.qnode rptr).rd_callbuf), RD_BLKSIZ)
          else
            let (d, rptr) := d.request .read blk buff pid
            ((d.readInsert rptr).signalSuspend pid, RD_BLKSIZ)

def rdswrite (budget : ℕ) (pid : ℤ) (buff blk : Word) :
    Option (Rdscblk Block × Word) :=
  if d.rd_open = false then some (d, SYSERR)
  else
    let d := { d with rd_comruns := true }
    (d.cacheSearch blk budget).map fun cptr =>
      let d := if cptr ≠ NULL then d.rdcunlink cptr else d
      let (d, rptr) := d.request .write blk buff pid
      ((d.rdqinsert rptr).signalSuspend pid, OK)

/-- `rdscontrol` for `RDS_CTL_SYNC`. -/
def rdscontrolSync (pid : ℤ) : Rdscblk Block × Word :=
  if d.rd_open = false then (d, SYSERR)
  else
    let d := { d with rd_comruns := true }
    if d.rd_qhead = NULL then (d, OK)
    else
      let (d, rptr) := d.request .sync 0 0 pid
      ((d.syncInsert rptr).signalSuspend pid, OK)

/-! ## rdsprocess.c -/

/-- The communication process takes a request. -/
def commTake : Rdscblk Block :=
  let d := { d with rd_comsem := d.rd_comsem - 1 }
  let rptr := d.rd_qhead
  if rptr = NULL then d
  else
    match (d.qnode rptr).rd_op with
    | .sync => ((d.resume (d.qnode rptr).rd_pid).rdqunlink rptr).1
    | .read => { d with comm := .reading rptr }
    | .write => { d with comm := .searching rptr (d.qnext rptr) }

/-- The walk that satisfies later reads of a block that has been read. -/
def satisfy (blk : Word) (data : Block) : ℕ → ℤ → Rdscblk Block →
    Option (Rdscblk Block)
  | 0, _, _ => none
  | budget + 1, rptr, d =>
      if rptr = NULL then some d
      else if (d.qnode rptr).rd_blknum ≠ blk then
        satisfy blk data budget (d.qnext rptr) d
      else
        match (d.qnode rptr).rd_op with
        | .write => some d
        | .read =>
            let d := d.copyTo (d.qnode rptr).rd_callbuf data
            let d := d.resume (d.qnode rptr).rd_pid
            let (d, rptr) := d.rdqunlink rptr
            satisfy blk data budget rptr d
        | .sync => satisfy blk data budget (d.qnext rptr) d

/-- The response to a read request. -/
def readDone (budget : ℕ) (rptr : ℤ) (data : Block) : Option (Rdscblk Block) :=
  let blk := (d.qnode rptr).rd_blknum
  let d := d.copyTo (d.qnode rptr).rd_callbuf data
  let d := d.resume (d.qnode rptr).rd_pid
  let d := (d.rdqunlink rptr).1
  (satisfy blk data budget d.rd_qhead d).map fun d => { d with comm := .waiting }

/-- One turn of the search for a later write.  The turn that finds neither the
end of the queue nor a write of the block changes nothing. -/
def searchTurn (rptr tptr : ℤ) : Rdscblk Block :=
  let blk := (d.qnode rptr).rd_blknum
  if tptr ≠ NULL ∧
      ¬ ((d.qnode tptr).rd_blknum = blk ∧ (d.qnode tptr).rd_op = .write) then d
  else
    let data := d.buffers (d.qnode rptr).rd_callbuf
    let d := if tptr = NULL then d.rdcinsert blk data else d
    let d := d.resume (d.qnode rptr).rd_pid
    let d := (d.rdqunlink rptr).1
    { d with comm := .writing }

/-- The communication process has given the processor away. -/
def blocked : Bool :=
  match d.comm with
  | .waiting => d.rd_comsem = 0
  | .reading _ | .writing => true
  | .searching _ _ => false

end Rdscblk

/-- What happens next: a process makes a device call, the communication
process goes on, or the server answers with a block. -/
inductive RdsAction (Block : Type) where
  | read (pid : ℤ) (buff blk : Word)
  | write (pid : ℤ) (buff blk : Word)
  | sync (pid : ℤ)
  | run
  | respond (data : Block)

namespace Rdscblk

variable {Block : Type}

/-- A process outside of the driver can make a device call. -/
def canCall (d : Rdscblk Block) (pid : ℤ) : Bool :=
  0 ≤ pid && pid < NPROC && !d.suspended pid && d.blocked

/-- One step, with a budget for its loops. -/
def step (d : Rdscblk Block) : ℕ × RdsAction Block → Option (Rdscblk Block)
  | (budget, .read pid buff blk) =>
      if d.canCall pid then (d.rdsread budget pid buff blk).map Prod.fst
      else none
  | (budget, .write pid buff blk) =>
      if d.canCall pid then (d.rdswrite budget pid buff blk).map Prod.fst
      else none
  | (_, .sync pid) =>
      if d.canCall pid then some (d.rdscontrolSync pid).1 else none
  | (_, .run) =>
      match d.comm with
      | .waiting => if d.rd_comsem = 0 then none else some d.commTake
      | .searching rptr tptr => some (d.searchTurn rptr tptr)
      | .reading _ | .writing => none
  | (budget, .respond data) =>
      match d.comm with
      | .reading rptr => d.readDone budget rptr data
      | .writing => some { d with comm := .waiting }
      | .waiting | .searching _ _ => none

/-! ## rdsopen.c -/

/-- The links that `rdsopen` sets in `n` nodes. -/
def linkFree (n : ℕ) (x : ℤ) : ℤ := if x < n then x + 1 else NULL

/-- The control block that `rdsopen` leaves, over nodes with any contents. -/
def rdsopen (qnode : ℤ → Rdqnode) (cnode : ℤ → Rdcnode Block)
    (buffers : Word → Block) : Rdscblk Block where
  rd_open := true
  rd_chead := NULL
  rd_ctail := NULL
  rd_cfree := 1
  rd_qhead := NULL
  rd_qtail := NULL
  rd_qfree := 1
  rd_comruns := false
  rd_comsem := 0
  qnode := fun x => { qnode x with rd_next := linkFree RD_QNODES x }
  cnode := fun x => { cnode x with rd_next := linkFree RD_CNODES x }
  comm := .waiting
  suspended := fun _ => false
  buffers := buffers

end Rdscblk

end Xinu.RemoteDisk
