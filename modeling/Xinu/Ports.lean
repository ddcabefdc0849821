import Xinu.CountingSemaphore
import Xinu.HeapAllocator
import Xinu.NullLists
import Xinu.TransitionSystem

/-!
# Ports

`ptcreate`, `ptsend`, `ptrecv`, `ptcount`, `ptreset` and `ptdelete`, between
any number of processes.  A call is one step unless its `wait` blocks, and a
port that is cleared can give the processor away in the disposal function and
after each of its semaphores.  Message nodes are numbered from 1 in the order
of their addresses, and 0 stands for the null pointer.
-/

namespace Xinu.Ports

open ByteMemory TransitionSystem

def NPORTS : ℕ := 30

/-- What a process in `ptsend` or `ptrecv` remembers while it waits.  `epoch`
is the recorded sequence number before it is cut to 32 bits. -/
structure Caller where
  pid : ℤ
  seq : Word
  epoch : ℕ
  msg : Option Word
deriving DecidableEq

/-- How far `_ptclear` is when another process runs. -/
inductive Stage
  | dispose (walk : ℕ)
  | senders
  | receivers
deriving DecidableEq

inductive PtState
  | free
  | limbo (reset : Bool) (stage : Stage)
  | alloc
deriving DecidableEq

/-- What became of the messages since the port was created or reset. -/
structure Epoch where
  number : ℕ
  accepted : List Word
  returned : List (Caller × Word)
  disposed : List Word

/-- An entry of the port table.  `released` are the processes that a clearing
of the port has let go and that have not run yet. -/
structure Ptentry where
  ptssem : CountingSemaphore Caller
  ptrsem : CountingSemaphore Caller
  ptstate : PtState
  ptmaxcnt : ℤ
  ptseq : Word
  pthead : ℕ
  pttail : ℕ
  released : List Caller
  seqno : ℕ
  epoch : Epoch
  past : List Epoch

structure PortTable where
  ptnext : ℕ → ℕ
  ptmsg : ℕ → Word
  ptfree : ℕ
  porttab : ℕ → Ptentry
  ptnextid : ℕ

/-! ## ptinit.c -/

/-- The loop that links `n + 1` nodes. -/
def linkNodes : ℕ → ℕ → (ℕ → ℕ) → ℕ → ℕ
  | 0, curr, ptnext => Function.update ptnext curr 0
  | n + 1, curr, ptnext =>
      linkNodes n (curr + 1) (Function.update ptnext curr (curr + 1))

def freePort : Ptentry where
  ptssem := .init 0
  ptrsem := .init 0
  ptstate := .free
  ptmaxcnt := 0
  ptseq := 0
  pthead := 0
  pttail := 0
  released := []
  seqno := 0
  epoch := ⟨0, [], [], []⟩
  past := []

def ptinit (maxmsgs : ℕ) : PortTable where
  ptnext := linkNodes (maxmsgs - 1) 1 fun _ => 0
  ptmsg := fun _ => 0
  ptfree := 1
  porttab := fun _ => freePort
  ptnextid := 0

/-! ## Semaphores of ports -/

/-- `semreset`, with the processes it makes ready. -/
def semreset (count : ℤ) (sem : CountingSemaphore Caller) :
    CountingSemaphore Caller × List Caller :=
  if count < 0 then (sem, [])
  else ({ sem with count := count, waiting := [] }, sem.waiting)

/-- `semdelete`, which counts up to zero and makes a process ready each time. -/
def semdelete (sem : CountingSemaphore Caller) :
    CountingSemaphore Caller × List Caller :=
  ({ sem with
      count := max 0 sem.count + 1
      waiting := sem.waiting.drop (-sem.count).toNat },
    sem.waiting.take (-sem.count).toNat)

namespace Ptentry

variable (e : Ptentry)

/-- The processes that use the semaphores of the port. -/
def callers : List Caller := e.ptssem.members ++ e.ptrsem.members

def inside : List Caller := e.callers ++ e.released

def isReady (c : Caller) : Prop :=
  c ∈ e.ptssem.passed ∨ c ∈ e.ptrsem.passed ∨ c ∈ e.released

instance (c : Caller) : Decidable (e.isReady c) :=
  inferInstanceAs (Decidable (_ ∨ _))

/-- The semaphore that a call waits for. -/
def sem : Option Word → CountingSemaphore Caller
  | some _ => e.ptssem
  | none => e.ptrsem

def wait (c : Caller) : Ptentry :=
  match c.msg with
  | some _ => { e with ptssem := e.ptssem.wait c }
  | none => { e with ptrsem := e.ptrsem.wait c }

/-- A process that was ready runs on. -/
def leave (c : Caller) : Ptentry :=
  match c.msg with
  | some _ =>
      { e with ptssem := e.ptssem.goOn c, released := e.released.erase c }
  | none =>
      { e with ptrsem := e.ptrsem.goOn c, released := e.released.erase c }

def kill (c : Caller) : Ptentry :=
  { e with
    ptssem := e.ptssem.kill c
    ptrsem := e.ptrsem.kill c
    released := e.released.erase c }

/-- The entry when `ptcreate` has taken it. -/
def create (count : ℤ) : Ptentry :=
  { e with
    ptstate := .alloc
    ptssem := .init count
    ptrsem := .init 0
    pthead := 0
    pttail := 0
    ptseq := e.ptseq + 1
    ptmaxcnt := count % 65536
    seqno := e.seqno + 1
    epoch := ⟨e.seqno + 1, [], [], []⟩ }

/-- The start of `_ptclear`.  The processes that had been made ready will find
another sequence number. -/
def startClear : Ptentry :=
  { e with
    ptseq := e.ptseq + 1
    seqno := e.seqno + 1
    ptssem := { e.ptssem with passed := [] }
    ptrsem := { e.ptrsem with passed := [] }
    released := e.released ++ (e.ptssem.passed ++ e.ptrsem.passed) }

/-- The disposal function is called for the message of a node. -/
def callDispose (reset : Bool) (walk : ℕ) (msg : Word) : Ptentry :=
  { e with
    ptstate := .limbo reset (.dispose walk)
    epoch := { e.epoch with disposed := e.epoch.disposed ++ [msg] } }

/-- The messages are gone and the semaphore of the senders is next. -/
def clearSenders (reset : Bool) : Ptentry :=
  let sem := if reset then semreset e.ptmaxcnt e.ptssem else semdelete e.ptssem
  { e with
    pthead := if reset then 0 else e.pthead
    pttail := if reset then 0 else e.pttail
    ptssem := sem.1
    released := e.released ++ sem.2
    ptstate := .limbo reset .senders
    epoch := ⟨e.seqno, [], [], []⟩
    past := e.epoch :: e.past }

def clearReceivers (reset : Bool) : Ptentry :=
  let sem := if reset then semreset 0 e.ptrsem else semdelete e.ptrsem
  { e with
    ptrsem := sem.1
    released := e.released ++ sem.2
    ptstate := .limbo reset .receivers }

def accept (node : ℕ) (msg : Word) : Ptentry :=
  { e with
    pthead := if e.pttail = 0 then node else e.pthead
    pttail := node
    ptrsem := e.ptrsem.signal
    epoch := { e.epoch with accepted := e.epoch.accepted ++ [msg] } }

/-- The first message has been taken out. -/
def deliver (next : ℕ) (c : Caller) (msg : Word) : Ptentry :=
  { e with
    pthead := if e.pthead = e.pttail then 0 else next
    pttail := if e.pthead = e.pttail then 0 else e.pttail
    ptssem := e.ptssem.signal
    epoch := { e.epoch with returned := e.epoch.returned ++ [(c, msg)] } }

end Ptentry

namespace PortTable

variable (s : PortTable) (portid : ℕ)

def modify (f : Ptentry → Ptentry) : PortTable :=
  { s with porttab := Function.update s.porttab portid (f (s.porttab portid)) }

/-! ## ptcreate.c -/

/-- The loop over the table, with the next entry to try. -/
def findPort : ℕ → ℕ → ℕ × Option ℕ
  | 0, ptnextid => (ptnextid, none)
  | n + 1, ptnextid =>
      let next := if ptnextid + 1 ≥ NPORTS then 0 else ptnextid + 1
      if (s.porttab ptnextid).ptstate = .free then (next, some ptnextid)
      else findPort n next

def ptcreate (count : ℤ) : PortTable :=
  if count < 0 then s
  else
    match s.findPort NPORTS s.ptnextid with
    | (next, none) => { s with ptnextid := next }
    | (next, some ptnum) =>
        { s.modify ptnum (·.create count) with ptnextid := next }

/-! ## ptsend.c and ptrecv.c -/

/-- `ptsend` after `wait`, when it has found a free node. -/
def enqueue (msg : Word) : PortTable :=
  let msgnode := s.ptfree
  let tailnode := (s.porttab portid).pttail
  let ptnext := Function.update s.ptnext msgnode 0
  { s.modify portid (·.accept msgnode msg) with
    ptfree := s.ptnext msgnode
    ptnext := if tailnode = 0 then ptnext
      else Function.update ptnext tailnode msgnode
    ptmsg := Function.update s.ptmsg msgnode msg }

/-- `ptrecv` after `wait`. -/
def dequeue (c : Caller) : PortTable :=
  let msgnode := (s.porttab portid).pthead
  { s.modify portid (·.deliver (s.ptnext msgnode) c (s.ptmsg msgnode)) with
    ptfree := msgnode
    ptnext := Function.update s.ptnext msgnode s.ptfree }

/-- The rest of a call after its `wait`, with its result.  Without a free node
the kernel panics. -/
def finish (c : Caller) : Option (PortTable × Word) :=
  let e := s.porttab portid
  if e.ptstate ≠ .alloc ∨ e.ptseq ≠ c.seq then some (s, SYSERR)
  else
    match c.msg with
    | some msg =>
        if s.ptfree = 0 then none else some (s.enqueue portid msg, OK)
    | none => some (s.dequeue portid c, s.ptmsg e.pthead)

/-- A process runs on after its `wait`. -/
def goOn (c : Caller) : Option PortTable :=
  ((s.modify portid (·.leave c)).finish portid c).map Prod.fst

/-- A call up to its `wait`, and to its end if it does not block. -/
def call (pid portid : ℤ) (msg : Option Word) : Option PortTable :=
  if portid < 0 ∨ portid ≥ NPORTS then some s
  else
    let e := s.porttab portid.toNat
    if e.ptstate ≠ .alloc then some s
    else
      let c : Caller := ⟨pid, e.ptseq, e.seqno, msg⟩
      let s := s.modify portid.toNat (·.wait c)
      if (e.sem msg).count - 1 < 0 then some s else s.goOn portid.toNat c

def ptsend (pid portid : ℤ) (msg : Word) : Option PortTable :=
  s.call pid portid (some msg)

def ptrecv (pid portid : ℤ) : Option PortTable := s.call pid portid none

def ptcount (portid : ℤ) : ℤ :=
  if portid < 0 ∨ portid ≥ NPORTS then -1
  else
    let e := s.porttab portid.toNat
    if e.ptstate ≠ .alloc then -1
    else
      let count := e.ptrsem.count
      if count ≥ 0 ∧ e.ptssem.count < 0 then count + -e.ptssem.count else count

/-! ## ptclear.c, ptreset.c and ptdelete.c -/

/-- `_ptclear` up to its first call that may give the processor away. -/
def clear (portid : ℤ) (reset : Bool) : PortTable :=
  if portid < 0 ∨ portid ≥ NPORTS then s
  else
    let id := portid.toNat
    let walk := (s.porttab id).pthead
    if (s.porttab id).ptstate ≠ .alloc then s
    else if walk = 0 then s.modify id fun e => e.startClear.clearSenders reset
    else s.modify id fun e => e.startClear.callDispose reset walk (s.ptmsg walk)

def ptreset (portid : ℤ) : PortTable := s.clear portid true

def ptdelete (portid : ℤ) : PortTable := s.clear portid false

/-- The whole list of messages is linked into the free list. -/
def freeMessages : PortTable :=
  { s with
    ptnext := Function.update s.ptnext (s.porttab portid).pttail s.ptfree
    ptfree := (s.porttab portid).pthead }

/-- `_ptclear` runs on, up to the next such call or to its end. -/
def proceed : Option PortTable :=
  match (s.porttab portid).ptstate with
  | .limbo reset (.dispose walk) =>
      let walk := s.ptnext walk
      if walk = 0 then
        some ((s.freeMessages portid).modify portid (·.clearSenders reset))
      else some (s.modify portid (·.callDispose reset walk (s.ptmsg walk)))
  | .limbo reset .senders => some (s.modify portid (·.clearReceivers reset))
  | .limbo reset .receivers =>
      let s := s.modify portid fun e =>
        { e with ptstate := if reset then .alloc else .free }
      some { s with ptnextid := if reset then s.ptnextid else portid }
  | _ => none

/-- The process is waiting or ready in a call on a port. -/
def Inside (pid : ℤ) : Prop :=
  ∃ portid < NPORTS, ∃ c ∈ (s.porttab portid).inside, c.pid = pid

instance (pid : ℤ) : Decidable (s.Inside pid) := by
  unfold Inside
  infer_instance

end PortTable

inductive PortAction
  | ptcreate (count : ℤ)
  | ptsend (pid portid : ℤ) (msg : Word)
  | ptrecv (pid portid : ℤ)
  | ptcount (portid : ℤ)
  | ptreset (portid : ℤ)
  | ptdelete (portid : ℤ)
  /-- A process that is ready in `ptsend` or `ptrecv` runs again. -/
  | resume (portid : ℕ) (c : Caller)
  /-- The process that clears the port runs again. -/
  | proceed (portid : ℕ)
  | kill (portid : ℕ) (c : Caller)

def portStep (s : PortTable) : PortAction → Option PortTable
  | .ptcreate count => some (s.ptcreate count)
  | .ptsend pid portid msg =>
      if s.Inside pid then none else s.ptsend pid portid msg
  | .ptrecv pid portid => if s.Inside pid then none else s.ptrecv pid portid
  | .ptcount _ => some s
  | .ptreset portid => some (s.ptreset portid)
  | .ptdelete portid => some (s.ptdelete portid)
  | .resume portid c =>
      if portid < NPORTS ∧ (s.porttab portid).isReady c then s.goOn portid c
      else none
  | .proceed portid => if portid < NPORTS then s.proceed portid else none
  | .kill portid c =>
      if portid < NPORTS then some (s.modify portid (·.kill c)) else none

/-! ## What ports should keep -/

/-- The nodes of a port, and those among them whose messages are still queued. -/
inductive Pending : PtState → List ℕ → List ℕ → Prop
  | free : Pending .free [] []
  | alloc (queue : List ℕ) : Pending .alloc queue queue
  | dispose (reset : Bool) (pre : List ℕ) (walk : ℕ) (post : List ℕ) :
      Pending (.limbo reset (.dispose walk)) (pre ++ walk :: post) post
  | senders (reset : Bool) : Pending (.limbo reset .senders) [] []
  | receivers (reset : Bool) : Pending (.limbo reset .receivers) [] []

/-- In these states the pointers of a port describe its list. -/
def PtState.Listed : PtState → Prop
  | .free => False
  | .alloc => True
  | .limbo _ (.dispose _) => True
  | .limbo reset _ => reset = true

/-- Every message was taken out in the order of sending, by a receiver of the
same epoch, or was disposed of afterwards, or is one of `queued`. -/
structure Epoch.Accounts (epoch : Epoch) (queued : List Word) : Prop where
  messages : epoch.accepted =
    epoch.returned.map Prod.snd ++ epoch.disposed ++ queued
  receivers : ∀ r ∈ epoch.returned, r.1.epoch = epoch.number

/-- A port with the nodes `queue`. -/
structure PortLaw (ptnext : ℕ → ℕ) (ptmsg : ℕ → Word) (e : Ptentry)
    (queue : List ℕ) : Prop where
  listed : e.ptstate.Listed → LinkedTable.Chain 0 ptnext e.pthead queue ∧
    e.pttail = queue.getLast?.getD 0
  messages : ∃ rest, Pending e.ptstate queue rest ∧
    e.epoch.Accounts (rest.map ptmsg)
  past : ∀ epoch ∈ e.past, epoch.Accounts []
  callers : e.ptstate = .alloc → ∀ c ∈ e.callers, c.epoch = e.epoch.number
  gone : e.ptstate = .free → e.callers = []

def PortAction.NoKill : PortAction → Prop
  | .kill _ _ => False
  | _ => True

instance (action : PortAction) : Decidable action.NoKill := by
  cases action <;> unfold PortAction.NoKill <;> infer_instance

structure PortsLaw (maxmsgs : ℕ) (s : PortTable) : Prop where
  places : ∃ (free : List ℕ) (queue : ℕ → List ℕ),
    LinkedTable.Chain 0 s.ptnext s.ptfree free ∧
      (∀ p < NPORTS, PortLaw s.ptnext s.ptmsg (s.porttab p) (queue p)) ∧
        (free ++ (List.range NPORTS).flatMap queue).Perm
          (List.range' 1 maxmsgs)
  refused : ∀ p < NPORTS, ∀ c ∈ (s.porttab p).released,
    s.finish p c = some (s, SYSERR)
  kept : ∀ action s', portStep s action = some s' → action.NoKill →
    ∀ p < NPORTS, ∀ c ∈ (s.porttab p).inside, action ≠ .resume p c →
      c ∈ (s'.porttab p).inside

/-- The port whose sequence number a call advances. -/
def advanced (s : PortTable) : PortAction → Option ℕ
  | .ptcreate count =>
      if count < 0 then none else (s.findPort NPORTS s.ptnextid).2
  | .ptreset portid | .ptdelete portid =>
      if portid < 0 ∨ portid ≥ NPORTS ∨
          (s.porttab portid.toNat).ptstate ≠ .alloc then none
      else some portid.toNat
  | _ => none

/-- No released process still remembers the number that comes next. -/
def FreshNumber (s : PortTable) (action : PortAction) : Prop :=
  ∀ p ∈ advanced s action, ∀ c ∈ (s.porttab p).released,
    c.seq ≠ (s.porttab p).ptseq + 1

instance (s : PortTable) (action : PortAction) :
    Decidable (FreshNumber s action) := by
  unfold FreshNumber
  infer_instance

/-- A victim has not been let through to take a message. -/
def KeepsMessage (s : PortTable) : PortAction → Prop
  | .kill portid c => c ∉ (s.porttab portid).ptrsem.passed
  | _ => True

instance (s : PortTable) (action : PortAction) :
    Decidable (KeepsMessage s action) := by
  cases action <;> unfold KeepsMessage <;> infer_instance

/-! ## The invariant of a port -/

def Vacant (sem : CountingSemaphore Caller) : Prop :=
  sem.waiting = [] ∧ sem.passed = []

/-- What a clearing has emptied so far. -/
def Emptied (ptssem ptrsem : CountingSemaphore Caller) : PtState → Prop
  | .free => Vacant ptssem ∧ Vacant ptrsem
  | .alloc => True
  | .limbo _ (.dispose _) => ptssem.passed = [] ∧ ptrsem.passed = []
  | .limbo _ .senders => Vacant ptssem ∧ ptrsem.passed = []
  | .limbo reset .receivers => Vacant ptssem ∧ Vacant ptrsem ∧
      (reset = true → ptrsem.count = 0)

/-- The invariant except for the count of the messages. -/
structure PortBase (ptnext : ℕ → ℕ) (ptmsg : ℕ → Word) (e : Ptentry)
    (queue : List ℕ) : Prop where
  listed : e.ptstate.Listed → LinkedTable.Chain 0 ptnext e.pthead queue ∧
    e.pttail = queue.getLast?.getD 0
  messages : ∃ rest, Pending e.ptstate queue rest ∧
    e.epoch.Accounts (rest.map ptmsg)
  past : ∀ epoch ∈ e.past, epoch.Accounts []
  ptssem : e.ptssem.Sound
  ptrsem : e.ptrsem.Sound
  maxcnt : 0 ≤ e.ptmaxcnt
  opened : (∀ reset walk, e.ptstate ≠ .limbo reset (.dispose walk)) →
    e.epoch.number = e.seqno ∧ e.epoch.disposed = []
  callers : e.ptstate = .alloc →
    ∀ c ∈ e.callers, c.seq = e.ptseq ∧ c.epoch = e.seqno
  senders : ∀ c ∈ e.ptssem.members, c.msg ≠ none
  released : ∀ c ∈ e.released, c.seq ≠ e.ptseq
  cleared : e.ptstate ≠ .alloc → ∀ c ∈ e.callers, c.seq ≠ e.ptseq
  emptied : Emptied e.ptssem e.ptrsem e.ptstate

structure PortInv (ptnext : ℕ → ℕ) (ptmsg : ℕ → Word) (e : Ptentry)
    (queue : List ℕ) : Prop extends PortBase ptnext ptmsg e queue where
  counted : e.ptstate = .alloc →
    e.ptrsem.count + e.ptrsem.inside = queue.length

section Entry

variable {next next' : ℕ → ℕ} {msg msg' : ℕ → Word} {e : Ptentry}
  {queue rest : List ℕ} {c : Caller} {sem : CountingSemaphore Caller} {x : ℕ}
  {reset : Bool}

theorem Pending.subset {state : PtState} (h : Pending state queue rest) :
    rest ⊆ queue := by
  cases h with
  | dispose reset pre walk post =>
      intro y hy
      simp [hy]
  | _ => exact List.Subset.refl _

theorem PortInv.law (h : PortInv next msg e queue) :
    PortLaw next msg e queue where
  listed := h.listed
  messages := h.messages
  past := h.past
  callers := fun halloc c hc => by
    rw [(h.opened (by simp [halloc])).1]
    exact (h.callers halloc c hc).2
  gone := fun hfree => by
    have hempty := h.emptied
    rw [hfree] at hempty
    obtain ⟨⟨hsw, hsp⟩, hrw, hrp⟩ := hempty
    simp [Ptentry.callers, CountingSemaphore.members, hsw, hsp, hrw, hrp]

theorem PortBase.congr
    (h : PortBase next msg e queue) (hnext : ∀ y ∈ queue, next' y = next y)
    (hmsg : ∀ y ∈ queue, msg' y = msg y) : PortBase next' msg' e queue where
  listed := fun hlisted =>
    ⟨(h.listed hlisted).1.congr hnext, (h.listed hlisted).2⟩
  messages := by
    obtain ⟨rest, hpending, haccounts⟩ := h.messages
    refine ⟨rest, hpending, ?_⟩
    rwa [List.map_congr_left fun y hy => hmsg y (hpending.subset hy)]
  past := h.past
  ptssem := h.ptssem
  ptrsem := h.ptrsem
  maxcnt := h.maxcnt
  opened := h.opened
  callers := h.callers
  senders := h.senders
  released := h.released
  cleared := h.cleared
  emptied := h.emptied

/-- Processes enter and leave the semaphores. -/
theorem PortBase.move
    {a b : CountingSemaphore Caller} {released : List Caller}
    (h : PortBase next msg e queue) (ha : a.Sound) (hb : b.Sound)
    (hin : ∀ c ∈ a.members ++ b.members, c ∈ e.callers ∨
      (e.ptstate = .alloc ∧ c.seq = e.ptseq ∧ c.epoch = e.seqno))
    (hsenders : ∀ c ∈ a.members, c.msg ≠ none)
    (hreleased : released ⊆ e.released)
    (hemptied : Emptied a b e.ptstate) :
    PortBase next msg
      { e with ptssem := a, ptrsem := b, released := released } queue where
  listed := h.listed
  messages := h.messages
  past := h.past
  ptssem := ha
  ptrsem := hb
  maxcnt := h.maxcnt
  opened := h.opened
  callers := fun halloc c hc =>
    (hin c hc).elim (h.callers halloc c) fun hnew => hnew.2
  senders := hsenders
  released := fun c hc => h.released c (hreleased hc)
  cleared := fun hne c hc =>
    (hin c hc).elim (h.cleared hne c) fun hnew => absurd hnew.1 hne
  emptied := hemptied

theorem Vacant.kill (h : Vacant sem) : sem.kill c = sem := by
  obtain ⟨count, waiting, passed⟩ := sem
  obtain ⟨rfl, rfl⟩ := h
  rfl

theorem Vacant.goOn (h : Vacant sem) : sem.goOn c = sem := by
  obtain ⟨count, waiting, passed⟩ := sem
  obtain ⟨-, rfl⟩ := h
  rfl

theorem passed_kill (h : sem.passed = []) : (sem.kill c).passed = [] := by
  unfold CountingSemaphore.kill
  split_ifs
  · exact h
  · simp [h]

theorem passed_goOn (h : sem.passed = []) : (sem.goOn c).passed = [] := by
  simp [CountingSemaphore.goOn, h]

/-- What is empty stays so while the semaphores keep it. -/
theorem Emptied.move
    {ssem rsem a b : CountingSemaphore Caller} {state : PtState}
    (h : Emptied ssem rsem state) (hsv : Vacant ssem → a = ssem)
    (hsp : ssem.passed = [] → a.passed = []) (hrv : Vacant rsem → b = rsem)
    (hrp : rsem.passed = [] → b.passed = []) : Emptied a b state := by
  match state with
  | .free =>
      rw [hsv h.1, hrv h.2]
      exact h
  | .alloc => trivial
  | .limbo _ (.dispose _) => exact ⟨hsp h.1, hrp h.2⟩
  | .limbo _ .senders =>
      rw [hsv h.1]
      exact ⟨h.1, hrp h.2⟩
  | .limbo _ .receivers =>
      rw [hsv h.1, hrv h.2.1]
      exact h

theorem PortBase.wait
    (h : PortBase next msg e queue) (halloc : e.ptstate = .alloc)
    (hseq : c.seq = e.ptseq) (hepoch : c.epoch = e.seqno) :
    PortBase next msg (e.wait c) queue := by
  have hempty : ∀ a b, Emptied a b e.ptstate := by
    intro a b
    rw [halloc]
    trivial
  unfold Ptentry.wait
  split
  next m hm =>
    refine h.move h.ptssem.wait h.ptrsem ?_ ?_ (List.Subset.refl _)
      (hempty _ _)
    · intro d hd
      rcases List.mem_append.mp hd with hd | hd
      · rcases CountingSemaphore.mem_wait hd with hd | rfl
        · exact Or.inl (List.mem_append_left _ hd)
        · exact Or.inr ⟨halloc, hseq, hepoch⟩
      · exact Or.inl (List.mem_append_right _ hd)
    · intro d hd
      rcases CountingSemaphore.mem_wait hd with hd | rfl
      · exact h.senders d hd
      · simp [hm]
  next hm =>
    refine h.move h.ptssem h.ptrsem.wait ?_ h.senders (List.Subset.refl _)
      (hempty _ _)
    intro d hd
    rcases List.mem_append.mp hd with hd | hd
    · exact Or.inl (List.mem_append_left _ hd)
    · rcases CountingSemaphore.mem_wait hd with hd | rfl
      · exact Or.inl (List.mem_append_right _ hd)
      · exact Or.inr ⟨halloc, hseq, hepoch⟩

@[simp] theorem leave_ptstate : (e.leave c).ptstate = e.ptstate := by
  unfold Ptentry.leave
  split <;> rfl

@[simp] theorem leave_ptseq : (e.leave c).ptseq = e.ptseq := by
  unfold Ptentry.leave
  split <;> rfl

@[simp] theorem leave_pthead : (e.leave c).pthead = e.pthead := by
  unfold Ptentry.leave
  split <;> rfl

theorem PortBase.leave (h : PortBase next msg e queue) :
    PortBase next msg (e.leave c) queue := by
  unfold Ptentry.leave
  split
  · refine h.move h.ptssem.goOn h.ptrsem ?_ ?_ List.erase_subset
      (h.emptied.move Vacant.goOn passed_goOn (fun _ => rfl) id)
    · intro d hd
      rcases List.mem_append.mp hd with hd | hd
      · exact Or.inl (List.mem_append_left _ (CountingSemaphore.mem_goOn hd))
      · exact Or.inl (List.mem_append_right _ hd)
    · exact fun d hd => h.senders d (CountingSemaphore.mem_goOn hd)
  · refine h.move h.ptssem h.ptrsem.goOn ?_ h.senders List.erase_subset
      (h.emptied.move (fun _ => rfl) id Vacant.goOn passed_goOn)
    intro d hd
    rcases List.mem_append.mp hd with hd | hd
    · exact Or.inl (List.mem_append_left _ hd)
    · exact Or.inl (List.mem_append_right _ (CountingSemaphore.mem_goOn hd))

theorem PortInv.kill
    (h : PortInv next msg e queue) (hc : c ∉ e.ptrsem.passed) :
    PortInv next msg (e.kill c) queue where
  toPortBase := by
    refine h.toPortBase.move h.ptssem.kill h.ptrsem.kill ?_ ?_
      List.erase_subset
      (h.emptied.move Vacant.kill passed_kill Vacant.kill passed_kill)
    · intro d hd
      rcases List.mem_append.mp hd with hd | hd
      · exact Or.inl (List.mem_append_left _ (CountingSemaphore.mem_kill hd))
      · exact Or.inl (List.mem_append_right _ (CountingSemaphore.mem_kill hd))
    · exact fun d hd => h.senders d (CountingSemaphore.mem_kill hd)
  counted := fun halloc =>
    (CountingSemaphore.count_inside_kill hc).trans (h.counted halloc)

/-- A caller that is not let through to a message changes no count. -/
theorem PortInv.leave
    (h : PortInv next msg e queue)
    (hc : e.ptstate = .alloc → c.msg = none → c ∉ e.ptrsem.passed) :
    PortInv next msg (e.leave c) queue where
  toPortBase := h.toPortBase.leave
  counted := by
    unfold Ptentry.leave
    split
    · exact h.counted
    next hm =>
      intro halloc
      have hsame : e.ptrsem.goOn c = e.ptrsem := by
        unfold CountingSemaphore.goOn
        rw [List.erase_of_not_mem (hc halloc hm)]
      show (e.ptrsem.goOn c).count + ((e.ptrsem.goOn c).inside : ℤ) = _
      rw [hsame]
      exact h.counted halloc

theorem PortInv.wait
    (h : PortInv next msg e queue) (halloc : e.ptstate = .alloc)
    (hseq : c.seq = e.ptseq) (hepoch : c.epoch = e.seqno) :
    PortInv next msg (e.wait c) queue where
  toPortBase := h.toPortBase.wait halloc hseq hepoch
  counted := by
    have hcounted := h.counted halloc
    unfold Ptentry.wait
    split
    · exact h.counted
    · intro halloc
      simp only [CountingSemaphore.count_wait, CountingSemaphore.inside_wait]
      push_cast
      omega

/-! ## Messages in and out -/

theorem tail_eq_zero_iff (h0 : 0 ∉ queue) :
    queue.getLast?.getD 0 = 0 ↔ queue = [] := by
  cases hlast : queue.getLast? with
  | none => simpa using List.getLast?_eq_none_iff.mp hlast
  | some t =>
      have ht := List.mem_of_getLast? hlast
      have hne : t ≠ 0 := fun heq => h0 (heq ▸ ht)
      have hq : queue ≠ [] := List.ne_nil_of_mem ht
      simp [hne, hq]

/-- A node is linked behind the last one. -/
theorem chain_accept
    (h : LinkedTable.Chain 0 next e.pthead queue)
    (htail : e.pttail = queue.getLast?.getD 0) (h0 : 0 ∉ queue)
    (hx : x ∉ queue) (hnodup : queue.Nodup) :
    LinkedTable.Chain 0
      (if e.pttail = 0 then Function.update next x 0
        else Function.update (Function.update next x 0) e.pttail x)
      (if e.pttail = 0 then x else e.pthead) (queue ++ [x]) := by
  have hzero := tail_eq_zero_iff h0
  rw [← htail] at hzero
  by_cases hempty : queue = []
  · rw [if_pos (hzero.mpr hempty), if_pos (hzero.mpr hempty), hempty]
    exact ⟨rfl, Function.update_self x 0 next⟩
  · rw [if_neg (mt hzero.mp hempty), if_neg (mt hzero.mp hempty)]
    have hlast : e.pttail = queue.getLast hempty := by
      rw [htail, List.getLast?_eq_getLast_of_ne_nil hempty, Option.getD_some]
    have hmem := List.getLast_mem hempty
    have hne : x ≠ queue.getLast hempty := fun heq => hx (heq ▸ hmem)
    refine h.splice hempty ?_ ?_ ⟨rfl, ?_⟩
    · rw [hlast, Function.update_self]
    · intro y hy
      have hlt : y ≠ queue.getLast hempty := by
        rintro rfl
        rw [← List.dropLast_append_getLast hempty] at hnodup
        exact (List.nodup_append.mp hnodup).2.2 _ hy _ (by simp) rfl
      have hyx : y ≠ x := fun heq => hx (heq ▸ List.mem_of_mem_dropLast hy)
      rw [hlast, Function.update_of_ne hlt, Function.update_of_ne hyx]
    · rw [hlast, Function.update_of_ne hne, Function.update_self]
      rfl

theorem PortBase.accept
    {m : Word} (h : PortBase next msg e queue) (halloc : e.ptstate = .alloc)
    (h0 : 0 ∉ queue) (hx : x ∉ queue) (hnodup : queue.Nodup) :
    PortBase
      (if e.pttail = 0 then Function.update next x 0
        else Function.update (Function.update next x 0) e.pttail x)
      (Function.update msg x m) (e.accept x m) (queue ++ [x]) where
  listed := fun _ => by
    obtain ⟨hchain, htail⟩ := h.listed (by rw [halloc]; trivial)
    exact ⟨chain_accept hchain htail h0 hx hnodup, by simp [Ptentry.accept]⟩
  messages := by
    obtain ⟨rest, hpending, hmessages, hreceivers⟩ := h.messages
    rw [halloc] at hpending
    cases hpending
    refine ⟨queue ++ [x], halloc ▸ .alloc _, ?_, hreceivers⟩
    have hkeep : queue.map (Function.update msg x m) = queue.map msg := by
      refine List.map_congr_left fun y hy => Function.update_of_ne ?_ _ _
      rintro rfl
      exact hx hy
    rw [List.map_append, hkeep, List.map_singleton, Function.update_self]
    show e.epoch.accepted ++ [m] = _
    rw [hmessages]
    simp [Ptentry.accept]
  past := h.past
  ptssem := h.ptssem
  ptrsem := h.ptrsem.signal
  maxcnt := h.maxcnt
  opened := h.opened
  callers := fun halloc c hc => by
    apply h.callers halloc c
    rcases List.mem_append.mp hc with hc | hc
    · exact List.mem_append_left _ hc
    · exact List.mem_append_right _ (CountingSemaphore.mem_signal hc)
  senders := h.senders
  released := h.released
  cleared := fun hne => absurd halloc hne
  emptied := by
    show Emptied _ _ e.ptstate
    rw [halloc]
    trivial

theorem PortBase.deliver
    {v : ℕ} (h : PortBase next msg e (x :: rest)) (halloc : e.ptstate = .alloc)
    (h0 : 0 ∉ x :: rest) (hnodup : (x :: rest).Nodup)
    (hepoch : c.epoch = e.seqno) :
    PortBase (Function.update next x v) msg (e.deliver (next x) c (msg x)) rest
    where
  listed := fun _ => by
    obtain ⟨⟨hhead, hchain⟩, htail⟩ := h.listed (by rw [halloc]; trivial)
    have hkeep : ∀ y ∈ rest, Function.update next x v y = next y := by
      refine fun y hy => Function.update_of_ne ?_ _ _
      rintro rfl
      exact (List.nodup_cons.mp hnodup).1 hy
    unfold Ptentry.deliver
    dsimp only
    cases rest with
    | nil =>
        have hsame : e.pthead = e.pttail := by rw [hhead, htail]; rfl
        rw [if_pos hsame, if_pos hsame]
        exact ⟨rfl, rfl⟩
    | cons y rest =>
        have hlast : e.pttail = (y :: rest).getLast?.getD 0 := by
          rw [htail, List.getLast?_cons_cons]
        have hne : e.pthead ≠ e.pttail := by
          rw [hhead, hlast, List.getLast?_eq_getLast_of_ne_nil (by simp),
            Option.getD_some]
          intro heq
          exact (List.nodup_cons.mp hnodup).1 (heq ▸ List.getLast_mem (by simp))
        rw [if_neg hne, if_neg hne]
        exact ⟨hchain.congr hkeep, hlast⟩
  messages := by
    obtain ⟨rest', hpending, hmessages, hreceivers⟩ := h.messages
    obtain ⟨hnumber, hdisposed⟩ := h.opened (by simp [halloc])
    rw [halloc] at hpending
    cases hpending
    refine ⟨rest, halloc ▸ .alloc _, ?_, ?_⟩
    · rw [hdisposed] at hmessages
      simp [Ptentry.deliver, hmessages, hdisposed]
    · intro r hr
      rcases List.mem_append.mp hr with hr | hr
      · exact hreceivers r hr
      · rw [List.mem_singleton.mp hr]
        exact hepoch.trans hnumber.symm
  past := h.past
  ptssem := h.ptssem.signal
  ptrsem := h.ptrsem
  maxcnt := h.maxcnt
  opened := h.opened
  callers := fun halloc c hc => by
    apply h.callers halloc c
    rcases List.mem_append.mp hc with hc | hc
    · exact List.mem_append_left _ (CountingSemaphore.mem_signal hc)
    · exact List.mem_append_right _ hc
  senders := fun c hc => h.senders c (CountingSemaphore.mem_signal hc)
  released := h.released
  cleared := fun hne => absurd halloc hne
  emptied := by
    show Emptied _ _ e.ptstate
    rw [halloc]
    trivial

theorem PortInv.accept
    {m : Word} (h : PortInv next msg e queue) (halloc : e.ptstate = .alloc)
    (h0 : 0 ∉ queue) (hx : x ∉ queue) (hnodup : queue.Nodup) :
    PortInv
      (if e.pttail = 0 then Function.update next x 0
        else Function.update (Function.update next x 0) e.pttail x)
      (Function.update msg x m) (e.accept x m) (queue ++ [x]) where
  toPortBase := h.toPortBase.accept halloc h0 hx hnodup
  counted := fun halloc => by
    have hcounted := h.counted halloc
    show e.ptrsem.signal.count + (e.ptrsem.signal.inside : ℤ) = _
    rw [CountingSemaphore.count_signal, CountingSemaphore.inside_signal,
      List.length_append, List.length_singleton]
    push_cast
    omega

/-- A receiver that has been let through finds a message. -/
theorem PortInv.exists_message
    (h : PortInv next msg e queue) (halloc : e.ptstate = .alloc)
    (hc : c ∈ e.ptrsem.passed) : ∃ x rest, queue = x :: rest := by
  have hcounted := h.counted halloc
  have hinside := h.ptrsem.count_inside
  have hpos := List.length_pos_of_mem hc
  refine List.exists_cons_of_length_pos ?_
  omega

theorem PortInv.leave_deliver
    {v : ℕ} (h : PortInv next msg e (x :: rest)) (halloc : e.ptstate = .alloc)
    (hc : c ∈ e.ptrsem.passed) (hm : c.msg = none) (h0 : 0 ∉ x :: rest)
    (hnodup : (x :: rest).Nodup) :
    PortInv (Function.update next x v) msg
      ((e.leave c).deliver (next x) c (msg x)) rest := by
  have hepoch : c.epoch = e.seqno := by
    refine (h.callers halloc c ?_).2
    exact List.mem_append_right _ (List.mem_append_right _ hc)
  have hbase := (h.toPortBase.leave (c := c)).deliver (c := c) (v := v)
  have hleave : e.leave c = { e with
      ptrsem := e.ptrsem.goOn c
      released := e.released.erase c } := by
    unfold Ptentry.leave
    rw [hm]
  refine ⟨hbase ?_ h0 hnodup ?_, ?_⟩
  · rw [hleave]
    exact halloc
  · rw [hleave]
    exact hepoch
  · intro _
    have hcounted := h.counted halloc
    have hgone := CountingSemaphore.inside_goOn hc
    rw [hleave]
    show e.ptrsem.count + ((e.ptrsem.goOn c).inside : ℤ) = rest.length
    rw [List.length_cons] at hcounted
    push_cast at hcounted
    omega

/-! ## Clearing -/

/-- A port that nobody can use any more. -/
structure Closing (e : Ptentry) : Prop where
  past : ∀ epoch ∈ e.past, epoch.Accounts []
  ptssem : e.ptssem.Sound
  ptrsem : e.ptrsem.Sound
  maxcnt : 0 ≤ e.ptmaxcnt
  senders : ∀ c ∈ e.ptssem.members, c.msg ≠ none
  stale : ∀ c ∈ e.callers ++ e.released, c.seq ≠ e.ptseq
  passed : e.ptssem.passed = [] ∧ e.ptrsem.passed = []

theorem next_ne (word : Word) : word ≠ word + 1 := by bv_omega

theorem PortBase.startClear
    (h : PortBase next msg e queue) (halloc : e.ptstate = .alloc)
    (hfresh : ∀ c ∈ e.released, c.seq ≠ e.ptseq + 1) :
    Closing e.startClear where
  past := h.past
  ptssem := h.ptssem
  ptrsem := h.ptrsem
  maxcnt := h.maxcnt
  senders := fun c hc => by
    apply h.senders c
    simp only [Ptentry.startClear, CountingSemaphore.members, List.mem_append,
      List.not_mem_nil, or_false] at hc ⊢
    exact Or.inl hc
  stale := fun c hc => by
    have hcallers : c ∈ e.callers → c.seq ≠ e.ptseq + 1 := fun hin => by
      rw [(h.callers halloc c hin).1]
      exact next_ne _
    simp only [Ptentry.startClear, Ptentry.callers, CountingSemaphore.members,
      List.mem_append, List.not_mem_nil, or_false] at hc hcallers ⊢
    rcases hc with hc | hc | hc
    · exact hcallers (by tauto)
    · exact hfresh c hc
    · exact hcallers (by tauto)
  passed := ⟨rfl, rfl⟩

theorem PortBase.closing
    {walk : ℕ} (h : PortBase next msg e queue)
    (hstate : e.ptstate = .limbo reset (.dispose walk)) : Closing e where
  past := h.past
  ptssem := h.ptssem
  ptrsem := h.ptrsem
  maxcnt := h.maxcnt
  senders := h.senders
  stale := fun c hc => (List.mem_append.mp hc).elim
    (h.cleared (by simp [hstate]) c) (h.released c)
  passed := by
    have hemptied := h.emptied
    rwa [hstate] at hemptied

theorem Closing.callDispose
    {pre post : List ℕ} (h : Closing e)
    (hchain : LinkedTable.Chain 0 next e.pthead (pre ++ x :: post))
    (htail : e.pttail = (pre ++ x :: post).getLast?.getD 0)
    (haccounts : e.epoch.Accounts ((x :: post).map msg)) :
    PortInv next msg (e.callDispose reset x (msg x)) (pre ++ x :: post) where
  listed := fun _ => ⟨hchain, htail⟩
  messages := by
    refine ⟨post, .dispose reset pre x post, ?_, haccounts.receivers⟩
    rw [show (e.callDispose reset x (msg x)).epoch.accepted = _ from
      haccounts.messages]
    simp [Ptentry.callDispose]
  past := h.past
  ptssem := h.ptssem
  ptrsem := h.ptrsem
  maxcnt := h.maxcnt
  opened := fun hne => absurd rfl (hne reset x)
  callers := fun halloc => by simp [Ptentry.callDispose] at halloc
  senders := h.senders
  released := fun c hc => h.stale c (List.mem_append_right _ hc)
  cleared := fun _ c hc => h.stale c (List.mem_append_left _ hc)
  emptied := h.passed
  counted := fun halloc => by simp [Ptentry.callDispose] at halloc

theorem semreset_vacant
    {count : ℤ} (hcount : 0 ≤ count) (hpassed : sem.passed = []) :
    Vacant (semreset count sem).1 ∧ (semreset count sem).1.Sound ∧
      (semreset count sem).1.count = count ∧
        (semreset count sem).2 = sem.waiting := by
  unfold semreset
  rw [if_neg (by omega)]
  refine ⟨⟨rfl, hpassed⟩, ?_, rfl, rfl⟩
  unfold CountingSemaphore.Sound
  simp only [List.length_nil]
  omega

theorem semdelete_vacant (hsound : sem.Sound) (hpassed : sem.passed = []) :
    Vacant (semdelete sem).1 ∧ (semdelete sem).1.Sound ∧
      (semdelete sem).2 = sem.waiting := by
  unfold CountingSemaphore.Sound at *
  have hlen : sem.waiting.length = (-sem.count).toNat := by omega
  have hdrop : sem.waiting.drop (-sem.count).toNat = [] := by
    rw [← hlen, List.drop_length]
  refine ⟨⟨hdrop, hpassed⟩, ?_, ?_⟩
  · unfold semdelete
    simp only [hdrop, List.length_nil]
    omega
  · unfold semdelete
    simp only [← hlen, List.take_length]

theorem cleared_vacant
    {count : ℤ} (hcount : 0 ≤ count) (hsound : sem.Sound)
    (hpassed : sem.passed = []) {out : CountingSemaphore Caller × List Caller}
    (hout : (if reset then semreset count sem else semdelete sem) = out) :
    Vacant out.1 ∧ out.1.Sound ∧ out.2 = sem.waiting ∧
      (reset = true → out.1.count = count) := by
  subst hout
  cases reset with
  | true =>
      obtain ⟨hvacant, hsound', hzero, hout⟩ := semreset_vacant hcount hpassed
      exact ⟨hvacant, hsound', hout, fun _ => hzero⟩
  | false =>
      obtain ⟨hvacant, hsound', hout⟩ := semdelete_vacant hsound hpassed
      exact ⟨hvacant, hsound', hout, fun hreset => by simp at hreset⟩

theorem Vacant.members (h : Vacant sem) : sem.members = [] := by
  unfold CountingSemaphore.members
  rw [h.1, h.2, List.append_nil]

theorem Closing.clearSenders
    (h : Closing e) (haccounts : e.epoch.Accounts []) :
    PortInv next msg (e.clearSenders reset) [] := by
  unfold Ptentry.clearSenders
  generalize hout : (if reset then semreset e.ptmaxcnt e.ptssem
    else semdelete e.ptssem) = out
  obtain ⟨hvacant, hsound, hwaiting, -⟩ :=
    cleared_vacant h.maxcnt h.ptssem h.passed.1 hout
  have hcallers : ∀ c ∈ out.1.members ++ e.ptrsem.members, c ∈ e.callers := by
    intro c hc
    rw [hvacant.members] at hc
    exact List.mem_append_right _ hc
  have hwait : ∀ c ∈ out.2, c ∈ e.callers := by
    intro c hc
    rw [hwaiting] at hc
    exact List.mem_append_left _ (List.mem_append_left _ hc)
  refine ⟨⟨?_, ?_, ?_, hsound, h.ptrsem, h.maxcnt, fun _ => ⟨rfl, rfl⟩,
    fun halloc => by simp at halloc, ?_, ?_, ?_, hvacant, h.passed.2⟩,
    fun halloc => by simp at halloc⟩
  · intro hreset
    replace hreset : reset = true := hreset
    subst hreset
    exact ⟨rfl, rfl⟩
  · exact ⟨[], .senders reset, rfl, fun r hr => by simp at hr⟩
  · intro epoch hepoch
    rcases List.mem_cons.mp hepoch with rfl | hepoch
    · exact haccounts
    · exact h.past epoch hepoch
  · intro c hc
    rw [hvacant.members] at hc
    simp at hc
  · intro c hc
    rcases List.mem_append.mp hc with hc | hc
    · exact h.stale c (List.mem_append_right _ hc)
    · exact h.stale c (List.mem_append_left _ (hwait c hc))
  · exact fun _ c hc => h.stale c (List.mem_append_left _ (hcallers c hc))

theorem Pending.queue_nil
    {stage : Stage} (h : Pending (.limbo reset stage) queue rest)
    (hstage : ∀ walk, stage ≠ .dispose walk) : queue = [] ∧ rest = [] := by
  cases h with
  | dispose _ pre walk post => exact absurd rfl (hstage walk)
  | _ => exact ⟨rfl, rfl⟩

theorem PortBase.clearReceivers
    (h : PortBase next msg e queue) (hstate : e.ptstate = .limbo reset .senders) :
    PortInv next msg (e.clearReceivers reset) queue := by
  obtain ⟨rest, hpending, haccounts⟩ := h.messages
  rw [hstate] at hpending
  obtain ⟨rfl, rfl⟩ := hpending.queue_nil (by simp)
  have hemptied := h.emptied
  rw [hstate] at hemptied
  unfold Ptentry.clearReceivers
  generalize hout : (if reset then semreset 0 e.ptrsem
    else semdelete e.ptrsem) = out
  obtain ⟨hvacant, hsound, hwaiting, hzero⟩ :=
    cleared_vacant le_rfl h.ptrsem hemptied.2 hout
  have hcleared := h.cleared (by simp [hstate])
  have hwait : ∀ c ∈ out.2, c ∈ e.callers := by
    intro c hc
    rw [hwaiting] at hc
    exact List.mem_append_right _ (List.mem_append_left _ hc)
  refine ⟨⟨fun hreset => h.listed (hstate ▸ hreset),
    ⟨[], .receivers reset, haccounts⟩, h.past, h.ptssem, hsound, h.maxcnt,
    fun _ => h.opened (by simp [hstate]), fun halloc => by simp at halloc,
    h.senders, ?_, ?_, hemptied.1, hvacant, hzero⟩,
    fun halloc => by simp at halloc⟩
  · intro c hc
    rcases List.mem_append.mp hc with hc | hc
    · exact h.released c hc
    · exact hcleared c (hwait c hc)
  · intro _ c hc
    rw [Ptentry.callers, hvacant.members, List.append_nil] at hc
    exact hcleared c (List.mem_append_left _ hc)

theorem PortBase.endClear
    (h : PortBase next msg e queue)
    (hstate : e.ptstate = .limbo reset .receivers) :
    PortInv next msg
      { e with ptstate := if reset then .alloc else .free } queue := by
  obtain ⟨rest, hpending, haccounts⟩ := h.messages
  rw [hstate] at hpending
  obtain ⟨rfl, rfl⟩ := hpending.queue_nil (by simp)
  have hemptied := h.emptied
  rw [hstate] at hemptied
  obtain ⟨hssem, hrsem, hzero⟩ := hemptied
  have hnobody : e.callers = [] := by
    rw [Ptentry.callers, hssem.members, hrsem.members, List.append_nil]
  have hopened := h.opened (by simp [hstate])
  cases reset with
  | true =>
      refine ⟨⟨fun _ => h.listed (by rw [hstate]; rfl),
        ⟨[], .alloc [], haccounts⟩, h.past, h.ptssem, h.ptrsem, h.maxcnt,
        fun _ => hopened, fun _ c hc => ?_, h.senders, h.released,
        fun hne => absurd rfl hne, trivial⟩, fun _ => ?_⟩
      · replace hc : c ∈ e.callers := hc
        simp [hnobody] at hc
      · show e.ptrsem.count + (e.ptrsem.inside : ℤ) = 0
        rw [hzero rfl, CountingSemaphore.inside, hrsem.1, hrsem.2]
        rfl
  | false =>
      exact ⟨⟨fun hlisted => hlisted.elim, ⟨[], .free, haccounts⟩, h.past,
        h.ptssem, h.ptrsem, h.maxcnt, fun _ => hopened,
        fun halloc => by simp at halloc, h.senders, h.released,
        fun _ => h.cleared (by simp [hstate]), hssem, hrsem⟩,
        fun halloc => by simp at halloc⟩

theorem PortBase.create
    {count : ℤ} (h : PortBase next msg e queue) (hfree : e.ptstate = .free)
    (hcount : 0 ≤ count) (hfresh : ∀ c ∈ e.released, c.seq ≠ e.ptseq + 1) :
    PortInv next msg (e.create count) queue := by
  obtain ⟨rest, hpending, -⟩ := h.messages
  rw [hfree] at hpending
  cases hpending
  exact ⟨⟨fun _ => ⟨rfl, rfl⟩,
    ⟨[], .alloc [], rfl, fun r hr => by simp [Ptentry.create] at hr⟩, h.past,
    .init hcount, .init le_rfl, Int.emod_nonneg _ (by omega),
    fun _ => ⟨rfl, rfl⟩,
    fun _ c hc => by simp [Ptentry.create, Ptentry.callers,
      CountingSemaphore.members, CountingSemaphore.init] at hc,
    fun c hc => by simp [Ptentry.create, CountingSemaphore.members,
      CountingSemaphore.init] at hc,
    hfresh, fun hne => absurd rfl hne, trivial⟩, fun _ => rfl⟩

/-! ## Who is inside -/

theorem mem_inside :
    c ∈ e.inside ↔ c ∈ e.ptssem.members ∨ c ∈ e.ptrsem.members ∨
      c ∈ e.released := by
  unfold Ptentry.inside Ptentry.callers
  rw [List.mem_append, List.mem_append, or_assoc]

variable {d : Caller}

theorem inside_wait (hc : c ∈ e.inside) : c ∈ (e.wait d).inside := by
  rw [mem_inside] at *
  unfold Ptentry.wait
  split
  · exact hc.imp_left CountingSemaphore.mem_wait_of_mem
  · exact hc.imp_right (Or.imp_left CountingSemaphore.mem_wait_of_mem)

theorem inside_leave (hne : c ≠ d) (hc : c ∈ e.inside) :
    c ∈ (e.leave d).inside := by
  rw [mem_inside] at *
  unfold Ptentry.leave
  have herase := (List.mem_erase_of_ne (l := e.released) hne).mpr
  split
  · exact hc.imp (CountingSemaphore.mem_goOn_of_ne hne) (Or.imp_right herase)
  · exact hc.imp_right (Or.imp (CountingSemaphore.mem_goOn_of_ne hne) herase)

theorem inside_accept {m : Word} (hc : c ∈ e.inside) :
    c ∈ (e.accept x m).inside := by
  rw [mem_inside] at *
  exact hc.imp_right (Or.imp_left CountingSemaphore.mem_signal_of_mem)

theorem inside_deliver {m : Word} (hc : c ∈ e.inside) :
    c ∈ (e.deliver x d m).inside := by
  rw [mem_inside] at *
  exact hc.imp_left CountingSemaphore.mem_signal_of_mem

theorem inside_startClear (hc : c ∈ e.inside) : c ∈ e.startClear.inside := by
  simp only [mem_inside, Ptentry.startClear, CountingSemaphore.members,
    List.mem_append, List.not_mem_nil, or_false] at *
  tauto

/-- Who leaves a semaphore that is cleared is released. -/
theorem mem_cleared {count : ℤ} (hc : c ∈ sem.members)
    {out : CountingSemaphore Caller × List Caller}
    (hout : (if reset then semreset count sem else semdelete sem) = out) :
    c ∈ out.1.members ∨ c ∈ out.2 := by
  subst hout
  unfold CountingSemaphore.members at *
  split_ifs
  · unfold semreset
    split_ifs
    · exact Or.inl hc
    · simpa [or_comm] using hc
  · have hsplit := List.take_append_drop (-sem.count).toNat sem.waiting
    rw [← hsplit] at hc
    simp only [semdelete, List.mem_append] at hc ⊢
    tauto

theorem inside_clearSenders (hc : c ∈ e.inside) :
    c ∈ (e.clearSenders reset).inside := by
  unfold Ptentry.clearSenders
  generalize hout : (if reset then semreset e.ptmaxcnt e.ptssem
    else semdelete e.ptssem) = out
  rw [mem_inside] at *
  simp only [List.mem_append]
  rcases hc with hc | hc | hc
  · have hcleared := mem_cleared hc hout
    tauto
  · tauto
  · tauto

theorem inside_clearReceivers (hc : c ∈ e.inside) :
    c ∈ (e.clearReceivers reset).inside := by
  unfold Ptentry.clearReceivers
  generalize hout : (if reset then semreset 0 e.ptrsem
    else semdelete e.ptrsem) = out
  rw [mem_inside] at *
  simp only [List.mem_append]
  rcases hc with hc | hc | hc
  · tauto
  · have hcleared := mem_cleared hc hout
    tauto
  · tauto

theorem PortBase.inside_create
    {count : ℤ} (h : PortBase next msg e queue) (hfree : e.ptstate = .free)
    (hc : c ∈ e.inside) : c ∈ (e.create count).inside := by
  have hempty := h.emptied
  rw [hfree] at hempty
  rw [mem_inside] at *
  rw [hempty.1.members, hempty.2.members] at hc
  simp only [List.not_mem_nil, false_or] at hc
  exact Or.inr (Or.inr hc)

end Entry

/-! ## The invariant of the table -/

structure PortsInv (maxmsgs : ℕ) (s : PortTable) (free : List ℕ)
    (queue : ℕ → List ℕ) : Prop where
  chain : LinkedTable.Chain 0 s.ptnext s.ptfree free
  ports : ∀ p < NPORTS, PortInv s.ptnext s.ptmsg (s.porttab p) (queue p)
  places : (free ++ (List.range NPORTS).flatMap queue).Perm
    (List.range' 1 maxmsgs)
  nextid : s.ptnextid < NPORTS

section Table

variable {maxmsgs p : ℕ} {s s' : PortTable} {free free' : List ℕ}
  {queue : ℕ → List ℕ} {l : List ℕ} {c : Caller} {f : Ptentry → Ptentry}
  {reset : Bool}

/-- One of the lists is taken out of all of them. -/
theorem flatMap_range_split {n : ℕ} (hp : p < n) (l : List ℕ) :
    ((List.range n).flatMap (Function.update queue p l)).Perm
      (l ++ ((List.range n).erase p).flatMap queue) := by
  have hsplit : (List.range n).Perm (p :: (List.range n).erase p) :=
    List.perm_cons_erase (List.mem_range.mpr hp)
  have hnodup := hsplit.nodup_iff.mp List.nodup_range
  have hkeep : ((List.range n).erase p).flatMap (Function.update queue p l) =
      ((List.range n).erase p).flatMap queue := by
    refine List.flatMap_congr fun q hq => Function.update_of_ne ?_ _ _
    rintro rfl
    exact (List.nodup_cons.mp hnodup).1 hq
  refine (hsplit.flatMap_right _).trans ?_
  rw [List.flatMap_cons, Function.update_self, hkeep]

theorem PortsInv.split (h : PortsInv maxmsgs s free queue) (hp : p < NPORTS) :
    (free ++ (queue p ++ ((List.range NPORTS).erase p).flatMap queue)).Perm
      (List.range' 1 maxmsgs) := by
  have hsplit : ((List.range NPORTS).flatMap
      (Function.update queue p (queue p))).Perm
        (queue p ++ ((List.range NPORTS).erase p).flatMap queue) :=
    flatMap_range_split hp (queue p)
  rw [Function.update_eq_self] at hsplit
  exact (hsplit.symm.append_left free).trans h.places

theorem PortsInv.apart (h : PortsInv maxmsgs s free queue) (hp : p < NPORTS) :
    free.Nodup ∧ (queue p).Nodup ∧ (∀ y ∈ free, y ∉ queue p) ∧
      ∀ q < NPORTS, q ≠ p → ∀ y ∈ queue q, y ∉ free ∧ y ∉ queue p := by
  have hnodup := (h.split hp).nodup_iff.mpr List.nodup_range'
  obtain ⟨hfree, hqueues, hcross⟩ := List.nodup_append.mp hnodup
  obtain ⟨hqueue, -, hothers⟩ := List.nodup_append.mp hqueues
  refine ⟨hfree, hqueue, ?_, ?_⟩
  · exact fun y hy hin => hcross y hy y (List.mem_append_left _ hin) rfl
  · intro q hq hne y hy
    have hin : y ∈ ((List.range NPORTS).erase p).flatMap queue :=
      List.mem_flatMap.mpr
        ⟨q, (List.mem_erase_of_ne hne).mpr (List.mem_range.mpr hq), hy⟩
    exact ⟨fun hin' => hcross y hin' y (List.mem_append_right _ hin) rfl,
      fun hin' => hothers y hin' y hin rfl⟩

theorem PortsInv.zero_not_mem
    (h : PortsInv maxmsgs s free queue) (hp : p < NPORTS) :
    0 ∉ free ∧ 0 ∉ queue p := by
  have hzero : 0 ∉ List.range' 1 maxmsgs := by simp
  rw [← (h.split hp).mem_iff] at hzero
  simp only [List.mem_append] at hzero
  tauto

/-- A step changes one port and moves nodes between it and the free list. -/
theorem PortsInv.replace
    (h : PortsInv maxmsgs s free queue) (hp : p < NPORTS)
    (hfree : LinkedTable.Chain 0 s'.ptnext s'.ptfree free')
    (hport : PortInv s'.ptnext s'.ptmsg (s'.porttab p) l)
    (hothers : ∀ q ≠ p, s'.porttab q = s.porttab q)
    (hkeep : ∀ y, y ∉ free → y ∉ queue p →
      s'.ptnext y = s.ptnext y ∧ s'.ptmsg y = s.ptmsg y)
    (hperm : (free' ++ l).Perm (free ++ queue p))
    (hnextid : s'.ptnextid < NPORTS) :
    PortsInv maxmsgs s' free' (Function.update queue p l) where
  chain := hfree
  ports := fun q hq => by
    by_cases heq : q = p
    · subst heq
      rwa [Function.update_self]
    · rw [Function.update_of_ne heq, hothers q heq]
      have hout := (h.apart hp).2.2.2 q hq heq
      have hold := h.ports q hq
      exact ⟨hold.toPortBase.congr
        (fun y hy => (hkeep y (hout y hy).1 (hout y hy).2).1)
        (fun y hy => (hkeep y (hout y hy).1 (hout y hy).2).2), hold.counted⟩
  places := by
    refine ((flatMap_range_split hp l).append_left free').trans ?_
    rw [← List.append_assoc]
    refine (hperm.append_right _).trans ?_
    rw [List.append_assoc]
    exact h.split hp
  nextid := hnextid

@[simp] theorem modify_porttab_self :
    (s.modify p f).porttab p = f (s.porttab p) :=
  Function.update_self _ _ _

theorem modify_porttab_of_ne {q : ℕ} (hq : q ≠ p) :
    (s.modify p f).porttab q = s.porttab q :=
  Function.update_of_ne hq _ _

theorem PortsInv.modify
    (h : PortsInv maxmsgs s free queue) (hp : p < NPORTS)
    (hport : PortInv s.ptnext s.ptmsg (f (s.porttab p)) (queue p)) :
    PortsInv maxmsgs (s.modify p f) free queue := by
  rw [← modify_porttab_self (f := f)] at hport
  have hinv : PortsInv maxmsgs (s.modify p f) free
      (Function.update queue p (queue p)) :=
    h.replace hp h.chain hport (fun q hq => modify_porttab_of_ne hq)
      (fun _ _ _ => ⟨rfl, rfl⟩) (List.Perm.refl _) h.nextid
  rwa [Function.update_eq_self] at hinv

/-- A message goes from a call to the port. -/
theorem PortsInv.enqueue
    {m : Word} (h : PortsInv maxmsgs s free queue) (hp : p < NPORTS)
    (halloc : (s.porttab p).ptstate = .alloc) (hfree : s.ptfree ≠ 0) :
    ∃ free queue, PortsInv maxmsgs (s.enqueue p m) free queue := by
  obtain ⟨hfreenodup, hnodup, hout, hothers⟩ := h.apart hp
  obtain ⟨hzfree, hzero⟩ := h.zero_not_mem hp
  have hinv := h.ports p hp
  have htail := (hinv.listed (by rw [halloc]; trivial)).2
  cases free with
  | nil => exact absurd h.chain hfree
  | cons x rest =>
      obtain ⟨hx, hrest⟩ := h.chain
      rw [List.nodup_cons] at hfreenodup
      have htailin : (s.porttab p).pttail ≠ 0 →
          (s.porttab p).pttail ∈ queue p := by
        intro hne
        rw [htail] at hne ⊢
        cases hlast : (queue p).getLast? with
        | none => simp [hlast] at hne
        | some t => exact List.mem_of_getLast? hlast
      have hkeep : ∀ y, y ≠ x → y ∉ queue p →
          (s.enqueue p m).ptnext y = s.ptnext y := by
        intro y hyx hyq
        unfold PortTable.enqueue
        dsimp only
        rw [hx]
        split_ifs with hnull
        · exact Function.update_of_ne hyx _ _
        · have hyt : y ≠ (s.porttab p).pttail := by
            rintro rfl
            exact hyq (htailin hnull)
          rw [Function.update_of_ne hyt, Function.update_of_ne hyx]
      refine ⟨rest, _, h.replace hp (l := queue p ++ [x]) ?_ ?_ ?_ ?_ ?_
        h.nextid⟩
      · show LinkedTable.Chain 0 (s.enqueue p m).ptnext (s.ptnext s.ptfree) rest
        rw [hx]
        apply hrest.congr
        intro y hy
        apply hkeep
        · rintro rfl
          exact hfreenodup.1 hy
        · exact hout y (by simp [hy])
      · have hnew := hinv.accept (m := m) halloc hzero (hout x (by simp)) hnodup
        unfold PortTable.enqueue
        dsimp only
        rw [hx, modify_porttab_self]
        exact hnew
      · intro q hq
        show (s.modify p (·.accept s.ptfree m)).porttab q = _
        exact modify_porttab_of_ne hq
      · intro y hyf hyq
        have hyx : y ≠ x := fun heq => hyf (by simp [heq])
        refine ⟨hkeep y hyx hyq, ?_⟩
        show Function.update s.ptmsg s.ptfree m y = s.ptmsg y
        rw [hx, Function.update_of_ne hyx]
      · rw [← List.append_assoc]
        refine (List.perm_append_singleton x (rest ++ queue p)).trans ?_
        rw [List.cons_append]

/-- A message goes from the port to a call. -/
theorem PortsInv.dequeue
    (h : PortsInv maxmsgs s free queue) (hp : p < NPORTS)
    (halloc : (s.porttab p).ptstate = .alloc)
    (hc : c ∈ (s.porttab p).ptrsem.passed) (hm : c.msg = none) :
    ∃ free queue,
      PortsInv maxmsgs ((s.modify p (·.leave c)).dequeue p c) free queue := by
  obtain ⟨hfreenodup, hnodup, hout, hothers⟩ := h.apart hp
  obtain ⟨hzfree, hzero⟩ := h.zero_not_mem hp
  have hinv := h.ports p hp
  obtain ⟨x, rest, hqueue⟩ := hinv.exists_message halloc hc
  rw [hqueue] at hinv hnodup hzero
  have hhead : (s.porttab p).pthead = x :=
    (hinv.listed (by rw [halloc]; trivial)).1.1
  have hhead' : ((s.modify p (·.leave c)).porttab p).pthead = x := by
    rw [modify_porttab_self, leave_pthead, hhead]
  have hxf : x ∉ free := fun hin => hout x hin (by rw [hqueue]; simp)
  refine ⟨x :: free, _, h.replace hp (l := rest) ⟨hhead', ?_⟩ ?_ ?_ ?_ ?_
    h.nextid⟩
  · unfold PortTable.dequeue
    dsimp only
    rw [hhead', Function.update_self]
    apply h.chain.congr
    intro y hy
    refine Function.update_of_ne ?_ _ _
    rintro rfl
    exact hxf hy
  · have hnew := hinv.leave_deliver (v := s.ptfree) halloc hc hm hzero hnodup
    unfold PortTable.dequeue
    dsimp only
    rw [hhead', modify_porttab_self, modify_porttab_self]
    exact hnew
  · intro q hq
    unfold PortTable.dequeue
    dsimp only
    rw [modify_porttab_of_ne hq, modify_porttab_of_ne hq]
  · intro y hyf hyq
    refine ⟨?_, rfl⟩
    unfold PortTable.dequeue
    dsimp only
    rw [hhead']
    refine Function.update_of_ne ?_ _ _
    rintro rfl
    exact hyq (by rw [hqueue]; simp)
  · rw [hqueue, List.cons_append]
    exact List.perm_middle.symm

/-- A process runs on after its `wait`. -/
theorem PortsInv.goOn
    (h : PortsInv maxmsgs s free queue) (hp : p < NPORTS)
    (hready : (s.porttab p).isReady c) (hgo : s.goOn p c = some s') :
    ∃ free queue, PortsInv maxmsgs s' free queue := by
  have hinv := h.ports p hp
  unfold PortTable.goOn PortTable.finish at hgo
  dsimp only at hgo
  rw [modify_porttab_self, leave_ptstate, leave_ptseq] at hgo
  by_cases hrefused : (s.porttab p).ptstate ≠ .alloc ∨
      (s.porttab p).ptseq ≠ c.seq
  · rw [if_pos hrefused] at hgo
    cases hgo
    have hleft : PortInv s.ptnext s.ptmsg ((s.porttab p).leave c) (queue p) := by
      refine hinv.leave fun halloc _ hc => ?_
      have hin : c ∈ (s.porttab p).callers :=
        List.mem_append_right _ (List.mem_append_right _ hc)
      have hseq := (hinv.callers halloc c hin).1
      tauto
    have hmoved : PortsInv maxmsgs (s.modify p (·.leave c)) free queue :=
      h.modify hp hleft
    exact ⟨free, queue, hmoved⟩
  · rw [if_neg hrefused] at hgo
    push Not at hrefused
    obtain ⟨halloc, hseq⟩ := hrefused
    cases hm : c.msg with
    | some m =>
        rw [hm] at hgo
        dsimp only at hgo
        split_ifs at hgo with hnull
        · simp at hgo
        · cases hgo
          have hleft := h.modify hp (f := (·.leave c))
            (hinv.leave fun _ hnone => by simp [hm] at hnone)
          exact hleft.enqueue hp (by simpa using halloc) hnull
    | none =>
        rw [hm] at hgo
        cases hgo
        have hc : c ∈ (s.porttab p).ptrsem.passed := by
          rcases hready with hc | hc | hc
          · exact absurd hm (hinv.senders c (List.mem_append_right _ hc))
          · exact hc
          · exact absurd hseq.symm (hinv.released c hc)
        exact h.dequeue hp halloc hc hm

theorem PortsInv.call
    {pid portid : ℤ} {m : Option Word} (h : PortsInv maxmsgs s free queue)
    (hcall : s.call pid portid m = some s') :
    ∃ free queue, PortsInv maxmsgs s' free queue := by
  unfold PortTable.call at hcall
  dsimp only at hcall
  split_ifs at hcall with hbad hstate hcount
  · cases hcall
    exact ⟨free, queue, h⟩
  · cases hcall
    exact ⟨free, queue, h⟩
  all_goals
    have hp : portid.toNat < NPORTS := by omega
    push Not at hstate
    have hwait : PortsInv maxmsgs (s.modify portid.toNat
        (·.wait ⟨pid, (s.porttab portid.toNat).ptseq,
          (s.porttab portid.toNat).seqno, m⟩)) free queue :=
      h.modify hp ((h.ports _ hp).wait hstate rfl rfl)
  · cases hcall
    exact ⟨free, queue, hwait⟩
  · refine hwait.goOn hp ?_ hcall
    rw [modify_porttab_self]
    cases m with
    | some m =>
        left
        simp only [Ptentry.wait, CountingSemaphore.wait]
        simp only [Ptentry.sem] at hcount
        rw [if_neg hcount]
        simp
    | none =>
        right
        left
        simp only [Ptentry.wait, CountingSemaphore.wait]
        simp only [Ptentry.sem] at hcount
        rw [if_neg hcount]
        simp

theorem findPort_spec {n id : ℕ} (hid : id < NPORTS) :
    (s.findPort n id).1 < NPORTS ∧
      ∀ q ∈ (s.findPort n id).2, q < NPORTS ∧ (s.porttab q).ptstate = .free := by
  induction n generalizing id with
  | zero => exact ⟨hid, by simp [PortTable.findPort]⟩
  | succ n ih =>
      have hnext : (if id + 1 ≥ NPORTS then 0 else id + 1) < NPORTS := by
        split_ifs <;> omega
      unfold PortTable.findPort
      dsimp only
      generalize (if id + 1 ≥ NPORTS then 0 else id + 1) = next at hnext ⊢
      split_ifs with hfree
      · refine ⟨hnext, fun q hq => ?_⟩
        rw [Option.mem_some_iff] at hq
        exact hq ▸ ⟨hid, hfree⟩
      · exact ih hnext

theorem PortsInv.ptcreate
    {count : ℤ} (h : PortsInv maxmsgs s free queue)
    (hfresh : FreshNumber s (.ptcreate count)) :
    PortsInv maxmsgs (s.ptcreate count) free queue := by
  unfold PortTable.ptcreate
  split_ifs with hcount
  · exact h
  · have hadvanced : advanced s (.ptcreate count) =
        (s.findPort NPORTS s.ptnextid).2 := if_neg hcount
    unfold FreshNumber at hfresh
    rw [hadvanced] at hfresh
    obtain ⟨hnext, hfound⟩ := findPort_spec (s := s) (n := NPORTS) h.nextid
    split
    next next heq =>
      rw [heq] at hnext
      exact ⟨h.chain, h.ports, h.places, hnext⟩
    next next q heq =>
      rw [heq] at hnext hfound hfresh
      obtain ⟨hq, hfree⟩ := hfound q rfl
      have hnew : PortsInv maxmsgs (s.modify q (·.create count)) free queue :=
        h.modify hq ((h.ports q hq).create hfree (by omega) (hfresh q rfl))
      exact ⟨hnew.chain, hnew.ports, hnew.places, hnext⟩

theorem PortsInv.clear
    {portid : ℤ} (h : PortsInv maxmsgs s free queue)
    (hfresh : ¬ (portid < 0 ∨ portid ≥ NPORTS ∨
        (s.porttab portid.toNat).ptstate ≠ .alloc) →
      ∀ c ∈ (s.porttab portid.toNat).released,
        c.seq ≠ (s.porttab portid.toNat).ptseq + 1) :
    PortsInv maxmsgs (s.clear portid reset) free queue := by
  unfold PortTable.clear
  dsimp only
  by_cases hbad : portid < 0 ∨ portid ≥ NPORTS
  · rwa [if_pos hbad]
  rw [if_neg hbad]
  have hp : portid.toNat < NPORTS := by omega
  have hinv := h.ports _ hp
  obtain ⟨-, hzero⟩ := h.zero_not_mem hp
  by_cases hstate : (s.porttab portid.toNat).ptstate ≠ .alloc
  · rwa [if_pos hstate]
  rw [if_neg hstate]
  push Not at hstate
  have hclosing := hinv.startClear hstate (hfresh (by tauto))
  obtain ⟨hchain, htail⟩ := hinv.listed (by rw [hstate]; trivial)
  obtain ⟨rest, hpending, haccounts⟩ := hinv.messages
  rw [hstate] at hpending
  cases hpending
  cases hqueue : queue portid.toNat with
  | nil =>
      rw [hqueue] at hchain haccounts
      replace hchain : (s.porttab portid.toNat).pthead = 0 := hchain
      rw [if_pos hchain]
      refine h.modify hp ?_
      rw [hqueue]
      exact hclosing.clearSenders haccounts
  | cons x rest =>
      rw [hqueue] at hchain htail haccounts hzero
      have hhead : (s.porttab portid.toNat).pthead = x := hchain.1
      rw [hhead, if_neg fun heq => hzero (by simp [heq])]
      refine h.modify hp ?_
      rw [hqueue]
      exact @Closing.callDispose _ _ _ x reset [] rest hclosing hchain htail
        haccounts

/-- The nodes of a disposed list go to the free list. -/
theorem PortsInv.freeMessages
    {walk : ℕ} (h : PortsInv maxmsgs s free queue) (hp : p < NPORTS)
    (hstate : (s.porttab p).ptstate = .limbo reset (.dispose walk))
    (hlast : s.ptnext walk = 0) :
    ∃ free queue, PortsInv maxmsgs
      ((s.freeMessages p).modify p (·.clearSenders reset)) free queue := by
  obtain ⟨hfreenodup, hnodup, hout, -⟩ := h.apart hp
  obtain ⟨-, hzero⟩ := h.zero_not_mem hp
  have hinv := h.ports p hp
  have hclosing := hinv.closing hstate
  obtain ⟨hchain, htail⟩ := hinv.listed (by rw [hstate]; trivial)
  obtain ⟨rest, hpending, haccounts⟩ := hinv.messages
  rw [hstate] at hpending
  generalize hqueue : queue p = l at *
  cases hpending with
  | dispose _ pre _ _ =>
      have hpost := hchain.drop
      rw [hlast] at hpost
      cases rest with
      | cons y rest =>
          refine absurd ?_ hzero
          rw [hpost.1]
          simp
      | nil =>
          have hne : pre ++ [walk] ≠ [] := by simp
          have htail' : (s.porttab p).pttail = walk := by simp [htail]
          have hnext : ∀ y ≠ walk, (s.freeMessages p).ptnext y = s.ptnext y := by
            intro y hy
            unfold PortTable.freeMessages
            rw [htail']
            exact Function.update_of_ne hy _ _
          have hdistinct : ∀ y ∈ pre, y ≠ walk := fun y hy =>
            (List.nodup_append.mp hnodup).2.2 y hy walk (by simp)
          refine ⟨(pre ++ [walk]) ++ free, _, h.replace hp (l := []) ?_ ?_ ?_ ?_ ?_
            h.nextid⟩
          · refine hchain.splice hne ?_ ?_ (h.chain.congr ?_)
            · rw [List.getLast_append_singleton]
              show Function.update s.ptnext _ _ walk = s.ptfree
              rw [htail', Function.update_self]
            · intro y hy
              rw [List.dropLast_concat] at hy
              exact hnext y (hdistinct y hy)
            · intro y hy
              refine hnext y ?_
              rintro rfl
              exact hout y hy (by simp)
          · rw [modify_porttab_self]
            exact hclosing.clearSenders haccounts
          · exact fun q hq => modify_porttab_of_ne hq
          · intro y _ hyq
            refine ⟨hnext y ?_, rfl⟩
            rintro rfl
            exact hyq (by simp [hqueue])
          · rw [List.append_nil, hqueue]
            exact List.perm_append_comm

theorem PortsInv.proceed
    (h : PortsInv maxmsgs s free queue) (hp : p < NPORTS)
    (hstep : s.proceed p = some s') :
    ∃ free queue, PortsInv maxmsgs s' free queue := by
  have hinv := h.ports p hp
  unfold PortTable.proceed at hstep
  split at hstep
  next reset walk hstate =>
    dsimp only at hstep
    split_ifs at hstep with hlast
    · cases hstep
      exact h.freeMessages hp hstate hlast
    · cases hstep
      have hclosing := hinv.closing hstate
      obtain ⟨hchain, htail⟩ := hinv.listed (by rw [hstate]; trivial)
      obtain ⟨rest, hpending, haccounts⟩ := hinv.messages
      rw [hstate] at hpending
      refine ⟨free, queue, h.modify hp ?_⟩
      generalize queue p = l at *
      cases hpending with
      | dispose _ pre _ _ =>
          have hpost := hchain.drop
          cases rest with
          | nil => exact absurd hpost hlast
          | cons y rest =>
              rw [hpost.1]
              have hsplit : pre ++ walk :: y :: rest =
                  (pre ++ [walk]) ++ y :: rest := by simp
              rw [hsplit] at hchain htail ⊢
              exact hclosing.callDispose hchain htail haccounts
  next reset hstate =>
    cases hstep
    have hnew : PortsInv maxmsgs (s.modify p (·.clearReceivers reset)) free
        queue := h.modify hp (hinv.clearReceivers hstate)
    exact ⟨free, queue, hnew⟩
  next reset hstate =>
    cases hstep
    have hnew : PortsInv maxmsgs (s.modify p fun e =>
        { e with ptstate := if reset then .alloc else .free }) free queue :=
      h.modify hp (hinv.endClear hstate)
    refine ⟨free, queue, hnew.chain, hnew.ports, hnew.places, ?_⟩
    dsimp only
    split_ifs
    · exact h.nextid
    · exact hp
  · simp at hstep

theorem PortsInv.step
    {action : PortAction} (h : PortsInv maxmsgs s free queue)
    (hfresh : FreshNumber s action) (hkeeps : KeepsMessage s action)
    (hstep : portStep s action = some s') :
    ∃ free queue, PortsInv maxmsgs s' free queue := by
  have hclear : ∀ portid : ℤ,
      advanced s action = (if portid < 0 ∨ portid ≥ NPORTS ∨
        (s.porttab portid.toNat).ptstate ≠ .alloc then none
          else some portid.toNat) →
      ∀ reset, PortsInv maxmsgs (s.clear portid reset) free queue := by
    intro portid hadvanced reset
    refine h.clear fun hok => hfresh portid.toNat ?_
    rw [hadvanced, if_neg hok]
    rfl
  cases action with
  | ptcreate count =>
      cases hstep
      exact ⟨free, queue, h.ptcreate hfresh⟩
  | ptsend pid portid m =>
      simp only [portStep] at hstep
      split_ifs at hstep
      exact h.call hstep
  | ptrecv pid portid =>
      simp only [portStep] at hstep
      split_ifs at hstep
      exact h.call hstep
  | ptcount portid =>
      cases hstep
      exact ⟨free, queue, h⟩
  | ptreset portid =>
      cases hstep
      exact ⟨free, queue, hclear portid rfl true⟩
  | ptdelete portid =>
      cases hstep
      exact ⟨free, queue, hclear portid rfl false⟩
  | resume p c =>
      simp only [portStep] at hstep
      split_ifs at hstep with hready
      exact h.goOn hready.1 hready.2 hstep
  | proceed p =>
      simp only [portStep] at hstep
      split_ifs at hstep with hp
      exact h.proceed hp hstep
  | kill p c =>
      simp only [portStep] at hstep
      split_ifs at hstep with hp
      cases hstep
      have hnew : PortsInv maxmsgs (s.modify p (·.kill c)) free queue :=
        h.modify hp ((h.ports p hp).kill hkeeps)
      exact ⟨free, queue, hnew⟩

theorem linkNodes_below
    {n curr y : ℕ} {next : ℕ → ℕ} (hy : y < curr) :
    linkNodes n curr next y = next y := by
  induction n generalizing curr next with
  | zero => exact Function.update_of_ne (by omega) _ _
  | succ n ih =>
      rw [linkNodes, ih (by omega)]
      exact Function.update_of_ne (by omega) _ _

theorem linkNodes_chain {n curr : ℕ} {next : ℕ → ℕ} :
    LinkedTable.Chain 0 (linkNodes n curr next) curr
      (List.range' curr (n + 1)) := by
  induction n generalizing curr next with
  | zero => exact ⟨rfl, Function.update_self curr 0 next⟩
  | succ n ih =>
      refine ⟨rfl, ?_⟩
      rw [linkNodes, linkNodes_below (by omega), Function.update_self]
      exact ih

theorem PortsInv.ptinit (hmax : 0 < maxmsgs) :
    PortsInv maxmsgs (ptinit maxmsgs) (List.range' 1 maxmsgs) fun _ => [] where
  chain := by
    obtain ⟨n, rfl⟩ : ∃ n, maxmsgs = n + 1 := ⟨maxmsgs - 1, by omega⟩
    exact linkNodes_chain
  ports := fun p _ =>
    ⟨⟨fun hlisted => hlisted.elim,
      ⟨[], .free, rfl, by simp [Ports.ptinit, freePort]⟩,
      by simp [Ports.ptinit, freePort], .init le_rfl, .init le_rfl, le_rfl,
      fun _ => ⟨rfl, rfl⟩,
      fun halloc => by simp [Ports.ptinit, freePort] at halloc,
      by simp [Ports.ptinit, freePort, CountingSemaphore.members,
        CountingSemaphore.init],
      by simp [Ports.ptinit, freePort],
      by simp [Ports.ptinit, freePort, Ptentry.callers,
        CountingSemaphore.members, CountingSemaphore.init],
      ⟨rfl, rfl⟩, rfl, rfl⟩,
      fun halloc => by simp [Ports.ptinit, freePort] at halloc⟩
  places := by
    have hnone : (List.range NPORTS).flatMap (fun _ => ([] : List ℕ)) = [] :=
      List.flatMap_eq_nil_iff.mpr fun _ _ => rfl
    rw [hnone, List.append_nil]
  nextid := Nat.zero_lt_succ 29

/-! ## Nobody is lost -/

variable {q : ℕ} {d : Caller}

theorem kept_modify
    (hf : p = q → c ∈ (s.porttab q).inside → c ∈ (f (s.porttab q)).inside)
    (hc : c ∈ (s.porttab q).inside) :
    c ∈ ((s.modify p f).porttab q).inside := by
  by_cases heq : p = q
  · subst heq
    rw [modify_porttab_self]
    exact hf rfl hc
  · rwa [modify_porttab_of_ne (Ne.symm heq)]

theorem kept_goOn
    (hgo : s.goOn p d = some s') (hne : p = q → c ≠ d)
    (hc : c ∈ (s.porttab q).inside) : c ∈ (s'.porttab q).inside := by
  have hleft : c ∈ ((s.modify p (·.leave d)).porttab q).inside :=
    kept_modify (fun heq => inside_leave (hne heq)) hc
  unfold PortTable.goOn PortTable.finish at hgo
  dsimp only at hgo
  rw [Option.map_eq_some_iff] at hgo
  obtain ⟨⟨t, word⟩, hfinish, rfl⟩ := hgo
  split at hfinish
  · cases hfinish
    exact hleft
  · split at hfinish
    next m _ =>
      split_ifs at hfinish
      cases hfinish
      have hin : c ∈ (((s.modify p (·.leave d)).modify p
          (·.accept s.ptfree m)).porttab q).inside :=
        kept_modify (fun _ => inside_accept) hleft
      exact hin
    · cases hfinish
      have hin : ∀ node m, c ∈ (((s.modify p (·.leave d)).modify p
          (·.deliver node d m)).porttab q).inside := fun _ _ =>
        kept_modify (fun _ => inside_deliver) hleft
      exact hin _ _

theorem kept_call
    {pid portid : ℤ} {m : Option Word} (hcall : s.call pid portid m = some s')
    (hpid : ¬ s.Inside pid) (hq : q < NPORTS)
    (hc : c ∈ (s.porttab q).inside) : c ∈ (s'.porttab q).inside := by
  have hother : c.pid ≠ pid := fun heq => hpid ⟨q, hq, c, hc, heq⟩
  unfold PortTable.call at hcall
  dsimp only at hcall
  split_ifs at hcall
  · cases hcall
    exact hc
  · cases hcall
    exact hc
  · cases hcall
    exact kept_modify (fun _ => inside_wait) hc
  · refine kept_goOn hcall (fun _ => ?_) (kept_modify (fun _ => inside_wait) hc)
    rintro rfl
    exact hother rfl

theorem kept_clear {portid : ℤ} (hc : c ∈ (s.porttab q).inside) :
    c ∈ ((s.clear portid reset).porttab q).inside := by
  unfold PortTable.clear
  dsimp only
  split_ifs
  · exact hc
  · exact hc
  · exact kept_modify (fun _ hin => inside_clearSenders (inside_startClear hin)) hc
  · exact kept_modify (fun _ hin => inside_startClear hin) hc

theorem kept_proceed
    (hstep : s.proceed p = some s') (hc : c ∈ (s.porttab q).inside) :
    c ∈ (s'.porttab q).inside := by
  unfold PortTable.proceed at hstep
  split at hstep
  · dsimp only at hstep
    split_ifs at hstep
    · cases hstep
      have hfreed : c ∈ ((s.freeMessages p).porttab q).inside := hc
      exact kept_modify (fun _ => inside_clearSenders) hfreed
    · cases hstep
      exact kept_modify (fun _ hin => hin) hc
  · cases hstep
    exact kept_modify (fun _ => inside_clearReceivers) hc
  next reset _ =>
    cases hstep
    have hended : c ∈ ((s.modify p fun e =>
        { e with ptstate := if reset then .alloc else .free }).porttab q).inside :=
      kept_modify (fun _ hin => hin) hc
    exact hended
  · simp at hstep

theorem PortsInv.kept_ptcreate
    {count : ℤ} (h : PortsInv maxmsgs s free queue) (hq : q < NPORTS)
    (hc : c ∈ (s.porttab q).inside) :
    c ∈ ((s.ptcreate count).porttab q).inside := by
  unfold PortTable.ptcreate
  split_ifs
  · exact hc
  · obtain ⟨-, hfound⟩ := findPort_spec (s := s) (n := NPORTS) h.nextid
    split
    · exact hc
    next next ptnum heq =>
      rw [heq] at hfound
      have hcreated : c ∈ ((s.modify ptnum (·.create count)).porttab q).inside := by
        refine kept_modify (fun hsame => ?_) hc
        subst hsame
        exact (h.ports _ hq).inside_create (hfound _ rfl).2
      exact hcreated

theorem PortsInv.kept
    {action : PortAction} (h : PortsInv maxmsgs s free queue)
    (hstep : portStep s action = some s') (hnokill : action.NoKill)
    (hq : q < NPORTS) (hc : c ∈ (s.porttab q).inside)
    (hne : action ≠ .resume q c) : c ∈ (s'.porttab q).inside := by
  cases action with
  | ptcreate count =>
      cases hstep
      exact h.kept_ptcreate hq hc
  | ptsend pid portid m =>
      simp only [portStep] at hstep
      split_ifs at hstep with hpid
      exact kept_call hstep hpid hq hc
  | ptrecv pid portid =>
      simp only [portStep] at hstep
      split_ifs at hstep with hpid
      exact kept_call hstep hpid hq hc
  | ptcount portid =>
      cases hstep
      exact hc
  | ptreset portid =>
      cases hstep
      exact kept_clear hc
  | ptdelete portid =>
      cases hstep
      exact kept_clear hc
  | resume p d =>
      simp only [portStep] at hstep
      split_ifs at hstep
      refine kept_goOn hstep (fun heq hsame => ?_) hc
      exact hne (by rw [heq, hsame])
  | proceed p =>
      simp only [portStep] at hstep
      split_ifs at hstep
      exact kept_proceed hstep hc
  | kill p d => exact hnokill.elim

theorem PortsInv.law (h : PortsInv maxmsgs s free queue) :
    PortsLaw maxmsgs s where
  places := ⟨free, queue, h.chain, fun p hp => (h.ports p hp).law, h.places⟩
  refused := fun p hp c hc => by
    have hstale := (h.ports p hp).released c hc
    unfold PortTable.finish
    exact if_pos (Or.inr hstale.symm)
  kept := fun _ _ hstep hnokill _ hq _ hc hne => h.kept hstep hnokill hq hc hne

/-- No message is lost, doubled or overtaken, and a process that a reset or a
deletion has released touches nothing, as long as sequence numbers are told
apart. -/
theorem ports_account_for_messages
    (hmax : 0 < maxmsgs)
    (hreach : Reach portStep (fun s action => FreshNumber s action ∧ action.NoKill)
      (ptinit maxmsgs) s) : PortsLaw maxmsgs s := by
  obtain ⟨free, queue, hinv⟩ := hreach.invariant
    (fun s => ∃ free queue, PortsInv maxmsgs s free queue)
    ⟨_, _, PortsInv.ptinit hmax⟩ fun s action s' ⟨_, _, hinv⟩ hallowed hstep => by
      refine hinv.step hallowed.1 ?_ hstep
      cases action with
      | kill p c => exact hallowed.2.elim
      | _ => trivial
  exact hinv.law

end Table

/-- A receiver is let go by a reset while the next message is sent. -/
theorem ports_account_for_messages_reset :
    ∃ s, Reach portStep (fun s action => FreshNumber s action ∧ action.NoKill)
        (ptinit 100) s ∧
      (s.porttab 0).released = [⟨7, 1, 1, none⟩] ∧
        (s.porttab 0).epoch.accepted = [42] ∧ PortsLaw 100 s := by
  have hview : (run (fun s action => if FreshNumber s action ∧ action.NoKill
      then portStep s action else none) (ptinit 100)
      [.ptcreate 1, .ptrecv 7 0, .ptreset 0, .proceed 0, .proceed 0,
        .ptsend 8 0 42]).map
          (fun s => ((s.porttab 0).released, (s.porttab 0).epoch.accepted)) =
      some ([⟨7, 1, 1, none⟩], [42]) := by
    decide
  obtain ⟨s, hrun, hs⟩ := Option.map_eq_some_iff.mp hview
  obtain ⟨hreleased, haccepted⟩ := Prod.mk.inj hs
  have hreach := Reach.run_checked _ .start hrun
  exact ⟨s, hreach, hreleased, haccepted,
    ports_account_for_messages (by decide) hreach⟩

/-! ## A sequence number that comes round -/

/-- A reset released the process while the port was empty. -/
structure Sleeping (c : Caller) (seq : Word) (s : PortTable) : Prop where
  ptstate : (s.porttab 0).ptstate = .alloc
  pthead : (s.porttab 0).pthead = 0
  ptseq : (s.porttab 0).ptseq = seq
  maxcnt : 0 ≤ (s.porttab 0).ptmaxcnt
  senders : Vacant (s.porttab 0).ptssem
  receivers : Vacant (s.porttab 0).ptrsem
  released : (s.porttab 0).released = [c]
  msg : s.ptmsg 0 = 0

theorem Sleeping.reset
    {start s : PortTable} {c : Caller} {seq : Word}
    (hreach : Reach portStep (fun _ action => action.NoKill) start s)
    (h : Sleeping c seq s) :
    ∃ s', Reach portStep (fun _ action => action.NoKill) start s' ∧
      Sleeping c (seq + 1) s' := by
  let s₁ := s.modify 0 fun e => e.startClear.clearSenders true
  let s₂ := s₁.modify 0 (·.clearReceivers true)
  let s₃ := s₂.modify 0 fun e => { e with ptstate := .alloc }
  have hfirst : portStep s (.ptreset 0) = some s₁ := by
    have hclear : s.clear 0 true = s₁ := by
      unfold PortTable.clear
      dsimp only
      rw [if_neg (by decide), Int.toNat_zero, if_neg (by simp [h.ptstate]),
        if_pos h.pthead]
    simp only [portStep, PortTable.ptreset, hclear]
  have hstate₁ : (s₁.porttab 0).ptstate = .limbo true .senders := by
    rw [modify_porttab_self]
    rfl
  have hsecond : portStep s₁ (.proceed 0) = some s₂ := by
    simp only [portStep, if_pos (show 0 < NPORTS by decide), PortTable.proceed,
      hstate₁]
    rfl
  have hstate₂ : (s₂.porttab 0).ptstate = .limbo true .receivers := by
    rw [modify_porttab_self]
    rfl
  have hthird : portStep s₂ (.proceed 0) = some s₃ := by
    simp only [portStep, if_pos (show 0 < NPORTS by decide), PortTable.proceed,
      hstate₂]
    rfl
  have hreset : PortAction.NoKill (.ptreset 0) := trivial
  have hproceed : PortAction.NoKill (.proceed 0) := trivial
  refine ⟨s₃, ((hreach.next _ hreset hfirst).next _ hproceed hsecond).next _
    hproceed hthird, ?_⟩
  have hentry : s₃.porttab 0 =
      { ((s.porttab 0).startClear.clearSenders true).clearReceivers true with
        ptstate := .alloc } := by
    rw [modify_porttab_self, modify_porttab_self, modify_porttab_self]
  have hsenders := semreset_vacant h.maxcnt
    (show ({ (s.porttab 0).ptssem with passed := [] } :
      CountingSemaphore Caller).passed = [] from rfl)
  have hreceivers := semreset_vacant le_rfl
    (show ({ (s.porttab 0).ptrsem with passed := [] } :
      CountingSemaphore Caller).passed = [] from rfl)
  constructor
  · rw [hentry]
  · rw [hentry]
    rfl
  · rw [hentry, ← h.ptseq]
    rfl
  · rw [hentry]
    exact h.maxcnt
  · rw [hentry]
    exact hsenders.1
  · rw [hentry]
    exact hreceivers.1
  · have hsw : (semreset (s.porttab 0).ptmaxcnt
        { (s.porttab 0).ptssem with passed := [] }).2 = [] :=
      hsenders.2.2.2.trans h.senders.1
    have hrw : (semreset 0 { (s.porttab 0).ptrsem with passed := [] }).2 = [] :=
      hreceivers.2.2.2.trans h.receivers.1
    have hall : (s₃.porttab 0).released =
        (s.porttab 0).released ++
          ((s.porttab 0).ptssem.passed ++ (s.porttab 0).ptrsem.passed) ++
            (semreset (s.porttab 0).ptmaxcnt
              { (s.porttab 0).ptssem with passed := [] }).2 ++
              (semreset 0 { (s.porttab 0).ptrsem with passed := [] }).2 := by
      rw [hentry]
      rfl
    rw [hall, hsw, hrw, h.senders.2, h.receivers.2, h.released]
    rfl
  · exact h.msg

theorem Sleeping.resets
    {start s : PortTable} {c : Caller} {seq : Word} (n : ℕ)
    (hreach : Reach portStep (fun _ action => action.NoKill) start s)
    (h : Sleeping c seq s) :
    ∃ s', Reach portStep (fun _ action => action.NoKill) start s' ∧
      Sleeping c (seq + BitVec.ofNat 32 n) s' := by
  induction n with
  | zero => exact ⟨s, hreach, by simpa using h⟩
  | succ n ih =>
      obtain ⟨t, hreach', hsleeping⟩ := ih
      obtain ⟨t', hreach'', hsleeping'⟩ := hsleeping.reset hreach'
      refine ⟨t', hreach'', ?_⟩
      rw [BitVec.ofNat_add, ← BitVec.add_assoc]
      exact hsleeping'

/-- A receiver sleeps through `2 ^ 32` resets of its port and takes it for the
port it knew. -/
theorem ptseq_wraps_around :
    ¬ ∀ s, Reach portStep (fun _ action => action.NoKill) (ptinit 100) s →
      PortsLaw 100 s := by
  intro hlaw
  have hview : (run (fun s action => if action.NoKill then portStep s action
      else none) (ptinit 100)
      [.ptcreate 1, .ptrecv 7 0, .ptreset 0, .proceed 0, .proceed 0]).map
        (fun s => (((s.porttab 0).ptstate, (s.porttab 0).pthead,
          (s.porttab 0).ptseq, (s.porttab 0).ptmaxcnt, s.ptmsg 0),
          (s.porttab 0).callers, (s.porttab 0).released)) =
      some ((.alloc, 0, 2, 1, 0), [], [⟨7, 1, 1, none⟩]) := by
    decide
  obtain ⟨s, hrun, hs⟩ := Option.map_eq_some_iff.mp hview
  have hreach := Reach.run_checked _ .start hrun
  simp only [Prod.mk.injEq, Ptentry.callers, CountingSemaphore.members,
    List.append_eq_nil_iff] at hs
  obtain ⟨⟨hstate, hhead, hseq, hmaxcnt, hmsg⟩, ⟨hs, hr⟩, hreleased⟩ := hs
  have hsleeping : Sleeping ⟨7, 1, 1, none⟩ 2 s :=
    ⟨hstate, hhead, hseq, by rw [hmaxcnt]; decide, hs, hr, hreleased, hmsg⟩
  obtain ⟨s', hreach', h⟩ := hsleeping.resets (2 ^ 32 - 1) hreach
  have hround : (2 : Word) + BitVec.ofNat 32 (2 ^ 32 - 1) = 1 := by decide
  rw [hround] at h
  have hrefused := (hlaw s' hreach').refused 0 (by decide) ⟨7, 1, 1, none⟩
    (by rw [h.released]; simp)
  unfold PortTable.finish at hrefused
  simp [h.ptstate, h.ptseq, h.pthead, h.msg, SYSERR] at hrefused

end Xinu.Ports
