import Xinu.RemoteDisk
import Xinu.RemoteExchange

/-!
# Opening a remote disk

`rdsopen`, and what it has acquired when it fails.  The calls of the kernel
return what the environment decides, so every pattern of shortage and every
sequence of replies is one environment; the machine keeps what is held.
-/

namespace Xinu.RemoteDiskOpen

open ByteMemory RemoteExchange Buffer

abbrev Octet := BitVec 8

def RD_IDLEN : ℕ := 64
def RD_MSG_OREQ : BitVec 16 := 0x0030

/-- `sizeof(struct rd_msg_ores)`. -/
def ORES : ℤ := 72

/-- `sizeof(struct rdqnode)` and `sizeof(struct rdcnode)`. -/
def QNODE : ℕ := 24
def CNODE : ℕ := 524

inductive RdState
  | closed
  | pend
  | open
  deriving DecidableEq

/-- The fields of `rdscblk` that an open uses; the free lists are the addresses
of their nodes. -/
structure Rdscblk where
  rd_state : RdState
  rd_id : List Octet
  comm : Rdscomm
  rd_ser_ip : Word
  rd_comsem : Word
  rd_comproc : Word
  rd_qhead : Word
  rd_qfree : List Word
  rd_chead : Word
  rd_cfree : List Word

/-- What processes hold of the tables and of the memory. -/
@[ext]
structure Held where
  slots : List Word
  sems : List Word
  procs : List Word
  blocks : List (Word × ℕ)

structure Machine where
  rds : Rdscblk
  held : Held
  /-- The processes that have been resumed. -/
  resumed : List Word

/-- What the calls return, and the UDP slots that `dnslookup` and `getlocalip`
leave registered for themselves. -/
structure Supply where
  server : Option Word
  lookupSlots : List Word
  net : Network
  localSlots : List Word
  resp : Buffer
  comsem : Word
  comproc : Word
  qnodes : Word
  cnodes : Word

/-- One more thing is held, unless the call returned `SYSERR`. -/
def acquire {α : Type} (result : Word) (thing : α) (held : List α) : List α :=
  if result = SYSERR then held else thing :: held

/-- The addresses of the nodes in a block. -/
def nodes (block : Word) (size count : ℕ) : List Word :=
  (List.range count).map fun i => block + BitVec.ofNat 32 (i * size)

def openMsg (diskid : List Octet) : Buffer := fun i =>
  if i < 2 then RD_MSG_OREQ.extractLsb' (8 * (1 - i)) 8
  else if i < 8 then 0
  else diskid.getD (i - 8) 0

namespace Machine

variable (s : Machine) (u : Supply)

def setState (state : RdState) : Machine :=
  { s with rds := { s.rds with rd_state := state } }

/-- The slots that `rdscomm` registers, itself and in `getlocalip`. -/
def commSlots : List Word :=
  if s.rds.comm.rd_registered then
    if u.net.ipvalid then s.held.slots else u.localSlots ++ s.held.slots
  else if u.net.slot = SYSERR then s.held.slots
  else if u.net.ipvalid then u.net.slot :: s.held.slots
  else u.localSlots ++ u.net.slot :: s.held.slots

/-- The exchange with the server, and whether its reply is an acceptance. -/
def askServer (diskid : List Octet) : Machine × Bool :=
  let (comm, _, exchanged) :=
    rdscomm s.rds.comm (openMsg diskid) u.resp ORES u.net
  ({ s with
      rds := { s.rds with comm := comm }
      held := { s.held with slots := s.commSlots u } },
    !(exchanged.retval = SYSERR || exchanged.retval = TIMEOUT ||
      Buffer.msgStatus exchanged.reply ≠ 0))

/-- `rdsopen` from the cache nodes on. -/
def openCache : Machine × Word :=
  let s := { s with
    rds := { s.rds with rd_chead := 0 }
    held := { s.held with
      blocks := acquire u.cnodes (u.cnodes, CNODE * RemoteDisk.RD_CNODES)
        s.held.blocks } }
  if u.cnodes = SYSERR then (s.setState .closed, SYSERR)
  else
    let s := { s with
      rds := { s.rds with rd_cfree := nodes u.cnodes CNODE RemoteDisk.RD_CNODES }
      resumed := s.rds.rd_comproc :: s.resumed }
    (s.setState .open, OK)

/-- `rdsopen` from the request nodes on. -/
def openQueue : Machine × Word :=
  let s := { s with
    rds := { s.rds with rd_qhead := 0 }
    held := { s.held with
      blocks := acquire u.qnodes (u.qnodes, QNODE * RemoteDisk.RD_QNODES)
        s.held.blocks } }
  if u.qnodes = SYSERR then (s.setState .closed, SYSERR)
  else
    { s with
      rds := { s.rds with
        rd_qfree := nodes u.qnodes QNODE RemoteDisk.RD_QNODES } }.openCache u

/-- `rdsopen` from the semaphore on. -/
def openProcess : Machine × Word :=
  let s := { s with
    rds := { s.rds with rd_comsem := u.comsem, rd_comproc := u.comproc }
    held := { s.held with
      sems := acquire u.comsem u.comsem s.held.sems
      procs := acquire u.comproc u.comproc s.held.procs } }
  if u.comproc = SYSERR then (s.setState .closed, SYSERR) else s.openQueue u

/-- `rdsopen` from the lookup of the server on. -/
def openServer (diskid : List Octet) : Machine × Word :=
  let s := { s with held :=
    { s.held with slots := u.lookupSlots ++ s.held.slots } }
  match u.server with
  | none => (s.setState .closed, SYSERR)
  | some rd_ser_ip =>
      let (s, accepted) := { s with
        rds := { s.rds with rd_ser_ip := rd_ser_ip } }.askServer u diskid
      if !accepted then (s.setState .closed, SYSERR) else s.openProcess u

def rdsopen (diskid : List Octet) : Machine × Word :=
  if s.rds.rd_state ≠ .closed then (s, SYSERR)
  else
    let s := { s with rds := { s.rds with
      rd_state := .pend
      rd_id := diskid.take RD_IDLEN } }
    if RD_IDLEN ≤ diskid.length ∨ diskid.length = 0 then
      (s.setState .closed, SYSERR)
    else s.openServer u diskid

def openAll : List (List Octet × Supply) → Machine → Machine
  | [], s => s
  | (diskid, u) :: opens, s => openAll opens (s.rdsopen u diskid).1

end Machine

/-! ## What an open should do -/

/-- The device is open and has everything that it needs. -/
structure Complete (s : Machine) : Prop where
  state : s.rds.rd_state = .open
  slot : s.rds.comm.rd_registered = true
  comsem : s.rds.rd_comsem ≠ SYSERR ∧ s.rds.rd_comsem ∈ s.held.sems
  comproc : s.rds.rd_comproc ∈ s.held.procs ∧ s.rds.rd_comproc ∈ s.resumed
  qnodes : ∃ block, (block, QNODE * RemoteDisk.RD_QNODES) ∈ s.held.blocks ∧
    s.rds.rd_qfree = nodes block QNODE RemoteDisk.RD_QNODES
  cnodes : ∃ block, (block, CNODE * RemoteDisk.RD_CNODES) ∈ s.held.blocks ∧
    s.rds.rd_cfree = nodes block CNODE RemoteDisk.RD_CNODES

/-- Nothing was acquired, and the device is in the state that it was in. -/
structure AsBefore (s s' : Machine) : Prop where
  state : s'.rds.rd_state = s.rds.rd_state
  held : s'.held = s.held
  resumed : s'.resumed = s.resumed

/-- `rdsopen` opens the device, or fails and leaves nothing behind. -/
def OpenLaw (s : Machine) (u : Supply) (diskid : List Octet) : Prop :=
  ((s.rdsopen u diskid).2 = OK ∧ Complete (s.rdsopen u diskid).1) ∨
    ((s.rdsopen u diskid).2 = SYSERR ∧ AsBefore s (s.rdsopen u diskid).1)

/-! ## When it does -/

/-- A reply with the number and the type asked for accepts the request, after
attempts whose replies are missing or dropped. -/
inductive Answered (seq : Word) (msg : Buffer) : List Attempt → Bool → Buffer → Prop
  | answer {attempt : Attempt} {rest : List Attempt} {xmit : Bool} {buff : Buffer}
      (hsent : ¬ (xmit = true ∧ attempt.sent = SYSERR))
      (htimeout : (udpRecv buff ORES attempt.arrival).1 ≠ TIMEOUT)
      (hfailed : (udpRecv buff ORES attempt.arrival).1 ≠ SYSERR)
      (htests : rdsTests seq msg (udpRecv buff ORES attempt.arrival).2 = none)
      (hstatus : (udpRecv buff ORES attempt.arrival).2.msgStatus = 0) :
      Answered seq msg (attempt :: rest) xmit buff
  | silent {attempt : Attempt} {rest : List Attempt} {xmit : Bool} {buff : Buffer}
      (hsent : ¬ (xmit = true ∧ attempt.sent = SYSERR))
      (htimeout : (udpRecv buff ORES attempt.arrival).1 = TIMEOUT)
      (hrest : Answered seq msg rest true (udpRecv buff ORES attempt.arrival).2) :
      Answered seq msg (attempt :: rest) xmit buff
  | dropped {attempt : Attempt} {rest : List Attempt} {xmit xmit' : Bool}
      {buff : Buffer}
      (hsent : ¬ (xmit = true ∧ attempt.sent = SYSERR))
      (htimeout : (udpRecv buff ORES attempt.arrival).1 ≠ TIMEOUT)
      (hfailed : (udpRecv buff ORES attempt.arrival).1 ≠ SYSERR)
      (htests : rdsTests seq msg (udpRecv buff ORES attempt.arrival).2 = some xmit')
      (hrest : Answered seq msg rest xmit' (udpRecv buff ORES attempt.arrival).2) :
      Answered seq msg (attempt :: rest) xmit buff

/-- The device has a slot and an address, and the server accepts the request. -/
structure Accepted (s : Machine) (u : Supply) (diskid : List Octet) : Prop where
  slot : s.rds.comm.rd_registered = true ∨ u.net.slot ≠ SYSERR
  address : u.net.ipvalid = true ∨ u.net.localip ≠ SYSERR
  answered : Answered s.rds.comm.rd_seq (setSeq (openMsg diskid) s.rds.comm.rd_seq)
    (rdsAttempts u.net) true u.resp

/-- No UDP slot is registered that was not registered before. -/
structure KeepsSlots (s : Machine) (u : Supply) : Prop where
  lookup : u.lookupSlots = []
  comm : s.rds.comm.rd_registered = true ∨ u.net.slot = SYSERR
  dhcp : u.net.ipvalid = true ∨ u.localSlots = [] ∨
    s.rds.comm.rd_registered = false

/-- The environments in which `rdsopen` does what it should. -/
inductive OpensCleanly (s : Machine) (u : Supply) (diskid : List Octet) : Prop
  | busy (hstate : s.rds.rd_state ≠ .closed)
  | badId (hlen : RD_IDLEN ≤ diskid.length ∨ diskid.length = 0)
  | noServer (hserver : u.server = none) (hslots : u.lookupSlots = [])
  | refused (hserver : u.server ≠ none) (hrefused : ¬ Accepted s u diskid)
      (hslots : KeepsSlots s u)
  | supplied (hserver : u.server ≠ none) (haccepted : Accepted s u diskid)
      (hcomsem : u.comsem ≠ SYSERR) (hcomproc : u.comproc ≠ SYSERR)
      (hqnodes : u.qnodes ≠ SYSERR) (hcnodes : u.cnodes ≠ SYSERR)
  | nothing (hserver : u.server ≠ none) (haccepted : Accepted s u diskid)
      (hslots : KeepsSlots s u) (hcomsem : u.comsem = SYSERR)
      (hcomproc : u.comproc = SYSERR)

section Opening

theorem syserr_ne_ok : SYSERR ≠ OK := by decide

variable {s : Machine} {u : Supply} {diskid : List Octet}

theorem acquire_eq_self {α : Type} {result : Word} {thing : α} {held : List α} :
    acquire result thing held = held ↔ result = SYSERR := by
  unfold acquire
  split_ifs with h
  · simp [h]
  · simp [h]

theorem mem_acquire {α : Type} {result : Word} {thing : α} {held : List α}
    (h : result ≠ SYSERR) : thing ∈ acquire result thing held := by
  unfold acquire
  rw [if_neg h]
  exact List.mem_cons_self

def asking (s : Machine) (u : Supply) (diskid : List Octet) (ip : Word) : Machine :=
  { s with
    rds := { s.rds with
      rd_state := .pend
      rd_id := diskid.take RD_IDLEN
      rd_ser_ip := ip }
    held := { s.held with slots := u.lookupSlots ++ s.held.slots } }

theorem rdsopen_server
    (hclosed : s.rds.rd_state = .closed)
    (hid : ¬ (RD_IDLEN ≤ diskid.length ∨ diskid.length = 0)) {ip : Word}
    (hserver : u.server = some ip) :
    s.rdsopen u diskid =
      if ((asking s u diskid ip).askServer u diskid).2 = false then
        (((asking s u diskid ip).askServer u diskid).1.setState .closed, SYSERR)
      else ((asking s u diskid ip).askServer u diskid).1.openProcess u := by
  unfold Machine.rdsopen
  rw [if_neg (not_not.mpr hclosed)]
  dsimp only
  rw [if_neg hid]
  unfold Machine.openServer
  rw [hserver]
  change (match (asking s u diskid ip).askServer u diskid with
    | (s, accepted) =>
        if !accepted then (s.setState .closed, SYSERR) else s.openProcess u) = _
  generalize (asking s u diskid ip).askServer u diskid = asked
  obtain ⟨s', accepted⟩ := asked
  cases accepted with
  | false => rfl
  | true => rfl

theorem Answered.exchange {seq : Word} {msg : Buffer} {attempts : List Attempt}
    {xmit : Bool} {buff : Buffer} (h : Answered seq msg attempts xmit buff) :
    (exchange (rdsTests seq msg) rdsStatus ORES attempts xmit buff).retval = OK ∧
      (exchange (rdsTests seq msg) rdsStatus ORES attempts xmit buff).reply.msgStatus =
        0 := by
  induction h with
  | answer hsent htimeout hfailed htests hstatus =>
      unfold RemoteExchange.exchange
      rw [if_neg hsent]
      dsimp only
      rw [if_neg htimeout, if_neg hfailed, htests]
      exact ⟨if_neg (not_not.mpr hstatus), hstatus⟩
  | silent hsent htimeout _ ih =>
      unfold RemoteExchange.exchange
      rw [if_neg hsent]
      dsimp only
      rw [if_pos htimeout]
      exact ih
  | dropped hsent htimeout hfailed htests _ ih =>
      unfold RemoteExchange.exchange
      rw [if_neg hsent]
      dsimp only
      rw [if_neg htimeout, if_neg hfailed, htests]
      exact ih

theorem answered_of_exchange {seq : Word} {msg : Buffer} {attempts : List Attempt}
    {xmit : Bool} {buff : Buffer}
    (hok : (exchange (rdsTests seq msg) rdsStatus ORES attempts xmit buff).retval ≠
      SYSERR)
    (hanswer : (exchange (rdsTests seq msg) rdsStatus ORES attempts xmit buff).retval ≠
      TIMEOUT)
    (hstatus :
      (exchange (rdsTests seq msg) rdsStatus ORES attempts xmit buff).reply.msgStatus =
        0) :
    Answered seq msg attempts xmit buff := by
  induction attempts generalizing xmit buff with
  | nil => exact absurd rfl hanswer
  | cons attempt rest ih =>
      unfold exchange at hok hanswer hstatus
      by_cases hsent : xmit = true ∧ attempt.sent = SYSERR
      · rw [if_pos hsent] at hok
        exact absurd rfl hok
      · rw [if_neg hsent] at hok hanswer hstatus
        dsimp only at hok hanswer hstatus
        by_cases htimeout : (udpRecv buff ORES attempt.arrival).1 = TIMEOUT
        · rw [if_pos htimeout] at hok hanswer hstatus
          exact .silent hsent htimeout (ih hok hanswer hstatus)
        · rw [if_neg htimeout] at hok hanswer hstatus
          by_cases hfailed : (udpRecv buff ORES attempt.arrival).1 = SYSERR
          · rw [if_pos hfailed] at hok
            exact absurd rfl hok
          · rw [if_neg hfailed] at hok hanswer hstatus
            cases htests : rdsTests seq msg
                (udpRecv buff ORES attempt.arrival).2 with
            | none =>
                rw [htests] at hstatus
                exact .answer hsent htimeout hfailed htests hstatus
            | some xmit' =>
                rw [htests] at hok hanswer hstatus
                exact .dropped hsent htimeout hfailed htests (ih hok hanswer hstatus)

theorem answered_iff {seq : Word} {msg : Buffer} {attempts : List Attempt}
    {xmit : Bool} {buff : Buffer} :
    Answered seq msg attempts xmit buff ↔
      (exchange (rdsTests seq msg) rdsStatus ORES attempts xmit buff).retval ≠ SYSERR ∧
      (exchange (rdsTests seq msg) rdsStatus ORES attempts xmit buff).retval ≠ TIMEOUT ∧
      (exchange (rdsTests seq msg) rdsStatus ORES attempts xmit buff).reply.msgStatus =
        0 := by
  constructor
  · intro h
    obtain ⟨hok, hstatus⟩ := h.exchange
    have htimeout : OK ≠ TIMEOUT := by decide
    rw [hok]
    exact ⟨syserr_ne_ok.symm, htimeout, hstatus⟩
  · rintro ⟨hok, hanswer, hstatus⟩
    exact answered_of_exchange hok hanswer hstatus

/-- The registration succeeds with a slot and an address. -/
theorem rdsRegister_of_ok {rd : Rdscomm} {net : Network}
    (hslot : rd.rd_registered = true ∨ net.slot ≠ SYSERR)
    (haddress : net.ipvalid = true ∨ net.localip ≠ SYSERR) :
    ∃ rd', rdsRegister rd net = (rd', OK) ∧ rd'.rd_seq = rd.rd_seq ∧
      rd'.rd_registered = true := by
  have hnone : ¬ (¬ rd.rd_registered = true ∧ net.slot = SYSERR) := by tauto
  have hip : ¬ (¬ net.ipvalid = true ∧ net.localip = SYSERR) := by tauto
  unfold rdsRegister
  rw [if_neg hnone]
  dsimp only
  rw [if_neg hip]
  split_ifs with hset
  · exact ⟨rd, rfl, rfl, hset⟩
  · exact ⟨_, rfl, rfl, rfl⟩

theorem rdsRegister_failed {rd : Rdscomm} {net : Network}
    (h : ¬ ((rd.rd_registered = true ∨ net.slot ≠ SYSERR) ∧
      (net.ipvalid = true ∨ net.localip ≠ SYSERR))) :
    (rdsRegister rd net).2 = SYSERR := by
  unfold rdsRegister
  by_cases hnone : ¬ rd.rd_registered = true ∧ net.slot = SYSERR
  · rw [if_pos hnone]
  · rw [if_neg hnone]
    dsimp only
    rw [if_pos (by tauto)]

theorem rdscomm_eq {rd rd' : Rdscomm} {msg reply : Buffer} {rlen : ℤ} {net : Network}
    (hregister : rdsRegister rd net = (rd', OK)) :
    rdscomm rd msg reply rlen net =
      ({ rd' with rd_seq := rd'.rd_seq + 1 }, setSeq msg rd'.rd_seq,
        exchange (rdsTests rd'.rd_seq (setSeq msg rd'.rd_seq)) rdsStatus rlen
          (rdsAttempts net) true reply) := by
  unfold rdscomm
  rw [hregister]
  exact if_neg syserr_ne_ok.symm

/-- `rdscomm` returns an acceptance just when the request is accepted. -/
theorem accepted_iff : Accepted s u diskid ↔
    (rdscomm s.rds.comm (openMsg diskid) u.resp ORES u.net).2.2.retval ≠ SYSERR ∧
    (rdscomm s.rds.comm (openMsg diskid) u.resp ORES u.net).2.2.retval ≠ TIMEOUT ∧
    (rdscomm s.rds.comm (openMsg diskid) u.resp ORES u.net).2.2.reply.msgStatus = 0 := by
  by_cases hok : (s.rds.comm.rd_registered = true ∨ u.net.slot ≠ SYSERR) ∧
      (u.net.ipvalid = true ∨ u.net.localip ≠ SYSERR)
  · obtain ⟨rd', hregister, hseq, -⟩ := rdsRegister_of_ok hok.1 hok.2
    rw [rdscomm_eq hregister, hseq, ← answered_iff]
    exact ⟨Accepted.answered, fun h => ⟨hok.1, hok.2, h⟩⟩
  · constructor
    · exact fun h => absurd ⟨h.slot, h.address⟩ hok
    · intro h
      have hfailed := rdsRegister_failed hok
      unfold rdscomm at h
      generalize rdsRegister s.rds.comm u.net = registered at hfailed h
      obtain ⟨rd', retval⟩ := registered
      dsimp only at hfailed h
      rw [if_pos hfailed] at h
      exact absurd rfl h.1

theorem askServer_accepted {ip : Word} :
    ((asking s u diskid ip).askServer u diskid).2 = true ↔ Accepted s u diskid := by
  rw [accepted_iff]
  unfold Machine.askServer asking
  simp only [Bool.not_eq_true', Bool.or_eq_false_iff, decide_eq_false_iff_not,
    not_not, and_assoc]

theorem Accepted.registered (h : Accepted s u diskid) :
    (rdscomm s.rds.comm (openMsg diskid) u.resp ORES u.net).1.rd_registered = true := by
  obtain ⟨rd', hregister, -, hset⟩ := rdsRegister_of_ok h.slot h.address
  rw [rdscomm_eq hregister]
  exact hset

theorem askServer_slots {ip : Word} :
    ((asking s u diskid ip).askServer u diskid).1.held.slots = s.held.slots ↔
      KeepsSlots s u := by
  have hslots : ((asking s u diskid ip).askServer u diskid).1.held.slots =
      if s.rds.comm.rd_registered then
        if u.net.ipvalid then u.lookupSlots ++ s.held.slots
        else u.localSlots ++ (u.lookupSlots ++ s.held.slots)
      else if u.net.slot = SYSERR then u.lookupSlots ++ s.held.slots
      else if u.net.ipvalid then u.net.slot :: (u.lookupSlots ++ s.held.slots)
      else u.localSlots ++ u.net.slot :: (u.lookupSlots ++ s.held.slots) := rfl
  rw [hslots]
  constructor
  · intro h
    split_ifs at h with hregistered hvalid hslot hvalid
    · exact ⟨List.append_left_eq_self.mp h, .inl hregistered, .inl hvalid⟩
    · rw [← List.append_assoc] at h
      have hnil := List.append_eq_nil_iff.mp (List.append_left_eq_self.mp h)
      exact ⟨hnil.2, .inl hregistered, .inr (.inl hnil.1)⟩
    · exact ⟨List.append_left_eq_self.mp h, .inr hslot,
        .inr (.inr (Bool.eq_false_iff.mpr hregistered))⟩
    · rw [← List.cons_append] at h
      have hnil := List.append_left_eq_self.mp h
      exact absurd hnil (List.cons_ne_nil _ _)
    · have hnil : u.localSlots ++ u.net.slot :: u.lookupSlots = [] := by
        apply List.append_left_eq_self.mp
        rw [List.append_assoc, List.cons_append]
        exact h
      exact absurd (List.append_eq_nil_iff.mp hnil).2 (List.cons_ne_nil _ _)
  · rintro ⟨hlookup, hcomm, hdhcp⟩
    rw [hlookup, List.nil_append]
    split_ifs with hregistered hvalid hslot hvalid
    · rfl
    · have hlocal : u.localSlots = [] := by simpa [hvalid, hregistered] using hdhcp
      rw [hlocal, List.nil_append]
    · rfl
    · simp [hregistered, hslot] at hcomm
    · simp [hregistered, hslot] at hcomm

/-! ## From the semaphore on -/

section Process

variable (a : Machine) (u : Supply)

theorem openProcess_retval : (a.openProcess u).2 =
    if u.comproc = SYSERR ∨ u.qnodes = SYSERR ∨ u.cnodes = SYSERR then SYSERR
    else OK := by
  unfold Machine.openProcess Machine.openQueue Machine.openCache
  split_ifs with hcomproc hqnodes hcnodes hall <;> simp_all

@[simp] theorem openProcess_slots :
    (a.openProcess u).1.held.slots = a.held.slots := by
  unfold Machine.openProcess Machine.openQueue Machine.openCache
  split_ifs <;> rfl

@[simp] theorem openProcess_sems : (a.openProcess u).1.held.sems =
    acquire u.comsem u.comsem a.held.sems := by
  unfold Machine.openProcess Machine.openQueue Machine.openCache
  split_ifs <;> rfl

@[simp] theorem openProcess_procs : (a.openProcess u).1.held.procs =
    acquire u.comproc u.comproc a.held.procs := by
  unfold Machine.openProcess Machine.openQueue Machine.openCache
  split_ifs <;> rfl

@[simp] theorem openProcess_comsem : (a.openProcess u).1.rds.rd_comsem = u.comsem := by
  unfold Machine.openProcess Machine.openQueue Machine.openCache
  split_ifs <;> rfl

variable {a u}

theorem openProcess_complete (hcomsem : u.comsem ≠ SYSERR)
    (hcomproc : u.comproc ≠ SYSERR) (hqnodes : u.qnodes ≠ SYSERR)
    (hcnodes : u.cnodes ≠ SYSERR) (hslot : a.rds.comm.rd_registered = true) :
    Complete (a.openProcess u).1 := by
  unfold Machine.openProcess Machine.openQueue Machine.openCache
  dsimp only
  rw [if_neg hcomproc, if_neg hqnodes, if_neg hcnodes]
  constructor
  · rfl
  · exact hslot
  · exact ⟨hcomsem, mem_acquire hcomsem⟩
  · exact ⟨mem_acquire hcomproc, List.mem_cons_self⟩
  · refine ⟨u.qnodes, ?_, rfl⟩
    change _ ∈ acquire _ _ (acquire _ _ _)
    rw [acquire, if_neg hcnodes]
    exact List.mem_cons_of_mem _ (mem_acquire hqnodes)
  · exact ⟨u.cnodes, mem_acquire hcnodes, rfl⟩

theorem openProcess_nothing (hcomsem : u.comsem = SYSERR)
    (hcomproc : u.comproc = SYSERR) :
    (a.openProcess u).2 = SYSERR ∧ (a.openProcess u).1.held = a.held ∧
      (a.openProcess u).1.resumed = a.resumed ∧
      (a.openProcess u).1.rds.rd_state = .closed := by
  unfold Machine.openProcess
  dsimp only
  rw [if_pos hcomproc]
  refine ⟨rfl, ?_, rfl, rfl⟩
  change Held.mk _ (acquire _ _ _) (acquire _ _ _) _ = a.held
  rw [acquire, if_pos hcomsem, acquire, if_pos hcomproc]

end Process

/-! ## One open -/

theorem rdsopen_busy (hstate : s.rds.rd_state ≠ .closed) :
    s.rdsopen u diskid = (s, SYSERR) := by
  unfold Machine.rdsopen
  rw [if_pos hstate]

theorem openLaw_busy (hstate : s.rds.rd_state ≠ .closed) : OpenLaw s u diskid := by
  unfold OpenLaw
  rw [rdsopen_busy hstate]
  exact .inr ⟨rfl, rfl, rfl, rfl⟩

theorem openLaw_badId (hclosed : s.rds.rd_state = .closed)
    (hid : RD_IDLEN ≤ diskid.length ∨ diskid.length = 0) :
    OpenLaw s u diskid := by
  unfold OpenLaw Machine.rdsopen
  rw [if_neg (not_not.mpr hclosed)]
  dsimp only
  rw [if_pos hid]
  exact .inr ⟨rfl, hclosed.symm, rfl, rfl⟩

theorem openLaw_noServer (hclosed : s.rds.rd_state = .closed)
    (hid : ¬ (RD_IDLEN ≤ diskid.length ∨ diskid.length = 0))
    (hserver : u.server = none) :
    OpenLaw s u diskid ↔ u.lookupSlots = [] := by
  unfold OpenLaw Machine.rdsopen
  rw [if_neg (not_not.mpr hclosed)]
  dsimp only
  rw [if_neg hid]
  unfold Machine.openServer
  rw [hserver]
  constructor
  · rintro (⟨hok, -⟩ | ⟨-, hbefore⟩)
    · exact absurd hok syserr_ne_ok
    · have hslots := congrArg Held.slots hbefore.held
      exact List.append_left_eq_self.mp hslots
  · intro hnil
    refine .inr ⟨rfl, hclosed.symm, ?_, rfl⟩
    change Held.mk (u.lookupSlots ++ _) _ _ _ = s.held
    rw [hnil, List.nil_append]

theorem openLaw_refused (hclosed : s.rds.rd_state = .closed)
    (hid : ¬ (RD_IDLEN ≤ diskid.length ∨ diskid.length = 0)) {ip : Word}
    (hserver : u.server = some ip) (hrefused : ¬ Accepted s u diskid) :
    OpenLaw s u diskid ↔ KeepsSlots s u := by
  have hfalse : ((asking s u diskid ip).askServer u diskid).2 = false := by
    apply Bool.eq_false_iff.mpr
    rwa [Ne, askServer_accepted]
  unfold OpenLaw
  rw [rdsopen_server hclosed hid hserver, if_pos hfalse, ← askServer_slots]
  constructor
  · rintro (⟨hok, -⟩ | ⟨-, hbefore⟩)
    · exact absurd hok syserr_ne_ok
    · exact congrArg Held.slots hbefore.held
  · intro hslots
    refine .inr ⟨rfl, hclosed.symm, ?_, rfl⟩
    exact Held.ext hslots rfl rfl rfl

theorem openLaw_accepted (hclosed : s.rds.rd_state = .closed)
    (hid : ¬ (RD_IDLEN ≤ diskid.length ∨ diskid.length = 0)) {ip : Word}
    (hserver : u.server = some ip) (haccepted : Accepted s u diskid) :
    OpenLaw s u diskid ↔
      (u.comsem ≠ SYSERR ∧ u.comproc ≠ SYSERR ∧ u.qnodes ≠ SYSERR ∧
        u.cnodes ≠ SYSERR) ∨
      (KeepsSlots s u ∧ u.comsem = SYSERR ∧ u.comproc = SYSERR) := by
  have htrue : ((asking s u diskid ip).askServer u diskid).2 = true :=
    askServer_accepted.mpr haccepted
  have hregistered :
      ((asking s u diskid ip).askServer u diskid).1.rds.comm.rd_registered = true :=
    haccepted.registered
  unfold OpenLaw
  rw [rdsopen_server hclosed hid hserver, if_neg (by rw [htrue]; decide)]
  constructor
  · rintro (⟨hok, hcomplete⟩ | ⟨-, hbefore⟩)
    · rw [openProcess_retval] at hok
      have hgranted : ¬ (u.comproc = SYSERR ∨ u.qnodes = SYSERR ∨
          u.cnodes = SYSERR) := by
        intro hshort
        rw [if_pos hshort] at hok
        exact absurd hok syserr_ne_ok
      push Not at hgranted
      have hcomsem := hcomplete.comsem.1
      rw [openProcess_comsem] at hcomsem
      exact .inl ⟨hcomsem, hgranted⟩
    · have hslots := congrArg Held.slots hbefore.held
      have hsems := congrArg Held.sems hbefore.held
      have hprocs := congrArg Held.procs hbefore.held
      rw [openProcess_slots, askServer_slots] at hslots
      rw [openProcess_sems] at hsems
      rw [openProcess_procs] at hprocs
      exact .inr ⟨hslots, acquire_eq_self.mp hsems, acquire_eq_self.mp hprocs⟩
  · rintro (⟨hcomsem, hcomproc, hqnodes, hcnodes⟩ | ⟨hkeeps, hcomsem, hcomproc⟩)
    · left
      constructor
      · rw [openProcess_retval, if_neg]
        push Not
        exact ⟨hcomproc, hqnodes, hcnodes⟩
      · exact openProcess_complete hcomsem hcomproc hqnodes hcnodes hregistered
    · obtain ⟨hretval, hheld, hresumed, hstate⟩ :=
        openProcess_nothing (a := ((asking s u diskid ip).askServer u diskid).1)
          hcomsem hcomproc
      refine .inr ⟨hretval, hstate.trans hclosed.symm, ?_, hresumed⟩
      rw [hheld]
      exact Held.ext (askServer_slots.mpr hkeeps) rfl rfl rfl

theorem OpensCleanly.lookup (h : OpensCleanly s u diskid)
    (hclosed : s.rds.rd_state = .closed)
    (hid : ¬ (RD_IDLEN ≤ diskid.length ∨ diskid.length = 0))
    (hnone : u.server = none) : u.lookupSlots = [] := by
  cases h with
  | busy hstate => exact absurd hclosed hstate
  | badId hlen => exact absurd hlen hid
  | noServer _ hslots => exact hslots
  | refused hserver _ _ => exact absurd hnone hserver
  | supplied hserver _ _ _ _ _ => exact absurd hnone hserver
  | nothing hserver _ _ _ _ => exact absurd hnone hserver

theorem OpensCleanly.keepsSlots (h : OpensCleanly s u diskid)
    (hclosed : s.rds.rd_state = .closed)
    (hid : ¬ (RD_IDLEN ≤ diskid.length ∨ diskid.length = 0))
    (hsome : u.server ≠ none) (hrefused : ¬ Accepted s u diskid) :
    KeepsSlots s u := by
  cases h with
  | busy hstate => exact absurd hclosed hstate
  | badId hlen => exact absurd hlen hid
  | noServer hserver _ => exact absurd hserver hsome
  | refused _ _ hslots => exact hslots
  | supplied _ haccepted _ _ _ _ => exact absurd haccepted hrefused
  | nothing _ haccepted _ _ _ => exact absurd haccepted hrefused

theorem OpensCleanly.granted (h : OpensCleanly s u diskid)
    (hclosed : s.rds.rd_state = .closed)
    (hid : ¬ (RD_IDLEN ≤ diskid.length ∨ diskid.length = 0))
    (hsome : u.server ≠ none) (haccepted : Accepted s u diskid) :
    (u.comsem ≠ SYSERR ∧ u.comproc ≠ SYSERR ∧ u.qnodes ≠ SYSERR ∧
      u.cnodes ≠ SYSERR) ∨
    (KeepsSlots s u ∧ u.comsem = SYSERR ∧ u.comproc = SYSERR) := by
  cases h with
  | busy hstate => exact absurd hclosed hstate
  | badId hlen => exact absurd hlen hid
  | noServer hserver _ => exact absurd hserver hsome
  | refused _ hrefused _ => exact absurd haccepted hrefused
  | supplied _ _ hcomsem hcomproc hqnodes hcnodes =>
      exact .inl ⟨hcomsem, hcomproc, hqnodes, hcnodes⟩
  | nothing _ _ hslots hcomsem hcomproc => exact .inr ⟨hslots, hcomsem, hcomproc⟩

theorem openLaw_iff : OpenLaw s u diskid ↔ OpensCleanly s u diskid := by
  by_cases hclosed : s.rds.rd_state = .closed
  swap
  · exact ⟨fun _ => .busy hclosed, fun _ => openLaw_busy hclosed⟩
  by_cases hid : RD_IDLEN ≤ diskid.length ∨ diskid.length = 0
  · exact ⟨fun _ => .badId hid, fun _ => openLaw_badId hclosed hid⟩
  cases hserver : u.server with
  | none =>
      rw [openLaw_noServer hclosed hid hserver]
      exact ⟨.noServer hserver, fun h => h.lookup hclosed hid hserver⟩
  | some ip =>
      have hsome : u.server ≠ none := by
        rw [hserver]
        exact Option.some_ne_none ip
      by_cases haccepted : Accepted s u diskid
      · rw [openLaw_accepted hclosed hid hserver haccepted]
        constructor
        · rintro (⟨hcomsem, hcomproc, hqnodes, hcnodes⟩ | ⟨hkeeps, hcomsem, hcomproc⟩)
          · exact .supplied hsome haccepted hcomsem hcomproc hqnodes hcnodes
          · exact .nothing hsome haccepted hkeeps hcomsem hcomproc
        · exact fun h => h.granted hclosed hid hsome haccepted
      · rw [openLaw_refused hclosed hid hserver haccepted]
        exact ⟨.refused hsome haccepted,
          fun h => h.keepsSlots hclosed hid hsome haccepted⟩

end Opening

/-! ## Any number of opens -/

/-- Every open of the list fails, in an environment that `OpensCleanly` admits. -/
def FailsCleanly : List (List Octet × Supply) → Machine → Prop
  | [], _ => True
  | (diskid, u) :: opens, s =>
      OpensCleanly s u diskid ∧ (s.rdsopen u diskid).2 = SYSERR ∧
        FailsCleanly opens (s.rdsopen u diskid).1

theorem AsBefore.trans {s s' s'' : Machine}
    (hfirst : AsBefore s s') (hrest : AsBefore s' s'') : AsBefore s s'' where
  state := hrest.state.trans hfirst.state
  held := hrest.held.trans hfirst.held
  resumed := hrest.resumed.trans hfirst.resumed

theorem asBefore_of_failed {s : Machine} {u : Supply} {diskid : List Octet}
    (hclean : OpensCleanly s u diskid)
    (hfailed : (s.rdsopen u diskid).2 = SYSERR) :
    AsBefore s (s.rdsopen u diskid).1 := by
  cases openLaw_iff.mpr hclean with
  | inl hopened =>
      rw [hfailed] at hopened
      exact absurd hopened.1 syserr_ne_ok
  | inr hbefore => exact hbefore.2

theorem openAll_asBefore : ∀ (opens : List (List Octet × Supply)) (s : Machine),
    FailsCleanly opens s → AsBefore s (s.openAll opens) := by
  intro opens
  induction opens with
  | nil => exact fun s _ => ⟨rfl, rfl, rfl⟩
  | cons attempt opens ih =>
      rintro s ⟨hclean, hfailed, hrest⟩
      exact (asBefore_of_failed hclean hfailed).trans (ih _ hrest)

/-- An open does what it should in just these environments, and opens that fail
in them leave the machine as it was, however many they are. -/
theorem opens_cleanly
    (s : Machine) (u : Supply) (diskid : List Octet)
    (opens : List (List Octet × Supply)) :
    (OpenLaw s u diskid ↔ OpensCleanly s u diskid) ∧
      (FailsCleanly opens s → AsBefore s (s.openAll opens)) :=
  ⟨openLaw_iff, openAll_asBefore opens s⟩

/-- A closed device that has a UDP slot already. -/
def closedDevice : Machine where
  rds := ⟨.closed, [], ⟨0, true, 3⟩, 0, 0, 0, 0, [], 0, []⟩
  held := ⟨[3], [], [], []⟩
  resumed := []

/-- The server accepts, and only the memory of the cache is refused. -/
def cacheShortage : Supply where
  server := some 0x80D20304
  lookupSlots := []
  net := ⟨3, true, 0, fun _ => ⟨OK, .datagram 80 (header 0x0130 0 0)⟩⟩
  localSlots := []
  resp := header 0 0 0
  comsem := 2
  comproc := 5
  qnodes := 0x00200000
  cnodes := SYSERR

theorem opens_cleanly_emptyId :
    AsBefore closedDevice (closedDevice.openAll [([], cacheShortage)]) :=
  (opens_cleanly closedDevice cacheShortage [] [([], cacheShortage)]).2
    ⟨.badId (.inr rfl), rfl, trivial⟩

/-- The failed open keeps a semaphore, a process and the request nodes. -/
theorem cache_shortage_keeps_process :
    ¬ ∀ (s : Machine) (u : Supply) (diskid : List Octet), OpenLaw s u diskid := by
  intro hlaw
  cases hlaw closedDevice cacheShortage [100] with
  | inl hopened => exact absurd hopened.1 (by decide)
  | inr hfailed =>
      have hprocs := congrArg Held.procs hfailed.2.held
      exact absurd hprocs (by decide)

end Xinu.RemoteDiskOpen
