import Xinu.PacketLengths

/-!
# The interrupt mask of the sending functions

A function saves the interrupt mask when it disables interrupts and restores it
before it returns.  `ip_send` runs inside `icmp_send`, `udp_send` and
`udp_sendto`, each of which saves a mask of its own, and calls functions that do
so too.
-/

namespace Xinu.InterruptMasks

open ByteMemory ArpCache Disposal Icmp PacketLengths Udp

/-! ## intr.S -/

/-- The bit of the flags register that a mask consists of. -/
def IF : Word := 0x200

/-- The flags register, the network state, and the datagram numbers of
`udp_send` and `udp_sendto`. -/
structure Machine where
  flags : Word
  net : Net
  sendIdent : BitVec 16
  sendtoIdent : BitVec 16

namespace Machine

variable (m : Machine)

def mask : Word := m.flags &&& IF

/-- `disable`, which returns the previous state. -/
def disable : Word × Machine :=
  (m.mask, { m with flags := m.flags &&& ~~~IF })

def restore (mask : Word) : Machine := { m with flags := mask &&& IF }

end Machine

/-! ## System calls -/

/-- The calls of the kernel that the functions below make. -/
inductive Syscall
  | getbuf
  | freebuf (addr : Word)
  | send (pid : ℤ) (msg : Word)
  | recvclr
  | recvtime
  | write
  | ipEnqueue

/-- What the functions get from the kernel.  `body` is what a system call and
the processes that run while it blocks do between its `disable` and its
`restore`; `recvtime` gives the messages of successive calls. -/
structure Kernel where
  currpid : ℤ
  body : Syscall → Machine → Machine
  getbuf : Option (Word × (ℕ → Byte))
  recvtime : ℕ → Word
  write : Netpacket → ℤ → Word

variable (k : Kernel)

def syscall (call : Syscall) (m : Machine) : Machine :=
  let (mask, m) := m.disable
  (k.body call m).restore mask

def freebuf (pkt : Netpacket) (m : Machine) : Machine :=
  syscall k (.freebuf pkt.addr) m

/-! ## arp.c -/

/-- The loop of `arp_resolve` with `n` tries left: the last message.  It ends
at the first message, and the function returns from inside it if that is
`SYSERR`. -/
def arpWait : ℕ → ℕ → Word → Machine → Word × Machine
  | 0, _, msg, m => (msg, m)
  | n + 1, i, _, m =>
      let m := syscall k .recvtime (syscall k .write m)
      let msg := k.recvtime i
      if msg = TIMEOUT then arpWait n (i + 1) msg m else (msg, m)

def setArp (arp : Arp) (m : Machine) : Machine :=
  { m with net := { m.net with arp := arp } }

/-- `arp_resolve`, with the address that it copies. -/
def arpResolve (nxthop : Word) (mac : Mac) (m : Machine) :
    Word × Mac × Machine :=
  if nxthop = IP_BCAST then (OK, m.net.ethbcast, m)
  else if nxthop = m.net.ipbcast then (OK, m.net.ethbcast, m)
  else
    let (mask, m) := m.disable
    let arp := m.net.arp
    match arp.find nxthop with
    | some i =>
        if (arp.arpcache i).arstate = .resolved then
          (OK, (arp.arpcache i).arhaddr, m.restore mask)
        else (SYSERR, mac, m.restore mask)
    | none =>
        match arp.arpAlloc with
        | none => (SYSERR, mac, m.restore mask)
        | some slot =>
            let e : Arpentry := ⟨.pending, nxthop, k.currpid, 0⟩
            let m := setArp (arp.setEntry slot e) m
            let m := syscall k .recvclr m
            let (msg, m) := arpWait k ARP_RETRY 0 OK m
            if msg = SYSERR then (SYSERR, mac, m.restore mask)
            else if msg = TIMEOUT then
              let e := m.net.arp.arpcache slot
              let m := setArp (m.net.arp.setEntry slot { e with arstate := .free }) m
              (TIMEOUT, mac, m.restore mask)
            else (OK, (m.net.arp.arpcache slot).arhaddr, m.restore mask)

/-! ## udp_in, icmp_in and ip.c -/

def setUdptab (udptab : UdpTable) (m : Machine) : Machine :=
  { m with net := { m.net with udptab := udptab } }

def setIcmptab (icmptab : IcmpTable) (m : Machine) : Machine :=
  { m with net := { m.net with icmptab := icmptab } }

def udpIn (pkt : Netpacket) (m : Machine) : Machine :=
  let (mask, m) := m.disable
  let udptab := m.net.udptab
  match (List.range UDP_SLOTS).find? fun i : ℕ =>
      (udptab.tab i).state ≠ .free ∧
        matchesPacket (udptab.tab i).key pkt.udp ∧
        (udptab.tab i).count < UDP_QSIZ with
  | some i =>
      let m := setUdptab (Udp.udpIn udptab pkt.udp) m
      if (udptab.tab i).state = .recv then
        (syscall k (.send (udptab.tab i).pid OK) m).restore mask
      else m.restore mask
  | none => (freebuf k pkt m).restore mask

/-- `icmp_mkpkt`, which panics without a buffer. -/
def icmpMkpkt (remip : Word) (type ident seq : BitVec 16) (buf : ℕ → Byte)
    (len : ℤ) (m : Machine) : Option (Netpacket × Machine) :=
  let m := syscall k .getbuf m
  k.getbuf.map fun (addr, bytes) =>
    let stores := PacketLengths.icmpMkpkt m.net remip type ident seq buf len
    (written ⟨.reply, addr, bytes⟩ stores,
      { m with net := { m.net with ipident := m.net.ipident + 1 } })

def icmpIn (pkt : Netpacket) (m : Machine) : Option Machine :=
  let (mask, m) := m.disable
  if pkt.net_ictype ≠ ICMP_ECHOREPLY ∧ pkt.net_ictype ≠ ICMP_ECHOREQST then
    some ((freebuf k pkt m).restore mask)
  else if pkt.net_ictype = ICMP_ECHOREQST then
    (icmpMkpkt k pkt.net_ipsrc (ICMP_ECHOREPLY.setWidth 16) pkt.net_icident
        pkt.net_icseq (fun i => pkt.bytes (dataOffset + i))
        ((pkt.net_iplen.toNat : ℤ) - IP_HDR_LEN - ICMP_HDR_LEN) m).map
      fun (_, m) => (freebuf k pkt (syscall k .ipEnqueue m)).restore mask
  else
    let icmptab := m.net.icmptab
    match replySlot m.net.ipucast icmptab pkt.icmp with
    | none => some ((freebuf k pkt m).restore mask)
    | some slot =>
        let m := setIcmptab (Icmp.icmpIn m.net.ipucast icmptab pkt.icmp) m
        if (icmptab.tab slot).state = .recv then
          some ((syscall k (.send (icmptab.tab slot).pid OK) m).restore mask)
        else some (m.restore mask)

def ipLocal (pkt : Netpacket) (m : Machine) : Option Machine :=
  if pkt.net_ipproto = IP_UDP then some (udpIn k pkt m)
  else if pkt.net_ipproto = IP_ICMP then icmpIn k pkt m
  else some (freebuf k pkt m)

def ipOut (pkt : Netpacket) (m : Machine) : Word × Machine :=
  let pktlen := (pkt.net_iplen.toNat : ℤ) + ETH_HDR_LEN
  let pkt := ipOutPacket pkt
  let retval := k.write pkt pktlen
  let m := freebuf k pkt (syscall k .write m)
  if retval = SYSERR then (SYSERR, m) else (OK, m)

/-- `ip_send`; it does not return if `icmp_in` panics. -/
def ipSend (pkt : Netpacket) (m : Machine) : Option (Word × Machine) :=
  let (mask, m) := m.disable
  let dest := pkt.net_ipdst
  if dest &&& 0xff000000 = 0x7f000000 then
    (ipLocal k pkt m).map fun m => (OK, m.restore mask)
  else if dest = m.net.ipucast then
    (ipLocal k pkt m).map fun m => (OK, m.restore mask)
  else if dest = IP_BCAST ∨ dest = m.net.ipbcast then
    let (retval, m) := ipOut k (pkt.setMac 0 m.net.ethbcast) m
    some (retval, m.restore mask)
  else
    let nxthop := if dest &&& m.net.ipmask = m.net.ipprefix then dest
      else m.net.iprouter
    if nxthop = 0 then some (SYSERR, freebuf k pkt m)
    else
      let (retval, mac, m) := arpResolve k nxthop (pkt.mac 0) m
      if retval ≠ OK then some (SYSERR, freebuf k pkt m)
      else
        let (retval, m) := ipOut k (pkt.setMac 0 mac) m
        some (retval, m.restore mask)

/-! ## The senders -/

/-- `icmp_send`; the packet of `icmp_mkpkt` is never `SYSERR`. -/
def icmpSend (remip : Word) (type ident seq : BitVec 16) (buf : ℕ → Byte)
    (len : ℤ) (m : Machine) : Option (Word × Machine) :=
  let (mask, m) := m.disable
  (icmpMkpkt k remip type ident seq buf len m).bind fun (pkt, m) =>
    (ipSend k pkt m).map fun (retval, m) => (retval, m.restore mask)

def udpSend (slot : ℤ) (buff : ℕ → Byte) (len : ℤ) (m : Machine) :
    Option (Word × Machine) :=
  let (mask, m) := m.disable
  if slot < 0 ∨ slot ≥ UDP_SLOTS then some (SYSERR, m.restore mask)
  else if (m.net.udptab.tab slot).state = .free then
    some (SYSERR, m.restore mask)
  else if (m.net.udptab.tab slot).key.udremip = 0 then
    some (SYSERR, m.restore mask)
  else
    let net := m.net
    let m := syscall k .getbuf m
    match k.getbuf with
    | none => some (SYSERR, m.restore mask)
    | some (addr, bytes) =>
        let pkt := written ⟨.reply, addr, bytes⟩
          (udpSendPkt net m.sendIdent slot buff len)
        let m := { m with sendIdent := m.sendIdent + 1 }
        (ipSend k pkt m).map fun (_, m) => (OK, m.restore mask)

def udpSendto (slot : ℤ) (remip : Word) (remport : BitVec 16)
    (buff : ℕ → Byte) (len : ℤ) (m : Machine) : Option (Word × Machine) :=
  let (mask, m) := m.disable
  if slot < 0 ∨ slot ≥ UDP_SLOTS then some (SYSERR, m.restore mask)
  else if (m.net.udptab.tab slot).state = .free then
    some (SYSERR, m.restore mask)
  else
    let m := syscall k .getbuf m
    match k.getbuf with
    | none => some (SYSERR, m.restore mask)
    | some (addr, bytes) =>
        let pkt := written ⟨.reply, addr, bytes⟩
          (udpSendtoPkt m.net m.sendtoIdent slot remip remport buff len)
        let m := { m with sendtoIdent := m.sendtoIdent + 1 }
        (ipSend k pkt m).map fun (_, m) => (OK, m.restore mask)

/-! ## The law of the mask -/

/-- The mask that was in force at entry is in force when the call returns. -/
def Restores (m : Machine) (call : Option (Word × Machine)) : Prop :=
  ∀ r ∈ call, r.2.mask = m.mask

/-- The first message that is no timeout, if one comes in the tries of
`arp_resolve`, is not `SYSERR`. -/
def Answered : Prop :=
  ∃ msg ∈ ((List.range ARP_RETRY).map k.recvtime).find? (· ≠ TIMEOUT),
    msg ≠ SYSERR

/-- ARP has the address, or gets it. -/
def Resolvable (net : Net) (nxthop : Word) : Prop :=
  nxthop = IP_BCAST ∨ nxthop = net.ipbcast ∨
    match net.arp.find nxthop with
    | some i => (net.arp.arpcache i).arstate = .resolved
    | none => net.arp.arpAlloc ≠ none ∧ Answered k

/-- The packet goes to the local stack, is a broadcast, or its next hop is known
and can be resolved. -/
def Routed (net : Net) (dest : Word) : Prop :=
  dest &&& 0xff000000 = 0x7f000000 ∨ dest = net.ipucast ∨
    dest = IP_BCAST ∨ dest = net.ipbcast ∨
    (let nxthop := if dest &&& net.ipmask = net.ipprefix then dest
      else net.iprouter
     nxthop ≠ 0 ∧ Resolvable k net nxthop)

section Masks

variable {k} {m m' : Machine}

/-- Whatever has happened since the mask was saved, it is back after
`restore`. -/
theorem mask_restore_disable : (m'.restore m.disable.1).mask = m.mask := by
  show m.flags &&& IF &&& IF &&& IF = m.flags &&& IF
  rw [BitVec.and_assoc, BitVec.and_self, BitVec.and_assoc, BitVec.and_self]

theorem mask_disable : m.disable.2.mask = 0 := by
  show m.flags &&& ~~~IF &&& IF = 0
  rw [BitVec.and_assoc]
  exact BitVec.and_zero

theorem mask_syscall (call : Syscall) : (syscall k call m).mask = m.mask :=
  mask_restore_disable

theorem mask_freebuf (pkt : Netpacket) : (freebuf k pkt m).mask = m.mask :=
  mask_syscall (.freebuf pkt.addr)

theorem mask_arpResolve (nxthop : Word) (mac : Mac) :
    (arpResolve k nxthop mac m).2.2.mask = m.mask := by
  unfold arpResolve
  split_ifs with hbcast hnet
  · rfl
  · rfl
  · dsimp only
    split
    · split_ifs
      · exact mask_restore_disable
      · exact mask_restore_disable
    · split
      · exact mask_restore_disable
      · split_ifs
        · exact mask_restore_disable
        · exact mask_restore_disable
        · exact mask_restore_disable

/-! ## When ARP succeeds -/

/-- The loop ends with the first message of its tries that is no timeout. -/
theorem arpWait_fst (n i : ℕ) (msg : Word) (hmsg : msg = TIMEOUT ∨ n ≠ 0) :
    (arpWait k n i msg m).1 =
      (((List.range' i n).map k.recvtime).find? (· ≠ TIMEOUT)).getD TIMEOUT := by
  induction n generalizing i msg m with
  | zero =>
    rcases hmsg with hmsg | hmsg
    · exact hmsg
    · exact absurd rfl hmsg
  | succ n ih =>
    rw [arpWait, List.range'_succ, List.map_cons]
    by_cases htimeout : k.recvtime i = TIMEOUT
    · rw [List.find?_cons_of_neg (by simpa using htimeout)]
      rw [if_pos htimeout]
      exact ih (i + 1) (k.recvtime i) (Or.inl htimeout)
    · rw [List.find?_cons_of_pos (by simpa using htimeout)]
      rw [if_neg htimeout]
      rfl

theorem answered_iff :
    Answered k ↔ (arpWait k ARP_RETRY 0 OK m).1 ≠ SYSERR ∧
      (arpWait k ARP_RETRY 0 OK m).1 ≠ TIMEOUT := by
  rw [arpWait_fst ARP_RETRY 0 OK (Or.inr (by decide)), ← List.range_eq_range']
  unfold Answered
  cases hfind : ((List.range ARP_RETRY).map k.recvtime).find? (· ≠ TIMEOUT) with
  | none => simp
  | some msg =>
    have hmsg : msg ≠ TIMEOUT := by simpa using List.find?_some hfind
    simp [hmsg]

theorem arpResolve_ok (nxthop : Word) (mac : Mac) :
    (arpResolve k nxthop mac m).1 = OK ↔ Resolvable k m.net nxthop := by
  have hsyserr : SYSERR ≠ OK := by decide
  have htimeout : TIMEOUT ≠ OK := by decide
  unfold arpResolve Resolvable
  split_ifs with hbcast hnet
  · exact iff_of_true rfl (Or.inl hbcast)
  · exact iff_of_true rfl (Or.inr (Or.inl hnet))
  · rw [or_iff_right hbcast, or_iff_right hnet]
    have harp : m.disable.2.net.arp = m.net.arp := rfl
    dsimp only
    rw [harp]
    cases hfind : m.net.arp.find nxthop with
    | some i =>
      dsimp only
      split_ifs with hstate
      · exact iff_of_true rfl hstate
      · exact iff_of_false hsyserr hstate
    | none =>
      dsimp only
      cases halloc : m.net.arp.arpAlloc with
      | none => exact iff_of_false hsyserr fun h => h.1 rfl
      | some slot =>
        dsimp only
        rw [and_iff_right (Option.some_ne_none slot), answered_iff]
        split_ifs with herror hlast
        · exact iff_of_false hsyserr fun h => h.1 herror
        · exact iff_of_false htimeout fun h => h.2 hlast
        · exact iff_of_true rfl ⟨herror, hlast⟩

/-! ## The senders -/

theorem restores_some (status : Word) :
    Restores m (some (status, m'.restore m.disable.1)) := by
  rintro r ⟨⟩
  exact mask_restore_disable

theorem restores_map {α : Type} (call : Option α) (status : α → Word)
    (after : α → Machine) :
    Restores m
      (call.map fun x => (status x, (after x).restore m.disable.1)) := by
  rintro r hr
  obtain ⟨x, -, rfl⟩ := Option.map_eq_some_iff.mp hr
  exact mask_restore_disable

/-- A path without `restore` leaves interrupts disabled. -/
theorem restores_disabled (status : Word) (hmask : m'.mask = 0) :
    Restores m (some (status, m')) ↔ m.mask = 0 := by
  constructor
  · intro h
    have := h (status, m') rfl
    rw [← this]
    exact hmask
  · rintro hentry r ⟨⟩
    exact hmask.trans hentry.symm

theorem restores_ipSend (pkt : Netpacket) :
    Restores m (ipSend k pkt m) ↔
      m.mask = 0 ∨ Routed k m.net pkt.net_ipdst := by
  have hnet : m.disable.2.net = m.net := rfl
  unfold ipSend Routed
  dsimp only
  rw [hnet]
  generalize (if pkt.net_ipdst &&& m.net.ipmask = m.net.ipprefix then
    pkt.net_ipdst else m.net.iprouter) = nxthop
  split_ifs with hloop hown hbcast hnone hfail
  · exact iff_of_true (restores_map _ _ _) (Or.inr (Or.inl hloop))
  · exact iff_of_true (restores_map _ _ _) (Or.inr (Or.inr (Or.inl hown)))
  · refine iff_of_true (restores_some _) (Or.inr (Or.inr (Or.inr ?_)))
    rcases hbcast with hall | hsubnet
    · exact Or.inl hall
    · exact Or.inr (Or.inl hsubnet)
  · rw [restores_disabled _ ((mask_freebuf pkt).trans mask_disable)]
    have hrouted : ¬ (nxthop ≠ 0 ∧ Resolvable k m.net nxthop) := fun h => h.1 hnone
    tauto
  · rw [restores_disabled _ ((mask_freebuf pkt).trans
      ((mask_arpResolve nxthop _).trans mask_disable))]
    have hrouted : ¬ Resolvable k m.net nxthop :=
      fun h => hfail ((arpResolve_ok nxthop _).mpr h)
    tauto
  · have hrouted : Resolvable k m.net nxthop :=
      (@arpResolve_ok k m.disable.2 nxthop (pkt.mac 0)).mp (not_not.mp hfail)
    exact iff_of_true (restores_some _) (by tauto)

theorem restores_icmpSend
    (remip : Word) (type ident seq : BitVec 16) (buf : ℕ → Byte) (len : ℤ) :
    Restores m (icmpSend k remip type ident seq buf len m) := by
  rintro r hr
  obtain ⟨⟨pkt, m'⟩, -, hsend⟩ := Option.bind_eq_some_iff.mp hr
  exact restores_map _ _ _ r hsend

theorem restores_udpSend (slot : ℤ) (buff : ℕ → Byte) (len : ℤ) :
    Restores m (udpSend k slot buff len m) := by
  unfold udpSend
  dsimp only
  split_ifs
  · exact restores_some _
  · exact restores_some _
  · exact restores_some _
  · split
    · exact restores_some _
    · exact restores_map _ _ _

theorem restores_udpSendto
    (slot : ℤ) (remip : Word) (remport : BitVec 16) (buff : ℕ → Byte) (len : ℤ) :
    Restores m (udpSendto k slot remip remport buff len m) := by
  unfold udpSendto
  dsimp only
  split_ifs
  · exact restores_some _
  · exact restores_some _
  · split
    · exact restores_some _
    · exact restores_map _ _ _

end Masks

/-- `ip_send` restores the mask exactly if interrupts are disabled already or
the packet can be routed; the functions that call it always restore theirs. -/
theorem mask_restored_iff
    (k : Kernel) (m : Machine) (pkt : Netpacket) (slot : ℤ) (remip : Word)
    (type ident seq remport : BitVec 16) (buf : ℕ → Byte) (len : Word) :
    (Restores m (ipSend k pkt m) ↔
        m.mask = 0 ∨ Routed k m.net pkt.net_ipdst) ∧
      Restores m (icmpSend k remip type ident seq buf len.toInt m) ∧
      Restores m (udpSend k slot buf len.toInt m) ∧
      Restores m (udpSendto k slot remip remport buf len.toInt m) :=
  ⟨restores_ipSend pkt, restores_icmpSend _ _ _ _ _ _, restores_udpSend _ _ _,
    restores_udpSendto _ _ _ _ _⟩

def noRouter : Machine where
  flags := IF
  net :=
    { ipucast := 0x80000005, ipbcast := 0x800000ff, ipmask := 0xffffff00
      ipprefix := 0x80000000, iprouter := 0, ipvalid := true
      ethucast := 1, ethbcast := 0xffffffffffff
      udptab := udpInit, icmptab := icmpInit, arp := arpInit
      ipoqueue := IpOutput.ipInit ⟨.given, 0, fun _ => 0⟩, ipident := 0 }
  sendIdent := 1
  sendtoIdent := 1

/-- A kernel whose calls change nothing. -/
def quiet : Kernel where
  currpid := 1
  body _ m := m
  getbuf := some (0x1000, fun _ => 0)
  recvtime _ := OK
  write _ _ := OK

/-- A packet to a host on another network leaves interrupts disabled. -/
theorem no_route_keeps_disabled :
    ¬ Restores noRouter
      (ipSend quiet ⟨.given, 0, Function.update (fun _ => 0) 33 8⟩ noRouter) := by
  rw [restores_ipSend]
  rintro (hmask | hloop | hown | hall | hsubnet | ⟨hnxthop, -⟩)
  · exact absurd hmask (by decide)
  · exact absurd hloop (by decide)
  · exact absurd hown (by decide)
  · exact absurd hall (by decide)
  · exact absurd hsubnet (by decide)
  · exact hnxthop (by decide)

end Xinu.InterruptMasks
