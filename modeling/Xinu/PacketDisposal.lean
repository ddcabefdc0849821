import Mathlib.Data.BitVec
import Xinu.ArpCache
import Xinu.IcmpSlots
import Xinu.IpOutput
import Xinu.UdpSlots

/-!
# The disposal of packets

Every function below is given a packet in a buffer and has to free it or hand
it over, once, and leave it alone from then on.  The functions are written
with the sequence of things that they do to buffers; a packet is a sequence of
bytes, so that every header that can arrive is covered.
-/

namespace Xinu.Disposal

open ByteMemory ArpCache Icmp IpOutput PacketSlots Udp

/-! ## Watching a buffer -/

/-- The buffer that a function is given, and the one that it gets itself for a
reply. -/
inductive Buf
  | given
  | reply
  deriving DecidableEq

inductive Place
  | udp (slot : ℕ)
  | icmp (slot : ℤ)
  | ipout
  deriving DecidableEq

inductive Event
  | access (b : Buf)
  | free (b : Buf)
  | store (b : Buf) (place : Place)
  deriving DecidableEq

def Event.buf : Event → Buf
  | .access b | .free b | .store b _ => b

/-- Whether the function still has the buffer after the events; none if it has
touched the buffer without having it. -/
def watch (b : Buf) : Bool → List Event → Option Bool
  | held, [] => some held
  | held, e :: events =>
      if e.buf ≠ b then watch b held events
      else if held = false then none
      else
        match e with
        | .access _ => watch b true events
        | .free _ | .store _ _ => watch b false events

/-! ## Packets -/

/-- A packet buffer: its address and its bytes. -/
structure Netpacket where
  buf : Buf
  addr : Word
  bytes : ℕ → BitVec 8

def ETH_HDR_LEN : ℤ := 14
def IP_HDR_LEN : ℤ := 20
def ICMP_HDR_LEN : ℤ := 8
def IP_ICMP : BitVec 8 := 1
def IP_UDP : BitVec 8 := 17

def ntohs (x : BitVec 16) : BitVec 16 :=
  (0xff &&& (x >>> 8)) ||| ((0xff &&& x) <<< 8)

def htons (x : BitVec 16) : BitVec 16 := ntohs x

def ntohl (x : Word) : Word :=
  ((x >>> 24) &&& 0x000000ff) ||| ((x >>> 8) &&& 0x0000ff00) |||
    ((x <<< 8) &&& 0x00ff0000) ||| ((x <<< 24) &&& 0xff000000)

namespace Netpacket

variable (pkt : Netpacket)

def u16 (i : ℕ) : BitVec 16 := pkt.bytes (i + 1) ++ pkt.bytes i

def u32 (i : ℕ) : Word :=
  pkt.bytes (i + 3) ++ pkt.bytes (i + 2) ++ pkt.bytes (i + 1) ++ pkt.bytes i

def set8 (i : ℕ) (x : BitVec 8) : Netpacket :=
  { pkt with bytes := Function.update pkt.bytes i x }

def set16 (i : ℕ) (x : BitVec 16) : Netpacket :=
  (pkt.set8 i (x.extractLsb' 0 8)).set8 (i + 1) (x.extractLsb' 8 8)

def set32 (i : ℕ) (x : Word) : Netpacket :=
  (pkt.set16 i (x.extractLsb' 0 16)).set16 (i + 2) (x.extractLsb' 16 16)

/-- `memcpy` of an Ethernet address to offset `i`. -/
def setMac (i : ℕ) (mac : Mac) : Netpacket :=
  { pkt with bytes := fun k =>
      if i ≤ k ∧ k < i + 6 then mac.extractLsb' (8 * (i + 5 - k)) 8
      else pkt.bytes k }

def mac (i : ℕ) : Mac :=
  pkt.bytes i ++ pkt.bytes (i + 1) ++ pkt.bytes (i + 2) ++ pkt.bytes (i + 3) ++
    pkt.bytes (i + 4) ++ pkt.bytes (i + 5)

/-- `memcpy` of `len` bytes from offset `i` of another packet to the same
offset. -/
def copy (i : ℕ) (len : ℤ) (source : Netpacket) : Netpacket :=
  { pkt with bytes := fun k =>
      if i ≤ k ∧ ((k - i : ℕ) : ℤ) < len then source.bytes k else pkt.bytes k }

def net_ipvh : BitVec 8 := pkt.bytes 14
def net_iplen : BitVec 16 := pkt.u16 16
def net_ipproto : BitVec 8 := pkt.bytes 23
def net_ipsrc : Word := pkt.u32 26
def net_ipdst : Word := pkt.u32 30
def net_ictype : BitVec 8 := pkt.bytes 34
def net_icident : BitVec 16 := pkt.u16 38
def net_icseq : BitVec 16 := pkt.u16 40

/-- Swap the bytes of the 16-bit field at `i`. -/
def swap16 (i : ℕ) : Netpacket := pkt.set16 i (ntohs (pkt.u16 i))

def swap32 (i : ℕ) : Netpacket := pkt.set32 i (ntohl (pkt.u32 i))

/-- `ip_ntoh` and `ip_hton`. -/
def ipNtoh : Netpacket :=
  ((((pkt.swap16 16).swap16 18).swap16 20).swap32 26).swap32 30

/-- `udp_ntoh` and `udp_hton`. -/
def udpNtoh : Netpacket := ((pkt.swap16 34).swap16 36).swap16 38

/-- `icmp_ntoh` and `icmp_hton`. -/
def icmpNtoh : Netpacket := ((pkt.swap16 36).swap16 38).swap16 40

def arpNtoh : Netpacket :=
  ((((pkt.swap16 14).swap16 16).swap16 20).swap32 28).swap32 38

def ethHton : Netpacket := pkt.swap16 12

def ipcksum : BitVec 16 :=
  let cksum : Word := ((List.range 10).map fun i =>
    (htons (pkt.u16 (14 + 2 * i))).setWidth 32).sum
  let cksum := cksum + (cksum >>> 16)
  let cksum := 0xffff &&& ~~~cksum
  if cksum = 0xffff then 0 else cksum.setWidth 16

/-- `icmp_cksum` of the ICMP message, which starts at offset 34. -/
def icmpCksum (buflen : ℤ) : BitVec 16 :=
  let scount := (buflen / 2).toNat
  let cksum : Word := ((List.range scount).map fun i =>
    (ntohs (pkt.u16 (34 + 2 * i))).setWidth 32).sum
  let cksum := if buflen % 2 ≠ 0 then
      cksum + ((pkt.bytes (34 + 2 * scount)).setWidth 32 <<< 8)
    else cksum
  let cksum := cksum + (cksum >>> 16)
  (0xffff &&& ~~~cksum).setWidth 16

@[simp] theorem buf_set8 (i : ℕ) (x : BitVec 8) :
    (pkt.set8 i x).buf = pkt.buf :=
  rfl

@[simp] theorem buf_set16 (i : ℕ) (x : BitVec 16) :
    (pkt.set16 i x).buf = pkt.buf :=
  rfl

@[simp] theorem buf_set32 (i : ℕ) (x : Word) :
    (pkt.set32 i x).buf = pkt.buf :=
  rfl

@[simp] theorem buf_setMac (i : ℕ) (mac : Mac) :
    (pkt.setMac i mac).buf = pkt.buf :=
  rfl

@[simp] theorem buf_ipNtoh : pkt.ipNtoh.buf = pkt.buf := by
  simp only [ipNtoh, swap16, swap32, buf_set16, buf_set32]

@[simp] theorem buf_udpNtoh : pkt.udpNtoh.buf = pkt.buf := by
  simp only [udpNtoh, swap16, buf_set16]

@[simp] theorem buf_icmpNtoh : pkt.icmpNtoh.buf = pkt.buf := by
  simp only [icmpNtoh, swap16, buf_set16]

@[simp] theorem buf_arpNtoh : pkt.arpNtoh.buf = pkt.buf := by
  simp only [arpNtoh, swap16, swap32, buf_set16, buf_set32]

/-- What `udp_in` reads. -/
def udp : UdpPacket := ⟨pkt.addr, pkt.net_ipsrc, pkt.u16 34, pkt.u16 36⟩

/-- What `icmp_in` reads. -/
def icmp : IcmpPacket :=
  ⟨pkt.addr, pkt.net_ictype, pkt.net_icident, pkt.net_ipsrc⟩

/-- What `arp_in` reads. -/
def arp : Arppacket where
  arp_htype := pkt.u16 14
  arp_ptype := pkt.u16 16
  arp_op := pkt.u16 20
  arp_sndha := pkt.mac 22
  arp_sndpa := pkt.u32 28
  arp_tarpa := pkt.u32 38

end Netpacket

/-! ## The functions -/

/-- `NetData`, the tables and the number of the next IP datagram. -/
structure Net where
  ipucast : Word
  ipbcast : Word
  ipmask : Word
  ipprefix : Word
  iprouter : Word
  ipvalid : Bool
  ethucast : Mac
  ethbcast : Mac
  udptab : UdpTable
  icmptab : IcmpTable
  arp : Arp
  ipoqueue : Iqentry Netpacket
  ipident : BitVec 16

/-- What the functions get from elsewhere: a buffer from the pool, the outcome
of `arp_resolve`, during which other processes run, and that of `write`. -/
structure Environment where
  getbuf : Option (Word × (ℕ → BitVec 8))
  resolve : Word → Word × Mac
  write : Netpacket → ℤ → Word

structure Done where
  net : Net
  status : Word
  events : List Event

variable (env : Environment) (net : Net) (pkt : Netpacket)

/-- The call reads or writes the packet before the rest.  A call that panics
does not end. -/
def touch (rest : Option Done) : Option Done :=
  rest.map fun d => { d with events := .access pkt.buf :: d.events }

def freebuf (status : Word) : Option Done :=
  some ⟨net, status, [.free pkt.buf]⟩

def ipEnqueue : Option Done :=
  let (ipoqueue, status) := net.ipoqueue.ipEnqueue pkt
  let net := { net with ipoqueue := ipoqueue }
  if status = SYSERR then freebuf net pkt SYSERR
  else some ⟨net, OK, [.store pkt.buf .ipout]⟩

/-- `udp_in`, which reads the packet for each slot in use. -/
def udpIn : Option Done :=
  let net' := { net with udptab := Udp.udpIn net.udptab pkt.udp }
  touch pkt <|
    match (List.range UDP_SLOTS).find? fun i : ℕ =>
        (net.udptab.tab i).state ≠ .free ∧
          matchesPacket (net.udptab.tab i).key pkt.udp ∧
          (net.udptab.tab i).count < UDP_QSIZ with
    | none => freebuf net' pkt OK
    | some i => some ⟨net', OK, [.store pkt.buf (.udp i)]⟩

/-- `icmp_mkpkt` for the reply to an echo request, in a buffer of its own. -/
def icmpMkpkt : Option (Net × Netpacket) :=
  env.getbuf.map fun (addr, bytes) =>
    let len : ℤ := (pkt.net_iplen.toNat : ℤ) - IP_HDR_LEN - ICMP_HDR_LEN
    let reply : Netpacket := ⟨.reply, addr, bytes⟩
    let reply := ((reply.setMac 6 net.ethucast).set16 12 0x800).set8 14 0x45
    let reply := (reply.set8 15 0).set16 16 (BitVec.ofInt 16
      (IP_HDR_LEN + ICMP_HDR_LEN + len))
    let reply := ((reply.set16 18 net.ipident).set16 20 0).set8 22 0xff
    let reply := ((reply.set8 23 IP_ICMP).set16 24 0).set32 26 net.ipucast
    let reply := ((reply.set32 30 pkt.net_ipsrc).set8 34 ICMP_ECHOREPLY).set8 35 0
    let reply := ((reply.set16 36 0).set16 38 pkt.net_icident).set16 40
      pkt.net_icseq
    ({ net with ipident := net.ipident + 1 }, reply.copy 42 len pkt)

def icmpIn : Option Done :=
  let net' := { net with icmptab := Icmp.icmpIn net.ipucast net.icmptab pkt.icmp }
  touch pkt <|
    if pkt.net_ictype ≠ ICMP_ECHOREPLY ∧ pkt.net_ictype ≠ ICMP_ECHOREQST then
      freebuf net' pkt OK
    else if pkt.net_ictype = ICMP_ECHOREQST then
      (icmpMkpkt env net' pkt).bind fun (net, reply) =>
        touch reply <| touch pkt <| (ipEnqueue net reply).bind fun d =>
          (freebuf d.net pkt OK).map fun d' =>
            { d' with events := d.events ++ d'.events }
    else
      match replySlot net.ipucast net.icmptab pkt.icmp with
      | none => freebuf net' pkt OK
      | some slot => some ⟨net', OK, [.store pkt.buf (.icmp slot)]⟩

def ipLocal : Option Done :=
  touch pkt <|
    if pkt.net_ipproto = IP_UDP then udpIn net pkt
    else if pkt.net_ipproto = IP_ICMP then icmpIn env net pkt
    else freebuf net pkt OK

/-- `ip_in` from the place on where the headers are in host order. -/
def ipAccept : Option Done :=
  touch pkt <|
    if pkt.net_ipdst = IP_BCAST then ipLocal env net pkt
    else if ¬ net.ipvalid then
      if pkt.net_ipproto = IP_UDP then ipLocal env net pkt
      else freebuf net pkt OK
    else if pkt.net_ipdst = net.ipucast ∨ pkt.net_ipdst = net.ipbcast ∨
        pkt.net_ipdst = IP_BCAST then ipLocal env net pkt
    else freebuf net pkt OK

def ipIn : Option Done :=
  touch pkt <|
    if pkt.ipcksum ≠ 0 then freebuf net pkt OK
    else
      let pkt := pkt.ipNtoh
      touch pkt <|
        if pkt.net_ipvh ≠ 0x45 then freebuf net pkt OK
        else if pkt.net_ipproto = IP_UDP then
          touch pkt <| ipAccept env net pkt.udpNtoh
        else if pkt.net_ipproto = IP_ICMP then
          let icmplen := (pkt.net_iplen.toNat : ℤ) - IP_HDR_LEN
          if pkt.icmpCksum icmplen ≠ 0 then freebuf net pkt OK
          else touch pkt <| ipAccept env net pkt.icmpNtoh
        else ipAccept env net pkt

/-- The packet of `ip_out` in network order, with its checksums. -/
def ipOutPacket : Netpacket :=
  let pkt := if pkt.net_ipproto = IP_UDP then (pkt.set16 40 0).udpNtoh
    else if pkt.net_ipproto = IP_ICMP then
      let pkt := pkt.icmpNtoh.set16 36 0
      let cksum := pkt.icmpCksum ((pkt.net_iplen.toNat : ℤ) - IP_HDR_LEN)
      pkt.set16 36 (htons cksum)
    else pkt
  let pkt := pkt.ipNtoh.set16 24 0
  (pkt.set16 24 (htons pkt.ipcksum)).ethHton

/-- `ip_out`; the driver copies the packet before `write` returns. -/
def ipOut : Option Done :=
  let pktlen := (pkt.net_iplen.toNat : ℤ) + ETH_HDR_LEN
  let pkt := ipOutPacket pkt
  let retval := env.write pkt pktlen
  touch pkt <| touch pkt <|
    freebuf net pkt (if retval = SYSERR then SYSERR else OK)

def ipSend : Option Done :=
  let dest := pkt.net_ipdst
  touch pkt <|
    if dest &&& 0xff000000 = 0x7f000000 then ipLocal env net pkt
    else if dest = net.ipucast then ipLocal env net pkt
    else if dest = IP_BCAST ∨ dest = net.ipbcast then
      touch pkt <| ipOut env net (pkt.setMac 0 net.ethbcast)
    else
      let nxthop := if dest &&& net.ipmask = net.ipprefix then dest
        else net.iprouter
      if nxthop = 0 then freebuf net pkt SYSERR
      else
        let (retval, mac) := env.resolve nxthop
        if retval ≠ OK then freebuf net pkt SYSERR
        else touch pkt <| ipOut env net (pkt.setMac 0 mac)

/-- `arp_in`; the reply to a request is built in a local variable. -/
def arpIn : Option Done :=
  let pkt := pkt.arpNtoh
  let data : Netdata := ⟨net.ipvalid, net.ipucast, net.ipbcast, net.ethbcast⟩
  let net' := { net with arp := net.arp.arpIn data pkt.arp }
  touch pkt <|
    if pkt.arp.arp_htype ≠ ARP_HTYPE ∨ pkt.arp.arp_ptype ≠ ARP_PTYPE then
      freebuf net' pkt OK
    else touch pkt <|
      if pkt.arp.arp_op = ARP_OP_RPLY then freebuf net' pkt OK
      else if ¬ net.ipvalid ∨ pkt.arp.arp_tarpa ≠ net.ipucast then
        freebuf net' pkt OK
      else if net.arp.find pkt.arp.arp_sndpa = none ∧ net.arp.arpAlloc = none then
        freebuf net' pkt OK
      else touch pkt <| freebuf net' pkt OK

/-! ## Disposal -/

/-- The call ends, unless there is no buffer pool, and it frees or stores the
packet once and does not touch it again. -/
structure DisposesOnce (env : Environment) (call : Option Done) : Prop where
  ends : env.getbuf ≠ none → call ≠ none
  once : ∀ d ∈ call, watch .given true d.events = some false

section Rules

variable {env net pkt} {call : Option Done}

theorem DisposesOnce.touch
    (h : DisposesOnce env call) (hgiven : pkt.buf = .given) :
    DisposesOnce env (touch pkt call) where
  ends hpool := by
    unfold Disposal.touch
    rw [ne_eq, Option.map_eq_none_iff]
    exact h.ends hpool
  once d hd := by
    obtain ⟨d₀, hd₀, rfl⟩ := Option.map_eq_some_iff.mp hd
    show watch .given true (.access pkt.buf :: d₀.events) = some false
    rw [hgiven]
    exact h.once d₀ hd₀

theorem DisposesOnce.freebuf
    {status : Word} (hgiven : pkt.buf = .given) :
    DisposesOnce env (freebuf net pkt status) where
  ends _ := Option.some_ne_none _
  once d hd := by
    cases hd
    show watch .given true [.free pkt.buf] = some false
    rw [hgiven]
    rfl

theorem DisposesOnce.store
    {status : Word} {place : Place} (hgiven : pkt.buf = .given) :
    DisposesOnce env (some ⟨net, status, [.store pkt.buf place]⟩) where
  ends _ := Option.some_ne_none _
  once d hd := by
    cases hd
    show watch .given true [.store pkt.buf place] = some false
    rw [hgiven]
    rfl

/-- Events of the other buffer do not concern this one. -/
theorem watch_append_other
    {b : Buf} {held : Bool} {events : List Event}
    (hother : ∀ e ∈ events, e.buf ≠ b) (rest : List Event) :
    watch b held (events ++ rest) = watch b held rest := by
  induction events with
  | nil => rfl
  | cons e events ih =>
      have hskip : watch b held (e :: (events ++ rest)) =
          watch b held (events ++ rest) := by
        rw [watch.eq_def]
        exact if_pos (hother e List.mem_cons_self)
      rw [List.cons_append, hskip]
      exact ih fun e' he' => hother e' (List.mem_cons_of_mem _ he')

theorem udpIn_disposes (hgiven : pkt.buf = .given) :
    DisposesOnce env (udpIn net pkt) := by
  unfold udpIn
  refine DisposesOnce.touch ?_ hgiven
  split
  · exact .freebuf hgiven
  · exact .store hgiven

/-- `ip_enqueue` of a reply ends, and concerns the reply only. -/
theorem ipEnqueue_reply (hreply : pkt.buf = .reply) :
    ∃ d, ipEnqueue net pkt = some d ∧ ∀ e ∈ d.events, e.buf ≠ .given := by
  have hone : ∀ e : Event, e.buf = .reply → ∀ e' ∈ [e], e'.buf ≠ .given := by
    intro e he e' he'
    rw [List.mem_singleton.mp he', he]
    decide
  unfold ipEnqueue
  dsimp only
  split_ifs
  · exact ⟨_, rfl, hone (.free pkt.buf) hreply⟩
  · exact ⟨_, rfl, hone (.store pkt.buf .ipout) hreply⟩

theorem icmpMkpkt_reply {net' : Net} {reply : Netpacket}
    (hmk : icmpMkpkt env net pkt = some (net', reply)) :
    reply.buf = .reply := by
  obtain ⟨⟨addr, bytes⟩, -, heq⟩ := Option.map_eq_some_iff.mp hmk
  cases heq
  rfl

theorem icmpIn_disposes (hgiven : pkt.buf = .given) :
    DisposesOnce env (icmpIn env net pkt) := by
  unfold icmpIn
  refine DisposesOnce.touch ?_ hgiven
  split_ifs
  · exact .freebuf hgiven
  · generalize ({ net with
      icmptab := Icmp.icmpIn net.ipucast net.icmptab pkt.icmp } : Net) = net'
    cases hmk : icmpMkpkt env net' pkt with
    | none =>
        refine ⟨fun hpool => absurd ?_ hpool, fun d hd => by cases hd⟩
        exact Option.map_eq_none_iff.mp hmk
    | some made =>
        obtain ⟨net'', reply⟩ := made
        have hreply := icmpMkpkt_reply hmk
        obtain ⟨d, hd, hother⟩ := @ipEnqueue_reply net'' reply hreply
        rw [Option.bind_some]
        dsimp only
        rw [hd]
        refine ⟨fun _ => Option.some_ne_none _, fun d' hd' => ?_⟩
        cases hd'
        show watch .given true (.access reply.buf :: .access pkt.buf ::
          (d.events ++ [.free pkt.buf])) = some false
        rw [hreply, hgiven]
        show watch .given true (d.events ++ [.free .given]) = some false
        rw [watch_append_other hother]
        rfl
  · split
    · exact .freebuf hgiven
    · exact .store hgiven

theorem ipLocal_disposes (hgiven : pkt.buf = .given) :
    DisposesOnce env (ipLocal env net pkt) := by
  unfold ipLocal
  refine DisposesOnce.touch ?_ hgiven
  split_ifs
  · exact udpIn_disposes hgiven
  · exact icmpIn_disposes hgiven
  · exact .freebuf hgiven

theorem ipAccept_disposes (hgiven : pkt.buf = .given) :
    DisposesOnce env (ipAccept env net pkt) := by
  unfold ipAccept
  refine DisposesOnce.touch ?_ hgiven
  split_ifs
  · exact ipLocal_disposes hgiven
  · exact ipLocal_disposes hgiven
  · exact .freebuf hgiven
  · exact ipLocal_disposes hgiven
  · exact .freebuf hgiven

theorem ipIn_disposes (hgiven : pkt.buf = .given) :
    DisposesOnce env (ipIn env net pkt) := by
  have hhost : pkt.ipNtoh.buf = .given := (pkt.buf_ipNtoh).trans hgiven
  unfold ipIn
  refine DisposesOnce.touch ?_ hgiven
  dsimp only
  generalize pkt.ipNtoh = host at hhost
  split_ifs
  · exact .freebuf hgiven
  all_goals refine DisposesOnce.touch ?_ hhost
  · exact .freebuf hhost
  · refine DisposesOnce.touch (ipAccept_disposes ?_) hhost
    exact host.buf_udpNtoh.trans hhost
  · exact .freebuf hhost
  · refine DisposesOnce.touch (ipAccept_disposes ?_) hhost
    exact host.buf_icmpNtoh.trans hhost
  · exact ipAccept_disposes hhost

theorem arpIn_disposes (hgiven : pkt.buf = .given) :
    DisposesOnce env (arpIn net pkt) := by
  have hhost : pkt.arpNtoh.buf = .given := (pkt.buf_arpNtoh).trans hgiven
  unfold arpIn
  dsimp only
  generalize pkt.arpNtoh = host at hhost
  refine DisposesOnce.touch ?_ hhost
  split_ifs
  · exact .freebuf hhost
  all_goals refine DisposesOnce.touch ?_ hhost
  · exact .freebuf hhost
  · exact .freebuf hhost
  · exact .freebuf hhost
  · exact DisposesOnce.touch (.freebuf hhost) hhost

end Rules

end Xinu.Disposal
