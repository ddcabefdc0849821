import Xinu.PacketDisposal

/-!
# Lengths of UDP and ICMP packets

The receiving functions take the length of the data from a header that the
sender has filled in, and the sending functions take it from their caller.
None of them compares it with the length of the frame that has arrived or with
the size of the buffer.  The headers of a packet are in host byte order here,
and the data of UDP and of ICMP start at the same offset.
-/

namespace Xinu.PacketLengths

open ByteMemory Disposal Icmp ArpCache

abbrev Byte := BitVec 8

def PACKLEN : ℕ := 1514
def UDP_HDR_LEN : ℤ := 8

/-- The offset of `net_udpdata` and `net_icdata` in a packet. -/
def dataOffset : ℕ := 42

/-- The size of a buffer of `netbufpool`, which `mkbufpool` has rounded. -/
def netbufSize : ℕ := (PACKLEN + 3) / 4 * 4

/-- A packet in its buffer, and how many bytes of it have arrived.  The rest of
the buffer is left from other packets. -/
structure Arrived where
  pkt : Netpacket
  len : ℕ

def Arrived.netUdplen (a : Arrived) : ℤ := (a.pkt.u16 38).toNat
def Arrived.netIplen (a : Arrived) : ℤ := a.pkt.net_iplen.toNat

/-- How many bytes have arrived after the headers. -/
def Arrived.dataLen (a : Arrived) : ℤ := max 0 ((a.len : ℤ) - dataOffset)

/-! ## Receiving -/

/-- The end of a receiving call that has taken a packet: what it returns, the
caller's buffer, and the offsets of the packet that it has copied. -/
structure Received where
  retval : Word
  buff : ℕ → Byte
  reads : List ℕ

/-- `n` further turns of the loop that copies the data, from the `i`-th byte
on.  The loop ends early before byte `stop`. -/
def copyLoop (data : ℕ → Byte) (stop : Option ℤ) :
    ℕ → ℕ → (ℕ → Byte) → List ℕ → ℕ × (ℕ → Byte) × List ℕ
  | 0, i, buff, reads => (i, buff, reads)
  | n + 1, i, buff, reads =>
      if ∃ len ∈ stop, (i : ℤ) ≥ len then (i, buff, reads)
      else
        copyLoop data stop n (i + 1)
          (Function.update buff i (data (dataOffset + i)))
          (reads ++ [dataOffset + i])

/-- The rest of `udp_recv`, after it has taken a packet from its slot. -/
def udpRecv (a : Arrived) (buff : ℕ → Byte) (len : Word) : Received :=
  let msglen := a.netUdplen - UDP_HDR_LEN
  let msglen := if len.toInt < msglen then len.toInt else msglen
  let (_, buff, reads) := copyLoop a.pkt.bytes none msglen.toNat 0 buff []
  ⟨BitVec.ofInt 32 msglen, buff, reads⟩

/-- The rest of `udp_recvaddr`, which also gives the sender's address and
port. -/
def udpRecvaddr (a : Arrived) (buff : ℕ → Byte) (len : Word) :
    Received × Word × BitVec 16 :=
  let remip := a.pkt.net_ipsrc
  let remport := a.pkt.u16 34
  let msglen := a.netUdplen - UDP_HDR_LEN
  let msglen := if len.toInt < msglen then len.toInt else msglen
  let (_, buff, reads) := copyLoop a.pkt.bytes none msglen.toNat 0 buff []
  (⟨BitVec.ofInt 32 msglen, buff, reads⟩, remip, remport)

/-- The rest of `icmp_recv`, which returns the index of its loop. -/
def icmpRecv (a : Arrived) (buff : ℕ → Byte) (len : Word) : Received :=
  let datalen := a.netIplen - IP_HDR_LEN - ICMP_HDR_LEN
  let (i, buff, reads) :=
    copyLoop a.pkt.bytes (some len.toInt) datalen.toNat 0 buff []
  ⟨BitVec.ofInt 32 i, buff, reads⟩

/-! ## Sending -/

/-- Bytes that are written to a packet buffer, from an offset on. -/
abbrev Store := ℕ × List Byte

def store8 (i : ℕ) (x : Byte) : Store := (i, [x])

def store16 (i : ℕ) (x : BitVec 16) : Store :=
  (i, [x.extractLsb' 0 8, x.extractLsb' 8 8])

def store32 (i : ℕ) (x : Word) : Store :=
  (i, [x.extractLsb' 0 8, x.extractLsb' 8 8, x.extractLsb' 16 8,
    x.extractLsb' 24 8])

def storeMac (i : ℕ) (mac : Mac) : Store :=
  (i, (List.range 6).map fun k => mac.extractLsb' (8 * (5 - k)) 8)

/-- `memcpy`, whose length is an `int`. -/
def memcpy (i : ℕ) (source : ℕ → Byte) (n : ℤ) : Store :=
  (i, (List.range n.toNat).map source)

def written (pkt : Netpacket) (stores : List Store) : Netpacket :=
  stores.foldl (fun pkt s =>
    { pkt with bytes := fun k =>
        if s.1 ≤ k then s.2.getD (k - s.1) (pkt.bytes k) else pkt.bytes k }) pkt

section Senders

variable (net : Net)

/-- What `icmp_mkpkt` writes to a buffer, apart from the data. -/
def icmpFields (remip : Word) (type ident seq : BitVec 16) (len : ℤ) :
    List Store :=
  [storeMac 6 net.ethucast, store16 12 0x800, store8 14 0x45, store8 15 0,
    store16 16 (BitVec.ofInt 16 (IP_HDR_LEN + ICMP_HDR_LEN + len)),
    store16 18 net.ipident, store16 20 0, store8 22 0xff, store8 23 IP_ICMP,
    store16 24 0, store32 26 net.ipucast, store32 30 remip,
    store8 34 (type.setWidth 8), store8 35 0, store16 36 0, store16 38 ident,
    store16 40 seq]

/-- `icmp_mkpkt` in the buffer that it has got. -/
def icmpMkpkt (remip : Word) (type ident seq : BitVec 16) (buf : ℕ → Byte)
    (len : ℤ) : List Store :=
  icmpFields net remip type ident seq len ++ [memcpy dataOffset buf len]

/-- What `icmp_in` writes to the buffer of its answer to an echo request. -/
def echoReply (a : Arrived) : List Store :=
  icmpMkpkt net a.pkt.net_ipsrc (ICMP_ECHOREPLY.setWidth 16) a.pkt.net_icident
    a.pkt.net_icseq (fun k => a.pkt.bytes (dataOffset + k))
    (a.netIplen - IP_HDR_LEN - ICMP_HDR_LEN)

/-- The fields of the packets of `udp_send` and `udp_sendto`. -/
def udpFields (ident : BitVec 16) (remip : Word) (remport locport : BitVec 16)
    (len : ℤ) : List Store :=
  let pktlen := (dataOffset : ℤ) + len
  [storeMac 6 net.ethucast, store16 12 0x800, store8 14 0x45, store8 15 0,
    store16 16 (BitVec.ofInt 16 (pktlen - ETH_HDR_LEN)),
    store16 18 ident, store16 20 0, store8 22 0xff, store8 23 IP_UDP,
    store16 24 0, store32 26 net.ipucast, store32 30 remip,
    store16 34 locport, store16 36 remport,
    store16 38 (BitVec.ofInt 16 (UDP_HDR_LEN + len)), store16 40 0]

/-- What `udp_send` writes to the buffer that it has got. -/
def udpSendPkt (ident : BitVec 16) (slot : ℤ) (buff : ℕ → Byte) (len : ℤ) :
    List Store :=
  let udptr := net.udptab.tab slot
  udpFields net ident udptr.key.udremip udptr.key.udremport udptr.key.udlocport
    len ++ [memcpy dataOffset buff len]

/-- What `udp_sendto` writes to the buffer that it has got. -/
def udpSendtoPkt (ident : BitVec 16) (slot : ℤ) (remip : Word)
    (remport : BitVec 16) (buff : ℕ → Byte) (len : ℤ) : List Store :=
  let udptr := net.udptab.tab slot
  udpFields net ident remip remport udptr.key.udlocport len ++
    [memcpy dataOffset buff len]

end Senders

/-! ## Lengths -/

/-- Everything that a call has copied from the packet lies in the frame that has
arrived. -/
def ReadsInside (a : Arrived) (r : Received) : Prop :=
  ∀ i ∈ r.reads, i < a.len

/-- The call returns a length between 0 and that of the caller's buffer. -/
def ReturnsWithin (len : Word) (r : Received) : Prop :=
  0 ≤ r.retval.toInt ∧ r.retval.toInt ≤ len.toInt

/-- The call returns as many bytes of the datagram as it has copied, and its
result is no error code. -/
structure Delivers (a : Arrived) (len : Word) (r : Received) : Prop where
  within : ReturnsWithin len r
  copied : (r.reads.length : ℤ) = r.retval.toInt
  data : ∀ k < r.reads.length, r.buff k = a.pkt.bytes (dataOffset + k)
  inside : ReadsInside a r
  datagram : r.retval.toInt ≤ a.netUdplen - UDP_HDR_LEN
  success : r.retval ≠ SYSERR ∧ r.retval ≠ TIMEOUT

def WritesInside (stores : List Store) : Prop :=
  ∀ s ∈ stores, s.1 + s.2.length ≤ netbufSize

/-- The data of the request, as far as it has arrived. -/
def requestData (a : Arrived) : List Byte :=
  (List.range (min (a.netIplen - IP_HDR_LEN - ICMP_HDR_LEN) a.dataLen).toNat).map
    fun k => a.pkt.bytes (dataOffset + k)

/-- The answer to an echo request fits in its buffer and has the data of the
request. -/
structure Echoes (a : Arrived) (stores : List Store) : Prop where
  inside : WritesInside stores
  data : stores.getLast? = some (dataOffset, requestData a)

/-- The condition for `udp_recv` and `udp_recvaddr`. -/
structure DatagramFits (a : Arrived) (len : Word) : Prop where
  room : 0 ≤ len.toInt
  header : UDP_HDR_LEN ≤ a.netUdplen
  arrived : min len.toInt (a.netUdplen - UDP_HDR_LEN) ≤ a.dataLen

/-- The condition for the answer to an echo request. -/
structure RequestFits (a : Arrived) : Prop where
  buffer : a.netIplen - IP_HDR_LEN - ICMP_HDR_LEN ≤
    (netbufSize : ℤ) - dataOffset
  arrived : a.netIplen - IP_HDR_LEN - ICMP_HDR_LEN ≤ a.dataLen

/-- The condition for a packet with data of the caller. -/
def DataFits (len : Word) : Prop :=
  len.toInt ≤ (netbufSize : ℤ) - dataOffset

/-! ## The loop -/

section Loop

variable {data : ℕ → Byte} {stop : Option ℤ}

def turns (stop : Option ℤ) (n : ℕ) : ℕ :=
  match stop with
  | none => n
  | some len => min n len.toNat

theorem turns_stopped {i : ℕ} (h : ∃ len ∈ stop, (i : ℤ) ≥ len) (n : ℕ) :
    turns (stop.map (· - (i : ℤ))) n = 0 := by
  obtain ⟨len, hlen, hge⟩ := h
  cases hlen
  show min n (len - (i : ℤ)).toNat = 0
  omega

theorem turns_succ {i : ℕ} (h : ¬ ∃ len ∈ stop, (i : ℤ) ≥ len) (n : ℕ) :
    turns (stop.map (· - (i : ℤ))) (n + 1) =
      turns (stop.map (· - ((i + 1 : ℕ) : ℤ))) n + 1 := by
  cases stop with
  | none => rfl
  | some len =>
    have hlt : (i : ℤ) < len := by
      by_contra hge
      exact h ⟨len, rfl, by omega⟩
    show min (n + 1) (len - (i : ℤ)).toNat =
      min n (len - ((i + 1 : ℕ) : ℤ)).toNat + 1
    omega

theorem copied_none (i : ℕ) (buff : ℕ → Byte) :
    (fun k => if i ≤ k ∧ k < i + 0 then data (dataOffset + k) else buff k) = buff := by
  funext k
  rw [if_neg (by omega)]

theorem copyLoop_spec (n i : ℕ) (buff : ℕ → Byte) (reads : List ℕ) :
    let m := turns (stop.map (· - (i : ℤ))) n
    copyLoop data stop n i buff reads =
      (i + m,
        fun k => if i ≤ k ∧ k < i + m then data (dataOffset + k) else buff k,
        reads ++ (List.range m).map fun k => dataOffset + (i + k)) := by
  induction n generalizing i buff reads with
  | zero =>
    have hm : turns (stop.map (· - (i : ℤ))) 0 = 0 := by
      cases stop with
      | none => rfl
      | some len => exact Nat.zero_min _
    dsimp only
    rw [hm, copyLoop, copied_none]
    simp
  | succ n ih =>
    rw [copyLoop]
    by_cases hstop : ∃ len ∈ stop, (i : ℤ) ≥ len
    · dsimp only
      rw [turns_stopped hstop, if_pos hstop, copied_none]
      simp
    · dsimp only
      rw [if_neg hstop, ih, turns_succ hstop]
      generalize turns (stop.map (· - ((i + 1 : ℕ) : ℤ))) n = m
      refine Prod.ext (by dsimp only; omega) (Prod.ext ?_ ?_)
      · funext k
        dsimp only
        by_cases hk : k = i
        · subst hk
          rw [if_neg (by omega), if_pos (by omega), Function.update_self]
        · rw [Function.update_of_ne hk]
          exact if_congr (by omega) rfl rfl
      · dsimp only
        rw [List.append_assoc, List.range_succ_eq_map]
        congr 1
        simp only [List.map_cons, List.map_map, List.cons_append,
          List.nil_append, Nat.add_zero]
        congr 1
        apply List.map_congr_left
        intro k hk
        show dataOffset + (i + 1 + k) = dataOffset + (i + (k + 1))
        omega

theorem copyLoop_zero (n : ℕ) (buff : ℕ → Byte) :
    copyLoop data stop n 0 buff [] =
      (turns stop n,
        fun k => if k < turns stop n then data (dataOffset + k) else buff k,
        (List.range (turns stop n)).map fun k => dataOffset + k) := by
  have h := @copyLoop_spec data stop n 0 buff []
  have hstop : stop.map (· - ((0 : ℕ) : ℤ)) = stop := by
    cases stop <;> simp
  dsimp only at h
  rw [hstop] at h
  simpa using h

theorem forall_reads {len m : ℕ} :
    (∀ i ∈ (List.range m).map fun k => dataOffset + k, i < len) ↔
      (m : ℤ) ≤ max 0 ((len : ℤ) - dataOffset) := by
  constructor
  · intro h
    cases m with
    | zero => omega
    | succ m =>
      have := h (dataOffset + m) (List.mem_map.mpr
        ⟨m, List.mem_range.mpr (Nat.lt_succ_self m), rfl⟩)
      omega
  · intro h i hi
    obtain ⟨k, hk, rfl⟩ := List.mem_map.mp hi
    have := List.mem_range.mp hk
    omega

end Loop

/-! ## Receiving within the lengths -/

section Receiving

variable {a : Arrived} {buff : ℕ → Byte} {len : Word}

theorem toInt_retval {n : ℤ} (hlow : -2 ^ 31 ≤ n) (hhigh : n < 2 ^ 31) :
    (BitVec.ofInt 32 n).toInt = n := by
  rw [BitVec.toInt_ofInt]
  exact Int.bmod_eq_of_le (by norm_num; omega) (by norm_num; omega)

theorem udpRecv_spec :
    let msglen := min len.toInt (a.netUdplen - UDP_HDR_LEN)
    (udpRecv a buff len).retval.toInt = msglen ∧
      (udpRecv a buff len).reads =
        (List.range msglen.toNat).map (fun k => dataOffset + k) ∧
      ∀ k < msglen.toNat,
        (udpRecv a buff len).buff k = a.pkt.bytes (dataOffset + k) := by
  have hmin : (if len.toInt < a.netUdplen - UDP_HDR_LEN then len.toInt
      else a.netUdplen - UDP_HDR_LEN) =
      min len.toInt (a.netUdplen - UDP_HDR_LEN) := by
    by_cases hlt : len.toInt < a.netUdplen - UDP_HDR_LEN
    · rw [if_pos hlt]
      omega
    · rw [if_neg hlt]
      omega
  have hlow : -2 ^ 31 ≤ len.toInt := BitVec.le_toInt len
  have hudplen : 0 ≤ a.netUdplen ∧ a.netUdplen < 2 ^ 16 := by
    have := (a.pkt.u16 38).isLt
    unfold Arrived.netUdplen
    omega
  dsimp only
  unfold udpRecv
  dsimp only
  rw [hmin, copyLoop_zero]
  refine ⟨?_, rfl, fun k hk => if_pos hk⟩
  apply toInt_retval <;> unfold UDP_HDR_LEN at * <;> omega

theorem delivers_udpRecv :
    Delivers a len (udpRecv a buff len) ↔ DatagramFits a len := by
  obtain ⟨hret, hreads, hdata⟩ := @udpRecv_spec a buff len
  have hlength : (udpRecv a buff len).reads.length =
      (min len.toInt (a.netUdplen - UDP_HDR_LEN)).toNat := by
    rw [hreads, List.length_map, List.length_range]
  constructor
  · intro h
    have hnonneg := h.within.1
    rw [hret] at hnonneg
    have hinside := h.inside
    unfold ReadsInside at hinside
    rw [hreads, forall_reads] at hinside
    exact ⟨by omega, by omega, by unfold Arrived.dataLen; omega⟩
  · rintro ⟨hroom, hheader, harrived⟩
    refine ⟨⟨?_, ?_⟩, ?_, ?_, ?_, ?_, ?_, ?_⟩
    · rw [hret]
      omega
    · rw [hret]
      omega
    · rw [hlength, hret]
      omega
    · rw [hlength]
      exact hdata
    · unfold ReadsInside
      rw [hreads, forall_reads]
      unfold Arrived.dataLen at harrived
      omega
    · rw [hret]
      omega
    · intro heq
      rw [heq] at hret
      have : SYSERR.toInt = -1 := by decide
      omega
    · intro heq
      rw [heq] at hret
      have : TIMEOUT.toInt = -3 := by decide
      omega

theorem udpRecvaddr_fst : (udpRecvaddr a buff len).1 = udpRecv a buff len :=
  rfl

theorem icmpRecv_spec :
    let n := min (a.netIplen - IP_HDR_LEN - ICMP_HDR_LEN).toNat len.toInt.toNat
    (icmpRecv a buff len).retval.toInt = n ∧
      (icmpRecv a buff len).reads =
        (List.range n).map (fun k => dataOffset + k) := by
  have hiplen : a.netIplen < 2 ^ 16 := by
    have := a.pkt.net_iplen.isLt
    unfold Arrived.netIplen
    omega
  dsimp only
  unfold icmpRecv
  dsimp only
  rw [copyLoop_zero]
  refine ⟨?_, rfl⟩
  have hturns : turns (some len.toInt)
        (a.netIplen - IP_HDR_LEN - ICMP_HDR_LEN).toNat =
      min (a.netIplen - IP_HDR_LEN - ICMP_HDR_LEN).toNat len.toInt.toNat :=
    rfl
  rw [hturns]
  apply toInt_retval <;> unfold IP_HDR_LEN ICMP_HDR_LEN at * <;> omega

theorem returnsWithin_icmpRecv :
    ReturnsWithin len (icmpRecv a buff len) ↔ 0 ≤ len.toInt := by
  obtain ⟨hret, -⟩ := @icmpRecv_spec a buff len
  unfold ReturnsWithin
  rw [hret]
  omega

theorem readsInside_icmpRecv :
    ReadsInside a (icmpRecv a buff len) ↔
      min (a.netIplen - IP_HDR_LEN - ICMP_HDR_LEN) len.toInt ≤ a.dataLen := by
  obtain ⟨-, hreads⟩ := @icmpRecv_spec a buff len
  unfold ReadsInside Arrived.dataLen
  rw [hreads, forall_reads]
  omega

end Receiving

/-! ## Sending within the lengths -/

section Sending

variable {net : Net}

theorem length_memcpy (i : ℕ) (source : ℕ → Byte) (n : ℤ) :
    (memcpy i source n).2.length = n.toNat := by
  show ((List.range n.toNat).map source).length = n.toNat
  rw [List.length_map, List.length_range]

theorem icmpFields_end
    (remip : Word) (type ident seq : BitVec 16) (len : ℤ) :
    ∀ s ∈ icmpFields net remip type ident seq len,
      s.1 + s.2.length ≤ dataOffset := by
  simp [icmpFields, store8, store16, store32, storeMac, dataOffset]

theorem udpFields_end
    (ident : BitVec 16) (remip : Word) (remport locport : BitVec 16) (len : ℤ) :
    ∀ s ∈ udpFields net ident remip remport locport len,
      s.1 + s.2.length ≤ dataOffset := by
  simp [udpFields, store8, store16, store32, storeMac, dataOffset]

theorem writesInside_append
    {fields : List Store} (buf : ℕ → Byte) (len : ℤ)
    (hfields : ∀ s ∈ fields, s.1 + s.2.length ≤ dataOffset) :
    WritesInside (fields ++ [memcpy dataOffset buf len]) ↔
      len ≤ (netbufSize : ℤ) - dataOffset := by
  have hsize : netbufSize = 1516 := rfl
  have hoffset : dataOffset = 42 := rfl
  constructor
  · intro h
    have hdata := h (memcpy dataOffset buf len)
      (List.mem_append_right _ (List.mem_singleton_self _))
    rw [length_memcpy] at hdata
    have hfst : (memcpy dataOffset buf len).1 = dataOffset := rfl
    omega
  · intro hlen s hs
    rcases List.mem_append.mp hs with hs | hs
    · have := hfields s hs
      omega
    · rw [List.mem_singleton.mp hs, length_memcpy]
      have hfst : (memcpy dataOffset buf len).1 = dataOffset := rfl
      omega

theorem echoes_echoReply {a : Arrived} :
    Echoes a (echoReply net a) ↔ RequestFits a := by
  have hinside : WritesInside (echoReply net a) ↔
      a.netIplen - IP_HDR_LEN - ICMP_HDR_LEN ≤
        (netbufSize : ℤ) - dataOffset :=
    writesInside_append _ _ (icmpFields_end _ _ _ _ _)
  have hlast : (echoReply net a).getLast? =
      some (memcpy dataOffset (fun k => a.pkt.bytes (dataOffset + k))
        (a.netIplen - IP_HDR_LEN - ICMP_HDR_LEN)) :=
    List.getLast?_concat
  have hpos : 0 ≤ a.dataLen := le_max_left _ _
  constructor
  · intro h
    refine ⟨hinside.mp h.inside, ?_⟩
    have hdata := h.data
    rw [hlast] at hdata
    have hlength := congrArg (fun s => s.2.length) (Option.some.inj hdata)
    dsimp only at hlength
    rw [length_memcpy, requestData, List.length_map, List.length_range] at hlength
    omega
  · intro h
    refine ⟨hinside.mpr h.buffer, ?_⟩
    have harrived := h.arrived
    rw [hlast, requestData, min_eq_left harrived]
    rfl

end Sending

/-! ## The law of the lengths -/

/-- Each function stays inside the packet exactly if the lengths that it does not
compare fit: the receiving ones if the header counts its own bytes and what is
copied has arrived, the sending ones if the data fits in the buffer. -/
theorem lengths_inside_iff
    (net : Net) (a : Arrived) (buff : ℕ → Byte) (len remip : Word)
    (slot : ℤ) (type ident seq remport : BitVec 16) :
    (Delivers a len (udpRecv a buff len) ↔ DatagramFits a len) ∧
      (Delivers a len (udpRecvaddr a buff len).1 ↔ DatagramFits a len) ∧
      (Echoes a (echoReply net a) ↔ RequestFits a) ∧
      (ReturnsWithin len (icmpRecv a buff len) ↔ 0 ≤ len.toInt) ∧
      (ReadsInside a (icmpRecv a buff len) ↔
        min (a.netIplen - IP_HDR_LEN - ICMP_HDR_LEN) len.toInt ≤ a.dataLen) ∧
      (WritesInside (udpSendPkt net ident slot buff len.toInt) ↔
        DataFits len) ∧
      (WritesInside (udpSendtoPkt net ident slot remip remport buff len.toInt) ↔
        DataFits len) ∧
      (WritesInside (icmpMkpkt net remip type ident seq buff len.toInt) ↔
        DataFits len) :=
  ⟨delivers_udpRecv, by rw [udpRecvaddr_fst]; exact delivers_udpRecv,
    echoes_echoReply, returnsWithin_icmpRecv, readsInside_icmpRecv,
    writesInside_append _ _ (udpFields_end _ _ _ _ _),
    writesInside_append _ _ (udpFields_end _ _ _ _ _),
    writesInside_append _ _ (icmpFields_end _ _ _ _ _)⟩

/-- A datagram of 64 bytes whose UDP length is 7. -/
def shortLength : Arrived :=
  ⟨⟨.given, 0, Function.update (fun _ => 0) 38 7⟩, 64⟩

/-- `udp_recv` returns `SYSERR` for it, after it has taken it from the slot. -/
theorem short_length_is_syserr :
    ¬ Delivers shortLength 100 (udpRecv shortLength (fun _ => 0) 100) := by
  intro h
  exact h.success.1 (by decide)

end Xinu.PacketLengths
