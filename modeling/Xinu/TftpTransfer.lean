import Xinu.HeapAllocator

/-!
# File transfer

`tftpget_mb` asks a server for a file and stores the blocks that arrive, one
after the other, in the buffers of its caller.  The network is the list of
what the calls of the UDP module give back: any list, so that packets may be
lost, doubled, late and in any order.  A call that finds the list empty is
still waiting, and so is a loop that has used up its fuel.
-/

namespace Xinu.Tftp

open ByteMemory

abbrev Octet := BitVec 8

/-! ## tftp.h -/

def TFTP_RRQ : ℕ := 1
def TFTP_DATA : ℕ := 3
def TFTP_ACK : ℕ := 4
def TFTP_ERROR : ℕ := 5

def TFTP_PORT : ℕ := 69
def TFTP_MAXNAM : ℕ := 64
def TFTP_MAXDATA : ℕ := 512
def TFTP_MAXRETRIES : ℕ := 3

/-- `sizeof(struct tftp_msg)`. -/
def MSG_SIZE : ℤ := 516

def UDP_HDR_LEN : ℤ := 8

/-! ## The state of a transfer -/

structure Packet where
  sport : ℕ
  udplen : BitVec 16
  udpdata : ℕ → Octet

/-- What a call of `udp_recvaddr` meets. -/
inductive Received
  | packet (pkt : Packet)
  | timeout
  | error

/-- The variables of `tftpget_mb`, and the network: whether each call of
`udp_sendto` succeeds, and what each call of `udp_recvaddr` meets. -/
structure Transfer where
  sends : List Bool
  receives : List Received
  /-- The messages sent, with their ports. -/
  sent : List (ℕ × List Octet)
  /-- The UDP slot is registered. -/
  registered : Bool
  remport : ℕ
  expected : ℕ
  /-- `outmsg`, up to `mlen`. -/
  outmsg : List Octet
  inmsg : ℕ → Octet
  rcvBufs : List (List Octet)
  currBufInd : ℕ
  currUsed : ℕ
  filesiz : Word

/-- `ntohs` of the two octets at an offset. -/
def ntohs (msg : ℕ → Octet) (i : ℕ) : ℕ := 256 * (msg i).toNat + (msg (i + 1)).toNat

/-- The octets of `htons` of a number. -/
def htons (n : ℕ) : List Octet := [BitVec.ofNat 8 (n / 256), BitVec.ofNat 8 n]

namespace Transfer

variable (s : Transfer)

def udpSendto : Option (ℤ × Transfer) :=
  match s.sends with
  | [] => none
  | ok :: sends =>
      some (if ok then OK.toInt else SYSERR.toInt,
        { s with sends := sends, sent := s.sent ++ [(s.remport, s.outmsg)] })

/-- A packet shorter than a UDP header gives a negative length. -/
def udpRecvaddr : Option (ℤ × Transfer) :=
  match s.receives with
  | [] => none
  | .timeout :: receives => some (TIMEOUT.toInt, { s with receives := receives })
  | .error :: receives => some (SYSERR.toInt, { s with receives := receives })
  | .packet pkt :: receives =>
      let msglen : ℤ := pkt.udplen.toNat - UDP_HDR_LEN
      let msglen := if MSG_SIZE < msglen then MSG_SIZE else msglen
      some (msglen, { s with
        receives := receives
        remport := pkt.sport
        inmsg := fun i => if i < msglen then pkt.udpdata i else s.inmsg i })

def udpRelease : Transfer := { s with registered := false }

/-! ## tftp.c -/

def tfOpcode : ℕ := ntohs s.inmsg 0
def tfDblk : ℕ := ntohs s.inmsg 2
def tfData (dlen : ℕ) : List Octet := (List.range dlen).map fun i => s.inmsg (4 + i)

/-- The loop of `tftp_send1`. -/
def readLoop : ℕ → Transfer → Option (ℤ × Transfer)
  | 0, _ => none
  | fuel + 1, s => do
      let (n, s) ← s.udpRecvaddr
      if n = SYSERR.toInt then return (SYSERR.toInt, s)
      if n = TIMEOUT.toInt then return (TIMEOUT.toInt, s)
      if n < 4 then readLoop fuel s
      else if s.tfOpcode = TFTP_ERROR then return (SYSERR.toInt, s)
      else if s.tfOpcode = TFTP_DATA ∧ s.tfDblk = s.expected then return (n, s)
      else readLoop fuel s

def tftpSend1 (fuel : ℕ) : Option (ℤ × Transfer) := do
  let (ret, s) ← s.udpSendto
  if ret = SYSERR.toInt then return (SYSERR.toInt, s)
  readLoop fuel s

/-- The retransmissions of a request; `SYSERR` also when they are used up. -/
def retryLoop (fuel : ℕ) : ℕ → Transfer → Option (ℤ × Transfer)
  | 0, s => some (SYSERR.toInt, s)
  | i + 1, s => do
      let (n, s) ← s.tftpSend1 fuel
      if n > 0 ∨ n = SYSERR.toInt then return (n, s)
      else retryLoop fuel i s

def currBuf : List Octet := s.rcvBufs.getD s.currBufInd []

/-- `*curr_buf++ = octet`, with the counters. -/
def storeOctet (octet : Octet) : Transfer :=
  { s with
    rcvBufs := s.rcvBufs.set s.currBufInd (s.currBuf.set s.currUsed octet)
    currUsed := s.currUsed + 1
    filesiz := s.filesiz + 1 }

/-- The loop that stores a block; `true` when the buffers are full. -/
def storeLoop : List Octet → Transfer → Transfer × Bool
  | [], s => (s, false)
  | octet :: data, s =>
      if s.currUsed ≥ s.currBuf.length then
        let s := { s with currBufInd := s.currBufInd + 1 }
        if s.currBufInd ≥ s.rcvBufs.length then (s, true)
        else storeLoop data ({ s with currUsed := 0 }.storeOctet octet)
      else storeLoop data (s.storeOctet octet)

def formAck : Transfer := { s with outmsg := htons TFTP_ACK ++ htons s.expected }

/-- The loop of `tftpget_mb`. -/
def blockLoop : ℕ → Transfer → Option (ℤ × Transfer)
  | 0, _ => none
  | fuel + 1, s => do
      let (n, s) ← s.retryLoop fuel TFTP_MAXRETRIES
      if n = SYSERR.toInt then return (SYSERR.toInt, s.udpRelease)
      let dlen := n - 2 - 2
      let (s, full) := storeLoop (s.tfData dlen.toNat) s
      if full then return (s.filesiz.toInt, s.udpRelease)
      let s := s.formAck
      if dlen < 512 then
        let (ret, s) ← s.udpSendto
        let s := s.udpRelease
        return (if ret = SYSERR.toInt then SYSERR.toInt else s.filesiz.toInt, s)
      else blockLoop fuel { s with expected := (s.expected + 1) % 2 ^ 16 }

end Transfer

/-- The arguments of `tftpget_mb`; `none` is a null pointer, and a buffer is
given by its contents. -/
structure Args where
  serverip : Word
  filename : Option (List Octet)
  rcvBufs : Option (List (Option (List Octet)))

/-- "octet". -/
def octetMode : List Octet := [0x6f, 0x63, 0x74, 0x65, 0x74]

/-- `registered` is what `udp_register` gives. -/
def tftpgetMb
    (args : Args) (sends : List Bool) (receives : List Received)
    (registered : Bool) (fuel : ℕ) : Option (ℤ × Option Transfer) :=
  match args.filename, args.rcvBufs with
  | some filename, some rcvBufs =>
      if args.serverip = 0 ∨ rcvBufs = [] ∨
          (∃ buf ∈ rcvBufs, buf.getD [] = []) ∨
          filename.length = 0 ∨ filename.length > TFTP_MAXNAM then
        some (SYSERR.toInt, none)
      else if registered = false then some (SYSERR.toInt, none)
      else
        let s : Transfer := {
          sends := sends
          receives := receives
          sent := []
          registered := true
          remport := TFTP_PORT
          expected := 1
          outmsg := htons TFTP_RRQ ++ filename ++ [0] ++ octetMode ++ [0]
          inmsg := fun _ => 0
          rcvBufs := rcvBufs.map fun buf => buf.getD []
          currBufInd := 0
          currUsed := 0
          filesiz := 0 }
        (Transfer.blockLoop fuel s).map fun (n, s) => (n, some s)
  | _, _ => some (SYSERR.toInt, none)

/-! ## Files in blocks -/

/-- The contents of block `k`, counted from one. -/
def block (file : List Octet) (k : ℕ) : List Octet :=
  (file.drop (512 * (k - 1))).take 512

/-- The number of blocks; the last one is short. -/
def blocks (file : List Octet) : ℕ := file.length / 512 + 1

/-- A packet from a server that sends, for a block of the file, only data
messages with the contents of that block. -/
def Honest (file : List Octet) (pkt : Packet) : Prop :=
  4 ≤ pkt.udplen.toNat - UDP_HDR_LEN → ntohs pkt.udpdata 0 = TFTP_DATA →
    0 < ntohs pkt.udpdata 2 →
    pkt.udplen.toNat - UDP_HDR_LEN = 4 + (block file (ntohs pkt.udpdata 2)).length ∧
      ∀ i < (block file (ntohs pkt.udpdata 2)).length,
        (block file (ntohs pkt.udpdata 2))[i]? = some (pkt.udpdata (4 + i))

section Blocks

variable {file : List Octet} {k : ℕ}

theorem block_length : (block file k).length = min 512 (file.length - 512 * (k - 1)) := by
  unfold block
  rw [List.length_take, List.length_drop]

theorem block_get {i : ℕ} (hi : i < (block file k).length) :
    (block file k)[i]? = file[512 * (k - 1) + i]? := by
  rw [block_length] at hi
  unfold block
  rw [List.getElem?_take_of_lt (by omega), List.getElem?_drop]

end Blocks

/-! ## Receiving a block -/

/-- Sending and receiving change neither the buffers nor the counters. -/
structure SameStore (s s' : Transfer) : Prop where
  expected : s'.expected = s.expected
  rcvBufs : s'.rcvBufs = s.rcvBufs
  currBufInd : s'.currBufInd = s.currBufInd
  currUsed : s'.currUsed = s.currUsed
  filesiz : s'.filesiz = s.filesiz
  receives : ∀ r ∈ s'.receives, r ∈ s.receives

/-- The message in `inmsg` is block `k`. -/
def Carries (file : List Octet) (k : ℕ) (s : Transfer) (n : ℤ) : Prop :=
  n = 4 + (block file k).length ∧ s.tfData (block file k).length = block file k

/-- All packets still to come are from an honest server. -/
def HonestNet (file : List Octet) (s : Transfer) : Prop :=
  ∀ pkt, Received.packet pkt ∈ s.receives → Honest file pkt

section Receive

variable {file : List Octet} {s s' s'' : Transfer} {n : ℤ} {fuel : ℕ}

theorem SameStore.refl (s : Transfer) : SameStore s s :=
  ⟨rfl, rfl, rfl, rfl, rfl, fun _ h => h⟩

theorem SameStore.trans (h : SameStore s s') (h' : SameStore s' s'') :
    SameStore s s'' where
  expected := h'.expected.trans h.expected
  rcvBufs := h'.rcvBufs.trans h.rcvBufs
  currBufInd := h'.currBufInd.trans h.currBufInd
  currUsed := h'.currUsed.trans h.currUsed
  filesiz := h'.filesiz.trans h.filesiz
  receives := fun r hr => h.receives r (h'.receives r hr)

theorem HonestNet.same (h : HonestNet file s) (hsame : SameStore s s') :
    HonestNet file s' :=
  fun pkt hpkt => h pkt (hsame.receives _ hpkt)

theorem udpSendto_same (h : s.udpSendto = some (n, s')) : SameStore s s' := by
  unfold Transfer.udpSendto at h
  split at h
  · cases h
  · cases h
    exact ⟨rfl, rfl, rfl, rfl, rfl, fun _ hr => hr⟩

theorem udpRecvaddr_same (h : s.udpRecvaddr = some (n, s')) : SameStore s s' := by
  unfold Transfer.udpRecvaddr at h
  split at h
  · cases h
  all_goals
    rename_i hreceives
    cases h
    refine ⟨rfl, rfl, rfl, rfl, rfl, fun r hr => ?_⟩
    rw [hreceives]
    exact List.mem_cons_of_mem _ hr

/-- A call that gives a positive length has copied a packet. -/
theorem udpRecvaddr_packet (h : s.udpRecvaddr = some (n, s')) (hn : 0 < n) :
    ∃ pkt, Received.packet pkt ∈ s.receives ∧
      n = min (pkt.udplen.toNat - UDP_HDR_LEN) MSG_SIZE ∧
      ∀ i : ℕ, i < n → s'.inmsg i = pkt.udpdata i := by
  unfold Transfer.udpRecvaddr at h
  split at h
  · cases h
  · cases h
    exact absurd hn (by decide)
  · cases h
    exact absurd hn (by decide)
  · rename_i pkt receives hreceives
    cases h
    refine ⟨pkt, ?_, ?_, fun i hi => if_pos hi⟩
    · rw [hreceives]
      exact List.mem_cons_self
    · split <;> omega

/-- A data message with the expected number carries the expected block. -/
theorem carries_of_data
    (hnet : HonestNet file s) (h : s.udpRecvaddr = some (n, s')) (hn : 4 ≤ n)
    (hop : s'.tfOpcode = TFTP_DATA) (hpos : 0 < s'.tfDblk) :
    Carries file s'.tfDblk s' n := by
  obtain ⟨pkt, hpkt, hlen, hcopy⟩ := udpRecvaddr_packet h (by omega)
  have hword : ∀ i : ℕ, i + 1 < n → ntohs s'.inmsg i = ntohs pkt.udpdata i := by
    intro i hi
    unfold ntohs
    rw [hcopy i (by omega), hcopy (i + 1) (by push_cast; omega)]
  have hdblk : s'.tfDblk = ntohs pkt.udpdata 2 := hword 2 (by omega)
  rw [hdblk] at hpos ⊢
  obtain ⟨hexact, hdata⟩ := hnet pkt hpkt (by omega)
    ((hword 0 (by omega)).symm.trans hop) hpos
  have hsize : n = 4 + (block file (ntohs pkt.udpdata 2)).length := by
    have hle := @block_length file (ntohs pkt.udpdata 2)
    unfold MSG_SIZE at hlen
    omega
  refine ⟨hsize, List.ext_getElem? fun i => ?_⟩
  unfold Transfer.tfData
  by_cases hi : i < (block file (ntohs pkt.udpdata 2)).length
  · rw [hdata i hi, List.getElem?_map, List.getElem?_range hi, Option.map_some,
      hcopy (4 + i) (by push_cast; omega)]
  · rw [List.getElem?_eq_none (by simpa using hi),
      List.getElem?_eq_none (by omega)]

theorem readLoop_spec
    (hnet : HonestNet file s) (hpos : 0 < s.expected)
    (h : Transfer.readLoop fuel s = some (n, s')) :
    SameStore s s' ∧ (0 < n → Carries file s.expected s' n) := by
  induction fuel generalizing s with
  | zero => cases h
  | succ fuel ih =>
      unfold Transfer.readLoop at h
      obtain ⟨⟨len, t⟩, hrecv, h⟩ := Option.bind_eq_some_iff.mp h
      have hsame := udpRecvaddr_same hrecv
      have hagain : Transfer.readLoop fuel t = some (n, s') →
          SameStore s s' ∧ (0 < n → Carries file s.expected s' n) := by
        intro hloop
        have hrest := ih (hnet.same hsame) (hsame.expected ▸ hpos) hloop
        rw [hsame.expected] at hrest
        exact ⟨hsame.trans hrest.1, hrest.2⟩
      have hfail {r : Word} (hr : r.toInt < 0) (heq : some (r.toInt, t) = some (n, s')) :
          SameStore s s' ∧ (0 < n → Carries file s.expected s' n) := by
        cases heq
        exact ⟨hsame, fun hn => absurd hn (by omega)⟩
      simp only at h
      split at h
      · exact hfail (by decide) h
      split at h
      · exact hfail (by decide) h
      split at h
      · exact hagain h
      split at h
      · exact hfail (by decide) h
      split at h
      · rename_i hn herr hdata
        cases h
        refine ⟨hsame, fun _ => ?_⟩
        rw [← hsame.expected, ← hdata.2]
        refine carries_of_data hnet hrecv (by omega) hdata.1 ?_
        rw [hdata.2, hsame.expected]
        exact hpos
      · exact hagain h

theorem tftpSend1_spec
    (hnet : HonestNet file s) (hpos : 0 < s.expected)
    (h : s.tftpSend1 fuel = some (n, s')) :
    SameStore s s' ∧ (0 < n → Carries file s.expected s' n) := by
  unfold Transfer.tftpSend1 at h
  obtain ⟨⟨ret, t⟩, hsend, h⟩ := Option.bind_eq_some_iff.mp h
  have hsame := udpSendto_same hsend
  simp only at h
  split at h
  · cases h
    exact ⟨hsame, fun hn => absurd hn (by decide)⟩
  · have hread := readLoop_spec (hnet.same hsame) (hsame.expected ▸ hpos) h
    rw [hsame.expected] at hread
    exact ⟨hsame.trans hread.1, hread.2⟩

theorem retryLoop_spec
    {i : ℕ} (hnet : HonestNet file s) (hpos : 0 < s.expected)
    (h : Transfer.retryLoop fuel i s = some (n, s')) :
    SameStore s s' ∧ (n ≠ SYSERR.toInt → Carries file s.expected s' n) := by
  induction i generalizing s with
  | zero =>
      cases h
      exact ⟨SameStore.refl _, fun hn => absurd rfl hn⟩
  | succ i ih =>
      unfold Transfer.retryLoop at h
      obtain ⟨⟨len, t⟩, hsend, h⟩ := Option.bind_eq_some_iff.mp h
      obtain ⟨hsame, hcarries⟩ := tftpSend1_spec hnet hpos hsend
      simp only at h
      split at h
      · rename_i hdone
        cases h
        exact ⟨hsame, fun hn => hcarries (hdone.resolve_right hn)⟩
      · have hrest := ih (hnet.same hsame) (hsame.expected ▸ hpos) h
        rw [hsame.expected] at hrest
        exact ⟨hsame.trans hrest.1, hrest.2⟩

end Receive

/-! ## Storing a block -/

/-- The first `c` octets of the file are in the buffers, and the next one goes
to the current place. -/
structure Stored (file : List Octet) (sizes : List ℕ) (c : ℕ) (s : Transfer) :
    Prop where
  lengths : s.rcvBufs.map List.length = sizes
  index : s.currBufInd < s.rcvBufs.length
  room : s.currUsed ≤ s.currBuf.length
  count : c = ((s.rcvBufs.take s.currBufInd).map List.length).sum + s.currUsed
  filesiz : s.filesiz = BitVec.ofNat 32 c
  content : ∀ i < c, s.rcvBufs.flatten[i]? = file[i]?
  length : c ≤ file.length

/-- The buffers are full before the end of the file. -/
structure Full (file : List Octet) (sizes : List ℕ) (s : Transfer) : Prop where
  lengths : s.rcvBufs.map List.length = sizes
  filesiz : s.filesiz = BitVec.ofNat 32 sizes.sum
  content : ∀ i < sizes.sum, s.rcvBufs.flatten[i]? = file[i]?
  length : sizes.sum ≤ file.length

theorem getElem?_getD {bufs : List (List Octet)} {i : ℕ} (hi : i < bufs.length) :
    bufs[i]? = some (bufs.getD i []) := by
  rw [List.getD_eq_getElem?_getD, List.getElem?_eq_getElem hi]
  rfl

theorem take_succ_getD {bufs : List (List Octet)} {i : ℕ} (hi : i < bufs.length) :
    bufs.take (i + 1) = bufs.take i ++ [bufs.getD i []] := by
  rw [List.take_add_one, getElem?_getD hi]
  rfl

theorem flatten_set
    {bufs : List (List Octet)} {ind used : ℕ} {octet : Octet}
    (hind : ind < bufs.length) (hused : used < (bufs.getD ind []).length) :
    (bufs.set ind ((bufs.getD ind []).set used octet)).flatten =
      bufs.flatten.set (((bufs.take ind).map List.length).sum + used) octet := by
  induction bufs generalizing ind with
  | nil => exact absurd hind (Nat.not_lt_zero _)
  | cons buf bufs ih =>
      cases ind with
      | zero =>
          have hbuf : used < buf.length := hused
          simp [hbuf]
      | succ ind =>
          have hrest := ih (Nat.lt_of_succ_lt_succ hind) hused
          have hfar : ¬ buf.length + ((bufs.take ind).map List.length).sum + used <
              buf.length := by omega
          rw [List.set_cons_succ, List.flatten_cons, List.take_succ_cons,
            List.map_cons, List.sum_cons, List.flatten_cons, List.set_append,
            if_neg hfar]
          congr 1
          rw [show buf.length + ((bufs.take ind).map List.length).sum + used -
            buf.length = ((bufs.take ind).map List.length).sum + used by omega]
          exact hrest

section Store

variable {file : List Octet} {sizes : List ℕ} {c : ℕ} {s : Transfer}

/-- The current place is inside the buffers. -/
theorem Stored.place_lt
    (h : Stored file sizes c s) (hroom : s.currUsed < s.currBuf.length) :
    c < s.rcvBufs.flatten.length := by
  have hsplit := List.take_append_drop (s.currBufInd + 1) s.rcvBufs
  have htake : s.rcvBufs.take (s.currBufInd + 1) =
      s.rcvBufs.take s.currBufInd ++ [s.currBuf] := take_succ_getD h.index
  have hcount := h.count
  rw [← hsplit, List.flatten_append, List.length_append, htake, List.flatten_append,
    List.length_append, List.length_flatten]
  simp only [List.flatten_cons, List.flatten_nil, List.append_nil]
  omega

theorem Stored.octet
    (h : Stored file sizes c s) (hroom : s.currUsed < s.currBuf.length)
    {octet : Octet} (hoctet : file[c]? = some octet) :
    Stored file sizes (c + 1) (s.storeOctet octet) := by
  have hlt : c < file.length := (List.getElem?_eq_some_iff.mp hoctet).1
  have hflat : (s.storeOctet octet).rcvBufs.flatten = s.rcvBufs.flatten.set c octet := by
    rw [h.count]
    exact flatten_set h.index hroom
  have hcur : (s.storeOctet octet).currBuf = s.currBuf.set s.currUsed octet := by
    show (s.rcvBufs.set s.currBufInd _).getD s.currBufInd [] = _
    rw [List.getD_eq_getElem?_getD, List.getElem?_set_self h.index]
    rfl
  refine ⟨?_, ?_, ?_, ?_, ?_, fun i hi => ?_, hlt⟩
  · rw [← h.lengths]
    show (s.rcvBufs.set s.currBufInd (s.currBuf.set s.currUsed octet)).map _ = _
    rw [List.map_set, List.length_set]
    refine List.ext_getElem? fun j => ?_
    rw [List.getElem?_set]
    split
    · rename_i hj
      subst hj
      rw [List.length_map, if_pos h.index, List.getElem?_map, getElem?_getD h.index]
      rfl
    · rfl
  · show s.currBufInd < (s.rcvBufs.set _ _).length
    rw [List.length_set]
    exact h.index
  · rw [hcur, List.length_set]
    exact hroom
  · show c + 1 = (((s.rcvBufs.set s.currBufInd _).take s.currBufInd).map _).sum +
      (s.currUsed + 1)
    rw [List.take_set_of_le (Nat.le_refl _), h.count]
    omega
  · show s.filesiz + 1 = _
    rw [h.filesiz, BitVec.ofNat_add]
    rfl
  · rw [hflat, List.getElem?_set]
    split
    · rename_i hic
      rw [← hic, if_pos (h.place_lt hroom), hoctet]
    · exact h.content i (by omega)

/-- A full buffer followed by another one. -/
theorem Stored.next
    (h : Stored file sizes c s) (hfull : s.currBuf.length ≤ s.currUsed)
    (hmore : s.currBufInd + 1 < s.rcvBufs.length) :
    Stored file sizes c { s with
      currBufInd := s.currBufInd + 1
      currUsed := 0 } := by
  refine ⟨h.lengths, hmore, Nat.zero_le _, ?_, h.filesiz, h.content, h.length⟩
  show c = ((s.rcvBufs.take (s.currBufInd + 1)).map List.length).sum + 0
  have htake : s.rcvBufs.take (s.currBufInd + 1) =
      s.rcvBufs.take s.currBufInd ++ [s.currBuf] := take_succ_getD h.index
  have hroom := h.room
  have hcount := h.count
  rw [htake, List.map_append, List.sum_append]
  simp only [List.map_cons, List.map_nil, List.sum_cons, List.sum_nil]
  omega

theorem Stored.full
    (h : Stored file sizes c s) (hfull : s.currBuf.length ≤ s.currUsed)
    (hlast : s.rcvBufs.length ≤ s.currBufInd + 1) :
    Full file sizes { s with currBufInd := s.currBufInd + 1 } := by
  have hroom := h.room
  have hcount := h.count
  have hsum : c = sizes.sum := by
    have htake : s.rcvBufs = s.rcvBufs.take s.currBufInd ++ [s.currBuf] :=
      (List.take_of_length_le hlast).symm.trans (take_succ_getD h.index)
    rw [← h.lengths, htake, List.map_append, List.sum_append]
    simp only [List.map_cons, List.map_nil, List.sum_cons, List.sum_nil]
    omega
  subst hsum
  exact ⟨h.lengths, h.filesiz, h.content, h.length⟩

theorem storeLoop_spec
    {data : List Octet} (hpos : ∀ size ∈ sizes, 0 < size)
    (h : Stored file sizes c s)
    (hdata : ∀ i < data.length, data[i]? = file[c + i]?) :
    match Transfer.storeLoop data s with
    | (s', false) => Stored file sizes (c + data.length) s'
    | (s', true) => Full file sizes s' := by
  induction data generalizing c s with
  | nil => exact h
  | cons octet data ih =>
      have hoctet : file[c]? = some octet :=
        (hdata 0 (Nat.succ_pos _)).symm.trans rfl
      have hrest : ∀ i < data.length, data[i]? = file[c + 1 + i]? := by
        intro i hi
        have hnext := hdata (i + 1) (Nat.succ_lt_succ hi)
        rw [List.getElem?_cons_succ] at hnext
        rw [hnext, Nat.add_assoc, Nat.add_comm 1 i]
      have hlen : c + (octet :: data).length = c + 1 + data.length := by
        rw [List.length_cons]
        omega
      rw [hlen]
      by_cases hfull : s.currUsed ≥ s.currBuf.length
      · rw [Transfer.storeLoop, if_pos hfull]
        by_cases hlast : s.currBufInd + 1 ≥ s.rcvBufs.length
        · simp only [if_pos hlast]
          exact h.full hfull hlast
        · simp only [if_neg hlast]
          have hmore := Nat.lt_of_not_le hlast
          refine ih ((h.next hfull hmore).octet ?_ hoctet) hrest
          refine hpos _ ?_
          rw [← h.lengths]
          exact List.mem_map_of_mem (List.mem_of_getElem? (getElem?_getD hmore))
      · rw [Transfer.storeLoop, if_neg hfull]
        exact ih (h.octet (Nat.lt_of_not_le hfull) hoctet) hrest

end Store

/-! ## The whole transfer -/

/-- What a transfer that returns `n` leaves in buffers of these sizes. -/
structure Downloaded (file : List Octet) (sizes : List ℕ) (n : ℤ) (s : Transfer) :
    Prop where
  lengths : s.rcvBufs.map List.length = sizes
  size : n = min file.length sizes.sum
  content : s.rcvBufs.flatten.take n.toNat = file.take n.toNat

/-- The transfer waits for block `expected`, and has stored those before it. -/
structure Waiting (file : List Octet) (sizes : List ℕ) (s : Transfer) : Prop where
  stored : Stored file sizes (512 * (s.expected - 1)) s
  pos : 0 < s.expected
  le_blocks : s.expected ≤ blocks file
  net : HonestNet file s

section Transfers

variable {file : List Octet} {sizes : List ℕ} {c : ℕ} {n : ℤ} {s s' : Transfer}

theorem Stored.same (h : Stored file sizes c s) (hsame : SameStore s s') :
    Stored file sizes c s' := by
  have hcur : s'.currBuf = s.currBuf := by
    unfold Transfer.currBuf
    rw [hsame.rcvBufs, hsame.currBufInd]
  constructor
  · rw [hsame.rcvBufs]
    exact h.lengths
  · rw [hsame.rcvBufs, hsame.currBufInd]
    exact h.index
  · rw [hsame.currUsed, hcur]
    exact h.room
  · rw [hsame.rcvBufs, hsame.currBufInd, hsame.currUsed]
    exact h.count
  · rw [hsame.filesiz]
    exact h.filesiz
  · rw [hsame.rcvBufs]
    exact h.content
  · exact h.length

theorem Stored.count_le (h : Stored file sizes c s) : c ≤ sizes.sum := by
  rw [← h.lengths, ← List.length_flatten]
  by_contra hlt
  have hget := h.content s.rcvBufs.flatten.length (by omega)
  have hlen := h.length
  rw [List.getElem?_eq_none (Nat.le_refl _),
    List.getElem?_eq_getElem (by omega)] at hget
  cases hget

theorem toInt_count {c : ℕ} (hc : c < 2 ^ 31) : (BitVec.ofNat 32 c).toInt = c := by
  rw [BitVec.toInt_ofNat']
  exact Int.bmod_eq_of_le (by omega) (by omega)

theorem take_eq {xs : List Octet} (h : ∀ i < c, xs[i]? = file[i]?) :
    xs.take c = file.take c := by
  refine List.ext_getElem? fun i => ?_
  rw [List.getElem?_take, List.getElem?_take]
  split
  · rename_i hi
    exact h i hi
  · rfl

theorem length_lt (hblocks : blocks file < 2 ^ 16) : file.length < 2 ^ 31 := by
  unfold blocks at hblocks
  omega

theorem Full.downloaded
    (h : Full file sizes s) (hblocks : blocks file < 2 ^ 16) :
    Downloaded file sizes s.filesiz.toInt s.udpRelease := by
  have hlt := length_lt hblocks
  have hle := h.length
  have hint : s.filesiz.toInt = sizes.sum := by
    rw [h.filesiz]
    exact toInt_count (by omega)
  refine ⟨h.lengths, by omega, ?_⟩
  rw [hint]
  exact take_eq h.content

theorem Stored.downloaded
    (h : Stored file sizes file.length s) (hblocks : blocks file < 2 ^ 16) :
    Downloaded file sizes s.filesiz.toInt s := by
  have hlt := length_lt hblocks
  have hle := h.count_le
  have hint : s.filesiz.toInt = file.length := by
    rw [h.filesiz]
    exact toInt_count hlt
  refine ⟨h.lengths, by omega, ?_⟩
  rw [hint]
  exact take_eq h.content

theorem storeLoop_frame (data : List Octet) (s : Transfer) :
    (Transfer.storeLoop data s).1.expected = s.expected ∧
      (Transfer.storeLoop data s).1.receives = s.receives := by
  induction data generalizing s with
  | nil => exact ⟨rfl, rfl⟩
  | cons octet data ih =>
      unfold Transfer.storeLoop
      split
      · dsimp only
        split
        · exact ⟨rfl, rfl⟩
        · exact ih _
      · exact ih _

theorem blockLoop_spec
    {fuel : ℕ} (hblocks : blocks file < 2 ^ 16) (hpos : ∀ size ∈ sizes, 0 < size)
    (hwait : Waiting file sizes s)
    (h : Transfer.blockLoop fuel s = some (n, s')) (hn : 0 ≤ n) :
    Downloaded file sizes n s' := by
  induction fuel generalizing s with
  | zero => cases h
  | succ fuel ih =>
      unfold Transfer.blockLoop at h
      obtain ⟨⟨len, t⟩, hretry, h⟩ := Option.bind_eq_some_iff.mp h
      obtain ⟨hsame, hcarries⟩ := retryLoop_spec hwait.net hwait.pos hretry
      simp only at h
      split at h
      · cases h
        exact absurd hn (by decide)
      rename_i hlen
      obtain ⟨hsize, hdata⟩ := hcarries hlen
      have hdlen : (len - 2 - 2).toNat = (block file s.expected).length := by omega
      have hblock := @block_length file s.expected
      rw [hdlen, hdata] at h
      have hframe := storeLoop_frame (block file s.expected) t
      have hstore := storeLoop_spec hpos (hwait.stored.same hsame)
        (fun i hi => block_get hi)
      cases hres : Transfer.storeLoop (block file s.expected) t with
      | mk u full =>
          rw [hres] at h hstore hframe
          cases full with
          | true =>
              cases h
              exact Full.downloaded hstore hblocks
          | false =>
              have hle := Stored.length hstore
              simp only [Bool.false_eq_true, if_false] at h
              split at h
              · rename_i hlast
                obtain ⟨⟨ret, v⟩, hsend, h⟩ := Option.bind_eq_some_iff.mp h
                have hsent := udpSendto_same hsend
                have hacked : SameStore u v.udpRelease :=
                  ⟨hsent.expected, hsent.rcvBufs, hsent.currBufInd, hsent.currUsed,
                    hsent.filesiz, hsent.receives⟩
                have hend : 512 * (s.expected - 1) + (block file s.expected).length =
                    file.length := by omega
                rw [hend] at hstore
                simp only at h
                split at h
                · cases h
                  exact absurd hn (by decide)
                · cases h
                  exact (Stored.same hstore hacked).downloaded hblocks
              · rename_i hmore
                have hfull : (block file s.expected).length = 512 := by omega
                have hnext : s.expected + 1 ≤ blocks file := by
                  unfold blocks
                  omega
                have hexpected : (u.expected + 1) % 2 ^ 16 = s.expected + 1 := by
                  rw [hframe.1, hsame.expected]
                  exact Nat.mod_eq_of_lt (by omega)
                refine ih ⟨?_, ?_, ?_, ?_⟩ h
                · show Stored file sizes (512 * ((u.expected + 1) % 2 ^ 16 - 1)) _
                  rw [hexpected]
                  have hcount : 512 * (s.expected - 1) + 512 =
                      512 * (s.expected + 1 - 1) := by
                    have := hwait.pos
                    omega
                  rw [hfull, hcount] at hstore
                  exact ⟨hstore.lengths, hstore.index, hstore.room, hstore.count,
                    hstore.filesiz, hstore.content, hstore.length⟩
                · show 0 < (u.expected + 1) % 2 ^ 16
                  rw [hexpected]
                  exact Nat.succ_pos _
                · show (u.expected + 1) % 2 ^ 16 ≤ blocks file
                  rw [hexpected]
                  exact hnext
                · intro pkt hpkt
                  refine hwait.net pkt (hsame.receives _ ?_)
                  rw [← hframe.2]
                  exact hpkt

/-- Whenever a transfer from an honest server, over any network, returns a
size, it is the smaller of the size of the file and that of the buffers, and
the buffers, in order, begin with so much of the file. -/
theorem tftpgetMb_sound
    {args : Args} {sends : List Bool} {receives : List Received}
    {registered : Bool} {fuel : ℕ} {r : Option Transfer}
    (hblocks : blocks file < 2 ^ 16)
    (hnet : ∀ pkt, Received.packet pkt ∈ receives → Honest file pkt)
    (h : tftpgetMb args sends receives registered fuel = some (n, r))
    (hn : 0 ≤ n) :
    ∃ bufs s', args.rcvBufs = some bufs ∧ r = some s' ∧
      Downloaded file (bufs.map fun buf => (buf.getD []).length) n s' := by
  have hfail {k : ℤ} {t : Option Transfer} (hk : k < 0)
      (heq : some (k, t) = some (n, r)) : False := by
    cases heq
    omega
  unfold tftpgetMb at h
  split at h
  · rename_i filename bufs _ hbufs
    split at h
    · exact (hfail (by decide) h).elim
    rename_i hvalid
    split at h
    · exact (hfail (by decide) h).elim
    obtain ⟨⟨m, s'⟩, hloop, heq⟩ := Option.map_eq_some_iff.mp h
    cases heq
    push Not at hvalid
    obtain ⟨-, hne, hsome, -, -⟩ := hvalid
    refine ⟨bufs, s', hbufs, rfl, blockLoop_spec hblocks ?_ ?_ hloop hn⟩
    · intro size hsize
      obtain ⟨buf, hbuf, rfl⟩ := List.mem_map.mp hsize
      exact List.length_pos_of_ne_nil (hsome buf hbuf)
    · refine ⟨⟨?_, ?_, Nat.zero_le _, rfl, rfl, ?_, Nat.zero_le _⟩,
        Nat.one_pos, ?_, hnet⟩
      · exact List.map_map
      · show 0 < (bufs.map _).length
        rw [List.length_map]
        exact List.length_pos_of_ne_nil hne
      · intro i hi
        exact absurd hi (Nat.not_lt_zero _)
      · exact Nat.succ_le_succ (Nat.zero_le _)
  · exact (hfail (by decide) h).elim

/-- A data message of a short file, from port 2000. -/
def dataMessage : Packet :=
  ⟨2000, 15, fun i => [0, 3, 0, 1, 0x61, 0x62, 0x63].getD i 0⟩

def shortGet : Args :=
  ⟨0x0a000001, some [0x66], some [some [0, 0], some [0, 0]]⟩

/-- The first answer is lost, and the second one comes twice. -/
theorem tftpgetMb_sound_short_file :
    ∃ bufs s', shortGet.rcvBufs = some bufs ∧
      Downloaded [0x61, 0x62, 0x63] (bufs.map fun buf => (buf.getD []).length) 3 s' := by
  have hrun : ((tftpgetMb shortGet [true, true, true]
      [.timeout, .packet dataMessage, .packet dataMessage] true 4).map Prod.fst) =
        some 3 := by decide
  obtain ⟨⟨n, r⟩, h, rfl⟩ := Option.map_eq_some_iff.mp hrun
  have hnet : ∀ pkt, Received.packet pkt ∈
      [.timeout, .packet dataMessage, .packet dataMessage] →
        Honest [0x61, 0x62, 0x63] pkt := by
    intro pkt hpkt
    have heq : pkt = dataMessage := by simpa using hpkt
    subst heq
    exact fun _ _ _ => ⟨by decide, by decide⟩
  obtain ⟨bufs, s', hbufs, -, hdone⟩ :=
    tftpgetMb_sound (by decide) hnet h (by decide)
  exact ⟨bufs, s', hbufs, hdone⟩

end Transfers

end Xinu.Tftp
