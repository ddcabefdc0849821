import Xinu.TftpTransfer
import Xinu.UdpSlots

/-!
# Clients of UDP

`getlocalip`, `dnslookup`, `getutime` and `tftpget_mb` register a slot of the
UDP table, exchange messages and release the slot.  The network is the list of
what the calls of `udp_recv` meet and whether the sends succeed.  A buffer is
the memory from its first byte on; it keeps what it had where a message is
short.
-/

namespace Xinu.UdpClients

open ByteMemory Tftp Udp

abbrev Buffer := ℕ → Octet

/-! ## The UDP table -/

/-- The registrations of the slots; `none` is `UDP_FREE`. -/
abbrev Udptab := ℕ → Option UdpKey

/-- Refused when the endpoint is registered already or no slot is free. -/
def udpRegister (t : Udptab) (key : UdpKey) : Option (ℕ × Udptab) :=
  if ∃ slot ∈ List.range UDP_SLOTS, t slot = some key then none
  else ((List.range UDP_SLOTS).find? fun slot => (t slot).isNone).map fun slot =>
    (slot, Function.update t slot (some key))

def udpRelease (t : Udptab) (slot : ℕ) : Udptab := Function.update t slot none

/-! ## dhcp.c -/

def DHCP_RETRY : ℕ := 5
def DHCP_SERVER_ID : Octet := 54

/-- `sizeof(struct dhcpmsg)`. -/
def DHCPMSG : ℤ := 1264

/-- The offset of `dc_opt`. -/
def DC_OPT : ℕ := 240

structure NetData where
  ipucast : Word
  ipmask : Word
  iprouter : Word
  dnsserver : Word
  ntpserver : Word

/-- `ntohl` of the four octets at an offset. -/
def ntohl (buf : Buffer) (i : ℕ) : Word := buf i ++ buf (i + 1) ++ buf (i + 2) ++ buf (i + 3)

/-- The places of the options before the end of a message. -/
def options (buf : Buffer) (eop : ℤ) : ℕ → ℕ → List ℕ
  | 0, _ => []
  | fuel + 1, p =>
      if p < eop then p :: options buf eop fuel (p + 1 + (buf (p + 1)).toNat + 1)
      else []

/-- An option takes two octets at least, so that the size bounds their number. -/
def optionsOf (buf : Buffer) (size : ℤ) : List ℕ :=
  options buf (size - 1) DHCPMSG.toNat DC_OPT

def dhcpGetOptVal (buf : Buffer) (size : ℤ) (key : Octet) : Option ℕ :=
  ((optionsOf buf size).find? fun p => buf p = key).map fun p => p + 2

structure Options where
  msgtype : Octet
  addrmask : Word
  routeraddr : Word
  dnsaddr : Word
  ntpaddr : Word

/-- The switch of `getlocalip`. -/
def readOption (buf : Buffer) (o : Options) (p : ℕ) : Options :=
  if buf p = 53 then { o with msgtype := buf (p + 2) }
  else if buf p = 1 then { o with addrmask := ntohl buf (p + 2) }
  else if buf p = 3 then { o with routeraddr := ntohl buf (p + 2) }
  else if buf p = 6 then { o with dnsaddr := ntohl buf (p + 2) }
  else if buf p = 42 then { o with ntpaddr := ntohl buf (p + 2) }
  else o

def accept (buf : Buffer) (o : Options) (nd : NetData) : NetData where
  ipucast := ntohl buf 16
  ipmask := if o.addrmask ≠ 0 then o.addrmask else nd.ipmask
  iprouter := if o.routeraddr ≠ 0 then o.routeraddr else nd.iprouter
  dnsserver := if o.dnsaddr ≠ 0 then o.dnsaddr else nd.dnsserver
  ntpserver := if o.ntpaddr ≠ 0 then o.ntpaddr else nd.ntpserver

/-- What `getlocalip` makes of a message. -/
inductive Verdict
  | skip
  /-- An offer; the request is sent. -/
  | request
  /-- An offer without a server identifier, for which no request is built. -/
  | noServer
  | ack (o : Options)

def examine (xid : Word) (buf : Buffer) (inlen : ℤ) : Verdict :=
  if ntohl buf 4 ≠ xid then .skip
  else
    let o := (optionsOf buf inlen).foldl (readOption buf) ⟨0, 0, 0, 0, 0⟩
    if o.msgtype = 2 then
      if dhcpGetOptVal buf inlen DHCP_SERVER_ID = none then .noServer else .request
    else if buf (DC_OPT + 2) ≠ 5 then .skip
    else .ack o

/-! ## The machine -/

structure Host where
  udptab : Udptab
  netData : NetData
  /-- `Date.dt_boot`, when it is valid, and `clktime`. -/
  dtBoot : Option Word
  clktime : Word
  sends : List Bool
  receives : List Received
  /-- What each call of `getlocalip` finds in its message buffer. -/
  frames : ℕ → Buffer

/-- What `udp_recv` returns, and the buffer after it. -/
def received (size : ℤ) (buf : Buffer) : Received → ℤ × Buffer
  | .timeout => (TIMEOUT.toInt, buf)
  | .error => (SYSERR.toInt, buf)
  | .packet pkt =>
      let msglen : ℤ := pkt.udplen.toNat - UDP_HDR_LEN
      let msglen := if size < msglen then size else msglen
      (msglen, fun i => if i < msglen then pkt.udpdata i else buf i)

namespace Host

variable (h : Host)

def udpSend : Option (Bool × Host) :=
  match h.sends with
  | [] => none
  | ok :: sends => some (ok, { h with sends := sends })

def udpRecv (size : ℤ) (buf : Buffer) : Option (ℤ × Buffer × Host) :=
  match h.receives with
  | [] => none
  | r :: receives =>
      let (inlen, buf) := received size buf r
      some (inlen, buf, { h with receives := receives })

def release (slot : ℕ) : Host := { h with udptab := udpRelease h.udptab slot }

def dhcpKey : UdpKey := ⟨0, 67, 68⟩

/-- The inner loop of `getlocalip`; `some` is a value that it returns. -/
def readLoop (xid : Word) (slot : ℕ) :
    ℕ → Buffer → Host → Option (Option Word × Buffer × Host)
  | 0, buf, h => some (none, buf, h)
  | j + 1, buf, h => do
      let (inlen, buf, h) ← h.udpRecv DHCPMSG buf
      if inlen = TIMEOUT.toInt then readLoop xid slot j buf h
      else if inlen = SYSERR.toInt then return (some SYSERR, buf, h)
      else
        match examine xid buf inlen with
        | .skip => readLoop xid slot j buf h
        | .noServer => return (some SYSERR, buf, h)
        | .request => do
            let (_, h) ← h.udpSend
            readLoop xid slot j buf h
        | .ack o =>
            let nd := accept buf o h.netData
            return (some nd.ipucast, buf, { h with netData := nd }.release slot)

/-- The outer loop. -/
def retryLoop (xid : Word) (slot : ℕ) : ℕ → Buffer → Host → Option (Word × Host)
  | 0, _, h => some (SYSERR, h.release slot)
  | i + 1, buf, h => do
      let (_, h) ← h.udpSend
      let (r, buf, h) ← readLoop xid slot 3 buf h
      match r with
      | some r => return (r, h)
      | none => retryLoop xid slot i buf h

def getlocalip (xid : Word) : Option (Word × Host) :=
  match udpRegister h.udptab dhcpKey with
  | none => some (SYSERR, h)
  | some (slot, t) =>
      retryLoop xid slot DHCP_RETRY (h.frames 0)
        { h with
          udptab := t
          frames := fun i => h.frames (i + 1) }

end Host

/-! ## dns.c -/

def DNSRETRY : ℕ := 3
def DNSDATASIZ : ℕ := 500

/-- `sizeof(struct dnspkt)`. -/
def DNSPKT : ℤ := 512

/-- What `dns_bldq` returns, for a name of so many characters. -/
def dnsBldqLoop : ℕ → ℕ → Option ℕ
  | 0, qlen => some (qlen + 1 + 2 + 2)
  | dlen + 1, qlen => if qlen ≥ DNSDATASIZ then none else dnsBldqLoop dlen (qlen + 1)

def dnsBldq (dname : List Octet) : Option ℕ := dnsBldqLoop dname.length 1

/-- The functions on strings and messages that use no slot, whatever they
compute. -/
structure Parsers where
  dot2ip : List Octet → Option Word
  dnsGeta : List Octet → Buffer → ℤ → NetData → Option Word

def dotted (dname : List Octet) : Bool :=
  dname.all fun ch => ch = 0x2e || (0x30 ≤ ch && ch ≤ 0x39)

/-- "localhost". -/
def localhost : List Octet := [0x6c, 0x6f, 0x63, 0x61, 0x6c, 0x68, 0x6f, 0x73, 0x74]

namespace Host

variable (h : Host)

def dnsKey (nsaddr : Word) : UdpKey := ⟨nsaddr, 53, 51525⟩

/-- The loop of `dnslookup`. -/
def queryLoop (P : Parsers) (dname : List Octet) :
    ℕ → Buffer → Host → Option (Option Word × Host)
  | 0, _, h => some (none, h)
  | i + 1, buf, h => do
      let (_, h) ← h.udpSend
      let (rlen, buf, h) ← h.udpRecv DNSPKT buf
      if rlen = SYSERR.toInt ∨ rlen = TIMEOUT.toInt then queryLoop P dname i buf h
      else
        match P.dnsGeta dname buf rlen h.netData with
        | none => queryLoop P dname i buf h
        | some ipaddr => return (some ipaddr, h)

/-- The address, or `none` for `SYSERR`; a null pointer is `none`. -/
def dnslookup (P : Parsers) (xid : Word) (dname : Option (List Octet)) (rpkt : Buffer) :
    Option (Option Word × Host) :=
  match dname with
  | none => some (none, h)
  | some dname =>
      if dotted dname then some (P.dot2ip dname, h)
      else if localhost <+: dname then some (some 0x7f000001, h)
      else do
        let (retval, h) ← h.getlocalip xid
        let nsaddr := h.netData.dnsserver
        if retval = SYSERR ∨ nsaddr = 0 then return (none, h)
        match udpRegister h.udptab (dnsKey nsaddr) with
        | none => return (none, h)
        | some (slot, t) =>
            let h := { h with udptab := t }
            if dnsBldq dname = none then return (none, h)
            let (r, h) ← queryLoop P dname DNSRETRY rpkt h
            return (r, h.release slot)

/-! ## getutime.c -/

/-- "pool.ntp.org". -/
def TIMESERVER : List Octet :=
  [0x70, 0x6f, 0x6f, 0x6c, 0x2e, 0x6e, 0x74, 0x70, 0x2e, 0x6f, 0x72, 0x67]

def timeKey (ntpserver : Word) : UdpKey := ⟨ntpserver, 123, 53678⟩

/-- `sizeof(ntpmsg)`. -/
def NTPMSG : ℤ := 48

/-- The exchange with the time server, with the slot registered. -/
def askTime (slot : ℕ) : Option (Option Word × Host) := do
  let (ok, h) ← h.udpSend
  if ok = false then return (none, h.release slot)
  let (retval, buf, h) ← h.udpRecv NTPMSG fun i => if i = 0 then 0x1b else 0
  if retval = SYSERR.toInt ∨ retval = TIMEOUT.toInt then return (none, h.release slot)
  let h := h.release slot
  let now := ntohl buf 40 - 2208988800
  return (some now, { h with dtBoot := some (now - h.clktime) })

/-- The part of `getutime` after the address of the server is known. -/
def askServer (ntpserver : Word) : Option (Option Word × Host) :=
  match udpRegister h.udptab (timeKey ntpserver) with
  | none => some (none, h)
  | some (slot, t) => askTime { h with udptab := t } slot

/-- The server that DHCP named, or the default one. -/
def timeServer (P : Parsers) (xid : Word) (rpkt : Buffer) :
    Option (Option Word × Host) :=
  if h.netData.ntpserver = 0 then h.dnslookup P xid (some TIMESERVER) rpkt
  else some (some h.netData.ntpserver, h)

def getutime (P : Parsers) (xid : Word) (rpkt : Buffer) : Option (Option Word × Host) :=
  match h.dtBoot with
  | some dtBoot => some (some (dtBoot + h.clktime), h)
  | none => do
      let (retval, h) ← h.getlocalip xid
      if retval = SYSERR then return (none, h)
      let (found, h) ← h.timeServer P xid rpkt
      match found with
      | none => return (none, h)
      | some ntpserver =>
          let h := { h with netData := { h.netData with ntpserver := ntpserver } }
          h.askServer ntpserver

/-! ## tftp.c -/

/-- `tftpget_mb` with the table; the arguments are checked before the slot is
registered. -/
def tftpgetMb (args : Args) (localport : BitVec 16) (fuel : ℕ) : Option (ℤ × Host) :=
  match udpRegister h.udptab ⟨args.serverip, 0, localport⟩ with
  | none =>
      (Tftp.tftpgetMb args h.sends h.receives false fuel).map fun r => (r.1, h)
  | some (slot, t) =>
      (Tftp.tftpgetMb args h.sends h.receives true fuel).map fun r =>
        (r.1, match r.2 with
          | none => h
          | some s =>
              { h with
                udptab := if s.registered then t else udpRelease t slot
                sends := s.sends
                receives := s.receives })

end Host

/-! ## What decides a DHCP exchange -/

/-- The first reception that ends the exchange, if there is one. -/
inductive Decision
  | silent
  /-- `udp_recv` fails, or an offer has no server identifier. -/
  | failed
  | ack (nd : NetData) (rest : List Received)

def decision (xid : Word) (nd : NetData) : ℕ → Buffer → List Received → Decision
  | 0, _, _ => .silent
  | _ + 1, _, [] => .silent
  | n + 1, buf, r :: receives =>
      let (inlen, buf) := received DHCPMSG buf r
      if inlen = TIMEOUT.toInt then decision xid nd n buf receives
      else if inlen = SYSERR.toInt then .failed
      else
        match examine xid buf inlen with
        | .skip => decision xid nd n buf receives
        | .request => decision xid nd n buf receives
        | .noServer => .failed
        | .ack o => .ack (accept buf o nd) receives

namespace Host

variable (h : Host)

def dhcpDecision (xid : Word) : Decision :=
  decision xid h.netData (3 * DHCP_RETRY) (h.frames 0) h.receives

/-- `getlocalip` registers its slot and the exchange fails. -/
def localLeaks (xid : Word) : Prop :=
  udpRegister h.udptab dhcpKey ≠ none ∧ h.dhcpDecision xid = .failed

def acked (nd : NetData) (rest : List Received) : Host :=
  { h with
    netData := nd
    receives := rest
    frames := fun i => h.frames (i + 1) }

/-- `getlocalip` gets the data of an acknowledgement. -/
def Answered (xid : Word) (nd : NetData) (rest : List Received) : Prop :=
  udpRegister h.udptab dhcpKey ≠ none ∧ h.dhcpDecision xid = .ack nd rest

/-- The name is one that the server is asked for. -/
def Asked (dname : List Octet) : Prop := dotted dname = false ∧ ¬ localhost <+: dname

/-- The exchange for an address fails, or the server is found, its slot is
registered and the name is too long for a query. -/
def dnsLeaks (xid : Word) : Option (List Octet) → Prop
  | none => False
  | some dname =>
      Asked dname ∧
        (h.localLeaks xid ∨ ∃ nd rest, h.Answered xid nd rest ∧
          nd.ipucast ≠ SYSERR ∧ nd.dnsserver ≠ 0 ∧
          udpRegister h.udptab (dnsKey nd.dnsserver) ≠ none ∧ DNSDATASIZ ≤ dname.length)

/-- The time is not known, and the exchange for an address fails, or the
lookup of the time server does. -/
def timeLeaks (xid : Word) : Prop :=
  h.dtBoot = none ∧
    (h.localLeaks xid ∨ ∃ nd rest, h.Answered xid nd rest ∧
      nd.ipucast ≠ SYSERR ∧ nd.ntpserver = 0 ∧
      (h.acked nd rest).dnsLeaks xid (some TIMESERVER))

end Host

section Registration

variable {t t' : Udptab} {key : UdpKey} {slot : ℕ}

theorem udpRegister_spec (h : udpRegister t key = some (slot, t')) :
    t slot = none ∧ t' = Function.update t slot (some key) := by
  unfold udpRegister at h
  split at h
  · cases h
  · obtain ⟨found, hfind, heq⟩ := Option.map_eq_some_iff.mp h
    cases heq
    have hfree := List.find?_some hfind
    exact ⟨Option.isNone_iff_eq_none.mp hfree, rfl⟩

/-- Releasing a slot that was just registered restores the table. -/
theorem release_register (h : udpRegister t key = some (slot, t')) :
    udpRelease t' slot = t := by
  obtain ⟨hfree, rfl⟩ := udpRegister_spec h
  unfold udpRelease
  rw [Function.update_idem, ← hfree, Function.update_eq_self]

theorem register_ne (h : udpRegister t key = some (slot, t')) : t' ≠ t := by
  obtain ⟨hfree, rfl⟩ := udpRegister_spec h
  intro heq
  have hslot := congrFun heq slot
  rw [Function.update_self, hfree] at hslot
  cases hslot

end Registration

namespace Host

/-! ## getlocalip -/

section Dhcp

variable {h h' : Host} {xid r : Word} {slot i j : ℕ} {buf buf' : Buffer}
  {o : Option Word}

def Ended (slot : ℕ) (h : Host) (r : Word) (h' : Host) : Decision → Prop
  | .silent => r = SYSERR ∧ h'.udptab = udpRelease h.udptab slot
  | .failed => r = SYSERR ∧ h'.udptab = h.udptab
  | .ack nd rest => r = nd.ipucast ∧ ∃ sends, h' =
      { h with
        udptab := udpRelease h.udptab slot
        netData := nd
        sends := sends
        receives := rest }

/-- `h'` is `h` after some messages. -/
def Exchanged (h h' : Host) : Prop :=
  ∃ sends receives, h' =
    { h with
      sends := sends
      receives := receives }

theorem udpSend_exchanged {ok : Bool} (hsend : h.udpSend = some (ok, h')) :
    Exchanged h h' ∧ h'.receives = h.receives := by
  unfold udpSend at hsend
  split at hsend
  · cases hsend
  · cases hsend
    exact ⟨⟨_, _, rfl⟩, rfl⟩

theorem udpRecv_spec {size inlen : ℤ} (hrecv : h.udpRecv size buf = some (inlen, buf', h')) :
    ∃ rcv receives, h.receives = rcv :: receives ∧ inlen = (received size buf rcv).1 ∧
      buf' = (received size buf rcv).2 ∧ h' = { h with receives := receives } := by
  unfold udpRecv at hrecv
  split at hrecv
  · cases hrecv
  · rename_i rcv receives hreceives
    cases hrecv
    exact ⟨rcv, receives, hreceives, rfl, rfl, rfl⟩

theorem Exchanged.ended
    {d : Decision} (hex : Exchanged h h') {h'' : Host} (hend : Ended slot h' r h'' d) :
    Ended slot h r h'' d := by
  obtain ⟨sends, receives, rfl⟩ := hex
  cases d with
  | silent => exact hend
  | failed => exact hend
  | ack nd rest => exact hend

theorem decision_cons
    (xid : Word) (nd : NetData) (n : ℕ) (buf : Buffer) (rcv : Received)
    (receives : List Received) :
    decision xid nd (n + 1) buf (rcv :: receives) =
      if (received DHCPMSG buf rcv).1 = TIMEOUT.toInt then
        decision xid nd n (received DHCPMSG buf rcv).2 receives
      else if (received DHCPMSG buf rcv).1 = SYSERR.toInt then .failed
      else
        match examine xid (received DHCPMSG buf rcv).2 (received DHCPMSG buf rcv).1 with
        | .skip => decision xid nd n (received DHCPMSG buf rcv).2 receives
        | .request => decision xid nd n (received DHCPMSG buf rcv).2 receives
        | .noServer => .failed
        | .ack o => .ack (accept (received DHCPMSG buf rcv).2 o nd) receives :=
  rfl

/-- How the inner loop ends, with `n` receptions to come; `d` is what all of
them decide. -/
def Ran (xid : Word) (slot n : ℕ) (h h' : Host) (buf' : Buffer) (d : Decision) :
    Option Word → Prop
  | none => Exchanged h h' ∧ d = decision xid h'.netData n buf' h'.receives
  | some v => Ended slot h v h' d

theorem Exchanged.ran
    {d : Decision} {n : ℕ} {h'' : Host} (hex : Exchanged h h')
    (hran : Ran xid slot n h' h'' buf d o) : Ran xid slot n h h'' buf d o := by
  cases o with
  | none =>
      obtain ⟨⟨sends, receives, rfl⟩, hdec⟩ := hran
      obtain ⟨sends', receives', rfl⟩ := hex
      exact ⟨⟨_, _, rfl⟩, hdec⟩
  | some v => exact hex.ended hran

theorem readLoop_spec
    (hloop : readLoop xid slot j buf h = some (o, buf', h')) (n : ℕ) :
    Ran xid slot n h h' buf' (decision xid h.netData (n + j) buf h.receives) o := by
  induction j generalizing h buf with
  | zero =>
      cases hloop
      exact ⟨⟨_, _, rfl⟩, rfl⟩
  | succ j ih =>
      unfold readLoop at hloop
      obtain ⟨⟨inlen, buf₁, h₁⟩, hrecv, hloop⟩ := Option.bind_eq_some_iff.mp hloop
      obtain ⟨rcv, receives, hreceives, rfl, rfl, rfl⟩ := udpRecv_spec hrecv
      rw [← Nat.add_assoc, hreceives, decision_cons]
      have hagain : ∀ h₂ : Host, Exchanged h h₂ → h₂.receives = receives →
          readLoop xid slot j (received DHCPMSG buf rcv).2 h₂ = some (o, buf', h') →
          Ran xid slot n h h' buf' (decision xid h.netData (n + j)
            (received DHCPMSG buf rcv).2 receives) o := by
        intro h₂ hex hrest hrun
        have hspec := ih hrun
        have hnd : h₂.netData = h.netData := by
          obtain ⟨sends, receives', rfl⟩ := hex
          rfl
        rw [hrest, hnd] at hspec
        exact hex.ran hspec
      have hnow : Exchanged h { h with receives := receives } := ⟨h.sends, receives, rfl⟩
      dsimp only at hloop
      by_cases htime : (received DHCPMSG buf rcv).1 = TIMEOUT.toInt
      · rw [if_pos htime] at hloop ⊢
        exact hagain _ hnow rfl hloop
      rw [if_neg htime] at hloop ⊢
      by_cases herr : (received DHCPMSG buf rcv).1 = SYSERR.toInt
      · rw [if_pos herr] at hloop ⊢
        cases hloop
        exact ⟨rfl, rfl⟩
      rw [if_neg herr] at hloop ⊢
      cases hexam : examine xid (received DHCPMSG buf rcv).2 (received DHCPMSG buf rcv).1
        with
      | skip =>
          rw [hexam] at hloop
          exact hagain _ hnow rfl hloop
      | noServer =>
          rw [hexam] at hloop
          cases hloop
          exact ⟨rfl, rfl⟩
      | request =>
          rw [hexam] at hloop
          obtain ⟨⟨ok, h₂⟩, hsend, hloop⟩ := Option.bind_eq_some_iff.mp hloop
          obtain ⟨⟨sends₂, receives₂, rfl⟩, hrest⟩ := udpSend_exchanged hsend
          exact hagain _ ⟨_, _, rfl⟩ hrest hloop
      | ack opts =>
          rw [hexam] at hloop
          cases hloop
          exact ⟨rfl, h.sends, rfl⟩

theorem retryLoop_spec
    (hloop : retryLoop xid slot i buf h = some (r, h')) :
    Ended slot h r h' (decision xid h.netData (3 * i) buf h.receives) := by
  induction i generalizing h buf with
  | zero =>
      cases hloop
      exact ⟨rfl, rfl⟩
  | succ i ih =>
      unfold retryLoop at hloop
      obtain ⟨⟨ok, h₁⟩, hsend, hloop⟩ := Option.bind_eq_some_iff.mp hloop
      obtain ⟨⟨o, buf₂, h₂⟩, hread, hloop⟩ := Option.bind_eq_some_iff.mp hloop
      obtain ⟨⟨sends₁, receives₁, rfl⟩, hrest⟩ := udpSend_exchanged hsend
      have hspec := readLoop_spec hread (3 * i)
      dsimp only at hrest hspec
      rw [hrest] at hspec
      cases o with
      | none =>
          obtain ⟨⟨sends₂, receives₂, rfl⟩, hdec⟩ := hspec
          have hend := ih hloop
          rw [Nat.mul_succ, hdec]
          exact Exchanged.ended ⟨_, _, rfl⟩ hend
      | some v =>
          cases hloop
          exact Exchanged.ended ⟨_, _, rfl⟩ hspec

theorem getlocalip_spec (hcall : h.getlocalip xid = some (r, h')) :
    (h.localLeaks xid ∧ r = SYSERR ∧ h'.udptab ≠ h.udptab) ∨
    (¬ h.localLeaks xid ∧ (∀ nd rest, ¬ h.Answered xid nd rest) ∧ r = SYSERR ∧
      h'.udptab = h.udptab) ∨
    ∃ nd rest sends, ¬ h.localLeaks xid ∧ h.Answered xid nd rest ∧ r = nd.ipucast ∧
      h' = { h.acked nd rest with sends := sends } := by
  unfold getlocalip at hcall
  cases hreg : udpRegister h.udptab dhcpKey with
  | none =>
      rw [hreg] at hcall
      cases hcall
      exact Or.inr (Or.inl ⟨fun hleak => hleak.1 hreg,
        fun _ _ hans => hans.1 hreg, rfl, rfl⟩)
  | some found =>
      obtain ⟨slot, t⟩ := found
      rw [hreg] at hcall
      have hsome : udpRegister h.udptab dhcpKey ≠ none := by
        rw [hreg]
        exact Option.some_ne_none _
      have hend : Ended slot { h with
          udptab := t
          frames := fun i => h.frames (i + 1) } r h' (h.dhcpDecision xid) :=
        retryLoop_spec hcall
      unfold localLeaks Answered
      cases hdec : h.dhcpDecision xid with
      | silent =>
          rw [hdec] at hend
          refine Or.inr (Or.inl ⟨?_, ?_, hend.1, ?_⟩)
          · rintro ⟨-, hfail⟩
            cases hfail
          · rintro nd rest ⟨-, hack⟩
            cases hack
          · exact hend.2.trans (release_register hreg)
      | failed =>
          rw [hdec] at hend
          refine Or.inl ⟨⟨hsome, rfl⟩, hend.1, ?_⟩
          rw [hend.2]
          exact register_ne hreg
      | ack nd rest =>
          rw [hdec] at hend
          obtain ⟨hr, sends, rfl⟩ := hend
          refine Or.inr (Or.inr ⟨nd, rest, sends, ?_, ⟨hsome, rfl⟩, hr, ?_⟩)
          · rintro ⟨-, hfail⟩
            cases hfail
          · unfold acked
            rw [← release_register hreg]

end Dhcp

/-! ## dnslookup -/

theorem dnsBldqLoop_eq_none_iff {dlen qlen : ℕ} (hq : qlen ≤ DNSDATASIZ) :
    dnsBldqLoop dlen qlen = none ↔ DNSDATASIZ < qlen + dlen := by
  induction dlen generalizing qlen with
  | zero =>
      rw [dnsBldqLoop, Nat.add_zero]
      simp only [reduceCtorEq, false_iff]
      omega
  | succ dlen ih =>
      rw [dnsBldqLoop]
      split
      · simp only [true_iff]
        omega
      · rw [ih (by omega)]
        omega

theorem dnsBldq_eq_none_iff (dname : List Octet) :
    dnsBldq dname = none ↔ DNSDATASIZ ≤ dname.length := by
  unfold dnsBldq
  rw [dnsBldqLoop_eq_none_iff (by decide)]
  omega

section Clients

variable {h h' : Host} {P : Parsers} {xid : Word} {slot i : ℕ} {buf rpkt : Buffer}
  {r : Option Word} {name : List Octet} {dname : Option (List Octet)}

theorem queryLoop_udptab (hloop : queryLoop P name i buf h = some (r, h')) :
    h'.udptab = h.udptab := by
  induction i generalizing h buf with
  | zero =>
      cases hloop
      rfl
  | succ i ih =>
      unfold queryLoop at hloop
      obtain ⟨⟨ok, h₁⟩, hsend, hloop⟩ := Option.bind_eq_some_iff.mp hloop
      obtain ⟨⟨rlen, buf₂, h₂⟩, hrecv, hloop⟩ := Option.bind_eq_some_iff.mp hloop
      obtain ⟨⟨sends, receives, rfl⟩, -⟩ := udpSend_exchanged hsend
      obtain ⟨rcv, receives₂, -, rfl, rfl, rfl⟩ := udpRecv_spec hrecv
      dsimp only at hloop
      split at hloop
      · exact (ih hloop).trans rfl
      · split at hloop
        · exact (ih hloop).trans rfl
        · cases hloop
          rfl

theorem dnslookup_asked
    (hasked : Asked name) (hcall : h.dnslookup P xid (some name) rpkt = some (r, h')) :
    ∃ retval h₁, h.getlocalip xid = some (retval, h₁) ∧
      ((retval = SYSERR ∨ h₁.netData.dnsserver = 0 ∨
          udpRegister h₁.udptab (dnsKey h₁.netData.dnsserver) = none) ∧
          r = none ∧ h'.udptab = h₁.udptab ∨
        retval ≠ SYSERR ∧ h₁.netData.dnsserver ≠ 0 ∧
          udpRegister h₁.udptab (dnsKey h₁.netData.dnsserver) ≠ none ∧
          (DNSDATASIZ ≤ name.length ∧ r = none ∧ h'.udptab ≠ h₁.udptab ∨
            ¬ DNSDATASIZ ≤ name.length ∧ h'.udptab = h₁.udptab)) := by
  unfold dnslookup at hcall
  dsimp only at hcall
  rw [if_neg (by rw [hasked.1]; exact Bool.false_ne_true), if_neg hasked.2] at hcall
  obtain ⟨⟨retval, h₁⟩, hlocal, hcall⟩ := Option.bind_eq_some_iff.mp hcall
  refine ⟨retval, h₁, hlocal, ?_⟩
  dsimp only at hcall
  split at hcall
  · rename_i hstop
    cases hcall
    exact Or.inl ⟨hstop.imp_right Or.inl, rfl, rfl⟩
  rename_i hgo
  push Not at hgo
  split at hcall
  · rename_i hreg
    cases hcall
    exact Or.inl ⟨Or.inr (Or.inr hreg), rfl, rfl⟩
  rename_i slot t hreg
  refine Or.inr ⟨hgo.1, hgo.2, by rw [hreg]; exact Option.some_ne_none _, ?_⟩
  rw [← dnsBldq_eq_none_iff]
  split at hcall
  · rename_i hlong
    cases hcall
    exact Or.inl ⟨hlong, rfl, register_ne hreg⟩
  · rename_i hshort
    obtain ⟨⟨o, h₂⟩, hquery, hcall⟩ := Option.bind_eq_some_iff.mp hcall
    cases hcall
    refine Or.inr ⟨hshort, ?_⟩
    show udpRelease h₂.udptab slot = _
    rw [queryLoop_udptab hquery]
    exact release_register hreg

theorem dnslookup_spec (hcall : h.dnslookup P xid dname rpkt = some (r, h')) :
    (h.dnsLeaks xid dname ∧ r = none ∧ h'.udptab ≠ h.udptab) ∨
      (¬ h.dnsLeaks xid dname ∧ h'.udptab = h.udptab) := by
  cases dname with
  | none =>
      cases hcall
      exact Or.inr ⟨id, rfl⟩
  | some name =>
      by_cases hasked : Asked name
      · obtain ⟨retval, h₁, hlocal, hrest⟩ := dnslookup_asked hasked hcall
        rcases getlocalip_spec hlocal with ⟨hleak, hr, htab⟩ | ⟨hno, hans, hr, htab⟩ |
          ⟨nd, rest, sends, hno, hans, hr, rfl⟩
        · rcases hrest with ⟨-, hnone, heq⟩ | ⟨hgo, -⟩
          · exact Or.inl ⟨⟨hasked, Or.inl hleak⟩, hnone, heq ▸ htab⟩
          · exact absurd hr hgo
        · rcases hrest with ⟨-, -, heq⟩ | ⟨hgo, -⟩
          · refine Or.inr ⟨?_, heq.trans htab⟩
            rintro ⟨-, hleak | ⟨nd, rest, hans', -⟩⟩
            · exact hno hleak
            · exact hans nd rest hans'
          · exact absurd hr hgo
        · have honly : ∀ nd' rest', h.Answered xid nd' rest' → nd' = nd := by
            intro nd' rest' hans'
            have heq := hans'.2.symm.trans hans.2
            cases heq
            rfl
          rcases hrest with ⟨hstop, -, heq⟩ | ⟨hgo, hns, hreg, hname⟩
          · refine Or.inr ⟨?_, heq⟩
            rintro ⟨-, hleak | ⟨nd', rest', hans', hip, hserver, hreg, -⟩⟩
            · exact hno hleak
            · obtain rfl := honly nd' rest' hans'
              rcases hstop with hbad | hzero | hnone
              · exact hip (hr.symm.trans hbad)
              · exact hserver hzero
              · exact hreg hnone
          · rcases hname with ⟨hlong, hnone, hne⟩ | ⟨hshort, heq⟩
            · refine Or.inl ⟨⟨hasked, Or.inr ⟨nd, rest, hans, ?_, hns, hreg, hlong⟩⟩,
                hnone, hne⟩
              rw [← hr]
              exact hgo
            · refine Or.inr ⟨?_, heq⟩
              rintro ⟨-, hleak | ⟨nd', rest', -, -, -, -, hlong⟩⟩
              · exact hno hleak
              · exact hshort hlong
      · refine Or.inr ⟨fun hleak => hasked hleak.1, ?_⟩
        unfold dnslookup at hcall
        dsimp only at hcall
        split at hcall
        · cases hcall
          rfl
        rename_i hdotted
        split at hcall
        · cases hcall
          rfl
        rename_i hlocal
        exact absurd ⟨Bool.eq_false_of_not_eq_true hdotted, hlocal⟩ hasked

/-! ## getutime -/

theorem askTime_udptab (hcall : h.askTime slot = some (r, h')) :
    h'.udptab = udpRelease h.udptab slot := by
  unfold askTime at hcall
  obtain ⟨⟨ok, h₁⟩, hsend, hcall⟩ := Option.bind_eq_some_iff.mp hcall
  obtain ⟨⟨sends, receives, rfl⟩, -⟩ := udpSend_exchanged hsend
  dsimp only at hcall
  split at hcall
  · cases hcall
    rfl
  obtain ⟨⟨retval, buf, h₂⟩, hrecv, hcall⟩ := Option.bind_eq_some_iff.mp hcall
  obtain ⟨rcv, receives₂, -, rfl, rfl, rfl⟩ := udpRecv_spec hrecv
  dsimp only at hcall
  split at hcall
  · cases hcall
    rfl
  · cases hcall
    rfl

theorem askServer_udptab {ntpserver : Word}
    (hcall : h.askServer ntpserver = some (r, h')) : h'.udptab = h.udptab := by
  unfold askServer at hcall
  split at hcall
  · cases hcall
    rfl
  · rename_i slot t hreg
    rw [askTime_udptab hcall]
    exact release_register hreg

theorem getutime_spec (hcall : h.getutime P xid rpkt = some (r, h')) :
    h'.udptab = h.udptab ↔ ¬ h.timeLeaks xid := by
  unfold getutime at hcall
  cases hdate : h.dtBoot with
  | some dtBoot =>
      rw [hdate] at hcall
      cases hcall
      refine ⟨fun _ hleak => ?_, fun _ => rfl⟩
      rw [hleak.1] at hdate
      cases hdate
  | none =>
      rw [hdate] at hcall
      obtain ⟨⟨retval, h₁⟩, hlocal, hcall⟩ := Option.bind_eq_some_iff.mp hcall
      dsimp only at hcall
      rcases getlocalip_spec hlocal with ⟨hleak, hr, htab⟩ | ⟨hno, hans, hr, htab⟩ |
        ⟨nd, rest, sends, hno, hans, hr, rfl⟩
      · rw [if_pos hr] at hcall
        cases hcall
        exact ⟨fun heq => absurd heq htab, fun hnot => absurd ⟨hdate, Or.inl hleak⟩ hnot⟩
      · rw [if_pos hr] at hcall
        cases hcall
        refine ⟨fun _ hleak => ?_, fun _ => htab⟩
        rcases hleak.2 with hleak | ⟨nd, rest, hans', -⟩
        · exact hno hleak
        · exact hans nd rest hans'
      · have honly : ∀ nd' rest', h.Answered xid nd' rest' → nd' = nd ∧ rest' = rest := by
          intro nd' rest' hans'
          have heq := hans'.2.symm.trans hans.2
          cases heq
          exact ⟨rfl, rfl⟩
        by_cases hbad : retval = SYSERR
        · rw [if_pos hbad] at hcall
          cases hcall
          refine ⟨fun _ hleak => ?_, fun _ => rfl⟩
          rcases hleak.2 with hleak | ⟨nd', rest', hans', hip, -⟩
          · exact hno hleak
          · obtain ⟨rfl, rfl⟩ := honly nd' rest' hans'
            exact hip (hr.symm.trans hbad)
        rw [if_neg hbad] at hcall
        obtain ⟨⟨found, h₂⟩, hserver, hcall⟩ := Option.bind_eq_some_iff.mp hcall
        have htail : h'.udptab = h₂.udptab := by
          cases found with
          | none =>
              cases hcall
              rfl
          | some ntpserver => exact (askServer_udptab hcall).trans rfl
        have hip : nd.ipucast ≠ SYSERR := by
          rw [← hr]
          exact hbad
        dsimp only [timeServer, acked] at hserver
        by_cases hntp : nd.ntpserver = 0
        · rw [if_pos hntp] at hserver
          rw [htail]
          rcases dnslookup_spec hserver with ⟨hleak, -, hne⟩ | ⟨hnone, heq⟩
          · exact ⟨fun heq => absurd heq hne, fun hnot => absurd
              ⟨hdate, Or.inr ⟨nd, rest, hans, hip, hntp, hleak⟩⟩ hnot⟩
          · refine ⟨fun _ hleak => ?_, fun _ => heq⟩
            rcases hleak.2 with hleak | ⟨nd', rest', hans', -, -, hdns⟩
            · exact hno hleak
            · obtain ⟨rfl, rfl⟩ := honly nd' rest' hans'
              exact hnone hdns
        · rw [if_neg hntp] at hserver
          cases hserver
          refine ⟨fun _ hleak => ?_, fun _ => htail⟩
          rcases hleak.2 with hleak | ⟨nd', rest', hans', -, hzero, -⟩
          · exact hno hleak
          · obtain ⟨rfl, rfl⟩ := honly nd' rest' hans'
            exact hntp hzero

end Clients

/-! ## tftpget_mb -/

theorem blockLoop_released {fuel : ℕ} {s s' : Transfer} {n : ℤ}
    (hloop : Transfer.blockLoop fuel s = some (n, s')) : s'.registered = false := by
  induction fuel generalizing s with
  | zero => cases hloop
  | succ fuel ih =>
      unfold Transfer.blockLoop at hloop
      obtain ⟨⟨len, t⟩, -, hloop⟩ := Option.bind_eq_some_iff.mp hloop
      dsimp only at hloop
      split at hloop
      · cases hloop
        rfl
      split at hloop
      · cases hloop
        rfl
      split at hloop
      · obtain ⟨⟨ret, u⟩, -, hloop⟩ := Option.bind_eq_some_iff.mp hloop
        cases hloop
        rfl
      · exact ih hloop

theorem tftpgetMb_released
    {args : Args} {sends : List Bool} {receives : List Received} {registered : Bool}
    {fuel : ℕ} {n : ℤ} {s : Transfer}
    (hcall : Tftp.tftpgetMb args sends receives registered fuel = some (n, some s)) :
    s.registered = false := by
  unfold Tftp.tftpgetMb at hcall
  split at hcall
  · split at hcall
    · cases hcall
    split at hcall
    · cases hcall
    obtain ⟨⟨m, s'⟩, hloop, heq⟩ := Option.map_eq_some_iff.mp hcall
    cases heq
    exact blockLoop_released hloop
  · cases hcall

theorem tftpgetMb_udptab
    {h h' : Host} {args : Args} {localport : BitVec 16} {fuel : ℕ} {n : ℤ}
    (hcall : h.tftpgetMb args localport fuel = some (n, h')) : h'.udptab = h.udptab := by
  unfold tftpgetMb at hcall
  split at hcall
  · obtain ⟨r, -, heq⟩ := Option.map_eq_some_iff.mp hcall
    cases heq
    rfl
  · rename_i slot t hreg
    obtain ⟨⟨m, o⟩, hget, heq⟩ := Option.map_eq_some_iff.mp hcall
    cases heq
    cases o with
    | none => rfl
    | some s =>
        have hreleased := tftpgetMb_released hget
        show (if s.registered then t else udpRelease t slot) = h.udptab
        rw [hreleased]
        exact release_register hreg

/-! ## Calls -/

inductive Call
  | getlocalip (xid : Word)
  | dnslookup (P : Parsers) (xid : Word) (dname : Option (List Octet)) (rpkt : Buffer)
  | getutime (P : Parsers) (xid : Word) (rpkt : Buffer)
  | tftpgetMb (args : Args) (localport : BitVec 16) (fuel : ℕ)

def call (h : Host) : Call → Option Host
  | .getlocalip xid => (h.getlocalip xid).map Prod.snd
  | .dnslookup P xid dname rpkt => (h.dnslookup P xid dname rpkt).map Prod.snd
  | .getutime P xid rpkt => (h.getutime P xid rpkt).map Prod.snd
  | .tftpgetMb args localport fuel => (h.tftpgetMb args localport fuel).map Prod.snd

/-- The calls that keep a slot. -/
def Leaks (h : Host) : Call → Prop
  | .getlocalip xid => h.localLeaks xid
  | .dnslookup _ xid dname _ => h.dnsLeaks xid dname
  | .getutime _ xid _ => h.timeLeaks xid
  | .tftpgetMb _ _ _ => False

theorem call_spec {h h' : Host} {c : Call} (hcall : h.call c = some h') :
    h'.udptab = h.udptab ↔ ¬ h.Leaks c := by
  cases c with
  | getlocalip xid =>
      obtain ⟨⟨r, h₁⟩, hget, rfl⟩ := Option.map_eq_some_iff.mp hcall
      rcases getlocalip_spec hget with ⟨hleak, -, hne⟩ | ⟨hno, -, -, heq⟩ |
        ⟨nd, rest, sends, hno, -, -, rfl⟩
      · exact ⟨fun heq => absurd heq hne, fun hno => absurd hleak hno⟩
      · exact ⟨fun _ => hno, fun _ => heq⟩
      · exact ⟨fun _ => hno, fun _ => rfl⟩
  | dnslookup P xid dname rpkt =>
      obtain ⟨⟨r, h₁⟩, hget, rfl⟩ := Option.map_eq_some_iff.mp hcall
      rcases dnslookup_spec hget with ⟨hleak, -, hne⟩ | ⟨hno, heq⟩
      · exact ⟨fun heq => absurd heq hne, fun hno => absurd hleak hno⟩
      · exact ⟨fun _ => hno, fun _ => heq⟩
  | getutime P xid rpkt =>
      obtain ⟨⟨r, h₁⟩, hget, rfl⟩ := Option.map_eq_some_iff.mp hcall
      exact getutime_spec hget
  | tftpgetMb args localport fuel =>
      obtain ⟨⟨n, h₁⟩, hget, rfl⟩ := Option.map_eq_some_iff.mp hcall
      exact ⟨fun _ => id, fun _ => tftpgetMb_udptab hget⟩

/-- A call leaves the table as it was exactly when it is none of those that
keep a slot, and so does any number of such calls. -/
theorem udp_slots_released {h h' : Host} {c : Call} (hcall : h.call c = some h') :
    (h'.udptab = h.udptab ↔ ¬ h.Leaks c) ∧
      ∀ h'', TransitionSystem.Reach call (fun h c => ¬ h.Leaks c) h' h'' →
        h''.udptab = h'.udptab := by
  refine ⟨call_spec hcall, fun h'' hreach => ?_⟩
  refine hreach.invariant (fun s => s.udptab = h'.udptab) rfl ?_
  intro s c s' htab hok hstep
  exact ((call_spec hstep).mpr hok).trans htab

def idleHost (receives : List Received) : Host where
  udptab _ := none
  netData := ⟨0, 0, 0, 0, 0⟩
  dtBoot := none
  clktime := 0
  sends := List.replicate 20 true
  receives := receives
  frames _ _ := 0

def silentHost : Host := idleHost (List.replicate 15 .timeout)

/-- An offer whose only option is the message type. -/
def bareOffer : Packet :=
  ⟨67, 252, fun i => if i = 240 then 53 else if i = 241 then 1 else if i = 242 then 2 else 0⟩

theorem udp_slots_released_silent :
    ∃ h', silentHost.call (.getlocalip 7) = some h' ∧ h'.udptab = silentHost.udptab := by
  have hrun : (silentHost.call (.getlocalip 7)).isSome = true := by decide
  obtain ⟨h', hcall⟩ := Option.isSome_iff_exists.mp hrun
  refine ⟨h', hcall, (udp_slots_released hcall).1.mpr ?_⟩
  rintro ⟨-, hfail⟩
  have hsilent : silentHost.dhcpDecision 7 = .silent := rfl
  rw [hsilent] at hfail
  cases hfail

/-- An offer without a server identifier leaves the slot registered. -/
theorem bare_offer_keeps_slot :
    ∃ h h' c, Host.call h c = some h' ∧ h'.udptab ≠ h.udptab := by
  have hrun : ((idleHost [.packet bareOffer]).call (.getlocalip 0)).map
      (fun h => h.udptab 0) = some (some dhcpKey) := by decide
  obtain ⟨h', hcall, htab⟩ := Option.map_eq_some_iff.mp hrun
  refine ⟨_, h', _, hcall, fun heq => ?_⟩
  rw [heq] at htab
  cases htab

end Host

end Xinu.UdpClients
