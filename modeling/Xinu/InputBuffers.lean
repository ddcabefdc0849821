import Xinu.PacketDisposal

/-!
# The network buffer pool

`net_init` makes one buffer for each place in the queues of the UDP and ICMP
slots, and one more, in which `netin` reads the next packet.  While `icmp_in`
answers an echo request, `netin` holds the request and needs a buffer for the
reply.  A buffer is counted in the pool, in a slot queue, with `netin`, or with
others: the output queue and the processes that send.
-/

namespace Xinu.InputBuffers

open ByteMemory Disposal Icmp IpOutput PacketSlots TransitionSystem Udp

def ETH_ARP : BitVec 16 := 0x0806
def ETH_IP : BitVec 16 := 0x0800

/-- The buffers that `net_init` asks for. -/
def nbufs : ℤ := UDP_SLOTS * UDP_QSIZ + ICMP_SLOTS * ICMP_QSIZ + 1

/-- `netin` is before its `getbuf`, reads from the device, or waits in
`icmp_mkpkt` for the buffer of a reply. -/
inductive Phase
  | top
  | reading
  | answering (pkt : Netpacket)

structure NetInput where
  net : Net
  pool : ℕ
  others : ℕ
  phase : Phase

/-- `netin` from the place on where the packet has arrived. -/
def netin (env : Environment) (net : Net) (pkt : Netpacket) : Option Done :=
  let pkt := pkt.swap16 12
  touch pkt <|
    if pkt.u16 12 = ETH_ARP then arpIn net pkt
    else if pkt.u16 12 = ETH_IP then ipIn env net pkt
    else Disposal.freebuf net pkt OK

/-- A call that needs a buffer blocks when the pool is empty. -/
def environment (pool : ℕ) (buf : Word × (ℕ → BitVec 8)) : Environment :=
  ⟨if pool = 0 then none else some buf, fun _ => (SYSERR, 0), fun _ _ => SYSERR⟩

def Done.frees (d : Done) : ℕ :=
  d.events.countP fun e => match e with
    | .free _ => true
    | _ => false

def Done.queuedOut (d : Done) : ℕ :=
  d.events.countP fun e => match e with
    | .store _ .ipout => true
    | _ => false

/-- The buffers that the call has got. -/
def Done.got (d : Done) : ℕ := if d.events.any (·.buf = .reply) then 1 else 0

namespace NetInput

variable (s : NetInput)

def queued : ℤ :=
  ∑ i ∈ Finset.range UDP_SLOTS, (s.net.udptab.tab i).count +
    ∑ i ∈ Finset.range ICMP_SLOTS, (s.net.icmptab.tab i).count

def finish (d : Done) : NetInput :=
  { s with
    net := d.net
    pool := s.pool - Done.got d + Done.frees d
    others := s.others + Done.queuedOut d }

/-- `netin` has read a packet. -/
def arrive (pkt : Netpacket) (buf : Word × (ℕ → BitVec 8)) : NetInput :=
  match netin (environment s.pool buf) s.net pkt with
  | none => { s with phase := .answering pkt }
  | some d =>
      { s.finish d with phase := .top }

/-- `icmp_in` after `getbuf` has returned. -/
def answer (pkt : Netpacket) (buf : Word × (ℕ → BitVec 8)) : Option NetInput :=
  let request := ((pkt.swap16 12).ipNtoh).icmpNtoh
  (icmpMkpkt (environment s.pool buf) s.net request).bind fun (net, reply) =>
    (ipEnqueue net reply).map fun d =>
      { s with
        net := d.net
        pool := s.pool - 1 + Done.frees d + 1
        others := s.others + Done.queuedOut d
        phase := .top }

/-- A process that sends delivers its own packet locally. -/
def loopback (pkt : Netpacket) (buf : Word × (ℕ → BitVec 8)) : Option NetInput :=
  (ipLocal (environment s.pool buf) s.net pkt).map fun d =>
    { s.finish d with
      others := s.others - 1 + Done.queuedOut d }

end NetInput

/-- The packets that the slots below `slots` have let go. -/
def freedBy {Key Packet : Type} (slots : ℕ) (t : Slots Key Packet) : ℕ :=
  ∑ i ∈ Finset.range slots, (t.freed i).length

inductive Action where
  | getbuf
  | arrive (addr : Word) (bytes : ℕ → BitVec 8) (buf : Word × (ℕ → BitVec 8))
  | answer (buf : Word × (ℕ → BitVec 8))
  | udp (action : UdpAction)
  | icmp (action : IcmpAction)
  | loopback (addr : Word) (bytes : ℕ → BitVec 8) (buf : Word × (ℕ → BitVec 8))
  /-- Another process gets a buffer or gives one back. -/
  | take
  | giveBack
  /-- The addresses, the ARP table and the output queue change. -/
  | elsewhere (net : Net)

def step (s : NetInput) : Action → Option NetInput
  | .getbuf =>
      match s.phase with
      | .top =>
          if s.pool = 0 then none
          else some { s with
            pool := s.pool - 1
            phase := .reading }
      | _ => none
  | .arrive addr bytes buf =>
      match s.phase with
      | .reading => some (s.arrive ⟨.given, addr, bytes⟩ buf)
      | _ => none
  | .answer buf =>
      match s.phase with
      | .answering pkt => s.answer pkt buf
      | _ => none
  | .udp (.arrive _) => none
  | .udp action =>
      (udpStep s.net.udptab action).map fun t =>
        { s with
          net := { s.net with udptab := t }
          pool := s.pool + (freedBy UDP_SLOTS t - freedBy UDP_SLOTS s.net.udptab) }
  | .icmp (.arrive _) => none
  | .icmp action =>
      (icmpStep s.net.ipucast s.net.icmptab action).map fun t =>
        { s with
          net := { s.net with icmptab := t }
          pool := s.pool +
            (freedBy ICMP_SLOTS t - freedBy ICMP_SLOTS s.net.icmptab) }
  | .loopback addr bytes buf =>
      if s.others = 0 then none else s.loopback ⟨.given, addr, bytes⟩ buf
  | .take =>
      if s.pool = 0 then none
      else some { s with
        pool := s.pool - 1
        others := s.others + 1 }
  | .giveBack =>
      if s.others = 0 then none
      else some { s with
        pool := s.pool + 1
        others := s.others - 1 }
  | .elsewhere net =>
      some { s with
        net := { net with
          udptab := s.net.udptab
          icmptab := s.net.icmptab } }

/-- The state after `net_init`, with the given addresses. -/
def netInit (net : Net) : NetInput :=
  ⟨{ net with
    udptab := udpInit
    icmptab := icmpInit }, nbufs.toNat, 0, .top⟩

/-- `netin` is at a `getbuf` with an empty pool, and all buffers but the request
that it may hold are in slot queues. -/
def Starved (s : NetInput) : Prop :=
  s.pool = 0 ∧
    match s.phase with
    | .top => s.queued = nbufs
    | .reading => False
    | .answering _ => s.queued + 1 = nbufs

/-- No echo reply is put into a full ICMP slot by this call. -/
def SlotRoom (net : Net) (call : Option Done) : Prop :=
  ∀ d ∈ call, ∀ slot, .store .given (.icmp slot) ∈ d.events →
    (net.icmptab.tab slot).count < ICMP_QSIZ

/-- No reply goes into a full ICMP slot, an echo request finds a place free in
the slot queues, and while one waits to be answered, a packet that is delivered
locally finds two. -/
def Spacious (s : NetInput) : Action → Prop
  | .arrive addr bytes buf =>
      SlotRoom s.net (netin (environment s.pool buf) s.net ⟨.given, addr, bytes⟩) ∧
        (netin (environment 0 buf) s.net ⟨.given, addr, bytes⟩ = none →
          s.queued + 1 < nbufs)
  | .loopback addr bytes buf =>
      SlotRoom s.net (ipLocal (environment s.pool buf) s.net ⟨.given, addr, bytes⟩) ∧
        ∀ pkt, s.phase = .answering pkt → s.queued + 2 < nbufs
  | _ => True

/-! ## Counts -/

section Counts

variable {Key Packet : Type} {s s' s'' : Slots Key Packet} {slot pid : ℤ}
  {qsiz bound : ℤ} {pkt : Packet}

/-- No slot has more packets than before, those apart that have none. -/
def Shrinks (s s' : Slots Key Packet) : Prop :=
  ∀ slot, (s'.tab slot).count ≤ max 0 (s.tab slot).count

theorem Shrinks.of_tab (htab : s'.tab = s.tab) : Shrinks s s' := by
  intro slot
  rw [htab]
  exact le_max_right _ _

theorem Shrinks.trans (h : Shrinks s s') (h' : Shrinks s' s'') : Shrinks s s'' := by
  intro slot
  have hfirst := h slot
  have hsecond := h' slot
  omega

theorem Shrinks.setEntry {e : Entry Key Packet}
    (he : e.count ≤ max 0 (s.tab slot).count) : Shrinks s (s.setEntry slot e) := by
  intro other
  by_cases hne : other = slot
  · subst hne
    rw [tab_setEntry_self]
    exact he
  · rw [tab_setEntry_of_ne _ hne]
    exact le_max_right _ _

theorem Shrinks.setState (state : SlotState) : Shrinks s (s.setState slot state) :=
  .setEntry (le_max_right _ _)

theorem Shrinks.send (msg : Word) : Shrinks s (s.send pid msg) :=
  .of_tab (@send_tab _ _ s pid msg).1

theorem Shrinks.removeFirst : Shrinks s (s.removeFirst bound slot) := by
  have hentry : Shrinks s (s.setEntry slot ((s.tab slot).take bound)) := by
    refine .setEntry ?_
    show (s.tab slot).count - 1 ≤ _
    omega
  exact hentry

theorem Shrinks.takePacket : Shrinks s (s.takePacket bound pid slot) :=
  Shrinks.removeFirst

theorem Shrinks.recv {slots : ℤ} {timeout : Word} :
    Shrinks s (s.recv slots bound pid slot timeout) := by
  have hentry : Shrinks s (s.setEntry slot
      { s.tab slot with
        state := .recv
        pid := pid }) := .setEntry (le_max_right _ _)
  unfold Slots.recv
  split_ifs
  · exact .of_tab rfl
  · exact .of_tab rfl
  · exact hentry.trans (Shrinks.setState .used)
  · exact hentry
  · exact Shrinks.takePacket

theorem Shrinks.resume : Shrinks s (s.resume bound pid slot) := by
  unfold Slots.resume
  dsimp only
  have hawake : Shrinks s ({ s with
      inbox := Function.update s.inbox pid none
      waiting := Function.update s.waiting pid none }.setState slot .used) :=
    Shrinks.setState _
  split_ifs
  · exact hawake
  · exact hawake
  · exact hawake.trans Shrinks.takePacket

theorem Shrinks.drain (fuel : ℕ) : Shrinks s (Slots.drain bound slot fuel s) := by
  induction fuel generalizing s with
  | zero => exact .of_tab rfl
  | succ fuel ih =>
      rw [Slots.drain]
      split_ifs
      · exact Shrinks.removeFirst.trans ih
      · exact .of_tab rfl

theorem Shrinks.release {slots : ℤ} {refused : SlotState → Bool} :
    Shrinks s (s.release slots bound refused slot).1 := by
  unfold Slots.release
  split_ifs
  · exact .of_tab rfl
  · exact .of_tab rfl
  · exact (Shrinks.drain _).trans (Shrinks.setState _)

theorem Shrinks.register [DecidableEq Key] {slots : ℕ} {key : Key} :
    Shrinks s (s.register slots key).1 := by
  unfold Slots.register
  split_ifs
  · exact .of_tab rfl
  · cases (List.range slots).find? fun i : ℕ => (s.tab i).state = .free with
    | none => exact .of_tab rfl
    | some i => exact Shrinks.setEntry (le_max_left _ _)

theorem Shrinks.udpStep {t t' : UdpTable} {action : UdpAction}
    (hquiet : ∀ pkt, action ≠ .arrive pkt) (hstep : udpStep t action = some t') :
    Shrinks t t' := by
  cases action with
  | arrive pkt => exact absurd rfl (hquiet pkt)
  | register key =>
      cases hstep
      exact Shrinks.register
  | recv pid slot timeout =>
      obtain ⟨-, heq⟩ := Option.ite_none_left_eq_some.mp hstep
      cases heq
      exact Shrinks.recv
  | recvaddr pid slot timeout =>
      obtain ⟨-, heq⟩ := Option.ite_none_left_eq_some.mp hstep
      cases heq
      exact Shrinks.recv
  | release slot =>
      cases hstep
      exact Shrinks.release
  | send pid msg =>
      cases hstep
      exact .send msg
  | resume pid =>
      obtain ⟨slot, -, rfl⟩ := Option.map_eq_some_iff.mp hstep
      exact Shrinks.resume

theorem Shrinks.icmpStep {ipucast : Word} {t t' : IcmpTable} {action : IcmpAction}
    (hquiet : ∀ pkt, action ≠ .arrive pkt)
    (hstep : icmpStep ipucast t action = some t') : Shrinks t t' := by
  cases action with
  | arrive pkt => exact absurd rfl (hquiet pkt)
  | register key =>
      cases hstep
      exact Shrinks.register
  | recv pid slot timeout =>
      obtain ⟨-, heq⟩ := Option.ite_none_left_eq_some.mp hstep
      cases heq
      exact Shrinks.recv
  | release slot =>
      cases hstep
      exact Shrinks.release
  | send pid msg =>
      cases hstep
      exact .send msg
  | resume pid =>
      obtain ⟨slot, -, rfl⟩ := Option.map_eq_some_iff.mp hstep
      exact Shrinks.resume

end Counts

/-! ## Packets that are stored -/

/-- What a call does to the queues: it puts at most one packet into one slot,
and into a UDP slot only when there is room. -/
structure StoresOne (net : Net) (d : Done) : Prop where
  udp : ∀ slot, (d.net.udptab.tab slot).count ≤
    max UDP_QSIZ (net.udptab.tab slot).count
  icmp : ∀ slot, (d.net.icmptab.tab slot).count =
      (net.icmptab.tab slot).count ∨
    Disposal.Event.store .given (.icmp slot) ∈ d.events ∧
      (d.net.icmptab.tab slot).count = (net.icmptab.tab slot).count + 1
  one : ∃ place : ℤ ⊕ ℤ,
    (∀ slot, .inl slot ≠ place →
      (d.net.udptab.tab slot).count = (net.udptab.tab slot).count) ∧
    (∀ slot, (d.net.udptab.tab slot).count ≤ (net.udptab.tab slot).count + 1) ∧
    ∀ slot, .inr slot ≠ place →
      (d.net.icmptab.tab slot).count = (net.icmptab.tab slot).count

section Stored

variable {env : Environment} {net : Net} {pkt : Netpacket}

theorem StoresOne.same
    {d : Done} (hudp : ∀ slot, (d.net.udptab.tab slot).count =
      (net.udptab.tab slot).count)
    (hicmp : ∀ slot, (d.net.icmptab.tab slot).count =
      (net.icmptab.tab slot).count) : StoresOne net d where
  udp slot := by
    rw [hudp]
    exact le_max_right _ _
  icmp slot := Or.inl (hicmp slot)
  one := ⟨.inl 0, fun slot _ => hudp slot,
    fun slot => (hudp slot).le.trans (by omega), fun slot _ => hicmp slot⟩

theorem StoresOne.touch
    {call : Option Done} (h : ∀ d ∈ call, StoresOne net d) :
    ∀ d ∈ Disposal.touch pkt call, StoresOne net d := by
  intro d hd
  obtain ⟨d₀, hd₀, rfl⟩ := Option.map_eq_some_iff.mp hd
  obtain ⟨hudp, hicmp, hone⟩ := h d₀ hd₀
  exact ⟨hudp, fun slot => (hicmp slot).imp_right
    fun hstored => ⟨List.mem_cons_of_mem _ hstored.1, hstored.2⟩, hone⟩

theorem StoresOne.freebuf {net' : Net} {status : Word}
    (hudp : ∀ slot, (net'.udptab.tab slot).count = (net.udptab.tab slot).count)
    (hicmp : ∀ slot, (net'.icmptab.tab slot).count =
      (net.icmptab.tab slot).count) :
    ∀ d ∈ Disposal.freebuf net' pkt status, StoresOne net d := by
  intro d hd
  cases hd
  exact .same hudp hicmp

/-- The count of a slot after a packet has been put into one. -/
theorem count_store {Key Packet : Type} (t : Slots Key Packet) (qsiz slot : ℤ)
    (packet : Packet) (other : ℤ) :
    ((t.store qsiz slot packet).tab other).count =
      (t.tab other).count + if other = slot then 1 else 0 := by
  have hput : ((t.setEntry slot ((t.tab slot).put qsiz packet)).tab other).count =
      (t.tab other).count + if other = slot then 1 else 0 := by
    by_cases hne : other = slot
    · subst hne
      rw [tab_setEntry_self, if_pos rfl]
      rfl
    · rw [tab_setEntry_of_ne _ hne, if_neg hne, add_zero]
  have hstate : ∀ (t' : Slots Key Packet) (state : SlotState),
      ((t'.setState slot state).tab other).count = (t'.tab other).count := by
    intro t' state
    unfold Slots.setState
    by_cases hne : other = slot
    · subst hne
      rw [tab_setEntry_self]
    · rw [tab_setEntry_of_ne _ hne]
  unfold Slots.store
  dsimp only
  by_cases hrecv : ((t.setEntry slot ((t.tab slot).put qsiz packet)).tab
      slot).state = .recv
  · rw [if_pos hrecv, (send_tab _).1, hstate]
    exact hput
  · rw [if_neg hrecv]
    exact hput

theorem udpIn_stores : ∀ d ∈ Disposal.udpIn net pkt, StoresOne net d := by
  unfold Disposal.udpIn
  refine StoresOne.touch ?_
  split
  next hnone =>
    refine StoresOne.freebuf (fun slot => ?_) fun _ => rfl
    show ((Udp.udpIn net.udptab pkt.udp).tab slot).count = _
    rw [Udp.udpIn, hnone]
    rfl
  next i hfind =>
    intro d hd
    cases hd
    have hfound := List.find?_some hfind
    simp only [decide_eq_true_eq] at hfound
    have hcount : ∀ slot, ((Udp.udpIn net.udptab pkt.udp).tab slot).count =
        (net.udptab.tab slot).count + if slot = (i : ℤ) then 1 else 0 := by
      intro slot
      rw [Udp.udpIn, hfind]
      exact count_store _ _ _ _ _
    refine ⟨fun slot => ?_, fun slot => Or.inl rfl, .inl i, fun slot hne => ?_,
      fun slot => ?_, fun slot _ => rfl⟩
    · show ((Udp.udpIn net.udptab pkt.udp).tab slot).count ≤ _
      rw [hcount]
      split_ifs with hslot
      · subst hslot
        have hroom := hfound.2.2
        omega
      · omega
    · show ((Udp.udpIn net.udptab pkt.udp).tab slot).count = _
      rw [hcount, if_neg fun heq => hne (by rw [heq]), add_zero]
    · show ((Udp.udpIn net.udptab pkt.udp).tab slot).count ≤ _
      rw [hcount]
      split_ifs <;> omega

theorem ipEnqueue_tables {d : Done} (hd : d ∈ ipEnqueue net pkt) :
    d.net.udptab = net.udptab ∧ d.net.icmptab = net.icmptab := by
  unfold ipEnqueue at hd
  dsimp only at hd
  split_ifs at hd
  · cases hd
    exact ⟨rfl, rfl⟩
  · cases hd
    exact ⟨rfl, rfl⟩

theorem icmpIn_stores (hgiven : pkt.buf = .given) :
    ∀ d ∈ Disposal.icmpIn env net pkt, StoresOne net d := by
  unfold Disposal.icmpIn
  dsimp only
  refine StoresOne.touch ?_
  split_ifs with hother hrequest
  · refine StoresOne.freebuf (fun _ => rfl) fun slot => ?_
    show ((Icmp.icmpIn net.ipucast net.icmptab pkt.icmp).tab slot).count = _
    rw [Icmp.icmpIn, if_pos (show pkt.icmp.net_ictype ≠ ICMP_ECHOREPLY ∧
      pkt.icmp.net_ictype ≠ ICMP_ECHOREQST from hother)]
    rfl
  · intro d hd
    obtain ⟨⟨net', reply⟩, hmk, hd⟩ := Option.bind_eq_some_iff.mp hd
    obtain ⟨⟨addr, bytes⟩, -, heq⟩ := Option.map_eq_some_iff.mp hmk
    obtain ⟨rfl, -⟩ := Prod.mk.inj heq
    obtain ⟨d₁, hd₁, rfl⟩ := Option.map_eq_some_iff.mp hd
    obtain ⟨d₂, hd₂, rfl⟩ := Option.map_eq_some_iff.mp hd₁
    obtain ⟨d₃, hd₃, hd₂⟩ := Option.bind_eq_some_iff.mp hd₂
    obtain ⟨d₄, hd₄, rfl⟩ := Option.map_eq_some_iff.mp hd₂
    cases hd₄
    obtain ⟨hudp, hicmp⟩ := ipEnqueue_tables hd₃
    refine StoresOne.same (fun slot => ?_) fun slot => ?_
    · show (d₃.net.udptab.tab slot).count = _
      rw [hudp]
    · show (d₃.net.icmptab.tab slot).count = _
      rw [hicmp]
      show ((Icmp.icmpIn net.ipucast net.icmptab pkt.icmp).tab slot).count = _
      rw [Icmp.icmpIn, if_neg (show ¬ (pkt.icmp.net_ictype ≠ ICMP_ECHOREPLY ∧
        pkt.icmp.net_ictype ≠ ICMP_ECHOREQST) from hother),
        if_pos (show pkt.icmp.net_ictype = ICMP_ECHOREQST from hrequest)]
      rfl
  · have hreply : ¬ (pkt.icmp.net_ictype ≠ ICMP_ECHOREPLY ∧
        pkt.icmp.net_ictype ≠ ICMP_ECHOREQST) := hother
    have hno : ¬ pkt.icmp.net_ictype = ICMP_ECHOREQST := hrequest
    split
    next hslot =>
      refine StoresOne.freebuf (fun _ => rfl) fun slot => ?_
      show ((Icmp.icmpIn net.ipucast net.icmptab pkt.icmp).tab slot).count = _
      rw [Icmp.icmpIn, if_neg hreply, if_neg hno, hslot]
      rfl
    next slot hslot =>
      have hcount : ∀ other,
          ((Icmp.icmpIn net.ipucast net.icmptab pkt.icmp).tab other).count =
            (net.icmptab.tab other).count + if other = slot then 1 else 0 := by
        intro other
        rw [Icmp.icmpIn, if_neg hreply, if_neg hno, hslot]
        exact count_store _ _ _ _ _
      intro d hd
      cases hd
      refine ⟨fun _ => le_max_right _ _, fun other => ?_, .inr slot,
        fun _ _ => rfl, fun _ => by dsimp only; omega, fun other hne => ?_⟩
      · show ((Icmp.icmpIn net.ipucast net.icmptab pkt.icmp).tab other).count = _ ∨
          _ ∧ ((Icmp.icmpIn net.ipucast net.icmptab pkt.icmp).tab other).count = _
        rw [hcount]
        by_cases heq : other = slot
        · subst heq
          refine Or.inr ⟨?_, by rw [if_pos rfl]⟩
          rw [hgiven]
          exact List.mem_singleton.mpr rfl
        · exact Or.inl (by rw [if_neg heq, add_zero])
      · show ((Icmp.icmpIn net.ipucast net.icmptab pkt.icmp).tab other).count = _
        rw [hcount, if_neg fun heq => hne (by rw [heq]), add_zero]

theorem ipLocal_stores (hgiven : pkt.buf = .given) :
    ∀ d ∈ ipLocal env net pkt, StoresOne net d := by
  unfold ipLocal
  refine StoresOne.touch ?_
  split_ifs
  · exact udpIn_stores
  · exact icmpIn_stores hgiven
  · exact .freebuf (fun _ => rfl) fun _ => rfl

theorem ipAccept_stores (hgiven : pkt.buf = .given) :
    ∀ d ∈ ipAccept env net pkt, StoresOne net d := by
  unfold ipAccept
  refine StoresOne.touch ?_
  split_ifs
  · exact ipLocal_stores hgiven
  · exact ipLocal_stores hgiven
  · exact .freebuf (fun _ => rfl) fun _ => rfl
  · exact ipLocal_stores hgiven
  · exact .freebuf (fun _ => rfl) fun _ => rfl

theorem ipIn_stores (hgiven : pkt.buf = .given) :
    ∀ d ∈ ipIn env net pkt, StoresOne net d := by
  have hfree : ∀ pkt : Netpacket,
      ∀ d ∈ Disposal.freebuf net pkt OK, StoresOne net d := fun _ =>
    .freebuf (fun _ => rfl) fun _ => rfl
  have hhost : pkt.ipNtoh.buf = .given := (pkt.buf_ipNtoh).trans hgiven
  unfold ipIn
  refine StoresOne.touch ?_
  dsimp only
  generalize pkt.ipNtoh = host at hhost
  split_ifs
  · exact hfree pkt
  all_goals refine StoresOne.touch ?_
  · exact hfree host
  · exact StoresOne.touch (ipAccept_stores (host.buf_udpNtoh.trans hhost))
  · exact hfree host
  · exact StoresOne.touch (ipAccept_stores (host.buf_icmpNtoh.trans hhost))
  · exact ipAccept_stores hhost

theorem arpIn_stores : ∀ d ∈ arpIn net pkt, StoresOne net d := by
  have hfree : ∀ pkt : Netpacket, ∀ arp : ArpCache.Arp,
      ∀ d ∈ Disposal.freebuf { net with arp := arp } pkt OK, StoresOne net d :=
    fun _ _ => .freebuf (fun _ => rfl) fun _ => rfl
  unfold arpIn
  dsimp only
  refine StoresOne.touch ?_
  split_ifs
  · exact hfree _ _
  all_goals refine StoresOne.touch ?_
  · exact hfree _ _
  · exact hfree _ _
  · exact hfree _ _
  · exact StoresOne.touch (hfree _ _)

theorem netin_stores (hgiven : pkt.buf = .given) :
    ∀ d ∈ netin env net pkt, StoresOne net d := by
  have hhost : (pkt.swap16 12).buf = .given := hgiven
  unfold netin
  dsimp only
  refine StoresOne.touch ?_
  split_ifs
  · exact arpIn_stores
  · exact ipIn_stores hhost
  · exact .freebuf (fun _ => rfl) fun _ => rfl

/-- Only a call that needs a buffer can fail to end. -/
theorem netin_ends (hgiven : pkt.buf = .given) (hpool : env.getbuf ≠ none) :
    netin env net pkt ≠ none := by
  have hhost : (pkt.swap16 12).buf = .given := hgiven
  unfold netin touch
  dsimp only
  rw [ne_eq, Option.map_eq_none_iff]
  split_ifs
  · exact (@arpIn_disposes env net _ hhost).ends hpool
  · exact (ipIn_disposes hhost).ends hpool
  · exact Option.some_ne_none _

end Stored

/-! ## Runs -/

/-- No slot has more packets than its ring has cells. -/
structure Fits (net : Net) : Prop where
  udp : ∀ slot, (net.udptab.tab slot).count ≤ UDP_QSIZ
  icmp : ∀ slot, (net.icmptab.tab slot).count ≤ ICMP_QSIZ

/-- A slot of one of the tables has a place free. -/
def HasRoom (net : Net) : Prop :=
  (∃ i ∈ Finset.range UDP_SLOTS, (net.udptab.tab i).count < UDP_QSIZ) ∨
    ∃ i ∈ Finset.range ICMP_SLOTS, (net.icmptab.tab i).count < ICMP_QSIZ

structure InputInv (s : NetInput) : Prop where
  fits : Fits s.net
  room : ∀ pkt, s.phase = .answering pkt → HasRoom s.net

section Runs

variable {s s' : NetInput} {net : Net} {d : Done} {action : Action}

theorem Fits.queued_le (h : Fits s.net) : s.queued + 1 ≤ nbufs := by
  have hudp := Finset.sum_le_card_nsmul (Finset.range UDP_SLOTS)
    (fun i : ℕ => (s.net.udptab.tab i).count) UDP_QSIZ fun i _ => h.udp i
  have hicmp := Finset.sum_le_card_nsmul (Finset.range ICMP_SLOTS)
    (fun i : ℕ => (s.net.icmptab.tab i).count) ICMP_QSIZ fun i _ => h.icmp i
  rw [Finset.card_range, nsmul_eq_mul] at hudp hicmp
  unfold NetInput.queued nbufs
  omega

theorem Fits.queued_lt_iff (h : Fits s.net) :
    s.queued + 1 < nbufs ↔ HasRoom s.net := by
  constructor
  · intro hlt
    by_contra hfull
    unfold HasRoom at hfull
    push Not at hfull
    have hudp := Finset.card_nsmul_le_sum (Finset.range UDP_SLOTS)
      (fun i : ℕ => (s.net.udptab.tab i).count) UDP_QSIZ hfull.1
    have hicmp := Finset.card_nsmul_le_sum (Finset.range ICMP_SLOTS)
      (fun i : ℕ => (s.net.icmptab.tab i).count) ICMP_QSIZ hfull.2
    rw [Finset.card_range, nsmul_eq_mul] at hudp hicmp
    unfold NetInput.queued nbufs at hlt
    omega
  · intro hroom
    have hudp := Finset.sum_le_card_nsmul (Finset.range UDP_SLOTS)
      (fun i : ℕ => (s.net.udptab.tab i).count) UDP_QSIZ fun i _ => h.udp i
    have hicmp := Finset.sum_le_card_nsmul (Finset.range ICMP_SLOTS)
      (fun i : ℕ => (s.net.icmptab.tab i).count) ICMP_QSIZ fun i _ => h.icmp i
    rw [Finset.card_range, nsmul_eq_mul] at hudp hicmp
    unfold NetInput.queued nbufs
    rcases hroom with hroom | hroom
    · have hless := Finset.sum_lt_sum (f := fun i : ℕ => (s.net.udptab.tab i).count)
        (g := fun _ => UDP_QSIZ) (fun i _ => h.udp i) hroom
      rw [Finset.sum_const, Finset.card_range, nsmul_eq_mul] at hless
      omega
    · have hless := Finset.sum_lt_sum (f := fun i : ℕ => (s.net.icmptab.tab i).count)
        (g := fun _ => ICMP_QSIZ) (fun i _ => h.icmp i) hroom
      rw [Finset.sum_const, Finset.card_range, nsmul_eq_mul] at hless
      omega

/-- A sum in which one term grows by one. -/
theorem sum_le_succ {n : ℕ} {f g : ℕ → ℤ} {slot : ℤ}
    (hother : ∀ i : ℕ, (i : ℤ) ≠ slot → g i = f i) (hone : ∀ i, g i ≤ f i + 1) :
    ∑ i ∈ Finset.range n, g i ≤ ∑ i ∈ Finset.range n, f i + 1 := by
  have hterm : ∀ i ∈ Finset.range n,
      g i ≤ f i + if (i : ℤ) = slot then 1 else 0 := by
    intro i _
    split_ifs with heq
    · exact hone i
    · rw [hother i heq, add_zero]
  have hfew : (∑ i ∈ Finset.range n, if (i : ℤ) = slot then (1 : ℤ) else 0) ≤ 1 := by
    rw [Finset.sum_boole]
    have hcard : (Finset.filter (fun i : ℕ => (i : ℤ) = slot)
        (Finset.range n)).card ≤ 1 := by
      refine Finset.card_le_one.mpr fun i hi j hj => ?_
      have hi' := (Finset.mem_filter.mp hi).2
      have hj' := (Finset.mem_filter.mp hj).2
      omega
    exact_mod_cast hcard
  have hsum := Finset.sum_le_sum hterm
  rw [Finset.sum_add_distrib] at hsum
  omega

theorem StoresOne.queued_le (h : StoresOne s.net d) (hnet : s'.net = d.net) :
    s'.queued ≤ s.queued + 1 := by
  obtain ⟨place, hudp, hudpOne, hicmp⟩ := h.one
  have hicmpOne : ∀ slot, (d.net.icmptab.tab slot).count ≤
      (s.net.icmptab.tab slot).count + 1 := by
    intro slot
    rcases h.icmp slot with heq | ⟨-, heq⟩ <;> omega
  unfold NetInput.queued
  rw [hnet]
  cases place with
  | inl slot =>
      have hsum := @sum_le_succ UDP_SLOTS _ _ slot
        (fun i hne => hudp i fun heq => hne (Sum.inl.inj heq))
        fun i => hudpOne i
      have hsame : ∑ i ∈ Finset.range ICMP_SLOTS, (d.net.icmptab.tab i).count =
          ∑ i ∈ Finset.range ICMP_SLOTS, (s.net.icmptab.tab i).count :=
        Finset.sum_congr rfl fun i _ => hicmp i Sum.inr_ne_inl
      omega
  | inr slot =>
      have hsum := @sum_le_succ ICMP_SLOTS _ _ slot
        (fun i hne => hicmp i fun heq => hne (Sum.inr.inj heq))
        fun i => hicmpOne i
      have hsame : ∑ i ∈ Finset.range UDP_SLOTS, (d.net.udptab.tab i).count =
          ∑ i ∈ Finset.range UDP_SLOTS, (s.net.udptab.tab i).count :=
        Finset.sum_congr rfl fun i _ => hudp i Sum.inl_ne_inr
      omega

theorem StoresOne.fits (h : StoresOne net d) (hfits : Fits net)
    (hroom : SlotRoom net (some d)) : Fits d.net where
  udp slot := by
    have hle := h.udp slot
    have hold := hfits.udp slot
    omega
  icmp slot := by
    have hold := hfits.icmp slot
    rcases h.icmp slot with heq | ⟨hstored, heq⟩
    · omega
    · have hlt := hroom d rfl slot hstored
      omega

theorem HasRoom.shrinks {net net' : Net} (h : HasRoom net)
    (hudp : Shrinks net.udptab net'.udptab)
    (hicmp : Shrinks net.icmptab net'.icmptab) : HasRoom net' := by
  rcases h with ⟨i, hi, hlt⟩ | ⟨i, hi, hlt⟩
  · have hle := hudp i
    unfold UDP_QSIZ at hlt
    exact Or.inl ⟨i, hi, by unfold UDP_QSIZ; omega⟩
  · have hle := hicmp i
    unfold ICMP_QSIZ at hlt
    exact Or.inr ⟨i, hi, by unfold ICMP_QSIZ; omega⟩

theorem Fits.shrinks {net net' : Net} (h : Fits net)
    (hudp : Shrinks net.udptab net'.udptab)
    (hicmp : Shrinks net.icmptab net'.icmptab) : Fits net' where
  udp slot := by
    have hle := hudp slot
    have hold := h.udp slot
    unfold UDP_QSIZ at *
    omega
  icmp slot := by
    have hle := hicmp slot
    have hold := h.icmp slot
    unfold ICMP_QSIZ at *
    omega

theorem InputInv.quiet
    (h : InputInv s) (hudp : Shrinks s.net.udptab s'.net.udptab)
    (hicmp : Shrinks s.net.icmptab s'.net.icmptab)
    (hphase : ∀ pkt, s'.phase = .answering pkt → s.phase = .answering pkt) :
    InputInv s' :=
  ⟨h.fits.shrinks hudp hicmp,
    fun pkt hpkt => (h.room pkt (hphase pkt hpkt)).shrinks hudp hicmp⟩

theorem InputInv.arrive
    {addr : Word} {bytes : ℕ → BitVec 8} {buf : Word × (ℕ → BitVec 8)}
    (h : InputInv s) (hspace : Spacious s (.arrive addr bytes buf)) :
    InputInv (s.arrive ⟨.given, addr, bytes⟩ buf) := by
  obtain ⟨hroom, hrequest⟩ := hspace
  unfold NetInput.arrive
  cases hcall : netin (environment s.pool buf) s.net ⟨.given, addr, bytes⟩ with
  | none =>
      refine ⟨h.fits, fun pkt _ => h.fits.queued_lt_iff.mp (hrequest ?_)⟩
      have hempty : s.pool = 0 := by
        by_contra hsome
        have hends := @netin_ends (environment s.pool buf) s.net
          ⟨.given, addr, bytes⟩ rfl (by
            unfold environment
            rw [if_neg hsome]
            exact Option.some_ne_none _)
        exact hends hcall
      rw [← hempty]
      exact hcall
  | some d =>
      rw [hcall] at hroom
      have hstores : StoresOne s.net d := netin_stores rfl d hcall
      exact ⟨hstores.fits h.fits hroom, fun pkt hpkt => nomatch hpkt⟩

theorem InputInv.answer
    {pkt : Netpacket} {buf : Word × (ℕ → BitVec 8)}
    (h : InputInv s) (hanswer : s.answer pkt buf = some s') : InputInv s' := by
  obtain ⟨⟨net, reply⟩, hmk, hanswer⟩ := Option.bind_eq_some_iff.mp hanswer
  obtain ⟨d, hd, rfl⟩ := Option.map_eq_some_iff.mp hanswer
  obtain ⟨⟨addr, bytes⟩, -, heq⟩ := Option.map_eq_some_iff.mp hmk
  obtain ⟨rfl, -⟩ := Prod.mk.inj heq
  obtain ⟨hudp, hicmp⟩ := ipEnqueue_tables hd
  exact h.quiet (.of_tab (congrArg Slots.tab hudp))
    (.of_tab (congrArg Slots.tab hicmp)) fun pkt hpkt => nomatch hpkt

theorem InputInv.loopback
    {addr : Word} {bytes : ℕ → BitVec 8} {buf : Word × (ℕ → BitVec 8)}
    (h : InputInv s) (hspace : Spacious s (.loopback addr bytes buf))
    (hcall : s.loopback ⟨.given, addr, bytes⟩ buf = some s') : InputInv s' := by
  obtain ⟨hroom, hwaits⟩ := hspace
  obtain ⟨d, hd, rfl⟩ := Option.map_eq_some_iff.mp hcall
  rw [hd] at hroom
  have hstores : StoresOne s.net d := ipLocal_stores rfl d hd
  have hfits := hstores.fits h.fits hroom
  refine ⟨hfits, fun pkt hpkt => ?_⟩
  have hspare := hwaits pkt hpkt
  have hone := @StoresOne.queued_le s { s with net := d.net } d hstores rfl
  exact (Fits.queued_lt_iff (s := { s with net := d.net }) hfits).mp (by omega)

theorem InputInv.step
    (h : InputInv s) (hspace : Spacious s action) (hstep : step s action = some s') :
    InputInv s' := by
  have hsame : ∀ {Key Packet : Type} (t : Slots Key Packet), Shrinks t t :=
    fun _ => .of_tab rfl
  cases action with
  | getbuf =>
      simp only [InputBuffers.step] at hstep
      split at hstep
      · obtain ⟨-, heq⟩ := Option.ite_none_left_eq_some.mp hstep
        cases heq
        exact h.quiet (hsame _) (hsame _) fun pkt hpkt => nomatch hpkt
      · contradiction
  | arrive addr bytes buf =>
      simp only [InputBuffers.step] at hstep
      split at hstep
      · cases hstep
        exact h.arrive hspace
      · contradiction
  | answer buf =>
      simp only [InputBuffers.step] at hstep
      split at hstep
      · exact h.answer hstep
      · contradiction
  | udp action =>
      have hquiet : ∀ pkt, action ≠ .arrive pkt := by
        rintro pkt rfl
        cases hstep
      have hmap : ((udpStep s.net.udptab action).map fun t =>
          { s with
            net := { s.net with udptab := t }
            pool := s.pool + (freedBy UDP_SLOTS t -
              freedBy UDP_SLOTS s.net.udptab) }) = some s' := by
        cases action <;> first | exact hstep | cases hstep
      obtain ⟨t, ht, rfl⟩ := Option.map_eq_some_iff.mp hmap
      exact h.quiet (Shrinks.udpStep hquiet ht) (hsame _) fun _ hpkt => hpkt
  | icmp action =>
      have hquiet : ∀ pkt, action ≠ .arrive pkt := by
        rintro pkt rfl
        cases hstep
      have hmap : ((icmpStep s.net.ipucast s.net.icmptab action).map fun t =>
          { s with
            net := { s.net with icmptab := t }
            pool := s.pool + (freedBy ICMP_SLOTS t -
              freedBy ICMP_SLOTS s.net.icmptab) }) = some s' := by
        cases action <;> first | exact hstep | cases hstep
      obtain ⟨t, ht, rfl⟩ := Option.map_eq_some_iff.mp hmap
      exact h.quiet (hsame _) (Shrinks.icmpStep hquiet ht) fun _ hpkt => hpkt
  | loopback addr bytes buf =>
      obtain ⟨-, hcall⟩ := Option.ite_none_left_eq_some.mp hstep
      exact h.loopback hspace hcall
  | take =>
      obtain ⟨-, heq⟩ := Option.ite_none_left_eq_some.mp hstep
      cases heq
      exact h.quiet (hsame _) (hsame _) fun _ hpkt => hpkt
  | giveBack =>
      obtain ⟨-, heq⟩ := Option.ite_none_left_eq_some.mp hstep
      cases heq
      exact h.quiet (hsame _) (hsame _) fun _ hpkt => hpkt
  | elsewhere net =>
      cases hstep
      exact h.quiet (hsame _) (hsame _) fun _ hpkt => hpkt

theorem InputInv.fed (h : InputInv s) : ¬ Starved s := by
  rintro ⟨-, hstarved⟩
  have hle := h.fits.queued_le
  cases hphase : s.phase with
  | top =>
      rw [hphase] at hstarved
      have hall : s.queued = nbufs := hstarved
      omega
  | reading =>
      rw [hphase] at hstarved
      exact hstarved
  | answering pkt =>
      rw [hphase] at hstarved
      have hall : s.queued + 1 = nbufs := hstarved
      have hlt := h.fits.queued_lt_iff.mpr (h.room pkt hphase)
      omega

end Runs

/-- In a run in which the slots are spacious enough, `netin` never needs a
buffer when all the others are in slot queues. -/
theorem input_not_starved
    (net : Net) {s : NetInput} (hreach : Reach step Spacious (netInit net) s) :
    ¬ Starved s := by
  have hinv : InputInv s := by
    refine hreach.invariant InputInv ⟨⟨?_, ?_⟩, fun pkt hpkt => nomatch hpkt⟩
      fun _ _ _ hinv hspace hstep => hinv.step hspace hstep
    · intro slot
      show (0 : ℤ) ≤ UDP_QSIZ
      decide
    · intro slot
      show (0 : ℤ) ≤ ICMP_QSIZ
      decide
  exact hinv.fed


/-! ## Full queues -/

/-- The host 10.0.0.2 without routes. -/
def addresses : Net :=
  ⟨0x0a000002, 0x0a0000ff, 0xffffff00, 0x0a000000, 0, true, 0, 0, udpInit,
    icmpInit, ArpCache.arpInit, ipInit ⟨.given, 0, fun _ => 0⟩, 0⟩

/-- A frame with the given bytes after the Ethernet addresses. -/
def frameBytes (bytes : List (BitVec 8)) : ℕ → BitVec 8 := fun k =>
  (List.replicate 12 0 ++ bytes).getD k 0

/-- An empty UDP packet for the local port. -/
def udpFrame (port : BitVec 8) : ℕ → BitVec 8 :=
  frameBytes [8, 0, 0x45, 0, 0, 28, 0, 0, 0, 0, 0xff, 17, 167, 198, 10, 0, 0, 9,
    10, 0, 0, 2, 0, 7, 0, port, 0, 8, 0, 0]

/-- An ICMP packet of the given type without data. -/
def icmpFrame (type ident : BitVec 8) : ℕ → BitVec 8 :=
  frameBytes [8, 0, 0x45, 0, 0, 28, 0, 0, 0, 0, 0xff, 1, 167, 221, 10, 0, 0, 2,
    10, 0, 0, 2, type, 0, 0xff - type, 0xff - ident, 0, ident, 0, 0]

/-- `netin` gets a buffer and reads the frame into it. -/
def receive (bytes : ℕ → BitVec 8) : List Action :=
  [.getbuf, .arrive 0 bytes (0, fun _ => 0)]

/-- Eight packets for every slot, and then an echo request. -/
def flood : List Action :=
  (List.range 6).map (fun i => .udp (.register ⟨0, 0, BitVec.ofNat 16 i⟩)) ++
    (List.range 10).map (fun i => .icmp (.register (BitVec.ofNat 32 i))) ++
    (List.range 6).flatMap (fun i =>
      (List.replicate 8 (receive (udpFrame (BitVec.ofNat 8 i)))).flatten) ++
    (List.range 10).flatMap (fun i =>
      (List.replicate 8 (receive (icmpFrame 0 (BitVec.ofNat 8 i)))).flatten) ++
    receive (icmpFrame 8 0)

def inIcmp : Disposal.Event → Bool
  | .store _ (.icmp _) => true
  | _ => false

/-- A UDP packet is received and queued. -/
theorem input_not_starved_one_packet :
    ∃ s, Reach step Spacious (netInit addresses) s ∧ s.queued = 1 ∧
      ¬ Starved s := by
  have hview : (run step (netInit addresses)
      [.udp (.register ⟨0, 0, 5⟩), .getbuf]).bind (fun s =>
        (netin (environment s.pool (0, fun _ => 0)) s.net
          ⟨.given, 0, udpFrame 5⟩).bind fun d =>
            (step s (.arrive 0 (udpFrame 5) (0, fun _ => 0))).map fun s' =>
              (d.events.any inIcmp, s.queued, s'.queued)) =
                some (false, 0, 1) := by
    decide
  obtain ⟨s, hrun, hview⟩ := Option.bind_eq_some_iff.mp hview
  obtain ⟨d, hcall, hview⟩ := Option.bind_eq_some_iff.mp hview
  obtain ⟨s', hstep, hview⟩ := Option.map_eq_some_iff.mp hview
  simp only [Prod.mk.injEq] at hview
  obtain ⟨hevents, hbefore, hafter⟩ := hview
  have hreach : Reach step Spacious (netInit addresses) s :=
    Reach.run [.udp (.register ⟨0, 0, 5⟩), .getbuf] .start
      ⟨trivial, fun _ _ => ⟨trivial, fun _ _ => trivial⟩⟩ hrun
  have hspace : Spacious s (.arrive 0 (udpFrame 5) (0, fun _ => 0)) := by
    refine ⟨fun d' hd' slot hstored => ?_, fun _ => ?_⟩
    · rw [hcall, Option.mem_some_iff] at hd'
      subst hd'
      have hany : d.events.any inIcmp = true :=
        List.any_eq_true.mpr ⟨_, hstored, rfl⟩
      rw [hevents] at hany
      exact absurd hany Bool.false_ne_true
    · rw [hbefore]
      decide
  have hreach' := hreach.next _ hspace hstep
  exact ⟨s', hreach', hafter, input_not_starved addresses hreach'⟩

/-- With every slot queue full, the echo request that `netin` holds is the last
buffer, and the reply needs another one. -/
theorem input_starved_by_echo_request :
    ∃ s, Reach step (fun _ _ => True) (netInit addresses) s ∧ Starved s := by
  have hview : (run (fun s action => if True then step s action else none)
      (netInit addresses) flood).map (fun s => (s.pool, s.queued,
        match s.phase with
        | .answering _ => true
        | _ => false)) = some (0, 128, true) := by
    decide +kernel
  obtain ⟨s, hrun, hs⟩ := Option.map_eq_some_iff.mp hview
  simp only [Prod.mk.injEq] at hs
  obtain ⟨hpool, hqueued, hphase⟩ := hs
  refine ⟨s, Reach.run_checked _ .start hrun, hpool, ?_⟩
  cases hp : s.phase with
  | top =>
      rw [hp] at hphase
      exact absurd hphase Bool.false_ne_true
  | reading =>
      rw [hp] at hphase
      exact absurd hphase Bool.false_ne_true
  | answering pkt =>
      show s.queued + 1 = nbufs
      rw [hqueued]
      rfl

end Xinu.InputBuffers
