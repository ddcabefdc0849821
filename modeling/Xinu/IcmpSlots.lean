import Xinu.PacketSlots

/-!
# Echo replies

`icmp_in` queues the replies to a ping in the slot that sent it, `icmp_recv`
takes them out and `icmp_release` drops what is left.  The ring has
`ICMP_QSIZ` cells, but the two consumers wrap the head at `ICMP_SLOTS`, and
the producer does not look at the count.
-/

namespace Xinu.Icmp

open ByteMemory PacketSlots RingBuffer TransitionSystem

def ICMP_SLOTS : ℕ := 10
def ICMP_QSIZ : ℤ := 8
def ICMP_ECHOREPLY : BitVec 8 := 0
def ICMP_ECHOREQST : BitVec 8 := 8

/-- The fields of a packet that `icmp_in` reads. -/
structure IcmpPacket where
  buf : Word
  net_ictype : BitVec 8
  net_icident : BitVec 16
  net_ipsrc : Word
  deriving DecidableEq

/-- The ICMP table; an entry is registered for a remote address. -/
abbrev IcmpTable := Slots Word IcmpPacket

/-- The slot in which an echo reply is queued, if it is acceptable. -/
def replySlot (ipucast : Word) (s : IcmpTable) (pkt : IcmpPacket) : Option ℤ :=
  let slot := (pkt.net_icident.toNat : ℤ)
  if slot < 0 ∨ slot ≥ ICMP_SLOTS then none
  else if (s.tab slot).state = .free then none
  else if pkt.net_ipsrc ≠ (s.tab slot).key ∧ pkt.net_ipsrc ≠ ipucast ∧
      pkt.net_ipsrc &&& 0x7f000000 ≠ 0x7f000000 then none
  else some slot

/-- `icmp_in`.  The answer to an echo request is a packet of its own, and the
request is freed. -/
def icmpIn (ipucast : Word) (s : IcmpTable) (pkt : IcmpPacket) : IcmpTable :=
  if pkt.net_ictype ≠ ICMP_ECHOREPLY ∧ pkt.net_ictype ≠ ICMP_ECHOREQST then
    s.discard pkt
  else if pkt.net_ictype = ICMP_ECHOREQST then s.discard pkt
  else
    match replySlot ipucast s pkt with
    | none => s.discard pkt
    | some slot => s.store ICMP_QSIZ slot pkt

def icmpRegister (s : IcmpTable) (remip : Word) : IcmpTable :=
  (s.register ICMP_SLOTS remip).1

/-- `icmp_recv` up to the place where it blocks. -/
def icmpRecv (s : IcmpTable) (pid icmpid : ℤ) (timeout : Word) : IcmpTable :=
  s.recv ICMP_SLOTS ICMP_SLOTS pid icmpid timeout

/-- `icmp_recv` after `recvtime`. -/
def icmpResume (s : IcmpTable) (pid icmpid : ℤ) : IcmpTable :=
  s.resume ICMP_SLOTS pid icmpid

def icmpRelease (s : IcmpTable) (icmpid : ℤ) : IcmpTable :=
  (s.release ICMP_SLOTS ICMP_SLOTS (· ≠ .used) icmpid).1

inductive IcmpAction
  | arrive (pkt : IcmpPacket)
  | register (remip : Word)
  | recv (pid icmpid : ℤ) (timeout : Word)
  | release (icmpid : ℤ)
  | send (pid : ℤ) (msg : Word)
  | resume (pid : ℤ)

/-- One step.  A process that waits in `icmp_recv` makes no other call, and
goes on when it has a message or its time is over. -/
def icmpStep (ipucast : Word) (s : IcmpTable) : IcmpAction → Option IcmpTable
  | .arrive pkt => some (icmpIn ipucast s pkt)
  | .register remip => some (icmpRegister s remip)
  | .recv pid icmpid timeout =>
      if (s.waiting pid).isSome then none
      else some (icmpRecv s pid icmpid timeout)
  | .release icmpid => some (icmpRelease s icmpid)
  | .send pid msg => some (s.send pid msg)
  | .resume pid => (s.waiting pid).map fun icmpid => icmpResume s pid icmpid

def icmpInit : IcmpTable := Slots.init 0 ⟨0, 0, 0, 0⟩

/-- Every slot keeps at most `ICMP_QSIZ` packets in its ring, and lets them go
in the order of their arrival, each once. -/
def IcmpLaw (s : IcmpTable) : Prop :=
  ∀ icmpid : ℤ, 0 ≤ icmpid → icmpid < ICMP_SLOTS → SlotLaw ICMP_QSIZ s icmpid

/-- The packet is taken from a cell after which the head need not wrap. -/
def HeadInside (s : IcmpTable) (icmpid : ℤ) : Prop :=
  (s.tab icmpid).head ≠ ICMP_QSIZ - 1

/-- No reply is queued in a full slot, no packet is removed from the last cell
of a ring, and a receiver that has been woken by a packet finds one. -/
def Roomy (ipucast : Word) (s : IcmpTable) : IcmpAction → Prop
  | .arrive pkt => pkt.net_ictype = ICMP_ECHOREPLY →
      ∀ slot ∈ replySlot ipucast s pkt, (s.tab slot).count < ICMP_QSIZ
  | .recv _ icmpid _ => (s.tab icmpid).state = .used →
      (s.tab icmpid).count ≠ 0 → HeadInside s icmpid
  | .release icmpid => (s.tab icmpid).state = .used →
      ∀ k < (s.tab icmpid).count.toNat, (s.tab icmpid).head + k ≠ ICMP_QSIZ - 1
  | .resume pid => ∀ icmpid ∈ s.waiting pid, s.wakeMsg pid = OK →
      0 < (s.tab icmpid).count ∧ HeadInside s icmpid
  | .register _ | .send _ _ => True

instance (ipucast : Word) (s : IcmpTable) (action : IcmpAction) :
    Decidable (Roomy ipucast s action) := by
  cases action <;> unfold Roomy <;> (try unfold HeadInside) <;> infer_instance

theorem advance_headInside {head : ℤ} (hlt : head < ICMP_QSIZ)
    (hinside : head ≠ ICMP_QSIZ - 1) :
    advance ICMP_SLOTS head = advance ICMP_QSIZ head := by
  unfold advance ICMP_SLOTS ICMP_QSIZ at *
  rw [if_neg (by push_cast; omega), if_neg (by omega)]

section Law

variable {ipucast : Word} {s s' : IcmpTable} {action : IcmpAction}

theorem replySlot_used {pkt : IcmpPacket} {slot : ℤ}
    (h : replySlot ipucast s pkt = some slot) : (s.tab slot).state ≠ .free := by
  unfold replySlot at h
  dsimp only at h
  split_ifs at h with hrange hfree
  cases h
  exact hfree

theorem head_lt {icmpid : ℤ} (h : SlotLaw ICMP_QSIZ s icmpid) :
    (s.tab icmpid).head < ICMP_QSIZ := by
  obtain ⟨queue, -, -, hholds, -⟩ := h
  exact hholds.head_lt

theorem icmpStep_law
    (h : ∀ slot, SlotLaw ICMP_QSIZ s slot) (hroomy : Roomy ipucast s action)
    (hstep : icmpStep ipucast s action = some s') :
    ∀ slot, SlotLaw ICMP_QSIZ s' slot := by
  intro other
  cases action with
  | arrive pkt =>
      cases hstep
      unfold icmpIn
      split_ifs with htype hrequest
      · exact h other
      · exact h other
      · cases hslot : replySlot ipucast s pkt with
        | none => exact h other
        | some slot =>
            have hreply : pkt.net_ictype = ICMP_ECHOREPLY := by
              by_contra hne
              exact htype ⟨hne, hrequest⟩
            exact (h other).store (replySlot_used hslot)
              (hroomy hreply slot hslot)
  | register remip =>
      cases hstep
      exact (h other).register (by decide)
  | recv pid icmpid timeout =>
      simp only [icmpStep] at hstep
      split_ifs at hstep
      cases hstep
      exact SlotLaw.recv h fun _ _ hused hcount =>
        advance_headInside (head_lt (h icmpid)) (hroomy hused hcount)
  | release icmpid =>
      cases hstep
      refine SlotLaw.release h fun _ _ hused k hk => ?_
      have hroomy := hroomy (by simpa using hused)
      obtain ⟨queue, -, hlen, hholds, -⟩ := h icmpid
      have hsize := hholds.length_le
      have hlt := hholds.head_lt
      have hnonneg := hholds.head_nonneg
      have hpos : position ICMP_QSIZ (s.tab icmpid).head k =
          (s.tab icmpid).head + k := by
        unfold position
        rw [if_pos]
        by_contra hover
        have hcross := hroomy (ICMP_QSIZ - 1 - (s.tab icmpid).head).toNat
          (by omega)
        omega
      have hinside := hroomy k (by omega)
      rw [hpos]
      refine advance_headInside ?_ hinside
      by_contra hover
      have hcross := hroomy (ICMP_QSIZ - 1 - (s.tab icmpid).head).toNat
        (by omega)
      omega
  | send pid msg =>
      cases hstep
      exact (h other).send
  | resume pid =>
      obtain ⟨icmpid, hwaiting, rfl⟩ := Option.map_eq_some_iff.mp hstep
      refine (h other).resume fun hok => ?_
      obtain ⟨hcount, hinside⟩ := hroomy icmpid hwaiting hok
      exact ⟨hcount, advance_headInside (head_lt (h icmpid)) hinside⟩

/-- The rings are sound in every run in which no full slot gets a reply, no
packet leaves the last cell and no woken receiver finds its packet gone. -/
theorem icmp_rings_sound
    (hreach : Reach (icmpStep ipucast) (Roomy ipucast) icmpInit s) :
    IcmpLaw s := by
  have hinv := hreach.invariant (fun s => ∀ slot, SlotLaw ICMP_QSIZ s slot)
    (fun _ => SlotLaw.init (by decide))
    (fun _ _ _ h hroomy hstep => icmpStep_law h hroomy hstep)
  exact fun icmpid _ _ => hinv icmpid

end Law

/-- An echo reply for slot 0 from the loopback address. -/
def echoReply (buf : Word) : IcmpPacket := ⟨buf, ICMP_ECHOREPLY, 0, 0x7f000001⟩

/-- A receiver waits, a reply wakes it, and a second reply is dropped with the
slot. -/
theorem icmp_rings_sound_ping :
    ∃ s, Reach (icmpStep 5) (Roomy 5) icmpInit s ∧
      s.freed 0 = [echoReply 100, echoReply 200] ∧ IcmpLaw s := by
  have hview : (run (fun s action => if Roomy 5 s action then icmpStep 5 s action
      else none) icmpInit
      [.register 7, .recv 3 0 1000, .arrive (echoReply 100), .resume 3,
        .arrive (echoReply 200), .release 0]).map (fun s => s.freed 0) =
      some [echoReply 100, echoReply 200] := by
    decide
  obtain ⟨s, hrun, hfreed⟩ := Option.map_eq_some_iff.mp hview
  have hreach := Reach.run_checked _ .start hrun
  exact ⟨s, hreach, hfreed, icmp_rings_sound hreach⟩

/-- The ninth reply to a slot that nobody reads is queued as well. -/
theorem ninth_reply_breaks_icmp_ring :
    ¬ ∀ s, Reach (icmpStep 5) (fun _ _ => True) icmpInit s → IcmpLaw s := by
  intro hlaw
  have hview : (run (fun s action => if True then icmpStep 5 s action else none)
      icmpInit (.register 7 :: List.replicate 9 (.arrive (echoReply 100)))).map
        (fun s => (s.tab 0).count) = some 9 := by
    decide
  obtain ⟨s, hrun, hcount⟩ := Option.map_eq_some_iff.mp hview
  obtain ⟨queue, -, hlen, hholds, -⟩ :=
    hlaw s (Reach.run_checked _ .start hrun) 0 (by decide) (by decide)
  have hsize := hholds.length_le
  unfold ICMP_QSIZ at hsize
  omega

end Xinu.Icmp
