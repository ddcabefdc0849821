import Xinu.PacketSlots

/-!
# UDP endpoints

`udp_in` queues a packet in the first slot that matches it and has room,
`udp_recv` and `udp_recvaddr` take packets out and `udp_release` drops what is
left.  A receiver that has been woken marks its slot as used and trusts the
message `OK`, whatever has happened to the slot in the meantime.
-/

namespace Xinu.Udp

open ByteMemory PacketSlots RingBuffer TransitionSystem

def UDP_SLOTS : ℕ := 6
def UDP_QSIZ : ℤ := 8

/-- What an entry of `udptab` is registered for. -/
structure UdpKey where
  udremip : Word
  udremport : BitVec 16
  udlocport : BitVec 16
  deriving DecidableEq

/-- The fields of a packet that the UDP code reads, and its buffer. -/
structure UdpPacket where
  buf : Word
  net_ipsrc : Word
  net_udpsport : BitVec 16
  net_udpdport : BitVec 16
  deriving DecidableEq

abbrev UdpTable := Slots UdpKey UdpPacket

def matchesPacket (key : UdpKey) (pkt : UdpPacket) : Bool :=
  pkt.net_udpdport = key.udlocport ∧
    (key.udremport = 0 ∨ pkt.net_udpsport = key.udremport) ∧
    (key.udremip = 0 ∨ pkt.net_ipsrc = key.udremip)

/-- The loop of `udp_in` goes past slots that match and are full. -/
def udpIn (s : UdpTable) (pkt : UdpPacket) : UdpTable :=
  match (List.range UDP_SLOTS).find? fun i : ℕ =>
      (s.tab i).state ≠ .free ∧ matchesPacket (s.tab i).key pkt ∧
        (s.tab i).count < UDP_QSIZ with
  | none => s.discard pkt
  | some i => s.store UDP_QSIZ i pkt

def udpRegister (s : UdpTable) (key : UdpKey) : UdpTable :=
  (s.register UDP_SLOTS key).1

/-- `udp_recv` up to the place where it blocks. -/
def udpRecv (s : UdpTable) (pid slot : ℤ) (timeout : Word) : UdpTable :=
  s.recv UDP_SLOTS UDP_QSIZ pid slot timeout

/-- `udp_recvaddr`, which also reads the sender's address off the packet. -/
def udpRecvaddr (s : UdpTable) (pid slot : ℤ) (timeout : Word) : UdpTable :=
  s.recv UDP_SLOTS UDP_QSIZ pid slot timeout

/-- Both functions after `recvtime`. -/
def udpResume (s : UdpTable) (pid slot : ℤ) : UdpTable :=
  s.resume UDP_QSIZ pid slot

def udpRelease (s : UdpTable) (slot : ℤ) : UdpTable :=
  (s.release UDP_SLOTS UDP_QSIZ (· = .free) slot).1

inductive UdpAction
  | arrive (pkt : UdpPacket)
  | register (key : UdpKey)
  | recv (pid slot : ℤ) (timeout : Word)
  | recvaddr (pid slot : ℤ) (timeout : Word)
  | release (slot : ℤ)
  | send (pid : ℤ) (msg : Word)
  | resume (pid : ℤ)

/-- One step.  A process that waits in a receiving call makes no other call,
and goes on when it has a message or its time is over. -/
def udpStep (s : UdpTable) : UdpAction → Option UdpTable
  | .arrive pkt => some (udpIn s pkt)
  | .register key => some (udpRegister s key)
  | .recv pid slot timeout =>
      if (s.waiting pid).isSome then none else some (udpRecv s pid slot timeout)
  | .recvaddr pid slot timeout =>
      if (s.waiting pid).isSome then none
      else some (udpRecvaddr s pid slot timeout)
  | .release slot => some (udpRelease s slot)
  | .send pid msg => some (s.send pid msg)
  | .resume pid => (s.waiting pid).map fun slot => udpResume s pid slot

def udpInit : UdpTable := Slots.init ⟨0, 0, 0⟩ ⟨0, 0, 0, 0⟩

structure UdpLaw (s : UdpTable) : Prop where
  slots : ∀ slot : ℤ, 0 ≤ slot → slot < UDP_SLOTS → SlotLaw UDP_QSIZ s slot
  released : ∀ slot : ℤ, 0 ≤ slot → slot < UDP_SLOTS →
    s.registered slot = false → (s.tab slot).state = .free

/-- A receiver that goes on finds its slot in use, and a packet if it was
woken by `OK`. -/
def Undisturbed (s : UdpTable) : UdpAction → Prop
  | .resume pid => ∀ slot ∈ s.waiting pid, (s.tab slot).state ≠ .free ∧
      (s.wakeMsg pid = OK → 0 < (s.tab slot).count)
  | _ => True

instance (s : UdpTable) (action : UdpAction) :
    Decidable (Undisturbed s action) := by
  cases action <;> unfold Undisturbed <;> infer_instance

/-! ## Slots in use -/

/-- No slot comes into use, and no registration ends. -/
structure NoneOpened (s s' : UdpTable) : Prop where
  registered : s'.registered = s.registered
  used : ∀ slot, (s'.tab slot).state ≠ .free → (s.tab slot).state ≠ .free

section Used

variable {s s' s'' : UdpTable} {slot pid : ℤ} {pkt : UdpPacket}

theorem NoneOpened.trans (h : NoneOpened s s') (h' : NoneOpened s' s'') :
    NoneOpened s s'' where
  registered := h'.registered.trans h.registered
  used slot hslot := h.used slot (h'.used slot hslot)

theorem NoneOpened.same
    (htab : s'.tab = s.tab) (hreg : s'.registered = s.registered) :
    NoneOpened s s' where
  registered := hreg
  used slot hslot := by rwa [← htab]

theorem NoneOpened.setEntry {e : Entry UdpKey UdpPacket}
    (he : e.state ≠ .free → (s.tab slot).state ≠ .free) :
    NoneOpened s (s.setEntry slot e) where
  registered := rfl
  used other hused := by
    by_cases hne : other = slot
    · subst hne
      rw [tab_setEntry_self] at hused
      exact he hused
    · rwa [tab_setEntry_of_ne _ hne] at hused

theorem NoneOpened.send (msg : Word) : NoneOpened s (s.send pid msg) := by
  obtain ⟨htab, -, -, hreg⟩ := @send_tab _ _ s pid msg
  exact .same htab hreg

theorem NoneOpened.store (hused : (s.tab slot).state ≠ .free) :
    NoneOpened s (s.store UDP_QSIZ slot pkt) := by
  have hput : NoneOpened s
      { s.setEntry slot ((s.tab slot).put UDP_QSIZ pkt) with
        stored := Function.update s.stored slot (s.stored slot ++ [pkt]) } :=
    (NoneOpened.setEntry fun _ => hused).trans (.same rfl rfl)
  unfold Slots.store
  dsimp only
  split_ifs
  · refine hput.trans ((NoneOpened.setEntry fun _ => ?_).trans (.send _))
    rw [tab_setEntry_self]
    exact hused
  · exact hput

theorem NoneOpened.removeFirst : NoneOpened s (s.removeFirst UDP_QSIZ slot) :=
  ⟨rfl, fun _ h => by rwa [state_removeFirst] at h⟩

theorem NoneOpened.takePacket :
    NoneOpened s (s.takePacket UDP_QSIZ pid slot) :=
  NoneOpened.removeFirst.trans (.same rfl rfl)

theorem NoneOpened.recv {timeout : Word} :
    NoneOpened s (s.recv UDP_SLOTS UDP_QSIZ pid slot timeout) := by
  unfold Slots.recv
  dsimp only
  split_ifs with hslot hused hcount htime
  · exact .same rfl rfl
  · exact .same rfl rfl
  · have hstate : (s.tab slot).state ≠ .free := by
      rw [of_not_not hused]
      decide
    refine ((NoneOpened.setEntry fun _ => hstate).trans (.same rfl rfl)).trans
      ((NoneOpened.setEntry fun _ => ?_).trans (.same rfl rfl))
    simp
  · have hstate : (s.tab slot).state ≠ .free := by
      rw [of_not_not hused]
      decide
    exact (NoneOpened.setEntry fun _ => hstate).trans (.same rfl rfl)
  · exact .takePacket

theorem NoneOpened.resume (hused : (s.tab slot).state ≠ .free) :
    NoneOpened s (s.resume UDP_QSIZ pid slot) := by
  unfold Slots.resume
  dsimp only
  generalize hs₁ : ({ s with
    inbox := Function.update s.inbox pid none
    waiting := Function.update s.waiting pid none } : UdpTable) = s₁
  have hclear : NoneOpened s s₁ := by
    rw [← hs₁]
    exact .same rfl rfl
  have hset : NoneOpened s (s₁.setState slot .used) :=
    hclear.trans (NoneOpened.setEntry fun _ => by rwa [← hs₁])
  split_ifs
  · exact hset.trans (.same rfl rfl)
  · exact hset.trans (.same rfl rfl)
  · exact hset.trans .takePacket

theorem NoneOpened.drain (fuel : ℕ) :
    NoneOpened s (Slots.drain UDP_QSIZ slot fuel s) := by
  induction fuel generalizing s with
  | zero => exact .same rfl rfl
  | succ fuel ih =>
      rw [Slots.drain]
      split_ifs
      · exact NoneOpened.removeFirst.trans ih
      · exact .same rfl rfl

end Used

/-! ## Runs -/

section Law

variable {s s' : UdpTable} {action : UdpAction}

/-- Every slot is sound, and a slot in use is registered. -/
structure UdpInv (s : UdpTable) : Prop where
  law : ∀ slot, SlotLaw UDP_QSIZ s slot
  registered : ∀ slot, (s.tab slot).state ≠ .free → s.registered slot = true

theorem UdpInv.keep
    (h : UdpInv s) (hlaw : ∀ slot, SlotLaw UDP_QSIZ s' slot)
    (hopened : NoneOpened s s') : UdpInv s' where
  law := hlaw
  registered slot hused := by
    rw [hopened.registered]
    exact h.registered slot (hopened.used slot hused)

theorem UdpInv.arrive (h : UdpInv s) (pkt : UdpPacket) : UdpInv (udpIn s pkt) := by
  unfold udpIn
  cases hfind : (List.range UDP_SLOTS).find? fun i : ℕ =>
      (s.tab i).state ≠ .free ∧ matchesPacket (s.tab i).key pkt ∧
        (s.tab i).count < UDP_QSIZ with
  | none => exact h.keep h.law (.same rfl rfl)
  | some i =>
      have hmatch := List.find?_some hfind
      simp only [decide_eq_true_eq] at hmatch
      obtain ⟨hused, -, hroom⟩ := hmatch
      exact h.keep (fun slot => (h.law slot).store hused hroom) (.store hused)

theorem UdpInv.register (h : UdpInv s) (key : UdpKey) :
    UdpInv (udpRegister s key) := by
  refine ⟨fun slot => (h.law slot).register (by decide), fun slot hused => ?_⟩
  unfold udpRegister Slots.register at hused ⊢
  split_ifs at hused ⊢ with htaken
  · exact h.registered slot hused
  · cases hfind : (List.range UDP_SLOTS).find?
        fun i : ℕ => (s.tab i).state = .free with
    | none =>
        rw [hfind] at hused
        exact h.registered slot hused
    | some i =>
        rw [hfind] at hused
        dsimp only at hused ⊢
        by_cases hne : slot = i
        · rw [hne, Function.update_self]
        · rw [tab_setEntry_of_ne _ hne] at hused
          rw [Function.update_of_ne hne]
          exact h.registered slot hused

theorem UdpInv.recv (h : UdpInv s) (pid slot : ℤ) (timeout : Word) :
    UdpInv (udpRecv s pid slot timeout) :=
  h.keep (fun _ => SlotLaw.recv h.law fun _ _ _ _ => rfl) .recv

theorem UdpInv.release (h : UdpInv s) (slot : ℤ) : UdpInv (udpRelease s slot) := by
  refine ⟨fun _ => SlotLaw.release h.law fun _ _ _ _ _ => rfl, ?_⟩
  intro other hused
  unfold udpRelease Slots.release at hused ⊢
  dsimp only at hused ⊢
  split_ifs at hused ⊢ with hslot hfree
  · exact h.registered other hused
  · exact h.registered other hused
  · have hdrained : NoneOpened s
        (s.drain UDP_QSIZ slot (s.tab slot).count.toNat) := .drain _
    generalize Slots.drain UDP_QSIZ slot (s.tab slot).count.toNat s = s₁
      at hdrained hused
    by_cases hne : other = slot
    · subst hne
      dsimp only at hused
      rw [tab_setState_self] at hused
      exact absurd rfl hused
    · dsimp only at hused
      rw [Slots.setState, tab_setEntry_of_ne _ hne] at hused
      dsimp only [Slots.setState, Slots.setEntry]
      rw [Function.update_of_ne hne, hdrained.registered]
      exact h.registered other (hdrained.used other hused)

theorem UdpInv.step
    (h : UdpInv s) (hcalm : Undisturbed s action)
    (hstep : udpStep s action = some s') : UdpInv s' := by
  cases action with
  | arrive pkt =>
      cases hstep
      exact h.arrive pkt
  | register key =>
      cases hstep
      exact h.register key
  | recv pid slot timeout =>
      simp only [udpStep] at hstep
      split_ifs at hstep
      cases hstep
      exact h.recv pid slot timeout
  | recvaddr pid slot timeout =>
      simp only [udpStep] at hstep
      split_ifs at hstep
      cases hstep
      exact h.recv pid slot timeout
  | release slot =>
      cases hstep
      exact h.release slot
  | send pid msg =>
      cases hstep
      exact h.keep (fun slot => (h.law slot).send) (.send msg)
  | resume pid =>
      obtain ⟨slot, hwaiting, rfl⟩ := Option.map_eq_some_iff.mp hstep
      obtain ⟨hused, hpacket⟩ := hcalm slot hwaiting
      exact h.keep
        (fun other => (h.law other).resume fun hok => ⟨hpacket hok, rfl⟩)
        (.resume hused)

/-- The endpoints are sound in every run in which a receiver that goes on
finds its slot in use, with a packet if it was promised one. -/
theorem udp_endpoints_sound
    (hreach : Reach udpStep Undisturbed udpInit s) : UdpLaw s := by
  have hinv := hreach.invariant UdpInv
    ⟨fun _ => SlotLaw.init (by decide), fun _ hused => absurd rfl hused⟩
    (fun _ _ _ h hcalm hstep => h.step hcalm hstep)
  refine ⟨fun slot _ _ => hinv.law slot, fun slot _ _ hreg => ?_⟩
  by_contra hused
  have htrue := hinv.registered slot hused
  rw [hreg] at htrue
  cases htrue

end Law

/-- A packet for local port 53. -/
def datagram (buf : Word) : UdpPacket := ⟨buf, 9, 2000, 53⟩

/-- A receiver waits and is woken by a packet; a second packet is dropped with
the slot. -/
theorem udp_endpoints_sound_query :
    ∃ s, Reach udpStep Undisturbed udpInit s ∧
      s.freed 0 = [datagram 100, datagram 200] ∧ UdpLaw s := by
  have hview : (run (fun s action => if Undisturbed s action then
        udpStep s action else none) udpInit
      [.register ⟨0, 0, 53⟩, .recv 3 0 1000, .arrive (datagram 100), .resume 3,
        .arrive (datagram 200), .release 0]).map (fun s => s.freed 0) =
      some [datagram 100, datagram 200] := by
    decide
  obtain ⟨s, hrun, hfreed⟩ := Option.map_eq_some_iff.mp hview
  have hreach := Reach.run_checked _ .start hrun
  exact ⟨s, hreach, hfreed, udp_endpoints_sound hreach⟩

/-- A slot is released while a receiver waits in it; the time-out of the
receiver brings the slot back into use. -/
theorem timeout_reopens_released_slot :
    ¬ ∀ s, Reach udpStep (fun _ _ => True) udpInit s → UdpLaw s := by
  intro hlaw
  have hview : (run (fun s action => if True then udpStep s action else none)
      udpInit [.register ⟨0, 0, 53⟩, .recv 3 0 1000, .release 0, .resume 3]).map
        (fun s => (s.registered 0, (s.tab 0).state)) = some (false, .used) := by
    decide
  obtain ⟨s, hrun, hstate⟩ := Option.map_eq_some_iff.mp hview
  rw [Prod.mk.injEq] at hstate
  have hfree := (hlaw s (Reach.run_checked _ .start hrun)).released 0
    (by decide) (by decide) hstate.1
  rw [hstate.2] at hfree
  cases hfree

end Xinu.Udp
