import Xinu.CountingSemaphore
import Xinu.TransitionSystem

/-!
# The transmit ring of the Ethernet device

`ethwrite` and the transmit half of `ethhandler`, with the NIC beside them: it
sends the descriptors from TDH up to, but not including, TDT, and a ring with
TDH equal to TDT is empty for it.  `write` disables interrupts, so a call of
`ethwrite` can only be suspended where it waits.
-/

namespace Xinu.EthTransmit

open TransitionSystem

abbrev Packet := List (BitVec 8)

def ETH_HDR_LEN : ℕ := 14
def ETH_MAX_PKT_LEN : ℕ := 1518
def ETH_BUF_SIZE : ℕ := 2048
def E1000_TX_RING_SIZE : ℕ := 16

/-- A transmit descriptor with its buffer; `lower.data` is the command and the
length, and `upper.data` the done bit. -/
structure TxDesc where
  buffer : Packet
  cmd : Bool
  length : ℕ
  dd : Bool
  deriving DecidableEq

/-- What the NIC sends for a descriptor. -/
def TxDesc.packet (d : TxDesc) : Packet := d.buffer.take d.length

def TxDesc.blank : TxDesc := ⟨List.replicate ETH_BUF_SIZE 0, false, 0, false⟩

/-- The fields of `ethcblk` for output and the registers TDH and TDT.  The last
four record the packets of the callers inside, what each call has returned, and
the packets that `ethwrite` has accepted and the NIC has sent. -/
structure Ethcblk where
  up : Bool
  osem : CountingSemaphore ℤ
  txRing : ℕ → TxDesc
  txHead : ℕ
  txTail : ℕ
  tdh : ℕ
  tdt : ℕ
  calls : ℤ → Packet
  returned : ℤ → Option ℤ
  accepted : List Packet
  sent : List Packet

/-- The device after `_82545EMInit`. -/
def Ethcblk.init : Ethcblk :=
  ⟨true, .init E1000_TX_RING_SIZE, fun _ => .blank, 0, 0, 0, 0, fun _ => [],
    fun _ => none, [], []⟩

namespace Ethcblk

variable (t : Ethcblk)

def Refuses (pkt : Packet) : Prop :=
  t.up = false ∨ pkt.length < ETH_HDR_LEN ∨ ETH_MAX_PKT_LEN < pkt.length ∨
    pkt.length < 17

instance (pkt : Packet) : Decidable (t.Refuses pkt) :=
  inferInstanceAs (Decidable (_ ∨ _))

/-- `ethwrite` after `wait` has returned. -/
def insert (pid : ℤ) : Ethcblk :=
  let pkt := t.calls pid
  let tail := t.txTail
  let descptr := t.txRing tail
  { t with
    osem := t.osem.goOn pid
    txRing := Function.update t.txRing tail
      ⟨pkt ++ descptr.buffer.drop pkt.length, true, pkt.length, false⟩
    tdt := (t.tdt + 1) % E1000_TX_RING_SIZE
    txTail := (t.txTail + 1) % E1000_TX_RING_SIZE
    returned := Function.update t.returned pid (some pkt.length)
    accepted := t.accepted ++ [pkt] }

def ethwrite (pid : ℤ) (pkt : Packet) : Ethcblk :=
  if t.Refuses pkt then
    { t with returned := Function.update t.returned pid (some (-1)) }
  else
    let t : Ethcblk := { t with
      osem := t.osem.wait pid
      calls := Function.update t.calls pid pkt }
    if pid ∈ t.osem.passed then t.insert pid else t

/-- The loop of `eth_txPackets`; it counts the descriptors it reclaims. -/
def reclaim : ℕ → Ethcblk → ℕ × Ethcblk
  | 0, t => (0, t)
  | n + 1, t =>
      if (t.txRing t.txHead).dd = false then (0, t)
      else
        let t : Ethcblk := { t with
          txRing := Function.update t.txRing t.txHead .blank
          txHead := (t.txHead + 1) % E1000_TX_RING_SIZE }
        let r := reclaim n t
        (r.1 + 1, r.2)

def txPackets : Ethcblk :=
  let r := reclaim E1000_TX_RING_SIZE t
  { r.2 with osem := .signaln r.1 r.2.osem }

/-- The NIC sends the descriptor at TDH. -/
def transmit : Ethcblk :=
  let descptr := t.txRing t.tdh
  { t with
    sent := t.sent ++ [descptr.packet]
    txRing := Function.update t.txRing t.tdh { descptr with dd := true }
    tdh := (t.tdh + 1) % E1000_TX_RING_SIZE }

/-- The number of descriptors between TDH and TDT. -/
def unsent : ℕ := (t.tdt + E1000_TX_RING_SIZE - t.tdh) % E1000_TX_RING_SIZE

/-- The packets between TDH and TDT. -/
def between : List Packet :=
  (List.range t.unsent).map fun k =>
    (t.txRing ((t.tdh + k) % E1000_TX_RING_SIZE)).packet

end Ethcblk

/-- A process calls `ethwrite` or goes on after `wait`, the NIC sends a packet,
or the transmit interrupt is taken. -/
inductive Action where
  | write (pid : ℤ) (pkt : Packet)
  | resume (pid : ℤ)
  | nic
  | interrupt

def step (t : Ethcblk) : Action → Option Ethcblk
  | .write pid pkt =>
      if pid ∈ t.osem.members then none else some (t.ethwrite pid pkt)
  | .resume pid => if pid ∈ t.osem.passed then some (t.insert pid) else none
  | .nic => if t.tdh = t.tdt then none else some t.transmit
  | .interrupt => some t.txPackets

/-- A packet that goes into the ring finds at most 14 unsent ones there. -/
def Roomy (t : Ethcblk) : Action → Prop
  | .write _ pkt => t.Refuses pkt ∨ t.osem.count ≤ 0 ∨ t.unsent < 15
  | .resume _ => t.unsent < 15
  | .nic => True
  | .interrupt => True

/-- The interrupt for a sent packet is taken before anything else. -/
def Prompt (t : Ethcblk) : Action → Prop
  | .interrupt => True
  | _ => (t.txRing t.txHead).dd = false

instance (t : Ethcblk) (action : Action) : Decidable (Roomy t action) := by
  cases action <;> unfold Roomy <;> infer_instance

/-- All callers of `ethwrite` wait for a free descriptor. -/
def Blocked (t : Ethcblk) : Prop := t.osem.waiting ≠ [] ∧ t.osem.passed = []

/-- The packets accepted are those sent, in their order, and those between TDH
and TDT; whoever may write finds a blank descriptor outside them; and callers
wait at an empty ring only for an interrupt that lets one of them go on. -/
structure TransmitLaw (t : Ethcblk) : Prop where
  accepted : t.accepted = t.sent ++ t.between
  reuse : 0 < t.osem.count ∨ t.osem.passed ≠ [] →
    t.txRing t.txTail = .blank ∧
      ∀ k < t.unsent, (t.tdh + k) % E1000_TX_RING_SIZE ≠ t.txTail
  awaited : Blocked t → t.tdh = t.tdt → t.txPackets.osem.passed ≠ []

/-! ## The counts behind the indices -/

/-- Of the packets accepted so far, `sent` have been sent and `reclaimed`
reclaimed; the indices follow these counts round the ring. -/
structure Ring (t : Ethcblk) (reclaimed : ℕ) : Prop where
  reclaimed_le : reclaimed ≤ t.sent.length
  sent_le : t.sent.length ≤ t.accepted.length
  accepted_le : t.accepted.length ≤ reclaimed + 16
  unsent_le : t.accepted.length ≤ t.sent.length + 15
  txHead : t.txHead = reclaimed % 16
  tdh : t.tdh = t.sent.length % 16
  tdt : t.tdt = t.accepted.length % 16
  txTail : t.txTail = t.accepted.length % 16
  sent : t.sent = t.accepted.take t.sent.length
  waiting : ∀ k (hk : k < t.accepted.length), t.sent.length ≤ k →
    (t.txRing (k % 16)).packet = t.accepted.get ⟨k, hk⟩ ∧
      (t.txRing (k % 16)).dd = false
  done : ∀ k, reclaimed ≤ k → k < t.sent.length → (t.txRing (k % 16)).dd = true
  blank : ∀ k, t.accepted.length ≤ k → k < reclaimed + 16 →
    t.txRing (k % 16) = .blank

/-- The semaphore counts the blank descriptors, less those already promised to
processes inside. -/
structure TransmitInv (t : Ethcblk) (reclaimed : ℕ) : Prop where
  ring : Ring t reclaimed
  sound : t.osem.Sound
  slots : t.osem.count + t.osem.inside =
    reclaimed + 16 - (t.accepted.length : ℤ)

section Counts

variable {t t' : Ethcblk} {reclaimed : ℕ} {pid : ℤ} {pkt : Packet}

theorem Ring.unsent_eq (h : Ring t reclaimed) :
    t.unsent = t.accepted.length - t.sent.length := by
  have hle := h.sent_le
  have hroom := h.unsent_le
  unfold Ethcblk.unsent E1000_TX_RING_SIZE
  rw [h.tdh, h.tdt]
  omega

theorem Ring.between_eq (h : Ring t reclaimed) :
    t.between = t.accepted.drop t.sent.length := by
  apply List.ext_getElem
  · rw [Ethcblk.between, List.length_map, List.length_range, h.unsent_eq,
      List.length_drop]
  · intro k hk hk'
    rw [List.length_drop] at hk'
    have hcell := (h.waiting (t.sent.length + k) (by omega)
      (Nat.le_add_right _ _)).1
    have hindex : (t.tdh + k) % 16 = (t.sent.length + k) % 16 := by
      rw [h.tdh]
      omega
    simp only [Ethcblk.between, E1000_TX_RING_SIZE, List.getElem_map,
      List.getElem_range, List.getElem_drop]
    rw [hindex, hcell]
    rfl

/-- Inserting a packet when a descriptor is blank and fewer than 15 packets are
unsent. -/
theorem Ring.insert
    (h : Ring t reclaimed) (hblank : t.accepted.length < reclaimed + 16)
    (hroom : t.unsent < 15) : Ring (t.insert pid) reclaimed := by
  rw [h.unsent_eq] at hroom
  have hle := h.sent_le
  have hrle := h.reclaimed_le
  have hlen : (t.accepted ++ [t.calls pid]).length = t.accepted.length + 1 := by
    simp
  have hother : ∀ k, reclaimed ≤ k → k < reclaimed + 16 →
      k ≠ t.accepted.length → k % 16 ≠ t.txTail := by
    intro k hlow hhigh hne
    rw [h.txTail]
    omega
  unfold Ethcblk.insert
  constructor
  · exact hrle
  · show t.sent.length ≤ (t.accepted ++ [t.calls pid]).length
    omega
  · show (t.accepted ++ [t.calls pid]).length ≤ _
    omega
  · show (t.accepted ++ [t.calls pid]).length ≤ t.sent.length + 15
    omega
  · exact h.txHead
  · exact h.tdh
  · show (t.tdt + 1) % 16 = (t.accepted ++ [t.calls pid]).length % 16
    rw [hlen, h.tdt]
    omega
  · show (t.txTail + 1) % 16 = (t.accepted ++ [t.calls pid]).length % 16
    rw [hlen, h.txTail]
    omega
  · show t.sent = (t.accepted ++ [t.calls pid]).take t.sent.length
    rw [List.take_append_of_le_length hle]
    exact h.sent
  · intro k hk hsent
    dsimp only at hk hsent ⊢
    rw [hlen] at hk
    by_cases hlast : k = t.accepted.length
    · subst hlast
      rw [h.txTail, Function.update_self]
      simp [TxDesc.packet]
    · rw [Function.update_of_ne (hother k (by omega) (by omega) hlast)]
      have hold := h.waiting k (by omega) hsent
      simpa [List.getElem_append_left (show k < t.accepted.length by omega)]
        using hold
  · intro k hlow hhigh
    dsimp only at hhigh ⊢
    rw [Function.update_of_ne (hother k hlow (by omega) (by omega))]
    exact h.done k hlow hhigh
  · intro k hlow hhigh
    dsimp only at hlow ⊢
    rw [hlen] at hlow
    rw [Function.update_of_ne (hother k (by omega) hhigh (by omega))]
    exact h.blank k (by omega) hhigh

theorem Ring.transmit
    (h : Ring t reclaimed) (hbusy : t.tdh ≠ t.tdt) :
    Ring t.transmit reclaimed := by
  have hle := h.sent_le
  have hrle := h.reclaimed_le
  have hbound := h.accepted_le
  have hlt : t.sent.length < t.accepted.length := by
    rw [h.tdh, h.tdt] at hbusy
    rcases hle.lt_or_eq with hlt | heq
    · exact hlt
    · exact absurd (by rw [heq]) hbusy
  obtain ⟨hpacket, -⟩ := h.waiting t.sent.length hlt le_rfl
  have hother : ∀ k, reclaimed ≤ k → k < reclaimed + 16 →
      k ≠ t.sent.length → k % 16 ≠ t.tdh := by
    intro k hlow hhigh hne
    rw [h.tdh]
    omega
  have hsent : t.transmit.sent = t.accepted.take (t.sent.length + 1) := by
    show t.sent ++ [(t.txRing t.tdh).packet] = _
    rw [List.take_succ_eq_append_getElem hlt, h.tdh, hpacket, ← h.sent]
    rfl
  have hlen : t.transmit.sent.length = t.sent.length + 1 := by
    rw [hsent, List.length_take]
    omega
  have hring : t.transmit.txRing =
      Function.update t.txRing t.tdh { t.txRing t.tdh with dd := true } := rfl
  constructor
  · omega
  · rw [hlen]
    exact hlt
  · exact hbound
  · rw [hlen]
    exact h.unsent_le.trans (by omega)
  · exact h.txHead
  · rw [hlen]
    show (t.tdh + 1) % 16 = _
    rw [h.tdh]
    omega
  · exact h.tdt
  · exact h.txTail
  · rw [hlen]
    exact hsent
  · intro k hk hlow
    rw [hlen] at hlow
    have hacc : k < t.accepted.length := hk
    rw [hring, Function.update_of_ne (hother k (by omega) (by omega) (by omega))]
    exact h.waiting k hk (by omega)
  · intro k hlow hhigh
    rw [hlen] at hhigh
    rw [hring]
    by_cases hlast : k = t.sent.length
    · rw [hlast, h.tdh, Function.update_self]
    · rw [Function.update_of_ne (hother k hlow (by omega) hlast)]
      exact h.done k hlow (by omega)
  · intro k hlow hhigh
    have hacc : t.accepted.length ≤ k := hlow
    rw [hring, Function.update_of_ne (hother k (by omega) hhigh (by omega))]
    exact h.blank k hlow hhigh

/-- The descriptor that the interrupt handler looks at next is done exactly if
a sent one has not been reclaimed. -/
theorem Ring.head_dd (h : Ring t reclaimed) :
    (t.txRing t.txHead).dd = true ↔ reclaimed < t.sent.length := by
  have hrle := h.reclaimed_le
  have hle := h.sent_le
  rw [h.txHead]
  constructor
  · intro hdd
    by_contra hnone
    have heq : reclaimed = t.sent.length := by omega
    rcases hle.lt_or_eq with hlt | hall
    · have hwaits := (h.waiting reclaimed (by omega) (by omega)).2
      rw [hwaits] at hdd
      contradiction
    · have hblank := h.blank reclaimed (by omega) (by omega)
      rw [hblank] at hdd
      contradiction
  · exact h.done reclaimed le_rfl

theorem Ring.reclaimOne
    (h : Ring t reclaimed) (hlt : reclaimed < t.sent.length) :
    Ring { t with
      txRing := Function.update t.txRing t.txHead .blank
      txHead := (t.txHead + 1) % E1000_TX_RING_SIZE } (reclaimed + 1) := by
  have hle := h.sent_le
  have hbound := h.accepted_le
  have hother : ∀ k, reclaimed < k → k < reclaimed + 16 →
      k % 16 ≠ t.txHead := by
    intro k hlow hhigh
    rw [h.txHead]
    omega
  constructor
  · exact hlt
  · exact hle
  · exact hbound.trans (by omega)
  · exact h.unsent_le
  · show (t.txHead + 1) % 16 = _
    rw [h.txHead]
    omega
  · exact h.tdh
  · exact h.tdt
  · exact h.txTail
  · exact h.sent
  · intro k hk hlow
    have hsent : t.sent.length ≤ k := hlow
    have hacc : k < t.accepted.length := hk
    dsimp only
    rw [Function.update_of_ne (hother k (by omega) (by omega))]
    exact h.waiting k hk hlow
  · intro k hlow hhigh
    have hsent : k < t.sent.length := hhigh
    dsimp only
    rw [Function.update_of_ne (hother k hlow (by omega))]
    exact h.done k (by omega) hhigh
  · intro k hlow hhigh
    have hacc : t.accepted.length ≤ k := hlow
    dsimp only
    by_cases hlast : k = reclaimed + 16
    · rw [h.txHead, show k % 16 = reclaimed % 16 by omega, Function.update_self]
    · rw [Function.update_of_ne (hother k (by omega) (by omega))]
      exact h.blank k hlow (by omega)

/-- The loop reclaims every sent descriptor and changes nothing else. -/
theorem Ring.reclaim
    (n : ℕ) (h : Ring t reclaimed) (hn : t.sent.length ≤ reclaimed + n) :
    (Ethcblk.reclaim n t).1 = t.sent.length - reclaimed ∧
      Ring (Ethcblk.reclaim n t).2 t.sent.length ∧
        ∃ ring head, (Ethcblk.reclaim n t).2 =
          { t with
            txRing := ring
            txHead := head } := by
  have hrle := h.reclaimed_le
  induction n generalizing t reclaimed with
  | zero =>
      have heq : reclaimed = t.sent.length := by omega
      exact ⟨by rw [heq, Nat.sub_self]; rfl, heq ▸ h, t.txRing, t.txHead, rfl⟩
  | succ n ih =>
      unfold Ethcblk.reclaim
      by_cases hdd : (t.txRing t.txHead).dd = false
      · have hnone : ¬ reclaimed < t.sent.length := by
          rw [← h.head_dd, hdd]
          exact Bool.false_ne_true
        have heq : reclaimed = t.sent.length := by omega
        rw [if_pos hdd]
        exact ⟨by rw [heq, Nat.sub_self], heq ▸ h, t.txRing, t.txHead, rfl⟩
      · rw [Bool.not_eq_false] at hdd
        have hlt := h.head_dd.mp hdd
        have hone := h.reclaimOne hlt
        obtain ⟨hcount, hring, ring, head, heq⟩ :=
          ih hone (by dsimp only; omega) hone.reclaimed_le
        rw [if_neg (by rw [hdd]; exact Bool.true_eq_false.mp)]
        refine ⟨?_, hring, ring, head, heq⟩
        dsimp only at hcount ⊢
        omega

theorem Ring.congr
    (h : Ring t reclaimed) (osem : CountingSemaphore ℤ) (calls : ℤ → Packet)
    (returned : ℤ → Option ℤ) :
    Ring { t with
      osem := osem
      calls := calls
      returned := returned } reclaimed :=
  ⟨h.reclaimed_le, h.sent_le, h.accepted_le, h.unsent_le, h.txHead, h.tdh, h.tdt,
    h.txTail, h.sent, h.waiting, h.done, h.blank⟩

theorem TransmitInv.init : TransmitInv .init 0 := by
  refine ⟨?_, .init (by decide), rfl⟩
  constructor
  · exact le_rfl
  · exact le_rfl
  · exact Nat.zero_le _
  · exact Nat.zero_le _
  · rfl
  · rfl
  · rfl
  · rfl
  · rfl
  · exact fun k hk => absurd hk (Nat.not_lt_zero k)
  · exact fun k _ hk => absurd hk (Nat.not_lt_zero k)
  · exact fun _ _ _ => rfl

theorem TransmitInv.blank_of_passed
    (h : TransmitInv t reclaimed) (hp : t.osem.passed ≠ []) :
    t.accepted.length < reclaimed + 16 := by
  have hslots := h.slots
  have hcount := h.sound.count_inside
  have hpos := List.length_pos_iff.mpr hp
  omega

/-- A process that has passed `wait` inserts its packet. -/
theorem TransmitInv.insert
    (h : TransmitInv t reclaimed) (hp : pid ∈ t.osem.passed)
    (hroom : t.unsent < 15) : TransmitInv (t.insert pid) reclaimed := by
  have hblank := h.blank_of_passed (List.ne_nil_of_mem hp)
  refine ⟨h.ring.insert hblank hroom, h.sound.goOn, ?_⟩
  have hslots := h.slots
  have hinside := CountingSemaphore.inside_goOn hp
  show (t.osem.goOn pid).count + ((t.osem.goOn pid).inside : ℤ) =
    _ - ((t.accepted ++ [t.calls pid]).length : ℤ)
  rw [CountingSemaphore.count_goOn, List.length_append, List.length_singleton]
  push_cast
  omega

theorem TransmitInv.ethwrite
    (h : TransmitInv t reclaimed) (hfresh : pid ∉ t.osem.members)
    (hroomy : Roomy t (.write pid pkt)) :
    TransmitInv (t.ethwrite pid pkt) reclaimed := by
  unfold Ethcblk.ethwrite
  by_cases hrefuses : t.Refuses pkt
  · rw [if_pos hrefuses]
    exact ⟨h.ring.congr t.osem t.calls _, h.sound, h.slots⟩
  · rw [if_neg hrefuses]
    have hwait : TransmitInv { t with
        osem := t.osem.wait pid
        calls := Function.update t.calls pid pkt } reclaimed := by
      refine ⟨h.ring.congr _ _ t.returned, h.sound.wait, ?_⟩
      have hslots := h.slots
      dsimp only
      rw [CountingSemaphore.count_wait, CountingSemaphore.inside_wait]
      push_cast
      omega
    dsimp only
    split_ifs with hpassed
    · refine hwait.insert hpassed ?_
      rcases CountingSemaphore.mem_passed_wait hpassed with hold | ⟨-, hpos⟩
      · exact absurd (List.mem_append_right _ hold) hfresh
      · rcases hroomy with hno | hzero | hroom
        · exact absurd hno hrefuses
        · omega
        · exact hroom
    · exact hwait

theorem TransmitInv.txPackets (h : TransmitInv t reclaimed) :
    TransmitInv t.txPackets t.sent.length := by
  have hle := h.ring.sent_le
  have hbound := h.ring.accepted_le
  have hrle := h.ring.reclaimed_le
  obtain ⟨hcount, hring, ring, head, heq⟩ :=
    h.ring.reclaim E1000_TX_RING_SIZE (by unfold E1000_TX_RING_SIZE; omega)
  rw [heq] at hring
  unfold Ethcblk.txPackets
  dsimp only
  rw [heq, hcount]
  refine ⟨hring.congr _ t.calls t.returned, h.sound.signaln, ?_⟩
  have hslots := h.slots
  dsimp only
  rw [CountingSemaphore.count_signaln, CountingSemaphore.inside_signaln]
  push_cast [hrle]
  omega

theorem TransmitInv.law (h : TransmitInv t reclaimed) : TransmitLaw t := by
  have hle := h.ring.sent_le
  have hroom := h.ring.unsent_le
  have hslots := h.slots
  have hinside := h.sound.count_inside
  refine ⟨?_, ?_, ?_⟩
  · calc t.accepted
        = t.accepted.take t.sent.length ++ t.accepted.drop t.sent.length :=
          (List.take_append_drop _ _).symm
      _ = t.sent ++ t.between := by rw [← h.ring.sent, h.ring.between_eq]
  · intro hfree
    have hblank : t.accepted.length < reclaimed + 16 := by
      rcases hfree with hpos | hpassed
      · omega
      · exact h.blank_of_passed hpassed
    rw [h.ring.txTail]
    refine ⟨h.ring.blank _ le_rfl hblank, fun k hk => ?_⟩
    rw [h.ring.unsent_eq] at hk
    rw [h.ring.tdh]
    unfold E1000_TX_RING_SIZE
    omega
  · rintro ⟨hwaits, hpassed⟩ hempty
    have hall : t.sent.length = t.accepted.length := by
      rw [h.ring.tdh, h.ring.tdt] at hempty
      omega
    have hpos := List.length_pos_iff.mpr hwaits
    have hsound : (t.osem.waiting.length : ℤ) = max 0 (-t.osem.count) := h.sound
    rw [hpassed, List.length_nil] at hinside
    have hfull : 0 < t.sent.length - reclaimed := by omega
    obtain ⟨hcount, -, ring, head, heq⟩ := h.ring.reclaim E1000_TX_RING_SIZE
      (by have := h.ring.accepted_le; unfold E1000_TX_RING_SIZE; omega)
    unfold Ethcblk.txPackets
    dsimp only
    rw [heq, hcount]
    exact h.sound.passed_signaln hwaits hfull

/-- The sixteenth unsent packet makes the ring look empty, and no packet of it
lies between TDH and TDT. -/
theorem TransmitInv.overrun
    (h : TransmitInv t reclaimed) (hfull : t.unsent = 15) :
    (t.insert pid).tdh = (t.insert pid).tdt ∧ ¬ TransmitLaw (t.insert pid) := by
  have hlen := h.ring.unsent_eq
  have hmeet : (t.insert pid).tdh = (t.insert pid).tdt := by
    show t.tdh = (t.tdt + 1) % 16
    rw [h.ring.tdh, h.ring.tdt]
    omega
  refine ⟨hmeet, fun hlaw => ?_⟩
  have hbetween : (t.insert pid).between = [] := by
    have hzero : (t.insert pid).unsent = 0 := by
      unfold Ethcblk.unsent
      rw [hmeet, Nat.add_sub_cancel_left, Nat.mod_self]
    rw [Ethcblk.between, hzero]
    rfl
  have haccepted := congrArg List.length hlaw.accepted
  rw [hbetween, List.append_nil] at haccepted
  have hnew : (t.insert pid).accepted.length = t.accepted.length + 1 :=
    List.length_append ..
  have hsame : (t.insert pid).sent.length = t.sent.length := rfl
  omega

/-- One step keeps the counts; only the interrupt reclaims. -/
theorem TransmitInv.step
    {action : Action} (h : TransmitInv t reclaimed) (hroomy : Roomy t action)
    (hstep : step t action = some t') :
    ∃ reclaimed', TransmitInv t' reclaimed' ∧
      (action ≠ .interrupt → reclaimed' = reclaimed ∧
        t'.sent.length ≤ t.sent.length + 1) ∧
      (action = .interrupt → reclaimed' = t'.sent.length) := by
  cases action with
  | write pid pkt =>
      simp only [EthTransmit.step, Option.ite_none_left_eq_some,
        Option.some.injEq] at hstep
      obtain ⟨hfresh, rfl⟩ := hstep
      refine ⟨reclaimed, h.ethwrite hfresh hroomy, fun _ => ⟨rfl, ?_⟩, nofun⟩
      have hsent : (t.ethwrite pid pkt).sent = t.sent := by
        unfold Ethcblk.ethwrite Ethcblk.insert
        split_ifs
        · rfl
        · dsimp only
          split_ifs <;> rfl
      rw [hsent]
      exact Nat.le_succ _
  | resume pid =>
      simp only [EthTransmit.step, Option.ite_none_right_eq_some,
        Option.some.injEq] at hstep
      obtain ⟨hpassed, rfl⟩ := hstep
      exact ⟨reclaimed, h.insert hpassed hroomy,
        fun _ => ⟨rfl, Nat.le_succ _⟩, nofun⟩
  | nic =>
      simp only [EthTransmit.step, Option.ite_none_left_eq_some,
        Option.some.injEq] at hstep
      obtain ⟨hbusy, rfl⟩ := hstep
      refine ⟨reclaimed, ⟨h.ring.transmit hbusy, h.sound, h.slots⟩,
        fun _ => ⟨rfl, ?_⟩, nofun⟩
      exact (List.length_append ..).le
  | interrupt =>
      simp only [EthTransmit.step, Option.some.injEq] at hstep
      subst hstep
      have hinv := h.txPackets
      obtain ⟨-, -, ring, head, heq⟩ := h.ring.reclaim E1000_TX_RING_SIZE
        (by
          have hbound := h.ring.accepted_le
          have hle := h.ring.sent_le
          unfold E1000_TX_RING_SIZE
          omega)
      refine ⟨_, hinv, fun hne => absurd rfl hne, fun _ => ?_⟩
      unfold Ethcblk.txPackets
      dsimp only
      rw [heq]

end Counts

/-- In a run in which TDT never catches up with TDH, packets are sent in order
and exactly once, and callers at an empty ring wait only for the interrupt.  If
interrupts are taken at once, no caller waits at an empty ring. -/
theorem transmit_sound (t : Ethcblk) :
    (Reach step Roomy .init t → TransmitLaw t) ∧
      (Reach step (fun t action => Roomy t action ∧ Prompt t action) .init t →
        ¬ (Blocked t ∧ t.tdh = t.tdt)) := by
  constructor
  · intro hreach
    obtain ⟨reclaimed, hinv⟩ := hreach.invariant
      (fun t => ∃ reclaimed, TransmitInv t reclaimed) ⟨0, .init⟩ (by
      rintro t action t' ⟨reclaimed, hinv⟩ hroomy hstep
      obtain ⟨reclaimed', hinv', -⟩ := hinv.step hroomy hstep
      exact ⟨reclaimed', hinv'⟩)
    exact hinv.law
  · intro hreach
    obtain ⟨reclaimed, hinv, hone⟩ := hreach.invariant
      (fun t => ∃ reclaimed, TransmitInv t reclaimed ∧
        t.sent.length ≤ reclaimed + 1) ⟨0, .init, Nat.zero_le _⟩ (by
      rintro t action t' ⟨reclaimed, hinv, hone⟩ ⟨hroomy, hprompt⟩ hstep
      obtain ⟨reclaimed', hinv', hother, htaken⟩ := hinv.step hroomy hstep
      refine ⟨reclaimed', hinv', ?_⟩
      by_cases haction : action = .interrupt
      · rw [htaken haction]
        exact Nat.le_succ _
      · obtain ⟨rfl, hsent⟩ := hother haction
        have hclear : (t.txRing t.txHead).dd = false := by
          cases action with
          | interrupt => exact absurd rfl haction
          | write pid pkt => exact hprompt
          | resume pid => exact hprompt
          | nic => exact hprompt
        have hnone : ¬ reclaimed' < t.sent.length := by
          rw [← hinv.ring.head_dd, hclear]
          exact Bool.false_ne_true
        omega)
    rintro ⟨⟨hwaits, hpassed⟩, hempty⟩
    have hle := hinv.ring.sent_le
    have hroom := hinv.ring.unsent_le
    rw [hinv.ring.tdh, hinv.ring.tdt] at hempty
    have hslots := hinv.slots
    have hinside := hinv.sound.count_inside
    have hpos := List.length_pos_iff.mpr hwaits
    have hsound : (t.osem.waiting.length : ℤ) = max 0 (-t.osem.count) :=
      hinv.sound
    rw [hpassed, List.length_nil] at hinside
    omega

/-- Two packets, one of them sent and reclaimed. -/
theorem transmit_sound_two_packets :
    ∃ t, Reach step Roomy .init t ∧ t.sent = [List.replicate 17 1] ∧
      TransmitLaw t := by
  have hview : (run (fun t action => if Roomy t action then step t action
      else none) .init [.write 1 (.replicate 17 1), .write 2 (.replicate 18 2),
        .nic, .interrupt]).map Ethcblk.sent = some [List.replicate 17 1] := by
    decide
  obtain ⟨t, hrun, hsent⟩ := Option.map_eq_some_iff.mp hview
  have hreach := Reach.run_checked _ .start hrun
  exact ⟨t, hreach, hsent, (transmit_sound t).1 hreach⟩

/-- Sixteen packets before the NIC sends one: the ring is empty for the NIC, and
the next caller waits for an interrupt that never comes. -/
theorem transmit_ring_overrun :
    ∃ t, Reach step (fun _ _ => True) .init t ∧ Blocked t ∧ t.tdh = t.tdt ∧
      t.accepted.length = 16 ∧ t.sent = [] ∧ t.txPackets.osem.passed = [] ∧
        ¬ TransmitLaw t := by
  have hview : (run step .init ((List.range 17).map fun k : ℕ =>
      Action.write (k : ℤ) (.replicate 17 1))).map (fun t =>
        ((t.osem.waiting, t.osem.passed, t.txPackets.osem.passed),
          decide (t.tdh = t.tdt), t.accepted.length, t.sent.length,
            t.between.length)) = some (([16], [], []), true, 16, 0, 0) := by
    decide
  obtain ⟨t, hrun, ht⟩ := Option.map_eq_some_iff.mp hview
  simp only [Prod.mk.injEq, decide_eq_true_eq] at ht
  obtain ⟨⟨hwaiting, hpassed, hstuck⟩, hmeet, hlen, hsent, hbetween⟩ := ht
  have hallowed : ∀ (actions : List Action) (t : Ethcblk),
      Allowed step (fun _ _ => True) t actions := by
    intro actions
    induction actions with
    | nil => exact fun _ => trivial
    | cons action actions ih => exact fun t => ⟨trivial, fun t' _ => ih t'⟩
  refine ⟨t, Reach.run _ .start (hallowed _ _) hrun,
    ⟨by rw [hwaiting]; simp, hpassed⟩, hmeet, hlen,
      List.length_eq_zero_iff.mp hsent, hstuck, ?_⟩
  intro hlaw
  have haccepted := congrArg List.length hlaw.accepted
  rw [List.length_append] at haccepted
  omega

end Xinu.EthTransmit
