import Xinu.CountingSemaphore
import Xinu.TransitionSystem

/-!
# The receive ring of the Ethernet device

`ethread` and the receive half of `ethhandler`, with the NIC beside them: it
fills the descriptors from RDH on, marks them done and stops when RDH equals
RDT.  `read` disables interrupts, so a call of `ethread` can only be suspended
where it waits.  The NIC goes on storing frames while the handler scans the
ring; during `ethread` it writes other descriptors than the call does, so its
frames count as arriving before or after the call.
-/

namespace Xinu.EthReceive

open TransitionSystem

abbrev Frame := List (BitVec 8)

def ETH_HDR_LEN : ℤ := 14
def ETH_BUF_SIZE : ℕ := 2048
def E1000_RX_RING_SIZE : ℕ := 32
def E1000_RING_BOUNDARY : ℕ := 16
def E1000_RXD_STAT_DD : BitVec 8 := 1
def E1000_RXD_STAT_EOP : BitVec 8 := 2

structure RxDesc where
  buffer : Frame
  length : ℕ
  status : BitVec 8
  deriving DecidableEq

def RxDesc.frame (d : RxDesc) : Frame := d.buffer.take d.length

def RxDesc.blank : RxDesc := ⟨List.replicate ETH_BUF_SIZE 0, 0, 0⟩

/-- The fields of `ethcblk` for input and the registers RDH and RDT.  The last
three record the frames that the NIC has stored, how many descriptors the
handler has counted, and what each call of `ethread` has got, `none` being a
packet error. -/
structure Ethcblk where
  up : Bool
  isem : CountingSemaphore ℤ
  rxRing : ℕ → RxDesc
  rxHead : ℕ
  rxTail : ℕ
  rdh : ℕ
  rdt : ℕ
  stored : List Frame
  counted : ℕ
  delivered : List (ℤ × Option Frame)

/-- The device after `_82545EM_configure_rx`. -/
def Ethcblk.init : Ethcblk :=
  ⟨true, .init 0, fun _ => .blank, 0, 0, 0,
    E1000_RX_RING_SIZE - E1000_RING_BOUNDARY, [], 0, []⟩

namespace Ethcblk

variable (t : Ethcblk)

/-- A frame arrives; the NIC drops it when it has no descriptor left, and it
does not store frames that are longer than a buffer. -/
def store (frame : Frame) : Ethcblk :=
  if t.rdh = t.rdt ∨ ETH_BUF_SIZE < frame.length then t
  else
    { t with
      rxRing := Function.update t.rxRing t.rdh
        ⟨frame ++ (t.rxRing t.rdh).buffer.drop frame.length, frame.length,
          E1000_RXD_STAT_DD ||| E1000_RXD_STAT_EOP⟩
      rdh := (t.rdh + 1) % E1000_RX_RING_SIZE
      stored := t.stored ++ [frame] }

def storeAll (frames : List Frame) : Ethcblk := frames.foldl store t

/-- `ethread` after `wait` has returned. -/
def take (pid : ℤ) : Ethcblk :=
  let head := t.rxHead
  let descptr := t.rxRing head
  let got := if descptr.status &&& E1000_RXD_STAT_DD = 0 then none
    else some descptr.frame
  { t with
    isem := t.isem.goOn pid
    rxRing := Function.update t.rxRing head .blank
    rdt := if t.rxHead % E1000_RING_BOUNDARY = 0 then
      (t.rdt + E1000_RING_BOUNDARY) % E1000_RX_RING_SIZE else t.rdt
    rxHead := (t.rxHead + 1) % E1000_RX_RING_SIZE
    delivered := t.delivered ++ [(pid, got)] }

def ethread (pid len : ℤ) : Ethcblk :=
  if t.up = false ∨ len < ETH_HDR_LEN then t
  else
    let t : Ethcblk := { t with isem := t.isem.wait pid }
    if pid ∈ t.isem.passed then t.take pid else t

/-- The loop of `eth_rxPackets`; `arrivals` lists, for each turn, the frames
that arrive before the handler reads the status. -/
def scan : ℕ → List (List Frame) → Ethcblk → ℕ × Ethcblk
  | 0, _, t => (0, t)
  | n + 1, arrivals, t =>
      let t := t.storeAll arrivals.headI
      if (t.rxRing t.rxTail).status = 0 then (0, t)
      else
        let r := scan n arrivals.tail { t with
          rxTail := (t.rxTail + 1) % E1000_RX_RING_SIZE
          counted := t.counted + 1 }
        (r.1 + 1, r.2)

def rxPackets (arrivals : List (List Frame)) : Ethcblk :=
  let r := scan E1000_RX_RING_SIZE arrivals t
  { r.2 with isem := .signaln r.1 r.2.isem }

/-- The descriptors that are counted and not yet read. -/
def unread : ℕ := (t.rxTail + E1000_RX_RING_SIZE - t.rxHead) % E1000_RX_RING_SIZE

/-- The filled descriptors that no interrupt has counted yet. -/
def uncounted : ℕ := (t.rdh + E1000_RX_RING_SIZE - t.rxTail) % E1000_RX_RING_SIZE

/-- The descriptors that the NIC may fill. -/
def given : ℕ := (t.rdt + E1000_RX_RING_SIZE - t.rdh) % E1000_RX_RING_SIZE

end Ethcblk

/-- A frame arrives, the receive interrupt is taken, or a process calls
`ethread` or goes on after `wait`. -/
inductive Action where
  | arrive (frame : Frame)
  | interrupt (arrivals : List (List Frame))
  | read (pid len : ℤ)
  | resume (pid : ℤ)

def step (t : Ethcblk) : Action → Option Ethcblk
  | .arrive frame => some (t.store frame)
  | .interrupt arrivals => some (t.rxPackets arrivals)
  | .read pid len =>
      if pid ∈ t.isem.members then none else some (t.ethread pid len)
  | .resume pid => if pid ∈ t.isem.passed then some (t.take pid) else none

/-- The permits are the descriptors counted and not read; from the head on the
ring holds the frames not yet delivered, first those counted and then those the
next interrupt counts; the descriptors that belong to the NIC are others, and
cleared; and what the readers got are the stored frames in their order. -/
structure ReceiveLaw (t : Ethcblk) : Prop where
  permits : max 0 t.isem.count + t.isem.passed.length = t.unread
  counted : t.counted = t.delivered.length + t.unread
  stored : t.stored.length = t.counted + t.uncounted
  frames : ∀ k (hk : t.delivered.length + k < t.stored.length),
    (t.rxRing ((t.rxHead + k) % E1000_RX_RING_SIZE)).status ≠ 0 ∧
      (t.rxRing ((t.rxHead + k) % E1000_RX_RING_SIZE)).frame =
        t.stored.get ⟨t.delivered.length + k, hk⟩
  cleared : t.unread + t.uncounted + t.given < E1000_RX_RING_SIZE ∧
    ∀ k < t.given, t.rxRing ((t.rdh + k) % E1000_RX_RING_SIZE) = .blank
  delivered : t.delivered.map Prod.snd =
    (t.stored.take t.delivered.length).map some
  served : ∀ arrivals, (t.rxPackets arrivals).uncounted = 0

/-! ## The counts behind the indices -/

/-- The indices follow the numbers of frames stored, counted and delivered
round the ring.  RDT is ahead of the reader by 16 descriptors and the rest of
the half ring that it reads. -/
structure Ring (t : Ethcblk) : Prop where
  delivered_le : t.delivered.length ≤ t.counted
  counted_le : t.counted ≤ t.stored.length
  stored_le : t.stored.length ≤ 16 + 16 * ((t.delivered.length + 15) / 16)
  rxHead : t.rxHead = t.delivered.length % 32
  rxTail : t.rxTail = t.counted % 32
  rdh : t.rdh = t.stored.length % 32
  rdt : t.rdt = (16 + 16 * ((t.delivered.length + 15) / 16)) % 32
  filled : ∀ k (hk : k < t.stored.length), t.delivered.length ≤ k →
    (t.rxRing (k % 32)).status = E1000_RXD_STAT_DD ||| E1000_RXD_STAT_EOP ∧
      (t.rxRing (k % 32)).frame = t.stored.get ⟨k, hk⟩
  blank : ∀ k, t.stored.length ≤ k → k < t.delivered.length + 32 →
    t.rxRing (k % 32) = .blank
  delivered : t.delivered.map Prod.snd =
    (t.stored.take t.delivered.length).map some

structure ReceiveInv (t : Ethcblk) : Prop where
  ring : Ring t
  sound : t.isem.Sound
  permits : t.isem.count + t.isem.inside + t.delivered.length = t.counted

section Counts

variable {t t' : Ethcblk} {pid : ℤ} {frame : Frame}

theorem Ring.unread_eq (h : Ring t) :
    t.unread = t.counted - t.delivered.length := by
  have hd := h.delivered_le
  have hc := h.counted_le
  have hs := h.stored_le
  unfold Ethcblk.unread E1000_RX_RING_SIZE
  rw [h.rxHead, h.rxTail]
  omega

theorem Ring.uncounted_eq (h : Ring t) :
    t.uncounted = t.stored.length - t.counted := by
  have hd := h.delivered_le
  have hc := h.counted_le
  have hs := h.stored_le
  unfold Ethcblk.uncounted E1000_RX_RING_SIZE
  rw [h.rdh, h.rxTail]
  omega

theorem Ring.given_eq (h : Ring t) :
    t.given = 16 + 16 * ((t.delivered.length + 15) / 16) - t.stored.length := by
  have hd := h.delivered_le
  have hc := h.counted_le
  have hs := h.stored_le
  unfold Ethcblk.given E1000_RX_RING_SIZE
  rw [h.rdh, h.rdt]
  omega

theorem Ring.init : Ring .init := by
  constructor
  · exact le_rfl
  · exact le_rfl
  · exact Nat.zero_le _
  · rfl
  · rfl
  · rfl
  · rfl
  · exact fun k hk => absurd hk (Nat.not_lt_zero k)
  · exact fun _ _ _ => rfl
  · rfl

theorem Ring.store (h : Ring t) : Ring (t.store frame) := by
  unfold Ethcblk.store
  split_ifs with hdrop
  · exact h
  · have hd := h.delivered_le
    have hc := h.counted_le
    have hs := h.stored_le
    push Not at hdrop
    have hroom : t.stored.length < 16 + 16 * ((t.delivered.length + 15) / 16) := by
      have hne := hdrop.1
      rw [h.rdh, h.rdt] at hne
      rcases hs.lt_or_eq with hlt | heq
      · exact hlt
      · exact absurd (by rw [heq]) hne
    have hlen : (t.stored ++ [frame]).length = t.stored.length + 1 := by simp
    have hother : ∀ k, t.delivered.length ≤ k → k < t.delivered.length + 32 →
        k ≠ t.stored.length → k % 32 ≠ t.rdh := by
      intro k hlow hhigh hne
      rw [h.rdh]
      omega
    constructor
    · exact hd
    · show t.counted ≤ (t.stored ++ [frame]).length
      omega
    · show (t.stored ++ [frame]).length ≤ _
      rw [hlen]
      exact hroom
    · exact h.rxHead
    · exact h.rxTail
    · show (t.rdh + 1) % 32 = (t.stored ++ [frame]).length % 32
      rw [hlen, h.rdh]
      omega
    · exact h.rdt
    · intro k hk hlow
      dsimp only at hk hlow ⊢
      rw [hlen] at hk
      by_cases hlast : k = t.stored.length
      · subst hlast
        rw [h.rdh, Function.update_self]
        simp [RxDesc.frame]
      · rw [Function.update_of_ne (hother k hlow (by omega) hlast)]
        have hold := h.filled k (by omega) hlow
        simpa [List.getElem_append_left (show k < t.stored.length by omega)]
          using hold
    · intro k hlow hhigh
      dsimp only at hlow ⊢
      rw [hlen] at hlow
      rw [Function.update_of_ne (hother k (by omega) hhigh (by omega))]
      exact h.blank k (by omega) hhigh
    · show t.delivered.map Prod.snd =
        ((t.stored ++ [frame]).take t.delivered.length).map some
      rw [List.take_append_of_le_length (by omega)]
      exact h.delivered

theorem Ring.storeAll (frames : List Frame) (h : Ring t) :
    Ring (t.storeAll frames) := by
  induction frames generalizing t with
  | nil => exact h
  | cons frame frames ih => exact ih h.store

/-- Reading the first of the counted descriptors; when it begins a half of the
ring, the other half, which has been read before, goes to the NIC. -/
theorem Ring.take
    (h : Ring t) (hlt : t.delivered.length < t.counted) : Ring (t.take pid) := by
  have hc := h.counted_le
  have hs := h.stored_le
  have hfilled : t.delivered.length < t.stored.length := by omega
  obtain ⟨hstatus, hframe⟩ := h.filled _ hfilled le_rfl
  have hgot : (t.take pid).delivered =
      t.delivered ++ [(pid, some t.stored[t.delivered.length])] := by
    show t.delivered ++ [(pid, if (t.rxRing t.rxHead).status &&& _ = 0 then none
      else some (t.rxRing t.rxHead).frame)] = _
    rw [h.rxHead, hstatus, hframe, if_neg (by decide)]
    rfl
  have hlen : (t.take pid).delivered.length = t.delivered.length + 1 := by
    rw [hgot, List.length_append, List.length_singleton]
  have hring : (t.take pid).rxRing =
      Function.update t.rxRing t.rxHead .blank := rfl
  have hother : ∀ k, t.delivered.length < k → k < t.delivered.length + 32 →
      k % 32 ≠ t.rxHead := by
    intro k hlow hhigh
    rw [h.rxHead]
    omega
  constructor
  · rw [hlen]
    exact hlt
  · exact hc
  · rw [hlen]
    exact hs.trans (by omega)
  · rw [hlen]
    show (t.rxHead + 1) % 32 = _
    rw [h.rxHead]
    omega
  · exact h.rxTail
  · exact h.rdh
  · rw [hlen]
    show (if t.rxHead % 16 = 0 then (t.rdt + 16) % 32 else t.rdt) = _
    rw [h.rdt, h.rxHead]
    split_ifs <;> omega
  · intro k hk hlow
    rw [hlen] at hlow
    have hstored : k < t.stored.length := hk
    rw [hring, Function.update_of_ne (hother k (by omega) (by omega))]
    exact h.filled k hk (by omega)
  · intro k hlow hhigh
    rw [hlen] at hhigh
    have hstored : t.stored.length ≤ k := hlow
    rw [hring]
    by_cases hlast : k = t.delivered.length + 32
    · rw [h.rxHead, show k % 32 = t.delivered.length % 32 by omega,
        Function.update_self]
    · rw [Function.update_of_ne (hother k (by omega) (by omega))]
      exact h.blank k hlow (by omega)
  · rw [hlen, hgot, List.map_append, h.delivered]
    show _ = (t.stored.take (t.delivered.length + 1)).map some
    rw [List.take_succ_eq_append_getElem hfilled, List.map_append]
    rfl

/-- The handler finds a status other than zero exactly in a filled descriptor
that has not been counted. -/
theorem Ring.tail_status (h : Ring t) :
    (t.rxRing t.rxTail).status = 0 ↔ t.counted = t.stored.length := by
  have hd := h.delivered_le
  have hs := h.stored_le
  rw [h.rxTail]
  constructor
  · intro hzero
    by_contra hne
    have hlt : t.counted < t.stored.length := h.counted_le.lt_of_ne hne
    rw [(h.filled _ hlt hd).1] at hzero
    exact absurd hzero (by decide)
  · intro heq
    rw [h.blank t.counted (by omega) (by omega)]
    rfl

theorem Ring.count
    (h : Ring t) (hlt : t.counted < t.stored.length) :
    Ring { t with
      rxTail := (t.rxTail + 1) % E1000_RX_RING_SIZE
      counted := t.counted + 1 } := by
  have hd := h.delivered_le
  refine ⟨hd.trans (Nat.le_succ _), hlt, h.stored_le, h.rxHead, ?_, h.rdh, h.rdt,
    h.filled, h.blank, h.delivered⟩
  show (t.rxTail + 1) % 32 = (t.counted + 1) % 32
  rw [h.rxTail]
  omega

theorem storeAll_frame (frames : List Frame) (t : Ethcblk) :
    (t.storeAll frames).isem = t.isem ∧
      (t.storeAll frames).counted = t.counted ∧
        (t.storeAll frames).delivered = t.delivered := by
  induction frames generalizing t with
  | nil => exact ⟨rfl, rfl, rfl⟩
  | cons frame frames ih =>
      obtain ⟨hisem, hcounted, hdelivered⟩ := ih (t.store frame)
      have hone : (t.store frame).isem = t.isem ∧
          (t.store frame).counted = t.counted ∧
            (t.store frame).delivered = t.delivered := by
        unfold Ethcblk.store
        split_ifs <;> exact ⟨rfl, rfl, rfl⟩
      exact ⟨hisem.trans hone.1, hcounted.trans hone.2.1,
        hdelivered.trans hone.2.2⟩

/-- The loop counts every filled descriptor, those included that are filled
while it runs, and ends before it has gone round the ring. -/
theorem Ring.scan
    (n : ℕ) (arrivals : List (List Frame)) (h : Ring t)
    (hn : t.delivered.length + 32 ≤ t.counted + n) :
    Ring (Ethcblk.scan n arrivals t).2 ∧
      (Ethcblk.scan n arrivals t).2.counted =
        t.counted + (Ethcblk.scan n arrivals t).1 ∧
      (Ethcblk.scan n arrivals t).2.counted =
        (Ethcblk.scan n arrivals t).2.stored.length ∧
      (Ethcblk.scan n arrivals t).2.isem = t.isem ∧
      (Ethcblk.scan n arrivals t).2.delivered = t.delivered := by
  induction n generalizing t arrivals with
  | zero =>
      have hc := h.counted_le
      have hs := h.stored_le
      omega
  | succ n ih =>
      have hring := h.storeAll arrivals.headI
      obtain ⟨hisem, hcounted, hdelivered⟩ := storeAll_frame arrivals.headI t
      unfold Ethcblk.scan
      dsimp only
      generalize t.storeAll arrivals.headI = s at hring hisem hcounted hdelivered ⊢
      by_cases hzero : (s.rxRing s.rxTail).status = 0
      · rw [if_pos hzero]
        exact ⟨hring, hcounted, hring.tail_status.mp hzero, hisem, hdelivered⟩
      · rw [if_neg hzero]
        have hlt : s.counted < s.stored.length :=
          hring.counted_le.lt_of_ne fun heq => hzero (hring.tail_status.mpr heq)
        obtain ⟨hlast, hsum, hall, hsem, hsame⟩ :=
          ih arrivals.tail (hring.count hlt) (by
            dsimp only
            rw [hcounted, hdelivered]
            omega)
        refine ⟨hlast, ?_, hall, hsem.trans hisem, hsame.trans hdelivered⟩
        dsimp only at hsum ⊢
        omega

theorem Ring.congr (h : Ring t) (isem : CountingSemaphore ℤ) :
    Ring { t with isem := isem } :=
  ⟨h.delivered_le, h.counted_le, h.stored_le, h.rxHead, h.rxTail, h.rdh, h.rdt,
    h.filled, h.blank, h.delivered⟩

theorem ReceiveInv.init : ReceiveInv .init := ⟨.init, .init le_rfl, rfl⟩

theorem ReceiveInv.store (h : ReceiveInv t) : ReceiveInv (t.store frame) := by
  obtain ⟨hisem, hcounted, hdelivered⟩ := storeAll_frame [frame] t
  have hsame : t.storeAll [frame] = t.store frame := rfl
  rw [hsame] at hisem hcounted hdelivered
  refine ⟨h.ring.store, ?_, ?_⟩
  · rw [hisem]
    exact h.sound
  · rw [hisem, hcounted, hdelivered]
    exact h.permits

theorem ReceiveInv.take
    (h : ReceiveInv t) (hp : pid ∈ t.isem.passed) : ReceiveInv (t.take pid) := by
  have hpermits := h.permits
  have hinside := h.sound.count_inside
  have hpos := List.length_pos_of_mem hp
  have hgone := CountingSemaphore.inside_goOn hp
  refine ⟨h.ring.take (by omega), h.sound.goOn, ?_⟩
  have hlen : (t.take pid).delivered.length = t.delivered.length + 1 :=
    List.length_append ..
  rw [hlen]
  show (t.isem.goOn pid).count + ((t.isem.goOn pid).inside : ℤ) + _ =
    (t.counted : ℤ)
  rw [CountingSemaphore.count_goOn]
  push_cast
  omega

theorem ReceiveInv.ethread {len : ℤ} (h : ReceiveInv t) :
    ReceiveInv (t.ethread pid len) := by
  unfold Ethcblk.ethread
  split_ifs with hrefuses
  · exact h
  · have hwait : ReceiveInv { t with isem := t.isem.wait pid } := by
      refine ⟨h.ring.congr _, h.sound.wait, ?_⟩
      have hpermits := h.permits
      dsimp only
      rw [CountingSemaphore.count_wait, CountingSemaphore.inside_wait]
      push_cast
      omega
    dsimp only
    split_ifs with hpassed
    · exact hwait.take hpassed
    · exact hwait

theorem ReceiveInv.rxPackets (arrivals : List (List Frame)) (h : ReceiveInv t) :
    ReceiveInv (t.rxPackets arrivals) := by
  obtain ⟨hring, hsum, -, hisem, hdelivered⟩ :=
    h.ring.scan E1000_RX_RING_SIZE arrivals (by
      have hle := h.ring.delivered_le
      unfold E1000_RX_RING_SIZE
      omega)
  unfold Ethcblk.rxPackets
  dsimp only
  refine ⟨hring.congr _, ?_, ?_⟩
  · rw [hisem]
    exact h.sound.signaln
  · have hpermits := h.permits
    dsimp only
    rw [hisem, hsum, hdelivered, CountingSemaphore.count_signaln,
      CountingSemaphore.inside_signaln]
    push_cast
    omega

theorem ReceiveInv.law (h : ReceiveInv t) : ReceiveLaw t := by
  have hd := h.ring.delivered_le
  have hc := h.ring.counted_le
  have hs := h.ring.stored_le
  have hpermits := h.permits
  have hinside := h.sound.count_inside
  have hunread := h.ring.unread_eq
  have huncounted := h.ring.uncounted_eq
  have hgiven := h.ring.given_eq
  have hsize : E1000_RX_RING_SIZE = 32 := rfl
  refine ⟨?_, by omega, by omega, ?_, ⟨by omega, ?_⟩, h.ring.delivered, ?_⟩
  · rw [max_comm]
    omega
  · intro k hk
    have hindex : (t.rxHead + k) % E1000_RX_RING_SIZE =
        (t.delivered.length + k) % 32 := by
      rw [h.ring.rxHead, hsize]
      omega
    obtain ⟨hstatus, hframe⟩ := h.ring.filled _ hk (Nat.le_add_right _ _)
    rw [hindex, hstatus]
    exact ⟨by decide, hframe⟩
  · intro k hk
    have hindex : (t.rdh + k) % E1000_RX_RING_SIZE =
        (t.stored.length + k) % 32 := by
      rw [h.ring.rdh, hsize]
      omega
    rw [hindex]
    exact h.ring.blank _ (Nat.le_add_right _ _) (by omega)
  · intro arrivals
    have hinv := h.rxPackets arrivals
    obtain ⟨-, -, hall, -⟩ := h.ring.scan E1000_RX_RING_SIZE arrivals (by omega)
    rw [hinv.ring.uncounted_eq]
    exact Nat.sub_eq_zero_of_le hall.ge

theorem ReceiveInv.step
    {action : Action} (h : ReceiveInv t) (hstep : step t action = some t') :
    ReceiveInv t' := by
  cases action with
  | arrive frame =>
      simp only [EthReceive.step, Option.some.injEq] at hstep
      subst hstep
      exact h.store
  | interrupt arrivals =>
      simp only [EthReceive.step, Option.some.injEq] at hstep
      subst hstep
      exact h.rxPackets arrivals
  | read pid len =>
      simp only [EthReceive.step, Option.ite_none_left_eq_some,
        Option.some.injEq] at hstep
      obtain ⟨-, rfl⟩ := hstep
      exact h.ethread
  | resume pid =>
      simp only [EthReceive.step, Option.ite_none_right_eq_some,
        Option.some.injEq] at hstep
      obtain ⟨hpassed, rfl⟩ := hstep
      exact h.take hpassed

end Counts

/-- Whatever the order of frames, interrupts and readers, the receive ring
keeps its law. -/
theorem receive_sound
    {t : Ethcblk} (hreach : Reach step (fun _ _ => True) .init t) :
    ReceiveLaw t := by
  have hinv : ReceiveInv t := hreach.invariant ReceiveInv .init
    fun _ _ _ hinv _ hstep => hinv.step hstep
  exact hinv.law

/-- A reader waits, two frames arrive, one of them while the handler scans the
ring, and a second reader takes the second frame. -/
theorem receive_sound_two_frames :
    ∃ t, Reach step (fun _ _ => True) .init t ∧
      t.delivered = [(7, some [1, 2]), (8, some [3])] ∧ ReceiveLaw t := by
  have hview : (run (fun t action => if True then step t action else none) .init
      [.read 7 14, .arrive [1, 2], .interrupt [[], [[3]]], .resume 7,
        .read 8 14]).map Ethcblk.delivered =
          some [(7, some [1, 2]), (8, some [3])] := by
    decide
  obtain ⟨t, hrun, hdelivered⟩ := Option.map_eq_some_iff.mp hview
  have hreach : Reach step (fun _ _ => True) .init t :=
    Reach.run_checked _ .start hrun
  exact ⟨t, hreach, hdelivered, receive_sound hreach⟩

end Xinu.EthReceive
