import Xinu.EthReceive
import Xinu.BufferPools

/-!
# The length of a received frame

`_82545EM_configure_rx` programs which frames the NIC stores and what of them.
`ethread` copies the length that the NIC has put in the descriptor, whatever the
length of the caller's buffer, and `netin` gives it a buffer of the pool that
`net_init` makes for packets of `PACKLEN` bytes.
-/

namespace Xinu.EthReceive

open ByteMemory BufferPools

/-! ## 82545EMInit.c -/

def E1000_RCTL_EN : Word := 0x00000002
def E1000_RCTL_SBP : Word := 0x00000004
def E1000_RCTL_LPE : Word := 0x00000020
def E1000_RCTL_LBM_NO : Word := 0
def E1000_RCTL_RDMTS_HALF : Word := 0
def E1000_RCTL_MO_SHIFT : ℕ := 12
def E1000_RCTL_BAM : Word := 0x00008000
def E1000_RCTL_SZ_2048 : Word := 0
def E1000_RCTL_SZ_4096 : Word := 0x00030000
def E1000_RCTL_PMCF : Word := 0x00800000
def E1000_RCTL_BSEX : Word := 0x02000000
def E1000_RCTL_SECRC : Word := 0x04000000

/-- What `_82545EM_configure_rx` makes of the receive control register. -/
def configureRctl (rctl : Word) : Word :=
  let rctl := rctl &&& ~~~((3 : Word) <<< E1000_RCTL_MO_SHIFT)
  let rctl := rctl ||| (E1000_RCTL_EN ||| E1000_RCTL_BAM ||| E1000_RCTL_LBM_NO |||
    E1000_RCTL_RDMTS_HALF)
  let rctl := rctl &&& ~~~(E1000_RCTL_SBP ||| E1000_RCTL_LPE ||| E1000_RCTL_SECRC |||
    E1000_RCTL_PMCF)
  let rctl := rctl &&& ~~~(E1000_RCTL_BSEX ||| E1000_RCTL_SZ_4096)
  rctl ||| E1000_RCTL_SZ_2048

/-- The longest frame that the NIC takes without `E1000_RCTL_LPE`: a header with
a VLAN tag, 1500 bytes and the CRC. -/
def LONGEST : ℕ := 1522

def CRC_LEN : ℕ := 4

/-- What the NIC stores of a frame on the wire, which ends with its CRC. -/
def nicStores (rctl : Word) (wire : Frame) : Option Frame :=
  if rctl &&& E1000_RCTL_LPE = 0 ∧ LONGEST < wire.length then none
  else if rctl &&& E1000_RCTL_SECRC = 0 then some wire
  else some (wire.take (wire.length - CRC_LEN))

/-! ## ethread.c -/

/-- How a call of `ethread` ends for its caller. -/
structure ReadResult where
  retval : ℤ
  stored : ℕ
  mem : Memory

/-- `memcpy` from the buffer of a descriptor. -/
def copyFrame (mem : Memory) (buf : Word) (frame : Frame) : Memory := fun query =>
  if (query - buf).toNat < frame.length then frame.getD (query - buf).toNat 0
  else mem query

/-- `ethread` with the packet that it has waited for. -/
def Ethcblk.readInto (t : Ethcblk) (buf : Word) (len : ℤ) (mem : Memory) : ReadResult :=
  if t.up = false ∨ len < ETH_HDR_LEN then ⟨SYSERR.toInt, 0, mem⟩
  else
    let descptr := t.rxRing t.rxHead
    if descptr.status &&& E1000_RXD_STAT_DD = 0 then ⟨SYSERR.toInt, 0, mem⟩
    else ⟨descptr.length, descptr.length, copyFrame mem buf descptr.frame⟩

/-- The next packet is one that the NIC has stored. -/
structure Next (t : Ethcblk) (frame : Frame) : Prop where
  holds : (t.rxRing t.rxHead).frame = frame
  size : (t.rxRing t.rxHead).length = frame.length
  done : (t.rxRing t.rxHead).status &&& E1000_RXD_STAT_DD ≠ 0

/-! ## net.c -/

/-- `sizeof(struct netpacket)`. -/
def PACKLEN : ℤ := 1514

/-- The size of a buffer of `netbufpool`; the next buffer's pool identifier
follows it. -/
def netbufSize : ℕ := (roundBufsiz PACKLEN).toNat

/-! ## What a read should do -/

structure StoreLaw (len : ℤ) (r : ReadResult) : Prop where
  stored_le : r.stored ≤ len.toNat
  retval : r.retval = r.stored ∨ r.retval = SYSERR.toInt ∧ r.stored = 0

/-- The read of `netin` into a buffer of the pool. -/
def StaysInBuffer (t : Ethcblk) : Prop :=
  ∀ (buf : Word) (mem : Memory) (a : Word), netbufSize ≤ (a - buf).toNat →
    (t.readInto buf PACKLEN mem).mem a = mem a

section Frames

variable {t : Ethcblk} {frame wire : Frame} {len : ℤ} {rctl : Word}

theorem configureRctl_lpe (rctl : Word) : configureRctl rctl &&& E1000_RCTL_LPE = 0 := by
  apply BitVec.eq_of_getLsbD_eq
  intro i hi
  unfold configureRctl E1000_RCTL_LPE E1000_RCTL_EN E1000_RCTL_BAM E1000_RCTL_LBM_NO
    E1000_RCTL_RDMTS_HALF E1000_RCTL_SBP E1000_RCTL_SECRC E1000_RCTL_PMCF E1000_RCTL_BSEX
    E1000_RCTL_SZ_4096 E1000_RCTL_SZ_2048
  interval_cases i <;> simp

theorem configureRctl_secrc (rctl : Word) :
    configureRctl rctl &&& E1000_RCTL_SECRC = 0 := by
  apply BitVec.eq_of_getLsbD_eq
  intro i hi
  unfold configureRctl E1000_RCTL_LPE E1000_RCTL_EN E1000_RCTL_BAM E1000_RCTL_LBM_NO
    E1000_RCTL_RDMTS_HALF E1000_RCTL_SBP E1000_RCTL_SECRC E1000_RCTL_PMCF E1000_RCTL_BSEX
    E1000_RCTL_SZ_4096 E1000_RCTL_SZ_2048
  interval_cases i <;> simp

/-- Long frames are dropped, and the CRC of the others is stored with them. -/
theorem nicStores_configured :
    nicStores (configureRctl rctl) wire = some frame ↔
      frame = wire ∧ wire.length ≤ LONGEST := by
  unfold nicStores
  rw [configureRctl_lpe, configureRctl_secrc]
  by_cases hlong : LONGEST < wire.length
  · rw [if_pos ⟨rfl, hlong⟩]
    exact iff_of_false (by simp) fun h => absurd h.2 (by omega)
  · rw [if_neg (fun h => hlong h.2), if_pos rfl, Option.some.injEq]
    exact ⟨fun heq => ⟨heq.symm, by omega⟩, fun h => h.1.symm⟩

theorem netbufSize_eq : netbufSize = 1516 := by decide

/-- A frame that the NIC puts where the next call looks. -/
theorem next_store (hhead : t.rdh = t.rxHead) (hroom : t.rdh ≠ t.rdt)
    (hsize : frame.length ≤ ETH_BUF_SIZE) : Next (t.store frame) frame := by
  have hstore : ¬ (t.rdh = t.rdt ∨ ETH_BUF_SIZE < frame.length) := by
    rintro (heq | hlt)
    · exact hroom heq
    · omega
  unfold Ethcblk.store
  rw [if_neg hstore]
  constructor
  · dsimp only
    rw [hhead, Function.update_self, RxDesc.frame, List.take_left]
  · dsimp only
    rw [hhead, Function.update_self]
  · dsimp only
    rw [hhead, Function.update_self]
    exact (by decide : (E1000_RXD_STAT_DD ||| E1000_RXD_STAT_EOP) &&&
      E1000_RXD_STAT_DD ≠ 0)

theorem Next.readInto (h : Next t frame) (hup : t.up = true) (hlen : ETH_HDR_LEN ≤ len)
    (buf : Word) (mem : Memory) :
    t.readInto buf len mem = ⟨frame.length, frame.length, copyFrame mem buf frame⟩ := by
  have hgood : ¬ (t.up = false ∨ len < ETH_HDR_LEN) := by
    rintro (hdown | hlt)
    · rw [hup] at hdown
      contradiction
    · omega
  rw [Ethcblk.readInto, if_neg hgood]
  dsimp only
  rw [if_neg h.done, h.size, h.holds]

theorem readInto_refused (hno : t.up = false ∨ len < ETH_HDR_LEN) (buf : Word)
    (mem : Memory) : t.readInto buf len mem = ⟨SYSERR.toInt, 0, mem⟩ := by
  rw [Ethcblk.readInto, if_pos hno]

theorem Next.storeLaw_iff (h : Next t frame) (len : ℤ) :
    (∀ buf mem, StoreLaw len (t.readInto buf len mem)) ↔
      (t.up = true → ETH_HDR_LEN ≤ len → (frame.length : ℤ) ≤ len) := by
  constructor
  · intro hlaw hup hlen
    have hstored := (hlaw 0 fun _ => 0).stored_le
    rw [h.readInto hup hlen] at hstored
    unfold ETH_HDR_LEN at hlen
    dsimp only at hstored
    omega
  · intro hfits buf mem
    by_cases hno : t.up = false ∨ len < ETH_HDR_LEN
    · rw [readInto_refused hno]
      exact ⟨Nat.zero_le _, Or.inr ⟨rfl, rfl⟩⟩
    · push Not at hno
      have hup : t.up = true := by simpa using hno.1
      have hle := hfits hup hno.2
      rw [h.readInto hup hno.2]
      exact ⟨by dsimp only; omega, Or.inl rfl⟩

theorem Next.staysInBuffer_iff (h : Next t frame) (hlong : frame.length ≤ LONGEST) :
    StaysInBuffer t ↔ (t.up = true → frame.length ≤ netbufSize) := by
  have hpack : ETH_HDR_LEN ≤ PACKLEN := by decide
  unfold StaysInBuffer
  rw [netbufSize_eq]
  unfold LONGEST at hlong
  constructor
  · intro hstays hup
    by_contra hlt
    have hin : ((1516 : Word) - 0).toNat < frame.length := by
      have : ((1516 : Word) - 0).toNat = 1516 := rfl
      omega
    have hsame := hstays 0 (fun _ => frame.getD ((1516 : Word) - 0).toNat 0 + 1) 1516
      (by decide)
    rw [h.readInto hup hpack] at hsame
    dsimp only [copyFrame] at hsame
    rw [if_pos hin] at hsame
    have hne : ∀ x : BitVec 8, x ≠ x + 1 := by decide
    exact hne _ hsame
  · intro hfits buf mem a ha
    by_cases hup : t.up = true
    · have hle := hfits hup
      rw [h.readInto hup hpack]
      exact if_neg (by omega)
    · rw [readInto_refused (Or.inl (by simpa using hup))]

end Frames

/-- For every frame that the NIC stores under the configuration: a read with a
buffer of `len` bytes keeps to it, and the read of `netin` to its pool buffer,
exactly when the frame, CRC included, is not longer. -/
theorem frame_fits_iff
    (rctl : Word) (wire frame : Frame) (t : Ethcblk)
    (hstores : nicStores (configureRctl rctl) wire = some frame) (hnext : Next t frame) :
    (∀ len, (∀ buf mem, StoreLaw len (t.readInto buf len mem)) ↔
      (t.up = true → ETH_HDR_LEN ≤ len → (wire.length : ℤ) ≤ len)) ∧
    (StaysInBuffer t ↔ (t.up = true → wire.length ≤ netbufSize)) := by
  obtain ⟨rfl, hlong⟩ := nicStores_configured.mp hstores
  exact ⟨hnext.storeLaw_iff, hnext.staysInBuffer_iff hlong⟩

/-- A frame of 64 bytes stays in its buffer. -/
theorem frame_fits_iff_short :
    StaysInBuffer (Ethcblk.init.store (List.replicate 64 0)) := by
  refine (frame_fits_iff 0 (List.replicate 64 0) (List.replicate 64 0) _
    (nicStores_configured.mpr ⟨rfl, by decide⟩)
    (next_store rfl (by decide) (by decide))).2.mpr fun _ => ?_
  rw [netbufSize_eq, List.length_replicate]
  omega

/-- A full packet of 1514 bytes comes with its CRC: the last two bytes of 1518
overwrite the pool identifier of the next buffer. -/
theorem full_frame_overflows :
    ¬ ∀ (rctl : Word) (wire frame : Frame) (t : Ethcblk),
      nicStores (configureRctl rctl) wire = some frame → Next t frame →
        (∀ len buf mem, StoreLaw len (t.readInto buf len mem)) ∧ StaysInBuffer t := by
  intro hall
  have hlong : (List.replicate 1518 (0 : BitVec 8)).length ≤ LONGEST := by
    rw [List.length_replicate]
    decide
  have hnext : Next (Ethcblk.init.store (List.replicate 1518 0)) (List.replicate 1518 0) :=
    next_store rfl (by decide) (by rw [List.length_replicate]; decide)
  have hstays := (hall 0 _ _ _ (nicStores_configured.mpr ⟨rfl, hlong⟩) hnext).2
  have hup : (Ethcblk.init.store (List.replicate 1518 0)).up = true := by
    rw [Ethcblk.store, if_neg (by rw [List.length_replicate]; decide)]
    rfl
  have hle := (hnext.staysInBuffer_iff hlong).mp hstays hup
  rw [netbufSize_eq, List.length_replicate] at hle
  omega

end Xinu.EthReceive
