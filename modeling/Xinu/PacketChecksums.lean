import Xinu.OnesComplement
import Xinu.PacketDisposal

/-!
# The checksums of IP and ICMP

`ipcksum` and `icmp_cksum` add the carries in once.  The section below says
for which contents this is the Internet checksum, and which packets from
`ip_out` pass the tests of `ip_in`.
-/

namespace Xinu.Checksums

open ByteMemory Disposal OnesComplement

/-! ## What the checksums cover -/

def header (pkt : Netpacket) : List (BitVec 8) :=
  (List.range 20).map fun k => pkt.bytes (14 + k)

def message (pkt : Netpacket) (len : ℕ) : List (BitVec 8) :=
  (List.range len).map fun k => pkt.bytes (34 + k)

/-- The two tests of `ip_in`, the second after the header has been converted. -/
def Verified (pkt : Netpacket) : Prop :=
  pkt.ipcksum = 0 ∧
    (pkt.ipNtoh.net_ipproto = IP_ICMP →
      pkt.ipNtoh.icmpCksum
        ((pkt.ipNtoh.net_iplen.toNat : ℤ) - IP_HDR_LEN) = 0)

instance (pkt : Netpacket) : Decidable (Verified pkt) :=
  inferInstanceAs (Decidable (_ ∧ _))

/-- The bytes that `write` sends have arrived. -/
def Delivered (sent received : Netpacket) (pktlen : ℕ) : Prop :=
  ∀ k < pktlen, received.bytes k = sent.bytes k

/-- The packet of `ip_out` when it computes the ICMP checksum. -/
def icmpCleared (pkt : Netpacket) : Netpacket := pkt.icmpNtoh.set16 36 0

section Verification

variable {env : Environment} {net : Net} {pkt : Netpacket}

/-- A packet that passes the tests goes on to the local stack. -/
theorem ipIn_verified (h : Verified pkt) (hvh : pkt.ipNtoh.net_ipvh = 0x45)
    (hproto : pkt.ipNtoh.net_ipproto = IP_ICMP) :
    ipIn env net pkt = touch pkt (touch pkt.ipNtoh (touch pkt.ipNtoh
      (ipAccept env net pkt.ipNtoh.icmpNtoh))) := by
  have hudp : IP_ICMP ≠ IP_UDP := by decide
  simp only [ipIn, h.1, ne_eq, not_true_eq_false, if_false, hvh, hudp, hproto,
    if_true, h.2 hproto]

theorem ipIn_refused
    (h : pkt.ipNtoh.icmpCksum
      ((pkt.ipNtoh.net_iplen.toNat : ℤ) - IP_HDR_LEN) ≠ 0)
    (hcksum : pkt.ipcksum = 0) (hvh : pkt.ipNtoh.net_ipvh = 0x45)
    (hproto : pkt.ipNtoh.net_ipproto = IP_ICMP) :
    ipIn env net pkt =
      touch pkt (touch pkt.ipNtoh (freebuf net pkt.ipNtoh OK)) := by
  have hudp : IP_ICMP ≠ IP_UDP := by decide
  simp only [ipIn, hcksum, ne_eq, not_true_eq_false, if_false, hvh, hudp,
    hproto, if_true]
  rw [if_pos h]

end Verification

/-! ## Bytes of a packet -/

section Bytes

variable (pkt : Netpacket) {i k : ℕ}

theorem bytes_set16 (x : BitVec 16) :
    (pkt.set16 i x).bytes k =
      if k = i + 1 then x.extractLsb' 8 8
      else if k = i then x.extractLsb' 0 8 else pkt.bytes k := by
  simp only [Netpacket.set16, Netpacket.set8, Function.update_apply]

theorem bytes_set16_of_ne (x : BitVec 16) (hi : k ≠ i) (hi' : k ≠ i + 1) :
    (pkt.set16 i x).bytes k = pkt.bytes k := by
  rw [bytes_set16, if_neg hi', if_neg hi]

theorem bytes_set32_of_far (x : Word) (h : k < i ∨ i + 4 ≤ k) :
    (pkt.set32 i x).bytes k = pkt.bytes k := by
  unfold Netpacket.set32
  rw [bytes_set16_of_ne _ _ (by omega) (by omega),
    bytes_set16_of_ne _ _ (by omega) (by omega)]

theorem bytes_ipNtoh_of_far
    (h : k < 16 ∨ 22 ≤ k ∧ k < 26 ∨ 34 ≤ k) :
    pkt.ipNtoh.bytes k = pkt.bytes k := by
  unfold Netpacket.ipNtoh Netpacket.swap16 Netpacket.swap32
  rw [bytes_set32_of_far _ _ (by omega), bytes_set32_of_far _ _ (by omega),
    bytes_set16_of_ne _ _ (by omega) (by omega),
    bytes_set16_of_ne _ _ (by omega) (by omega),
    bytes_set16_of_ne _ _ (by omega) (by omega)]

theorem bytes_three_swaps (j : ℕ) (h : k < j ∨ j + 6 ≤ k) :
    (((pkt.swap16 j).swap16 (j + 2)).swap16 (j + 4)).bytes k =
      pkt.bytes k := by
  unfold Netpacket.swap16
  rw [bytes_set16_of_ne _ _ (by omega) (by omega),
    bytes_set16_of_ne _ _ (by omega) (by omega),
    bytes_set16_of_ne _ _ (by omega) (by omega)]

theorem bytes_ethHton_of_ge (h : 14 ≤ k) :
    pkt.ethHton.bytes k = pkt.bytes k :=
  bytes_set16_of_ne _ _ (by omega) (by omega)

theorem ntohs_append (hi lo : BitVec 8) : ntohs (hi ++ lo) = lo ++ hi := by
  apply BitVec.eq_of_getLsbD_eq
  intro k hk
  simp only [ntohs, BitVec.getLsbD_or, BitVec.getLsbD_and,
    BitVec.getLsbD_shiftLeft, BitVec.getLsbD_ushiftRight, BitVec.getLsbD_append]
  interval_cases k <;> simp

theorem ntohs_toNat : (ntohs (pkt.u16 i)).toNat =
    (pkt.bytes i).toNat * 256 + (pkt.bytes (i + 1)).toNat := by
  have hlo := (pkt.bytes (i + 1)).isLt
  rw [Netpacket.u16, ntohs_append, BitVec.toNat_append, Nat.shiftLeft_eq,
    Nat.mul_comm, ← Nat.two_pow_add_eq_or_of_lt hlo]

theorem u16_eq_append_extract (x : BitVec 16) :
    x.extractLsb' 8 8 ++ x.extractLsb' 0 8 = x := by
  apply BitVec.eq_of_getLsbD_eq
  intro k hk
  simp only [BitVec.getLsbD_append, BitVec.getLsbD_extractLsb']
  interval_cases k <;> simp

theorem ntohs_ntohs (x : BitVec 16) : ntohs (ntohs x) = x := by
  conv_lhs => rw [← u16_eq_append_extract x]
  rw [ntohs_append, ntohs_append, u16_eq_append_extract]

theorem u16_set16 (x : BitVec 16) : (pkt.set16 i x).u16 i = x := by
  unfold Netpacket.u16
  rw [bytes_set16, bytes_set16, if_pos rfl, if_neg (by omega), if_pos rfl,
    u16_eq_append_extract]

/-- A 16-bit field in network order holds the value. -/
theorem set16_htons (x : BitVec 16) :
    ((pkt.set16 i (htons x)).bytes i).toNat * 256 +
      ((pkt.set16 i (htons x)).bytes (i + 1)).toNat = x.toNat := by
  rw [← ntohs_toNat, u16_set16]
  exact congrArg BitVec.toNat (ntohs_ntohs x)

end Bytes

/-! ## The values of the checksums -/

theorem toNat_sum_setWidth (l : List (BitVec 16)) :
    (l.map fun x => (x.setWidth 32 : Word)).sum.toNat =
      (l.map BitVec.toNat).sum % 2 ^ 32 := by
  induction l with
  | nil => rfl
  | cons x l ih =>
      have hx := x.isLt
      simp only [List.map_cons, List.sum_cons, BitVec.toNat_add, ih,
        BitVec.toNat_setWidth]
      omega

theorem complement_toNat (cksum : Word) :
    ((0xffff : Word) &&& ~~~(cksum + (cksum >>> 16))).toNat =
      65535 - (cksum.toNat / 65536 + cksum.toNat % 65536) % 65536 := by
  have hlt := cksum.isLt
  have hmask : ∀ v : Word, ((0xffff : Word) &&& v).toNat = v.toNat % 65536 := by
    intro v
    rw [BitVec.toNat_and, Nat.and_comm]
    exact Nat.and_two_pow_sub_one_eq_mod v.toNat 16
  rw [hmask, BitVec.toNat_not, BitVec.toNat_add, BitVec.toNat_ushiftRight,
    Nat.shiftRight_eq_div_pow]
  omega

theorem ipcksum_toNat (pkt : Netpacket) :
    pkt.ipcksum.toNat =
      let v := 65535 - (wordSum (header pkt) / 65536 +
        wordSum (header pkt) % 65536) % 65536
      if v = 65535 then 0 else v := by
  have hle : wordSum (header pkt) ≤ 655350 :=
    wordSum_le 20 fun k => pkt.bytes (14 + k)
  have hsum : ((List.range 10).map fun i =>
      (htons (pkt.u16 (14 + 2 * i))).setWidth 32 : List Word).sum.toNat =
        wordSum (header pkt) := by
    have hwords := wordSum_map_range 20 fun k => pkt.bytes (14 + k)
    have hnat := toNat_sum_setWidth
      ((List.range 10).map fun i => htons (pkt.u16 (14 + 2 * i)))
    simp only [List.map_map, Function.comp_def, htons, ntohs_toNat] at hnat
    simp only [htons]
    rw [hnat]
    simp only [Nat.reduceDiv, Nat.reduceMod, ne_eq, not_true_eq_false, if_false,
      Nat.add_zero, ← Nat.add_assoc] at hwords
    rw [← hwords]
    exact Nat.mod_eq_of_lt (lt_of_le_of_lt hle (by norm_num))
  have hend := complement_toNat ((List.range 10).map fun i =>
    (htons (pkt.u16 (14 + 2 * i))).setWidth 32 : List Word).sum
  rw [hsum] at hend
  unfold Netpacket.ipcksum
  simp only [← hend]
  split_ifs with hones hones' hones'
  · rfl
  · rw [hones] at hones'
    exact absurd rfl hones'
  · exact absurd (BitVec.eq_of_toNat_eq hones') hones
  · rw [BitVec.toNat_setWidth]
    have hlt : (65535 - (wordSum (header pkt) / 65536 +
      wordSum (header pkt) % 65536) % 65536) < 2 ^ 16 := by omega
    rw [hend]
    exact Nat.mod_eq_of_lt hlt

theorem icmpCksum_toNat (pkt : Netpacket) (len : ℕ) :
    (pkt.icmpCksum len).toNat =
      65535 - (wordSum (message pkt len) % 2 ^ 32 / 65536 +
        wordSum (message pkt len) % 65536) % 65536 := by
  have hhalf : ((len : ℤ) / 2).toNat = len / 2 := by omega
  have hnat := toNat_sum_setWidth
    ((List.range (len / 2)).map fun i => ntohs (pkt.u16 (34 + 2 * i)))
  simp only [List.map_map, Function.comp_def, ntohs_toNat] at hnat
  have hwords := wordSum_map_range len fun k => pkt.bytes (34 + k)
  simp only [← Nat.add_assoc] at hwords
  change wordSum (message pkt len) = _ at hwords
  have hlast := (pkt.bytes (34 + 2 * (len / 2))).isLt
  unfold Netpacket.icmpCksum
  simp only [hhalf]
  rw [BitVec.toNat_setWidth, complement_toNat]
  by_cases hodd : len % 2 = 0
  · have hodd' : ¬ (len : ℤ) % 2 ≠ 0 := by omega
    rw [if_neg hodd', hnat]
    rw [if_neg (by omega)] at hwords
    omega
  · have hodd' : (len : ℤ) % 2 ≠ 0 := by omega
    rw [if_pos hodd', BitVec.toNat_add, hnat, BitVec.toNat_shiftLeft,
      BitVec.toNat_setWidth, Nat.shiftLeft_eq]
    rw [if_pos (by omega)] at hwords
    omega

/-! ## The Internet checksum -/

theorem ipcksum_eq_iff (pkt : Netpacket) :
    pkt.ipcksum.toNat = internetChecksum (header pkt) ↔
      CarriesOnce (wordSum (header pkt)) ∧ wordSum (header pkt) ≠ 0 := by
  have hle : wordSum (header pkt) ≤ 655350 :=
    wordSum_le 20 fun k => pkt.bytes (14 + k)
  rw [ipcksum_toNat, internetChecksum, foldCarries_carry, foldCarries_eq,
    CarriesOnce]
  generalize wordSum (header pkt) = s at *
  have hhi : s / 65536 ≤ 9 := by omega
  have hlo : s % 65536 < 65536 := Nat.mod_lt _ (by norm_num)
  have hzero : s ≠ 0 ↔ s / 65536 + s % 65536 ≠ 0 := by omega
  rw [hzero]
  generalize s / 65536 = hi at *
  generalize s % 65536 = lo at *
  simp only
  split_ifs with hones hsum
  · simp [hsum]
  all_goals omega

theorem icmpCksum_eq_iff (pkt : Netpacket) {len : ℕ} (hlen : len < 2 ^ 31) :
    (pkt.icmpCksum len).toNat = internetChecksum (message pkt len) ↔
      CarriesOnce (wordSum (message pkt len)) := by
  have hle : wordSum (message pkt len) ≤ 65535 * ((len + 1) / 2) :=
    wordSum_le len fun k => pkt.bytes (34 + k)
  have hle' : wordSum (message pkt len) ≤ 65535 * 2 ^ 30 := by omega
  rw [icmpCksum_toNat, internetChecksum, foldCarries_carry, foldCarries_eq,
    CarriesOnce]
  generalize wordSum (message pkt len) = s at *
  have hwrap : s % 2 ^ 32 / 65536 = s / 65536 % 65536 := by omega
  have hhi : s / 65536 ≤ 65535 * 2 ^ 14 := by omega
  have hlo : s % 65536 < 65536 := Nat.mod_lt _ (by norm_num)
  rw [hwrap]
  generalize s / 65536 = hi at *
  generalize s % 65536 = lo at *
  have hsplit : hi = 65536 * (hi / 65536) + hi % 65536 := by omega
  have hlost : hi / 65536 ≤ 2 ^ 14 := by omega
  have hkept : hi % 65536 < 65536 := Nat.mod_lt _ (by norm_num)
  generalize hi / 65536 = lost at *
  generalize hi % 65536 = kept at *
  subst hsplit
  split_ifs <;> omega

/-! ## From ip_out to ip_in -/

section Transmission

variable {pkt sent received : Netpacket} {len : ℕ}

/-- The packet of `ip_out` after the encapsulated protocol. -/
def icmpFilled (pkt : Netpacket) (len : ℤ) : Netpacket :=
  (icmpCleared pkt).set16 36 (htons ((icmpCleared pkt).icmpCksum len))

/-- The end of `ip_out`: the header in network order with its checksum. -/
def headerFilled (pkt : Netpacket) : Netpacket :=
  let pkt := pkt.ipNtoh.set16 24 0
  (pkt.set16 24 (htons pkt.ipcksum)).ethHton

theorem header_filled (pkt : Netpacket) :
    wordSum (header (headerFilled pkt)) =
      wordSum (header (pkt.ipNtoh.set16 24 0)) +
        (pkt.ipNtoh.set16 24 0).ipcksum.toNat := by
  have hfield := set16_htons (pkt.ipNtoh.set16 24 0) (i := 24)
    (pkt.ipNtoh.set16 24 0).ipcksum
  apply wordSum_filled (j := 5) (by norm_num)
  · simp [bytes_set16]
  · simp [bytes_set16]
  · unfold headerFilled
    rw [bytes_ethHton_of_ge _ (by norm_num),
      bytes_ethHton_of_ge _ (by norm_num)]
    exact hfield
  · intro k hk hk'
    unfold headerFilled
    rw [bytes_ethHton_of_ge _ (by omega),
      bytes_set16_of_ne _ _ (by omega) (by omega)]

/-- The test for all ones absorbs a lost carry. -/
theorem ipcksum_headerFilled (pkt : Netpacket) :
    (headerFilled pkt).ipcksum = 0 := by
  have hle : wordSum (header (pkt.ipNtoh.set16 24 0)) ≤ 655350 :=
    wordSum_le 20 fun k => (pkt.ipNtoh.set16 24 0).bytes (14 + k)
  have hfilled := header_filled pkt
  have hsent := ipcksum_toNat (pkt.ipNtoh.set16 24 0)
  have hcheck := ipcksum_toNat (headerFilled pkt)
  apply BitVec.eq_of_toNat_eq
  rw [hcheck, hfilled, hsent]
  change _ = 0
  generalize wordSum (header (pkt.ipNtoh.set16 24 0)) = s at hle ⊢
  have hcarries := carries_of_complement (s := s) (by omega)
  simp only
  by_cases hones : 65535 - (s / 65536 + s % 65536) % 65536 = 65535
  · rw [if_pos hones, Nat.add_zero, if_pos hones]
  · rw [if_neg hones, hcarries]
    split_ifs <;> omega

theorem message_filled (pkt : Netpacket) (hlen : 4 ≤ len) :
    wordSum (message (icmpFilled pkt len) len) =
      wordSum (message (icmpCleared pkt) len) +
        ((icmpCleared pkt).icmpCksum len).toNat := by
  have hfield := set16_htons (icmpCleared pkt) (i := 36)
    ((icmpCleared pkt).icmpCksum len)
  apply wordSum_filled (j := 1) (by omega)
  · simp [icmpCleared, bytes_set16]
  · simp [icmpCleared, bytes_set16]
  · exact hfield
  · intro k hk hk'
    exact bytes_set16_of_ne _ _ (by omega) (by omega)

/-- A lost carry on the way out is lost on the way in as well. -/
theorem icmpCksum_filled
    (pkt : Netpacket) (hlen : 4 ≤ len) (hshort : len < 65536) :
    (icmpFilled pkt len).icmpCksum len = 0 ↔
      CarriesOnce (wordSum (message (icmpCleared pkt) len)) := by
  have hle : wordSum (message (icmpCleared pkt) len) ≤
      65535 * ((len + 1) / 2) :=
    wordSum_le len fun k => (icmpCleared pkt).bytes (34 + k)
  have hfilled := message_filled pkt hlen
  have hsent := icmpCksum_toNat (icmpCleared pkt) len
  have hcheck := icmpCksum_toNat (icmpFilled pkt len) len
  have hzero : (icmpFilled pkt len).icmpCksum len = 0 ↔
      ((icmpFilled pkt len).icmpCksum len).toNat = 0 :=
    ⟨fun h => by rw [h]; rfl, fun h => BitVec.eq_of_toNat_eq h⟩
  rw [hzero, hcheck, hfilled, hsent]
  have hle' : wordSum (message (icmpCleared pkt) len) ≤ 65535 * 32768 := by
    omega
  generalize wordSum (message (icmpCleared pkt) len) = s at *
  have hsmall : s % 2 ^ 32 = s := by omega
  rw [hsmall]
  have hhi : s / 65536 ≤ 32768 := by omega
  have hcarries := carries_of_complement (s := s) (by omega)
  have hwhole : (s + (65535 - (s / 65536 + s % 65536) % 65536)) % 2 ^ 32 =
      s + (65535 - (s / 65536 + s % 65536) % 65536) :=
    Nat.mod_eq_of_lt (by omega)
  rw [hwhole, hcarries]
  split_ifs with honce
  · simp [honce]
  · simp [honce]

/-- The packet of `ip_out` when it converts the IP header. -/
def encapsulated (pkt : Netpacket) : Netpacket :=
  if pkt.net_ipproto = IP_UDP then (pkt.set16 40 0).udpNtoh
  else if pkt.net_ipproto = IP_ICMP then
    icmpFilled pkt (((icmpCleared pkt).net_iplen.toNat : ℤ) - IP_HDR_LEN)
  else pkt

theorem ipOutPacket_eq (pkt : Netpacket) :
    ipOutPacket pkt = headerFilled (encapsulated pkt) :=
  rfl

theorem bytes_icmpCleared {k : ℕ} (hk : k < 34) :
    (icmpCleared pkt).bytes k = pkt.bytes k := by
  unfold icmpCleared
  rw [bytes_set16_of_ne _ _ (by omega) (by omega)]
  exact bytes_three_swaps pkt 36 (by omega)

theorem bytes_encapsulated {k : ℕ} (hk : k < 34) :
    (encapsulated pkt).bytes k = pkt.bytes k := by
  unfold encapsulated
  split_ifs
  · apply (bytes_three_swaps (pkt.set16 40 0) 34 (by omega)).trans
    exact bytes_set16_of_ne _ _ (by omega) (by omega)
  · unfold icmpFilled
    rw [bytes_set16_of_ne _ _ (by omega) (by omega)]
    exact bytes_icmpCleared hk
  · rfl

theorem bytes_headerFilled
    {k : ℕ} (hk : 14 ≤ k) (hfield : k ≠ 24 ∧ k ≠ 25) :
    (headerFilled pkt).bytes k = pkt.ipNtoh.bytes k := by
  unfold headerFilled
  rw [bytes_ethHton_of_ge _ hk, bytes_set16_of_ne _ _ (by omega) (by omega),
    bytes_set16_of_ne _ _ (by omega) (by omega)]

theorem iplen_ipNtoh (pkt : Netpacket) :
    pkt.ipNtoh.net_iplen = ntohs pkt.net_iplen := by
  have hfield : ∀ k, k = 16 ∨ k = 17 →
      pkt.ipNtoh.bytes k = (pkt.swap16 16).bytes k := by
    intro k hk
    unfold Netpacket.ipNtoh Netpacket.swap32
    rw [bytes_set32_of_far _ _ (by omega), bytes_set32_of_far _ _ (by omega),
      Netpacket.swap16, bytes_set16_of_ne _ _ (by omega) (by omega),
      Netpacket.swap16, bytes_set16_of_ne _ _ (by omega) (by omega)]
  unfold Netpacket.net_iplen
  rw [Netpacket.u16, hfield 16 (by norm_num), hfield 17 (by norm_num)]
  exact u16_set16 pkt _

theorem net_iplen_congr
    {p q : Netpacket} (h : ∀ k, k = 16 ∨ k = 17 → p.bytes k = q.bytes k) :
    p.net_iplen = q.net_iplen := by
  simp only [Netpacket.net_iplen, Netpacket.u16, h 16 (by norm_num),
    h 17 (by norm_num)]

theorem ipcksum_congr {p q : Netpacket} (h : header p = header q) :
    p.ipcksum = q.ipcksum := by
  apply BitVec.eq_of_toNat_eq
  rw [ipcksum_toNat, ipcksum_toNat, h]

theorem icmpCksum_congr {p q : Netpacket} (h : message p len = message q len) :
    p.icmpCksum len = q.icmpCksum len := by
  apply BitVec.eq_of_toNat_eq
  rw [icmpCksum_toNat, icmpCksum_toNat, h]

variable (hip : 20 ≤ pkt.net_iplen.toNat)
  (hdelivered : Delivered (ipOutPacket pkt) received
    (pkt.net_iplen.toNat + 14))
include hip hdelivered

theorem received_ipcksum : received.ipcksum = 0 := by
  rw [ipcksum_congr (q := headerFilled (encapsulated pkt))]
  · exact ipcksum_headerFilled _
  · apply List.map_congr_left
    intro k hk
    have := List.mem_range.mp hk
    exact hdelivered _ (by omega)

theorem received_ipproto :
    received.ipNtoh.net_ipproto = pkt.net_ipproto := by
  -- not `unfold`: the kernel would then compute the byte from the exchanges
  rw [Netpacket.net_ipproto, Netpacket.net_ipproto,
    bytes_ipNtoh_of_far _ (by omega), hdelivered _ (by omega),
    ipOutPacket_eq, bytes_headerFilled (by omega) (by omega),
    bytes_ipNtoh_of_far _ (by omega), bytes_encapsulated (by omega)]

theorem received_iplen : received.ipNtoh.net_iplen = pkt.net_iplen := by
  have hsent : received.net_iplen = (encapsulated pkt).ipNtoh.net_iplen := by
    apply net_iplen_congr
    intro k hk
    rw [hdelivered _ (by omega), ipOutPacket_eq,
      bytes_headerFilled (by omega) (by omega)]
  rw [iplen_ipNtoh, hsent, iplen_ipNtoh, ntohs_ntohs]
  exact net_iplen_congr fun k hk => bytes_encapsulated (by omega)

theorem received_message (hproto : pkt.net_ipproto = IP_ICMP) :
    message received.ipNtoh (pkt.net_iplen.toNat - 20) =
      message (icmpFilled pkt (pkt.net_iplen.toNat - 20 : ℕ))
        (pkt.net_iplen.toNat - 20) := by
  have hiplen : (icmpCleared pkt).net_iplen = pkt.net_iplen :=
    net_iplen_congr fun k hk => bytes_icmpCleared (by omega)
  have hencap : encapsulated pkt =
      icmpFilled pkt (pkt.net_iplen.toNat - 20 : ℕ) := by
    have hudp : IP_ICMP ≠ IP_UDP := by decide
    rw [encapsulated, hproto, if_neg hudp, if_pos rfl, hiplen, Nat.cast_sub hip]
    rfl
  apply List.map_congr_left
  intro k hk
  have := List.mem_range.mp hk
  rw [bytes_ipNtoh_of_far _ (by omega), hdelivered _ (by omega),
    ipOutPacket_eq, bytes_headerFilled (by omega) (by omega),
    bytes_ipNtoh_of_far _ (by omega), hencap]

theorem verified_iff (hicmp : pkt.net_ipproto = IP_ICMP →
      24 ≤ pkt.net_iplen.toNat) :
    Verified received ↔ (pkt.net_ipproto = IP_ICMP → CarriesOnce
      (wordSum (message (icmpCleared pkt) (pkt.net_iplen.toNat - 20)))) := by
  have hshort := pkt.net_iplen.isLt
  rw [Verified, received_ipproto hip hdelivered, received_iplen hip hdelivered]
  have htest : pkt.net_ipproto = IP_ICMP →
      (received.ipNtoh.icmpCksum ((pkt.net_iplen.toNat : ℤ) - IP_HDR_LEN) = 0 ↔
        CarriesOnce (wordSum
          (message (icmpCleared pkt) (pkt.net_iplen.toNat - 20)))) := by
    intro hproto
    have hlen := hicmp hproto
    have hcast : (pkt.net_iplen.toNat : ℤ) - IP_HDR_LEN =
        (pkt.net_iplen.toNat - 20 : ℕ) := by
      rw [Nat.cast_sub hip]
      rfl
    rw [hcast, icmpCksum_congr (received_message hip hdelivered hproto)]
    exact icmpCksum_filled pkt (by omega) (by omega)
  constructor
  · intro h hproto
    exact (htest hproto).mp (h.2 hproto)
  · intro h
    exact ⟨received_ipcksum hip hdelivered, fun hproto =>
      (htest hproto).mpr (h hproto)⟩

end Transmission

/-- Both functions compute the Internet checksum where one addition of the
carries is enough, and the header is not all zero.  A packet from `ip_out`
passes the tests of `ip_in` where the same holds for its ICMP message. -/
theorem checksums_sound (pkt received : Netpacket) (len : ℕ)
    (hlen : len < 2 ^ 31) (hip : 20 ≤ pkt.net_iplen.toNat)
    (hicmp : pkt.net_ipproto = IP_ICMP → 24 ≤ pkt.net_iplen.toNat)
    (hdelivered : Delivered (ipOutPacket pkt) received
      (pkt.net_iplen.toNat + 14)) :
    (pkt.ipcksum.toNat = internetChecksum (header pkt) ↔
      CarriesOnce (wordSum (header pkt)) ∧ wordSum (header pkt) ≠ 0) ∧
    ((pkt.icmpCksum len).toNat = internetChecksum (message pkt len) ↔
      CarriesOnce (wordSum (message pkt len))) ∧
    (Verified received ↔ (pkt.net_ipproto = IP_ICMP → CarriesOnce
      (wordSum (message (icmpCleared pkt) (pkt.net_iplen.toNat - 20))))) :=
  ⟨ipcksum_eq_iff pkt, icmpCksum_eq_iff pkt hlen,
    verified_iff hip hdelivered hicmp⟩

/-- An echo request without data, as `icmp_out` hands it over. -/
def echoRequest (ident seq : BitVec 16) : Netpacket :=
  let pkt : Netpacket := ⟨.given, 0, fun _ => 0⟩
  let pkt := ((pkt.set8 14 0x45).set16 16 28).set8 23 IP_ICMP
  ((pkt.set8 34 8).set16 38 ident).set16 40 seq

theorem checksums_sound_echoRequest :
    ((echoRequest 1 2).ipcksum.toNat =
        internetChecksum (header (echoRequest 1 2)) ↔
      CarriesOnce (wordSum (header (echoRequest 1 2))) ∧
        wordSum (header (echoRequest 1 2)) ≠ 0) ∧
    (((echoRequest 1 2).icmpCksum 8).toNat =
        internetChecksum (message (echoRequest 1 2) 8) ↔
      CarriesOnce (wordSum (message (echoRequest 1 2) 8))) ∧
    (Verified (ipOutPacket (echoRequest 1 2)) ↔
      ((echoRequest 1 2).net_ipproto = IP_ICMP → CarriesOnce
        (wordSum (message (icmpCleared (echoRequest 1 2))
          ((echoRequest 1 2).net_iplen.toNat - 20))))) :=
  checksums_sound (echoRequest 1 2) (ipOutPacket (echoRequest 1 2)) 8
    (by norm_num) (by decide) (fun _ => by decide) (fun _ _ => rfl)

/-- With identifier `0xf800` and number `0xffff` the words add up to
`0x1ffff`. -/
theorem second_carry_lost :
    ((ipOutPacket (echoRequest 0xf800 0xffff)).icmpCksum 8).toNat ≠
        internetChecksum
          (message (ipOutPacket (echoRequest 0xf800 0xffff)) 8) ∧
      ¬ Verified (ipOutPacket (echoRequest 0xf800 0xffff)) := by
  decide +kernel

end Xinu.Checksums
