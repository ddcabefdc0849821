import Xinu.HeapRequests

/-!
# Arguments of freemem

`freemem` checks its arguments against the bounds of the heap and against the
two free blocks around the address.  Which calls it refuses, and for which of
the others the list gets exactly the range that the caller names.
-/

namespace Xinu

open ByteMemory FreeExtents

/-- The range that a call gives back, in multiples of eight bytes. -/
def freedRange (blkaddr nbytes : Word) : Extent :=
  ⟨blkaddr.toNat, (nbytes.toNat + 7) / 8 * 8⟩

/-- The call is refused without a trace, or adds exactly a range of the heap
that was not free. -/
def FreememLaw (h : Heap) (l : List Extent) (blkaddr nbytes : Word) : Prop :=
  freemem blkaddr nbytes h = some (h, SYSERR) ∨
    ∃ h', freemem blkaddr nbytes h = some (h', OK) ∧
      (freedRange blkaddr nbytes).Within h.minheap.toNat (h.maxheap.toNat + 1) ∧
      (∀ e ∈ l, (freedRange blkaddr nbytes).Apart e) ∧
      WellFormed h' (release (freedRange blkaddr nbytes) l)

/-- A free block below the address that reaches it, or one above it that the
range reaches, as the sums of addresses come out. -/
def Overlaps (l : List Extent) (blkaddr nbytes : Word) : Prop :=
  (∃ e ∈ l, e.base < blkaddr.toNat ∧ blkaddr < BitVec.ofNat 32 e.top) ∨
    ∃ e ∈ l, blkaddr.toNat ≤ e.base ∧ blockAddr e < blkaddr + roundmb nbytes

/-- What `freemem` refuses. -/
def Refused (h : Heap) (l : List Extent) (blkaddr nbytes : Word) : Prop :=
  nbytes = 0 ∨ blkaddr < h.minheap ∨ h.maxheap < blkaddr ∨ Overlaps l blkaddr nbytes

/-- An aligned range of the heap that is not free. -/
def Proper (h : Heap) (l : List Extent) (blkaddr nbytes : Word) : Prop :=
  8 ∣ blkaddr.toNat ∧
    (freedRange blkaddr nbytes).Within h.minheap.toNat (h.maxheap.toNat + 1) ∧
    ∀ e ∈ l, (freedRange blkaddr nbytes).Apart e

instance (l : List Extent) (blkaddr nbytes : Word) :
    Decidable (Overlaps l blkaddr nbytes) :=
  inferInstanceAs (Decidable (_ ∨ _))

instance (h : Heap) (l : List Extent) (blkaddr nbytes : Word) :
    Decidable (Refused h l blkaddr nbytes) :=
  inferInstanceAs (Decidable (_ ∨ _))

section Validation

variable {h h' : Heap} {l : List Extent} {blkaddr nbytes : Word}

/-- The blocks below an address and those from it on. -/
theorem split_at_address (hsep : Separated l) (a : ℕ) :
    ∃ pre post, l = pre ++ post ∧ (∀ e ∈ pre, e.base < a) ∧
      ∀ e ∈ post, a ≤ e.base := by
  induction l with
  | nil => exact ⟨[], [], rfl, by simp, by simp⟩
  | cons e l ih =>
      have hsep' := List.pairwise_cons.mp hsep
      by_cases hlt : e.base < a
      · obtain ⟨pre, post, rfl, hpre, hpost⟩ := ih hsep'.2
        exact ⟨e :: pre, post, rfl, List.forall_mem_cons.mpr ⟨hlt, hpre⟩, hpost⟩
      · refine ⟨[], e :: l, rfl, by simp, List.forall_mem_cons.mpr ⟨by omega, ?_⟩⟩
        intro c hc
        have hbelow := hsep'.1 c hc
        unfold Extent.top at hbelow
        omega

/-- The test against the block before, which is the highest one below. -/
theorem below_iff
    {pre post : List Extent} (hwf : WellFormed h (pre ++ post))
    (hpre : ∀ e ∈ pre, e.base < blkaddr.toNat)
    (hpost : ∀ e ∈ post, blkaddr.toNat ≤ e.base) :
    (lastRef none pre ≠ none ∧ blkaddr <
      (if lastRef none pre = none then NULL
        else h.addrOf (lastRef none pre) + h.mlength (lastRef none pre))) ↔
      ∃ e ∈ pre ++ post, e.base < blkaddr.toNat ∧ blkaddr < BitVec.ofNat 32 e.top := by
  rcases List.eq_nil_or_concat pre with rfl | ⟨init, p, rfl⟩
  · refine ⟨fun hlow => absurd rfl hlow.1, ?_⟩
    rintro ⟨e, he, hlow, -⟩
    have hge := hpost e he
    omega
  · rw [List.concat_eq_append] at *
    have hlast : lastRef none (init ++ [p]) = blockRef p := by
      rw [lastRef_append]
      rfl
    have hchain := chain_append.mp (List.append_assoc init [p] post ▸ hwf.chain)
    have hsize : h.mlength (blockRef p) = BitVec.ofNat 32 p.len :=
      (chain_cons.mp hchain.2).2.1
    have hnone : (blockRef p : BlockRef) ≠ none := Option.some_ne_none _
    have htop : h.addrOf (blockRef p) + h.mlength (blockRef p) =
        BitVec.ofNat 32 p.top := by
      rw [hsize]
      exact (BitVec.ofNat_add p.base p.len).symm
    rw [hlast, if_neg hnone, htop]
    refine ⟨fun hlow => ⟨p, by simp, hpre p (by simp), hlow.2⟩, ?_⟩
    rintro ⟨e, he, hlow, hreach⟩
    refine ⟨hnone, ?_⟩
    rcases List.mem_append.mp he with he | he
    · rcases List.mem_append.mp he with hinit | hlastmem
      · -- a lower block ends below the highest one
        have hsep := hwf.separated
        unfold Separated at hsep
        rw [List.append_assoc, List.pairwise_append] at hsep
        have hbelow := hsep.2.2 e hinit p (by simp)
        have hp := hpre p (by simp)
        rw [BitVec.lt_def, BitVec.toNat_ofNat] at hreach
        have hmod := Nat.mod_le e.top (2 ^ 32)
        omega
      · rw [List.mem_singleton] at hlastmem
        exact hlastmem ▸ hreach
    · have hge := hpost e he
      omega

/-- The test against the block after, which is the lowest one above. -/
theorem above_iff
    {pre post : List Extent} (hwf : WellFormed h (pre ++ post))
    (hpre : ∀ e ∈ pre, e.base < blkaddr.toNat)
    (hpost : ∀ e ∈ post, blkaddr.toNat ≤ e.base) (stop : Word) :
    (h.mnext (lastRef none pre) ≠ NULL ∧ h.mnext (lastRef none pre) < stop) ↔
      ∃ e ∈ pre ++ post, blkaddr.toNat ≤ e.base ∧ blockAddr e < stop := by
  obtain ⟨-, hafter⟩ := chain_append.mp hwf.chain
  cases post with
  | nil =>
      refine ⟨fun hhigh => absurd hafter.2 hhigh.1, ?_⟩
      rintro ⟨e, he, hge, -⟩
      have hlt := hpre e (by simpa using he)
      omega
  | cons f post =>
      have hplace : ∀ e ∈ f :: post, Placeable e := fun e he =>
        hwf.placeable (List.mem_append_right pre he)
      have hf := hplace f List.mem_cons_self
      rw [(chain_cons.mp hafter).1]
      refine ⟨fun hhigh => ⟨f, by simp, hpost f List.mem_cons_self, hhigh.2⟩, ?_⟩
      rintro ⟨e, he, hge, hreach⟩
      refine ⟨hf.blockAddr_ne_null, ?_⟩
      rcases List.mem_append.mp he with hlow | hhigh
      · have hlt := hpre e hlow
        omega
      · rcases List.mem_cons.mp hhigh with rfl | hlater
        · exact hreach
        · have hsep := hwf.separated
          unfold Separated at hsep
          rw [List.pairwise_append, List.pairwise_cons] at hsep
          have hbelow := hsep.2.1.1 e hlater
          unfold Extent.top at hbelow
          rw [BitVec.lt_def, (hplace e hhigh).blockAddr_toNat] at hreach
          rw [BitVec.lt_def, hf.blockAddr_toNat]
          omega

/-- On a well-formed heap, `freemem` refuses exactly these calls, and then
changes nothing. -/
theorem freemem_refuses_iff (hwf : WellFormed h l) :
    freemem blkaddr nbytes h = some (h, SYSERR) ↔ Refused h l blkaddr nbytes := by
  obtain ⟨pre, post, rfl, hpre, hpost⟩ := split_at_address hwf.separated blkaddr.toNat
  have hbelow := below_iff hwf hpre hpost
  have habove := above_iff hwf hpre hpost (blkaddr + roundmb nbytes)
  have hne : ∀ h' : Heap, some (h', OK) ≠ some (h, SYSERR) := by
    intro h' heq
    rw [Option.some.injEq, Prod.mk.injEq] at heq
    exact absurd heq.2 (by decide)
  unfold freemem Refused Overlaps
  by_cases hguard : nbytes = 0 ∨ blkaddr < h.minheap ∨ h.maxheap < blkaddr
  · rw [if_pos hguard]
    refine ⟨fun _ => ?_, fun _ => rfl⟩
    rcases hguard with hzero | hlow | hhigh
    · exact Or.inl hzero
    · exact Or.inr (Or.inl hlow)
    · exact Or.inr (Or.inr (Or.inl hhigh))
  · rw [if_neg hguard]
    dsimp only
    rw [freememLoop_split hwf hpre hpost]
    dsimp only
    by_cases htests : (lastRef none pre ≠ none ∧ blkaddr <
        (if lastRef none pre = none then NULL
          else h.addrOf (lastRef none pre) + h.mlength (lastRef none pre))) ∨
        (h.mnext (lastRef none pre) ≠ NULL ∧
          h.mnext (lastRef none pre) < blkaddr + roundmb nbytes)
    · rw [if_pos htests]
      rw [hbelow, habove] at htests
      exact ⟨fun _ => Or.inr (Or.inr (Or.inr htests)), fun _ => rfl⟩
    · rw [if_neg htests]
      rw [hbelow, habove] at htests
      refine ⟨fun heq => ?_, ?_⟩
      · by_cases hjoin : (if lastRef none pre = none then NULL
            else h.addrOf (lastRef none pre) + h.mlength (lastRef none pre)) = blkaddr
        · rw [if_pos hjoin] at heq
          exact absurd heq (hne _)
        · rw [if_neg hjoin] at heq
          exact absurd heq (hne _)
      · rintro (hzero | hlow | hhigh | hover)
        · exact absurd (Or.inl hzero) hguard
        · exact absurd (Or.inr (Or.inl hlow)) hguard
        · exact absurd (Or.inr (Or.inr hhigh)) hguard
        · exact absurd hover htests

/-- A proper range that ends inside the address space is added to the list. -/
theorem freemem_proper
    (hwf : WellFormed h l) (hproper : Proper h l blkaddr nbytes) (hne : nbytes ≠ 0)
    (htop : (freedRange blkaddr nbytes).top < 2 ^ 32) :
    FreememLaw h l blkaddr nbytes := by
  obtain ⟨hdvd, hin, hapart⟩ := hproper
  have hpos : 0 < nbytes.toNat := by
    have hzero : nbytes.toNat ≠ 0 := fun heq => hne (BitVec.eq_of_toNat_eq heq)
    omega
  have hmin := hwf.minheap_pos
  have hin' := hin
  unfold Extent.Within at hin'
  have htop' : blkaddr.toNat + (nbytes.toNat + 7) / 8 * 8 < 2 ^ 32 := htop
  have hlow : h.minheap.toNat ≤ blkaddr.toNat := hin'.1
  have hgran : (freedRange blkaddr nbytes).Granular 8 :=
    ⟨hdvd, Dvd.intro_left _ rfl, by show 0 < (nbytes.toNat + 7) / 8 * 8; omega⟩
  have hround : (roundmb nbytes).toNat = (nbytes.toNat + 7) / 8 * 8 :=
    roundmb_toNat (by omega)
  have hbase : blkaddr.toNat = (freedRange blkaddr nbytes).base := rfl
  obtain ⟨h', hfree, hwf', -, -⟩ :=
    freemem_spec hwf hgran hin htop hapart hbase hne hround
  exact Or.inr ⟨h', hfree, hin, hapart, hwf'⟩

/-- The released range starts a block of the new list or ends an old one. -/
theorem release_start (b : Extent) (l : List Extent) :
    (∃ c ∈ release b l, c.base = b.base) ∨ ∃ e ∈ l, e.top = b.base := by
  induction l with
  | nil => exact Or.inl ⟨b, by simp [release], rfl⟩
  | cons e l ih =>
      unfold release
      split_ifs with hlt htouch
      · rw [joinRight]
        split_ifs
        · exact Or.inl ⟨⟨b.base, b.len + e.len⟩, by simp, rfl⟩
        · exact Or.inl ⟨b, by simp, rfl⟩
      · exact Or.inr ⟨e, by simp, htouch⟩
      · rcases ih with ⟨c, hc, hbase⟩ | ⟨f, hf, htop⟩
        · exact Or.inl ⟨c, by simp [hc], hbase⟩
        · exact Or.inr ⟨f, by simp [hf], htop⟩

/-- A call that is lawful is refused or gives back a proper range. -/
theorem FreememLaw.proper
    (hwf : WellFormed h l) (hlaw : FreememLaw h l blkaddr nbytes) :
    Refused h l blkaddr nbytes ∨ Proper h l blkaddr nbytes := by
  rcases hlaw with hrefused | ⟨h', -, hin, hapart, hwf'⟩
  · exact Or.inl ((freemem_refuses_iff hwf).mp hrefused)
  · refine Or.inr ⟨?_, hin, hapart⟩
    rcases release_start (freedRange blkaddr nbytes) l with
      ⟨c, hc, hbase⟩ | ⟨e, he, htop⟩
    · have hdvd := (hwf'.granular c hc).base_dvd
      rw [hbase] at hdvd
      exact hdvd
    · have hgran := hwf.granular e he
      have hdvd : 8 ∣ e.top := hgran.base_dvd.add hgran.len_dvd
      rw [htop] at hdvd
      exact hdvd

/-- `freemem` is lawful on the calls that it refuses and on proper ranges that
end inside the address space, and on no others except perhaps where a proper
range ends at the last address. -/
theorem freemem_lawful (hwf : WellFormed h l) :
    (Refused h l blkaddr nbytes ∨
        Proper h l blkaddr nbytes ∧ (freedRange blkaddr nbytes).top < 2 ^ 32 →
      FreememLaw h l blkaddr nbytes) ∧
    (FreememLaw h l blkaddr nbytes →
      Refused h l blkaddr nbytes ∨ Proper h l blkaddr nbytes) := by
  refine ⟨?_, FreememLaw.proper hwf⟩
  rintro (hrefused | ⟨hproper, htop⟩)
  · exact Or.inl ((freemem_refuses_iff hwf).mpr hrefused)
  · by_cases hzero : nbytes = 0
    · exact Or.inl ((freemem_refuses_iff hwf).mpr (Or.inl hzero))
    · exact freemem_proper hwf hproper hzero htop

end Validation

/-- Thirteen bytes at a free place of the heap. -/
theorem freemem_lawful_thirteen_bytes : FreememLaw sixteenBytes [⟨16, 16⟩] 64 13 := by
  refine (freemem_lawful sixteenBytes_wellFormed).1
    (Or.inr ⟨⟨by decide, ?_, ?_⟩, by decide⟩)
  · unfold Extent.Within
    decide
  · unfold Extent.Apart
    decide

/-- An address that is no multiple of eight is accepted. -/
theorem unaligned_free_accepted :
    ∃ h l blkaddr nbytes, WellFormed h l ∧ ¬ FreememLaw h l blkaddr nbytes := by
  refine ⟨sixteenBytes, [⟨16, 16⟩], 65, 8, sixteenBytes_wellFormed, fun hlaw => ?_⟩
  rcases hlaw.proper sixteenBytes_wellFormed with hrefused | hproper
  · exact absurd hrefused (by decide)
  · exact absurd hproper.1 (by decide)

end Xinu
