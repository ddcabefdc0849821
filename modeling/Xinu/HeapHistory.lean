import Xinu.HeapFreeList
import Xinu.TransitionSystem

/-!
# Histories of allocator calls

An `AllocState` is a heap together with the blocks that have been handed out
and not yet taken back.  A call is permitted when its size can be rounded and,
for a release, when it names a live block with the size it was requested with.
Along every history of permitted calls the free list stays well formed and the
free and live blocks partition the bytes of the initial free list.
-/

namespace Xinu

open ByteMemory
open FreeExtents
open TransitionSystem

/-- A block that is handed out: its lowest address and the requested size. -/
structure LiveBlock where
  base : Word
  size : Word
  deriving DecidableEq, Repr

def LiveBlock.extent (block : LiveBlock) : Extent :=
  ⟨block.base.toNat, (roundmb block.size).toNat⟩

structure AllocState where
  heap : Heap
  live : List LiveBlock

def AllocState.liveExtents (s : AllocState) : List Extent :=
  s.live.map LiveBlock.extent

inductive AllocCall where
  | getmem (nbytes : Word)
  | getstk (nbytes : Word)
  | freemem (blkaddr nbytes : Word)
  | freestk (p len : Word)
  deriving DecidableEq, Repr

def AllocCall.result (h : Heap) : AllocCall → Option (Heap × Word)
  | .getmem nbytes => Xinu.getmem nbytes h
  | .getstk nbytes => Xinu.getstk nbytes h
  | .freemem blkaddr nbytes => Xinu.freemem blkaddr nbytes h
  | .freestk p len => Xinu.freestk p len h

/-- The block that a release names; `freestk` is given the highest word of its
block. -/
def stackBlock (p len : Word) : LiveBlock := ⟨p - roundmb len + 4, len⟩

/-- The blocks that are live once the call has returned `value`. -/
def AllocCall.record (value : Word) (live : List LiveBlock) :
    AllocCall → List LiveBlock
  | .getmem nbytes => if value = SYSERR then live else ⟨value, nbytes⟩ :: live
  | .getstk nbytes =>
      if value = SYSERR then live else stackBlock value nbytes :: live
  | .freemem blkaddr nbytes =>
      if value = OK then live.erase ⟨blkaddr, nbytes⟩ else live
  | .freestk p len => if value = OK then live.erase (stackBlock p len) else live

def AllocState.step (s : AllocState) (call : AllocCall) : Option AllocState :=
  (call.result s.heap).map fun r => ⟨r.1, call.record r.2 s.live⟩

def SizeOk (nbytes : Word) : Prop :=
  1 ≤ nbytes.toNat ∧ nbytes.toNat ≤ 2 ^ 32 - 8

def AllocCall.Permitted (s : AllocState) : AllocCall → Prop
  | .getmem nbytes => SizeOk nbytes
  | .getstk nbytes => SizeOk nbytes
  | .freemem blkaddr nbytes => ⟨blkaddr, nbytes⟩ ∈ s.live
  | .freestk p len => stackBlock p len ∈ s.live

/-- What every call must preserve: `l` is the free list, and free and live
blocks are disjoint and together hold `bytes`. -/
structure HeapSound (s : AllocState) (l : List Extent) (bytes : ℕ) : Prop where
  wellFormed : WellFormed s.heap l
  live_apart : s.liveExtents.Pairwise Extent.Apart
  live_free : ∀ b ∈ s.liveExtents, ∀ e ∈ l, b.Apart e
  bytes_eq : total l + total s.liveExtents = bytes

/-- The invariant of a history that started with `bytes` free bytes below
`high`. -/
structure HeapInv
    (low high bytes : ℕ) (s : AllocState) (l : List Extent) : Prop where
  wellFormed : WellFormed s.heap l
  partitioned : Partitioned 8 low high l s.liveExtents
  sizes : ∀ b ∈ s.live, SizeOk b.size
  bytes_eq : total l + total s.liveExtents = bytes
  low_eq : s.heap.minheap.toNat = low
  high_le : high ≤ s.heap.maxheap.toNat + 1
  high_lt : high < 2 ^ 32

theorem HeapInv.sound
    {low high bytes : ℕ} {s : AllocState} {l : List Extent}
    (hinv : HeapInv low high bytes s l) : HeapSound s l bytes :=
  ⟨hinv.wellFormed, hinv.partitioned.live_apart, hinv.partitioned.apart,
    hinv.bytes_eq⟩

theorem blockAddr_ne_syserr {e : Extent} (he : Placeable e) :
    blockAddr e ≠ SYSERR := by
  intro heq
  have hdvd := he.granular.base_dvd
  have hval := he.blockAddr_toNat
  rw [heq, show SYSERR.toNat = 2 ^ 32 - 1 from rfl] at hval
  omega

theorem stack_ne_syserr
    {e : Extent} {n : Word} (he : Placeable e) (hn : 8 ∣ n.toNat) :
    blockAddr e + n - 4 ≠ SYSERR := by
  intro heq
  have hdvd := he.granular.base_dvd
  have hval := he.blockAddr_toNat
  unfold SYSERR at heq
  bv_omega

section Step

variable {low high bytes : ℕ} {s : AllocState} {l : List Extent}

/-- An allocation that carves `b` and hands it out. -/
theorem HeapInv.allocate
    {h' : Heap} {l' : List Extent} {b : Extent} {block : LiveBlock}
    (hinv : HeapInv low high bytes s l) (hcarved : Carved b l l')
    (hgran : b.Granular 8 ∧ ∀ e ∈ l', e.Granular 8)
    (hblock : block.extent = b) (hsize : SizeOk block.size)
    (hwf : WellFormed h' l') (hmin : h'.minheap = s.heap.minheap)
    (hmax : h'.maxheap = s.heap.maxheap) :
    HeapInv low high bytes ⟨h', block :: s.live⟩ l' := by
  have htotal := hcarved.total_eq
  have hbytes := hinv.bytes_eq
  have hlive : (⟨h', block :: s.live⟩ : AllocState).liveExtents =
      b :: s.liveExtents := by
    rw [← hblock]
    rfl
  refine ⟨hwf, ?_, List.forall_mem_cons.mpr ⟨hsize, hinv.sizes⟩, ?_, ?_, ?_,
    hinv.high_lt⟩
  · rw [hlive]
    exact hinv.partitioned.carve hcarved hgran.1 hgran.2
  · rw [hlive, total_cons]
    omega
  · exact (congrArg BitVec.toNat hmin).trans hinv.low_eq
  · rw [hmax]
    exact hinv.high_le

theorem HeapInv.free
    {block : LiveBlock} {nbytes : Word}
    (hinv : HeapInv low high bytes s l) (hmem : block ∈ s.live)
    (hround : roundmb nbytes = roundmb block.size) (hne : nbytes ≠ 0) :
    ∃ h', freemem block.base nbytes s.heap = some (h', OK) ∧
      HeapInv low high bytes ⟨h', s.live.erase block⟩
        (release block.extent l) := by
  have hext : block.extent ∈ s.liveExtents := List.mem_map_of_mem hmem
  have hgran := hinv.partitioned.live_granular _ hext
  have hwithin := hinv.partitioned.live_within _ hext
  have hapart := hinv.partitioned.apart _ hext
  have hlow := hinv.low_eq
  have hhigh := hinv.high_le
  have hlt := hinv.high_lt
  have hin : block.extent.Within s.heap.minheap.toNat
      (s.heap.maxheap.toNat + 1) := by
    unfold Extent.Within at *
    omega
  have htop : block.extent.top < 2 ^ 32 := by
    unfold Extent.Within at hwithin
    omega
  obtain ⟨h', hfree, hwf, hmin, hmax⟩ := freemem_spec hinv.wellFormed hgran
    hin htop hapart rfl hne (congrArg BitVec.toNat hround)
  have hperm : s.live.Perm (block :: s.live.erase block) :=
    List.perm_cons_erase hmem
  have hperm' : s.liveExtents.Perm
      (block.extent :: (s.live.erase block).map LiveBlock.extent) :=
    hperm.map LiveBlock.extent
  refine ⟨h', hfree, hwf, hinv.partitioned.release hperm', ?_, ?_, ?_, ?_,
    hlt⟩
  · exact fun b hb => hinv.sizes b (List.mem_of_mem_erase hb)
  · have hbytes := hinv.bytes_eq
    have hsum : total s.liveExtents = block.extent.len +
        total ((s.live.erase block).map LiveBlock.extent) := by
      rw [← total_cons]
      exact (hperm'.map Extent.len).sum_eq
    rw [total_release]
    show _ + total ((s.live.erase block).map LiveBlock.extent) = bytes
    omega
  · exact (congrArg BitVec.toNat hmin).trans hlow
  · rw [hmax]
    exact hhigh

/-- An allocation fails without a trace or hands out part of a free block. -/
def Granted
    (s : AllocState) (l : List Extent) (nbytes : Word) (s' : AllocState) :
    Prop :=
  s' = s ∨ ∃ b : LiveBlock, s'.live = b :: s.live ∧ b.size = nbytes ∧
    ∃ e ∈ l, b.extent.Inside e

/-- What a permitted call does: it returns, and a release succeeds. -/
def CallOutcome
    (s : AllocState) (l : List Extent) (call : AllocCall) (s' : AllocState) :
    Prop :=
  s.step call = some s' ∧
    match call with
    | .getmem nbytes => Granted s l nbytes s'
    | .getstk nbytes => Granted s l nbytes s'
    | .freemem blkaddr nbytes => s'.live = s.live.erase ⟨blkaddr, nbytes⟩
    | .freestk p len => s'.live = s.live.erase (stackBlock p len)

/-- The carved extent as a live block. -/
theorem HeapInv.carvedBlock
    {l' : List Extent} {b : Extent} {nbytes : Word}
    (hinv : HeapInv low high bytes s l) (hcarved : Carved b l l')
    (hgran : b.Granular 8) (hlen : b.len = (roundmb nbytes).toNat) :
    Placeable b ∧ LiveBlock.extent ⟨blockAddr b, nbytes⟩ = b := by
  obtain ⟨e, he, hin⟩ := hcarved.inside
  have heplace := hinv.wellFormed.placeable he
  have hbase := heplace.base_pos
  have htop := heplace.top_le
  unfold Extent.Inside at hin
  have hplace : Placeable b := ⟨hgran, by omega, by omega⟩
  refine ⟨hplace, ?_⟩
  ext
  · exact hplace.blockAddr_toNat
  · exact hlen.symm

/-- An allocating call that returns `value` for the carved extent `b`. -/
theorem HeapInv.grant
    {value nbytes : Word} {h' : Heap} {l' : List Extent} {b : Extent}
    (call : AllocCall) (hinv : HeapInv low high bytes s l)
    (hsize : SizeOk nbytes) (hcarved : Carved b l l')
    (hgran : b.Granular 8 ∧ ∀ e ∈ l', e.Granular 8)
    (hlen : b.len = (roundmb nbytes).toNat)
    (hresult : call.result s.heap = some (h', value))
    (hrecord : call.record value s.live = ⟨blockAddr b, nbytes⟩ :: s.live)
    (hwf : WellFormed h' l') (hmin : h'.minheap = s.heap.minheap)
    (hmax : h'.maxheap = s.heap.maxheap) :
    ∃ s', s.step call = some s' ∧ Granted s l nbytes s' ∧
      HeapInv low high bytes s' l' := by
  have hext := (hinv.carvedBlock hcarved hgran.1 hlen).2
  refine ⟨⟨h', ⟨blockAddr b, nbytes⟩ :: s.live⟩, ?_, ?_,
    hinv.allocate hcarved hgran hext hsize hwf hmin hmax⟩
  · simp [AllocState.step, hresult, hrecord]
  · refine Or.inr ⟨⟨blockAddr b, nbytes⟩, rfl, rfl, ?_⟩
    rw [hext]
    exact hcarved.inside

theorem HeapInv.getmem
    {nbytes : Word} (hinv : HeapInv low high bytes s l)
    (hsize : SizeOk nbytes) :
    ∃ s' l', CallOutcome s l (.getmem nbytes) s' ∧
      HeapInv low high bytes s' l' := by
  have hspec := getmem_spec hinv.wellFormed hsize.1 hsize.2
  obtain ⟨hdvd, hround, -⟩ := roundmb_request hsize.1 hsize.2
  cases hcarve : carveFirst (roundmb nbytes).toNat l with
  | none =>
      rw [hcarve] at hspec
      refine ⟨s, l, ⟨?_, Or.inl rfl⟩, hinv⟩
      simp [AllocState.step, AllocCall.result, hspec, AllocCall.record]
  | some r =>
      obtain ⟨b, l'⟩ := r
      rw [hcarve] at hspec
      obtain ⟨h', hcall, hwf, hmin, hmax⟩ := hspec
      have hcarved : Carved b l l' := carveFirst_carved hcarve
      have hgran : b.Granular 8 ∧ ∀ e ∈ l', e.Granular 8 :=
        carveFirst_granular hinv.wellFormed.granular hdvd hround hcarve
      have hlen : b.len = (roundmb nbytes).toNat := by
        obtain ⟨pre, f, post, -, -, -, hr⟩ := carveFirst_split hcarve
        exact congrArg (fun r => r.1.len) hr
      have hplace := (hinv.carvedBlock hcarved hgran.1 hlen).1
      obtain ⟨s', hstep, hgrant, hinv'⟩ := hinv.grant
        (.getmem nbytes) hsize hcarved hgran hlen hcall
        (if_neg (blockAddr_ne_syserr hplace)) hwf hmin hmax
      exact ⟨s', l', ⟨hstep, hgrant⟩, hinv'⟩

theorem HeapInv.getstk
    {nbytes : Word} (hinv : HeapInv low high bytes s l)
    (hsize : SizeOk nbytes) :
    ∃ s' l', CallOutcome s l (.getstk nbytes) s' ∧
      HeapInv low high bytes s' l' := by
  have hspec := getstk_spec hinv.wellFormed hsize.1 hsize.2
  obtain ⟨hdvd, hround, -⟩ := roundmb_request hsize.1 hsize.2
  cases hcarve : carveLast (roundmb nbytes).toNat l with
  | none =>
      rw [hcarve] at hspec
      refine ⟨s, l, ⟨?_, Or.inl rfl⟩, hinv⟩
      simp [AllocState.step, AllocCall.result, hspec, AllocCall.record]
  | some r =>
      obtain ⟨b, l'⟩ := r
      rw [hcarve] at hspec
      obtain ⟨h', hcall, hwf, hmin, hmax⟩ := hspec
      have hcarved : Carved b l l' := carveLast_carved hcarve
      have hgran : b.Granular 8 ∧ ∀ e ∈ l', e.Granular 8 :=
        carveLast_granular hinv.wellFormed.granular hdvd hround hcarve
      have hlen : b.len = (roundmb nbytes).toNat := by
        obtain ⟨pre, f, post, -, -, -, hr⟩ := carveLast_split hcarve
        exact congrArg (fun r => r.1.len) hr
      have hplace := (hinv.carvedBlock hcarved hgran.1 hlen).1
      have hblock : stackBlock (blockAddr b + roundmb nbytes - 4) nbytes =
          ⟨blockAddr b, nbytes⟩ := by
        unfold stackBlock
        congr 1
        bv_omega
      have hrecord : AllocCall.record (blockAddr b + roundmb nbytes - 4)
          s.live (.getstk nbytes) = ⟨blockAddr b, nbytes⟩ :: s.live := by
        rw [← hblock]
        exact if_neg (stack_ne_syserr hplace hdvd)
      obtain ⟨s', hstep, hgrant, hinv'⟩ := hinv.grant
        (.getstk nbytes) hsize hcarved hgran hlen hcall hrecord hwf
        hmin hmax
      exact ⟨s', l', ⟨hstep, hgrant⟩, hinv'⟩

theorem roundmb_ne_zero {nbytes : Word} (hsize : SizeOk nbytes) :
    roundmb nbytes ≠ 0 := by
  have hround := (roundmb_request hsize.1 hsize.2).2.1
  intro hzero
  rw [hzero] at hround
  simp at hround

theorem HeapInv.step
    {call : AllocCall} (hinv : HeapInv low high bytes s l)
    (hpermitted : call.Permitted s) :
    ∃ s' l', CallOutcome s l call s' ∧ HeapInv low high bytes s' l' := by
  cases call with
  | getmem nbytes => exact hinv.getmem hpermitted
  | getstk nbytes => exact hinv.getstk hpermitted
  | freemem blkaddr nbytes =>
      have hsize := hinv.sizes _ hpermitted
      have hne : nbytes ≠ 0 := by
        rintro rfl
        exact absurd hsize.1 (by simp)
      obtain ⟨h', hcall, hinv'⟩ := hinv.free hpermitted rfl hne
      refine ⟨⟨h', s.live.erase ⟨blkaddr, nbytes⟩⟩, _, ⟨?_, rfl⟩, hinv'⟩
      have hresult : AllocCall.result s.heap (.freemem blkaddr nbytes) =
          some (h', OK) := hcall
      simp [AllocState.step, hresult, AllocCall.record]
  | freestk p len =>
      have hsize := hinv.sizes _ hpermitted
      obtain ⟨h', hcall, hinv'⟩ := hinv.free hpermitted
        (roundmb_roundmb hsize.2) (roundmb_ne_zero hsize)
      refine ⟨⟨h', s.live.erase (stackBlock p len)⟩, _, ⟨?_, rfl⟩, hinv'⟩
      have hresult : AllocCall.result s.heap (.freestk p len) =
          some (h', OK) := hcall
      simp [AllocState.step, hresult, AllocCall.record]

end Step

theorem HeapInv.initial
    {h : Heap} {l : List Extent} (hwf : WellFormed h l)
    (htop : ∀ e ∈ l, e.top < 2 ^ 32) :
    HeapInv h.minheap.toNat (min (h.maxheap.toNat + 1) (2 ^ 32 - 1)) (total l)
      ⟨h, []⟩ l := by
  have hnone : (⟨h, []⟩ : AllocState).liveExtents = [] := rfl
  refine ⟨hwf, ?_, by simp, by simp [hnone], rfl, min_le_left _ _, by omega⟩
  rw [hnone]
  refine ⟨hwf.separated, hwf.granular, by simp, ?_, by simp, by simp, by simp⟩
  intro e he
  have hin := hwf.within e he
  have hlt := htop e he
  unfold Extent.Within at *
  omega

/-- From a well-formed free list without a block at the very end of the
address space, every history of permitted calls keeps the heap sound, and the
next permitted call returns with its outcome. -/
theorem heap_history_sound
    {h : Heap} {l : List Extent} (hwf : WellFormed h l)
    (htop : ∀ e ∈ l, e.top < 2 ^ 32) {s : AllocState}
    (hreach : Reach AllocState.step (fun s call => call.Permitted s)
      ⟨h, []⟩ s) :
    ∃ free, HeapSound s free (total l) ∧
      ∀ call : AllocCall, call.Permitted s →
        ∃ s', CallOutcome s free call s' := by
  obtain ⟨free, hinv⟩ := hreach.invariant
    (fun s => ∃ free, HeapInv h.minheap.toNat
      (min (h.maxheap.toNat + 1) (2 ^ 32 - 1)) (total l) s free)
    ⟨l, HeapInv.initial hwf htop⟩ (by
    rintro s call s' ⟨free, hinv⟩ hpermitted hstep
    obtain ⟨next, free', ⟨hnext, -⟩, hinv'⟩ := hinv.step hpermitted
    rw [hstep, Option.some.injEq] at hnext
    subst hnext
    exact ⟨free', hinv'⟩)
  refine ⟨free, hinv.sound, ?_⟩
  intro call hpermitted
  obtain ⟨s', -, houtcome, -⟩ := hinv.step hpermitted
  exact ⟨s', houtcome⟩

theorem heap_history_sound_singleBlock :
    ∃ s free, Reach AllocState.step (fun s call => call.Permitted s)
        ⟨singleBlockHeap ⟨16, 32⟩ 8 255 fun _ => 0, []⟩ s ∧
      s.live = [⟨16, 8⟩] ∧ HeapSound s free 32 := by
  have hwf : WellFormed (singleBlockHeap ⟨16, 32⟩ 8 255 fun _ => 0)
      [⟨16, 32⟩] := by
    apply singleBlockHeap_wellFormed
    · exact ⟨by decide, by decide, by decide⟩
    · exact ⟨by decide, by decide⟩
    · decide
  have hlive : (run AllocState.step
      ⟨singleBlockHeap ⟨16, 32⟩ 8 255 fun _ => 0, []⟩ [.getmem 8]).map
        AllocState.live = some [⟨16, 8⟩] := by
    decide
  obtain ⟨s, hrun, hs⟩ := Option.map_eq_some_iff.mp hlive
  have hreach : Reach AllocState.step (fun s call => call.Permitted s)
      ⟨singleBlockHeap ⟨16, 32⟩ 8 255 fun _ => 0, []⟩ s :=
    Reach.run [.getmem 8] .start
      ⟨⟨by decide, by decide⟩, fun _ _ => trivial⟩ hrun
  obtain ⟨free, hsound, -⟩ := heap_history_sound hwf (by decide) hreach
  exact ⟨s, free, hreach, hs, hsound⟩

/-- A heap that ends with the address space: releasing its last block reads
the "next block" at address zero, and the list is no longer well formed. -/
theorem heap_history_unsound_at_top :
    ∃ h l s, WellFormed h l ∧
      Reach AllocState.step (fun s call => call.Permitted s) ⟨h, []⟩ s ∧
        ¬ ∃ free, WellFormed s.heap free := by
  let mem : Memory := fun a => if a = 4 then 8 else 0
  let h := singleBlockHeap ⟨2 ^ 32 - 16, 16⟩ 8 (-1) mem
  have hwf : WellFormed h [⟨2 ^ 32 - 16, 16⟩] := by
    apply singleBlockHeap_wellFormed
    · exact ⟨by decide, by decide, by decide⟩
    · exact ⟨by decide, by decide⟩
    · decide
  have hview : (run AllocState.step ⟨h, []⟩
      [.getmem 16, .freemem (-16) 16]).map
        (fun s => (s.heap.mnext none, s.heap.mlength (some (-16)),
          s.heap.maxheap)) = some (-16, 24, -1) := by
    decide
  have hfirst : ((⟨h, []⟩ : AllocState).step (.getmem 16)).map
      AllocState.live = some [⟨-16, 16⟩] := by
    decide
  obtain ⟨s, hrun, hs⟩ := Option.map_eq_some_iff.mp hview
  simp only [Prod.mk.injEq] at hs
  obtain ⟨hhead, hlen, hmax⟩ := hs
  refine ⟨h, _, s, hwf, Reach.run _ .start ?_ hrun, ?_⟩
  · refine ⟨⟨by decide, by decide⟩, ?_⟩
    intro s' hs'
    refine ⟨?_, fun _ _ => trivial⟩
    rw [hs', Option.map_some, Option.some.injEq] at hfirst
    show _ ∈ s'.live
    simp [hfirst]
  · rintro ⟨free, hfree⟩
    cases free with
    | nil =>
        have hnull := hfree.chain.2
        rw [show lastRef none [] = none from rfl, hhead] at hnull
        exact absurd hnull (by decide)
    | cons e free =>
        obtain ⟨hfront, hsize, -⟩ := chain_cons.mp hfree.chain
        have hplace := hfree.placeable (List.mem_cons_self ..)
        have hbase := hplace.blockAddr_toNat
        have htop := hplace.top_le
        rw [hhead] at hfront
        rw [← hfront] at hbase
        rw [show blockRef e = some (-16) by
          rw [blockRef, ← hfront], hlen] at hsize
        have hval := congrArg BitVec.toNat hsize
        simp only [BitVec.toNat_ofNat] at hval
        unfold Extent.top at htop
        have hneg : (-16 : Word).toNat = 2 ^ 32 - 16 := by decide
        have hlong : (24 : Word).toNat = 24 := by decide
        omega

end Xinu
