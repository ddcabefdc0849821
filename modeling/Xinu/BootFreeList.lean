import Xinu.HeapFreeList

/-!
# The free list built at boot

`setsegs` fixes the end of the heap and `meminit` threads the first free list
behind the kernel image.  The image starts at one megabyte, so the list that
`meminit` means to lay around the memory hole starts above the hole and comes
back to it.
-/

namespace Xinu

open ByteMemory
open FreeExtents

def XINU_PAGES : Word := 8192

def NULLSTK : Word := 8192

/-- `physbase` of the link script: where the kernel image starts. -/
def physbase : Word := 0x100000

/-- The part of `setsegs` that sets the heap bound. -/
def setsegs (h : Heap) : Heap :=
  { h with maxheap := XINU_PAGES * PAGE_SIZE - 1 }

/-- `imageEnd` is the address of the linker symbol `end`. -/
def meminit (imageEnd : Word) (h : Heap) : Heap :=
  let h := { h with minheap := imageEnd }
  let memptr := roundmb h.minheap
  let h := h.setMnext none memptr
  if HOLESTART < h.maxheap + 1 then
    let h := h.setMnext (some memptr) HOLEEND
    let h := h.setMlength (some memptr) (truncmb (HOLESTART - imageEnd - 4))
    let memptr := HOLEEND
    let h := h.setMnext (some memptr) NULL
    h.setMlength (some memptr) (truncmb (h.maxheap - HOLEEND - NULLSTK))
  else
    let memptr := roundmb imageEnd
    let h := h.setMnext none memptr
    let h := h.setMnext (some memptr) NULL
    h.setMlength (some memptr) (truncmb (h.maxheap - imageEnd - NULLSTK))

/-- The heap once `meminit` has run over physical memory `mem`. -/
def bootHeap (mem : Memory) (memlistAddr imageEnd : Word) : Heap :=
  meminit imageEnd (setsegs ⟨mem, ⟨0, 0⟩, memlistAddr, 0, 0⟩)

/-- The addresses the link script allows for `end`. -/
def LinkedBelow (h : Heap) (imageEnd : Word) : Prop :=
  physbase < imageEnd ∧ imageEnd < h.maxheap

def kernelImage (imageEnd : Word) : Extent :=
  ⟨physbase.toNat, imageEnd.toNat - physbase.toNat⟩

def memoryHole : Extent := ⟨HOLESTART.toNat, HOLEEND.toNat - HOLESTART.toNat⟩

/-- The null process starts with its stack pointer at the end of the heap. -/
def nullStack (h : Heap) : Extent :=
  ⟨h.maxheap.toNat + 1 - NULLSTK.toNat, NULLSTK.toNat⟩

/-- A first free list that hands out nothing the kernel uses. -/
structure BootFreeList
    (h : Heap) (imageEnd : Word) (l : List Extent) : Prop where
  chain : Chain h none l
  sorted : l.Pairwise fun a b => a.top ≤ b.base
  granular : ∀ e ∈ l, e.Granular 8
  within : ∀ e ∈ l, e.Within h.minheap.toNat (h.maxheap.toNat + 1)
  image : ∀ e ∈ l, e.Apart (kernelImage imageEnd)
  hole : ∀ e ∈ l, e.Apart memoryHole
  stack : ∀ e ∈ l, e.Apart (nullStack h)

/-! ## What meminit writes -/

section Meminit

variable {mem : Memory} {memlistAddr imageEnd : Word}

@[simp] theorem bootHeap_maxheap :
    (bootHeap mem memlistAddr imageEnd).maxheap = 0x1FFFFFF := by
  simp [bootHeap, meminit, setsegs, XINU_PAGES, PAGE_SIZE, HOLESTART]

@[simp] theorem bootHeap_minheap :
    (bootHeap mem memlistAddr imageEnd).minheap = imageEnd := by
  simp [bootHeap, meminit, setsegs, XINU_PAGES, PAGE_SIZE, HOLESTART]

theorem linkedBelow_bootHeap
    (hlink : LinkedBelow (bootHeap mem memlistAddr imageEnd) imageEnd) :
    0x100000 < imageEnd.toNat ∧ imageEnd.toNat < 0x1FFFFFF := by
  unfold LinkedBelow at hlink
  rw [bootHeap_maxheap, BitVec.lt_def, BitVec.lt_def] at hlink
  exact hlink

/-- The two blocks that straddle the hole, as `meminit` stores them: the first
above the image, the second at the image itself. -/
structure StraddlingBlocks (h : Heap) (imageEnd : Word) : Prop where
  head : h.mnext none = roundmb imageEnd
  next : h.mnext (some (roundmb imageEnd)) = HOLEEND
  length : h.mlength (some (roundmb imageEnd)) =
    truncmb (HOLESTART - imageEnd - 4)
  last : h.mnext (some HOLEEND) = NULL
  last_length : h.mlength (some HOLEEND) = 0x1EFDFF8

theorem bootHeap_blocks
    (himage : 0x100000 < imageEnd.toNat) (hmax : imageEnd.toNat < 0x1FFFFFF) :
    StraddlingBlocks (bootHeap mem memlistAddr imageEnd) imageEnd := by
  have hround := roundmb_toNat (x := imageEnd) (by omega)
  have hfirst : BlockRef.Node (some (roundmb imageEnd)) := by
    show (roundmb imageEnd).toNat % 8 = 0
    omega
  have hsecond : BlockRef.Node (some HOLEEND) := by
    show HOLEEND.toNat % 8 = 0
    decide
  have hne : (some (roundmb imageEnd) : BlockRef) ≠ some HOLEEND := by
    intro heq
    have hval : (roundmb imageEnd).toNat = HOLEEND.toNat := by
      rw [Option.some.inj heq]
    have hhole : HOLEEND.toNat = 0x100000 := by decide
    omega
  have hnone : BlockRef.Node none := trivial
  have hguard : HOLESTART < (XINU_PAGES * PAGE_SIZE - 1) + 1 := by decide
  unfold bootHeap meminit setsegs
  simp only [setMnext_bounds, hguard, ↓reduceIte]
  constructor <;>
    simp only [mnext_setMnext, mnext_setMlength, mlength_setMnext,
      mlength_setMlength, hfirst, hsecond, hnone, hne,
      ↓reduceIte, reduceCtorEq, setMnext_bounds, setMlength_bounds]
  decide

/-- Read as a list, these are the only two blocks there are. -/
theorem StraddlingBlocks.eq_pair
    {h : Heap} {l : List Extent} (hblocks : StraddlingBlocks h imageEnd)
    (himage : 0 < imageEnd.toNat) (hmax : imageEnd.toNat ≤ 2 ^ 32 - 8)
    (hchain : Chain h none l)
    (hl : ∀ e ∈ l, 0 < e.base ∧ e.base < 2 ^ 32 ∧ e.len < 2 ^ 32) :
    l = [⟨(roundmb imageEnd).toNat,
        (truncmb (HOLESTART - imageEnd - 4)).toNat⟩,
      ⟨0x100000, 0x1EFDFF8⟩] := by
  have hread : ∀ e ∈ l, ∀ a n : Word, blockAddr e = a →
      h.mlength (blockRef e) = BitVec.ofNat 32 e.len →
        h.mlength (some a) = n → e = ⟨a.toNat, n.toNat⟩ := by
    intro e he a n haddr hlen hval
    obtain ⟨-, hbase, hsize⟩ := hl e he
    have hfst : e.base = a.toNat := (ofNat_eq_word_iff hbase).mp haddr
    have hsnd : e.len = n.toNat := by
      rw [blockRef, haddr, hval] at hlen
      exact (ofNat_eq_word_iff hsize).mp hlen.symm
    ext
    · exact hfst
    · exact hsnd
  have hround := (roundmb_request himage hmax).2.1
  cases l with
  | nil =>
      have hnull : h.mnext none = NULL := hchain.2
      rw [hblocks.head] at hnull
      rw [hnull] at hround
      exact absurd hround (by decide)
  | cons a l =>
      obtain ⟨hfront, hsize, htail⟩ := chain_cons.mp hchain
      rw [hblocks.head] at hfront
      have ha := hread a (by simp) _ _ hfront.symm hsize hblocks.length
      rw [blockRef, ← hfront] at htail
      cases l with
      | nil =>
          have hnull : h.mnext (some (roundmb imageEnd)) = NULL := htail.2
          rw [hblocks.next] at hnull
          exact absurd hnull (by decide)
      | cons b l =>
          obtain ⟨hsecond, hsize', hrest⟩ := chain_cons.mp htail
          rw [hblocks.next] at hsecond
          have hb := hread b (by simp) _ _ hsecond.symm hsize'
            hblocks.last_length
          rw [blockRef, ← hsecond] at hrest
          cases l with
          | nil =>
              rw [ha, hb]
              rfl
          | cons c l =>
              have hnull := (chain_cons.mp hrest).1
              rw [hblocks.last] at hnull
              have hcpos := (hl c (by simp)).1
              have hclt := (hl c (by simp)).2.1
              have hc := (ofNat_eq_word_iff hclt).mp hnull.symm
              have hzero : NULL.toNat = 0 := rfl
              omega

/-- The first block lies above the second one, and the second one lies over
the image. -/
theorem StraddlingBlocks.not_bootFreeList
    {h : Heap} (hblocks : StraddlingBlocks h imageEnd)
    (himage : 0x100000 < imageEnd.toNat) (hmax : imageEnd.toNat < 0x1FFFFFF)
    (hminheap : h.minheap = imageEnd) (hmaxheap : h.maxheap = 0x1FFFFFF) :
    ¬ ∃ l, BootFreeList h imageEnd l := by
  rintro ⟨l, hlist⟩
  have hl : ∀ e ∈ l, 0 < e.base ∧ e.base < 2 ^ 32 ∧ e.len < 2 ^ 32 := by
    intro e he
    have hin := hlist.within e he
    have hpos := (hlist.granular e he).len_pos
    have hval : (0x1FFFFFF : Word).toNat = 0x1FFFFFF := by decide
    rw [hminheap, hmaxheap, hval] at hin
    unfold Extent.Within Extent.top at hin
    omega
  have hpair := hblocks.eq_pair (by omega) (by omega) hlist.chain hl
  have hsorted := hlist.sorted
  rw [hpair, List.pairwise_cons] at hsorted
  have hle := hsorted.1 _ (List.mem_singleton.mpr rfl)
  have hround := (roundmb_request (x := imageEnd) (by omega) (by omega)).2.2
  simp only [Extent.top_mk] at hle
  omega

/-- Whatever size the kernel image has, the free list that `meminit` builds is
not one the kernel can use. -/
theorem meminit_no_bootFreeList
    (hlink : LinkedBelow (bootHeap mem memlistAddr imageEnd) imageEnd) :
    ¬ ∃ l, BootFreeList (bootHeap mem memlistAddr imageEnd) imageEnd l := by
  obtain ⟨himage, hmax⟩ := linkedBelow_bootHeap hlink
  exact (bootHeap_blocks himage hmax).not_bootFreeList himage hmax
    bootHeap_minheap bootHeap_maxheap

end Meminit

/-- The addresses of the link map. -/
theorem linkedBelow_linkMap :
    LinkedBelow (bootHeap (fun _ => 0) 0x121C30 0x143000) 0x143000 := by
  refine ⟨by decide, ?_⟩
  rw [bootHeap_maxheap]
  decide

theorem meminit_no_bootFreeList_at_143000 :
    ¬ ∃ l, BootFreeList (bootHeap (fun _ => 0) 0x121C30 0x143000) 0x143000 l :=
  meminit_no_bootFreeList linkedBelow_linkMap

/-- The link map's own image refutes the intended list. -/
theorem meminit_straddles_image :
    ¬ ∀ (mem : Memory) (memlistAddr imageEnd : Word),
      LinkedBelow (bootHeap mem memlistAddr imageEnd) imageEnd →
        ∃ l, BootFreeList (bootHeap mem memlistAddr imageEnd) imageEnd l := by
  intro hall
  exact (bootHeap_blocks (by decide) (by decide)).not_bootFreeList (by decide)
    (by decide) bootHeap_minheap bootHeap_maxheap
    (hall _ _ _ linkedBelow_linkMap)

/-- The list of one block between the image and the null process's stack would
be in order, for every image that leaves room for it. -/
theorem singleBlock_bootFreeList
    (mem : Memory) {imageEnd : Word} (himage : 0x100000 < imageEnd.toNat)
    (hroom : imageEnd.toNat + 16 ≤ 0x1FFE000) :
    ∃ e, BootFreeList (singleBlockHeap e imageEnd 0x1FFFFFF mem) imageEnd
      [e] := by
  have hround := roundmb_toNat (x := imageEnd) (by omega)
  refine ⟨⟨(roundmb imageEnd).toNat, 0x1FFE000 - (roundmb imageEnd).toNat⟩, ?_⟩
  have hgran : Extent.Granular 8 ⟨(roundmb imageEnd).toNat,
      0x1FFE000 - (roundmb imageEnd).toNat⟩ := by
    constructor <;> simp only <;> omega
  have hval : (0x1FFFFFF : Word).toNat = 0x1FFFFFF := by decide
  have hin : Extent.Within imageEnd.toNat ((0x1FFFFFF : Word).toNat + 1)
      ⟨(roundmb imageEnd).toNat, 0x1FFE000 - (roundmb imageEnd).toNat⟩ := by
    unfold Extent.Within Extent.top
    simp only
    omega
  have hwf := singleBlockHeap_wellFormed mem hgran hin (by omega)
  have hstack : NULLSTK.toNat = 8192 := by decide
  have hphys : physbase.toNat = 0x100000 := by decide
  have hhole : HOLEEND.toNat = 0x100000 ∧ HOLESTART.toNat = 0xA0000 := by
    decide
  refine ⟨hwf.chain, List.pairwise_singleton _ _, hwf.granular, hwf.within,
    ?_, ?_, ?_⟩ <;>
    (intro e he
     rw [List.mem_singleton.mp he]
     simp only [Extent.Apart, Extent.top, kernelImage, memoryHole, nullStack,
       singleBlockHeap]
     omega)

end Xinu
