import Xinu.BootFreeList
import Xinu.PageTables

/-!
# The page-table area

The area starts where the identity map ends.  This file states what the frames
that `get_next_free_pt_frame` hands out would have to satisfy once paging is
on, and shows that the boot-time constants rule it out for every kernel image.
-/

namespace Xinu

open ByteMemory
open FreeExtents

/-- The frames that the next `count` calls hand out. -/
def ptFrames : ℕ → Paging → List Word
  | 0, _ => []
  | count + 1, s =>
      (getNextFreePtFrame s).2 :: ptFrames count (getNextFreePtFrame s).1

/-- Paging after `sysinit` has built the free list and called
`page_table_init`. -/
def bootedPaging (heap : Heap) : Paging := pageTableInit (bootPaging heap.mem)

/-- The frames handed out when `page_table_init`, which takes one frame for
the directory and one for each table, is followed by `count` more calls. -/
def handedOut (heap : Heap) (count : ℕ) : List Word :=
  ptFrames (1 + XINU_PAGE_DIRECTORY_LENGTH) (bootPaging heap.mem) ++
    ptFrames count (bootedPaging heap)

/-- A block that `getmem` or `getstk` can return. -/
def Allocatable (heap : Heap) (e : Extent) : Prop :=
  ∃ nbytes value heap', value ≠ SYSERR ∧
    (getmem nbytes heap = some (heap', value) ∧
        e = ⟨value.toNat, (roundmb nbytes).toNat⟩ ∨
      getstk nbytes heap = some (heap', value) ∧
        e = ⟨(value - roundmb nbytes + 4).toNat, (roundmb nbytes).toNat⟩)

def MappedWritable (s : Paging) (va : Word) : Prop :=
  ∃ mapping, pageWalk s.mem s.firstPageDirectory va = some mapping ∧
    mapping.writable = true

/-- The address is its own translation, for reading and writing. -/
def IdentityMapped (s : Paging) (va : Word) : Prop :=
  ∃ mapping, pageWalk s.mem s.firstPageDirectory va = some mapping ∧
    mapping.writable = true ∧ mapping.physical = va

def frameExtent (frame : Word) : Extent := ⟨frame.toNat, PAGE_SIZE.toNat⟩

/-- What the page-table area and the heap must satisfy once paging is on. -/
structure PageTableAreaSafe (heap : Heap) (count : ℕ) : Prop where
  distinct : (handedOut heap count).Nodup
  in_area : ∀ frame ∈ handedOut heap count, (frameExtent frame).Within
    PAGE_TABLE_AREA_START_ADDRESS.toNat
    (PAGE_TABLE_AREA_END_ADDRESS.toNat + 1)
  reachable : ∀ frame ∈ handedOut heap count, ∀ offset : Word,
    offset < PAGE_SIZE → IdentityMapped (bootedPaging heap) (frame + offset)
  off_heap : ∀ frame ∈ handedOut heap count, ∀ e, Allocatable heap e →
    (frameExtent frame).Apart e
  heap_mapped : ∀ e, Allocatable heap e → ∀ offset < e.len,
    MappedWritable (bootedPaging heap) (BitVec.ofNat 32 (e.base + offset))

/-! ## What holds and what does not -/

theorem not_mapped_of_area
    (heap : Heap) {va : Word} (hva : identityRange ≤ va.toNat) :
    pageWalk (bootedPaging heap).mem (bootedPaging heap).firstPageDirectory
      va = none := by
  unfold bootedPaging
  rw [pageTableInit_walk, if_neg (Nat.not_lt.mpr hva)]

theorem ptFrames_eq (count : ℕ) (s : Paging) :
    ptFrames count s = (List.range count).map fun k =>
      s.nextFreePtFrame + BitVec.ofNat 32 (4096 * k) := by
  induction count generalizing s with
  | zero => rfl
  | succ count ih =>
      have hfirst : s.nextFreePtFrame + BitVec.ofNat 32 (4096 * 0) =
          s.nextFreePtFrame := by simp
      have hstep : ∀ k, s.nextFreePtFrame + PAGE_SIZE +
          BitVec.ofNat 32 (4096 * k) =
            s.nextFreePtFrame + BitVec.ofNat 32 (4096 * (k + 1)) := by
        intro k
        have hsize : PAGE_SIZE = BitVec.ofNat 32 4096 := rfl
        rw [BitVec.add_assoc, hsize, ← BitVec.ofNat_add, Nat.mul_succ,
          Nat.add_comm 4096]
      rw [ptFrames, ih, List.range_succ_eq_map, List.map_cons, List.map_map,
        hfirst]
      refine congrArg (List.cons _) (List.map_congr_left fun k _ => ?_)
      exact hstep k

/-- The calls hand out consecutive frames from the start of the area. -/
theorem handedOut_eq (heap : Heap) (count : ℕ) :
    handedOut heap count = (List.range (9 + count)).map fun k =>
      PAGE_TABLE_AREA_START_ADDRESS + BitVec.ofNat 32 (4096 * k) := by
  have hnext : (bootedPaging heap).nextFreePtFrame =
      PAGE_TABLE_AREA_START_ADDRESS + BitVec.ofNat 32 (4096 * 9) :=
    (pageTableInit_built heap.mem).next
  unfold handedOut
  rw [ptFrames_eq, ptFrames_eq, hnext, @List.range_add 9 count,
    List.map_append, List.map_map]
  refine congrArg (List.append _) (List.map_congr_left fun k _ => ?_)
  rw [BitVec.add_assoc, ← BitVec.ofNat_add, Function.comp_apply, Nat.mul_add]

theorem directory_mem_handedOut (heap : Heap) (count : ℕ) :
    PAGE_TABLE_AREA_START_ADDRESS ∈ handedOut heap count := by
  rw [handedOut_eq, List.mem_map]
  exact ⟨0, by simp, by decide⟩

/-- No frame is handed out twice before the counter has gone round the address
space. -/
theorem handedOut_nodup
    (heap : Heap) {count : ℕ} (hcount : 9 + count ≤ 2 ^ 20) :
    (handedOut heap count).Nodup := by
  rw [handedOut_eq]
  refine List.Nodup.map_on ?_ List.nodup_range
  intro i hi k hk heq
  rw [List.mem_range] at hi hk
  have hval := (BitVec.add_right_inj _).mp heq
  have hnat := congrArg BitVec.toNat hval
  simp only [BitVec.toNat_ofNat] at hnat
  omega

/-- Frames stay in the area as long as the area has frames left; nothing stops
the counter there. -/
theorem handedOut_in_area_iff (heap : Heap) (count : ℕ) :
    (∀ frame ∈ handedOut heap count, (frameExtent frame).Within
      PAGE_TABLE_AREA_START_ADDRESS.toNat
      (PAGE_TABLE_AREA_END_ADDRESS.toNat + 1)) ↔ 9 + count ≤ 8192 := by
  have hstart : PAGE_TABLE_AREA_START_ADDRESS.toNat = 0x2000000 := by decide
  have hend : PAGE_TABLE_AREA_END_ADDRESS.toNat = 0x3FFFFFF := by decide
  have hsize : PAGE_SIZE.toNat = 4096 := by decide
  rw [handedOut_eq, hstart, hend]
  simp only [List.forall_mem_map, List.mem_range, Extent.Within, frameExtent,
    Extent.top_mk, hsize, BitVec.toNat_add, BitVec.toNat_ofNat, hstart]
  constructor
  · intro hall
    by_contra hmany
    have hlast := hall 8192 (by omega)
    omega
  · intro hfew k hk
    omega

/-- The first block of the boot heap reaches past the page directory. -/
theorem getmem_boot_over_directory
    {mem : Memory} {memlistAddr imageEnd : Word}
    (himage : 0x100000 < imageEnd.toNat) (hmax : imageEnd.toNat < 0x1FFFFFF) :
    Allocatable (bootHeap mem memlistAddr imageEnd)
      ⟨(roundmb imageEnd).toNat, 0x2000000⟩ := by
  have hblocks := @bootHeap_blocks mem memlistAddr imageEnd himage hmax
  have hround := roundmb_toNat (x := imageEnd) (by omega)
  have hlen : (truncmb (HOLESTART - imageEnd - 4)).toNat =
      (HOLESTART - imageEnd - 4).toNat / 8 * 8 := truncmb_toNat _
  have hstart : HOLESTART.toNat = 0xA0000 := by decide
  have hwrap : (HOLESTART - imageEnd - 4).toNat =
      2 ^ 32 + 0xA0000 - imageEnd.toNat - 4 := by
    bv_omega
  have hne : ¬ roundmb imageEnd = NULL := by
    intro heq
    rw [heq, show NULL.toNat = 0 from rfl] at hround
    omega
  have hsys : roundmb imageEnd ≠ SYSERR := by
    intro heq
    rw [heq, show SYSERR.toNat = 2 ^ 32 - 1 from rfl] at hround
    omega
  have hrequest : roundmb (0x2000000 : Word) = 0x2000000 := by decide
  have hfit : (0x2000000 : Word) < truncmb (HOLESTART - imageEnd - 4) := by
    rw [BitVec.lt_def, show (0x2000000 : Word).toNat = 0x2000000 from rfl]
    omega
  obtain ⟨fuel, hfuel⟩ : ∃ fuel, walkBound = fuel + 1 :=
    ⟨walkBound - 1, by decide⟩
  have hlonger : ¬ truncmb (HOLESTART - imageEnd - 4) = 0x2000000 := by
    intro heq
    rw [heq] at hfit
    exact absurd hfit (by decide)
  have hcall : ∃ heap', getmem 0x2000000
      (bootHeap mem memlistAddr imageEnd) =
        some (heap', roundmb imageEnd) := by
    unfold getmem
    rw [if_neg (by decide), hrequest, hblocks.head, hfuel, getmemLoop,
      if_neg hne, hblocks.length, if_neg hlonger, if_pos hfit]
    exact ⟨_, rfl⟩
  obtain ⟨heap', hget⟩ := hcall
  refine ⟨0x2000000, roundmb imageEnd, heap', hsys, Or.inl ⟨hget, ?_⟩⟩
  rw [hrequest]
  rfl

/-- So the heap can hand out the directory's own frame, and addresses that the
directory does not map. -/
theorem boot_heap_conflict
    {mem : Memory} {memlistAddr imageEnd : Word}
    (himage : 0x100000 < imageEnd.toNat) (hmax : imageEnd.toNat < 0x1FFFFFF) :
    ∃ e, Allocatable (bootHeap mem memlistAddr imageEnd) e ∧
      ¬ (frameExtent PAGE_TABLE_AREA_START_ADDRESS).Apart e ∧
        ∃ offset < e.len, ¬ MappedWritable
          (bootedPaging (bootHeap mem memlistAddr imageEnd))
            (BitVec.ofNat 32 (e.base + offset)) := by
  have hround := roundmb_toNat (x := imageEnd) (by omega)
  have hstart : PAGE_TABLE_AREA_START_ADDRESS.toNat = 0x2000000 := by decide
  have hsize : PAGE_SIZE.toNat = 4096 := by decide
  refine ⟨_, getmem_boot_over_directory himage hmax, ?_,
    0x2000000 - (roundmb imageEnd).toNat, ?_, ?_⟩
  · simp only [Extent.Apart, frameExtent, Extent.top_mk, hstart, hsize]
    omega
  · simp only
    omega
  · rintro ⟨mapping, hwalk, -⟩
    rw [not_mapped_of_area] at hwalk
    · exact absurd hwalk (by simp)
    · have hrange : identityRange = 0x2000000 := by decide
      simp only [BitVec.toNat_ofNat]
      omega

/-- For every kernel image and every number of calls, the page-table area is
not safe: the directory itself is outside the map it describes. -/
theorem pageTableArea_not_safe
    {mem : Memory} {memlistAddr imageEnd : Word} (count : ℕ) :
    ¬ PageTableAreaSafe (bootHeap mem memlistAddr imageEnd) count := by
  intro hsafe
  obtain ⟨mapping, hwalk, -⟩ := hsafe.reachable _
    (directory_mem_handedOut _ count) 0 (by decide)
  rw [not_mapped_of_area _ (by decide)] at hwalk
  exact absurd hwalk (by simp)

/-- The map that `page_table_init` installs does cover its own range. -/
theorem identityMapped_of_lt
    (heap : Heap) {va : Word} (hva : va.toNat < identityRange) :
    IdentityMapped (bootedPaging heap) va := by
  refine ⟨⟨va, true, false⟩, ?_, rfl, rfl⟩
  unfold bootedPaging
  rw [pageTableInit_walk, if_pos hva]

/-- With the link map's image and no call after `page_table_init`, the area is
already unsafe. -/
theorem pageTableArea_unsafe_at_boot :
    ¬ ∀ (mem : Memory) (memlistAddr imageEnd : Word) (count : ℕ),
      LinkedBelow (bootHeap mem memlistAddr imageEnd) imageEnd →
        PageTableAreaSafe (bootHeap mem memlistAddr imageEnd) count := by
  intro hall
  have hsafe := hall _ _ _ 0 linkedBelow_linkMap
  obtain ⟨mapping, hwalk, -⟩ := hsafe.reachable _
    (directory_mem_handedOut _ 0) 0 (by decide)
  rw [not_mapped_of_area _ (by decide)] at hwalk
  exact absurd hwalk (by simp)

end Xinu
