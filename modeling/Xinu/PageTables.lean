import Xinu.HeapAllocator

/-!
# Page directory and page tables

`page_table_init` takes frames from the page-table area and writes a page
directory and eight page tables into them.  The entries are C bit-fields: an
assignment to one field rewrites the word that holds it and keeps the other
fields.  The two-level walk of the processor reads the same words back.
-/

namespace Xinu

open ByteMemory

def PAGE_TABLE_AREA_START_ADDRESS : Word := 0x02000000

def PAGE_TABLE_AREA_END_ADDRESS : Word := 0x03FFFFFF

def XINU_PAGE_DIRECTORY_LENGTH : ℕ := 8

def PAGE_TABLE_ENTRIES : ℕ := 1024

/-! ## Entries -/

/-- `pd_t`: an entry of the page directory, lowest bits first. -/
@[ext]
structure PdT where
  pdPres : BitVec 1
  pdWrite : BitVec 1
  pdUser : BitVec 1
  pdPwt : BitVec 1
  pdPcd : BitVec 1
  pdAcc : BitVec 1
  pdMbz : BitVec 1
  pdFmb : BitVec 1
  pdGlobal : BitVec 1
  pdAvail : BitVec 3
  pdBase : BitVec 20
  deriving DecidableEq

/-- `pt_t`: an entry of a page table, lowest bits first. -/
@[ext]
structure PtT where
  ptPres : BitVec 1
  ptWrite : BitVec 1
  ptUser : BitVec 1
  ptPwt : BitVec 1
  ptPcd : BitVec 1
  ptAcc : BitVec 1
  ptDirty : BitVec 1
  ptMbz : BitVec 1
  ptGlobal : BitVec 1
  ptAvail : BitVec 3
  ptBase : BitVec 20
  deriving DecidableEq

/-- `virt_addr_t`. -/
structure VirtAddr where
  pgOffset : BitVec 12
  ptOffset : BitVec 10
  pdOffset : BitVec 10
  deriving DecidableEq

def PdT.ofWord (w : Word) : PdT where
  pdPres := w.extractLsb' 0 1
  pdWrite := w.extractLsb' 1 1
  pdUser := w.extractLsb' 2 1
  pdPwt := w.extractLsb' 3 1
  pdPcd := w.extractLsb' 4 1
  pdAcc := w.extractLsb' 5 1
  pdMbz := w.extractLsb' 6 1
  pdFmb := w.extractLsb' 7 1
  pdGlobal := w.extractLsb' 8 1
  pdAvail := w.extractLsb' 9 3
  pdBase := w.extractLsb' 12 20

def PdT.toWord (e : PdT) : Word :=
  e.pdBase ++ e.pdAvail ++ e.pdGlobal ++ e.pdFmb ++ e.pdMbz ++ e.pdAcc ++
    e.pdPcd ++ e.pdPwt ++ e.pdUser ++ e.pdWrite ++ e.pdPres

def PtT.ofWord (w : Word) : PtT where
  ptPres := w.extractLsb' 0 1
  ptWrite := w.extractLsb' 1 1
  ptUser := w.extractLsb' 2 1
  ptPwt := w.extractLsb' 3 1
  ptPcd := w.extractLsb' 4 1
  ptAcc := w.extractLsb' 5 1
  ptDirty := w.extractLsb' 6 1
  ptMbz := w.extractLsb' 7 1
  ptGlobal := w.extractLsb' 8 1
  ptAvail := w.extractLsb' 9 3
  ptBase := w.extractLsb' 12 20

def PtT.toWord (e : PtT) : Word :=
  e.ptBase ++ e.ptAvail ++ e.ptGlobal ++ e.ptMbz ++ e.ptDirty ++ e.ptAcc ++
    e.ptPcd ++ e.ptPwt ++ e.ptUser ++ e.ptWrite ++ e.ptPres

def VirtAddr.ofWord (w : Word) : VirtAddr where
  pgOffset := w.extractLsb' 0 12
  ptOffset := w.extractLsb' 12 10
  pdOffset := w.extractLsb' 22 10

def VirtAddr.toWord (a : VirtAddr) : Word :=
  a.pdOffset ++ a.ptOffset ++ a.pgOffset

@[simp] theorem PdT.ofWord_toWord (e : PdT) : PdT.ofWord e.toWord = e := by
  unfold PdT.ofWord PdT.toWord
  simp (disch := decide) only [field_of_low, field_of_high,
    BitVec.extractLsb'_eq_self, Nat.reduceSub]

@[simp] theorem PtT.ofWord_toWord (e : PtT) : PtT.ofWord e.toWord = e := by
  unfold PtT.ofWord PtT.toWord
  simp (disch := decide) only [field_of_low, field_of_high,
    BitVec.extractLsb'_eq_self, Nat.reduceSub]

/-- Assign to fields of the directory entry at `addr`. -/
def updatePd (addr : Word) (f : PdT → PdT) (mem : Memory) : Memory :=
  write32 mem addr (f (PdT.ofWord (read32 mem addr))).toWord

/-- Assign to fields of the page-table entry at `addr`. -/
def updatePt (addr : Word) (f : PtT → PtT) (mem : Memory) : Memory :=
  write32 mem addr (f (PtT.ofWord (read32 mem addr))).toWord

/-! ## helper_functions.c -/

/-- Physical memory with the two variables of the frame allocator. -/
structure Paging where
  mem : Memory
  nextFreePtFrame : Word
  firstPageDirectory : Word

def getNextFreePtFrame (s : Paging) : Paging × Word :=
  ({ s with nextFreePtFrame := s.nextFreePtFrame + PAGE_SIZE },
    s.nextFreePtFrame)

/-- The body of the inner loop. -/
def setPtEntry (pageTable : Word) (pdIndex ptIndex : ℕ) (mem : Memory) :
    Memory :=
  let phyFrame := BitVec.ofNat 32 (pdIndex * 1024 + ptIndex) * PAGE_SIZE
  let entry := pageTable + BitVec.ofNat 32 (4 * ptIndex)
  let mem := updatePt entry (fun e => { e with ptPres := 1 }) mem
  let mem := updatePt entry (fun e => { e with ptWrite := 1 }) mem
  let mem := updatePt entry (fun e => { e with ptUser := 0 }) mem
  updatePt entry
    (fun e => { e with ptBase := (phyFrame >>> 12).setWidth 20 }) mem

/-- The first `count` rounds of the inner loop. -/
def fillPageTable (pageTable : Word) (pdIndex : ℕ) : ℕ → Memory → Memory
  | 0, mem => mem
  | count + 1, mem =>
      setPtEntry pageTable pdIndex count
        (fillPageTable pageTable pdIndex count mem)

/-- The assignments to a directory entry. -/
def setPdEntry (pdbr pageTable : Word) (pdIndex : ℕ) (mem : Memory) :
    Memory :=
  let entry := pdbr + BitVec.ofNat 32 (4 * pdIndex)
  let mem := updatePd entry (fun e => { e with pdPres := 1 }) mem
  let mem := updatePd entry (fun e => { e with pdWrite := 1 }) mem
  let mem := updatePd entry (fun e => { e with pdUser := 0 }) mem
  updatePd entry
    (fun e => { e with pdBase := (pageTable >>> 12).setWidth 20 }) mem

/-- The body of the outer loop. -/
def addPageTable (pdbr : Word) (pdIndex : ℕ) (s : Paging) : Paging :=
  let (s, pageTable) := getNextFreePtFrame s
  let mem := memset s.mem pageTable 0 PAGE_SIZE.toNat
  let mem := setPdEntry pdbr pageTable pdIndex mem
  { s with mem := fillPageTable pageTable pdIndex PAGE_TABLE_ENTRIES mem }

/-- The first `count` rounds of the outer loop. -/
def addPageTables (pdbr : Word) : ℕ → Paging → Paging
  | 0, s => s
  | count + 1, s => addPageTable pdbr count (addPageTables pdbr count s)

def pageTableInit (s : Paging) : Paging :=
  let (s, pdbr) := getNextFreePtFrame s
  let s := { s with mem := memset s.mem pdbr 0 PAGE_SIZE.toNat }
  let s := { s with firstPageDirectory := pdbr }
  addPageTables pdbr XINU_PAGE_DIRECTORY_LENGTH s

/-- Physical memory at boot, when the allocator's variables still have their
initial values. -/
def bootPaging (mem : Memory) : Paging :=
  ⟨mem, PAGE_TABLE_AREA_START_ADDRESS, 0⟩

/-! ## The page walk -/

/-- A translation: the physical address and the rights of the page. -/
structure Mapping where
  physical : Word
  writable : Bool
  user : Bool
  deriving DecidableEq, Repr

/-- The processor's walk from the directory that `cr3` names; `none` is an
entry that is not present. -/
def pageWalk (mem : Memory) (cr3 va : Word) : Option Mapping :=
  let addr := VirtAddr.ofWord va
  let pd := PdT.ofWord (read32 mem
    ((cr3 &&& 0xFFFFF000) + 4 * addr.pdOffset.setWidth 32))
  if pd.pdPres = 0 then
    none
  else
    let pt := PtT.ofWord (read32 mem
      ((pd.pdBase ++ (0 : BitVec 12)) + 4 * addr.ptOffset.setWidth 32))
    if pt.ptPres = 0 then
      none
    else
      some ⟨pt.ptBase ++ addr.pgOffset, pd.pdWrite = 1 && pt.ptWrite = 1,
        pd.pdUser = 1 && pt.ptUser = 1⟩

/-! ## What the loops write -/

theorem updatePt_updatePt (addr : Word) (f g : PtT → PtT) (mem : Memory) :
    updatePt addr g (updatePt addr f mem) = updatePt addr (g ∘ f) mem := by
  funext query
  unfold updatePt
  rw [read32_write32_self, PtT.ofWord_toWord]
  unfold write32
  split_ifs <;> rfl

theorem updatePd_updatePd (addr : Word) (f g : PdT → PdT) (mem : Memory) :
    updatePd addr g (updatePd addr f mem) = updatePd addr (g ∘ f) mem := by
  funext query
  unfold updatePd
  rw [read32_write32_self, PdT.ofWord_toWord]
  unfold write32
  split_ifs <;> rfl

/-- A zeroed entry after the four assignments. -/
def identityPt (frame : BitVec 20) : PtT :=
  { PtT.ofWord 0 with ptPres := 1, ptWrite := 1, ptUser := 0, ptBase := frame }

def presentPd (table : BitVec 20) : PdT :=
  { PdT.ofWord 0 with pdPres := 1, pdWrite := 1, pdUser := 0, pdBase := table }

theorem setPtEntry_of_zero
    {pageTable : Word} {pdIndex ptIndex : ℕ} {mem : Memory}
    (hzero : read32 mem (pageTable + BitVec.ofNat 32 (4 * ptIndex)) = 0) :
    setPtEntry pageTable pdIndex ptIndex mem =
      write32 mem (pageTable + BitVec.ofNat 32 (4 * ptIndex))
        (identityPt (((BitVec.ofNat 32 (pdIndex * 1024 + ptIndex) *
          PAGE_SIZE) >>> 12).setWidth 20)).toWord := by
  unfold setPtEntry
  simp only [updatePt_updatePt]
  unfold updatePt
  rw [hzero]
  rfl

theorem setPdEntry_of_zero
    {pdbr pageTable : Word} {pdIndex : ℕ} {mem : Memory}
    (hzero : read32 mem (pdbr + BitVec.ofNat 32 (4 * pdIndex)) = 0) :
    setPdEntry pdbr pageTable pdIndex mem =
      write32 mem (pdbr + BitVec.ofNat 32 (4 * pdIndex))
        (presentPd ((pageTable >>> 12).setWidth 20)).toWord := by
  unfold setPdEntry
  simp only [updatePd_updatePd]
  unfold updatePd
  rw [hzero]
  rfl

/-! ## Words of a frame -/

/-- The address of a 32-bit entry in a frame. -/
def slot (frame index : ℕ) : Word := BitVec.ofNat 32 (4096 * frame + 4 * index)

/-- A frame of the address space and an entry of it. -/
def SlotOk (frame index : ℕ) : Prop := frame < 2 ^ 20 ∧ index < 1024

theorem slot_toNat {frame index : ℕ} (hok : SlotOk frame index) :
    (slot frame index).toNat = 4096 * frame + 4 * index := by
  unfold SlotOk at hok
  simp only [slot, BitVec.toNat_ofNat]
  omega

theorem slot_add (frame index : ℕ) :
    slot frame 0 + BitVec.ofNat 32 (4 * index) = slot frame index := by
  unfold slot
  rw [← BitVec.ofNat_add]
  rfl

theorem read32_write32_slot
    {mem : Memory} {f i g k : ℕ} (value : Word)
    (hfi : SlotOk f i) (hgk : SlotOk g k) :
    read32 (write32 mem (slot f i) value) (slot g k) =
      if g = f ∧ k = i then value else read32 mem (slot g k) := by
  have hfi' := slot_toNat hfi
  have hgk' := slot_toNat hgk
  have heq : slot g k = slot f i ↔ g = f ∧ k = i := by
    rw [← BitVec.toNat_inj, hfi', hgk']
    unfold SlotOk at hfi hgk
    omega
  rw [read32_write32_aligned mem value]
  · simp only [heq]
  · unfold Aligned
    omega
  · unfold Aligned
    omega

theorem read32_memset_slot
    {mem : Memory} {f g k : ℕ} (hf : f < 2 ^ 20) (hgk : SlotOk g k) :
    read32 (memset mem (slot f 0) 0 PAGE_SIZE.toNat) (slot g k) =
      if g = f then 0 else read32 mem (slot g k) := by
  have hbase := slot_toNat (show SlotOk f 0 from ⟨hf, by decide⟩)
  have hgk' := slot_toNat hgk
  have hsize : PAGE_SIZE.toNat = 4096 := by decide
  unfold SlotOk at hgk
  rw [hsize]
  by_cases heq : g = f
  · rw [if_pos heq]
    apply read32_memset_inside
    bv_omega
  · rw [if_neg heq]
    apply read32_memset_outside <;> bv_omega

theorem frame_of_index (n : ℕ) :
    ((BitVec.ofNat 32 n * PAGE_SIZE) >>> 12).setWidth 20 =
      BitVec.ofNat 20 n := by
  apply BitVec.eq_of_toNat_eq
  have hsize : PAGE_SIZE.toNat = 4096 := by decide
  simp only [BitVec.toNat_setWidth, BitVec.toNat_ushiftRight,
    BitVec.toNat_mul, BitVec.toNat_ofNat, hsize, Nat.shiftRight_eq_div_pow]
  omega

theorem frame_of_slot (f : ℕ) :
    ((slot f 0) >>> 12).setWidth 20 = BitVec.ofNat 20 f := by
  apply BitVec.eq_of_toNat_eq
  simp only [slot, BitVec.toNat_setWidth, BitVec.toNat_ushiftRight,
    BitVec.toNat_ofNat, Nat.shiftRight_eq_div_pow]
  omega

/-! ## What the tables hold -/

/-- After `count` rounds the inner loop has written that many entries. -/
theorem fillPageTable_read
    {mem : Memory} {f pdIndex count : ℕ} (hf : f < 2 ^ 20)
    (hcount : count ≤ 1024)
    (hzero : ∀ i < 1024, read32 mem (slot f i) = 0)
    {g k : ℕ} (hgk : SlotOk g k) :
    read32 (fillPageTable (slot f 0) pdIndex count mem) (slot g k) =
      if g = f ∧ k < count then
        (identityPt (BitVec.ofNat 20 (pdIndex * 1024 + k))).toWord
      else read32 mem (slot g k) := by
  induction count generalizing g k with
  | zero => simp [fillPageTable]
  | succ count ih =>
      have hself : SlotOk f count := ⟨hf, by omega⟩
      have hnext : read32 (fillPageTable (slot f 0) pdIndex count mem)
          (slot f 0 + BitVec.ofNat 32 (4 * count)) = 0 := by
        rw [slot_add, ih (by omega) hself, if_neg (by omega)]
        exact hzero count (by omega)
      rw [fillPageTable, setPtEntry_of_zero hnext, slot_add,
        read32_write32_slot _ hself hgk, frame_of_index,
        ih (by omega) hgk]
      by_cases hlast : g = f ∧ k = count
      · rw [if_pos hlast, if_pos ⟨hlast.1, by omega⟩, hlast.2]
      · rw [if_neg hlast]
        congr 1
        apply propext
        omega

/-- The frame of the page directory, and those of the tables after it. -/
def directoryFrame : ℕ := 0x2000

def tableFrame (pdIndex : ℕ) : ℕ := directoryFrame + 1 + pdIndex

/-- The word at an entry once `count` page tables have been added. -/
def tableWord (count : ℕ) (mem : Memory) (frame index : ℕ) : Word :=
  if frame = directoryFrame then
    if index < count then
      (presentPd (BitVec.ofNat 20 (tableFrame index))).toWord
    else 0
  else if directoryFrame < frame ∧ frame < tableFrame count then
    (identityPt (BitVec.ofNat 20
      ((frame - tableFrame 0) * 1024 + index))).toWord
  else read32 mem (slot frame index)

/-- One more page table: its own entries and one of the directory's. -/
theorem tableWord_succ (mem : Memory) (count : ℕ) {g k : ℕ} (hk : k < 1024) :
    tableWord (count + 1) mem g k =
      if g = tableFrame count ∧ k < PAGE_TABLE_ENTRIES then
        (identityPt (BitVec.ofNat 20 (count * 1024 + k))).toWord
      else if g = directoryFrame ∧ k = count then
        (presentPd (BitVec.ofNat 20 (tableFrame count))).toWord
      else if g = tableFrame count then 0
      else tableWord count mem g k := by
  have hentries : k < PAGE_TABLE_ENTRIES := hk
  have hframe : tableFrame count = directoryFrame + 1 + count := rfl
  have hfirst : tableFrame 0 = directoryFrame + 1 := rfl
  have hlast : tableFrame (count + 1) = directoryFrame + 1 + count + 1 := rfl
  by_cases hnew : g = tableFrame count
  · have hindex : g - tableFrame 0 = count := by omega
    rw [if_pos ⟨hnew, hentries⟩]
    unfold tableWord
    rw [if_neg (by omega), if_pos (by omega), hindex]
  · rw [if_neg fun h => hnew h.1, if_neg hnew]
    by_cases hdir : g = directoryFrame
    · by_cases hk' : k = count
      · rw [if_pos ⟨hdir, hk'⟩]
        unfold tableWord
        rw [if_pos hdir, if_pos (by omega), hk']
      · rw [if_neg fun h => hk' h.2]
        unfold tableWord
        rw [if_pos hdir, if_pos hdir]
        congr 1
        apply propext
        omega
    · rw [if_neg fun h => hdir h.1]
      unfold tableWord
      rw [if_neg hdir, if_neg hdir]
      congr 1
      apply propext
      omega

/-- What holds after `count` rounds of the outer loop. -/
structure TablesBuilt (mem : Memory) (count : ℕ) (s : Paging) : Prop where
  next : s.nextFreePtFrame = slot (tableFrame count) 0
  directory : s.firstPageDirectory = slot directoryFrame 0
  words : ∀ {frame index : ℕ}, SlotOk frame index →
    read32 s.mem (slot frame index) = tableWord count mem frame index

theorem TablesBuilt.addPageTable
    {mem : Memory} {count : ℕ} {s : Paging} (hs : TablesBuilt mem count s)
    (hcount : count < 1024) :
    TablesBuilt mem (count + 1)
      (addPageTable (slot directoryFrame 0) count s) := by
  have hf : tableFrame count < 2 ^ 20 := by
    unfold tableFrame directoryFrame
    omega
  have hne : directoryFrame ≠ tableFrame count := by
    unfold tableFrame
    omega
  have hentry : SlotOk directoryFrame count := ⟨by decide, hcount⟩
  have hclear : read32 (memset s.mem (slot (tableFrame count) 0) 0
      PAGE_SIZE.toNat) (slot directoryFrame 0 + BitVec.ofNat 32 (4 * count)) =
        0 := by
    rw [slot_add, read32_memset_slot hf hentry, if_neg hne, hs.words hentry]
    unfold tableWord
    rw [if_pos rfl, if_neg (by omega)]
  refine ⟨?_, hs.directory, ?_⟩
  · show s.nextFreePtFrame + PAGE_SIZE = _
    rw [hs.next]
    have hstep : PAGE_SIZE = BitVec.ofNat 32 (4 * 1024) := rfl
    unfold slot
    rw [hstep, ← BitVec.ofNat_add]
    congr 1
  · intro g k hgk
    have hg : g < 2 ^ 20 := hgk.1
    have hk : k < 1024 := hgk.2
    show read32 (fillPageTable s.nextFreePtFrame count PAGE_TABLE_ENTRIES
      (setPdEntry (slot directoryFrame 0) s.nextFreePtFrame count
        (memset s.mem s.nextFreePtFrame 0 PAGE_SIZE.toNat))) (slot g k) = _
    rw [hs.next, setPdEntry_of_zero hclear, slot_add, frame_of_slot,
      fillPageTable_read hf (by decide) ?_ hgk,
      read32_write32_slot _ hentry hgk, read32_memset_slot hf hgk,
      hs.words hgk]
    · exact (tableWord_succ mem count hk).symm
    · intro i hi
      rw [read32_write32_slot _ hentry ⟨hf, hi⟩, if_neg (by omega),
        read32_memset_slot hf ⟨hf, hi⟩, if_pos rfl]

theorem addPageTables_built
    {mem : Memory} {s : Paging} (hs : TablesBuilt mem 0 s) {count : ℕ}
    (hcount : count ≤ 1024) :
    TablesBuilt mem count (addPageTables (slot directoryFrame 0) count s) := by
  induction count with
  | zero => exact hs
  | succ count ih => exact (ih (by omega)).addPageTable (by omega)

/-- Whatever memory held before, `page_table_init` leaves a directory of eight
tables and nothing else in the directory. -/
theorem pageTableInit_built (mem : Memory) :
    TablesBuilt mem XINU_PAGE_DIRECTORY_LENGTH
      (pageTableInit (bootPaging mem)) := by
  have hstart : slot directoryFrame 0 = PAGE_TABLE_AREA_START_ADDRESS := by
    decide
  unfold pageTableInit getNextFreePtFrame bootPaging
  simp only
  rw [← hstart]
  apply addPageTables_built _ (by decide)
  refine ⟨?_, rfl, ?_⟩
  · show slot directoryFrame 0 + PAGE_SIZE = slot (tableFrame 0) 0
    decide
  intro g k hgk
  simp only
  rw [read32_memset_slot (by decide) hgk]
  unfold tableWord
  split_ifs with hdir
  · omega
  · rfl
  · unfold tableFrame at *
    omega
  · rfl

/-! ## The walk after page_table_init -/

theorem VirtAddr.ofWord_toNat (va : Word) :
    (VirtAddr.ofWord va).pdOffset.toNat = va.toNat / 2 ^ 22 ∧
      (VirtAddr.ofWord va).ptOffset.toNat = va.toNat / 2 ^ 12 % 2 ^ 10 ∧
        (VirtAddr.ofWord va).pgOffset.toNat = va.toNat % 2 ^ 12 := by
  have hva := va.isLt
  simp only [VirtAddr.ofWord, BitVec.extractLsb'_toNat,
    Nat.shiftRight_eq_div_pow]
  refine ⟨?_, trivial, ?_⟩ <;> omega

/-- An entry address as the processor forms it. -/
theorem entry_slot (frame : ℕ) (index : BitVec 10) :
    slot frame 0 + 4 * index.setWidth 32 = slot frame index.toNat := by
  have hindex := index.isLt
  apply BitVec.eq_of_toNat_eq
  simp only [slot, BitVec.toNat_add, BitVec.toNat_mul, BitVec.toNat_ofNat,
    BitVec.toNat_setWidth, show (4 : Word).toNat = 4 from rfl]
  omega

theorem base_slot (frame : ℕ) :
    BitVec.ofNat 20 frame ++ (0 : BitVec 12) = slot frame 0 := by
  apply BitVec.eq_of_toNat_eq
  rw [BitVec.toNat_append, ← Nat.shiftLeft_add_eq_or_of_lt (by decide)]
  simp only [slot, BitVec.toNat_ofNat, Nat.shiftLeft_eq,
    show (0 : BitVec 12).toNat = 0 from rfl]
  omega

theorem base_offset
    {frame : ℕ} (hframe : frame < 2 ^ 20) (offset : BitVec 12) :
    (BitVec.ofNat 20 frame ++ offset : Word).toNat =
      4096 * frame + offset.toNat := by
  rw [BitVec.toNat_append, ← Nat.shiftLeft_add_eq_or_of_lt offset.isLt]
  simp only [BitVec.toNat_ofNat, Nat.shiftLeft_eq]
  omega

/-- The addresses that the eight page tables map. -/
def identityRange : ℕ := XINU_PAGE_DIRECTORY_LENGTH * PAGE_TABLE_ENTRIES * 4096

/-- After `page_table_init` every address below the identity range is mapped
to itself, writable and for the supervisor only, and no other address is
mapped, whatever memory held before. -/
theorem pageTableInit_walk (mem : Memory) (va : Word) :
    pageWalk (pageTableInit (bootPaging mem)).mem
        (pageTableInit (bootPaging mem)).firstPageDirectory va =
      if va.toNat < identityRange then some ⟨va, true, false⟩ else none := by
  have hbuilt := pageTableInit_built mem
  obtain ⟨hpd, hpt, hpg⟩ := VirtAddr.ofWord_toNat va
  have hva := va.isLt
  have hlength : XINU_PAGE_DIRECTORY_LENGTH = 8 := rfl
  have hrange : identityRange = 8 * 2 ^ 22 := by decide
  have hdirSlot : SlotOk directoryFrame (VirtAddr.ofWord va).pdOffset.toNat :=
    ⟨by decide, by omega⟩
  have hcr3 : slot directoryFrame 0 &&& 0xFFFFF000 = slot directoryFrame 0 := by
    decide
  have hpdWord : read32 (pageTableInit (bootPaging mem)).mem
      (((pageTableInit (bootPaging mem)).firstPageDirectory &&& 0xFFFFF000) +
        4 * (VirtAddr.ofWord va).pdOffset.setWidth 32) =
      tableWord 8 mem directoryFrame (VirtAddr.ofWord va).pdOffset.toNat := by
    rw [hbuilt.directory, hcr3, entry_slot, hbuilt.words hdirSlot]
    rfl
  by_cases hlow : (VirtAddr.ofWord va).pdOffset.toNat < 8
  · have hframe : tableFrame (VirtAddr.ofWord va).pdOffset.toNat < 2 ^ 20 := by
      unfold tableFrame directoryFrame
      omega
    have hpdEntry : tableWord 8 mem directoryFrame
        (VirtAddr.ofWord va).pdOffset.toNat = (presentPd (BitVec.ofNat 20
          (tableFrame (VirtAddr.ofWord va).pdOffset.toNat))).toWord := by
      unfold tableWord
      rw [if_pos rfl, if_pos hlow]
    have hptWord : read32 (pageTableInit (bootPaging mem)).mem
        ((BitVec.ofNat 20 (tableFrame (VirtAddr.ofWord va).pdOffset.toNat) ++
          (0 : BitVec 12)) + 4 * (VirtAddr.ofWord va).ptOffset.setWidth 32) =
        (identityPt (BitVec.ofNat 20 (va.toNat / 2 ^ 12))).toWord := by
      rw [base_slot, entry_slot, hbuilt.words ⟨hframe, by omega⟩]
      have hindex : (tableFrame (VirtAddr.ofWord va).pdOffset.toNat -
          tableFrame 0) * 1024 + (VirtAddr.ofWord va).ptOffset.toNat =
            va.toNat / 2 ^ 12 := by
        unfold tableFrame
        omega
      unfold tableWord
      rw [if_neg (by unfold tableFrame; omega),
        if_pos (by unfold tableFrame; omega), hindex]
    have hphys : (BitVec.ofNat 20 (va.toNat / 2 ^ 12) ++
        (VirtAddr.ofWord va).pgOffset : Word) = va := by
      apply BitVec.eq_of_toNat_eq
      rw [base_offset (by omega)]
      omega
    rw [if_pos (by omega)]
    unfold pageWalk
    simp only [hpdWord, hpdEntry, PdT.ofWord_toWord, presentPd, hptWord,
      PtT.ofWord_toWord, identityPt, hphys]
    rfl
  · have hpdEntry : tableWord 8 mem directoryFrame
        (VirtAddr.ofWord va).pdOffset.toNat = 0 := by
      unfold tableWord
      rw [if_pos rfl, if_neg hlow]
    rw [if_neg (by omega)]
    unfold pageWalk
    simp only [hpdWord, hpdEntry]
    rfl

end Xinu
