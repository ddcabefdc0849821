import Xinu.LocalFiles
import Xinu.NullLists

/-!
# Formatting a disk for the local file system

`lfscreate` and `lfsckfmt`, over the sectors of the disk.  A sector is taken
as its 128 words, since every field of the directory, of an index block and of
a free data block is a word.  Each transfer can fail.
-/

namespace Xinu.DiskFormat

open ByteMemory LinkedTable LocalFiles

/-- The number of devices in conf.h. -/
def NDEVS : ℤ := 24

def isbaddev (f : ℤ) : Prop := f < 0 ∨ NDEVS ≤ f

instance (f : ℤ) : Decidable (isbaddev f) := inferInstanceAs (Decidable (_ ∨ _))

abbrev Sector := ℕ → Word

/-- A disk, the results of its next transfers and the sectors written. -/
structure Media where
  sectors : ℤ → Sector
  results : ℕ → Bool
  written : List ℤ

namespace Media

variable (m : Media)

def next : Media := { m with results := fun n => m.results (n + 1) }

def write (blk : ℤ) (buff : Sector) : Media :=
  let sectors := if m.results 0 then Function.update m.sectors blk buff
    else m.sectors
  { m.next with sectors := sectors, written := m.written ++ [blk] }

def read (blk : ℤ) : Option Sector :=
  if m.results 0 then some (m.sectors blk) else none

end Media

/-! ## Index blocks -/

def iblockWords : ℕ := 18

def ib2sect (ib : ℤ) : ℤ := ib.tdiv 7 + 1

/-- `ib2disp`, in words. -/
def ib2disp (ib : ℤ) : ℕ := (ib.tmod 7 * iblockWords).toNat

def lfibget (sectors : ℤ → Sector) (inum : ℤ) : Sector := fun w =>
  sectors (ib2sect inum) (ib2disp inum + w)

/-- Copy an index block into place in its sector. -/
def placeIndex (inum : ℤ) (ibuff dbuff : Sector) : Sector := fun w =>
  if ib2disp inum ≤ w ∧ w < ib2disp inum + iblockWords then
    ibuff (w - ib2disp inum)
  else dbuff w

def lfibput (m : Media) (inum : ℤ) (ibuff : Sector) : Media :=
  match m.read (ib2sect inum) with
  | none => m.next
  | some dbuff => m.next.write (ib2sect inum) (placeIndex inum ibuff dbuff)

/-- An index block after `lfibclear`, with `ib_next`. -/
def clearIndex (next : ℤ) : Sector := fun w =>
  if w = 0 then BitVec.ofInt 32 next else if w = 1 then 0 else -1

/-! ## lfscreate.c -/

/-- The initial directory. -/
def directory (dfree : Word) : Sector := fun w =>
  if w = 0 then LFS_ID
  else if w = 3 then 0xFFFFFFFF
  else if w = 4 then dfree
  else if w = 127 then LFS_REVID
  else 0

/-- A data block on the free list. -/
def freeBlock (nextdb : Word) : Sector := fun w => if w = 0 then nextdb else 0

def sectorsOf (dsiz : Word) : Word := dsiz / 512

/-- Seven index blocks are in each sector; the sum is unsigned. -/
def ibsectorsOf (lfiblks : Word) : Word := (lfiblks + (7 - 1)) / 7

/-- The loop over the index blocks from `i` on, and the last one. -/
def indexLoop : ℕ → ℕ → Media → Media
  | 0, i, m => lfibput m i (clearIndex LF_INULL)
  | n + 1, i, m => indexLoop n (i + 1) (lfibput m i (clearIndex (i + 1)))

/-- The loop over the data blocks from `dbindex` on, and the last one. -/
def dataLoop : ℕ → Word → Media → Media
  | 0, dbindex, m => m.write dbindex.toInt (freeBlock (BitVec.ofInt 32 LF_DNULL))
  | n + 1, dbindex, m =>
      dataLoop n (dbindex + 1) (m.write dbindex.toInt (freeBlock (dbindex + 1)))

/-- The disk after the directory has been written.  The comparison in the
first loop is signed and that in the second is unsigned. -/
def format (m : Media) (ibsectors sectors : Word) : Media :=
  let dbindex := ibsectors + 1
  let lfiblks := ibsectors * 7
  let dblks := sectors - ibsectors - 1
  let m := indexLoop (lfiblks - 1).toInt.toNat 0 m
  dataLoop (dblks - 1).toNat dbindex m

def lfscreate (fs : Lfs) (m : Media) (disk : ℤ) (lfiblks dsiz : Word) :
    Lfs × Media × Word :=
  if isbaddev disk ∨ 0 ≤ fs.lf_dskdev then (fs, m, SYSERR)
  else
    let fs := { fs with lf_dskdev := disk }
    let sectors := sectorsOf dsiz
    let ibsectors := ibsectorsOf lfiblks
    if sectors / 2 < ibsectors then (fs, m, SYSERR)
    else
      let written := m.write 0 (directory (ibsectors + 1))
      if m.results 0 then (fs, format written ibsectors sectors, OK)
      else (fs, written, SYSERR)

/-! ## lfsckfmt.c -/

/-- The successor on the list of free index blocks. -/
def nextib (sectors : ℤ → Sector) (inum : ℤ) : ℤ := (lfibget sectors inum 0).toInt

/-- The successor on the list of free data blocks. -/
def nextdb (sectors : ℤ → Sector) (dnum : ℤ) : ℤ := (sectors dnum 0).toInt

def lfdIfree (sectors : ℤ → Sector) : ℤ := (sectors 0 5).toInt

def lfdDfree (sectors : ℤ → Sector) : ℤ := (sectors 0 4).toInt

/-- `while (p != null) { count++; p = follow(p); }` -/
def countLoop (follow : ℤ → ℤ) (null : ℤ) : ℕ → ℕ → ℤ → Option ℕ
  | 0, _, _ => none
  | budget + 1, count, p =>
      if p = null then some count
      else countLoop follow null budget (count + 1) (follow p)

def lfscheck (dir : Sector) : Bool :=
  dir 0 = LFS_ID && dir 2 = 0 && dir 3 = 0xFFFFFFFF && dir 127 = LFS_REVID &&
    0 ≤ (dir 6).toInt

/-- The numbers that `lfsckfmt` prints: index blocks, their sectors and data
blocks.  It panics without a file system. -/
def lfsckfmt (budget : ℕ) (sectors : ℤ → Sector) : Option (ℕ × ℕ × ℕ) :=
  if lfscheck (sectors 0) then
    (countLoop (nextib sectors) LF_INULL budget 0 (lfdIfree sectors)).bind
      fun lfiblks =>
        (countLoop (nextdb sectors) LF_DNULL budget 0 (lfdDfree sectors)).map
          fun dblks => (lfiblks, (lfiblks + 6) / 7, dblks)
  else none

/-! ## What formatting should leave -/

/-- The two free lists over disjoint areas, and the counts of `lfsckfmt`. -/
structure Formatted (ibsectors sectors : ℕ) (m : Media) : Prop where
  inside : ∀ blk ∈ m.written, 0 ≤ blk ∧ blk < sectors
  index : ∃ l : List ℤ, LinkedTable.Chain LF_INULL (nextib m.sectors) 0 l ∧
    l.Perm ((List.range (7 * ibsectors)).map Nat.cast) ∧
    ∀ inum ∈ l, 1 ≤ ib2sect inum ∧ ib2sect inum ≤ ibsectors
  first : lfdIfree m.sectors = 0
  data : ∃ l : List ℤ,
    LinkedTable.Chain LF_DNULL (nextdb m.sectors) (lfdDfree m.sectors) l ∧
    l.Perm ((List.range' (ibsectors + 1) (sectors - ibsectors - 1)).map
      Nat.cast)
  counts : ∃ budget, lfsckfmt budget m.sectors =
    some (7 * ibsectors, ibsectors, sectors - ibsectors - 1)

/-! ## Transfers that succeed -/

def Works (m : Media) : Prop := ∀ n, m.results n = true

section Transfers

variable {m : Media}

theorem Works.write (h : Works m) (blk : ℤ) (buff : Sector) :
    Works (m.write blk buff) :=
  fun n => h (n + 1)

theorem sectors_write (h : Works m) (blk : ℤ) (buff : Sector) :
    (m.write blk buff).sectors = Function.update m.sectors blk buff := by
  simp [Media.write, h 0]

theorem written_write (m : Media) (blk : ℤ) (buff : Sector) :
    (m.write blk buff).written = m.written ++ [blk] :=
  rfl

theorem lfibput_eq (h : Works m) (inum : ℤ) (ibuff : Sector) :
    lfibput m inum ibuff = m.next.write (ib2sect inum)
      (placeIndex inum ibuff (m.sectors (ib2sect inum))) := by
  simp [lfibput, Media.read, h 0]

theorem Works.lfibput (h : Works m) (inum : ℤ) (ibuff : Sector) :
    Works (lfibput m inum ibuff) := by
  rw [lfibput_eq h]
  apply Works.write
  exact fun n => h (n + 1)

theorem written_lfibput (h : Works m) (inum : ℤ) (ibuff : Sector) :
    (lfibput m inum ibuff).written = m.written ++ [ib2sect inum] := by
  rw [lfibput_eq h]
  rfl

theorem sectors_lfibput (h : Works m) (inum : ℤ) (ibuff : Sector) :
    (lfibput m inum ibuff).sectors =
      Function.update m.sectors (ib2sect inum)
        (placeIndex inum ibuff (m.sectors (ib2sect inum))) := by
  rw [lfibput_eq h]
  apply sectors_write
  exact fun n => h (n + 1)

theorem ib2sect_natCast (i : ℕ) : ib2sect i = (i / 7 + 1 : ℕ) := by
  unfold ib2sect
  rw [Int.tdiv_eq_ediv_of_nonneg (by omega)]
  omega

theorem ib2disp_natCast (i : ℕ) : ib2disp i = 18 * (i % 7) := by
  unfold ib2disp iblockWords
  rw [Int.tmod_eq_emod_of_nonneg (by omega)]
  omega

theorem nextib_lfibput_self (h : Works m) (i : ℕ) (ibuff : Sector) :
    nextib (lfibput m i ibuff).sectors i = (ibuff 0).toInt := by
  rw [sectors_lfibput h]
  simp [nextib, lfibget, placeIndex, iblockWords]

/-- Two index blocks share no words. -/
theorem nextib_lfibput_of_ne
    (h : Works m) {i j : ℕ} (hij : j ≠ i) (ibuff : Sector) :
    nextib (lfibput m i ibuff).sectors j = nextib m.sectors j := by
  rw [sectors_lfibput h]
  unfold nextib lfibget
  by_cases hsect : ib2sect j = ib2sect i
  · have hapart : ¬ (ib2disp i ≤ ib2disp j + 0 ∧
        ib2disp j + 0 < ib2disp i + iblockWords) := by
      simp only [ib2sect_natCast, Nat.cast_inj] at hsect
      rw [ib2disp_natCast, ib2disp_natCast, iblockWords]
      omega
    rw [hsect, Function.update_self, placeIndex, if_neg hapart]
  · rw [Function.update_of_ne hsect]

end Transfers

/-! ## The loops -/

/-- What the first loop leaves when it starts at `i` with `n` blocks before
the last. -/
structure IndexBuilt (i n : ℕ) (m m' : Media) : Prop where
  works : Works m'
  before : ∀ j < i, nextib m'.sectors j = nextib m.sectors j
  linked : ∀ j, i ≤ j → j < i + n → nextib m'.sectors j = (j : ℤ) + 1
  last : nextib m'.sectors (i + n : ℕ) = LF_INULL
  others : ∀ blk, (∀ j, i ≤ j → j ≤ i + n → blk ≠ ib2sect j) →
    m'.sectors blk = m.sectors blk
  written : ∀ blk ∈ m'.written, blk ∈ m.written ∨
    ∃ j, i ≤ j ∧ j ≤ i + n ∧ blk = ib2sect j

theorem indexLoop_built
    {n i : ℕ} {m : Media} (h : Works m) (hsmall : i + n < 2 ^ 31) :
    IndexBuilt i n m (indexLoop n i m) := by
  induction n generalizing i m with
  | zero =>
      refine ⟨h.lfibput _ _, ?_, ?_, ?_, ?_, ?_⟩
      · intro j hj
        exact nextib_lfibput_of_ne h (by omega) _
      · intro j hle hlt
        omega
      · exact nextib_lfibput_self h i _
      · intro blk hblk
        have hne := hblk i le_rfl le_rfl
        rw [indexLoop, sectors_lfibput h, Function.update_of_ne hne]
      · intro blk hblk
        rw [indexLoop, written_lfibput h] at hblk
        rcases List.mem_append.mp hblk with hold | hnew
        · exact Or.inl hold
        · exact Or.inr ⟨i, le_rfl, le_rfl, List.mem_singleton.mp hnew⟩
  | succ n ih =>
      have hput := h.lfibput i (clearIndex (i + 1))
      have hrest := ih (i := i + 1) hput (by omega)
      have hnext : nextib (lfibput m i (clearIndex (i + 1))).sectors i =
          (i : ℤ) + 1 := by
        rw [nextib_lfibput_self h]
        have hfits : ((i : ℤ) + 1).bmod (2 ^ 32) = i + 1 :=
          Int.bmod_eq_of_le_mul_two (by omega) (by omega)
        simpa [clearIndex] using hfits
      refine ⟨hrest.works, ?_, ?_, ?_, ?_, ?_⟩
      · intro j hj
        rw [indexLoop, hrest.before j (by omega)]
        exact nextib_lfibput_of_ne h (by omega) _
      · intro j hle hlt
        by_cases hj : j = i
        · subst hj
          rw [indexLoop, hrest.before j (by omega), hnext]
        · exact hrest.linked j (by omega) (by omega)
      · have hlast := hrest.last
        rwa [show i + 1 + n = i + (n + 1) by omega] at hlast
      · intro blk hblk
        have hne := hblk i le_rfl (by omega)
        rw [indexLoop, hrest.others blk fun j hle hlt =>
          hblk j (by omega) (by omega), sectors_lfibput h,
          Function.update_of_ne hne]
      · intro blk hblk
        rcases hrest.written blk hblk with hold | ⟨j, hle, hlt, rfl⟩
        · rw [written_lfibput h] at hold
          rcases List.mem_append.mp hold with hold | hnew
          · exact Or.inl hold
          · exact Or.inr ⟨i, le_rfl, by omega, List.mem_singleton.mp hnew⟩
        · exact Or.inr ⟨j, by omega, by omega, rfl⟩

theorem toInt_ofNat_of_lt {b : ℕ} (hb : b < 2 ^ 31) :
    (BitVec.ofNat 32 b).toInt = b := by
  rw [BitVec.toInt_ofNat']
  exact Int.bmod_eq_of_le_mul_two (by omega) (by omega)

theorem mem_written_dataLoop
    {n : ℕ} {dbindex : Word} {m : Media} {blk : ℤ} (h : blk ∈ m.written) :
    blk ∈ (dataLoop n dbindex m).written := by
  induction n generalizing dbindex m with
  | zero => exact List.mem_append_left _ h
  | succ n ih =>
      apply ih
      exact List.mem_append_left _ h

/-- The loop writes its first block however long it is. -/
theorem first_written_dataLoop (n : ℕ) (dbindex : Word) (m : Media) :
    dbindex.toInt ∈ (dataLoop n dbindex m).written := by
  cases n with
  | zero => simp [dataLoop, written_write]
  | succ n =>
      unfold dataLoop
      apply mem_written_dataLoop
      exact List.mem_append_right _ (List.mem_singleton.mpr rfl)

structure DataBuilt (b n : ℕ) (m m' : Media) : Prop where
  before : ∀ j < b, m'.sectors j = m.sectors j
  linked : ∀ j, b ≤ j → j < b + n → nextdb m'.sectors j = (j : ℤ) + 1
  last : nextdb m'.sectors (b + n : ℕ) = LF_DNULL
  written : ∀ blk ∈ m'.written, blk ∈ m.written ∨
    ∃ j : ℕ, b ≤ j ∧ j ≤ b + n ∧ blk = j

theorem dataLoop_built
    {n b : ℕ} {m : Media} (h : Works m) (hsmall : b + n < 2 ^ 31) :
    DataBuilt b n m (dataLoop n (BitVec.ofNat 32 b) m) := by
  have hb : (BitVec.ofNat 32 b).toInt = b := toInt_ofNat_of_lt (by omega)
  induction n generalizing b m with
  | zero =>
      refine ⟨?_, ?_, ?_, ?_⟩
      · intro j hj
        have hne : (j : ℤ) ≠ b := by omega
        rw [dataLoop, sectors_write h, hb, Function.update_of_ne hne]
      · intro j hle hlt
        omega
      · rw [nextdb, dataLoop, sectors_write h, hb, Nat.add_zero,
          Function.update_self]
        rfl
      · intro blk hblk
        rw [dataLoop, written_write, hb] at hblk
        rcases List.mem_append.mp hblk with hold | hnew
        · exact Or.inl hold
        · exact Or.inr ⟨b, le_rfl, le_rfl, List.mem_singleton.mp hnew⟩
  | succ n ih =>
      have hsucc : BitVec.ofNat 32 b + 1 = BitVec.ofNat 32 (b + 1) := by
        rw [BitVec.ofNat_add]
        rfl
      have hb' : (BitVec.ofNat 32 (b + 1)).toInt = (b + 1 : ℕ) :=
        toInt_ofNat_of_lt (by omega)
      have hrest := ih (b := b + 1)
        (h.write b (freeBlock (BitVec.ofNat 32 (b + 1)))) (by omega) hb'
      have hloop : dataLoop (n + 1) (BitVec.ofNat 32 b) m =
          dataLoop n (BitVec.ofNat 32 (b + 1))
            (m.write b (freeBlock (BitVec.ofNat 32 (b + 1)))) := by
        rw [dataLoop, hsucc, hb]
      rw [hloop]
      refine ⟨?_, ?_, ?_, ?_⟩
      · intro j hj
        have hne : (j : ℤ) ≠ b := by omega
        rw [hrest.before j (by omega), sectors_write h,
          Function.update_of_ne hne]
      · intro j hle hlt
        by_cases hj : j = b
        · subst hj
          rw [nextdb, hrest.before j (by omega), sectors_write h,
            Function.update_self, freeBlock, if_pos rfl, hb']
          rfl
        · exact hrest.linked j (by omega) (by omega)
      · have hlast := hrest.last
        rwa [show b + 1 + n = b + (n + 1) by omega] at hlast
      · intro blk hblk
        rcases hrest.written blk hblk with hold | ⟨j, hle, hlt, rfl⟩
        · rcases List.mem_append.mp hold with hold | hnew
          · exact Or.inl hold
          · exact Or.inr ⟨b, le_rfl, by omega, List.mem_singleton.mp hnew⟩
        · exact Or.inr ⟨j, by omega, by omega, rfl⟩

/-! ## Following a list -/

theorem chain_ascending
    {null : ℤ} {next : ℤ → ℤ} {b n : ℕ}
    (hlinked : ∀ j : ℕ, b ≤ j → j < b + n → next j = (j : ℤ) + 1)
    (hlast : next (b + n : ℕ) = null) :
    LinkedTable.Chain null next b ((List.range' b (n + 1)).map Nat.cast) := by
  induction n generalizing b with
  | zero => exact ⟨rfl, hlast⟩
  | succ n ih =>
      have hnext : next b = ((b + 1 : ℕ) : ℤ) := by
        rw [hlinked b le_rfl (by omega)]
        rfl
      refine ⟨rfl, ?_⟩
      rw [hnext]
      apply ih
      · intro j hle hlt
        exact hlinked j (by omega) (by omega)
      · rwa [show b + 1 + n = b + (n + 1) by omega]

theorem countLoop_chain
    {null p : ℤ} {follow : ℤ → ℤ} {l : List ℤ} (budget count : ℕ)
    (h : LinkedTable.Chain null follow p l) (hnull : null ∉ l)
    (hbudget : l.length < budget) :
    countLoop follow null budget count p = some (count + l.length) := by
  induction l generalizing budget count p with
  | nil =>
      obtain ⟨budget, rfl⟩ : ∃ k, budget = k + 1 := ⟨budget - 1, by omega⟩
      have hend : p = null := h
      rw [countLoop, if_pos hend]
      rfl
  | cons x l ih =>
      obtain ⟨budget, rfl⟩ : ∃ k, budget = k + 1 := ⟨budget - 1, by omega⟩
      obtain ⟨rfl, htail⟩ := h
      have hne : p ≠ null := by
        rintro rfl
        exact hnull (by simp)
      rw [countLoop, if_neg hne, ih _ _ htail
        (fun hmem => hnull (List.mem_cons_of_mem _ hmem))
        (by simpa using hbudget), List.length_cons]
      congr 1
      omega

/-! ## A failed call -/

section Failure

variable {fs : Lfs} {m : Media} {disk : ℤ} {lfiblks dsiz : Word}

theorem lfscreate_refused (h : isbaddev disk ∨ 0 ≤ fs.lf_dskdev) :
    lfscreate fs m disk lfiblks dsiz = (fs, m, SYSERR) :=
  if_pos h

theorem lfscreate_too_many
    (h : ¬ (isbaddev disk ∨ 0 ≤ fs.lf_dskdev))
    (hroom : sectorsOf dsiz / 2 < ibsectorsOf lfiblks) :
    lfscreate fs m disk lfiblks dsiz =
      ({ fs with lf_dskdev := disk }, m, SYSERR) := by
  rw [lfscreate, if_neg h]
  exact if_pos hroom

theorem lfscreate_unwritten
    (h : ¬ (isbaddev disk ∨ 0 ≤ fs.lf_dskdev))
    (hroom : ¬ sectorsOf dsiz / 2 < ibsectorsOf lfiblks)
    (hresult : ¬ m.results 0 = true) :
    lfscreate fs m disk lfiblks dsiz =
      ({ fs with lf_dskdev := disk },
        m.write 0 (directory (ibsectorsOf lfiblks + 1)), SYSERR) := by
  rw [lfscreate, if_neg h]
  exact (if_neg hroom).trans (if_neg hresult)

theorem lfscreate_formats
    (h : ¬ (isbaddev disk ∨ 0 ≤ fs.lf_dskdev))
    (hroom : ¬ sectorsOf dsiz / 2 < ibsectorsOf lfiblks)
    (hresult : m.results 0 = true) :
    lfscreate fs m disk lfiblks dsiz =
      ({ fs with lf_dskdev := disk },
        format (m.write 0 (directory (ibsectorsOf lfiblks + 1)))
          (ibsectorsOf lfiblks) (sectorsOf dsiz), OK) := by
  rw [lfscreate, if_neg h]
  exact (if_neg hroom).trans (if_pos hresult)

end Failure

/-- A call that fails leaves `Lf_data` as it was, so that later calls do what
they would have done, unless it fails after the first test. -/
theorem failed_create_undone
    (fs : Lfs) (m : Media) (disk : ℤ) (lfiblks dsiz : Word) :
    ((lfscreate fs m disk lfiblks dsiz).2.2 = SYSERR →
      (lfscreate fs m disk lfiblks dsiz).1 = fs ∧
      (∀ m' disk' lfiblks' dsiz',
        lfscreate (lfscreate fs m disk lfiblks dsiz).1 m' disk' lfiblks' dsiz' =
          lfscreate fs m' disk' lfiblks' dsiz') ∧
      ∀ name mode, (lfscreate fs m disk lfiblks dsiz).1.lfsopen name mode =
        fs.lfsopen name mode) ↔
    isbaddev disk ∨ 0 ≤ fs.lf_dskdev ∨
      (ibsectorsOf lfiblks ≤ sectorsOf dsiz / 2 ∧ m.results 0 = true) := by
  by_cases hfirst : isbaddev disk ∨ 0 ≤ fs.lf_dskdev
  · rw [lfscreate_refused hfirst]
    simp [or_assoc.mp (Or.inl hfirst)]
  have hselected : { fs with lf_dskdev := disk } ≠ fs := by
    intro hsame
    have hdisk : disk = fs.lf_dskdev := congrArg Lfs.lf_dskdev hsame
    have hneg : disk < 0 := by omega
    exact hfirst (Or.inl (Or.inl hneg))
  by_cases hroom : sectorsOf dsiz / 2 < ibsectorsOf lfiblks
  · have hlate : ¬ ibsectorsOf lfiblks ≤ sectorsOf dsiz / 2 :=
      BitVec.not_le.mpr hroom
    rw [lfscreate_too_many hfirst hroom]
    constructor
    · intro hundone
      exact absurd (hundone rfl).1 hselected
    · rintro (hdev | hnone | ⟨hle, -⟩)
      · exact absurd (Or.inl hdev) hfirst
      · exact absurd (Or.inr hnone) hfirst
      · exact absurd hle hlate
  by_cases hresult : m.results 0 = true
  · rw [lfscreate_formats hfirst hroom hresult]
    constructor
    · intro _
      exact Or.inr (Or.inr ⟨BitVec.not_lt.mp hroom, hresult⟩)
    · intro _ hfail
      have hok : OK ≠ SYSERR := by decide
      exact absurd hfail hok
  · rw [lfscreate_unwritten hfirst hroom hresult]
    constructor
    · intro hundone
      exact absurd (hundone rfl).1 hselected
    · rintro (hdev | hnone | ⟨-, hwritten⟩)
      · exact absurd (Or.inl hdev) hfirst
      · exact absurd (Or.inr hnone) hfirst
      · exact absurd hwritten hresult

/-- The file system before any disk has been selected. -/
def unselected : Lfs :=
  { mounted ⟨emptyDir 0, fun _ => lfibclear 0, fun _ _ => 0⟩ (emptyDir 0)
      (fun _ => 0) with lf_dskdev := -1 }

def blank : Media := ⟨fun _ _ => 0, fun _ => true, []⟩

/-- Too many index blocks are asked for, and then the right call fails too. -/
theorem failed_create_selects_disk :
    (lfscreate unselected blank 0 70 512).2.2 = SYSERR ∧
      (lfscreate (lfscreate unselected blank 0 70 512).1 blank 0 7 1536).2.2 =
        SYSERR ∧
      (lfscreate unselected blank 0 7 1536).2.2 = OK := by
  decide

/-! ## A formatted disk -/

section Formatting

variable {m : Media} {ib sectors : ℕ}

/-- The data blocks leave the links of the index blocks alone. -/
theorem DataBuilt.nextib_eq
    {ib n j : ℕ} {m₁ m₂ : Media} (hdata : DataBuilt (ib + 1) n m₁ m₂)
    (hj : j < 7 * ib) : nextib m₂.sectors j = nextib m₁.sectors j := by
  unfold nextib lfibget
  rw [ib2sect_natCast, hdata.before _ (by omega)]

/-- The count of `lfsckfmt` is the lengths of the two lists. -/
theorem lfsckfmt_of_chains
    {disk : ℤ → Sector} {il dl : List ℤ} {budget : ℕ}
    (hcheck : lfscheck (disk 0) = true)
    (hil : LinkedTable.Chain LF_INULL (nextib disk) (lfdIfree disk) il)
    (hdl : LinkedTable.Chain LF_DNULL (nextdb disk) (lfdDfree disk) dl)
    (hinull : LF_INULL ∉ il) (hdnull : LF_DNULL ∉ dl)
    (hibudget : il.length < budget) (hdbudget : dl.length < budget) :
    lfsckfmt budget disk = some (il.length, (il.length + 6) / 7, dl.length) := by
  rw [lfsckfmt, if_pos hcheck, countLoop_chain budget 0 hil hinull hibudget,
    countLoop_chain budget 0 hdl hdnull hdbudget]
  simp

/-- What the two loops leave behind a directory is formatted. -/
theorem formatted_of_built
    {m m₁ m₂ : Media} (hib : 1 ≤ ib) (hroom : ib + 2 ≤ sectors)
    (hsmall : sectors < 2 ^ 23) (hwritten : ∀ blk ∈ m.written, blk = 0)
    (hindex : IndexBuilt 0 (7 * ib - 1) m m₁)
    (hdata : DataBuilt (ib + 1) (sectors - ib - 2) m₁ m₂)
    (hdir : m₂.sectors 0 = directory (BitVec.ofNat 32 (ib + 1))) :
    Formatted ib sectors m₂ := by
  have hifree : lfdIfree m₂.sectors = 0 := by
    rw [lfdIfree, hdir]
    rfl
  have hdfree : lfdDfree m₂.sectors = (ib + 1 : ℕ) := by
    rw [lfdDfree, hdir]
    exact toInt_ofNat_of_lt (by omega)
  have hichain : LinkedTable.Chain LF_INULL (nextib m₂.sectors)
      (lfdIfree m₂.sectors) ((List.range' 0 (7 * ib)).map Nat.cast) := by
    have hchain : LinkedTable.Chain LF_INULL (nextib m₂.sectors) ((0 : ℕ) : ℤ)
        ((List.range' 0 (7 * ib - 1 + 1)).map Nat.cast) := by
      apply chain_ascending
      · intro j hle hlt
        rw [hdata.nextib_eq (by omega), hindex.linked j hle hlt]
      · rw [hdata.nextib_eq (by omega), hindex.last]
    rw [hifree]
    rwa [show 7 * ib - 1 + 1 = 7 * ib by omega] at hchain
  have hdchain : LinkedTable.Chain LF_DNULL (nextdb m₂.sectors)
      (lfdDfree m₂.sectors)
      ((List.range' (ib + 1) (sectors - ib - 1)).map Nat.cast) := by
    have hchain := chain_ascending hdata.linked hdata.last
    rw [hdfree]
    rwa [show sectors - ib - 2 + 1 = sectors - ib - 1 by omega] at hchain
  constructor
  · intro blk hblk
    rcases hdata.written blk hblk with hold | ⟨j, hle, hlt, rfl⟩
    · rcases hindex.written blk hold with hold | ⟨j, hle, hlt, rfl⟩
      · rw [hwritten blk hold]
        omega
      · rw [ib2sect_natCast]
        omega
    · omega
  · refine ⟨_, hifree ▸ hichain, ?_, ?_⟩
    · rw [List.range_eq_range']
    · intro inum hinum
      obtain ⟨j, hj, rfl⟩ := List.mem_map.mp hinum
      have hrange := List.mem_range'_1.mp hj
      rw [ib2sect_natCast]
      omega
  · exact hifree
  · exact ⟨_, hdchain, List.Perm.refl _⟩
  · have hcheck : lfscheck (m₂.sectors 0) = true := by
      rw [hdir]
      rfl
    have hround : (7 * ib + 6) / 7 = ib := by omega
    refine ⟨7 * ib + sectors + 1, ?_⟩
    rw [lfsckfmt_of_chains hcheck hichain hdchain (by simp [LF_INULL])
      (by simp [LF_DNULL]) (by simp) (by simp; omega)]
    simp [hround]

theorem formatted_of_room
    (hworks : Works m) (hstart : m.written = []) (hib : 1 ≤ ib)
    (hroom : ib + 2 ≤ sectors) (hsmall : sectors < 2 ^ 23) :
    Formatted ib sectors
      (dataLoop (sectors - ib - 2) (BitVec.ofNat 32 (ib + 1))
        (indexLoop (7 * ib - 1) 0
          (m.write 0 (directory (BitVec.ofNat 32 (ib + 1)))))) := by
  have hindex := indexLoop_built (i := 0) (n := 7 * ib - 1)
    (hworks.write 0 (directory (BitVec.ofNat 32 (ib + 1)))) (by omega)
  have hdata := dataLoop_built (n := sectors - ib - 2) (b := ib + 1)
    hindex.works (by omega)
  apply formatted_of_built hib hroom hsmall _ hindex hdata
  · have hfar : ∀ j : ℕ, 0 ≤ j → j ≤ 0 + (7 * ib - 1) → (0 : ℤ) ≠ ib2sect j := by
      intro j _ _
      rw [ib2sect_natCast]
      omega
    have hbefore := hdata.before 0 (by omega)
    rw [Nat.cast_zero] at hbefore
    rw [hbefore, hindex.others 0 hfar, sectors_write hworks,
      Function.update_self]
  · intro blk hblk
    rw [written_write, hstart] at hblk
    simpa using hblk

/-- Without index blocks the list from block zero is not the empty list. -/
theorem Formatted.index_blocks (h : Formatted ib sectors m) : 1 ≤ ib := by
  by_contra hib
  obtain ⟨l, hchain, hperm, -⟩ := h.index
  obtain rfl : ib = 0 := by omega
  have hnil : l = [] := by simpa using hperm
  rw [hnil] at hchain
  have hnull : (0 : ℤ) = LF_INULL := hchain
  exact absurd hnull (by decide)

/-- The loop over the data blocks writes beyond a disk without any. -/
theorem Formatted.first_data
    {n : ℕ} {dbindex : Word} (h : Formatted ib sectors (dataLoop n dbindex m)) :
    dbindex.toInt < sectors :=
  (h.inside _ (first_written_dataLoop n dbindex m)).2

theorem sectorsOf_lt (dsiz : Word) : (sectorsOf dsiz).toNat < 2 ^ 23 := by
  have hlt := dsiz.isLt
  have hdiv : (sectorsOf dsiz).toNat = dsiz.toNat / 512 :=
    BitVec.toNat_udiv
  omega

theorem room_iff
    {lfiblks dsiz : Word}
    (hroom : ibsectorsOf lfiblks ≤ sectorsOf dsiz / 2) :
    1 ≤ (ibsectorsOf lfiblks).toNat ∧
        (ibsectorsOf lfiblks).toNat + 2 ≤ (sectorsOf dsiz).toNat ↔
      0 < lfiblks.toInt ∧ 1536 ≤ dsiz.toNat := by
  have hsize := dsiz.isLt
  have hblks := lfiblks.isLt
  have hsectors : (sectorsOf dsiz).toNat = dsiz.toNat / 512 :=
    BitVec.toNat_udiv
  have hib : (ibsectorsOf lfiblks).toNat =
      (lfiblks.toNat + 6) % 2 ^ 32 / 7 := by
    rw [ibsectorsOf, BitVec.toNat_udiv, BitVec.toNat_add]
    rfl
  have hhalf : (ibsectorsOf lfiblks).toNat ≤ (sectorsOf dsiz).toNat / 2 := by
    have hle := BitVec.le_def.mp hroom
    rwa [BitVec.toNat_udiv] at hle
  rw [hib, hsectors] at *
  rw [BitVec.toInt_eq_toNat_cond]
  by_cases hwrap : lfiblks.toNat + 6 < 2 ^ 32
  · rw [Nat.mod_eq_of_lt hwrap] at *
    split_ifs <;> omega
  · have hsmall : (lfiblks.toNat + 6) % 2 ^ 32 / 7 = 0 := by omega
    rw [hsmall]
    split_ifs <;> omega

end Formatting

/-- A call with accepted arguments and a disk that works ends and leaves the
two lists exactly for a positive number of index blocks on a disk of three
sectors or more. -/
theorem create_formats_iff
    (fs : Lfs) (m : Media) (disk : ℤ) (lfiblks dsiz : Word)
    (hworks : Works m) (hstart : m.written = [])
    (hdisk : ¬ (isbaddev disk ∨ 0 ≤ fs.lf_dskdev))
    (hroom : ibsectorsOf lfiblks ≤ sectorsOf dsiz / 2) :
    ((lfscreate fs m disk lfiblks dsiz).2.2 = OK ∧
      Formatted (ibsectorsOf lfiblks).toNat (sectorsOf dsiz).toNat
        (lfscreate fs m disk lfiblks dsiz).2.1) ↔
    0 < lfiblks.toInt ∧ 1536 ≤ dsiz.toNat := by
  have hlt := sectorsOf_lt dsiz
  have hhalf : (ibsectorsOf lfiblks).toNat ≤ (sectorsOf dsiz).toNat / 2 := by
    have hle := BitVec.le_def.mp hroom
    rwa [BitVec.toNat_udiv] at hle
  rw [← room_iff hroom,
    lfscreate_formats hdisk (BitVec.not_lt.mpr hroom) (hworks 0)]
  have hnext : ibsectorsOf lfiblks + 1 =
      BitVec.ofNat 32 ((ibsectorsOf lfiblks).toNat + 1) := by
    rw [BitVec.ofNat_add, BitVec.ofNat_toNat, BitVec.setWidth_eq]
    rfl
  constructor
  · rintro ⟨-, hformatted⟩
    have hib := hformatted.index_blocks
    have hfirst := hformatted.first_data
    rw [hnext, toInt_ofNat_of_lt (by omega)] at hfirst
    omega
  · rintro ⟨hib, hdata⟩
    have hone : (1 : Word).toNat = 1 := rfl
    have hseven : (7 : Word).toNat = 7 := rfl
    have hindex : ((ibsectorsOf lfiblks * 7 - 1).toInt).toNat =
        7 * (ibsectorsOf lfiblks).toNat - 1 := by
      have hmul : (ibsectorsOf lfiblks * 7 - 1).toNat =
          7 * (ibsectorsOf lfiblks).toNat - 1 := by
        rw [BitVec.toNat_sub, BitVec.toNat_mul, hseven, hone]
        omega
      rw [BitVec.toInt_eq_toNat_cond, hmul]
      split_ifs <;> omega
    have hloop : (sectorsOf dsiz - ibsectorsOf lfiblks - 1 - 1).toNat =
        (sectorsOf dsiz).toNat - (ibsectorsOf lfiblks).toNat - 2 := by
      rw [BitVec.toNat_sub, BitVec.toNat_sub, BitVec.toNat_sub, hone]
      omega
    refine ⟨rfl, ?_⟩
    unfold format
    simp only [hindex, hloop, hnext]
    exact formatted_of_room hworks hstart hib hdata hlt

theorem create_formats_iff_three_sectors :
    ((lfscreate unselected blank 0 1 1536).2.2 = OK ∧
      Formatted (ibsectorsOf 1).toNat (sectorsOf 1536).toNat
        (lfscreate unselected blank 0 1 1536).2.1) ↔
    0 < (1 : Word).toInt ∧ 1536 ≤ (1536 : Word).toNat :=
  create_formats_iff unselected blank 0 1 1536 (fun _ => rfl) rfl (by decide)
    (by decide)

/-- Without an index block, block zero lies in a data block. -/
theorem no_index_blocks_accepted :
    (lfscreate unselected blank 0 0 1536).2.2 = OK ∧
      ¬ Formatted (ibsectorsOf 0).toNat (sectorsOf 1536).toNat
        (lfscreate unselected blank 0 0 1536).2.1 := by
  refine ⟨by decide, fun h => ?_⟩
  have hib := h.index_blocks
  exact absurd hib (by decide)

end Xinu.DiskFormat
