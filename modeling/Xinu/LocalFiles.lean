import Xinu.HeapAllocator

/-!
# The local file system

The functions of device/lfs over a disk whose reads return the last write.
The disk is kept by what its sectors are for: sector zero holds the directory,
the next sectors hold seven index blocks each, and the others hold data, or
the link of a free list in their first four bytes.  A transfer of an index
block is a change of that block alone.

A call is a function of the whole state.  `none` is a panic, or a walk along a
chain of index blocks that is longer than the budget.
-/

namespace Xinu.LocalFiles

open ByteMemory

/-! ## Constants -/

def LF_BLKSIZ : ℕ := 512

def LF_NAME_LEN : ℕ := 16

def LF_NUM_DIR_ENT : ℤ := 20

def LF_IBLEN : ℕ := 16

/-- Bytes of data indexed by one index block. -/
def LF_IDATA : ℕ := 8192

def LF_INULL : ℤ := -1

def LF_DNULL : ℤ := -1

def LFS_ID : Word := 0x58696E75

def LFS_REVID : Word := 0x756E6958

/-- The number of file pseudo-devices in conf.h. -/
def Nlfl : ℕ := 6

def EOF : ℤ := -2

/-- `DFILL`, the fill character of a new data block. -/
def DFILL : BitVec 8 := 43

def LF_MODE_R : ℕ := 1

def LF_MODE_W : ℕ := 2

def LF_MODE_RW : ℕ := 3

def LF_MODE_N : ℕ := 4

def LF_MODE_O : ℕ := 8

/-! ## Data -/

/-- A C string without its null byte. -/
abbrev Name := List (BitVec 8)

/-- A data block; bytes from `LF_BLKSIZ` on are not there. -/
abbrev Block := ℕ → BitVec 8

/-- An index block; pointers from `LF_IBLEN` on are not there. -/
structure Lfiblk where
  ib_next : ℤ
  ib_offset : ℕ
  ib_dba : ℕ → ℤ

structure Ldentry where
  ld_size : ℕ
  ld_ilist : ℤ
  ld_name : Name

structure Lfdir where
  lfd_fsysid : Word
  lfd_allzeros : Word
  lfd_allones : Word
  lfd_dfree : ℤ
  lfd_ifree : ℤ
  lfd_nfiles : ℤ
  lfd_files : ℕ → Ldentry
  lfd_revid : Word

structure Disk where
  dir : Lfdir
  iblocks : ℤ → Lfiblk
  blocks : ℤ → Block

def Disk.putIndex (d : Disk) (inum : ℤ) (ib : Lfiblk) : Disk :=
  { d with iblocks := Function.update d.iblocks inum ib }

def Disk.putBlock (d : Disk) (dnum : ℤ) (b : Block) : Disk :=
  { d with blocks := Function.update d.blocks dnum b }

inductive LfState where
  | free
  | used
  deriving DecidableEq, Repr

structure Lflcblk where
  lfstate : LfState
  lfdev : ℤ
  /-- The index of the directory entry. -/
  lfdirptr : ℕ
  lfmode : ℕ
  lfpos : ℕ
  lfname : Name
  lfinum : ℤ
  lfiblock : Lfiblk
  lfdnum : ℤ
  lfdblock : Block
  /-- The offset into `lfdblock`. -/
  lfbyte : ℕ
  lfibdirty : Bool
  lfdbdirty : Bool

/-- `Lf_data`, the pseudo-devices and the disk; `junk` is what the buffer of
`lfdbfree` holds before its link is set. -/
structure Lfs where
  lf_dskdev : ℤ
  lf_dir : Lfdir
  lf_dirpresent : Bool
  lf_dirdirty : Bool
  lfltab : ℕ → Lflcblk
  disk : Disk
  junk : Block

/-- `lf_nextdb` of a block on the free list. -/
def Block.nextdb (b : Block) : ℤ := (b 3 ++ b 2 ++ b 1 ++ b 0 : Word).toInt

def Block.setNextdb (b : Block) (next : ℤ) : Block := fun i =>
  if i < 4 then (BitVec.ofInt 32 next).extractLsb' (8 * i) 8 else b i

def lfibclear (offset : ℕ) : Lfiblk := ⟨LF_INULL, offset, fun _ => LF_DNULL⟩

def lfscheck (dir : Lfdir) : Bool :=
  dir.lfd_fsysid = LFS_ID && dir.lfd_allzeros = 0 &&
    dir.lfd_allones = 0xFFFFFFFF && dir.lfd_revid = LFS_REVID &&
    0 ≤ dir.lfd_nfiles

/-- One character of the loop of `lfgetmode`. -/
def modeChar (mbits : ℕ) (ch : BitVec 8) : Option ℕ :=
  if ch = 114 then
    if mbits &&& LF_MODE_R ≠ 0 then none else some (mbits ||| LF_MODE_R)
  else if ch = 119 then
    if mbits &&& LF_MODE_W ≠ 0 then none else some (mbits ||| LF_MODE_W)
  else if ch = 111 then
    if mbits &&& LF_MODE_O ≠ 0 ∨ mbits &&& LF_MODE_N ≠ 0 then none
    else some (mbits ||| LF_MODE_O)
  else if ch = 110 then
    if mbits &&& LF_MODE_O ≠ 0 ∨ mbits &&& LF_MODE_N ≠ 0 then none
    else some (mbits ||| LF_MODE_N)
  else none

/-- `none` is `SYSERR`. -/
def lfgetmode (mode : Name) : Option ℕ :=
  (mode.foldlM modeChar 0).map fun mbits =>
    if mbits &&& LF_MODE_RW = 0 then mbits ||| LF_MODE_RW else mbits

namespace Lfs

variable (s : Lfs)

/-! ## Parts of the state -/

def setFile (i : ℕ) (f : Lflcblk → Lflcblk) : Lfs :=
  { s with lfltab := Function.update s.lfltab i (f (s.lfltab i)) }

def setEntry (e : ℕ) (f : Ldentry → Ldentry) : Lfs :=
  { s with lf_dir := { s.lf_dir with
      lfd_files :=
        Function.update s.lf_dir.lfd_files e (f (s.lf_dir.lfd_files e)) } }

/-- The directory entry of an open file. -/
def entry (i : ℕ) : Ldentry := s.lf_dir.lfd_files (s.lfltab i).lfdirptr

def lfibget (inum : ℤ) : Lfiblk := s.disk.iblocks inum

def lfibput (inum : ℤ) (ib : Lfiblk) : Lfs :=
  { s with disk := s.disk.putIndex inum ib }

def writeBlock (dnum : ℤ) (b : Block) : Lfs :=
  { s with disk := s.disk.putBlock dnum b }

/-- `write(Lf_data.lf_dskdev, (char *)&Lf_data.lf_dir, LF_AREA_DIR)`. -/
def writeDir : Lfs := { s with disk := { s.disk with dir := s.lf_dir } }

/-! ## Free lists -/

def lfiballoc : Option (Lfs × ℤ) :=
  let ibnum := s.lf_dir.lfd_ifree
  if ibnum = LF_INULL then none
  else
    let iblock := s.lfibget ibnum
    let s := { s with lf_dir := { s.lf_dir with lfd_ifree := iblock.ib_next } }
    some ({ s.writeDir with lf_dirdirty := false }, ibnum)

/-- With the filled buffer. -/
def lfdballoc : Option (Lfs × ℤ × Block) :=
  let dnum := s.lf_dir.lfd_dfree
  if dnum = LF_DNULL then none
  else
    let dbuff := s.disk.blocks dnum
    let s := { s with lf_dir := { s.lf_dir with
      lfd_dfree := dbuff.nextdb } }
    some ({ s.writeDir with lf_dirdirty := false }, dnum, fun _ => DFILL)

def lfdbfree (dnum : ℤ) : Lfs :=
  let buf := s.junk.setNextdb s.lf_dir.lfd_dfree
  let s := { s with lf_dir := { s.lf_dir with lfd_dfree := dnum } }
  (s.writeBlock dnum buf).writeDir

/-! ## One open file -/

/-- Write the directory if it has changed. -/
def flushDir : Lfs :=
  if s.lf_dirdirty then { s.writeDir with lf_dirdirty := false } else s

/-- Write the data block if it has changed. -/
def flushData (i : ℕ) : Lfs :=
  if (s.lfltab i).lfdbdirty then
    (s.writeBlock (s.lfltab i).lfdnum (s.lfltab i).lfdblock).setFile i
      fun f => { f with lfdbdirty := false }
  else s

/-- Write the index block if it has changed. -/
def flushIndex (i : ℕ) : Lfs :=
  if (s.lfltab i).lfibdirty then
    (s.lfibput (s.lfltab i).lfinum (s.lfltab i).lfiblock).setFile i
      fun f => { f with lfibdirty := false }
  else s

def lfflush (i : ℕ) : Lfs :=
  if (s.lfltab i).lfstate = .free then s
  else ((s.flushDir.flushData i).flushIndex i)

/-- Load an index block into the control block. -/
def loadIndex (i : ℕ) (ibnum : ℤ) : Lfs :=
  s.setFile i fun f => { f with lfiblock := s.lfibget ibnum, lfinum := ibnum }

/-- The first part of `lfsetup`: some index block of the file in memory, at or
before the position. -/
def setupFirst (i : ℕ) : Option Lfs :=
  if (s.lfltab i).lfinum = LF_INULL then
    if (s.entry i).ld_ilist = LF_INULL then
      s.lfiballoc.map fun (s, ibnum) =>
        let s := s.setEntry (s.lfltab i).lfdirptr fun e =>
          { e with ld_ilist := ibnum }
        s.setFile i fun f =>
          { f with lfiblock := lfibclear 0, lfibdirty := true, lfinum := ibnum }
    else some (s.loadIndex i (s.entry i).ld_ilist)
  else if (s.lfltab i).lfpos < (s.lfltab i).lfiblock.ib_offset then
    some (s.loadIndex i (s.entry i).ld_ilist)
  else some s

/-- One turn of the loop of `lfsetup` over the index blocks. -/
def setupNext (i : ℕ) : Option Lfs :=
  let ib := (s.lfltab i).lfiblock
  if ib.ib_next = LF_INULL then
    s.lfiballoc.map fun (s, ibnum) =>
      let s := s.lfibput (s.lfltab i).lfinum { ib with ib_next := ibnum }
      s.setFile i fun f =>
        { f with
          lfinum := ibnum
          lfiblock := lfibclear (ib.ib_offset + LF_IDATA)
          lfibdirty := true
          lfdnum := LF_DNULL }
  else
    some ((s.loadIndex i ib.ib_next).setFile i fun f =>
      { f with lfdnum := LF_DNULL })

/-- The loop of `lfsetup` over the index blocks. -/
def setupIndex (i : ℕ) : ℕ → Lfs → Option Lfs
  | 0, _ => none
  | budget + 1, s =>
      let f := s.lfltab i
      if f.lfiblock.ib_offset < f.lfpos / LF_IDATA * LF_IDATA then
        (s.setupNext i).bind (setupIndex i budget)
      else some s

/-- The last part of `lfsetup`: the data block and the byte pointer. -/
def setupData (i : ℕ) : Option Lfs :=
  let f := s.lfltab i
  let dindex := f.lfpos % LF_IDATA / LF_BLKSIZ
  let dnum := f.lfiblock.ib_dba dindex
  let setByte (s : Lfs) : Lfs :=
    s.setFile i fun f => { f with lfbyte := f.lfpos % LF_BLKSIZ }
  if dnum = LF_DNULL then
    s.lfdballoc.map fun (s, dnum, dbuff) =>
      setByte <| s.setFile i fun f =>
        { f with
          lfdblock := dbuff
          lfiblock := { f.lfiblock with
            ib_dba := Function.update f.lfiblock.ib_dba dindex dnum }
          lfibdirty := true
          lfdnum := dnum }
  else if dnum ≠ f.lfdnum then
    some <| setByte <| s.setFile i fun f =>
      { f with
        lfdblock := s.disk.blocks dnum, lfdbdirty := false, lfdnum := dnum }
  else some (setByte s)

def lfsetup (budget i : ℕ) : Option Lfs :=
  let s :=
    if (s.lfltab i).lfibdirty || (s.lfltab i).lfdbdirty then s.lfflush i else s
  ((s.setupFirst i).bind (setupIndex i budget)).bind fun s => s.setupData i

/-! ## Calls on an open file -/

/-- `lfsetup`, if the byte pointer is outside of the block. -/
def ensureBlock (budget i : ℕ) : Option Lfs :=
  if LF_BLKSIZ ≤ (s.lfltab i).lfbyte then s.lfsetup budget i else some s

def lflputc (budget i : ℕ) (ch : BitVec 8) : Option (Lfs × ℤ) :=
  if (s.lfltab i).lfstate ≠ .used then some (s, SYSERR.toInt)
  else if (s.entry i).ld_size < (s.lfltab i).lfpos then some (s, SYSERR.toInt)
  else
    (s.ensureBlock budget i).map fun s =>
      let s :=
        if (s.entry i).ld_size ≤ (s.lfltab i).lfpos then
          { s.setEntry (s.lfltab i).lfdirptr fun e =>
              { e with ld_size := e.ld_size + 1 } with lf_dirdirty := true }
        else s
      (s.setFile i fun f =>
        { f with
          lfdblock := Function.update f.lfdblock f.lfbyte ch
          lfbyte := f.lfbyte + 1
          lfpos := f.lfpos + 1
          lfdbdirty := true }, OK.toInt)

def lflgetc (budget i : ℕ) : Option (Lfs × ℤ) :=
  if (s.lfltab i).lfstate ≠ .used then some (s, SYSERR.toInt)
  else if (s.entry i).ld_size ≤ (s.lfltab i).lfpos then some (s, EOF)
  else
    (s.ensureBlock budget i).map fun s =>
      let onebyte := (s.lfltab i).lfdblock (s.lfltab i).lfbyte
      (s.setFile i fun f =>
        { f with lfbyte := f.lfbyte + 1, lfpos := f.lfpos + 1 },
        (onebyte.toNat : ℤ))

/-- The loop of `lflwrite`; the flag says that no byte was refused. -/
def writeLoop (budget i : ℕ) : List (BitVec 8) → Lfs → Option (Lfs × Bool)
  | [], s => some (s, true)
  | ch :: rest, s =>
      (s.lflputc budget i ch).bind fun (s, status) =>
        if status = SYSERR.toInt then some (s, false)
        else writeLoop budget i rest s

/-- `lflwrite` of the bytes of a buffer. -/
def lflwrite (budget i : ℕ) (buff : List (BitVec 8)) : Option (Lfs × ℤ) :=
  (writeLoop budget i buff s).map fun (s, done) =>
    (s, if done then (buff.length : ℤ) else SYSERR.toInt)

/-- The loop of `lflread`: the bytes read and the value that ended it, if it
ended early. -/
def readLoop (budget i : ℕ) : ℕ → Lfs →
    Option (Lfs × List (BitVec 8) × Option ℤ)
  | 0, s => some (s, [], none)
  | count + 1, s =>
      (s.lflgetc budget i).bind fun (s, nxtbyte) =>
        if nxtbyte = SYSERR.toInt ∨ nxtbyte = EOF then
          some (s, [], some nxtbyte)
        else
          (readLoop budget i count s).map fun (s, buff, early) =>
            (s, BitVec.ofInt 8 nxtbyte :: buff, early)

/-- `lflread`: the bytes stored into the buffer and the value returned. -/
def lflread (budget i count : ℕ) :
    Option (Lfs × List (BitVec 8) × ℤ) :=
  (readLoop budget i count s).map fun (s, buff, early) =>
    match early with
    | none => (s, buff, (count : ℤ))
    | some nxtbyte =>
        if nxtbyte = SYSERR.toInt then (s, buff, SYSERR.toInt)
        else if buff = [] then (s, buff, EOF)
        else (s, buff, (buff.length : ℤ))

def lflseek (i offset : ℕ) : Lfs × ℤ :=
  if (s.lfltab i).lfstate ≠ .used then (s, SYSERR.toInt)
  else if (s.entry i).ld_size < offset then (s, SYSERR.toInt)
  else
    (s.setFile i fun f => { f with lfpos := offset, lfbyte := LF_BLKSIZ },
      OK.toInt)

/-! ## lftruncate.c -/

/-- Free the data blocks of one index block. -/
def freeBlocks (ib : Lfiblk) : Lfs :=
  (List.range LF_IBLEN).foldl
    (fun s i => if ib.ib_dba i ≠ LF_DNULL then s.lfdbfree (ib.ib_dba i) else s)
    s

/-- The loop over the index blocks of the file, up to the block `ifree`. -/
def truncateLoop (ifree : ℤ) : ℕ → ℤ → Lfs → Option Lfs
  | 0, _, _ => none
  | budget + 1, nextib, s =>
      if nextib = ifree then some s
      else
        let iblock := s.lfibget nextib
        let s := s.freeBlocks iblock
        let next := if iblock.ib_next = LF_INULL then ifree else iblock.ib_next
        let s := s.lfibput nextib ⟨next, 0, fun _ => LF_DNULL⟩
        truncateLoop ifree budget next s

def lftruncate (budget i : ℕ) : Option Lfs :=
  if (s.entry i).ld_size = 0 then some s
  else
    let s :=
      if (s.lfltab i).lfibdirty || (s.lfltab i).lfdbdirty then s.lfflush i
      else s
    let s := s.setFile i fun f =>
      { f with
        lfpos := 0, lfinum := LF_INULL, lfdnum := LF_DNULL
        lfbyte := LF_BLKSIZ }
    let ifree := s.lf_dir.lfd_ifree
    let firstib := (s.entry i).ld_ilist
    let s := s.setEntry (s.lfltab i).lfdirptr fun e =>
      { e with ld_ilist := LF_INULL, ld_size := 0 }
    (truncateLoop ifree budget firstib { s with lf_dirdirty := true }).map
      fun s =>
        { s with
          lf_dir := { s.lf_dir with lfd_ifree := firstib }
          lf_dirdirty := true }

/-- `lflcontrol` for `LF_CTL_TRUNC`. -/
def lflcontrolTrunc (budget i : ℕ) : Option (Lfs × ℤ) :=
  if (s.lfltab i).lfstate ≠ .used then some (s, SYSERR.toInt)
  else (s.lftruncate budget i).map fun s => (s, OK.toInt)

def lflclose (i : ℕ) : Lfs × ℤ :=
  if (s.lfltab i).lfstate ≠ .used then (s, SYSERR.toInt)
  else
    let s :=
      if s.lf_dirdirty || (s.lfltab i).lfdbdirty || (s.lfltab i).lfibdirty then
        s.lfflush i
      else s
    (s.setFile i fun f => { f with lfstate := .free }, OK.toInt)

/-! ## lfsopen.c -/

/-- The search of the file pseudo-devices: the first free one, or `none` if
all are in use or one of them has the name. -/
def scanDevices (name : Name) : List ℕ → Option ℕ → Option ℕ
  | [], lfnext => lfnext
  | i :: rest, lfnext =>
      if (s.lfltab i).lfstate = .free then
        scanDevices name rest (if lfnext = none then some i else lfnext)
      else if (s.lfltab i).lfname = name then none
      else scanDevices name rest lfnext

/-- `lfsopen` up to the wait on the mutex: the mode bits and the number of a
free pseudo-device. -/
def openScan (name mode : Name) : Option (ℕ × ℕ) :=
  if s.lf_dskdev < 0 then none
  else if LF_NAME_LEN ≤ name.length then none
  else
    (lfgetmode mode).bind fun mbits =>
      (s.scanDevices name (List.range Nlfl) none).map fun lfnext =>
        (mbits, lfnext)

/-- The directory as the disk has it, if it is that of a file system. -/
def readDirectory : Option Lfs :=
  let s := { s with lf_dir := s.disk.dir }
  if lfscheck s.lf_dir then some { s with lf_dirpresent := true } else none

def findEntry (dir : Lfdir) (name : Name) : Option ℕ :=
  (List.range dir.lfd_nfiles.toNat).find? fun e =>
    (dir.lfd_files e).ld_name = name

/-- Add an entry for an empty file to the directory. -/
def addEntry (name : Name) : Lfs :=
  let e := s.lf_dir.lfd_nfiles.toNat
  let s := { s with lf_dir := { s.lf_dir with
    lfd_nfiles := s.lf_dir.lfd_nfiles + 1 } }
  s.setEntry e fun _ => ⟨0, LF_INULL, name⟩

/-- Initialize the pseudo-device `i` for the directory entry `e`. -/
def claimDevice (i e mbits : ℕ) (name : Name) : Lfs :=
  s.setFile i fun f =>
    { f with
      lfstate := .used
      lfdirptr := e
      lfmode := mbits &&& LF_MODE_RW
      lfpos := 0
      lfname := name
      lfinum := LF_INULL
      lfdnum := LF_DNULL
      lfbyte := LF_BLKSIZ
      lfibdirty := false
      lfdbdirty := false }

/-- The end of `lfsopen`, from the search of the directory on. -/
def openEntry (name : Name) (mbits lfnext : ℕ) : Lfs × ℤ :=
  match findEntry s.lf_dir name with
  | none =>
      if mbits &&& LF_MODE_O ≠ 0 then (s, SYSERR.toInt)
      else if LF_NUM_DIR_ENT ≤ s.lf_dir.lfd_nfiles then (s, SYSERR.toInt)
      else
        let e := s.lf_dir.lfd_nfiles.toNat
        let s := (s.addEntry name).claimDevice lfnext e mbits name
        (s, (s.lfltab lfnext).lfdev)
  | some e =>
      if mbits &&& LF_MODE_N ≠ 0 then (s, SYSERR.toInt)
      else
        let s := s.claimDevice lfnext e mbits name
        (s, (s.lfltab lfnext).lfdev)

/-- `lfsopen` when nothing else runs. -/
def lfsopen (name mode : Name) : Lfs × ℤ :=
  match s.openScan name mode with
  | none => (s, SYSERR.toInt)
  | some (mbits, lfnext) =>
      if s.lf_dirpresent then s.openEntry name mbits lfnext
      else
        match s.readDirectory with
        | none => ({ s with lf_dir := s.disk.dir }, SYSERR.toInt)
        | some s => s.openEntry name mbits lfnext

end Lfs

/-! ## lfscreate.c and lflinit.c -/

/-- The directory of an empty file system. -/
def emptyDir (ibsectors : ℕ) : Lfdir where
  lfd_fsysid := LFS_ID
  lfd_allzeros := 0
  lfd_allones := 0xFFFFFFFF
  lfd_dfree := ibsectors + 1
  lfd_ifree := 0
  lfd_nfiles := 0
  lfd_files := fun _ => ⟨0, 0, []⟩
  lfd_revid := LFS_REVID

/-- The list of free index blocks that `lfscreate` writes. -/
def formatIndex (lfiblks : ℕ) (d : Disk) : Disk :=
  let d := (List.range (lfiblks - 1)).foldl
    (fun d i => d.putIndex i { lfibclear 0 with ib_next := (i : ℤ) + 1 }) d
  d.putIndex (lfiblks - 1 : ℕ) (lfibclear 0)

/-- The list of free data blocks that `lfscreate` writes, from the sector
`dbindex` on. -/
def formatData (dbindex dblks : ℕ) (d : Disk) : Disk :=
  let dblock : Block := fun _ => 0
  let d := (List.range (dblks - 1)).foldl
    (fun d i => d.putBlock (dbindex + i : ℕ)
      (dblock.setNextdb ((dbindex + i : ℕ) + 1))) d
  d.putBlock (dbindex + (dblks - 1) : ℕ) (dblock.setNextdb LF_DNULL)

/-- `lfscreate` of a disk of `dsiz` bytes, with at least one index block and
one data block; `none` is `SYSERR`. -/
def lfscreate (lfiblks dsiz : ℕ) (d : Disk) : Option Disk :=
  let sectors := dsiz / LF_BLKSIZ
  let ibsectors := (lfiblks + 6) / 7
  if sectors / 2 < ibsectors then none
  else
    let d := { d with dir := emptyDir ibsectors }
    let d := formatIndex (7 * ibsectors) d
    some (formatData (ibsectors + 1) (sectors - ibsectors - 1) d)

def lflinit (dvnum : ℤ) : Lflcblk where
  lfstate := .free
  lfdev := dvnum
  lfdirptr := 0
  lfmode := 0
  lfpos := 0
  lfname := []
  lfinum := LF_INULL
  lfiblock := ⟨0, 0, fun _ => 0⟩
  lfdnum := 0
  lfdblock := fun _ => 0
  lfbyte := LF_BLKSIZ
  lfibdirty := false
  lfdbdirty := false

/-- The file system before the first open, with a disk selected; the devices
`LFILE0` and so on have the numbers from 18 on. -/
def mounted (disk : Disk) (dir : Lfdir) (junk : Block) : Lfs where
  lf_dskdev := 0
  lf_dir := dir
  lf_dirpresent := false
  lf_dirdirty := false
  lfltab := fun i => lflinit (18 + i)
  disk := disk
  junk := junk

end Xinu.LocalFiles
