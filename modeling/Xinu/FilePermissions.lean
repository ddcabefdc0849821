import Xinu.LocalFileOpens

/-!
# Permissions of local files

The calls on one open local file, in any order, by the process that opened
it.  The mode of the open is kept in `lfmode`, and a file that was not opened
for writing should not change, nor one that was not opened for reading deliver
its bytes.
-/

namespace Xinu.LocalFiles

open ByteMemory TransitionSystem

inductive FileOp
  | getc
  | putc (ch : BitVec 8)
  | read (count : ℤ)
  | write (buff : List (BitVec 8))
  | seek (offset : ℕ)
  | truncate
  | close

/-- The file system and the bytes that the calls have delivered. -/
structure Session where
  fs : Lfs
  delivered : List (BitVec 8)

def fileStep (budget i : ℕ) (s : Session) : FileOp → Option Session
  | .getc => (s.fs.lflgetc budget i).map fun (fs, onebyte) =>
      ⟨fs, if onebyte < 0 then s.delivered
        else s.delivered ++ [BitVec.ofInt 8 onebyte]⟩
  | .putc ch => (s.fs.lflputc budget i ch).map fun (fs, _) => { s with fs := fs }
  | .read count =>
      if count < 0 then some s
      else (s.fs.lflread budget i count.toNat).map fun (fs, buff, _) =>
        ⟨fs, s.delivered ++ buff⟩
  | .write buff => (s.fs.lflwrite budget i buff).map fun (fs, _) =>
      { s with fs := fs }
  | .seek offset => some { s with fs := (s.fs.lflseek i offset).1 }
  | .truncate => (s.fs.lflcontrolTrunc budget i).map fun (fs, _) =>
      { s with fs := fs }
  | .close => some { s with fs := (s.fs.lflclose i).1 }

/-! ## What a mode should allow -/

/-- `lfsopen` has opened the pseudo-device `i`. -/
structure OpenedAs (fs₀ : Lfs) (name mode : Name) (i : ℕ) (fs : Lfs) : Prop where
  scan : ∃ mbits, fs₀.openScan name mode = some (mbits, i)
  result : (fs₀.lfsopen name mode).1 = fs
  used : (fs.lfltab i).lfstate = .used

/-- The mode string asks for one of the two permissions. -/
def Grants (mode : Name) (bit : ℕ) : Prop :=
  ∃ mbits, lfgetmode mode = some mbits ∧ mbits &&& bit ≠ 0

/-- A file whose index blocks lie in a chain and cover its bytes. -/
structure Covered (fs : Lfs) (i : ℕ) (chain : ℕ → ℤ) : Prop where
  first : chain 0 = (fs.entry i).ld_ilist
  used : ∀ k, k * LF_IDATA < (fs.entry i).ld_size → chain k ≠ LF_INULL
  offset : ∀ k, k * LF_IDATA < (fs.entry i).ld_size →
    (fs.lfibget (chain k)).ib_offset = k * LF_IDATA
  next : ∀ k, (k + 1) * LF_IDATA < (fs.entry i).ld_size →
    (fs.lfibget (chain k)).ib_next = chain (k + 1)
  blocks : ∀ k j, j < LF_IBLEN →
    k * LF_IDATA + j * LF_BLKSIZ < (fs.entry i).ld_size →
      (fs.lfibget (chain k)).ib_dba j ≠ LF_DNULL

/-- Neither the size nor a byte of the file has changed, on the disk or in the
buffer. -/
structure Unchanged (i : ℕ) (fs fs' : Lfs) : Prop where
  size : (fs'.entry i).ld_size = (fs.entry i).ld_size
  blocks : fs'.disk.blocks = fs.disk.blocks
  clean : (fs'.lfltab i).lfdbdirty = false
  /-- In a file without holes the index is the same too. -/
  index : ∀ chain, Covered fs i chain →
    fs'.disk.iblocks = fs.disk.iblocks ∧ fs'.lf_dir = fs.lf_dir ∧
      (fs'.lfltab i).lfibdirty = false

structure PermissionLaw (mode : Name) (i : ℕ) (fs : Lfs) (s : Session) : Prop where
  write : ¬ Grants mode LF_MODE_W → Unchanged i fs s.fs
  read : ¬ Grants mode LF_MODE_R → s.delivered = []

/-- The call has its permission, or does nothing anyway. -/
def Permitted (i : ℕ) (s : Session) (op : FileOp) : Prop :=
  let f := s.fs.lfltab i
  let size := (s.fs.entry i).ld_size
  match op with
  | .getc => f.lfmode &&& LF_MODE_R ≠ 0 ∨ f.lfstate ≠ .used ∨ size ≤ f.lfpos
  | .read count => f.lfmode &&& LF_MODE_R ≠ 0 ∨ f.lfstate ≠ .used ∨
      size ≤ f.lfpos ∨ count ≤ 0
  | .putc _ => f.lfmode &&& LF_MODE_W ≠ 0 ∨ f.lfstate ≠ .used ∨ size < f.lfpos
  | .write buff => f.lfmode &&& LF_MODE_W ≠ 0 ∨ f.lfstate ≠ .used ∨
      size < f.lfpos ∨ buff = []
  | .truncate => f.lfmode &&& LF_MODE_W ≠ 0 ∨ f.lfstate ≠ .used ∨ size = 0
  | _ => True

instance (i : ℕ) (s : Session) (op : FileOp) : Decidable (Permitted i s op) := by
  unfold Permitted
  cases op <;> infer_instance

/-! ## What the calls keep -/

/-- A change that is no change of a file through the device `i`. -/
structure Kept (i : ℕ) (fs fs' : Lfs) : Prop where
  mode : (fs'.lfltab i).lfmode = (fs.lfltab i).lfmode
  entry : (fs'.lfltab i).lfdirptr = (fs.lfltab i).lfdirptr
  size : ∀ e, (fs'.lf_dir.lfd_files e).ld_size = (fs.lf_dir.lfd_files e).ld_size
  clean : (fs.lfltab i).lfdbdirty = false →
    fs'.disk.blocks = fs.disk.blocks ∧ (fs'.lfltab i).lfdbdirty = false

section Keeping

variable {fs fs' fs'' : Lfs} {i budget : ℕ} {f : Lflcblk → Lflcblk}

@[simp] theorem setFile_lfltab : (fs.setFile i f).lfltab i = f (fs.lfltab i) :=
  Function.update_self _ _ _

theorem Kept.refl (fs : Lfs) : Kept i fs fs :=
  ⟨rfl, rfl, fun _ => rfl, fun h => ⟨rfl, h⟩⟩

theorem Kept.trans (h : Kept i fs fs') (h' : Kept i fs' fs'') : Kept i fs fs'' where
  mode := h'.mode.trans h.mode
  entry := h'.entry.trans h.entry
  size := fun e => (h'.size e).trans (h.size e)
  clean := fun hclean => by
    obtain ⟨hblocks, hclean'⟩ := h.clean hclean
    obtain ⟨hblocks', hclean''⟩ := h'.clean hclean'
    exact ⟨hblocks'.trans hblocks, hclean''⟩

theorem Kept.setFile
    (hmode : (f (fs.lfltab i)).lfmode = (fs.lfltab i).lfmode)
    (hentry : (f (fs.lfltab i)).lfdirptr = (fs.lfltab i).lfdirptr)
    (hclean : (fs.lfltab i).lfdbdirty = false →
      (f (fs.lfltab i)).lfdbdirty = false) : Kept i fs (fs.setFile i f) where
  mode := by rw [setFile_lfltab, hmode]
  entry := by rw [setFile_lfltab, hentry]
  size := fun _ => rfl
  clean := fun h => ⟨rfl, by rw [setFile_lfltab, hclean h]⟩

/-- Other parts of the directory and the index blocks may change. -/
theorem Kept.others
    (htab : fs'.lfltab = fs.lfltab)
    (hsize : ∀ e, (fs'.lf_dir.lfd_files e).ld_size =
      (fs.lf_dir.lfd_files e).ld_size)
    (hblocks : fs'.disk.blocks = fs.disk.blocks) : Kept i fs fs' where
  mode := by rw [htab]
  entry := by rw [htab]
  size := hsize
  clean := fun h => ⟨hblocks, by rwa [htab]⟩

theorem Kept.lfiballoc {ibnum : ℤ} (h : fs.lfiballoc = some (fs', ibnum)) :
    Kept i fs fs' := by
  unfold Lfs.lfiballoc at h
  dsimp only at h
  split_ifs at h
  cases h
  exact .others rfl (fun _ => rfl) rfl

theorem Kept.lfdballoc {dnum : ℤ} {dbuff : Block}
    (h : fs.lfdballoc = some (fs', dnum, dbuff)) : Kept i fs fs' := by
  unfold Lfs.lfdballoc at h
  dsimp only at h
  split_ifs at h
  cases h
  exact .others rfl (fun _ => rfl) rfl

theorem Kept.lfflush : Kept i fs (fs.lfflush i) := by
  unfold Lfs.lfflush
  split_ifs
  · exact .refl fs
  have hdir : Kept i fs fs.flushDir := by
    unfold Lfs.flushDir
    split_ifs
    · exact .others rfl (fun _ => rfl) rfl
    · exact .refl fs
  have hdata : ∀ fs : Lfs, Kept i fs (fs.flushData i) := by
    intro fs
    unfold Lfs.flushData
    split_ifs with hdirty
    · refine ⟨?_, ?_, fun _ => rfl, ?_⟩
      · rw [setFile_lfltab]
        rfl
      · rw [setFile_lfltab]
        rfl
      · intro hclean
        rw [hclean] at hdirty
        cases hdirty
    · exact .refl fs
  have hindex : ∀ fs : Lfs, Kept i fs (fs.flushIndex i) := by
    intro fs
    unfold Lfs.flushIndex
    split_ifs
    · have hput : Kept i fs (fs.lfibput (fs.lfltab i).lfinum
          (fs.lfltab i).lfiblock) := .others rfl (fun _ => rfl) rfl
      exact hput.trans (.setFile rfl rfl id)
    · exact .refl fs
  exact (hdir.trans (hdata _)).trans (hindex _)

theorem Kept.setupFirst (h : fs.setupFirst i = some fs') : Kept i fs fs' := by
  unfold Lfs.setupFirst at h
  split_ifs at h
  · rw [Option.map_eq_some_iff] at h
    obtain ⟨⟨s, ibnum⟩, halloc, rfl⟩ := h
    apply (Kept.lfiballoc halloc).trans
    have hentry : Kept i s (s.setEntry (s.lfltab i).lfdirptr fun e =>
        { e with ld_ilist := ibnum }) := by
      refine .others rfl ?_ rfl
      intro e
      unfold Lfs.setEntry
      dsimp only
      rw [Function.update_apply]
      split_ifs with he
      · rw [he]
      · rfl
    exact hentry.trans (.setFile rfl rfl id)
  · cases h
    exact .setFile rfl rfl id
  · cases h
    exact .setFile rfl rfl id
  · cases h
    exact .refl fs

theorem Kept.setupNext (h : fs.setupNext i = some fs') : Kept i fs fs' := by
  unfold Lfs.setupNext at h
  dsimp only at h
  split_ifs at h
  · rw [Option.map_eq_some_iff] at h
    obtain ⟨⟨s, ibnum⟩, halloc, rfl⟩ := h
    apply (Kept.lfiballoc halloc).trans
    have hput : ∀ inum ib, Kept i s (s.lfibput inum ib) :=
      fun _ _ => .others rfl (fun _ => rfl) rfl
    exact (hput _ _).trans (.setFile rfl rfl id)
  · cases h
    have hload : Kept i fs (fs.loadIndex i (fs.lfltab i).lfiblock.ib_next) :=
      .setFile rfl rfl id
    exact hload.trans (.setFile rfl rfl id)

theorem Kept.setupIndex (h : Lfs.setupIndex i budget fs = some fs') :
    Kept i fs fs' := by
  induction budget generalizing fs with
  | zero => cases h
  | succ budget ih =>
      unfold Lfs.setupIndex at h
      dsimp only at h
      split_ifs at h
      · rw [Option.bind_eq_some_iff] at h
        obtain ⟨s, hnext, hrest⟩ := h
        exact (Kept.setupNext hnext).trans (ih hrest)
      · cases h
        exact .refl _

theorem Kept.setupData (h : fs.setupData i = some fs') : Kept i fs fs' := by
  unfold Lfs.setupData at h
  dsimp only at h
  split_ifs at h
  · rw [Option.map_eq_some_iff] at h
    obtain ⟨⟨s, dnum, dbuff⟩, halloc, rfl⟩ := h
    apply (Kept.lfdballoc halloc).trans
    exact (Kept.setFile rfl rfl id).trans (.setFile rfl rfl id)
  · cases h
    exact (Kept.setFile rfl rfl fun _ => rfl).trans (.setFile rfl rfl id)
  · cases h
    exact .setFile rfl rfl id

theorem Kept.lfsetup (h : fs.lfsetup budget i = some fs') : Kept i fs fs' := by
  unfold Lfs.lfsetup at h
  dsimp only at h
  simp only [Option.bind_eq_some_iff] at h
  obtain ⟨s₂, ⟨s₁, hfirst, hindex⟩, hdata⟩ := h
  have hflush : Kept i fs (if (fs.lfltab i).lfibdirty || (fs.lfltab i).lfdbdirty
      then fs.lfflush i else fs) := by
    split_ifs
    · exact .lfflush
    · exact .refl fs
  exact ((hflush.trans (.setupFirst hfirst)).trans (.setupIndex hindex)).trans
    (.setupData hdata)

theorem Kept.ensureBlock (h : fs.ensureBlock budget i = some fs') :
    Kept i fs fs' := by
  unfold Lfs.ensureBlock at h
  split_ifs at h
  · exact .lfsetup h
  · cases h
    exact .refl fs

theorem Kept.lflgetc {v : ℤ} (h : fs.lflgetc budget i = some (fs', v)) :
    Kept i fs fs' := by
  unfold Lfs.lflgetc at h
  split_ifs at h
  · cases h
    exact .refl fs
  · cases h
    exact .refl fs
  · rw [Option.map_eq_some_iff] at h
    obtain ⟨s, hensure, heq⟩ := h
    cases heq
    exact (Kept.ensureBlock hensure).trans (.setFile rfl rfl id)

theorem Kept.readLoop
    {count : ℕ} {buff : List (BitVec 8)} {early : Option ℤ}
    (h : Lfs.readLoop budget i count fs = some (fs', buff, early)) :
    Kept i fs fs' := by
  induction count generalizing fs buff with
  | zero =>
      cases h
      exact .refl _
  | succ count ih =>
      unfold Lfs.readLoop at h
      rw [Option.bind_eq_some_iff] at h
      obtain ⟨⟨s, nxtbyte⟩, hget, hrest⟩ := h
      dsimp only at hrest
      split_ifs at hrest
      · cases hrest
        exact .lflgetc hget
      · rw [Option.map_eq_some_iff] at hrest
        obtain ⟨⟨s', buff', early'⟩, hloop, heq⟩ := hrest
        cases heq
        exact (Kept.lflgetc hget).trans (ih hloop)

theorem Kept.lflseek {offset : ℕ} : Kept i fs (fs.lflseek i offset).1 := by
  unfold Lfs.lflseek
  split_ifs
  · exact .refl fs
  · exact .refl fs
  · dsimp only
    apply Kept.setFile
    · rfl
    · rfl
    · exact id

theorem Kept.lflclose : Kept i fs (fs.lflclose i).1 := by
  unfold Lfs.lflclose
  dsimp only
  split_ifs
  · exact .refl fs
  · apply Kept.lfflush.trans
    dsimp only
    apply Kept.setFile
    · rfl
    · rfl
    · exact id
  · dsimp only
    apply Kept.setFile
    · rfl
    · rfl
    · exact id

/-! ## The mode of an open file -/

theorem lflputc_mode
    {ch : BitVec 8} {v : ℤ} (h : fs.lflputc budget i ch = some (fs', v)) :
    (fs'.lfltab i).lfmode = (fs.lfltab i).lfmode := by
  unfold Lfs.lflputc at h
  split_ifs at h
  · cases h
    rfl
  · cases h
    rfl
  · rw [Option.map_eq_some_iff] at h
    obtain ⟨s, hensure, heq⟩ := h
    cases heq
    rw [setFile_lfltab]
    dsimp only
    split_ifs
    · exact (Kept.ensureBlock hensure).mode
    · exact (Kept.ensureBlock hensure).mode

theorem writeLoop_mode
    {buff : List (BitVec 8)} {done : Bool}
    (h : Lfs.writeLoop budget i buff fs = some (fs', done)) :
    (fs'.lfltab i).lfmode = (fs.lfltab i).lfmode := by
  induction buff generalizing fs with
  | nil =>
      cases h
      rfl
  | cons ch rest ih =>
      unfold Lfs.writeLoop at h
      rw [Option.bind_eq_some_iff] at h
      obtain ⟨⟨s, status⟩, hput, hrest⟩ := h
      dsimp only at hrest
      split_ifs at hrest
      · cases hrest
        exact lflputc_mode hput
      · exact (ih hrest).trans (lflputc_mode hput)

theorem freeBlocks_lfltab (ib : Lfiblk) : (fs.freeBlocks ib).lfltab = fs.lfltab := by
  unfold Lfs.freeBlocks
  generalize List.range LF_IBLEN = l
  induction l generalizing fs with
  | nil => rfl
  | cons j l ih =>
      rw [List.foldl_cons, ih]
      split_ifs
      · rfl
      · rfl

theorem truncateLoop_lfltab
    {ifree nextib : ℤ} (h : Lfs.truncateLoop ifree budget nextib fs = some fs') :
    fs'.lfltab = fs.lfltab := by
  induction budget generalizing fs nextib with
  | zero => cases h
  | succ budget ih =>
      unfold Lfs.truncateLoop at h
      dsimp only at h
      split_ifs at h
      · cases h
        rfl
      all_goals exact (ih h).trans (freeBlocks_lfltab _)

theorem lflcontrolTrunc_mode
    {v : ℤ} (h : fs.lflcontrolTrunc budget i = some (fs', v)) :
    (fs'.lfltab i).lfmode = (fs.lfltab i).lfmode := by
  unfold Lfs.lflcontrolTrunc at h
  split_ifs at h
  · cases h
    rfl
  rw [Option.map_eq_some_iff] at h
  obtain ⟨s, htrunc, heq⟩ := h
  cases heq
  unfold Lfs.lftruncate at htrunc
  split_ifs at htrunc
  · cases htrunc
    rfl
  all_goals
    rw [Option.map_eq_some_iff] at htrunc
    obtain ⟨s', hloop, rfl⟩ := htrunc
    have htab := truncateLoop_lfltab hloop
    dsimp only
    rw [htab]
    unfold Lfs.setEntry
    dsimp only
    rw [setFile_lfltab]
  · exact Kept.lfflush.mode

/-! ## Calls that do nothing -/

theorem lflgetc_refused
    {v : ℤ} (h : fs.lflgetc budget i = some (fs', v))
    (hnone : (fs.lfltab i).lfstate ≠ .used ∨
      (fs.entry i).ld_size ≤ (fs.lfltab i).lfpos) :
    fs' = fs ∧ v < 0 ∧ (v = SYSERR.toInt ∨ v = EOF) := by
  unfold Lfs.lflgetc at h
  split_ifs at h with hused hend
  · cases h
    exact ⟨rfl, by decide, Or.inl rfl⟩
  · cases h
    exact ⟨rfl, by decide, Or.inr rfl⟩
  · exact absurd hnone (by tauto)

theorem lflputc_refused
    {ch : BitVec 8} {v : ℤ} (h : fs.lflputc budget i ch = some (fs', v))
    (hnone : (fs.lfltab i).lfstate ≠ .used ∨
      (fs.entry i).ld_size < (fs.lfltab i).lfpos) :
    fs' = fs ∧ v = SYSERR.toInt := by
  unfold Lfs.lflputc at h
  split_ifs at h with hused hend
  · cases h
    exact ⟨rfl, rfl⟩
  · cases h
    exact ⟨rfl, rfl⟩
  · exact absurd hnone (by tauto)

theorem lflread_refused
    {count : ℕ} {buff : List (BitVec 8)} {v : ℤ}
    (h : fs.lflread budget i count = some (fs', buff, v))
    (hnone : (fs.lfltab i).lfstate ≠ .used ∨
      (fs.entry i).ld_size ≤ (fs.lfltab i).lfpos ∨ count = 0) :
    fs' = fs ∧ buff = [] := by
  unfold Lfs.lflread at h
  rw [Option.map_eq_some_iff] at h
  obtain ⟨⟨s, buff', early⟩, hloop, heq⟩ := h
  have hsame : s = fs ∧ buff' = [] := by
    cases count with
    | zero =>
        cases hloop
        exact ⟨rfl, rfl⟩
    | succ count =>
        unfold Lfs.readLoop at hloop
        rw [Option.bind_eq_some_iff] at hloop
        obtain ⟨⟨s', v'⟩, hget, hrest⟩ := hloop
        obtain ⟨rfl, -, hv⟩ := lflgetc_refused hget (by tauto)
        dsimp only at hrest
        rw [if_pos hv] at hrest
        cases hrest
        exact ⟨rfl, rfl⟩
  dsimp only at heq
  obtain ⟨rfl, rfl⟩ := hsame
  split at heq
  · cases heq
    exact ⟨rfl, rfl⟩
  · split_ifs at heq
    all_goals
      cases heq
      exact ⟨rfl, rfl⟩

theorem lflwrite_refused
    {buff : List (BitVec 8)} {v : ℤ}
    (h : fs.lflwrite budget i buff = some (fs', v))
    (hnone : (fs.lfltab i).lfstate ≠ .used ∨
      (fs.entry i).ld_size < (fs.lfltab i).lfpos ∨ buff = []) : fs' = fs := by
  unfold Lfs.lflwrite at h
  rw [Option.map_eq_some_iff] at h
  obtain ⟨⟨s, done⟩, hloop, heq⟩ := h
  cases heq
  cases buff with
  | nil =>
      cases hloop
      rfl
  | cons ch rest =>
      unfold Lfs.writeLoop at hloop
      rw [Option.bind_eq_some_iff] at hloop
      obtain ⟨⟨s', v'⟩, hput, hrest⟩ := hloop
      obtain ⟨rfl, rfl⟩ := lflputc_refused hput (by simpa using hnone)
      dsimp only at hrest
      rw [if_pos rfl] at hrest
      cases hrest
      rfl

theorem lflcontrolTrunc_refused
    {v : ℤ} (h : fs.lflcontrolTrunc budget i = some (fs', v))
    (hnone : (fs.lfltab i).lfstate ≠ .used ∨ (fs.entry i).ld_size = 0) :
    fs' = fs := by
  unfold Lfs.lflcontrolTrunc at h
  split_ifs at h with hused
  · cases h
    rfl
  rw [Option.map_eq_some_iff] at h
  obtain ⟨s, htrunc, heq⟩ := h
  cases heq
  unfold Lfs.lftruncate at htrunc
  rw [if_pos (by tauto)] at htrunc
  cases htrunc
  rfl

end Keeping

/-! ## A file without holes -/

/-- The device is at some place of a file whose blocks it has not changed. -/
structure Following (fs fs' : Lfs) (i : ℕ) (chain : ℕ → ℤ) : Prop where
  iblocks : fs'.disk.iblocks = fs.disk.iblocks
  dir : fs'.lf_dir = fs.lf_dir
  entry : (fs'.lfltab i).lfdirptr = (fs.lfltab i).lfdirptr
  ibclean : (fs'.lfltab i).lfibdirty = false
  dbclean : (fs'.lfltab i).lfdbdirty = false
  pos : (fs'.lfltab i).lfpos ≤ (fs.entry i).ld_size
  index : (fs'.lfltab i).lfinum = LF_INULL ∨
    ∃ k, k * LF_IDATA < (fs.entry i).ld_size ∧
      (fs'.lfltab i).lfinum = chain k ∧
        (fs'.lfltab i).lfiblock = fs.lfibget (chain k)

/-- The index block in memory is the `k`-th one, at or before the position. -/
structure Loaded (fs fs' : Lfs) (i : ℕ) (chain : ℕ → ℤ) (k : ℕ) : Prop
    extends Following fs fs' i chain where
  inum : (fs'.lfltab i).lfinum = chain k
  iblock : (fs'.lfltab i).lfiblock = fs.lfibget (chain k)
  before : k * LF_IDATA ≤ (fs'.lfltab i).lfpos
  inside : (fs'.lfltab i).lfpos < (fs.entry i).ld_size

section Covering

variable {fs fs' fs'' : Lfs} {i budget k : ℕ} {chain : ℕ → ℤ}
  {f : Lflcblk → Lflcblk}

theorem Following.entry_eq (h : Following fs fs' i chain) :
    fs'.entry i = fs.entry i := by
  unfold Lfs.entry
  rw [h.dir, h.entry]

theorem Following.lfibget_eq (h : Following fs fs' i chain) (inum : ℤ) :
    fs'.lfibget inum = fs.lfibget inum := by
  unfold Lfs.lfibget
  rw [h.iblocks]

theorem Following.setFile
    (h : Following fs fs' i chain)
    (hentry : (f (fs'.lfltab i)).lfdirptr = (fs'.lfltab i).lfdirptr)
    (hib : (f (fs'.lfltab i)).lfibdirty = (fs'.lfltab i).lfibdirty)
    (hdb : (f (fs'.lfltab i)).lfdbdirty = false)
    (hpos : (f (fs'.lfltab i)).lfpos ≤ (fs.entry i).ld_size)
    (hindex : (f (fs'.lfltab i)).lfinum = LF_INULL ∨
      ∃ k, k * LF_IDATA < (fs.entry i).ld_size ∧
        (f (fs'.lfltab i)).lfinum = chain k ∧
          (f (fs'.lfltab i)).lfiblock = fs.lfibget (chain k)) :
    Following fs (fs'.setFile i f) i chain where
  iblocks := h.iblocks
  dir := h.dir
  entry := by rw [setFile_lfltab, hentry, h.entry]
  ibclean := by rw [setFile_lfltab, hib, h.ibclean]
  dbclean := by rw [setFile_lfltab, hdb]
  pos := by rwa [setFile_lfltab]
  index := by rwa [setFile_lfltab]

/-- The `k`-th index block is read in. -/
theorem Following.loadIndex
    (h : Following fs fs' i chain)
    (hbefore : k * LF_IDATA ≤ (fs'.lfltab i).lfpos)
    (hinside : (fs'.lfltab i).lfpos < (fs.entry i).ld_size) :
    Loaded fs (fs'.loadIndex i (chain k)) i chain k := by
  unfold Lfs.loadIndex
  refine ⟨h.setFile rfl rfl h.dbclean h.pos (Or.inr ⟨k, ?_, rfl, ?_⟩), ?_, ?_, ?_, ?_⟩
  · exact lt_of_le_of_lt hbefore hinside
  · exact h.lfibget_eq _
  · rw [setFile_lfltab]
  · rw [setFile_lfltab]
    exact h.lfibget_eq _
  · rwa [setFile_lfltab]
  · rwa [setFile_lfltab]

theorem Following.setupFirst
    (hcover : Covered fs i chain) (h : Following fs fs' i chain)
    (hinside : (fs'.lfltab i).lfpos < (fs.entry i).ld_size)
    (hrun : fs'.setupFirst i = some fs'') :
    ∃ k, Loaded fs fs'' i chain k ∧
      (fs''.lfltab i).lfpos = (fs'.lfltab i).lfpos := by
  have hfirst : (fs'.entry i).ld_ilist = chain 0 := by
    rw [h.entry_eq, hcover.first]
  have hload : Loaded fs (fs'.loadIndex i (chain 0)) i chain 0 :=
    h.loadIndex (by simp) hinside
  have hpos : ((fs'.loadIndex i (chain 0)).lfltab i).lfpos =
      (fs'.lfltab i).lfpos := by
    unfold Lfs.loadIndex
    rw [setFile_lfltab]
  unfold Lfs.setupFirst at hrun
  split_ifs at hrun with hnull hempty hback
  · rw [hfirst] at hempty
    exact absurd hempty (hcover.used 0 (by omega))
  · cases hrun
    rw [hfirst]
    exact ⟨0, hload, hpos⟩
  · cases hrun
    rw [hfirst]
    exact ⟨0, hload, hpos⟩
  · cases hrun
    rcases h.index with hnone | ⟨k, hk, hinum, hiblock⟩
    · exact absurd hnone hnull
    · rw [hiblock, hcover.offset k hk] at hback
      exact ⟨k, ⟨h, hinum, hiblock, by omega, hinside⟩, rfl⟩

theorem Loaded.setupNext
    (hcover : Covered fs i chain) (h : Loaded fs fs' i chain k)
    (hmore : (k + 1) * LF_IDATA ≤ (fs'.lfltab i).lfpos)
    (hrun : fs'.setupNext i = some fs'') :
    Loaded fs fs'' i chain (k + 1) ∧
      (fs''.lfltab i).lfpos = (fs'.lfltab i).lfpos := by
  have hinside := lt_of_le_of_lt hmore h.inside
  have hnext : (fs'.lfltab i).lfiblock.ib_next = chain (k + 1) := by
    rw [h.iblock, hcover.next k hinside]
  unfold Lfs.setupNext at hrun
  dsimp only at hrun
  rw [hnext, if_neg (hcover.used _ hinside)] at hrun
  cases hrun
  have hload := h.toFollowing.loadIndex hmore h.inside
  constructor
  · refine ⟨hload.toFollowing.setFile rfl rfl hload.dbclean hload.pos hload.index,
      ?_, ?_, ?_, ?_⟩
    · rw [setFile_lfltab]
      exact hload.inum
    · rw [setFile_lfltab]
      exact hload.iblock
    · rw [setFile_lfltab]
      exact hload.before
    · rw [setFile_lfltab]
      exact hload.inside
  · rw [setFile_lfltab]
    unfold Lfs.loadIndex
    rw [setFile_lfltab]

theorem Loaded.setupIndex
    (hcover : Covered fs i chain) (h : Loaded fs fs' i chain k)
    (hrun : Lfs.setupIndex i budget fs' = some fs'') :
    ∃ k', Loaded fs fs'' i chain k' ∧
      (fs''.lfltab i).lfpos = (fs'.lfltab i).lfpos ∧
        (fs''.lfltab i).lfpos / LF_IDATA = k' := by
  induction budget generalizing fs' k with
  | zero => cases hrun
  | succ budget ih =>
      have hoffset : (fs'.lfltab i).lfiblock.ib_offset = k * LF_IDATA := by
        rw [h.iblock, hcover.offset k (lt_of_le_of_lt h.before h.inside)]
      unfold Lfs.setupIndex at hrun
      dsimp only at hrun
      rw [hoffset] at hrun
      by_cases hmore : k * LF_IDATA < (fs'.lfltab i).lfpos / LF_IDATA * LF_IDATA
      · rw [if_pos hmore, Option.bind_eq_some_iff] at hrun
        obtain ⟨s, hnext, hrest⟩ := hrun
        have hlt : k < (fs'.lfltab i).lfpos / LF_IDATA :=
          Nat.lt_of_mul_lt_mul_right hmore
        have hreached : (k + 1) * LF_IDATA ≤ (fs'.lfltab i).lfpos :=
          (Nat.le_div_iff_mul_le (by decide)).mp hlt
        obtain ⟨hload, hpos⟩ := h.setupNext hcover hreached hnext
        obtain ⟨k', hload', hpos', hk'⟩ := ih hload hrest
        exact ⟨k', hload', hpos'.trans hpos, hk'⟩
      · rw [if_neg hmore] at hrun
        cases hrun
        refine ⟨k, h, rfl, le_antisymm ?_ ?_⟩
        · exact Nat.le_of_mul_le_mul_right (Nat.le_of_not_lt hmore) (by decide)
        · exact (Nat.le_div_iff_mul_le (by decide)).mpr h.before

theorem Loaded.setupData
    (hcover : Covered fs i chain) (h : Loaded fs fs' i chain k)
    (hk : (fs'.lfltab i).lfpos / LF_IDATA = k)
    (hrun : fs'.setupData i = some fs'') :
    Following fs fs'' i chain ∧
      (fs''.lfltab i).lfpos = (fs'.lfltab i).lfpos := by
  have hinside := h.inside
  have hdnum : (fs'.lfltab i).lfiblock.ib_dba
      ((fs'.lfltab i).lfpos % LF_IDATA / LF_BLKSIZ) ≠ LF_DNULL := by
    rw [h.iblock]
    unfold LF_IDATA LF_BLKSIZ at *
    apply hcover.blocks
    · unfold LF_IBLEN
      omega
    · unfold LF_IDATA LF_BLKSIZ
      omega
  unfold Lfs.setupData at hrun
  dsimp only at hrun
  rw [if_neg hdnum] at hrun
  split_ifs at hrun
  · cases hrun
    constructor
    · apply Following.setFile
      · exact h.toFollowing.setFile rfl rfl rfl h.pos h.index
      all_goals simp [setFile_lfltab]
      · exact h.pos
      · exact h.index
    · simp [setFile_lfltab]
  · cases hrun
    constructor
    · exact h.toFollowing.setFile rfl rfl h.dbclean h.pos h.index
    · rw [setFile_lfltab]

theorem Following.ensureBlock
    (hcover : Covered fs i chain) (h : Following fs fs' i chain)
    (hinside : (fs'.lfltab i).lfpos < (fs.entry i).ld_size)
    (hrun : fs'.ensureBlock budget i = some fs'') :
    Following fs fs'' i chain ∧
      (fs''.lfltab i).lfpos = (fs'.lfltab i).lfpos := by
  unfold Lfs.ensureBlock at hrun
  split_ifs at hrun
  · unfold Lfs.lfsetup at hrun
    simp only [h.ibclean, h.dbclean, Bool.or_self, Bool.false_eq_true, if_false,
      Option.bind_eq_some_iff] at hrun
    obtain ⟨s₂, ⟨s₁, hfirst, hindex⟩, hdata⟩ := hrun
    obtain ⟨k, hload, hpos⟩ := h.setupFirst hcover hinside hfirst
    obtain ⟨k', hload', hpos', hk'⟩ := hload.setupIndex hcover hindex
    obtain ⟨hfollow, hpos''⟩ := hload'.setupData hcover hk' hdata
    exact ⟨hfollow, hpos''.trans (hpos'.trans hpos)⟩
  · cases hrun
    exact ⟨h, rfl⟩

theorem Following.lflgetc
    {v : ℤ} (hcover : Covered fs i chain) (h : Following fs fs' i chain)
    (hrun : fs'.lflgetc budget i = some (fs'', v)) :
    Following fs fs'' i chain := by
  unfold Lfs.lflgetc at hrun
  split_ifs at hrun with hused hend
  · cases hrun
    exact h
  · cases hrun
    exact h
  · rw [h.entry_eq] at hend
    rw [Option.map_eq_some_iff] at hrun
    obtain ⟨s, hensure, heq⟩ := hrun
    cases heq
    obtain ⟨hfollow, hpos⟩ := h.ensureBlock hcover (by omega) hensure
    apply hfollow.setFile rfl rfl hfollow.dbclean _ hfollow.index
    change (s.lfltab i).lfpos + 1 ≤ _
    omega

theorem Following.readLoop
    {count : ℕ} {buff : List (BitVec 8)} {early : Option ℤ}
    (hcover : Covered fs i chain) (h : Following fs fs' i chain)
    (hrun : Lfs.readLoop budget i count fs' = some (fs'', buff, early)) :
    Following fs fs'' i chain := by
  induction count generalizing fs' buff with
  | zero =>
      cases hrun
      exact h
  | succ count ih =>
      unfold Lfs.readLoop at hrun
      rw [Option.bind_eq_some_iff] at hrun
      obtain ⟨⟨s, nxtbyte⟩, hget, hrest⟩ := hrun
      dsimp only at hrest
      split_ifs at hrest
      · cases hrest
        exact h.lflgetc hcover hget
      · rw [Option.map_eq_some_iff] at hrest
        obtain ⟨⟨s', buff', early'⟩, hloop, heq⟩ := hrest
        cases heq
        exact ih (h.lflgetc hcover hget) hloop

theorem Following.lflseek
    {offset : ℕ} (h : Following fs fs' i chain) :
    Following fs (fs'.lflseek i offset).1 i chain := by
  unfold Lfs.lflseek
  split_ifs with hused hend
  · exact h
  · exact h
  · rw [h.entry_eq] at hend
    have hle : offset ≤ (fs.entry i).ld_size := by omega
    dsimp only
    exact h.setFile rfl rfl h.dbclean hle h.index

theorem Following.lflclose (h : Following fs fs' i chain) :
    Following fs (fs'.lflclose i).1 i chain := by
  unfold Lfs.lflclose
  dsimp only
  split_ifs
  · exact h
  · have hflush : Following fs (fs'.lfflush i) i chain := by
      have hdir : Following fs fs'.flushDir i chain := by
        unfold Lfs.flushDir
        split_ifs
        · exact ⟨h.iblocks, h.dir, h.entry, h.ibclean, h.dbclean, h.pos, h.index⟩
        · exact h
      unfold Lfs.lfflush
      split_ifs
      · exact h
      · unfold Lfs.flushData
        rw [if_neg (by simp [hdir.dbclean])]
        unfold Lfs.flushIndex
        rw [if_neg (by simp [hdir.ibclean])]
        exact hdir
    dsimp only
    exact hflush.setFile rfl rfl hflush.dbclean hflush.pos hflush.index
  · dsimp only
    exact h.setFile rfl rfl h.dbclean h.pos h.index

end Covering

/-! ## Runs -/

section Runs

variable {fs₀ fs : Lfs} {name mode : Name} {i budget mbits : ℕ} {s s' : Session}
  {op : FileOp}

/-- What `lfsopen` leaves in the control block of the file. -/
structure Claimed (fs : Lfs) (i mbits : ℕ) : Prop where
  mode : (fs.lfltab i).lfmode = mbits &&& LF_MODE_RW
  pos : (fs.lfltab i).lfpos = 0
  inum : (fs.lfltab i).lfinum = LF_INULL
  ibclean : (fs.lfltab i).lfibdirty = false
  dbclean : (fs.lfltab i).lfdbdirty = false

theorem claimDevice_claimed {e : ℕ} :
    Claimed (fs.claimDevice i e mbits name) i mbits := by
  unfold Lfs.claimDevice
  constructor <;> rw [setFile_lfltab]

theorem openEntry_claimed
    (hfree : (fs.lfltab i).lfstate = .free)
    (hused : ((fs.openEntry name mbits i).1.lfltab i).lfstate = .used) :
    Claimed (fs.openEntry name mbits i).1 i mbits := by
  have hrefused : ∀ {P : Prop}, (fs.lfltab i).lfstate = .used → P := by
    intro P h
    rw [hfree] at h
    cases h
  unfold Lfs.openEntry at hused ⊢
  split at hused
  · dsimp only at hused ⊢
    split_ifs at hused ⊢
    · exact hrefused hused
    · exact hrefused hused
    · exact claimDevice_claimed
  · dsimp only at hused ⊢
    split_ifs at hused ⊢
    · exact hrefused hused
    · exact claimDevice_claimed

theorem OpenedAs.claimed (h : OpenedAs fs₀ name mode i fs) :
    ∃ mbits, lfgetmode mode = some mbits ∧ Claimed fs i mbits := by
  obtain ⟨⟨mbits, hscan⟩, hresult, hused⟩ := h
  obtain ⟨-, hfree, -⟩ := openScan_spec hscan
  have hmode : lfgetmode mode = some mbits := by
    unfold Lfs.openScan at hscan
    split_ifs at hscan
    rw [Option.bind_eq_some_iff] at hscan
    obtain ⟨bits, hbits, hrest⟩ := hscan
    rw [Option.map_eq_some_iff] at hrest
    obtain ⟨j, -, heq⟩ := hrest
    cases heq
    exact hbits
  refine ⟨mbits, hmode, ?_⟩
  unfold Lfs.lfsopen at hresult
  rw [hscan] at hresult
  dsimp only at hresult
  split_ifs at hresult
  · rw [← hresult] at hused ⊢
    exact openEntry_claimed hfree hused
  · unfold Lfs.readDirectory at hresult
    dsimp only at hresult
    split_ifs at hresult
    · rw [← hresult] at hused ⊢
      exact openEntry_claimed hfree hused
    · rw [← hresult] at hused
      dsimp only at hused
      rw [hfree] at hused
      cases hused

/-- The permissions in the control block are those of the mode string. -/
theorem Claimed.bit_eq_zero
    {bit : ℕ} (h : Claimed fs i mbits) (hmode : lfgetmode mode = some mbits)
    (hbit : LF_MODE_RW &&& bit = bit) (hdenied : ¬ Grants mode bit) :
    (fs.lfltab i).lfmode &&& bit = 0 := by
  rw [h.mode, Nat.and_assoc, hbit]
  by_contra hne
  exact hdenied ⟨mbits, hmode, hne⟩

/-- The state of a session with a file that was opened in the state `fs`. -/
structure SessionInv (i : ℕ) (fs : Lfs) (s : Session) : Prop where
  mode : (s.fs.lfltab i).lfmode = (fs.lfltab i).lfmode
  kept : (fs.lfltab i).lfmode &&& LF_MODE_W = 0 → Kept i fs s.fs
  following : (fs.lfltab i).lfmode &&& LF_MODE_W = 0 → ∀ chain,
    Covered fs i chain → Following fs s.fs i chain
  silent : (fs.lfltab i).lfmode &&& LF_MODE_R = 0 → s.delivered = []

theorem SessionInv.reading
    {fs' : Lfs} {delivered : List (BitVec 8)} (h : SessionInv i fs s)
    (hkept : Kept i s.fs fs')
    (hfollow : ∀ chain, Covered fs i chain → Following fs s.fs i chain →
      Following fs fs' i chain)
    (hsilent : (fs.lfltab i).lfmode &&& LF_MODE_R = 0 → delivered = []) :
    SessionInv i fs ⟨fs', delivered⟩ where
  mode := hkept.mode.trans h.mode
  kept := fun hw => (h.kept hw).trans hkept
  following := fun hw chain hcover => hfollow chain hcover (h.following hw chain hcover)
  silent := hsilent

theorem SessionInv.writing
    {fs' : Lfs} (h : SessionInv i fs s)
    (hmode : (fs'.lfltab i).lfmode = (s.fs.lfltab i).lfmode)
    (hsame : (s.fs.lfltab i).lfmode &&& LF_MODE_W = 0 → fs' = s.fs) :
    SessionInv i fs { s with fs := fs' } where
  mode := hmode.trans h.mode
  kept := fun hw => by
    rw [hsame (h.mode ▸ hw)]
    exact h.kept hw
  following := fun hw => by
    rw [hsame (h.mode ▸ hw)]
    exact h.following hw
  silent := h.silent

/-- What `lflread` does to the file system its loop does. -/
theorem exists_readLoop
    {count : ℕ} {buff : List (BitVec 8)} {v : ℤ}
    (h : fs.lflread budget i count = some (fs', buff, v)) :
    ∃ buff' early, Lfs.readLoop budget i count fs = some (fs', buff', early) := by
  unfold Lfs.lflread at h
  rw [Option.map_eq_some_iff] at h
  obtain ⟨⟨t, buff', early⟩, hloop, heq⟩ := h
  refine ⟨buff', early, ?_⟩
  rw [hloop]
  cases early with
  | none =>
      cases heq
      rfl
  | some nxtbyte =>
      dsimp only at heq
      split_ifs at heq
      all_goals
        cases heq
        rfl

theorem lflwrite_mode
    {buff : List (BitVec 8)} {v : ℤ}
    (h : fs.lflwrite budget i buff = some (fs', v)) :
    (fs'.lfltab i).lfmode = (fs.lfltab i).lfmode := by
  unfold Lfs.lflwrite at h
  rw [Option.map_eq_some_iff] at h
  obtain ⟨⟨t, done⟩, hloop, heq⟩ := h
  cases heq
  exact writeLoop_mode hloop

theorem SessionInv.step
    (h : SessionInv i fs s) (hpermitted : Permitted i s op)
    (hstep : fileStep budget i s op = some s') : SessionInv i fs s' := by
  cases op with
  | getc =>
      rw [fileStep, Option.map_eq_some_iff] at hstep
      obtain ⟨⟨fs', onebyte⟩, hget, rfl⟩ := hstep
      apply h.reading (.lflgetc hget)
      · exact fun chain hcover hfollow => hfollow.lflgetc hcover hget
      · intro hr
        unfold Permitted at hpermitted
        dsimp only at hpermitted
        rw [h.mode, hr] at hpermitted
        obtain ⟨-, hneg, -⟩ := lflgetc_refused hget (by tauto)
        rw [if_pos hneg]
        exact h.silent hr
  | read count =>
      rw [fileStep] at hstep
      split_ifs at hstep with hcount
      · cases hstep
        exact h
      · rw [Option.map_eq_some_iff] at hstep
        obtain ⟨⟨fs', buff, v⟩, hread, rfl⟩ := hstep
        obtain ⟨buff', early, hloop⟩ := exists_readLoop hread
        apply h.reading (.readLoop hloop)
        · exact fun chain hcover hfollow => hfollow.readLoop hcover hloop
        · intro hr
          unfold Permitted at hpermitted
          dsimp only at hpermitted
          rw [h.mode, hr] at hpermitted
          obtain ⟨-, rfl⟩ := lflread_refused hread (by
            rcases hpermitted with hne | hclosed | hend | hzero
            · exact absurd rfl hne
            · exact Or.inl hclosed
            · exact Or.inr (Or.inl hend)
            · exact Or.inr (Or.inr (by omega)))
          rw [h.silent hr, List.append_nil]
  | putc ch =>
      rw [fileStep, Option.map_eq_some_iff] at hstep
      obtain ⟨⟨fs', v⟩, hput, rfl⟩ := hstep
      apply h.writing (lflputc_mode hput)
      intro hw
      unfold Permitted at hpermitted
      dsimp only at hpermitted
      rw [hw] at hpermitted
      exact (lflputc_refused hput (by tauto)).1
  | write buff =>
      rw [fileStep, Option.map_eq_some_iff] at hstep
      obtain ⟨⟨fs', v⟩, hwrite, rfl⟩ := hstep
      apply h.writing (lflwrite_mode hwrite)
      intro hw
      unfold Permitted at hpermitted
      dsimp only at hpermitted
      rw [hw] at hpermitted
      exact lflwrite_refused hwrite (by tauto)
  | seek offset =>
      cases hstep
      exact h.reading .lflseek (fun _ _ hfollow => hfollow.lflseek) h.silent
  | truncate =>
      rw [fileStep, Option.map_eq_some_iff] at hstep
      obtain ⟨⟨fs', v⟩, htrunc, rfl⟩ := hstep
      apply h.writing (lflcontrolTrunc_mode htrunc)
      intro hw
      unfold Permitted at hpermitted
      dsimp only at hpermitted
      rw [hw] at hpermitted
      exact lflcontrolTrunc_refused htrunc (by tauto)
  | close =>
      cases hstep
      exact h.reading .lflclose (fun _ _ hfollow => hfollow.lflclose) h.silent

theorem Claimed.following
    {chain : ℕ → ℤ} (h : Claimed fs i mbits) : Following fs fs i chain :=
  ⟨rfl, rfl, rfl, h.ibclean, h.dbclean, by rw [h.pos]; exact Nat.zero_le _,
    Or.inl h.inum⟩

/-- As long as every call has its permission or is refused for another reason,
the mode of the open is kept. -/
theorem permissions_kept_of_permitted
    (hopen : OpenedAs fs₀ name mode i fs)
    (hreach : Reach (fileStep budget i) (Permitted i) ⟨fs, []⟩ s) :
    PermissionLaw mode i fs s := by
  obtain ⟨mbits, hmode, hclaimed⟩ := hopen.claimed
  have hstart : SessionInv i fs ⟨fs, []⟩ :=
    ⟨rfl, fun _ => .refl fs, fun _ _ _ => hclaimed.following, fun _ => rfl⟩
  have hinv : SessionInv i fs s :=
    hreach.invariant (SessionInv i fs) hstart
      fun _ _ _ h hpermitted hstep => h.step hpermitted hstep
  constructor
  · intro hdenied
    have hw := hclaimed.bit_eq_zero hmode (by decide) hdenied
    have hkept := hinv.kept hw
    obtain ⟨hblocks, hclean⟩ := hkept.clean hclaimed.dbclean
    refine ⟨?_, hblocks, hclean, ?_⟩
    · unfold Lfs.entry
      rw [hkept.entry, hkept.size]
    · intro chain hcover
      have hfollow := hinv.following hw chain hcover
      exact ⟨hfollow.iblocks, hfollow.dir, hfollow.ibclean⟩
  · intro hdenied
    exact hinv.silent (hclaimed.bit_eq_zero hmode (by decide) hdenied)

theorem openedAs_fresh
    (mode : Name) (hscan : ∃ mbits, freshOpens.fs.openScan [97] mode = some (mbits, 0))
    (hused : ((freshOpens.fs.lfsopen [97] mode).1.lfltab 0).lfstate = .used) :
    OpenedAs freshOpens.fs [97] mode 0 (freshOpens.fs.lfsopen [97] mode).1 :=
  ⟨hscan, rfl, hused⟩

/-- A new file is opened for writing, and written. -/
theorem permissions_kept_of_permitted_write :
    ∃ s, (s.fs.entry 0).ld_size = 1 ∧ PermissionLaw [119] 0
      (freshOpens.fs.lfsopen [97] [119]).1 s := by
  have hopen := openedAs_fresh [119] ⟨2, by decide⟩ (by decide)
  have hview : (run (fun s op => if Permitted 0 s op then fileStep 3 0 s op
      else none) ⟨(freshOpens.fs.lfsopen [97] [119]).1, []⟩
      [.putc 120, .seek 0]).map (fun s => (s.fs.entry 0).ld_size) = some 1 := by
    decide +kernel
  rw [Option.map_eq_some_iff] at hview
  obtain ⟨s, hrun, hs⟩ := hview
  exact ⟨s, hs, permissions_kept_of_permitted hopen
    (Reach.run_checked _ .start hrun)⟩

/-- A byte is written to a file that was opened for reading, and a byte is read
from a file that was opened for writing. -/
theorem permissions_not_checked :
    (∃ fs s, OpenedAs freshOpens.fs [97] [114] 0 fs ∧
      Reach (fileStep 3 0) (fun _ _ => True) ⟨fs, []⟩ s ∧
        ¬ PermissionLaw [114] 0 fs s) ∧
    ∃ fs s, OpenedAs freshOpens.fs [97] [119] 0 fs ∧
      Reach (fileStep 3 0) (fun _ _ => True) ⟨fs, []⟩ s ∧
        ¬ PermissionLaw [119] 0 fs s := by
  constructor
  · have hview : (run (fileStep 3 0) ⟨(freshOpens.fs.lfsopen [97] [114]).1, []⟩
        [.putc 120]).map (fun s => (s.fs.entry 0).ld_size) = some 1 := by
      decide +kernel
    rw [Option.map_eq_some_iff] at hview
    obtain ⟨s, hrun, hs⟩ := hview
    refine ⟨_, s, openedAs_fresh [114] ⟨1, by decide⟩ (by decide),
      Reach.run _ .start ?_ hrun, ?_⟩
    · exact ⟨trivial, fun _ _ => trivial⟩
    · intro hlaw
      have hdenied : ¬ Grants [114] LF_MODE_W := by
        rintro ⟨mbits, hmode, hbit⟩
        cases hmode
        exact hbit rfl
      have hsize := (hlaw.write hdenied).size
      rw [hs] at hsize
      revert hsize
      decide
  · have hview : (run (fileStep 3 0) ⟨(freshOpens.fs.lfsopen [97] [119]).1, []⟩
        [.putc 120, .seek 0, .getc]).map Session.delivered = some [120] := by
      decide +kernel
    rw [Option.map_eq_some_iff] at hview
    obtain ⟨s, hrun, hs⟩ := hview
    refine ⟨_, s, openedAs_fresh [119] ⟨2, by decide⟩ (by decide),
      Reach.run _ .start ?_ hrun, ?_⟩
    · exact ⟨trivial, fun _ _ => ⟨trivial, fun _ _ => ⟨trivial, fun _ _ => trivial⟩⟩⟩
    · intro hlaw
      have hdenied : ¬ Grants [119] LF_MODE_R := by
        rintro ⟨mbits, hmode, hbit⟩
        cases hmode
        exact hbit rfl
      have hsilent := hlaw.read hdenied
      rw [hs] at hsilent
      cases hsilent

end Runs

end Xinu.LocalFiles
