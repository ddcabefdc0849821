import Xinu.LocalFileFormat

/-!
# The directory on the disk

While the directory is not marked as changed, the disk has it but for the
entries of files that have been created since and are still empty: `lfsopen`
makes an entry and marks nothing.
-/

namespace Xinu.LocalFiles

/-- The directory on a disk has all entries but some empty ones at the end. -/
structure Saved (disk mem : Lfdir) : Prop where
  rest : disk = { mem with
    lfd_nfiles := disk.lfd_nfiles, lfd_files := disk.lfd_files }
  count : disk.lfd_nfiles ≤ mem.lfd_nfiles
  nonneg : 0 ≤ mem.lfd_nfiles → 0 ≤ disk.lfd_nfiles
  same : ∀ e : ℕ, (e : ℤ) < disk.lfd_nfiles →
    disk.lfd_files e = mem.lfd_files e
  empty : ∀ e : ℕ, disk.lfd_nfiles ≤ e → (e : ℤ) < mem.lfd_nfiles →
    (mem.lfd_files e).ld_size = 0

def Lfs.DirSaved (s : Lfs) : Prop :=
  s.lf_dirdirty = false → Saved s.disk.dir s.lf_dir

theorem Saved.refl (dir : Lfdir) : Saved dir dir :=
  ⟨rfl, le_rfl, id, fun _ _ => rfl, fun _ _ _ => by omega⟩

section Parts

variable {s s' : Lfs} {i budget : ℕ} {n : ℤ}

theorem dirSaved_writeDir (s : Lfs) :
    Lfs.DirSaved { s.writeDir with lf_dirdirty := false } :=
  fun _ => .refl s.lf_dir

theorem dirSaved_of_dirty (h : s.lf_dirdirty = true) : s.DirSaved := by
  intro hclean
  rw [h] at hclean
  cases hclean

theorem lfiballoc_dirSaved (h : s.lfiballoc = some (s', n)) : s'.DirSaved := by
  unfold Lfs.lfiballoc at h
  dsimp only at h
  split_ifs at h
  cases h
  exact dirSaved_writeDir _

theorem lfdballoc_dirSaved
    {b : Block} (h : s.lfdballoc = some (s', n, b)) : s'.DirSaved := by
  unfold Lfs.lfdballoc at h
  dsimp only at h
  split_ifs at h
  cases h
  exact dirSaved_writeDir _

theorem lfflush_dirSaved (h : s.DirSaved) : (s.lfflush i).DirSaved := by
  have hdir : s.flushDir.DirSaved := by
    unfold Lfs.flushDir
    split
    · exact dirSaved_writeDir s
    · exact h
  have hdata : (s.flushDir.flushData i).DirSaved := by
    unfold Lfs.flushData
    split <;> exact hdir
  unfold Lfs.lfflush
  split
  · exact h
  · unfold Lfs.flushIndex
    split <;> exact hdata

/-- The index block in memory is new; the data block that it gets will save
the directory. -/
def NewIndex (f : Lflcblk) : Prop :=
  f.lfiblock.ib_next = LF_INULL ∧ ∀ k, f.lfiblock.ib_dba k = LF_DNULL

theorem newIndex_setFile
    {f : Lflcblk → Lflcblk} (hf : (f (s.lfltab i)).lfiblock = lfibclear 0) :
    NewIndex ((s.setFile i f).lfltab i) := by
  rw [lfltab_setFile_self]
  unfold NewIndex
  rw [hf]
  exact ⟨rfl, fun _ => rfl⟩

theorem setupFirst_dirSaved
    (h : s.DirSaved) (hsome : s.setupFirst i = some s') :
    s'.DirSaved ∨ NewIndex (s'.lfltab i) := by
  unfold Lfs.setupFirst at hsome
  split_ifs at hsome
  · rw [Option.map_eq_some_iff] at hsome
    obtain ⟨⟨t, ibnum⟩, -, rfl⟩ := hsome
    exact Or.inr (newIndex_setFile rfl)
  · cases hsome
    exact Or.inl h
  · cases hsome
    exact Or.inl h
  · cases hsome
    exact Or.inl h

theorem setupNext_dirSaved
    (h : s.DirSaved ∨ NewIndex (s.lfltab i)) (hsome : s.setupNext i = some s') :
    s'.DirSaved := by
  unfold Lfs.setupNext at hsome
  dsimp only at hsome
  split_ifs at hsome with hnull
  · rw [Option.map_eq_some_iff] at hsome
    obtain ⟨⟨t, ibnum⟩, halloc, rfl⟩ := hsome
    have hsaved := lfiballoc_dirSaved halloc
    exact hsaved
  · cases hsome
    exact h.resolve_right fun hnew => hnull hnew.1

theorem setupIndex_dirSaved
    (h : s.DirSaved ∨ NewIndex (s.lfltab i))
    (hsome : Lfs.setupIndex i budget s = some s') :
    s'.DirSaved ∨ NewIndex (s'.lfltab i) := by
  induction budget generalizing s with
  | zero => cases hsome
  | succ budget ih =>
      rw [Lfs.setupIndex] at hsome
      split_ifs at hsome
      · rw [Option.bind_eq_some_iff] at hsome
        obtain ⟨t, hnext, hrest⟩ := hsome
        exact ih (Or.inl (setupNext_dirSaved h hnext)) hrest
      · cases hsome
        exact h

theorem setupData_dirSaved
    (h : s.DirSaved ∨ NewIndex (s.lfltab i)) (hsome : s.setupData i = some s') :
    s'.DirSaved := by
  unfold Lfs.setupData at hsome
  dsimp only at hsome
  split_ifs at hsome with hnull hload
  · rw [Option.map_eq_some_iff] at hsome
    obtain ⟨⟨t, dnum, dbuff⟩, halloc, rfl⟩ := hsome
    have hsaved := lfdballoc_dirSaved halloc
    exact hsaved
  · cases hsome
    exact h.resolve_right fun hnew => hnull (hnew.2 _)
  · cases hsome
    exact h.resolve_right fun hnew => hnull (hnew.2 _)

theorem lfsetup_dirSaved
    (h : s.DirSaved) (hsome : s.lfsetup budget i = some s') : s'.DirSaved := by
  unfold Lfs.lfsetup at hsome
  dsimp only at hsome
  rw [Option.bind_eq_some_iff] at hsome
  obtain ⟨t, hsetup, hdata⟩ := hsome
  rw [Option.bind_eq_some_iff] at hsetup
  obtain ⟨u, hfirst, hindex⟩ := hsetup
  refine setupData_dirSaved (setupIndex_dirSaved ?_ hindex) hdata
  refine setupFirst_dirSaved ?_ hfirst
  split
  · exact lfflush_dirSaved h
  · exact h

theorem ensureBlock_dirSaved
    (h : s.DirSaved) (hsome : s.ensureBlock budget i = some s') :
    s'.DirSaved := by
  unfold Lfs.ensureBlock at hsome
  split_ifs at hsome
  · exact lfsetup_dirSaved h hsome
  · cases hsome
    exact h

end Parts

/-! ## The calls -/

section Calls

variable {s s' : Lfs} {i budget count offset : ℕ} {r : ℤ} {ch : BitVec 8}
  {buff : List (BitVec 8)} {name mode : Name}

theorem lflputc_dirSaved
    (h : s.DirSaved) (hsome : s.lflputc budget i ch = some (s', r)) :
    s'.DirSaved := by
  unfold Lfs.lflputc at hsome
  split_ifs at hsome
  · cases hsome
    exact h
  · cases hsome
    exact h
  · rw [Option.map_eq_some_iff] at hsome
    obtain ⟨t, hblock, heq⟩ := hsome
    have ht := ensureBlock_dirSaved h hblock
    cases heq
    show Lfs.DirSaved (if _ then _ else _)
    split
    · exact dirSaved_of_dirty rfl
    · exact ht

theorem writeLoop_dirSaved
    {done : Bool} (h : s.DirSaved)
    (hsome : Lfs.writeLoop budget i buff s = some (s', done)) :
    s'.DirSaved := by
  induction buff generalizing s with
  | nil =>
      cases hsome
      exact h
  | cons ch buff ih =>
      rw [Lfs.writeLoop, Option.bind_eq_some_iff] at hsome
      obtain ⟨⟨t, status⟩, hput, hrest⟩ := hsome
      have ht := lflputc_dirSaved h hput
      dsimp only at hrest
      split_ifs at hrest
      · cases hrest
        exact ht
      · exact ih ht hrest

theorem lflwrite_dirSaved
    (h : s.DirSaved) (hsome : s.lflwrite budget i buff = some (s', r)) :
    s'.DirSaved := by
  unfold Lfs.lflwrite at hsome
  rw [Option.map_eq_some_iff] at hsome
  obtain ⟨⟨t, done⟩, hloop, heq⟩ := hsome
  cases heq
  exact writeLoop_dirSaved h hloop

theorem lflgetc_dirSaved
    (h : s.DirSaved) (hsome : s.lflgetc budget i = some (s', r)) :
    s'.DirSaved := by
  unfold Lfs.lflgetc at hsome
  split_ifs at hsome
  · cases hsome
    exact h
  · cases hsome
    exact h
  · rw [Option.map_eq_some_iff] at hsome
    obtain ⟨t, hblock, heq⟩ := hsome
    have ht := ensureBlock_dirSaved h hblock
    cases heq
    exact ht

theorem readLoop_dirSaved
    {early : Option ℤ} (h : s.DirSaved)
    (hsome : Lfs.readLoop budget i count s = some (s', buff, early)) :
    s'.DirSaved := by
  induction count generalizing s buff early with
  | zero =>
      cases hsome
      exact h
  | succ count ih =>
      rw [Lfs.readLoop, Option.bind_eq_some_iff] at hsome
      obtain ⟨⟨t, nxtbyte⟩, hget, hrest⟩ := hsome
      have ht := lflgetc_dirSaved h hget
      dsimp only at hrest
      split_ifs at hrest
      · cases hrest
        exact ht
      · rw [Option.map_eq_some_iff] at hrest
        obtain ⟨⟨u, bytes, stop⟩, hloop, heq⟩ := hrest
        cases heq
        exact ih ht hloop

theorem lflread_dirSaved
    (h : s.DirSaved) (hsome : s.lflread budget i count = some (s', buff, r)) :
    s'.DirSaved := by
  unfold Lfs.lflread at hsome
  rw [Option.map_eq_some_iff] at hsome
  obtain ⟨⟨t, bytes, early⟩, hloop, heq⟩ := hsome
  have ht := readLoop_dirSaved h hloop
  dsimp only at heq
  split at heq
  · cases heq
    exact ht
  · split_ifs at heq <;>
    · cases heq
      exact ht

theorem lflseek_dirSaved (h : s.DirSaved) :
    (s.lflseek i offset).1.DirSaved := by
  unfold Lfs.lflseek
  split_ifs <;> exact h

theorem lftruncate_dirSaved
    (h : s.DirSaved) (hsome : s.lftruncate budget i = some s') :
    s'.DirSaved := by
  unfold Lfs.lftruncate at hsome
  dsimp only at hsome
  split_ifs at hsome
  · cases hsome
    exact h
  all_goals
    rw [Option.map_eq_some_iff] at hsome
    obtain ⟨t, -, rfl⟩ := hsome
    exact dirSaved_of_dirty rfl

theorem lflcontrol_dirSaved
    {func : ℤ} (h : s.DirSaved)
    (hsome : s.lflcontrol budget i func = some (s', r)) : s'.DirSaved := by
  unfold Lfs.lflcontrol Lfs.lflcontrolTrunc at hsome
  split_ifs at hsome
  · cases hsome
    exact h
  · rw [Option.map_eq_some_iff] at hsome
    obtain ⟨t, htrunc, heq⟩ := hsome
    cases heq
    exact lftruncate_dirSaved h htrunc
  · cases hsome
    exact h

theorem lflclose_dirSaved (h : s.DirSaved) : (s.lflclose i).1.DirSaved := by
  unfold Lfs.lflclose
  dsimp only
  split_ifs
  · exact h
  · exact lfflush_dirSaved (i := i) h
  · exact h

/-- The close of an open file writes the directory. -/
theorem lflclose_clean (hi : s.InUse i) :
    (s.lflclose i).1.lf_dirdirty = false := by
  have hflush : (s.lfflush i).lf_dirdirty = false := by
    have hdir : s.flushDir.lf_dirdirty = false := by
      unfold Lfs.flushDir
      split
      · rfl
      · simpa using ‹¬ s.lf_dirdirty = true›
    have hdata : (s.flushDir.flushData i).lf_dirdirty = false := by
      unfold Lfs.flushData
      split <;> exact hdir
    unfold Lfs.lfflush
    rw [if_neg (by rw [hi.2]; decide)]
    unfold Lfs.flushIndex
    split <;> exact hdata
  unfold Lfs.lflclose
  rw [if_neg (by rw [hi.2]; decide)]
  dsimp only
  split_ifs with hdirty
  · exact hflush
  · simp only [Bool.or_eq_true, not_or, Bool.not_eq_true] at hdirty
    exact hdirty.1.1

theorem claimDevice_dirSaved
    {e mbits : ℕ} (h : s.DirSaved) : (s.claimDevice i e mbits name).DirSaved :=
  h

theorem addEntry_dirSaved
    (h : s.DirSaved) (hcount : 0 ≤ s.lf_dir.lfd_nfiles) :
    (s.addEntry name).DirSaved := by
  intro hclean
  have hsaved := h hclean
  have hnew : (s.addEntry name).lf_dir = { s.lf_dir with
      lfd_nfiles := s.lf_dir.lfd_nfiles + 1
      lfd_files := Function.update s.lf_dir.lfd_files
        s.lf_dir.lfd_nfiles.toNat ⟨0, LF_INULL, name⟩ } := rfl
  have hold := hsaved.count
  rw [hnew]
  refine ⟨hsaved.rest, ?_, fun _ => hsaved.nonneg hcount, ?_, ?_⟩
  · show s.disk.dir.lfd_nfiles ≤ s.lf_dir.lfd_nfiles + 1
    omega
  · intro e he
    replace he : (e : ℤ) < s.disk.dir.lfd_nfiles := he
    have hne : e ≠ s.lf_dir.lfd_nfiles.toNat := by omega
    simp only [Function.update_of_ne hne]
    exact hsaved.same e he
  · intro e hle hlt
    replace hlt : (e : ℤ) < s.lf_dir.lfd_nfiles + 1 := hlt
    by_cases he : e = s.lf_dir.lfd_nfiles.toNat
    · simp [he]
    · simp only [Function.update_of_ne he]
      exact hsaved.empty e hle (by omega)

theorem openEntry_dirSaved
    (h : s.DirSaved) (hcount : 0 ≤ s.lf_dir.lfd_nfiles) (name : Name)
    (mbits i : ℕ) :
    (s.openEntry name mbits i).1.DirSaved ∧
      (s.openEntry name mbits i).1.lf_dirdirty = s.lf_dirdirty := by
  unfold Lfs.openEntry
  split
  · split_ifs
    · exact ⟨h, rfl⟩
    · exact ⟨h, rfl⟩
    · exact ⟨claimDevice_dirSaved (addEntry_dirSaved h hcount), rfl⟩
  · split_ifs
    · exact ⟨h, rfl⟩
    · exact ⟨claimDevice_dirSaved h, rfl⟩

end Calls

end Xinu.LocalFiles
