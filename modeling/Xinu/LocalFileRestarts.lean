import Xinu.LocalFileDirectory

/-!
# Restarting the local file system

When no file is open the disk can be mounted again.  It then holds all files
that have bytes, and of the empty files all but some of the last created.
-/

namespace Xinu.LocalFiles

open FreePools OutputRuns

inductive FsAction where
  | call (c : FsCall)
  /-- The disk is mounted by a system whose memory holds something else. -/
  | restart (dir : Lfdir) (junk : Block)

def Lfs.act (budget : ℕ) (s : Lfs) : FsAction → Option (Lfs × Reply)
  | .call c => s.call budget c
  | .restart dir junk =>
      if ∀ i < Nlfl, (s.lfltab i).lfstate = .free then
        some (mounted s.disk dir junk, [], 0)
      else none

/-- What an action does to the files. -/
inductive Files.Act (iblks dblks : ℕ) :
    Files → FsAction → Files → Reply → Prop
  | call (fs : Files) (c : FsCall) (hfits : (fs.call c).1.Fits iblks dblks) :
      Files.Act iblks dblks fs (.call c) (fs.call c).1 (fs.call c).2
  | restart (fs : Files) (dir : Lfdir) (junk : Block) (m : ℕ)
      (hclosed : ∀ i, fs.opened i = none)
      (hlost : ∀ f ∈ fs.files.drop m, f.2 = []) :
      Files.Act iblks dblks fs (.restart dir junk)
        ⟨fs.files.take m, fun _ => none⟩ ([], 0)

/-- The directory on the disk between calls. -/
structure DirInv (s : Lfs) : Prop where
  saved : s.loaded.DirSaved
  /-- The last file that is closed saves the directory. -/
  dirty : s.lf_dirdirty = true → ∃ i, s.InUse i

/-! ## The directory along a run -/

section Opened

variable {fs : Files} {c : FsCall} {i j : ℕ}

theorem change_opened
    {o : OpenFile} {b : List (BitVec 8)} {q : ℕ}
    (h : (fs.opened i).isSome = true) :
    ((fs.change j o b q).opened i).isSome = true := by
  by_cases hi : i = j
  · simp [Files.change, hi]
  · simpa [Files.change, hi] using h

theorem claim_opened
    {e : ℕ} (h : (fs.opened i).isSome = true) :
    ((fs.claim j e).opened i).isSome = true := by
  by_cases hi : i = j
  · simp [Files.claim, hi]
  · simpa [Files.claim, hi] using h

/-- A file stays open until it is closed. -/
theorem call_opened
    (h : (fs.opened i).isSome = true)
    (hc : ∀ j : Fin Nlfl, c = .lflclose j → (j : ℕ) ≠ i) :
    ((fs.call c).1.opened i).isSome = true := by
  cases c with
  | lfsopen name mode =>
      simp only [Files.call, Files.open]
      split
      · exact h
      · split
        · exact h
        · split
          · exact h
          · unfold Files.openEntry
            split <;> split_ifs <;> first | exact h | exact claim_opened h
  | lflputc j ch =>
      simp only [Files.call, Files.putc]
      split <;> first | exact h | exact change_opened h
  | lflwrite j buff =>
      simp only [Files.call, Files.write]
      split <;> first | exact h | exact change_opened h
  | lflgetc j =>
      simp only [Files.call, Files.getc]
      split
      · exact h
      · split <;> first | exact h | exact change_opened h
  | lflread j count =>
      simp only [Files.call, Files.read]
      split <;> first | exact h | exact change_opened h
  | lflseek j offset =>
      simp only [Files.call, Files.seek]
      split
      · exact h
      · split_ifs <;> first | exact h | exact change_opened h
  | lflcontrol j func =>
      simp only [Files.call, Files.control, Files.truncate]
      split
      · split <;> first | exact h | exact change_opened h
      · exact h
  | lflclose j =>
      have hne := hc j rfl
      simp only [Files.call, Files.close]
      split
      · exact h
      · show (Function.update fs.opened j none i).isSome = true
        rw [Function.update_of_ne (Ne.symm hne)]
        exact h

end Opened

section Calls

variable {p : Pools} {s s' : Lfs} {v v' : Volume} {i budget : ℕ} {c : FsCall}
  {r : Reply}

theorem view_isSome : ((view s v).opened i).isSome = true ↔ s.InUse i := by
  by_cases hi : s.InUse i <;> simp [view, hi]

theorem call_inUse
    (hview : (view s v).call c = (view s' v', r)) (hi : s.InUse i)
    (hc : ∀ j : Fin Nlfl, c = .lflclose j → (j : ℕ) ≠ i) : s'.InUse i := by
  have hopen := call_opened (view_isSome (v := v).mpr hi) hc
  rw [hview] at hopen
  exact view_isSome.mp hopen

/-- A call on an open file keeps the directory saved. -/
theorem call_dirSaved
    {j : Fin Nlfl} (h : s.DirSaved) (hc : c.device = some j)
    (hcall : s.call budget c = some (s', r)) : s'.DirSaved := by
  cases c <;> cases hc <;> simp only [Lfs.call] at hcall
  case lflputc ch =>
    rw [Option.map_eq_some_iff] at hcall
    obtain ⟨⟨t, x⟩, hput, heq⟩ := hcall
    cases heq
    exact lflputc_dirSaved h hput
  case lflwrite buff =>
    rw [Option.map_eq_some_iff] at hcall
    obtain ⟨⟨t, x⟩, hwrite, heq⟩ := hcall
    cases heq
    exact lflwrite_dirSaved h hwrite
  case lflgetc =>
    rw [Option.map_eq_some_iff] at hcall
    obtain ⟨⟨t, x⟩, hget, heq⟩ := hcall
    cases heq
    exact lflgetc_dirSaved h hget
  case lflread count => exact lflread_dirSaved h hcall
  case lflseek offset =>
    cases hcall
    exact lflseek_dirSaved h
  case lflcontrol func =>
    rw [Option.map_eq_some_iff] at hcall
    obtain ⟨⟨t, x⟩, hcontrol, heq⟩ := hcall
    cases heq
    exact lflcontrol_dirSaved h hcontrol
  case lflclose =>
    cases hcall
    exact lflclose_dirSaved h

theorem lfsopen_dirInv
    {name mode : Name} (hinv : FsInv p s v) (h : DirInv s)
    (hview : (view s v).call (.lfsopen name mode) = (view s' v', r))
    (hcall : s.call budget (.lfsopen name mode) = some (s', r)) :
    DirInv s' := by
  have hloaded : s.loaded.lf_dirdirty = s.lf_dirdirty := by
    unfold Lfs.loaded
    split <;> rfl
  have hs' : s' = (s.lfsopen name mode).1 := by
    simp only [Lfs.call, Option.some.injEq, Prod.mk.injEq] at hcall
    exact hcall.1.symm
  rw [hinv.lfsopen_eq] at hs'
  cases hscan : s.openScan name mode with
  | none =>
      rw [hscan] at hs'
      exact hs' ▸ h
  | some found =>
      obtain ⟨mbits, lfnext⟩ := found
      rw [hscan] at hs'
      have hcount : 0 ≤ s.loaded.lf_dir.lfd_nfiles := by
        rw [hinv.ok.holds.dir, hinv.ok.inv.nfiles_eq]
        exact Int.natCast_nonneg _
      obtain ⟨hsaved, hsame⟩ := openEntry_dirSaved h.saved hcount name mbits
        lfnext
      dsimp only at hs'
      rw [← hs'] at hsaved hsame
      refine ⟨?_, fun hdirty => ?_⟩
      · have hpresent : s'.lf_dirpresent = true := by
          rw [hs']
          have hpresent := hinv.ok.holds.present
          unfold Lfs.openEntry
          split <;> split_ifs <;> exact hpresent
        rw [loaded_of_present hpresent]
        exact hsaved
      · rw [hsame, hloaded] at hdirty
        obtain ⟨i, hi⟩ := h.dirty hdirty
        exact ⟨i, call_inUse hview hi (by simp)⟩

theorem call_dirInv
    (hinv : FsInv p s v) (h : DirInv s)
    (hview : (view s v).call c = (view s' v', r))
    (hcall : s.call budget c = some (s', r)) : DirInv s' := by
  cases hdev : c.device with
  | none =>
      cases c <;> cases hdev
      exact lfsopen_dirInv hinv h hview hcall
  | some j =>
      by_cases hi : s.InUse j
      · have hok := hinv.opened hi
        have hsaved := h.saved
        rw [loaded_of_present hok.holds.present] at hsaved
        have hsaved' := call_dirSaved hsaved hdev hcall
        refine ⟨?_, fun hdirty => ?_⟩
        · unfold Lfs.loaded
          split
          · exact hsaved'
          · exact fun _ => .refl _
        · by_cases hclose : c = .lflclose j
          · rw [hclose] at hcall
            simp only [Lfs.call, Option.some.injEq, Prod.mk.injEq] at hcall
            have hclean := lflclose_clean hi
            rw [hcall.1, hdirty] at hclean
            cases hclean
          · refine ⟨j, call_inUse hview hi ?_⟩
            rintro k rfl
            cases hdev
            exact absurd rfl hclose
      · obtain ⟨x, hsame, -⟩ := call_closed budget v hi hdev
        rw [hcall, Option.some.injEq, Prod.mk.injEq] at hsame
        exact hsame.1 ▸ h

end Calls

/-! ## Mounting the disk again -/

section Restarting

variable {p : Pools} {s : Lfs} {v : Volume} {dir : Lfdir} {junk : Block}

/-- The volume with the directory that is on the disk. -/
def Volume.savedAs (v : Volume) (dir : Lfdir) : Volume := { v with dir := dir }

theorem savedAs_nfiles_le (h : Saved dir v.dir) :
    (v.savedAs dir).nfiles ≤ v.nfiles := by
  have hcount := h.count
  unfold Volume.nfiles Volume.savedAs
  dsimp only
  omega

theorem savedAs_file
    (h : Saved dir v.dir) {e : ℕ} (he : e < (v.savedAs dir).nfiles) :
    (v.savedAs dir).file e = v.file e := by
  apply h.same
  unfold Volume.nfiles Volume.savedAs at he
  dsimp only at he
  omega

theorem savedAs_lost
    (h : Saved dir v.dir) (hv : VolumeInv p v) {e : ℕ}
    (hle : (v.savedAs dir).nfiles ≤ e) (hlt : e < v.nfiles) :
    (v.file e).ld_size = 0 := by
  apply h.empty
  · unfold Volume.nfiles Volume.savedAs at hle
    dsimp only at hle
    omega
  · rw [hv.nfiles_eq]
    exact_mod_cast hlt

/-- An empty file has no blocks. -/
theorem Volume.Fitted.nothing
    {e : ℕ} (h : v.Fitted e) (hsize : (v.file e).ld_size = 0) :
    v.chain e = [] ∧ v.pointers e = [] := by
  obtain ⟨hroom, hchain⟩ := h
  have hnone : v.room e = 0 := by
    rw [hroom, hsize]
    simp [LF_BLKSIZ]
  refine ⟨?_, ?_⟩
  · rw [hnone] at hchain
    exact List.eq_nil_of_length_eq_zero (by rw [hchain]; simp [LF_IBLEN])
  · unfold Volume.pointers
    rw [hnone]
    rfl

theorem VolumeInv.savedAs
    (h : VolumeInv p v) (hsaved : Saved dir v.dir)
    (hfitted : ∀ e < v.nfiles, v.Fitted e) : VolumeInv p (v.savedAs dir) := by
  have hle := savedAs_nfiles_le hsaved
  have hrest := hsaved.rest
  obtain ⟨k, hk⟩ : ∃ k, v.nfiles = (v.savedAs dir).nfiles + k :=
    ⟨v.nfiles - (v.savedAs dir).nfiles, by omega⟩
  have hnothing : ∀ e, (v.savedAs dir).nfiles ≤ e →
      e < (v.savedAs dir).nfiles + k → v.chain e = [] ∧ v.pointers e = [] :=
    fun e hlow hhigh => (hfitted e (by omega)).nothing
      (savedAs_lost hsaved h hlow (by omega))
  have hiblocks := h.iblocks
  have hdblocks := h.dblocks
  rw [hk] at hiblocks hdblocks
  refine ⟨?_, ?_, ?_, ?_, ?_, ?_, ?_, ?_, ?_⟩
  · have hcheck := h.check
    have hcount := hsaved.nonneg
      (by rw [h.nfiles_eq]; exact Int.natCast_nonneg _)
    show lfscheck dir = true
    rw [hrest]
    simp only [lfscheck, Bool.and_eq_true, decide_eq_true_eq] at hcheck ⊢
    exact ⟨hcheck.1, hcount⟩
  · have hfirst : dir.lfd_ifree = v.dir.lfd_ifree := by rw [hrest]
    show LinkedTable.Chain LF_INULL v.next dir.lfd_ifree v.ifree
    rw [hfirst]
    exact h.ifree
  · have hfirst : dir.lfd_dfree = v.dir.lfd_dfree := by rw [hrest]
    show LinkedTable.Chain LF_DNULL v.nextdb dir.lfd_dfree v.dfree
    rw [hfirst]
    exact h.dfree
  · intro e he
    rw [savedAs_file hsaved he]
    exact h.chain e (by omega)
  · exact fun e he => h.offset e (by omega)
  · exact fun e he => h.filled e (by omega)
  · exact fun e he => h.room e (by omega)
  · exact hiblocks.dropOwners fun e hlow hhigh => (hnothing e hlow hhigh).1
  · exact hdblocks.dropOwners fun e hlow hhigh => (hnothing e hlow hhigh).2

/-- With no open file the disk holds the volume. -/
theorem Holds.disk_of_closed (h : Holds s v) (hclosed : ∀ i, ¬ s.InUse i) :
    s.disk = (v.savedAs s.disk.dir).disk := by
  have hindex : s.disk.iblocks = v.index :=
    funext fun n => h.index n fun i hi => absurd hi (hclosed i)
  have hblock : s.disk.blocks = v.block :=
    funext fun d => h.block d fun i hi => absurd hi (hclosed i)
  unfold Volume.savedAs Volume.disk
  rw [← hindex, ← hblock]

theorem restart_shows
    (hinv : FsInv p s v) (h : DirInv s) (hclosed : ∀ i, ¬ s.InUse i)
    (dir : Lfdir) (junk : Block) :
    ∃ m, (∀ f ∈ (view s v).files.drop m, f.2 = []) ∧
      Shows p (mounted s.disk dir junk)
        ⟨(view s v).files.take m, fun _ => none⟩ := by
  have hdisk : s.loaded.disk = s.disk := by
    unfold Lfs.loaded
    split <;> rfl
  have hdirty : s.loaded.lf_dirdirty = s.lf_dirdirty := by
    unfold Lfs.loaded
    split <;> rfl
  have hclean : s.lf_dirdirty = false := by
    by_contra hne
    obtain ⟨i, hi⟩ := h.dirty (by simpa using hne)
    exact hclosed i hi
  have hsaved := h.saved (by rw [hdirty]; exact hclean)
  rw [hdisk, hinv.ok.holds.dir] at hsaved
  have hclosed' : ∀ i, ¬ s.loaded.InUse i := by
    intro i hi
    rw [Lfs.InUse, loaded_lfltab] at hi
    exact hclosed i hi
  have hsame := hinv.ok.holds.disk_of_closed hclosed'
  rw [hdisk] at hsame
  have hle := savedAs_nfiles_le hsaved
  have hv := hinv.ok.inv.savedAs hsaved hinv.ok.fitted
  refine ⟨(v.savedAs s.disk.dir).nfiles, ?_, v.savedAs s.disk.dir, ?_, ?_⟩
  · intro f hf
    obtain ⟨k, hk, rfl⟩ := List.getElem_of_mem hf
    rw [List.getElem_drop]
    have hlt : (v.savedAs s.disk.dir).nfiles + k < v.nfiles := by
      rw [List.length_drop] at hk
      simp only [view, List.length_map, List.length_range] at hk
      omega
    have hsize := savedAs_lost hsaved hinv.ok.inv (Nat.le_add_right _ k) hlt
    simp [view, Volume.bytes, hsize]
  · rw [hsame]
    refine mounted_fsInv dir junk hv ?_ ?_
    · intro e he
      have hfit := hinv.ok.fitted e (by omega)
      unfold Volume.Fitted at hfit ⊢
      rw [savedAs_file hsaved he]
      exact hfit
    · intro e e' he he' heq
      replace he : (e : ℤ) < s.disk.dir.lfd_nfiles := he
      replace he' : (e' : ℤ) < s.disk.dir.lfd_nfiles := he'
      have hcount := hsaved.count
      replace heq : (s.disk.dir.lfd_files e).ld_name =
          (s.disk.dir.lfd_files e').ld_name := heq
      rw [hsaved.same e he, hsaved.same e' he'] at heq
      exact hinv.ok.names e e' (by omega) (by omega) heq
  · have hview := mounted_view (v := v.savedAs s.disk.dir) dir junk
    rw [← hsame] at hview
    rw [hview]
    congr 1
    simp only [view]
    rw [← List.map_take, List.take_range, min_eq_left hle]
    apply List.map_congr_left
    intro e he
    have hfile := savedAs_file hsaved (List.mem_range.mp he)
    unfold Volume.bytes
    rw [hfile]
    rfl

end Restarting

end Xinu.LocalFiles
