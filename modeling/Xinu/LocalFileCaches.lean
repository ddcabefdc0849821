import Xinu.LocalFileOpens
import Xinu.LocalFileVolumes

/-!
# The caches of open local files

Every open pseudo-device has a copy of one index block and of one data block
of its file, and either may be newer than the disk.  What the state holds is a
volume: the directory in memory, and for every block the dirty copy if there
is one.  A block is dirty in at most one pseudo-device, since no two are open
for the same file.
-/

namespace Xinu.LocalFiles

/-- The copies and the position of an open pseudo-device. -/
structure DeviceInv (v : Volume) (f : Lflcblk) : Prop where
  entry : f.lfdirptr < v.nfiles
  name : f.lfname = (v.file f.lfdirptr).ld_name
  pos : f.lfpos ≤ (v.file f.lfdirptr).ld_size
  index : f.lfinum = LF_INULL ∧ f.lfibdirty = false ∨
    f.lfinum ∈ v.chain f.lfdirptr ∧ f.lfiblock = v.index f.lfinum
  data : f.lfdnum = LF_DNULL ∧ f.lfdbdirty = false ∨
    f.lfdnum ∈ v.pointers f.lfdirptr ∧ f.lfdblock = v.block f.lfdnum
  byte : f.lfbyte < LF_BLKSIZ →
    f.lfbyte = f.lfpos % LF_BLKSIZ ∧
      f.lfpos / LF_BLKSIZ < v.room f.lfdirptr ∧
      f.lfdnum = v.pointer f.lfdirptr (f.lfpos / LF_BLKSIZ)

/-- No other pseudo-device has a newer copy of the index block. -/
def OthersIndex (s : Lfs) (i : ℕ) (n : ℤ) : Prop :=
  ∀ j ≠ i, s.InUse j → (s.lfltab j).lfibdirty = true → (s.lfltab j).lfinum ≠ n

/-- No other pseudo-device has a newer copy of the data block. -/
def OthersData (s : Lfs) (i : ℕ) (d : ℤ) : Prop :=
  ∀ j ≠ i, s.InUse j → (s.lfltab j).lfdbdirty = true → (s.lfltab j).lfdnum ≠ d

/-- The disk and the caches together are the volume. -/
structure Holds (s : Lfs) (v : Volume) : Prop where
  dir : s.lf_dir = v.dir
  present : s.lf_dirpresent = true
  selected : 0 ≤ s.lf_dskdev
  devs : ∀ i < Nlfl, (s.lfltab i).lfdev = 18 + i
  device : ∀ i, s.InUse i → DeviceInv v (s.lfltab i)
  apart : ∀ i j, s.InUse i → s.InUse j →
    (s.lfltab i).lfdirptr = (s.lfltab j).lfdirptr → i = j
  index : ∀ n,
    (∀ i, s.InUse i → (s.lfltab i).lfibdirty = true → (s.lfltab i).lfinum ≠ n) →
      s.disk.iblocks n = v.index n
  block : ∀ d,
    (∀ i, s.InUse i → (s.lfltab i).lfdbdirty = true → (s.lfltab i).lfdnum ≠ d) →
      s.disk.blocks d = v.block d

/-- A change of one pseudo-device, of the directory and of the disk. -/
structure Own (i : ℕ) (s s' : Lfs) : Prop where
  others : ∀ j ≠ i, s'.lfltab j = s.lfltab j
  state : (s'.lfltab i).lfstate = (s.lfltab i).lfstate
  dev : (s'.lfltab i).lfdev = (s.lfltab i).lfdev
  entry : (s'.lfltab i).lfdirptr = (s.lfltab i).lfdirptr
  name : (s'.lfltab i).lfname = (s.lfltab i).lfname
  dskdev : s'.lf_dskdev = s.lf_dskdev
  present : s'.lf_dirpresent = s.lf_dirpresent

section Own

variable {s s' s'' : Lfs} {i j : ℕ} {f : Lflcblk → Lflcblk}

theorem Own.refl (s : Lfs) : Own i s s :=
  ⟨fun _ _ => rfl, rfl, rfl, rfl, rfl, rfl, rfl⟩

theorem Own.trans (h : Own i s s') (h' : Own i s' s'') : Own i s s'' where
  others := fun j hj => (h'.others j hj).trans (h.others j hj)
  state := h'.state.trans h.state
  dev := h'.dev.trans h.dev
  entry := h'.entry.trans h.entry
  name := h'.name.trans h.name
  dskdev := h'.dskdev.trans h.dskdev
  present := h'.present.trans h.present

/-- The table of the pseudo-devices has not changed. -/
theorem Own.of_table
    (htab : s'.lfltab = s.lfltab) (hdskdev : s'.lf_dskdev = s.lf_dskdev)
    (hpresent : s'.lf_dirpresent = s.lf_dirpresent) : Own i s s' := by
  refine ⟨fun _ _ => ?_, ?_, ?_, ?_, ?_, hdskdev, hpresent⟩ <;> rw [htab]

theorem lfltab_setFile_self : (s.setFile i f).lfltab i = f (s.lfltab i) :=
  Function.update_self _ _ _

theorem lfltab_setFile_of_ne (hj : j ≠ i) :
    (s.setFile i f).lfltab j = s.lfltab j :=
  Function.update_of_ne hj _ _

theorem Own.setFile
    (hstate : (f (s.lfltab i)).lfstate = (s.lfltab i).lfstate)
    (hdev : (f (s.lfltab i)).lfdev = (s.lfltab i).lfdev)
    (hentry : (f (s.lfltab i)).lfdirptr = (s.lfltab i).lfdirptr)
    (hname : (f (s.lfltab i)).lfname = (s.lfltab i).lfname) :
    Own i s (s.setFile i f) := by
  refine ⟨fun _ => lfltab_setFile_of_ne, ?_, ?_, ?_, ?_, rfl, rfl⟩
  · rw [lfltab_setFile_self, hstate]
  · rw [lfltab_setFile_self, hdev]
  · rw [lfltab_setFile_self, hentry]
  · rw [lfltab_setFile_self, hname]

theorem Own.inUse (h : Own i s s') : s'.InUse j ↔ s.InUse j := by
  unfold Lfs.InUse
  by_cases hj : j = i
  · rw [hj, h.state]
  · rw [h.others j hj]

theorem Own.othersIndex (h : Own i s s') {n : ℤ} :
    OthersIndex s' i n ↔ OthersIndex s i n := by
  constructor <;> intro hn j hj hused
  · have hat := hn j hj (h.inUse.mpr hused)
    rwa [h.others j hj] at hat
  · rw [h.others j hj]
    exact hn j hj (h.inUse.mp hused)

theorem Own.othersData (h : Own i s s') {d : ℤ} :
    OthersData s' i d ↔ OthersData s i d := by
  constructor <;> intro hd j hj hused
  · have hat := hd j hj (h.inUse.mpr hused)
    rwa [h.others j hj] at hat
  · rw [h.others j hj]
    exact hd j hj (h.inUse.mp hused)

end Own

section Holding

variable {p : Pools} {s s' : Lfs} {v v' : Volume} {i j : ℕ} {n d : ℤ}

/-- An unchanged file leaves its pseudo-device right. -/
theorem DeviceInv.same
    {f : Lflcblk} (h : DeviceInv v f) (hsame : SameFile v v' f.lfdirptr)
    (hroom : v.room f.lfdirptr ≤ LF_IBLEN * (v.chain f.lfdirptr).length)
    (hcount : v.nfiles ≤ v'.nfiles) : DeviceInv v' f where
  entry := lt_of_lt_of_le h.entry hcount
  name := by rw [hsame.file]; exact h.name
  pos := by rw [hsame.file]; exact h.pos
  index := by
    rw [hsame.chain]
    rcases h.index with hnull | ⟨hmem, hblock⟩
    · exact Or.inl hnull
    · exact Or.inr ⟨hmem, by rw [hsame.index _ hmem]; exact hblock⟩
  data := by
    rw [hsame.pointers hroom]
    rcases h.data with hnull | ⟨hmem, hblock⟩
    · exact Or.inl hnull
    · exact Or.inr ⟨hmem, by rw [hsame.block _ hmem]; exact hblock⟩
  byte := fun hbyte => by
    obtain ⟨hoff, hlt, hdnum⟩ := h.byte hbyte
    refine ⟨hoff, by rw [hsame.room]; exact hlt, ?_⟩
    rw [hsame.pointer (by omega)]
    exact hdnum

theorem Holds.index_of_clean
    (h : Holds s v) (hothers : OthersIndex s i n)
    (hown : (s.lfltab i).lfibdirty = true → (s.lfltab i).lfinum ≠ n) :
    s.disk.iblocks n = v.index n := by
  refine h.index n fun j hused hdirty => ?_
  by_cases hj : j = i
  · subst hj
    exact hown hdirty
  · exact hothers j hj hused hdirty

theorem Holds.block_of_clean
    (h : Holds s v) (hothers : OthersData s i d)
    (hown : (s.lfltab i).lfdbdirty = true → (s.lfltab i).lfdnum ≠ d) :
    s.disk.blocks d = v.block d := by
  refine h.block d fun j hused hdirty => ?_
  by_cases hj : j = i
  · subst hj
    exact hown hdirty
  · exact hothers j hj hused hdirty

theorem DeviceInv.inum_mem
    {f : Lflcblk} (h : DeviceInv v f) (hdirty : f.lfibdirty = true) :
    f.lfinum ∈ v.chain f.lfdirptr := by
  rcases h.index with ⟨-, hclean⟩ | ⟨hmem, -⟩
  · rw [hclean] at hdirty
    cases hdirty
  · exact hmem

theorem DeviceInv.dnum_mem
    {f : Lflcblk} (h : DeviceInv v f) (hdirty : f.lfdbdirty = true) :
    f.lfdnum ∈ v.pointers f.lfdirptr := by
  rcases h.data with ⟨-, hclean⟩ | ⟨hmem, -⟩
  · rw [hclean] at hdirty
    cases hdirty
  · exact hmem

/-- The other pseudo-devices have no blocks of this file. -/
theorem Holds.othersIndex_chain
    (h : Holds s v) (hv : VolumeInv p v) (hi : s.InUse i)
    (hn : n ∈ v.chain (s.lfltab i).lfdirptr) : OthersIndex s i n := by
  rintro j hj hused hdirty rfl
  have hmem := (h.device j hused).inum_mem hdirty
  exact hv.chain_other (h.device i hi).entry (h.device j hused).entry
    (fun heq => hj (h.apart j i hused hi heq)) hn hmem

theorem Holds.othersData_pointers
    (h : Holds s v) (hv : VolumeInv p v) (hi : s.InUse i)
    (hd : d ∈ v.pointers (s.lfltab i).lfdirptr) : OthersData s i d := by
  rintro j hj hused hdirty rfl
  have hmem := (h.device j hused).dnum_mem hdirty
  exact hv.pointers_other (h.device i hi).entry (h.device j hused).entry
    (fun heq => hj (h.apart j i hused hi heq)) hd hmem

theorem Holds.iblocks_free
    (h : Holds s v) (hv : VolumeInv p v) (hn : n ∈ v.ifree) :
    s.disk.iblocks n = v.index n :=
  h.index n fun j hused hdirty heq =>
    hv.ifree_not_mem (h.device j hused).entry (heq ▸ hn)
      ((h.device j hused).inum_mem hdirty)

theorem Holds.blocks_free
    (h : Holds s v) (hv : VolumeInv p v) (hd : d ∈ v.dfree) :
    s.disk.blocks d = v.block d :=
  h.block d fun j hused hdirty heq =>
    hv.dfree_not_mem (h.device j hused).entry (heq ▸ hd)
      ((h.device j hused).dnum_mem hdirty)

/-- One pseudo-device, its file, the directory and the disk have changed
together. -/
theorem Holds.own
    (h : Holds s v) (hv : VolumeInv p v) (hi : s.InUse i) (ho : Own i s s')
    (hdir : s'.lf_dir = v'.dir) (hcount : v'.nfiles = v.nfiles)
    (hsame : ∀ f < v.nfiles, f ≠ (s.lfltab i).lfdirptr → SameFile v v' f)
    (hself : DeviceInv v' (s'.lfltab i))
    (hindex : ∀ n, OthersIndex s i n →
      ((s'.lfltab i).lfibdirty = true → (s'.lfltab i).lfinum ≠ n) →
        s'.disk.iblocks n = v'.index n)
    (hblock : ∀ d, OthersData s i d →
      ((s'.lfltab i).lfdbdirty = true → (s'.lfltab i).lfdnum ≠ d) →
        s'.disk.blocks d = v'.block d) : Holds s' v' where
  dir := hdir
  present := ho.present.trans h.present
  selected := by rw [ho.dskdev]; exact h.selected
  devs := fun j hj => by
    by_cases hji : j = i
    · rw [hji, ho.dev]
      exact h.devs i hi.1
    · rw [ho.others j hji]
      exact h.devs j hj
  device := fun j hused => by
    by_cases hji : j = i
    · rw [hji]
      exact hself
    · rw [ho.others j hji]
      have hused := ho.inUse.mp hused
      have hold := h.device j hused
      exact hold.same
        (hsame _ hold.entry fun heq => hji (h.apart j i hused hi heq))
        (hv.room _ hold.entry) hcount.ge
  apart := fun j k hj hk heq => by
    have hentry : ∀ l, (s'.lfltab l).lfdirptr = (s.lfltab l).lfdirptr := by
      intro l
      by_cases hl : l = i
      · rw [hl, ho.entry]
      · rw [ho.others l hl]
    rw [hentry, hentry] at heq
    exact h.apart j k (ho.inUse.mp hj) (ho.inUse.mp hk) heq
  index := fun n hclean => hindex n
    (ho.othersIndex.mp fun j _ => hclean j)
    (hclean i (ho.inUse.mpr hi))
  block := fun d hclean => hblock d
    (ho.othersData.mp fun j _ => hclean j)
    (hclean i (ho.inUse.mpr hi))

end Holding

/-! ## Flushing and loading -/

section Flushing

variable {p : Pools} {s : Lfs} {v : Volume} {i : ℕ} {n : ℤ}

theorem Holds.flushDir (h : Holds s v) : Holds s.flushDir v := by
  unfold Lfs.flushDir
  split
  · exact ⟨h.dir, h.present, h.selected, h.devs, h.device, h.apart, h.index,
      h.block⟩
  · exact h

theorem own_flushDir (s : Lfs) : Own i s s.flushDir := by
  unfold Lfs.flushDir
  split
  · exact .of_table rfl rfl rfl
  · exact .refl s

theorem lfltab_flushDir (s : Lfs) : s.flushDir.lfltab = s.lfltab := by
  unfold Lfs.flushDir
  split <;> rfl

theorem lfltab_flushData (s : Lfs) :
    (s.flushData i).lfltab i = { s.lfltab i with lfdbdirty := false } := by
  unfold Lfs.flushData
  split
  next => exact lfltab_setFile_self
  next hclean =>
    rw [Bool.not_eq_true] at hclean
    rw [← hclean]

theorem lfltab_flushIndex (s : Lfs) :
    (s.flushIndex i).lfltab i = { s.lfltab i with lfibdirty := false } := by
  unfold Lfs.flushIndex
  split
  next => exact lfltab_setFile_self
  next hclean =>
    rw [Bool.not_eq_true] at hclean
    rw [← hclean]

theorem own_flushData (s : Lfs) : Own i s (s.flushData i) := by
  unfold Lfs.flushData
  split
  · have hdisk :
        Own i s (s.writeBlock (s.lfltab i).lfdnum (s.lfltab i).lfdblock) :=
      .of_table rfl rfl rfl
    exact hdisk.trans (.setFile rfl rfl rfl rfl)
  · exact .refl s

theorem own_flushIndex (s : Lfs) : Own i s (s.flushIndex i) := by
  unfold Lfs.flushIndex
  split
  · have hdisk :
        Own i s (s.lfibput (s.lfltab i).lfinum (s.lfltab i).lfiblock) :=
      .of_table rfl rfl rfl
    exact hdisk.trans (.setFile rfl rfl rfl rfl)
  · exact .refl s

theorem Holds.flushData
    (h : Holds s v) (hv : VolumeInv p v) (hi : s.InUse i) :
    Holds (s.flushData i) v := by
  have hdev := h.device i hi
  have hf := lfltab_flushData (i := i) s
  refine h.own hv hi (own_flushData s) ?_ rfl (fun f _ _ => .refl v f) ?_ ?_ ?_
  · unfold Lfs.flushData
    split <;> exact h.dir
  · rw [hf]
    exact ⟨hdev.entry, hdev.name, hdev.pos, hdev.index,
      hdev.data.imp (fun hnull => ⟨hnull.1, rfl⟩) id, hdev.byte⟩
  · intro n hothers hown
    rw [hf] at hown
    have hclean := h.index_of_clean hothers hown
    unfold Lfs.flushData
    split <;> exact hclean
  · intro d hothers _
    unfold Lfs.flushData
    split
    next hdirty =>
      have hblock := (hdev.data.resolve_left fun hnull => by
        rw [hnull.2] at hdirty
        cases hdirty).2
      by_cases hd : d = (s.lfltab i).lfdnum
      · subst hd
        simpa [Lfs.writeBlock, Disk.putBlock, Lfs.setFile] using hblock
      · simpa [Lfs.writeBlock, Disk.putBlock, Lfs.setFile, hd] using
          h.block_of_clean hothers fun _ => Ne.symm hd
    next hclean =>
      exact h.block_of_clean hothers fun hdirty => absurd hdirty hclean

theorem Holds.flushIndex
    (h : Holds s v) (hv : VolumeInv p v) (hi : s.InUse i) :
    Holds (s.flushIndex i) v := by
  have hdev := h.device i hi
  have hf := lfltab_flushIndex (i := i) s
  refine h.own hv hi (own_flushIndex s) ?_ rfl (fun f _ _ => .refl v f) ?_ ?_ ?_
  · unfold Lfs.flushIndex
    split <;> exact h.dir
  · rw [hf]
    exact ⟨hdev.entry, hdev.name, hdev.pos,
      hdev.index.imp (fun hnull => ⟨hnull.1, rfl⟩) id, hdev.data, hdev.byte⟩
  · intro n hothers _
    unfold Lfs.flushIndex
    split
    next hdirty =>
      have hblock := (hdev.index.resolve_left fun hnull => by
        rw [hnull.2] at hdirty
        cases hdirty).2
      by_cases hn : n = (s.lfltab i).lfinum
      · subst hn
        simpa [Lfs.lfibput, Disk.putIndex, Lfs.setFile] using hblock
      · simpa [Lfs.lfibput, Disk.putIndex, Lfs.setFile, hn] using
          h.index_of_clean hothers fun _ => Ne.symm hn
    next hclean =>
      exact h.index_of_clean hothers fun hdirty => absurd hdirty hclean
  · intro d hothers hown
    rw [hf] at hown
    have hclean := h.block_of_clean hothers hown
    unfold Lfs.flushIndex
    split <;> exact hclean

/-- A flush of an open pseudo-device changes its flags and the disk. -/
theorem lfflush_spec
    (hv : VolumeInv p v) (h : Holds s v) (hi : s.InUse i) :
    Holds (s.lfflush i) v ∧ Own i s (s.lfflush i) ∧
      (s.lfflush i).lfltab i =
        { s.lfltab i with lfibdirty := false, lfdbdirty := false } := by
  have hstate : (s.lfltab i).lfstate ≠ .free := by
    rw [hi.2]
    decide
  unfold Lfs.lfflush
  rw [if_neg hstate]
  have hown : Own i s s.flushDir := own_flushDir s
  have hown' := hown.trans (own_flushData _)
  have hdata := h.flushDir.flushData hv (hown.inUse.mpr hi)
  refine ⟨hdata.flushIndex hv (hown'.inUse.mpr hi),
    hown'.trans (own_flushIndex _), ?_⟩
  rw [lfltab_flushIndex, lfltab_flushData, lfltab_flushDir]

theorem lfltab_loadIndex (s : Lfs) :
    (s.loadIndex i n).lfltab i =
      { s.lfltab i with lfiblock := s.disk.iblocks n, lfinum := n } :=
  lfltab_setFile_self

theorem own_loadIndex (s : Lfs) : Own i s (s.loadIndex i n) :=
  .setFile rfl rfl rfl rfl

/-- An index block of the file is read from the disk. -/
theorem Holds.loadIndex
    (h : Holds s v) (hv : VolumeInv p v) (hi : s.InUse i)
    (hclean : (s.lfltab i).lfibdirty = false)
    (hn : n ∈ v.chain (s.lfltab i).lfdirptr) :
    Holds (s.loadIndex i n) v := by
  have hdev := h.device i hi
  have hblock : s.disk.iblocks n = v.index n :=
    h.index_of_clean (h.othersIndex_chain hv hi hn) fun hdirty => by
      rw [hclean] at hdirty
      cases hdirty
  refine h.own hv hi (own_loadIndex s) h.dir rfl
    (fun f _ _ => .refl v f) ?_ ?_ ?_
  · rw [lfltab_loadIndex]
    exact ⟨hdev.entry, hdev.name, hdev.pos, Or.inr ⟨hn, hblock⟩, hdev.data,
      hdev.byte⟩
  · intro m hothers _
    exact h.index_of_clean hothers fun hdirty => by
      rw [hclean] at hdirty
      cases hdirty
  · intro d hothers hown
    rw [lfltab_loadIndex] at hown
    exact h.block_of_clean hothers hown

end Flushing

end Xinu.LocalFiles
