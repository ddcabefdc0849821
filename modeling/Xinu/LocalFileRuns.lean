import Xinu.LocalFileRestarts

/-!
# Runs of the local file system

From a disk that has just been formatted, over any calls and restarts: every
block stays on exactly one list, the calls answer as names and bytes say, and
what has been written is there after a restart.
-/

namespace Xinu.LocalFiles

open ByteMemory LinkedTable OutputRuns

/-! ## The newest copies -/

/-- The copy of an index block in an open pseudo-device, if it is newer than
the disk. -/
def Lfs.newestIndex (s : Lfs) (n : ℤ) : Lfiblk :=
  match (List.range Nlfl).find? fun i => (s.lfltab i).lfstate = .used ∧
      (s.lfltab i).lfibdirty = true ∧ (s.lfltab i).lfinum = n with
  | some i => (s.lfltab i).lfiblock
  | none => s.disk.iblocks n

def Lfs.newestBlock (s : Lfs) (d : ℤ) : Block :=
  match (List.range Nlfl).find? fun i => (s.lfltab i).lfstate = .used ∧
      (s.lfltab i).lfdbdirty = true ∧ (s.lfltab i).lfdnum = d with
  | some i => (s.lfltab i).lfdblock
  | none => s.disk.blocks d

/-- The bytes of a file, as the directory, the index blocks and the data blocks
give them. -/
def Lfs.decodeFile (s : Lfs) (iblks e : ℕ) : Name × List (BitVec 8) :=
  let entry := s.loaded.lf_dir.lfd_files e
  let chain := nodesFrom LF_INULL (fun n => (s.newestIndex n).ib_next) iblks
    entry.ld_ilist
  (entry.ld_name, (List.range entry.ld_size).map fun off =>
    let ib := s.newestIndex (chain.getD (off / LF_IDATA) LF_INULL)
    s.newestBlock (ib.ib_dba (off % LF_IDATA / LF_BLKSIZ)) (off % LF_BLKSIZ))

def Lfs.decode (s : Lfs) (iblks : ℕ) : List (Name × List (BitVec 8)) :=
  (List.range s.loaded.lf_dir.lfd_nfiles.toNat).map (s.decodeFile iblks)

/-- Every index block is free or in the chain of one file, and every data
block is free or one that one index block of one file points to. -/
structure OnLists (iblocks dblocks : List ℤ) (s : Lfs)
    (ifree dfree : List ℤ) (chain : ℕ → List ℤ) : Prop where
  freeIndex : LinkedTable.Chain LF_INULL (fun n => (s.newestIndex n).ib_next)
    s.loaded.lf_dir.lfd_ifree ifree
  freeData : LinkedTable.Chain LF_DNULL (fun d => (s.newestBlock d).nextdb)
    s.loaded.lf_dir.lfd_dfree dfree
  files : ∀ e < s.loaded.lf_dir.lfd_nfiles.toNat,
    LinkedTable.Chain LF_INULL (fun n => (s.newestIndex n).ib_next)
      (s.loaded.lf_dir.lfd_files e).ld_ilist (chain e)
  iblocks : (ifree ++ (List.range s.loaded.lf_dir.lfd_nfiles.toNat).flatMap
    chain).Perm iblocks
  dblocks : (dfree ++ (List.range s.loaded.lf_dir.lfd_nfiles.toNat).flatMap
    fun e => chainPointers s.newestIndex (chain e)).Perm dblocks
  /-- A file has the blocks that its size needs. -/
  needed : ∀ e < s.loaded.lf_dir.lfd_nfiles.toNat,
    (chain e).length = indexBlocks (s.loaded.lf_dir.lfd_files e).ld_size ∧
      (chainPointers s.newestIndex (chain e)).length =
        dataBlocks (s.loaded.lf_dir.lfd_files e).ld_size

section Copies

variable {p : Pools} {s : Lfs} {v : Volume}

theorem Holds.newestIndex_eq (h : Holds s v) (n : ℤ) :
    s.newestIndex n = v.index n := by
  unfold Lfs.newestIndex
  split
  next i hfind =>
    rw [List.find?_range_eq_some] at hfind
    simp only [decide_eq_true_eq] at hfind
    obtain ⟨⟨hused, hdirty, rfl⟩, hmem, -⟩ := hfind
    have hi : s.InUse i := ⟨List.mem_range.mp hmem, hused⟩
    refine ((h.device i hi).index.resolve_left fun hnull => ?_).2
    rw [hnull.2] at hdirty
    cases hdirty
  next hfind =>
    refine h.index n fun i hi hdirty hn => ?_
    rw [List.find?_eq_none] at hfind
    have hat := hfind i (List.mem_range.mpr hi.1)
    simp only [decide_eq_true_eq] at hat
    exact hat ⟨hi.2, hdirty, hn⟩

theorem Holds.newestBlock_eq (h : Holds s v) (d : ℤ) :
    s.newestBlock d = v.block d := by
  unfold Lfs.newestBlock
  split
  next i hfind =>
    rw [List.find?_range_eq_some] at hfind
    simp only [decide_eq_true_eq] at hfind
    obtain ⟨⟨hused, hdirty, rfl⟩, hmem, -⟩ := hfind
    have hi : s.InUse i := ⟨List.mem_range.mp hmem, hused⟩
    refine ((h.device i hi).data.resolve_left fun hnull => ?_).2
    rw [hnull.2] at hdirty
    cases hdirty
  next hfind =>
    refine h.block d fun i hi hdirty hd => ?_
    rw [List.find?_eq_none] at hfind
    have hat := hfind i (List.mem_range.mpr hi.1)
    simp only [decide_eq_true_eq] at hat
    exact hat ⟨hi.2, hdirty, hd⟩

theorem loaded_newestIndex : s.loaded.newestIndex = s.newestIndex := by
  unfold Lfs.loaded
  split <;> rfl

theorem loaded_newestBlock : s.loaded.newestBlock = s.newestBlock := by
  unfold Lfs.loaded
  split <;> rfl

theorem FsInv.newest (h : FsInv p s v) :
    s.newestIndex = v.index ∧ s.newestBlock = v.block := by
  rw [← loaded_newestIndex, ← loaded_newestBlock]
  exact ⟨funext h.ok.holds.newestIndex_eq, funext h.ok.holds.newestBlock_eq⟩

/-- The state alone gives the names and the bytes. -/
theorem FsInv.decode_eq (h : FsInv p s v) :
    s.decode p.iblocks.length = (view s v).files := by
  have hv := h.ok.inv
  obtain ⟨hindex, hblock⟩ := h.newest
  have hcount : s.loaded.lf_dir.lfd_nfiles.toNat = v.nfiles := by
    rw [h.ok.holds.dir]
    rfl
  unfold Lfs.decode
  rw [hcount]
  simp only [view]
  apply List.map_congr_left
  intro e he
  have hlt := List.mem_range.mp he
  have hchain : nodesFrom LF_INULL v.next p.iblocks.length
      (v.file e).ld_ilist = v.chain e :=
    (hv.chain e hlt).nodesFrom_eq (hv.inull_not_mem hlt) (hv.chain_length hlt)
  unfold Lfs.decodeFile Volume.bytes
  simp only [hindex, hblock, h.ok.holds.dir]
  refine Prod.ext rfl ?_
  apply List.map_congr_left
  intro off _
  have hquot : off / LF_IDATA = off / LF_BLKSIZ / LF_IBLEN := by
    simp only [LF_IDATA, LF_BLKSIZ, LF_IBLEN]
    omega
  have hrem : off % LF_IDATA / LF_BLKSIZ = off / LF_BLKSIZ % LF_IBLEN := by
    simp only [LF_IDATA, LF_BLKSIZ, LF_IBLEN]
    omega
  unfold Volume.content Volume.pointer
  rw [← hchain, hquot, hrem]
  rfl

theorem FsInv.onLists (h : FsInv p s v) :
    OnLists p.iblocks p.dblocks s v.ifree v.dfree v.chain := by
  have hv := h.ok.inv
  obtain ⟨hindex, hblock⟩ := h.newest
  have hpointers : ∀ e < v.nfiles,
      chainPointers v.index (v.chain e) = v.pointers e :=
    fun e he => hv.chainPointers_eq he
  refine ⟨?_, ?_, ?_, ?_, ?_, ?_⟩ <;> simp only [hindex, hblock, h.ok.holds.dir]
  · exact hv.ifree
  · exact hv.dfree
  · exact hv.chain
  · exact hv.iblocks
  · have hsame : (List.range v.nfiles).flatMap (fun e =>
        chainPointers v.index (v.chain e)) =
          (List.range v.nfiles).flatMap v.pointers :=
      FreePools.owned_congr hpointers
    exact hsame ▸ hv.dblocks
  · intro e he
    obtain ⟨hroom, hchain⟩ := h.ok.fitted e he
    rw [hpointers e he, Volume.pointers, List.length_map, List.length_range,
      hchain, hroom]
    exact ⟨rfl, rfl⟩

end Copies

/-! ## Runs -/

/-- The files of a state between calls. -/
def Tracks (p : Pools) (s : Lfs) (fs : Files) : Prop :=
  ∃ v, FsInv p s v ∧ DirInv s ∧ fs = view s v

section Runs

variable {p : Pools} {s s' : Lfs} {fs : Files} {lfiblks dsiz budget : ℕ}
  {d disk : Disk} {dir : Lfdir} {junk : Block} {actions : List FsAction}
  {outs : List Reply}

theorem act_tracks
    {a : FsAction} {r : Reply} (hbudget : p.iblocks.length < budget)
    (h : Tracks p s fs) (hact : s.act budget a = some (s', r)) :
    ∃ fs', Files.Act p.iblocks.length p.dblocks.length fs a fs' r ∧
      Tracks p s' fs' := by
  obtain ⟨v, hinv, hdir, rfl⟩ := h
  cases a with
  | call c =>
      have hagrees := call_agrees hinv hbudget c
      have hcall : s.call budget c = some (s', r) := hact
      rw [hcall] at hagrees
      obtain ⟨v', hinv', hview⟩ := hagrees
      refine ⟨view s' v', ?_, v', hinv', call_dirInv hinv hdir hview hcall, rfl⟩
      have hfits : ((view s v).call c).1.Fits p.iblocks.length
          p.dblocks.length := by
        rw [hview]
        exact hinv'.fits
      have hmove := Files.Act.call (view s v) c hfits
      rwa [hview] at hmove
  | restart dir junk =>
      unfold Lfs.act at hact
      split_ifs at hact with hfree
      cases hact
      have hclosed : ∀ i, ¬ s.InUse i := by
        intro i hi
        have hstate := hi.2
        rw [hfree i hi.1] at hstate
        cases hstate
      obtain ⟨m, hlost, w, hinv', hview⟩ :=
        restart_shows hinv hdir hclosed dir junk
      refine ⟨_, .restart _ dir junk m (fun i => view_closed (hclosed i)) hlost,
        w, hinv', ⟨?_, ?_⟩, hview⟩
      · exact fun _ => .refl _
      · intro hdirty
        cases hdirty

theorem Formats.tracks
    (h : Formats lfiblks dsiz d disk) (dir : Lfdir) (junk : Block) :
    Tracks (formatPools lfiblks dsiz h.size) (mounted disk dir junk)
      Files.empty := by
  obtain ⟨v, hinv, hview⟩ := h.shows dir junk
  refine ⟨v, hinv, ⟨fun _ => .refl _, fun hdirty => ?_⟩, hview⟩
  cases hdirty

end Runs

/-! ## A small disk -/

def LFILE0 : Fin Nlfl := ⟨0, by decide⟩

/-- A small disk that `lfscreate` has formatted. -/
def smallDisk : Disk :=
  formatData 2 6 (formatIndex 7
    ⟨emptyDir 1, fun _ => lfibclear 0, fun _ _ => 0⟩)

def smallStart : Lfs := mounted smallDisk (emptyDir 0) fun _ => 0

theorem smallDisk_formats :
    Formats 1 4096 ⟨emptyDir 0, fun _ => lfibclear 0, fun _ _ => 0⟩
      smallDisk :=
  ⟨by decide, by decide, by decide, rfl⟩

/-- One file is written and one is only created before the restart. -/
def writeAndRestart : List FsAction :=
  [.call (.lfsopen [97] []), .call (.lflwrite LFILE0 [1, 2, 3]),
    .call (.lflclose LFILE0), .call (.lfsopen [98] []),
    .call (.lflclose LFILE0), .restart (emptyDir 0) fun _ => 0,
    .call (.lfsopen [98] [111]), .call (.lfsopen [97] [111]),
    .call (.lflread LFILE0 5)]

/-- The second open after the restart finds no file. -/
theorem writeAndRestart_runs :
    (runs (Lfs.act 8) writeAndRestart smallStart).map Prod.snd =
      some [([], 18), ([], 3), ([], 1), ([], 18), ([], 1), ([], 0), ([], -1),
        ([], 18), ([1, 2, 3], 3)] := by
  decide +kernel

/-! ## The laws of all runs -/

section Laws

variable {s : Lfs} {lfiblks dsiz budget : ℕ} {d disk : Disk} {dir : Lfdir}
  {junk : Block} {actions : List FsAction} {outs : List Reply}

/-- Over every run, every index block and every data block is on one list. -/
theorem blocks_on_one_list
    (h : Formats lfiblks dsiz d disk) (hbudget : iblksOf lfiblks < budget)
    (hruns : runs (Lfs.act budget) actions (mounted disk dir junk) =
      some (s, outs)) :
    ∃ ifree dfree chain, OnLists (inums (iblksOf lfiblks)) (dnums lfiblks dsiz)
      s ifree dfree chain := by
  have hinv : ∃ fs, Tracks (formatPools lfiblks dsiz h.size) s fs := by
    refine runs_invariant
      (fun s => ∃ fs, Tracks (formatPools lfiblks dsiz h.size) s fs) ?_
      ⟨_, h.tracks dir junk⟩ hruns
    rintro t a t' out ⟨fs, htracks⟩ hact
    obtain ⟨fs', -, htracks'⟩ :=
      act_tracks (by rw [formatPools_iblocks]; exact hbudget) htracks hact
    exact ⟨fs', htracks'⟩
  obtain ⟨fs, v, hfs, -, -⟩ := hinv
  exact ⟨v.ifree, v.dfree, v.chain, hfs.onLists⟩

theorem blocks_on_one_list_smallDisk :
    ∃ s outs, runs (Lfs.act 8) writeAndRestart smallStart = some (s, outs) ∧
      ∃ ifree dfree chain,
        OnLists (inums 7) (dnums 1 4096) s ifree dfree chain := by
  have hview := writeAndRestart_runs
  rw [Option.map_eq_some_iff] at hview
  obtain ⟨⟨s, outs⟩, hruns, -⟩ := hview
  exact ⟨s, outs, hruns, blocks_on_one_list smallDisk_formats (by decide) hruns⟩

/-- The calls of every run answer as the calls on names and bytes do, and they
panic exactly where the files do not fit. -/
theorem calls_match_files
    (h : Formats lfiblks dsiz d disk) (hbudget : iblksOf lfiblks < budget)
    (calls : List FsCall) :
    (runs (Lfs.call budget) calls (mounted disk dir junk)).map Prod.snd =
      (runs (Files.callWithin (iblksOf lfiblks) (dblksOf lfiblks dsiz)) calls
        Files.empty).map Prod.snd := by
  refine runs_outputs_eq
    (Shows (formatPools lfiblks dsiz h.size)) ?_ (h.shows dir junk) calls
  intro s fs c hshows
  have halike := call_alike hshows
    (by rw [formatPools_iblocks]; exact hbudget) c
  rwa [formatPools_iblocks, formatPools_dblocks] at halike

/-- Six data blocks do not take 3073 bytes. -/
theorem calls_match_files_smallDisk :
    (runs (Lfs.call 8) [.lfsopen [97] [], .lflwrite LFILE0 [1, 2, 3],
        .lflseek LFILE0 1, .lflread LFILE0 5] smallStart).map Prod.snd =
      some [([], 18), ([], 3), ([], 1), ([2, 3], 2)] ∧
    (runs (Lfs.call 8) [.lfsopen [97] [],
        .lflwrite LFILE0 (List.replicate 3073 7)] smallStart).map Prod.snd =
      none :=
  ⟨(calls_match_files smallDisk_formats (by decide) _).trans
      (by decide),
    (calls_match_files smallDisk_formats (by decide) _).trans
      (by decide +kernel)⟩

/-- The blocks give the files that the calls have made, and a restart with no
open file loses no file that has bytes. -/
theorem restarts_keep_files
    (h : Formats lfiblks dsiz d disk) (hbudget : iblksOf lfiblks < budget)
    (hruns : runs (Lfs.act budget) actions (mounted disk dir junk) =
      some (s, outs)) :
    ∃ fs, Trace (Files.Act (iblksOf lfiblks) (dblksOf lfiblks dsiz))
      Files.empty actions outs fs ∧ s.decode (iblksOf lfiblks) = fs.files := by
  obtain ⟨fs, htrace, v, hinv, -, hview⟩ := trace_of_runs
    (Tracks (formatPools lfiblks dsiz h.size))
    (Files.Act (iblksOf lfiblks) (dblksOf lfiblks dsiz))
    (fun t fs a t' out htracks hact => by
      have hmove := act_tracks (by rw [formatPools_iblocks]; exact hbudget)
        htracks hact
      rwa [formatPools_iblocks, formatPools_dblocks] at hmove)
    (h.tracks dir junk) hruns
  have hdecode := hinv.decode_eq
  rw [formatPools_iblocks, ← hview] at hdecode
  exact ⟨fs, htrace, hdecode⟩

theorem restarts_keep_files_smallDisk :
    ∃ s outs fs, runs (Lfs.act 8) writeAndRestart smallStart = some (s, outs) ∧
      Trace (Files.Act 7 6) Files.empty writeAndRestart outs fs ∧
        s.decode 7 = fs.files := by
  have hview := writeAndRestart_runs
  rw [Option.map_eq_some_iff] at hview
  obtain ⟨⟨s, outs⟩, hruns, -⟩ := hview
  obtain ⟨fs, htrace, hdecode⟩ :=
    restarts_keep_files smallDisk_formats (by decide) hruns
  exact ⟨s, outs, fs, hruns, htrace, hdecode⟩

end Laws

end Xinu.LocalFiles
