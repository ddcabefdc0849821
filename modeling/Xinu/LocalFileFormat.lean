import Xinu.DiskFormat
import Xinu.LocalFileSystem

/-!
# The disk of a local file system

A disk that `lfscreate` has formatted holds an empty file system with all its
blocks on the two free lists, and a disk that holds a file system can be
mounted.
-/

namespace Xinu.LocalFiles

open LinkedTable

/-- The sectors of index blocks that `lfscreate` makes. -/
def ibsectors (lfiblks : ℕ) : ℕ := (lfiblks + 6) / 7

/-- The index blocks that `lfscreate` makes, seven in each sector. -/
def iblksOf (lfiblks : ℕ) : ℕ := 7 * ibsectors lfiblks

/-- The data blocks that `lfscreate` makes. -/
def dblksOf (lfiblks dsiz : ℕ) : ℕ := dsiz / LF_BLKSIZ - ibsectors lfiblks - 1

/-- A disk with a size in 32 bits is formatted with blocks of both kinds. -/
structure Formats (lfiblks dsiz : ℕ) (d disk : Disk) : Prop where
  iblks : 0 < iblksOf lfiblks
  dblks : 0 < dblksOf lfiblks dsiz
  size : dsiz < 2 ^ 32
  created : lfscreate lfiblks dsiz d = some disk

/-- The numbers of the index blocks. -/
def inums (iblks : ℕ) : List ℤ := (List.range' 0 iblks).map Nat.cast

/-- The numbers of the data blocks. -/
def dnums (lfiblks dsiz : ℕ) : List ℤ :=
  (List.range' (ibsectors lfiblks + 1) (dblksOf lfiblks dsiz)).map Nat.cast

theorem mem_nums {b n : ℕ} {x : ℤ} :
    x ∈ (List.range' b n).map (Nat.cast : ℕ → ℤ) ↔ b ≤ x ∧ x < b + n := by
  simp only [List.mem_map, List.mem_range'_1]
  constructor
  · rintro ⟨k, hk, rfl⟩
    omega
  · rintro ⟨hle, hlt⟩
    exact ⟨x.toNat, by omega, by omega⟩

theorem nums_nodup (b n : ℕ) :
    ((List.range' b n).map (Nat.cast : ℕ → ℤ)).Nodup :=
  List.Nodup.map Nat.cast_injective List.nodup_range'

theorem inull_not_mem_inums (iblks : ℕ) : LF_INULL ∉ inums iblks := by
  intro hnull
  have hle := (mem_nums.mp hnull).1
  simp [LF_INULL] at hle

theorem dnull_not_mem_dnums (lfiblks dsiz : ℕ) :
    LF_DNULL ∉ dnums lfiblks dsiz := by
  intro hnull
  have hle := (mem_nums.mp hnull).1
  simp only [LF_DNULL] at hle
  omega

theorem dnums_link {lfiblks dsiz : ℕ} (hsize : dsiz < 2 ^ 32) :
    ∀ d ∈ dnums lfiblks dsiz, -2 ^ 31 ≤ d ∧ d < 2 ^ 31 := by
  intro d hd
  have hmem := mem_nums.mp hd
  simp only [dblksOf, LF_BLKSIZ] at hmem
  omega

/-- The blocks of a formatted disk. -/
def formatPools (lfiblks dsiz : ℕ) (hsize : dsiz < 2 ^ 32) : Pools where
  iblocks := inums (iblksOf lfiblks)
  dblocks := dnums lfiblks dsiz
  iblocks_nodup := nums_nodup _ _
  dblocks_nodup := nums_nodup _ _
  inull := inull_not_mem_inums _
  dnull := dnull_not_mem_dnums _ _
  link := dnums_link hsize

section Pools

variable {lfiblks dsiz : ℕ} {hsize : dsiz < 2 ^ 32}

theorem formatPools_iblocks :
    (formatPools lfiblks dsiz hsize).iblocks.length = iblksOf lfiblks := by
  simp [formatPools, inums]

theorem formatPools_dblocks :
    (formatPools lfiblks dsiz hsize).dblocks.length = dblksOf lfiblks dsiz := by
  simp [formatPools, dnums]

end Pools

/-! ## The two free lists -/

section Loops

variable {d : Disk}

theorem iblocks_putIndex (n x : ℤ) (ib : Lfiblk) :
    (d.putIndex n ib).iblocks x = if x = n then ib else d.iblocks x :=
  Function.update_apply _ _ _ _

theorem blocks_putBlock (n x : ℤ) (b : Block) :
    (d.putBlock n b).blocks x = if x = n then b else d.blocks x :=
  Function.update_apply _ _ _ _

theorem foldl_putIndex (f : ℕ → Lfiblk) (n k : ℕ) :
    ((List.range n).foldl (fun d i => d.putIndex i (f i)) d).iblocks k =
      if k < n then f k else d.iblocks k := by
  induction n with
  | zero => simp
  | succ n ih =>
      rw [List.range_succ, List.foldl_append, List.foldl_cons, List.foldl_nil,
        iblocks_putIndex, ih]
      by_cases hk : k = n
      · simp [hk]
      · simp only [Nat.cast_inj, hk, if_false,
          show k < n + 1 ↔ k < n by omega]

theorem foldl_putBlock (b : ℕ) (f : ℕ → Block) (n k : ℕ) :
    ((List.range n).foldl (fun d i => d.putBlock (b + i : ℕ) (f i)) d).blocks
        (b + k : ℕ) =
      if k < n then f k else d.blocks (b + k : ℕ) := by
  induction n with
  | zero => simp
  | succ n ih =>
      rw [List.range_succ, List.foldl_append, List.foldl_cons, List.foldl_nil,
        blocks_putBlock, ih]
      by_cases hk : k = n
      · simp [hk]
      · simp only [Nat.cast_inj, Nat.add_left_cancel_iff, hk, if_false,
          show k < n + 1 ↔ k < n by omega]

theorem foldl_putIndex_rest (f : ℕ → Lfiblk) (l : List ℕ) :
    (l.foldl (fun d i => d.putIndex i (f i)) d).dir = d.dir := by
  induction l generalizing d with
  | nil => rfl
  | cons i l ih => exact ih

theorem foldl_putBlock_rest (b : ℕ) (f : ℕ → Block) (l : List ℕ) :
    (l.foldl (fun d i => d.putBlock (b + i : ℕ) (f i)) d).dir = d.dir ∧
      (l.foldl (fun d i => d.putBlock (b + i : ℕ) (f i)) d).iblocks =
        d.iblocks := by
  induction l generalizing d with
  | nil => exact ⟨rfl, rfl⟩
  | cons i l ih => exact ih

theorem formatIndex_next {n k : ℕ} (hk : k < n) :
    ((formatIndex n d).iblocks k).ib_next =
      if k + 1 = n then LF_INULL else (k : ℤ) + 1 := by
  unfold formatIndex
  rw [iblocks_putIndex]
  by_cases hlast : k + 1 = n
  · have heq : (k : ℤ) = (n - 1 : ℕ) := by omega
    rw [if_pos heq, if_pos hlast]
    rfl
  · have hne : (k : ℤ) ≠ (n - 1 : ℕ) := by omega
    rw [if_neg hne, if_neg hlast,
      foldl_putIndex fun i => { lfibclear 0 with ib_next := (i : ℤ) + 1 },
      if_pos (by omega)]

theorem formatData_next {b n k : ℕ} (hk : k < n) (hsmall : b + n < 2 ^ 31) :
    ((formatData b n d).blocks (b + k : ℕ)).nextdb =
      if k + 1 = n then LF_DNULL else (b + k : ℕ) + 1 := by
  unfold formatData
  rw [blocks_putBlock]
  by_cases hlast : k + 1 = n
  · have heq : ((b + k : ℕ) : ℤ) = (b + (n - 1) : ℕ) := by omega
    rw [if_pos heq, if_pos hlast]
    exact nextdb_setNextdb (by simp [LF_DNULL])
  · have hne : ((b + k : ℕ) : ℤ) ≠ (b + (n - 1) : ℕ) := by omega
    rw [if_neg hne, if_neg hlast,
      foldl_putBlock b fun i => Block.setNextdb (fun _ => 0) ((b + i : ℕ) + 1),
      if_pos (by omega)]
    exact nextdb_setNextdb (by omega)

end Loops

/-! ## An empty file system -/

/-- The volume of a formatted disk. -/
def emptyVolume (lfiblks dsiz : ℕ) (disk : Disk) : Volume where
  dir := disk.dir
  index := disk.iblocks
  block := disk.blocks
  ifree := inums (iblksOf lfiblks)
  dfree := dnums lfiblks dsiz
  chain := fun _ => []
  room := fun _ => 0

section Formatted

variable {lfiblks dsiz : ℕ} {d disk : Disk}

theorem Formats.parts (h : Formats lfiblks dsiz d disk) :
    disk.dir = emptyDir (ibsectors lfiblks) ∧
      (∀ k < iblksOf lfiblks, (disk.iblocks k).ib_next =
        if k + 1 = iblksOf lfiblks then LF_INULL else (k : ℤ) + 1) ∧
      ∀ k < dblksOf lfiblks dsiz,
        (disk.blocks (ibsectors lfiblks + 1 + k : ℕ)).nextdb =
          if k + 1 = dblksOf lfiblks dsiz then LF_DNULL
          else (ibsectors lfiblks + 1 + k : ℕ) + 1 := by
  have hcreated := h.created
  have hsize := h.size
  unfold lfscreate at hcreated
  dsimp only at hcreated
  split_ifs at hcreated
  obtain rfl := Option.some.inj hcreated
  refine ⟨?_, ?_, ?_⟩
  · unfold formatData formatIndex
    simp only [Disk.putBlock, Disk.putIndex]
    exact (foldl_putBlock_rest _ _ _).1.trans (foldl_putIndex_rest _ _)
  · intro k hk
    have hkeep : (formatData (ibsectors lfiblks + 1) (dblksOf lfiblks dsiz)
        (formatIndex (iblksOf lfiblks)
          { d with dir := emptyDir (ibsectors lfiblks) })).iblocks =
        (formatIndex (iblksOf lfiblks)
          { d with dir := emptyDir (ibsectors lfiblks) }).iblocks := by
      unfold formatData
      simp only [Disk.putBlock]
      exact (foldl_putBlock_rest _ _ _).2
    exact (congrArg (fun f => (f (k : ℤ)).ib_next) hkeep).trans
      (formatIndex_next hk)
  · intro k hk
    have hsectors : dsiz / LF_BLKSIZ < 2 ^ 23 := by
      simp only [LF_BLKSIZ]
      omega
    apply formatData_next hk
    unfold dblksOf at hk ⊢
    omega

theorem Formats.volumeInv (h : Formats lfiblks dsiz d disk) :
    VolumeInv (formatPools lfiblks dsiz h.size)
      (emptyVolume lfiblks dsiz disk) := by
  obtain ⟨hdir, hindex, hdata⟩ := h.parts
  have hiblks := h.iblks
  have hdblks := h.dblks
  have hcount : (emptyVolume lfiblks dsiz disk).nfiles = 0 := by
    unfold Volume.nfiles emptyVolume
    rw [hdir]
    rfl
  have hnone : ∀ e, ¬ e < (emptyVolume lfiblks dsiz disk).nfiles := by
    intro e he
    omega
  have hcheck : lfscheck disk.dir = true := by
    rw [hdir]
    simp [lfscheck, emptyDir]
  have hifree : LinkedTable.Chain LF_INULL (fun n => (disk.iblocks n).ib_next)
      disk.dir.lfd_ifree (inums (iblksOf lfiblks)) := by
    have hfirst : disk.dir.lfd_ifree = (0 : ℕ) := by
      rw [hdir]
      rfl
    rw [hfirst, inums, show iblksOf lfiblks = iblksOf lfiblks - 1 + 1 by omega]
    apply DiskFormat.chain_ascending
    · intro j _ hj
      rw [hindex j (by omega), if_neg (by omega)]
    · rw [hindex _ (by omega), if_pos (by omega)]
  have hdfree : LinkedTable.Chain LF_DNULL (fun n => (disk.blocks n).nextdb)
      disk.dir.lfd_dfree (dnums lfiblks dsiz) := by
    have hfirst : disk.dir.lfd_dfree = (ibsectors lfiblks + 1 : ℕ) := by
      rw [hdir]
      rfl
    rw [hfirst, dnums,
      show dblksOf lfiblks dsiz = dblksOf lfiblks dsiz - 1 + 1 by omega]
    apply DiskFormat.chain_ascending
    · intro j hle hlt
      obtain ⟨k, rfl⟩ : ∃ k, j = ibsectors lfiblks + 1 + k :=
        ⟨j - (ibsectors lfiblks + 1), by omega⟩
      rw [hdata k (by omega), if_neg (by omega)]
    · rw [hdata _ (by omega), if_pos (by omega)]
  refine ⟨hcheck, hifree, hdfree, ?_, ?_, ?_, ?_, ?_, ?_⟩
  · exact fun e he => absurd he (hnone e)
  · exact fun e he => absurd he (hnone e)
  · exact fun e he => absurd he (hnone e)
  · exact fun e he => absurd he (hnone e)
  · unfold FreePools.Divided
    rw [hcount]
    simp [emptyVolume, formatPools]
  · unfold FreePools.Divided
    rw [hcount]
    simp [emptyVolume, formatPools]

end Formatted

/-! ## A disk is mounted -/

section Mounting

variable {p : Pools} {v : Volume} (dir : Lfdir) (junk : Block)

/-- The disk that holds a volume. -/
def Volume.disk (v : Volume) : Disk := ⟨v.dir, v.index, v.block⟩

theorem mounted_closed {disk : Disk} {dir : Lfdir} {junk : Block} {i : ℕ} :
    ¬ (mounted disk dir junk).InUse i := by
  rintro ⟨-, hused⟩
  cases hused

theorem mounted_fsInv
    (hinv : VolumeInv p v) (hfitted : ∀ e < v.nfiles, v.Fitted e)
    (hnames : DistinctNames v.dir) : FsInv p (mounted v.disk dir junk) v := by
  refine ⟨⟨hinv, ?_, hfitted, hnames⟩, fun _ i => mounted_closed⟩
  have hclosed : ∀ i, ¬ (mounted v.disk dir junk).loaded.InUse i := by
    rintro i ⟨-, hused⟩
    rw [loaded_lfltab] at hused
    cases hused
  refine ⟨rfl, rfl, le_rfl, fun i _ => rfl, ?_, ?_, fun _ _ => rfl,
    fun _ _ => rfl⟩
  · exact fun i hi => absurd hi (hclosed i)
  · exact fun i _ hi => absurd hi (hclosed i)

theorem mounted_view :
    view (mounted v.disk dir junk) v =
      ⟨(List.range v.nfiles).map fun e => ((v.file e).ld_name, v.bytes e),
        fun _ => none⟩ := by
  have hopened : (view (mounted v.disk dir junk) v).opened = fun _ => none := by
    funext i
    exact view_closed mounted_closed
  rw [← hopened]
  rfl

/-- No files. -/
def Files.empty : Files := ⟨[], fun _ => none⟩

theorem Formats.shows
    {lfiblks dsiz : ℕ} {d disk : Disk} (h : Formats lfiblks dsiz d disk)
    (dir : Lfdir) (junk : Block) :
    Shows (formatPools lfiblks dsiz h.size) (mounted disk dir junk)
      Files.empty := by
  have hcount : (emptyVolume lfiblks dsiz disk).nfiles = 0 := by
    unfold Volume.nfiles emptyVolume
    rw [h.parts.1]
    rfl
  have hdisk : (emptyVolume lfiblks dsiz disk).disk = disk := rfl
  refine ⟨emptyVolume lfiblks dsiz disk, ?_, ?_⟩
  · refine mounted_fsInv dir junk h.volumeInv (fun e he => by omega)
      fun e e' he => ?_
    have hdir : (emptyVolume lfiblks dsiz disk).dir.lfd_nfiles = 0 := by
      show disk.dir.lfd_nfiles = 0
      rw [h.parts.1]
      rfl
    rw [hdir] at he
    omega
  · have hview := mounted_view (v := emptyVolume lfiblks dsiz disk) dir junk
    rw [hcount, hdisk] at hview
    exact hview.symm

end Mounting

end Xinu.LocalFiles
