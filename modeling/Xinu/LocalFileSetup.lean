import Xinu.LocalFileCaches

/-!
# Finding the block of a position

`lfsetup` walks to the index block of the position and loads the data block,
taking blocks from the free lists where the file ends.  It leaves the bytes of
every file alone, and it fails only where a block that it needs is not free.
-/

namespace Xinu.LocalFiles

open LinkedTable

/-- A volume in which file `e` has got blocks. -/
structure Extended (v v' : Volume) (e : ℕ) : Prop where
  nfiles : v'.nfiles = v.nfiles
  other : ∀ f < v.nfiles, f ≠ e → SameFile v v' f
  size : (v'.file e).ld_size = (v.file e).ld_size
  name : (v'.file e).ld_name = (v.file e).ld_name
  room : v.room e ≤ v'.room e
  pointer : ∀ k < v.room e, v'.pointer e k = v.pointer e k
  block : ∀ d ∈ v.pointers e, v'.block d = v.block d
  iblocks : (v'.chain e).length + v'.ifree.length =
    (v.chain e).length + v.ifree.length
  dblocks : v'.room e + v'.dfree.length = v.room e + v.dfree.length

/-- A part of `lfsetup` has gone from `s` to `s'`. -/
structure SetupStep (p : Pools) (i : ℕ) (s : Lfs) (v : Volume) (s' : Lfs)
    (v' : Volume) : Prop where
  inv : VolumeInv p v'
  holds : Holds s' v'
  own : Own i s s'
  extended : Extended v v' (s.lfltab i).lfdirptr
  pos : (s'.lfltab i).lfpos = (s.lfltab i).lfpos

/-- The index block in memory is block `k` of the chain. -/
structure Positioned (v : Volume) (f : Lflcblk) (k : ℕ) : Prop where
  lt : k < (v.chain f.lfdirptr).length
  inum : f.lfinum = (v.chain f.lfdirptr).getD k LF_INULL
  le : LF_IDATA * k ≤ f.lfpos
  /-- Only a new index block is dirty. -/
  last : f.lfibdirty = true → k + 1 = (v.chain f.lfdirptr).length
  clean : f.lfdbdirty = false
  /-- The byte pointer is not in use. -/
  byte : LF_BLKSIZ ≤ f.lfbyte

section Relations

variable {p : Pools} {s s' s'' : Lfs} {v v' v'' : Volume} {i e : ℕ}

theorem Extended.refl (v : Volume) (e : ℕ) : Extended v v e :=
  ⟨rfl, fun f _ _ => .refl v f, rfl, rfl, le_rfl, fun _ _ => rfl,
    fun _ _ => rfl, rfl, rfl⟩

theorem Extended.trans
    (h : Extended v v' e) (h' : Extended v' v'' e) (hv : VolumeInv p v) :
    Extended v v'' e where
  nfiles := h'.nfiles.trans h.nfiles
  other := fun f hf hne =>
    (h.other f hf hne).trans (h'.other f (by rw [h.nfiles]; exact hf) hne)
      (hv.room f hf)
  size := h'.size.trans h.size
  name := h'.name.trans h.name
  room := h.room.trans h'.room
  pointer := fun k hk =>
    (h'.pointer k (lt_of_lt_of_le hk h.room)).trans (h.pointer k hk)
  block := fun d hd => by
    have hmem : d ∈ v'.pointers e := by
      obtain ⟨k, hk, rfl⟩ := Volume.mem_pointers.mp hd
      rw [← h.pointer k hk]
      exact Volume.pointer_mem (lt_of_lt_of_le hk h.room)
    exact (h'.block d hmem).trans (h.block d hd)
  iblocks := h'.iblocks.trans h.iblocks
  dblocks := h'.dblocks.trans h.dblocks

/-- The bytes in the blocks that the file had. -/
theorem Extended.content
    (h : Extended v v' e) {off : ℕ} (hoff : off / LF_BLKSIZ < v.room e) :
    v'.content e off = v.content e off := by
  unfold Volume.content
  rw [h.pointer _ hoff, h.block _ (Volume.pointer_mem hoff)]

theorem SetupStep.refl (hv : VolumeInv p v) (h : Holds s v) :
    SetupStep p i s v s v :=
  ⟨hv, h, .refl s, .refl v _, rfl⟩

theorem SetupStep.trans
    (h : SetupStep p i s v s' v') (h' : SetupStep p i s' v' s'' v'')
    (hv : VolumeInv p v) : SetupStep p i s v s'' v'' where
  inv := h'.inv
  holds := h'.holds
  own := h.own.trans h'.own
  extended := by
    have hext := h'.extended
    rw [h.own.entry] at hext
    exact h.extended.trans hext hv
  pos := h'.pos.trans h.pos

end Relations

/-! ## The free lists -/

/-- Only the directory has changed. -/
structure DirOnly (s s' : Lfs) : Prop where
  table : s'.lfltab = s.lfltab
  iblocks : s'.disk.iblocks = s.disk.iblocks
  blocks : s'.disk.blocks = s.disk.blocks
  dskdev : s'.lf_dskdev = s.lf_dskdev
  present : s'.lf_dirpresent = s.lf_dirpresent

section Allocation

variable {p : Pools} {s : Lfs} {v : Volume}

theorem VolumeInv.ifree_head (hv : VolumeInv p v) :
    v.dir.lfd_ifree = LF_INULL ↔ v.ifree = [] := by
  rw [hv.ifree.head]
  cases hfree : v.ifree with
  | nil => simp
  | cons n rest =>
      have hmem := hv.iblocks.mem_of_free (x := n) (by simp [hfree])
      have hne : n ≠ LF_INULL := fun heq => p.inull (heq ▸ hmem)
      simpa using hne

theorem VolumeInv.dfree_head (hv : VolumeInv p v) :
    v.dir.lfd_dfree = LF_DNULL ↔ v.dfree = [] := by
  rw [hv.dfree.head]
  cases hfree : v.dfree with
  | nil => simp
  | cons d rest =>
      have hmem := hv.dblocks.mem_of_free (x := d) (by simp [hfree])
      have hne : d ≠ LF_DNULL := fun heq => p.dnull (heq ▸ hmem)
      simpa using hne

theorem lfiballoc_spec (hv : VolumeInv p v) (h : Holds s v) :
    v.ifree = [] ∧ s.lfiballoc = none ∨
      ∃ n rest s', v.ifree = n :: rest ∧ s.lfiballoc = some (s', n) ∧
        s'.lf_dir = { v.dir with lfd_ifree := v.next n } ∧ DirOnly s s' := by
  unfold Lfs.lfiballoc
  rw [h.dir]
  cases hfree : v.ifree with
  | nil =>
      left
      exact ⟨rfl, if_pos (hv.ifree_head.mpr hfree)⟩
  | cons n rest =>
      right
      have hne : v.dir.lfd_ifree ≠ LF_INULL := fun heq => by
        rw [hv.ifree_head.mp heq] at hfree
        cases hfree
      have hn : v.dir.lfd_ifree = n := by
        rw [hv.ifree.head, hfree]
        rfl
      rw [if_neg hne, hn]
      refine ⟨n, rest, _, rfl, rfl, ?_, rfl, rfl, rfl, rfl, rfl⟩
      have hblock := h.iblocks_free hv (n := n) (by simp [hfree])
      simp [Lfs.writeDir, Lfs.lfibget, hblock, Volume.next]

theorem lfdballoc_spec (hv : VolumeInv p v) (h : Holds s v) :
    v.dfree = [] ∧ s.lfdballoc = none ∨
      ∃ d rest s', v.dfree = d :: rest ∧
        s.lfdballoc = some (s', d, fun _ => DFILL) ∧
        s'.lf_dir = { v.dir with lfd_dfree := v.nextdb d } ∧ DirOnly s s' := by
  unfold Lfs.lfdballoc
  rw [h.dir]
  cases hfree : v.dfree with
  | nil =>
      left
      exact ⟨rfl, if_pos (hv.dfree_head.mpr hfree)⟩
  | cons d rest =>
      right
      have hne : v.dir.lfd_dfree ≠ LF_DNULL := fun heq => by
        rw [hv.dfree_head.mp heq] at hfree
        cases hfree
      have hd : v.dir.lfd_dfree = d := by
        rw [hv.dfree.head, hfree]
        rfl
      rw [if_neg hne, hd]
      refine ⟨d, rest, _, rfl, rfl, ?_, rfl, rfl, rfl, rfl, rfl⟩
      have hblock := h.blocks_free hv (d := d) (by simp [hfree])
      simp [Lfs.writeDir, hblock, Volume.nextdb]

end Allocation

/-! ## A new index block -/

section NewIndex

variable {p : Pools} {s s₁ s' : Lfs} {v : Volume} {i : ℕ} {n : ℤ}
  {rest : List ℤ}

theorem grow_extended
    {e : ℕ} (hv : VolumeInv p v) (he : e < v.nfiles)
    (hfree : v.ifree = n :: rest) : Extended v (v.grow e n) e where
  nfiles := rfl
  other := fun _ hf hne => grow_sameFile hv he hfree hf hne
  size := by simp [Volume.grow, Volume.file]
  name := by simp [Volume.grow, Volume.file]
  room := le_rfl
  pointer := fun _ hk =>
    grow_pointer hv he hfree (lt_of_lt_of_le hk (hv.room e he))
  block := fun _ _ => rfl
  iblocks := by
    have htail : (v.grow e n).ifree = rest := by simp [Volume.grow, hfree]
    rw [grow_chain_self, htail, hfree]
    simp
    omega
  dblocks := rfl

/-- The first or a further index block has been linked to the file and is in
memory. -/
theorem Holds.grow
    (h : Holds s v) (hv : VolumeInv p v) (hi : s.InUse i) (ho : Own i s s')
    (hfree : v.ifree = n :: rest)
    (hdir : s'.lf_dir = (v.grow (s.lfltab i).lfdirptr n).dir)
    (hpos : (s'.lfltab i).lfpos = (s.lfltab i).lfpos)
    (hbyte : LF_BLKSIZ ≤ (s'.lfltab i).lfbyte)
    (hinum : (s'.lfltab i).lfinum = n)
    (hblock : (s'.lfltab i).lfiblock =
      lfibclear (LF_IDATA * (v.chain (s.lfltab i).lfdirptr).length))
    (hdirty : (s'.lfltab i).lfibdirty = true)
    (hclean : (s'.lfltab i).lfdbdirty = (s.lfltab i).lfdbdirty)
    (hdata : (s'.lfltab i).lfdnum = LF_DNULL ∧ (s.lfltab i).lfdbdirty = false ∨
      (s'.lfltab i).lfdnum = (s.lfltab i).lfdnum ∧
        (s'.lfltab i).lfdblock = (s.lfltab i).lfdblock)
    (hiblocks : ∀ m ≠ n, OthersIndex s i m →
      s'.disk.iblocks m = (v.grow (s.lfltab i).lfdirptr n).index m)
    (hblocks : s'.disk.blocks = s.disk.blocks) :
    Holds s' (v.grow (s.lfltab i).lfdirptr n) := by
  have hdev := h.device i hi
  have he := hdev.entry
  have hpointers := grow_pointers hv he hfree he
  refine h.own hv hi ho hdir rfl
    (fun f hf hne => grow_sameFile hv he hfree hf hne) ?_ ?_ ?_
  · refine ⟨?_, ?_, ?_, ?_, ?_, fun hlt => absurd hbyte (by omega)⟩
    · rw [ho.entry]
      exact he
    · rw [ho.entry, ho.name, (grow_extended hv he hfree).name]
      exact hdev.name
    · rw [ho.entry, hpos, (grow_extended hv he hfree).size]
      exact hdev.pos
    · right
      rw [ho.entry, hinum, hblock, grow_chain_self, grow_index_new]
      exact ⟨by simp, rfl⟩
    · rw [ho.entry, hclean, hpointers]
      rcases hdata with hnull | ⟨hnum, hcopy⟩
      · exact Or.inl hnull
      · rw [hnum, hcopy]
        exact hdev.data
  · intro m hothers hown
    have hne : m ≠ n := fun heq => hown hdirty (by rw [hinum, heq])
    exact hiblocks m hne hothers
  · intro d hothers hown
    rw [hblocks]
    refine h.block_of_clean hothers fun hd => ?_
    rcases hdata with ⟨-, hfalse⟩ | ⟨hnum, -⟩
    · rw [hfalse] at hd
      cases hd
    · rw [← hnum]
      exact hown (by rw [hclean, hd])

end NewIndex

/-! ## The index block of the position -/

section FindIndex

variable {p : Pools} {s s' : Lfs} {v : Volume} {i k budget : ℕ}

/-- The first index block of the file is loaded. -/
theorem SetupStep.loadFirst
    (hv : VolumeInv p v) (h : Holds s v) (hi : s.InUse i)
    (hclean : (s.lfltab i).lfibdirty = false)
    (hdclean : (s.lfltab i).lfdbdirty = false)
    (hbyte : LF_BLKSIZ ≤ (s.lfltab i).lfbyte)
    (hne : v.chain (s.lfltab i).lfdirptr ≠ []) :
    SetupStep p i s v (s.loadIndex i (s.entry i).ld_ilist) v ∧
      Positioned v ((s.loadIndex i (s.entry i).ld_ilist).lfltab i) 0 := by
  have hdev := h.device i hi
  have hchain := hv.chain _ hdev.entry
  have hlt : 0 < (v.chain (s.lfltab i).lfdirptr).length :=
    List.length_pos_iff.mpr hne
  have hhead : (s.entry i).ld_ilist =
      (v.chain (s.lfltab i).lfdirptr).getD 0 LF_INULL := by
    unfold Lfs.entry
    rw [h.dir]
    rw [show v.dir.lfd_files (s.lfltab i).lfdirptr =
      v.file (s.lfltab i).lfdirptr from rfl, hchain.head]
    simp [List.getD_eq_getElem?_getD, List.head?_eq_getElem?]
  have hmem := chain_getD_mem hlt
  rw [← hhead] at hmem
  refine ⟨⟨hv, h.loadIndex hv hi hclean hmem, own_loadIndex s, .refl v _,
    by rw [lfltab_loadIndex]⟩, ?_⟩
  rw [lfltab_loadIndex]
  refine ⟨hlt, hhead, by simp, ?_, hdclean, hbyte⟩
  intro hdirty
  simp only [hclean] at hdirty
  cases hdirty

theorem setupFirst_spec
    (hv : VolumeInv p v) (h : Holds s v) (hi : s.InUse i)
    (hclean : (s.lfltab i).lfibdirty = false)
    (hdclean : (s.lfltab i).lfdbdirty = false)
    (hbyte : LF_BLKSIZ ≤ (s.lfltab i).lfbyte) :
    v.chain (s.lfltab i).lfdirptr = [] ∧ v.ifree = [] ∧
        s.setupFirst i = none ∨
      ∃ s' v' k, s.setupFirst i = some s' ∧ SetupStep p i s v s' v' ∧
        Positioned v' (s'.lfltab i) k ∧
        k ≤ (s.lfltab i).lfpos / LF_IDATA ∧
        (v'.chain (s.lfltab i).lfdirptr).length =
          max 1 (v.chain (s.lfltab i).lfdirptr).length ∧
        v'.room (s.lfltab i).lfdirptr = v.room (s.lfltab i).lfdirptr ∧
        v'.dfree = v.dfree := by
  have hdev := h.device i hi
  have he := hdev.entry
  have hchain := hv.chain _ he
  have hilist : (s.entry i).ld_ilist =
      (v.file (s.lfltab i).lfdirptr).ld_ilist := by
    unfold Lfs.entry
    rw [h.dir]
    rfl
  unfold Lfs.setupFirst
  by_cases hinum : (s.lfltab i).lfinum = LF_INULL
  · rw [if_pos hinum]
    by_cases hnone : v.chain (s.lfltab i).lfdirptr = []
    · -- an empty file gets its first index block
      have hnull : (s.entry i).ld_ilist = LF_INULL := by
        rw [hilist, hchain.head, hnone]
        rfl
      rw [if_pos hnull]
      rcases lfiballoc_spec hv h with ⟨hempty, halloc⟩ |
        ⟨n, rest, s₁, hfree, halloc, hdir, honly⟩
      · exact Or.inl ⟨hnone, hempty, by rw [halloc]; rfl⟩
      right
      rw [halloc]
      have htab : s₁.lfltab i = s.lfltab i := by rw [honly.table]
      let s₂ := s₁.setEntry (s₁.lfltab i).lfdirptr fun e =>
        { e with ld_ilist := n }
      let s₃ := s₂.setFile i fun f =>
        { f with lfiblock := lfibclear 0, lfibdirty := true, lfinum := n }
      have hf : s₃.lfltab i = { s.lfltab i with
          lfiblock := lfibclear 0, lfibdirty := true, lfinum := n } := by
        rw [← htab]
        exact lfltab_setFile_self
      have ho : Own i s s₃ := by
        have hfirst : Own i s s₂ := .of_table honly.table honly.dskdev
          honly.present
        exact hfirst.trans (.setFile rfl rfl rfl rfl)
      have hholds : Holds s₃ (v.grow (s.lfltab i).lfdirptr n) := by
        refine h.grow hv hi ho hfree ?_ ?_ ?_ ?_ ?_ ?_ ?_ ?_ ?_ honly.blocks
        · show ({ s₁.lf_dir with lfd_files := _ } : Lfdir) = _
          rw [htab, hdir, Volume.grow, hnone]
          rfl
        · rw [hf]
        · rw [hf]
          exact hbyte
        · rw [hf]
        · rw [hf, hnone]
          rfl
        · rw [hf]
        · rw [hf]
        · rw [hf]
          exact Or.inr ⟨rfl, rfl⟩
        · intro m hne hothers
          have hdisk : s₃.disk.iblocks = s.disk.iblocks := honly.iblocks
          rw [hdisk, grow_index_other hne (by simp [hnone])]
          exact h.index_of_clean hothers fun hdirty => by
            rw [hclean] at hdirty
            cases hdirty
      refine ⟨s₃, _, 0, rfl,
        ⟨hv.grow he hfree, hholds, ho, grow_extended hv he hfree,
          by rw [hf]⟩, ?_, Nat.zero_le _, ?_, rfl, rfl⟩
      · rw [hf]
        refine ⟨?_, ?_, Nat.zero_le _, ?_, hdclean, hbyte⟩
        · rw [grow_chain_self]
          simp
        · rw [grow_chain_self, hnone]
          rfl
        · rw [grow_chain_self, hnone]
          simp
      · rw [grow_chain_self, hnone]
        rfl
    · have hsome : (s.entry i).ld_ilist ≠ LF_INULL := by
        rw [hilist, hchain.head]
        intro heq
        obtain ⟨n, l, hl⟩ := List.exists_cons_of_ne_nil hnone
        rw [hl] at heq
        have hn : n = LF_INULL := by simpa using heq
        exact hv.inull_not_mem he (by rw [hl, hn]; exact List.mem_cons_self)
      rw [if_neg hsome]
      obtain ⟨hstep, hat⟩ :=
        SetupStep.loadFirst hv h hi hclean hdclean hbyte hnone
      have hlen := List.length_pos_iff.mpr hnone
      exact Or.inr ⟨_, v, 0, rfl, hstep, hat, Nat.zero_le _, by omega, rfl,
        rfl⟩
  · rw [if_neg hinum]
    obtain ⟨hmem, hblock⟩ := hdev.index.resolve_left fun hnull => hinum hnull.1
    have hnone := List.ne_nil_of_mem hmem
    have hlen := List.length_pos_iff.mpr hnone
    right
    by_cases hbefore : (s.lfltab i).lfpos < (s.lfltab i).lfiblock.ib_offset
    · rw [if_pos hbefore]
      obtain ⟨hstep, hat⟩ :=
        SetupStep.loadFirst hv h hi hclean hdclean hbyte hnone
      exact ⟨_, v, 0, rfl, hstep, hat, Nat.zero_le _, by omega, rfl, rfl⟩
    · rw [if_neg hbefore]
      obtain ⟨k, hk, hget⟩ := List.mem_iff_getElem.mp hmem
      have hgetD : (v.chain (s.lfltab i).lfdirptr).getD k LF_INULL =
          (s.lfltab i).lfinum := by
        rw [List.getD_eq_getElem _ LF_INULL hk, hget]
      have hoffset := hv.offset _ he k hk
      rw [hgetD, ← hblock] at hoffset
      rw [hoffset] at hbefore
      have hle : LF_IDATA * k ≤ (s.lfltab i).lfpos := by omega
      refine ⟨s, v, k, rfl, .refl hv h, ⟨hk, hgetD.symm, hle, ?_, hdclean,
        hbyte⟩, ?_, by omega, rfl, rfl⟩
      · intro hdirty
        rw [hclean] at hdirty
        cases hdirty
      · simp only [LF_IDATA] at hle ⊢
        omega

/-- One turn of the loop over the index blocks. -/
theorem setupNext_spec
    (hv : VolumeInv p v) (h : Holds s v) (hi : s.InUse i)
    (hat : Positioned v (s.lfltab i) k)
    (hlt : k < (s.lfltab i).lfpos / LF_IDATA) :
    k + 1 = (v.chain (s.lfltab i).lfdirptr).length ∧ v.ifree = [] ∧
        s.setupNext i = none ∨
      ∃ s' v', s.setupNext i = some s' ∧ SetupStep p i s v s' v' ∧
        Positioned v' (s'.lfltab i) (k + 1) ∧
        (v'.chain (s.lfltab i).lfdirptr).length =
          max (k + 2) (v.chain (s.lfltab i).lfdirptr).length ∧
        v'.room (s.lfltab i).lfdirptr = v.room (s.lfltab i).lfdirptr ∧
        v'.dfree = v.dfree := by
  have hdev := h.device i hi
  have he := hdev.entry
  have hchain := hv.chain _ he
  have hmem := chain_getD_mem hat.lt
  rw [← hat.inum] at hmem
  have hblock := (hdev.index.resolve_left fun hnull =>
    hv.inull_not_mem he (hnull.1 ▸ hmem)).2
  have hnext : (s.lfltab i).lfiblock.ib_next =
      (v.chain (s.lfltab i).lfdirptr).getD (k + 1) LF_INULL := by
    rw [hblock, hat.inum]
    exact chain_next hchain hat.lt
  have hle : LF_IDATA * (k + 1) ≤ (s.lfltab i).lfpos := by
    simp only [LF_IDATA] at hlt ⊢
    omega
  unfold Lfs.setupNext
  by_cases hlast : k + 1 = (v.chain (s.lfltab i).lfdirptr).length
  · -- the chain ends here and gets another block
    have hnull : (s.lfltab i).lfiblock.ib_next = LF_INULL := by
      rw [hnext, List.getD_eq_default _ _ (by omega)]
    simp only [hnull, if_true]
    rcases lfiballoc_spec hv h with ⟨hempty, halloc⟩ |
      ⟨n, rest, s₁, hfree, halloc, hdir, honly⟩
    · exact Or.inl ⟨hlast, hempty, by rw [halloc]; rfl⟩
    right
    rw [halloc]
    have hoffset : (s.lfltab i).lfiblock.ib_offset = LF_IDATA * k := by
      rw [hblock, hat.inum]
      exact hv.offset _ he k hat.lt
    have htab : s₁.lfltab i = s.lfltab i := by rw [honly.table]
    let s₂ := s₁.lfibput (s₁.lfltab i).lfinum
      { (s.lfltab i).lfiblock with ib_next := n }
    let s₃ := s₂.setFile i fun f =>
      { f with
        lfinum := n
        lfiblock := lfibclear ((s.lfltab i).lfiblock.ib_offset + LF_IDATA)
        lfibdirty := true
        lfdnum := LF_DNULL }
    have hf : s₃.lfltab i = { s.lfltab i with
        lfinum := n
        lfiblock := lfibclear ((s.lfltab i).lfiblock.ib_offset + LF_IDATA)
        lfibdirty := true
        lfdnum := LF_DNULL } := by
      have hset : s₃.lfltab i = { s₂.lfltab i with
          lfinum := n
          lfiblock := lfibclear ((s.lfltab i).lfiblock.ib_offset + LF_IDATA)
          lfibdirty := true
          lfdnum := LF_DNULL } := lfltab_setFile_self
      have htab₂ : s₂.lfltab i = s.lfltab i := htab
      rw [hset, htab₂]
    have ho : Own i s s₃ := by
      have hfirst : Own i s s₂ := .of_table honly.table honly.dskdev
        honly.present
      exact hfirst.trans (.setFile rfl rfl rfl rfl)
    have hlastmem : (s.lfltab i).lfinum ∈
        (v.chain (s.lfltab i).lfdirptr).getLast? := by
      rw [hat.inum, List.getLast?_eq_getElem?, ← hlast, Nat.add_sub_cancel,
        List.getElem?_eq_getElem hat.lt, List.getD_eq_getElem _ _ hat.lt]
      rfl
    have hhead : (v.chain (s.lfltab i).lfdirptr).head?.getD n =
        (v.file (s.lfltab i).lfdirptr).ld_ilist := by
      rw [hchain.head]
      obtain ⟨x, l, hl⟩ :=
        List.exists_cons_of_ne_nil (List.ne_nil_of_mem hmem)
      simp [hl]
    have hfresh := grow_fresh hv hfree he hmem
    have hholds : Holds s₃ (v.grow (s.lfltab i).lfdirptr n) := by
      refine h.grow hv hi ho hfree ?_ ?_ ?_ ?_ ?_ ?_ ?_ ?_ ?_ honly.blocks
      · have hdir₃ : s₃.lf_dir = s₁.lf_dir := rfl
        rw [hdir₃, hdir, Volume.grow, hhead]
        simp [Volume.file]
      · rw [hf]
      · rw [hf]
        exact hat.byte
      · rw [hf]
      · rw [hf, hoffset, ← hlast]
        rfl
      · rw [hf]
      · rw [hf]
      · rw [hf]
        exact Or.inl ⟨rfl, hat.clean⟩
      · intro m hne hothers
        have hdisk : s₃.disk.iblocks = Function.update s.disk.iblocks
            (s.lfltab i).lfinum
              { (s.lfltab i).lfiblock with ib_next := n } := by
          show Function.update s₁.disk.iblocks _ _ = _
          rw [honly.iblocks, htab]
        rw [hdisk]
        by_cases hm : m = (s.lfltab i).lfinum
        · rw [hm, Function.update_self, grow_index_of_ne hfresh,
            if_pos hlastmem, hblock]
        · rw [Function.update_of_ne hm, grow_index_other hne]
          · exact h.index_of_clean hothers fun _ => Ne.symm hm
          · intro hmlast
            exact hm (Option.mem_unique hmlast hlastmem)
    refine ⟨s₃, _, rfl,
      ⟨hv.grow he hfree, hholds, ho, grow_extended hv he hfree, by rw [hf]⟩,
      ?_, ?_, rfl, rfl⟩
    · rw [hf]
      refine ⟨?_, ?_, hle, ?_, hat.clean, hat.byte⟩
      · rw [grow_chain_self, List.length_append, List.length_singleton]
        omega
      · rw [grow_chain_self, hlast, List.getD_append_right _ _ _ _ le_rfl,
          Nat.sub_self]
        rfl
      · intro _
        rw [grow_chain_self, List.length_append, List.length_singleton]
        omega
    · rw [grow_chain_self, List.length_append, List.length_singleton]
      omega
  · -- the next block of the chain is loaded
    have hlt' : k + 1 < (v.chain (s.lfltab i).lfdirptr).length := by
      have hk := hat.lt
      omega
    have hmem' := chain_getD_mem hlt'
    rw [← hnext] at hmem'
    have hsome : (s.lfltab i).lfiblock.ib_next ≠ LF_INULL := fun heq =>
      hv.inull_not_mem he (heq ▸ hmem')
    have hclean : (s.lfltab i).lfibdirty = false := by
      cases hdirty : (s.lfltab i).lfibdirty with
      | false => rfl
      | true => exact absurd (hat.last hdirty) hlast
    simp only [hsome, if_false]
    right
    let s₁ := s.loadIndex i (s.lfltab i).lfiblock.ib_next
    have hload := h.loadIndex hv hi hclean hmem'
    let s₂ := s₁.setFile i fun f => { f with lfdnum := LF_DNULL }
    have hf : s₂.lfltab i = { s.lfltab i with
        lfiblock := s.disk.iblocks (s.lfltab i).lfiblock.ib_next
        lfinum := (s.lfltab i).lfiblock.ib_next
        lfdnum := LF_DNULL } := by
      have hset : s₂.lfltab i = { s₁.lfltab i with lfdnum := LF_DNULL } :=
        lfltab_setFile_self
      rw [hset, lfltab_loadIndex]
    have ho₁ : Own i s s₁ := own_loadIndex s
    have ho₂ : Own i s₁ s₂ := .setFile rfl rfl rfl rfl
    have hused := ho₁.inUse.mpr hi
    have hdev₁ := hload.device i hused
    have hholds : Holds s₂ v := by
      refine hload.own hv hused ho₂ hload.dir rfl (fun f _ _ => .refl v f)
        ?_ ?_ ?_
      · have hset : s₂.lfltab i = { s₁.lfltab i with lfdnum := LF_DNULL } :=
          lfltab_setFile_self
        rw [hset]
        refine ⟨hdev₁.entry, hdev₁.name, hdev₁.pos, hdev₁.index,
          Or.inl ⟨rfl, ?_⟩, fun hbyte => ?_⟩
        · show (s₁.lfltab i).lfdbdirty = false
          rw [lfltab_loadIndex]
          exact hat.clean
        · have hbyte₁ : (s₁.lfltab i).lfbyte < LF_BLKSIZ := hbyte
          rw [lfltab_loadIndex] at hbyte₁
          exact absurd hat.byte (by simpa using hbyte₁)
      · intro n hothers hown
        refine hload.index_of_clean hothers fun hdirty => ?_
        rw [lfltab_loadIndex] at hdirty
        rw [hclean] at hdirty
        cases hdirty
      · intro d hothers hown
        refine hload.block_of_clean hothers fun hdirty => ?_
        rw [lfltab_loadIndex] at hdirty
        rw [hat.clean] at hdirty
        cases hdirty
    refine ⟨s₂, v, rfl, ⟨hv, hholds, ho₁.trans ho₂, .refl v _, by rw [hf]⟩,
      ?_, by omega, rfl, rfl⟩
    rw [hf]
    refine ⟨hlt', hnext, hle, ?_, hat.clean, hat.byte⟩
    intro hdirty
    simp only [hclean] at hdirty
    cases hdirty

/-- The loop ends at the index block of the position, or at the end of the
chain with too few free index blocks. -/
theorem setupIndex_spec
    (hv : VolumeInv p v) (h : Holds s v) (hi : s.InUse i)
    (hat : Positioned v (s.lfltab i) k)
    (hbudget : (s.lfltab i).lfpos / LF_IDATA < k + budget) :
    v.ifree.length + (v.chain (s.lfltab i).lfdirptr).length <
          (s.lfltab i).lfpos / LF_IDATA + 1 ∧
        Lfs.setupIndex i budget s = none ∨
      ∃ s' v', Lfs.setupIndex i budget s = some s' ∧ SetupStep p i s v s' v' ∧
        Positioned v' (s'.lfltab i) ((s.lfltab i).lfpos / LF_IDATA) ∧
        (v'.chain (s.lfltab i).lfdirptr).length =
          max ((s.lfltab i).lfpos / LF_IDATA + 1)
            (v.chain (s.lfltab i).lfdirptr).length ∧
        v'.room (s.lfltab i).lfdirptr = v.room (s.lfltab i).lfdirptr ∧
        v'.dfree = v.dfree := by
  have hle := hat.le
  have hlen := hat.lt
  induction budget generalizing s v k with
  | zero =>
      simp only [LF_IDATA] at hbudget hle
      omega
  | succ budget ih =>
      have hdev := h.device i hi
      have hmem := chain_getD_mem hat.lt
      rw [← hat.inum] at hmem
      have hblock := (hdev.index.resolve_left fun hnull =>
        hv.inull_not_mem hdev.entry (hnull.1 ▸ hmem)).2
      have hoffset : (s.lfltab i).lfiblock.ib_offset = LF_IDATA * k := by
        rw [hblock, hat.inum]
        exact hv.offset _ hdev.entry k hat.lt
      unfold Lfs.setupIndex
      simp only [hoffset]
      by_cases hlt : k < (s.lfltab i).lfpos / LF_IDATA
      · have hcond : LF_IDATA * k <
            (s.lfltab i).lfpos / LF_IDATA * LF_IDATA := by
          simp only [LF_IDATA] at hlt ⊢
          omega
        rw [if_pos hcond]
        rcases setupNext_spec hv h hi hat hlt with ⟨hlast, hempty, hnone⟩ |
          ⟨s₁, v₁, hsome, hstep, hat₁, hlen₁, hroom₁, hdfree₁⟩
        · left
          rw [hnone, hempty]
          exact ⟨by simp only [List.length_nil]; omega, rfl⟩
        · rw [hsome, Option.bind_some]
          have hused := hstep.own.inUse.mpr hi
          have hgoal := ih hstep.inv hstep.holds hused hat₁
            (by rw [hstep.pos]; omega) hat₁.le hat₁.lt
          have hspare := hstep.extended.iblocks
          rw [hstep.pos, hstep.own.entry] at hgoal
          rcases hgoal with ⟨hshort, hnone⟩ |
            ⟨s₂, v₂, hsome₂, hstep₂, hat₂, hlen₂, hroom₂, hdfree₂⟩
          · exact Or.inl ⟨by omega, hnone⟩
          · exact Or.inr ⟨s₂, v₂, hsome₂, hstep.trans hstep₂ hv, hat₂,
              by omega, hroom₂.trans hroom₁, hdfree₂.trans hdfree₁⟩
      · have hk : k = (s.lfltab i).lfpos / LF_IDATA := by
          simp only [LF_IDATA] at hlt hle ⊢
          omega
        have hcond : ¬ LF_IDATA * k <
            (s.lfltab i).lfpos / LF_IDATA * LF_IDATA := by
          rw [← hk, Nat.mul_comm]
          exact lt_irrefl _
        rw [if_neg hcond, ← hk]
        exact Or.inr ⟨s, v, rfl, .refl hv h, hat, by omega, rfl, rfl⟩

end FindIndex

/-! ## The data block of the position -/

section FindData

variable {p : Pools} {s s' : Lfs} {v : Volume} {i budget : ℕ}

theorem addBlock_extended
    {e : ℕ} {d : ℤ} {rest : List ℤ} (hv : VolumeInv p v) (he : e < v.nfiles)
    (hfree : v.dfree = d :: rest)
    (hroom : v.room e < LF_IBLEN * (v.chain e).length) :
    Extended v (v.addBlock e d) e where
  nfiles := rfl
  other := fun _ hf hne => addBlock_sameFile hv hfree he hroom hf hne
  size := rfl
  name := rfl
  room := by
    rw [addBlock_room_self]
    omega
  pointer := fun k hk => by
    rw [addBlock_pointer hv he hroom (by omega), if_neg (by omega)]
  block := fun x hx =>
    addBlock_block_other (addBlock_fresh hv hfree he hx)
  iblocks := rfl
  dblocks := by
    have htail : (v.addBlock e d).dfree = rest := by
      simp [Volume.addBlock, hfree]
    rw [addBlock_room_self, htail, hfree, List.length_cons]
    omega

/-- The copy of the data block counts as newer than the disk. -/
def Lfs.dirtied (s : Lfs) (i : ℕ) : Lfs :=
  s.setFile i fun f => { f with lfdbdirty := true }

theorem lfltab_dirtied (s : Lfs) :
    (s.dirtied i).lfltab i = { s.lfltab i with lfdbdirty := true } :=
  lfltab_setFile_self

theorem own_dirtied (s : Lfs) : Own i s (s.dirtied i) :=
  .setFile rfl rfl rfl rfl

theorem Holds.dirtied
    (h : Holds s v) (hv : VolumeInv p v) (hi : s.InUse i)
    (hd : (s.lfltab i).lfdnum ∈ v.pointers (s.lfltab i).lfdirptr) :
    Holds (s.dirtied i) v := by
  have hdev := h.device i hi
  have hcopy := hdev.data.resolve_left fun hnull => by
    have hdblocks := hv.dblocks.mem_of_owned hdev.entry hd
    rw [hnull.1] at hdblocks
    exact p.dnull hdblocks
  refine h.own hv hi (own_dirtied s) h.dir rfl (fun f _ _ => .refl v f) ?_ ?_ ?_
  · rw [lfltab_dirtied]
    exact ⟨hdev.entry, hdev.name, hdev.pos, hdev.index, Or.inr hcopy, hdev.byte⟩
  · intro n hothers hown
    rw [lfltab_dirtied] at hown
    exact h.index_of_clean hothers hown
  · intro d hothers hown
    rw [lfltab_dirtied] at hown
    exact h.block_of_clean hothers fun _ => hown rfl

/-- `lfsetup` has gone from `s` to `s'`.  A new data block is not on the disk
yet and its flag is not set, so the caller has to set it. -/
structure SetupDone (p : Pools) (i : ℕ) (s : Lfs) (v : Volume) (s' : Lfs)
    (v' : Volume) : Prop where
  inv : VolumeInv p v'
  dirty : Holds (s'.dirtied i) v'
  clean : (s.lfltab i).lfpos / LF_BLKSIZ < v.room (s.lfltab i).lfdirptr →
    Holds s' v'
  own : Own i s s'
  extended : Extended v v' (s.lfltab i).lfdirptr
  pos : (s'.lfltab i).lfpos = (s.lfltab i).lfpos
  byte : (s'.lfltab i).lfbyte = (s.lfltab i).lfpos % LF_BLKSIZ
  room : v'.room (s.lfltab i).lfdirptr =
    max ((s.lfltab i).lfpos / LF_BLKSIZ + 1) (v.room (s.lfltab i).lfdirptr)

section EndOfFile

variable {d : ℤ} {rest : List ℤ} {s₁ : Lfs}

/-- The control block with the new data block `d`. -/
def Lflcblk.newBlock (f : Lflcblk) (d : ℤ) : Lflcblk :=
  { f with
    lfdblock := fun _ => DFILL
    lfiblock := { f.lfiblock with
      ib_dba := Function.update f.lfiblock.ib_dba
        (f.lfpos % LF_IDATA / LF_BLKSIZ) d }
    lfibdirty := true
    lfdnum := d
    lfbyte := f.lfpos % LF_BLKSIZ }

/-- The file ends at the position and has got another data block. -/
theorem Holds.addBlock
    (h : Holds s v) (hv : VolumeInv p v) (hi : s.InUse i)
    (hat : Positioned v (s.lfltab i) ((s.lfltab i).lfpos / LF_IDATA))
    (hend : v.room (s.lfltab i).lfdirptr = (s.lfltab i).lfpos / LF_BLKSIZ)
    (hfree : v.dfree = d :: rest)
    (hdir : s₁.lf_dir = { v.dir with lfd_dfree := v.nextdb d })
    (honly : DirOnly s s₁) (ho : Own i s s')
    (hf : s'.lfltab i = (s.lfltab i).newBlock d)
    (hdir' : s'.lf_dir = s₁.lf_dir) (hdisk : s'.disk = s₁.disk) :
    SetupDone p i s v s' (v.addBlock (s.lfltab i).lfdirptr d) := by
  have hdev := h.device i hi
  have he := hdev.entry
  have hmem := chain_getD_mem hat.lt
  rw [← hat.inum] at hmem
  have hblock := (hdev.index.resolve_left fun hnull =>
    hv.inull_not_mem he (hnull.1 ▸ hmem)).2
  have hquot : (s.lfltab i).lfpos / LF_BLKSIZ / LF_IBLEN =
      (s.lfltab i).lfpos / LF_IDATA := by
    simp only [LF_IDATA, LF_BLKSIZ, LF_IBLEN]
    omega
  have hmod : (s.lfltab i).lfpos % LF_IDATA / LF_BLKSIZ =
      (s.lfltab i).lfpos / LF_BLKSIZ % LF_IBLEN := by
    simp only [LF_IDATA, LF_BLKSIZ, LF_IBLEN]
    omega
  have hroom : v.room (s.lfltab i).lfdirptr <
      LF_IBLEN * (v.chain (s.lfltab i).lfdirptr).length := by
    have hk := hat.lt
    rw [hend]
    simp only [LF_IDATA, LF_BLKSIZ, LF_IBLEN] at hk ⊢
    omega
  have hfill : v.filling (s.lfltab i).lfdirptr = (s.lfltab i).lfinum := by
    unfold Volume.filling
    rw [hend, hquot, hat.inum]
  have hext := addBlock_extended hv he hfree hroom
  have hpointers : (v.addBlock (s.lfltab i).lfdirptr d).pointers
      (s.lfltab i).lfdirptr = v.pointers (s.lfltab i).lfdirptr ++ [d] :=
    addBlock_pointers_self hv he hroom
  have hnew : (v.addBlock (s.lfltab i).lfdirptr d).block d =
      fun _ => DFILL := by
    simp [Volume.addBlock]
  have ho' : Own i s (s'.dirtied i) := ho.trans (own_dirtied s')
  have hf' : (s'.dirtied i).lfltab i =
      { (s.lfltab i).newBlock d with lfdbdirty := true } := by
    rw [lfltab_dirtied, hf]
  refine ⟨hv.addBlock hfree he hroom, ?_, fun hlt => ?_, ho, hext, ?_, ?_, ?_⟩
  · refine h.own hv hi ho' ?_ rfl hext.other ?_ ?_ ?_
    · show s'.lf_dir = _
      rw [hdir', hdir]
      rfl
    · rw [hf']
      refine ⟨he, hdev.name, hdev.pos, Or.inr ⟨hmem, ?_⟩, Or.inr ?_,
        fun _ => ⟨rfl, ?_, ?_⟩⟩
      · simp only [Lflcblk.newBlock, Volume.addBlock]
        rw [hfill, Function.update_self, ← hblock, hmod, hend]
      · simp only [Lflcblk.newBlock]
        rw [hpointers, hnew]
        exact ⟨by simp, rfl⟩
      · simp only [Lflcblk.newBlock]
        rw [addBlock_room_self]
        omega
      · simp only [Lflcblk.newBlock]
        rw [← hend, addBlock_pointer hv he hroom hroom, if_pos rfl]
    · intro n hothers hown
      rw [hf'] at hown
      have hne : n ≠ (s.lfltab i).lfinum := fun heq => hown rfl heq.symm
      have hsame : (s'.dirtied i).disk.iblocks = s.disk.iblocks := by
        show s'.disk.iblocks = _
        rw [hdisk, honly.iblocks]
      rw [hsame, addBlock_index_other (by rw [hfill]; exact hne)]
      exact h.index_of_clean hothers fun _ => Ne.symm hne
    · intro x hothers hown
      rw [hf'] at hown
      have hne : x ≠ d := fun heq => hown rfl heq.symm
      have hsame : (s'.dirtied i).disk.blocks = s.disk.blocks := by
        show s'.disk.blocks = _
        rw [hdisk, honly.blocks]
      rw [hsame, addBlock_block_other hne]
      exact h.block_of_clean hothers fun hdirty => by
        rw [hat.clean] at hdirty
        cases hdirty
  · omega
  · rw [hf]
    rfl
  · rw [hf]
    rfl
  · rw [addBlock_room_self]
    omega

end EndOfFile

/-- The data block of the position is the copy in memory. -/
theorem Holds.dataLoaded
    (h : Holds s v) (hv : VolumeInv p v) (hi : s.InUse i)
    (hat : Positioned v (s.lfltab i) ((s.lfltab i).lfpos / LF_IDATA))
    (hin : (s.lfltab i).lfpos / LF_BLKSIZ < v.room (s.lfltab i).lfdirptr)
    (ho : Own i s s')
    (hf : s'.lfltab i = { s.lfltab i with
      lfdblock := v.block (v.pointer (s.lfltab i).lfdirptr
        ((s.lfltab i).lfpos / LF_BLKSIZ))
      lfdbdirty := false
      lfdnum := v.pointer (s.lfltab i).lfdirptr
        ((s.lfltab i).lfpos / LF_BLKSIZ)
      lfbyte := (s.lfltab i).lfpos % LF_BLKSIZ })
    (hdir : s'.lf_dir = s.lf_dir) (hdisk : s'.disk = s.disk) :
    SetupDone p i s v s' v := by
  have hdev := h.device i hi
  have hdmem := Volume.pointer_mem hin
  have hholds : Holds s' v := by
    refine h.own hv hi ho (hdir.trans h.dir) rfl (fun f _ _ => .refl v f)
      ?_ ?_ ?_
    · rw [hf]
      exact ⟨hdev.entry, hdev.name, hdev.pos, hdev.index,
        Or.inr ⟨hdmem, rfl⟩, fun _ => ⟨rfl, hin, rfl⟩⟩
    · intro n hothers hown
      rw [hf] at hown
      rw [hdisk]
      exact h.index_of_clean hothers hown
    · intro d hothers _
      rw [hdisk]
      exact h.block_of_clean hothers fun hdirty => by
        rw [hat.clean] at hdirty
        cases hdirty
  refine ⟨hv, hholds.dirtied hv (ho.inUse.mpr hi) ?_, fun _ => hholds, ho,
    .refl v _, ?_, ?_, by omega⟩
  · rw [hf]
    exact hdmem
  · rw [hf]
  · rw [hf]

/-- The data block of the position is in memory, and the byte pointer is at
the position. -/
theorem setupData_spec
    (hv : VolumeInv p v) (h : Holds s v) (hi : s.InUse i)
    (hat : Positioned v (s.lfltab i) ((s.lfltab i).lfpos / LF_IDATA))
    (hroom : (s.lfltab i).lfpos / LF_BLKSIZ ≤
      v.room (s.lfltab i).lfdirptr) :
    v.room (s.lfltab i).lfdirptr = (s.lfltab i).lfpos / LF_BLKSIZ ∧
        v.dfree = [] ∧ s.setupData i = none ∨
      ∃ s' v', s.setupData i = some s' ∧ SetupDone p i s v s' v' ∧
        (v'.chain (s.lfltab i).lfdirptr).length =
          (v.chain (s.lfltab i).lfdirptr).length := by
  have hdev := h.device i hi
  have he := hdev.entry
  have hmem := chain_getD_mem hat.lt
  rw [← hat.inum] at hmem
  have hblock := (hdev.index.resolve_left fun hnull =>
    hv.inull_not_mem he (hnull.1 ▸ hmem)).2
  -- the pointer of the position, as the code and as the volume find it
  have hlt : (s.lfltab i).lfpos / LF_BLKSIZ <
      LF_IBLEN * (v.chain (s.lfltab i).lfdirptr).length := by
    have hk := hat.lt
    simp only [LF_IDATA, LF_BLKSIZ, LF_IBLEN] at hk ⊢
    omega
  have hquot : (s.lfltab i).lfpos / LF_BLKSIZ / LF_IBLEN =
      (s.lfltab i).lfpos / LF_IDATA := by
    simp only [LF_IDATA, LF_BLKSIZ, LF_IBLEN]
    omega
  have hmod : (s.lfltab i).lfpos % LF_IDATA / LF_BLKSIZ =
      (s.lfltab i).lfpos / LF_BLKSIZ % LF_IBLEN := by
    simp only [LF_IDATA, LF_BLKSIZ, LF_IBLEN]
    omega
  have hpointer : (s.lfltab i).lfiblock.ib_dba
      ((s.lfltab i).lfpos % LF_IDATA / LF_BLKSIZ) =
        v.pointer (s.lfltab i).lfdirptr ((s.lfltab i).lfpos / LF_BLKSIZ) := by
    unfold Volume.pointer
    rw [hquot, ← hat.inum, ← hblock, hmod]
  have hfilled := hv.filled _ he _ hlt
  unfold Lfs.setupData
  simp only [hpointer]
  by_cases hnull : v.pointer (s.lfltab i).lfdirptr
      ((s.lfltab i).lfpos / LF_BLKSIZ) = LF_DNULL
  · have hend : v.room (s.lfltab i).lfdirptr =
        (s.lfltab i).lfpos / LF_BLKSIZ := by
      have hge : ¬ (s.lfltab i).lfpos / LF_BLKSIZ <
          v.room (s.lfltab i).lfdirptr := fun hin => hfilled.mpr hin hnull
      omega
    rw [if_pos hnull]
    rcases lfdballoc_spec hv h with ⟨hempty, halloc⟩ |
      ⟨d, rest, s₁, hfree, halloc, hdir, honly⟩
    · exact Or.inl ⟨hend, hempty, by rw [halloc]; rfl⟩
    right
    rw [halloc]
    have htab : s₁.lfltab i = s.lfltab i := by rw [honly.table]
    let s₂ := s₁.setFile i fun f =>
      { f with
        lfdblock := fun _ => DFILL
        lfiblock := { f.lfiblock with
          ib_dba := Function.update f.lfiblock.ib_dba
            ((s.lfltab i).lfpos % LF_IDATA / LF_BLKSIZ) d }
        lfibdirty := true
        lfdnum := d }
    let s₃ := s₂.setFile i fun f => { f with lfbyte := f.lfpos % LF_BLKSIZ }
    have hf : s₃.lfltab i = (s.lfltab i).newBlock d := by
      have hset : s₃.lfltab i =
          { s₂.lfltab i with lfbyte := (s₂.lfltab i).lfpos % LF_BLKSIZ } :=
        lfltab_setFile_self
      have hset₂ : s₂.lfltab i = { s₁.lfltab i with
          lfdblock := fun _ => DFILL
          lfiblock := { (s₁.lfltab i).lfiblock with
            ib_dba := Function.update (s₁.lfltab i).lfiblock.ib_dba
              ((s.lfltab i).lfpos % LF_IDATA / LF_BLKSIZ) d }
          lfibdirty := true
          lfdnum := d } := lfltab_setFile_self
      rw [hset, hset₂, htab]
      rfl
    have ho : Own i s s₃ := by
      have hfirst : Own i s s₁ := .of_table honly.table honly.dskdev
        honly.present
      have hsecond : Own i s₁ s₂ := .setFile rfl rfl rfl rfl
      have hthird : Own i s₂ s₃ := .setFile rfl rfl rfl rfl
      exact (hfirst.trans hsecond).trans hthird
    exact ⟨s₃, _, rfl,
      h.addBlock hv hi hat hend hfree hdir honly ho hf rfl rfl, rfl⟩
  · have hin := hfilled.mp hnull
    have hdmem := Volume.pointer_mem hin
    rw [if_neg hnull]
    right
    by_cases hcached : v.pointer (s.lfltab i).lfdirptr
        ((s.lfltab i).lfpos / LF_BLKSIZ) = (s.lfltab i).lfdnum
    · rw [if_neg (by simpa using hcached)]
      have hcopy := (hdev.data.resolve_left fun hdata =>
        hnull (hcached.trans hdata.1)).2
      refine ⟨_, v, rfl, h.dataLoaded hv hi hat hin (.setFile rfl rfl rfl rfl)
        ?_ rfl rfl, rfl⟩
      rw [lfltab_setFile_self, hcached, ← hcopy, ← hat.clean]
    · rw [if_pos hcached]
      let s₁ := s.setFile i fun f => { f with
        lfdblock := s.disk.blocks (v.pointer (s.lfltab i).lfdirptr
          ((s.lfltab i).lfpos / LF_BLKSIZ))
        lfdbdirty := false
        lfdnum := v.pointer (s.lfltab i).lfdirptr
          ((s.lfltab i).lfpos / LF_BLKSIZ) }
      let s₂ := s₁.setFile i fun f => { f with lfbyte := f.lfpos % LF_BLKSIZ }
      have ho₁ : Own i s s₁ := .setFile rfl rfl rfl rfl
      have ho₂ : Own i s₁ s₂ := .setFile rfl rfl rfl rfl
      have hread : s.disk.blocks (v.pointer (s.lfltab i).lfdirptr
          ((s.lfltab i).lfpos / LF_BLKSIZ)) = v.block _ :=
        h.block_of_clean (h.othersData_pointers hv hi hdmem) fun hdirty => by
          rw [hat.clean] at hdirty
          cases hdirty
      refine ⟨s₂, v, rfl, h.dataLoaded hv hi hat hin (ho₁.trans ho₂) ?_ rfl rfl,
        rfl⟩
      have hset : s₂.lfltab i =
          { s₁.lfltab i with lfbyte := (s₁.lfltab i).lfpos % LF_BLKSIZ } :=
        lfltab_setFile_self
      have hset₁ : s₁.lfltab i = { s.lfltab i with
          lfdblock := s.disk.blocks (v.pointer (s.lfltab i).lfdirptr
            ((s.lfltab i).lfpos / LF_BLKSIZ))
          lfdbdirty := false
          lfdnum := v.pointer (s.lfltab i).lfdirptr
            ((s.lfltab i).lfpos / LF_BLKSIZ) } := lfltab_setFile_self
      rw [hset, hset₁, hread]

/-- `lfsetup` fails where the file needs more index blocks than are free, or a
data block when none is free. -/
def Lacking (v : Volume) (f : Lflcblk) : Prop :=
  v.ifree.length + (v.chain f.lfdirptr).length < f.lfpos / LF_IDATA + 1 ∨
    v.room f.lfdirptr = f.lfpos / LF_BLKSIZ ∧ v.dfree = []

theorem SetupDone.after
    {s' s'' : Lfs} {v' v'' : Volume} (h' : SetupDone p i s' v' s'' v'')
    (h : SetupStep p i s v s' v') (hv : VolumeInv p v)
    (hroom : v'.room (s.lfltab i).lfdirptr = v.room (s.lfltab i).lfdirptr) :
    SetupDone p i s v s'' v'' := by
  obtain ⟨hinv, hdirty, hclean, hown, hext, hpos, hbyte, hroom'⟩ := h'
  rw [h.own.entry] at hclean hext hroom'
  rw [h.pos] at hclean hpos hbyte hroom'
  rw [hroom] at hclean hroom'
  exact ⟨hinv, hdirty, hclean, h.own.trans hown, h.extended.trans hext hv, hpos,
    hbyte, hroom'⟩

/-- The copies of the pseudo-device are written if they have changed. -/
theorem setup_flush
    (hv : VolumeInv p v) (h : Holds s v) (hi : s.InUse i) :
    ∃ s₀, (if (s.lfltab i).lfibdirty || (s.lfltab i).lfdbdirty then s.lfflush i
        else s) = s₀ ∧ SetupStep p i s v s₀ v ∧
      s₀.lfltab i =
        { s.lfltab i with lfibdirty := false, lfdbdirty := false } := by
  split
  next =>
    obtain ⟨hholds, hown, hf⟩ := lfflush_spec hv h hi
    exact ⟨_, rfl, ⟨hv, hholds, hown, .refl v _, by rw [hf]⟩, hf⟩
  next hclean =>
    simp only [Bool.or_eq_true, not_or, Bool.not_eq_true] at hclean
    refine ⟨s, rfl, .refl hv h, ?_⟩
    cases hf : s.lfltab i
    simp only [hf] at hclean
    simp [hclean]

theorem lfsetup_spec
    (hv : VolumeInv p v) (h : Holds s v) (hi : s.InUse i)
    (hroom : (s.lfltab i).lfpos / LF_BLKSIZ ≤ v.room (s.lfltab i).lfdirptr)
    (hbyte : LF_BLKSIZ ≤ (s.lfltab i).lfbyte)
    (hbudget : (s.lfltab i).lfpos / LF_IDATA < budget) :
    Lacking v (s.lfltab i) ∧ s.lfsetup budget i = none ∨
      ∃ s' v', s.lfsetup budget i = some s' ∧ SetupDone p i s v s' v' ∧
        (v'.chain (s.lfltab i).lfdirptr).length =
          max ((s.lfltab i).lfpos / LF_IDATA + 1)
            (v.chain (s.lfltab i).lfdirptr).length := by
  obtain ⟨s₀, hflush, hstep₀, hf₀⟩ := setup_flush hv h hi
  unfold Lfs.lfsetup
  rw [hflush]
  have hi₀ := hstep₀.own.inUse.mpr hi
  have hentry₀ := hstep₀.own.entry
  have hfirst := setupFirst_spec hv hstep₀.holds hi₀ (by rw [hf₀]) (by rw [hf₀])
    (by rw [hf₀]; exact hbyte)
  rw [hentry₀, hstep₀.pos] at hfirst
  rcases hfirst with ⟨hchain, hfree, hnone⟩ |
    ⟨s₁, v₁, k, hsome, hstep₁, hat₁, hk, hlen₁, hroom₁, hdfree₁⟩
  · left
    simp only [hnone, Option.bind_none]
    refine ⟨Or.inl ?_, trivial⟩
    rw [hchain, hfree]
    simp
  have hstep := hstep₀.trans hstep₁ hv
  have hi₁ := hstep.own.inUse.mpr hi
  have hspare := hstep.extended.iblocks
  have hwalk : (s₁.lfltab i).lfpos / LF_IDATA < k + budget := by
    rw [hstep.pos]
    omega
  have hindex := setupIndex_spec hstep.inv hstep.holds hi₁ hat₁ hwalk
  rw [hstep.own.entry, hstep.pos] at hindex
  simp only [hsome, Option.bind_some]
  rcases hindex with ⟨hshort, hnone⟩ |
    ⟨s₂, v₂, hsome₂, hstep₂, hat₂, hlen₂, hroom₂, hdfree₂⟩
  · left
    rw [hnone]
    exact ⟨Or.inl (by omega), rfl⟩
  have hstep' := hstep.trans hstep₂ hv
  have hi₂ := hstep'.own.inUse.mpr hi
  rw [← hstep'.pos] at hat₂
  have hdata := setupData_spec hstep'.inv hstep'.holds hi₂ hat₂ (by
    rw [hstep'.pos, hstep'.own.entry, hroom₂, hroom₁]
    exact hroom)
  rw [hstep'.own.entry, hstep'.pos] at hdata
  simp only [hsome₂, Option.bind_some]
  rcases hdata with ⟨hend, hfree, hnone⟩ | ⟨s₃, v₃, hsome₃, hdone, hlen₃⟩
  · left
    exact ⟨Or.inr ⟨by omega, by rw [← hdfree₁, ← hdfree₂, hfree]⟩, hnone⟩
  · right
    refine ⟨s₃, v₃, hsome₃, hdone.after hstep' hv (hroom₂.trans hroom₁), ?_⟩
    omega

end FindData

end Xinu.LocalFiles
