import Xinu.LocalFileCalls

/-!
# Truncation of local files

`lftruncate` puts the data blocks of a file on the free list one by one and
then the whole chain of index blocks in front of the free index blocks.  The
walk along the chain stops at the old head of that free list.
-/

namespace Xinu.LocalFiles

open ByteMemory LinkedTable

/-! ## Links of free blocks -/

/-- A link that is stored is read back. -/
theorem nextdb_setNextdb {b : Block} {d : ℤ} (hd : -2 ^ 31 ≤ d ∧ d < 2 ^ 31) :
    (b.setNextdb d).nextdb = d := by
  have hbytes : (b.setNextdb d).nextdb = (BitVec.ofInt 32 d).toInt := by
    unfold Block.nextdb
    congr 1
    exact word_of_bytes (BitVec.ofInt 32 d)
  rw [hbytes, BitVec.toInt_ofInt]
  exact Int.bmod_eq_of_le (by omega) (by omega)

/-- Free the data blocks of a list. -/
def Lfs.freeAll (ds : List ℤ) (s : Lfs) : Lfs :=
  ds.foldl (fun s d => s.lfdbfree d) s

/-- The pointers of an index block. -/
def Lfiblk.pointers (ib : Lfiblk) : List ℤ :=
  ((List.range LF_IBLEN).map ib.ib_dba).filter fun d => d ≠ LF_DNULL

theorem freeBlocks_eq (s : Lfs) (ib : Lfiblk) :
    s.freeBlocks ib = s.freeAll ib.pointers := by
  unfold Lfs.freeBlocks Lfs.freeAll Lfiblk.pointers
  rw [List.foldl_filter, List.foldl_map]
  simp

/-- The data blocks `ds` have gone to the free list, and nothing else has
changed but the directory. -/
structure Freed (ds : List ℤ) (s s' : Lfs) : Prop where
  table : s'.lfltab = s.lfltab
  iblocks : s'.disk.iblocks = s.disk.iblocks
  blocks : ∀ d ∉ ds, s'.disk.blocks d = s.disk.blocks d
  dir : s'.lf_dir = { s.lf_dir with lfd_dfree := s'.lf_dir.lfd_dfree }
  dskdev : s'.lf_dskdev = s.lf_dskdev
  present : s'.lf_dirpresent = s.lf_dirpresent
  dirty : s'.lf_dirdirty = s.lf_dirdirty

section FreeLists

variable {s s' : Lfs} {ds l : List ℤ} {d : ℤ}

theorem freeAll_freed (s : Lfs) (ds : List ℤ) : Freed ds s (s.freeAll ds) := by
  induction ds generalizing s with
  | nil => exact ⟨rfl, rfl, fun _ _ => rfl, rfl, rfl, rfl, rfl⟩
  | cons d ds ih =>
      have hrest := ih (s.lfdbfree d)
      have hstep : s.freeAll (d :: ds) = (s.lfdbfree d).freeAll ds := rfl
      rw [hstep]
      refine ⟨hrest.table, hrest.iblocks, ?_, ?_, hrest.dskdev, hrest.present,
        hrest.dirty⟩
      · intro x hx
        rw [List.mem_cons, not_or] at hx
        rw [hrest.blocks x hx.2]
        simp [Lfs.lfdbfree, Lfs.writeBlock, Lfs.writeDir, Disk.putBlock, hx.1]
      · rw [hrest.dir]
        rfl

/-- The free list after blocks have been freed. -/
theorem freeAll_chain
    (hlist : LinkedTable.Chain LF_DNULL (fun d => (s.disk.blocks d).nextdb)
      s.lf_dir.lfd_dfree l)
    (hnodup : (ds ++ l).Nodup)
    (hlink : ∀ x ∈ LF_DNULL :: (ds ++ l), -2 ^ 31 ≤ x ∧ x < 2 ^ 31) :
    LinkedTable.Chain LF_DNULL (fun d => ((s.freeAll ds).disk.blocks d).nextdb)
      (s.freeAll ds).lf_dir.lfd_dfree (ds.reverse ++ l) := by
  induction ds generalizing s l with
  | nil => exact hlist
  | cons d ds ih =>
      have hstep : s.freeAll (d :: ds) = (s.lfdbfree d).freeAll ds := rfl
      rw [hstep, List.reverse_cons, List.append_assoc, List.singleton_append]
      have hnotin : d ∉ ds ++ l := (List.nodup_cons.mp hnodup).1
      have hhead : s.lf_dir.lfd_dfree ∈ LF_DNULL :: l := by
        rw [hlist.head]
        cases l <;> simp
      have hperm : (ds ++ d :: l).Perm (d :: (ds ++ l)) := List.perm_middle
      apply ih
      · refine ⟨rfl, ?_⟩
        have hnext : ((s.lfdbfree d).disk.blocks d).nextdb =
            s.lf_dir.lfd_dfree := by
          have hblock : (s.lfdbfree d).disk.blocks d =
              s.junk.setNextdb s.lf_dir.lfd_dfree := by
            simp [Lfs.lfdbfree, Lfs.writeBlock, Lfs.writeDir, Disk.putBlock]
          rw [hblock]
          apply nextdb_setNextdb
          apply hlink
          rcases List.mem_cons.mp hhead with hnull | hmem
          · rw [hnull]
            exact List.mem_cons_self
          · simp [hmem]
        simp only [hnext]
        refine hlist.congr fun x hx => ?_
        have hne : x ≠ d := fun heq =>
          hnotin (List.mem_append_right _ (heq ▸ hx))
        simp [Lfs.lfdbfree, Lfs.writeBlock, Lfs.writeDir, Disk.putBlock, hne]
      · exact hperm.nodup_iff.mpr hnodup
      · intro x hx
        apply hlink
        rcases List.mem_cons.mp hx with hnull | hmem
        · exact hnull ▸ List.mem_cons_self
        · exact List.mem_cons_of_mem _ (hperm.subset hmem)

theorem freeAll_append (s : Lfs) (ds ds' : List ℤ) :
    s.freeAll (ds ++ ds') = (s.freeAll ds).freeAll ds' :=
  List.foldl_append

end FreeLists

/-! ## The chain of a file -/

/-- The data blocks of a chain of index blocks. -/
def chainPointers (index : ℤ → Lfiblk) (l : List ℤ) : List ℤ :=
  l.flatMap fun n => (index n).pointers

section Chains

variable {p : Pools} {v : Volume} {e : ℕ}

theorem flatMap_range_map
    {α : Type*} (f : ℤ → ℕ → α) (c : ℕ) (hc : 0 < c) (l : List ℤ) :
    l.flatMap (fun n => (List.range c).map (f n)) =
      (List.range (c * l.length)).map
        fun k => f (l.getD (k / c) LF_INULL) (k % c) := by
  induction l with
  | nil => simp
  | cons x l ih =>
      have hlen : c * (x :: l).length = c + c * l.length := by
        rw [List.length_cons]
        ring
      rw [List.flatMap_cons, ih, hlen, List.range_add, List.map_append,
        List.map_map]
      congr 1
      · apply List.map_congr_left
        intro k hk
        have hlt := List.mem_range.mp hk
        rw [Nat.div_eq_of_lt hlt, Nat.mod_eq_of_lt hlt]
        rfl
      · apply List.map_congr_left
        intro k _
        simp [Nat.add_div_left _ hc]

theorem filter_range
    {q : ℕ → Bool} {n m : ℕ} (hle : m ≤ n) (hq : ∀ k < n, q k = true ↔ k < m) :
    (List.range n).filter q = List.range m := by
  obtain ⟨r, rfl⟩ := Nat.exists_eq_add_of_le hle
  rw [List.range_add, List.filter_append]
  have hfirst : (List.range m).filter q = List.range m := by
    rw [List.filter_eq_self]
    intro k hk
    have hlt := List.mem_range.mp hk
    exact (hq k (by omega)).mpr hlt
  have hrest : ((List.range r).map (m + ·)).filter q = [] := by
    rw [List.filter_eq_nil_iff]
    intro x hx hqx
    obtain ⟨k, hk, rfl⟩ := List.mem_map.mp hx
    have hlt := List.mem_range.mp hk
    have hin := (hq (m + k) (by omega)).mp hqx
    omega
  rw [hfirst, hrest, List.append_nil]

/-- The pointers of a file, block by block of its chain. -/
theorem VolumeInv.chainPointers_eq (h : VolumeInv p v) (he : e < v.nfiles) :
    chainPointers v.index (v.chain e) = v.pointers e := by
  have hall : chainPointers v.index (v.chain e) =
      ((v.chain e).flatMap fun n =>
        (List.range LF_IBLEN).map (v.index n).ib_dba).filter
          fun d => d ≠ LF_DNULL := by
    rw [List.filter_flatMap]
    rfl
  rw [hall, flatMap_range_map (fun n => (v.index n).ib_dba) LF_IBLEN
    (by decide), List.filter_map]
  unfold Volume.pointers
  congr 1
  apply filter_range (h.room e he)
  intro k hk
  have hfilled := h.filled e he k hk
  simpa [Volume.pointer] using hfilled

end Chains

/-! ## The walk -/

/-- Two states in which blocks are freed alike. -/
structure SameData (s t : Lfs) : Prop where
  blocks : t.disk.blocks = s.disk.blocks
  dir : t.lf_dir = s.lf_dir
  junk : t.junk = s.junk

/-- The index blocks `l` have been cleared and linked up to `ifree`, and their
data blocks have been freed. -/
structure Unlinked (l : List ℤ) (ifree nextib : ℤ) (s s' : Lfs) : Prop where
  chain : LinkedTable.Chain ifree (fun n => (s'.disk.iblocks n).ib_next)
    nextib l
  iblocks : ∀ n ∉ l, s'.disk.iblocks n = s.disk.iblocks n
  data : SameData (s.freeAll (chainPointers s.disk.iblocks l)) s'
  table : s'.lfltab = s.lfltab
  dskdev : s'.lf_dskdev = s.lf_dskdev
  present : s'.lf_dirpresent = s.lf_dirpresent

section Walk

variable {s s' t : Lfs} {l : List ℤ} {ifree nextib : ℤ} {budget : ℕ}

theorem SameData.trans {u : Lfs} (h : SameData s t) (h' : SameData t u) :
    SameData s u :=
  ⟨h'.blocks.trans h.blocks, h'.dir.trans h.dir, h'.junk.trans h.junk⟩

theorem SameData.freeAll (h : SameData s t) (ds : List ℤ) :
    SameData (s.freeAll ds) (t.freeAll ds) := by
  induction ds generalizing s t with
  | nil => exact h
  | cons d ds ih =>
      apply ih
      obtain ⟨hblocks, hdir, hjunk⟩ := h
      refine ⟨?_, ?_, hjunk⟩
      · simp [Lfs.lfdbfree, Lfs.writeBlock, Lfs.writeDir, Disk.putBlock,
          hblocks, hdir, hjunk]
      · simp [Lfs.lfdbfree, Lfs.writeBlock, Lfs.writeDir, hdir]

/-- The walk goes along the whole chain and stops behind it. -/
theorem truncateLoop_spec
    (hchain : LinkedTable.Chain LF_INULL (fun n => (s.disk.iblocks n).ib_next)
      (l.head?.getD LF_INULL) l)
    (hnext : nextib = l.head?.getD ifree) (hnodup : l.Nodup)
    (hfree : ifree ∉ l) (hnull : LF_INULL ∉ l) (hbudget : l.length < budget) :
    ∃ s', Lfs.truncateLoop ifree budget nextib s = some s' ∧
      Unlinked l ifree nextib s s' := by
  induction l generalizing s nextib budget with
  | nil =>
      obtain ⟨budget, rfl⟩ :=
        Nat.exists_eq_succ_of_ne_zero (by omega : budget ≠ 0)
      have hnil : nextib = ifree := hnext
      refine ⟨s, ?_, hnil, fun _ _ => rfl, ⟨rfl, rfl, rfl⟩, rfl, rfl, rfl⟩
      rw [Lfs.truncateLoop, if_pos hnil]
  | cons n l ih =>
      obtain ⟨budget, rfl⟩ :=
        Nat.exists_eq_succ_of_ne_zero (by omega : budget ≠ 0)
      obtain rfl : nextib = n := hnext
      obtain ⟨hn, hnodup⟩ := List.nodup_cons.mp hnodup
      have hne : nextib ≠ ifree := fun heq => hfree (by simp [heq])
      have hrest : LinkedTable.Chain LF_INULL
          (fun n => (s.disk.iblocks n).ib_next)
        (s.disk.iblocks nextib).ib_next l := hchain.2
      have hhead := hrest.head
      have hget : s.lfibget nextib = s.disk.iblocks nextib := rfl
      have hgo : (if (s.lfibget nextib).ib_next = LF_INULL then ifree
          else (s.lfibget nextib).ib_next) = l.head?.getD ifree := by
        rw [hget, hhead]
        cases l with
        | nil => rfl
        | cons m l =>
            have hm : m ≠ LF_INULL := fun heq => hnull (by simp [heq])
            simp [hm]
      rw [Lfs.truncateLoop, if_neg hne]
      simp only [hgo, freeBlocks_eq]
      have hfreed := freeAll_freed s (s.disk.iblocks nextib).pointers
      let s₁ := s.freeAll (s.disk.iblocks nextib).pointers
      let s₂ := s₁.lfibput nextib ⟨l.head?.getD ifree, 0, fun _ => LF_DNULL⟩
      have hdisk₂ : s₂.disk.iblocks = Function.update s.disk.iblocks nextib
          ⟨l.head?.getD ifree, 0, fun _ => LF_DNULL⟩ := by
        show Function.update s₁.disk.iblocks _ _ = _
        rw [hfreed.iblocks]
      have hkeep : ∀ m ∈ l, s₂.disk.iblocks m = s.disk.iblocks m := by
        intro m hm
        have hmn : m ≠ nextib := fun heq => hn (heq ▸ hm)
        rw [hdisk₂, Function.update_of_ne hmn]
      have hchain₂ : LinkedTable.Chain LF_INULL
          (fun n => (s₂.disk.iblocks n).ib_next)
          (l.head?.getD LF_INULL) l := by
        rw [hhead] at hrest
        exact hrest.congr fun m hm => by rw [hkeep m hm]
      obtain ⟨s', hsome, hun⟩ := ih hchain₂ rfl hnodup
        (fun hm => hfree (by simp [hm])) (fun hm => hnull (by simp [hm]))
        (by simpa using hbudget)
      refine ⟨s', hsome, ⟨rfl, ?_⟩, ?_, ?_, ?_, ?_, ?_⟩
      · have hself : s'.disk.iblocks nextib =
            ⟨l.head?.getD ifree, 0, fun _ => LF_DNULL⟩ := by
          rw [hun.iblocks nextib hn, hdisk₂, Function.update_self]
        simp only [hself]
        exact hun.chain
      · intro m hm
        rw [List.mem_cons, not_or] at hm
        rw [hun.iblocks m hm.2, hdisk₂, Function.update_of_ne hm.1]
      · have hpointers : chainPointers s₂.disk.iblocks l =
            chainPointers s.disk.iblocks l := by
          apply List.flatMap_congr
          intro m hm
          rw [hkeep m hm]
        have hsplit : s.freeAll (chainPointers s.disk.iblocks (nextib :: l)) =
            s₁.freeAll (chainPointers s.disk.iblocks l) := by
          unfold chainPointers
          rw [List.flatMap_cons, freeAll_append]
        rw [hsplit, ← hpointers]
        have hsame : SameData s₁ s₂ := ⟨rfl, rfl, rfl⟩
        exact (hsame.freeAll _).trans hun.data
      · exact hun.table.trans hfreed.table
      · exact hun.dskdev.trans hfreed.dskdev
      · exact hun.present.trans hfreed.present

/-- A chain that ends where another begins. -/
theorem chain_join
    {next : ℤ → ℤ} {a b : ℤ} {l l' : List ℤ} (h : LinkedTable.Chain b next a l)
    (h' : LinkedTable.Chain LF_INULL next b l') :
    LinkedTable.Chain LF_INULL next a (l ++ l') := by
  induction l generalizing a with
  | nil =>
      obtain rfl : a = b := h
      exact h'
  | cons x l ih => exact ⟨h.1, ih h.2⟩

end Walk

/-! ## The call -/

section Truncation

variable {p : Pools} {s : Lfs} {v : Volume} {i budget : ℕ}

/-- The volume after file `e` has been truncated, with the blocks of `t`. -/
def Volume.truncated (v : Volume) (e : ℕ) (t : Lfs) : Volume where
  dir := t.lf_dir
  index := fun n => if n ∈ v.chain e then t.disk.iblocks n else v.index n
  block := fun d => if d ∈ v.pointers e then t.disk.blocks d else v.block d
  ifree := v.chain e ++ v.ifree
  dfree := (v.pointers e).reverse ++ v.dfree
  chain := Function.update v.chain e []
  room := Function.update v.room e 0

section Freeing

variable {e : ℕ} {t t' : Lfs}

/-- The blocks of the file have been freed and the chain has been put in front
of the free index blocks. -/
theorem truncated_truncated
    (hv : VolumeInv p v) (he : e < v.nfiles) (hne : v.chain e ≠ [])
    (htdir : t.lf_dir = v.dir)
    (hdfree : ∀ d ∈ v.dfree, t.disk.blocks d = v.block d)
    (hiclean : ∀ n ∈ v.chain e, t.disk.iblocks n = v.index n)
    (hun : Unlinked (v.chain e) v.dir.lfd_ifree (v.file e).ld_ilist
      (t.setEntry e fun f => { f with ld_ilist := LF_INULL, ld_size := 0 }) t')
    {s' : Lfs} (hdisk : s'.disk = t'.disk)
    (hdir : s'.lf_dir = { t'.lf_dir with lfd_ifree := (v.file e).ld_ilist }) :
    Truncated v e (v.truncated e s') := by
  let t₁ := t.setEntry e fun f => { f with ld_ilist := LF_INULL, ld_size := 0 }
  have hpointers :
      chainPointers t₁.disk.iblocks (v.chain e) = v.pointers e := by
    rw [← hv.chainPointers_eq he]
    apply List.flatMap_congr
    intro n hn
    show (t.disk.iblocks n).pointers = _
    rw [hiclean n hn]
  have hfreed := freeAll_freed t₁ (v.pointers e)
  have hdata := hun.data
  change SameData (t₁.freeAll (chainPointers t₁.disk.iblocks (v.chain e))) t'
    at hdata
  rw [hpointers] at hdata
  have hhead : (v.chain e ++ v.ifree).head?.getD LF_INULL =
      (v.file e).ld_ilist := by
    rw [(hv.chain e he).head]
    obtain ⟨x, l, hl⟩ := List.exists_cons_of_ne_nil hne
    simp [hl]
  have hinull : (v.truncated e s').dir = { v.dir with
      lfd_ifree := (v.chain e ++ v.ifree).head?.getD LF_INULL
      lfd_dfree := (v.truncated e s').dir.lfd_dfree
      lfd_files := Function.update v.dir.lfd_files e
        { v.file e with ld_ilist := LF_INULL, ld_size := 0 } } := by
    have hself : (v.truncated e s').dir = s'.lf_dir := rfl
    rw [hself, hdir, hdata.dir, hfreed.dir, hhead]
    have hfiles : t₁.lf_dir = { v.dir with
        lfd_files := Function.update v.dir.lfd_files e
          { v.file e with ld_ilist := LF_INULL, ld_size := 0 } } := by
      show ({ t.lf_dir with lfd_files := _ } : Lfdir) = _
      rw [htdir]
      rfl
    rw [hfiles]
  refine ⟨hinull, rfl, rfl, rfl, rfl, ?_, ?_, fun n hn => if_neg hn,
    fun d hd => if_neg hd⟩
  · -- the free index blocks
    rw [hinull]
    show LinkedTable.Chain LF_INULL (v.truncated e s').next
      ((v.chain e ++ v.ifree).head?.getD LF_INULL) (v.chain e ++ v.ifree)
    rw [hhead]
    have hchain : LinkedTable.Chain v.dir.lfd_ifree (v.truncated e s').next
        (v.file e).ld_ilist (v.chain e) :=
      hun.chain.congr fun n hn => by
        show (if n ∈ v.chain e then s'.disk.iblocks n else _).ib_next = _
        rw [if_pos hn, hdisk]
    refine chain_join hchain (hv.ifree.congr fun n hn => ?_)
    show (if n ∈ v.chain e then _ else v.index n).ib_next = _
    rw [if_neg (hv.ifree_not_mem he hn)]
    rfl
  · -- the free data blocks
    have hnodup : (v.pointers e ++ v.dfree).Nodup := by
      have hfree := hv.dblocks.free_nodup p.dblocks_nodup
      have hown := hv.dblocks.owned_nodup p.dblocks_nodup he
      rw [List.nodup_append]
      refine ⟨hown, hfree, fun d hd x hx heq => ?_⟩
      exact hv.dfree_not_mem he hx (heq ▸ hd)
    have hlink : ∀ x ∈ LF_DNULL :: (v.pointers e ++ v.dfree),
        -2 ^ 31 ≤ x ∧ x < 2 ^ 31 := by
      intro x hx
      rcases List.mem_cons.mp hx with rfl | hx
      · decide
      · rcases List.mem_append.mp hx with hown | hfree
        · exact p.link x (hv.dblocks.mem_of_owned he hown)
        · exact p.link x (hv.dblocks.mem_of_free hfree)
    have hlist : LinkedTable.Chain LF_DNULL (fun d => (t₁.disk.blocks d).nextdb)
        t₁.lf_dir.lfd_dfree v.dfree := by
      have hfirst : t₁.lf_dir.lfd_dfree = v.dir.lfd_dfree := by
        show t.lf_dir.lfd_dfree = _
        rw [htdir]
      rw [hfirst]
      refine hv.dfree.congr fun d hd => ?_
      show (t.disk.blocks d).nextdb = _
      rw [hdfree d hd]
      rfl
    have hfinal := freeAll_chain hlist hnodup hlink
    show LinkedTable.Chain LF_DNULL (v.truncated e s').nextdb
      s'.lf_dir.lfd_dfree _
    have hhead' : s'.lf_dir.lfd_dfree =
        (t₁.freeAll (v.pointers e)).lf_dir.lfd_dfree := by
      rw [hdir, hdata.dir]
    rw [hhead']
    refine hfinal.congr fun d hd => ?_
    show (if d ∈ v.pointers e then s'.disk.blocks d else v.block d).nextdb = _
    by_cases hown : d ∈ v.pointers e
    · rw [if_pos hown, hdisk, hdata.blocks]
    · have hfree : d ∈ v.dfree := by
        rcases List.mem_append.mp hd with hrev | hfree
        · exact absurd (List.mem_reverse.mp hrev) hown
        · exact hfree
      rw [if_neg hown, hfreed.blocks d hown, ← hdfree d hfree]
      rfl

end Freeing

theorem lftruncate_spec
    (h : FilesOk p s v) (hi : s.InUse i) (hbudget : p.iblocks.length < budget) :
    ∃ s' v', s.lftruncate budget i = some s' ∧ CallDone p i s v s' v' [] 0 := by
  have hdev := h.holds.device i hi
  have he := hdev.entry
  have hfit := h.fitted _ he
  unfold Lfs.lftruncate
  rw [h.holds.entry_eq]
  by_cases hzero : (v.file (s.lfltab i).lfdirptr).ld_size = 0
  · rw [if_pos hzero]
    have hpos := hdev.pos
    refine ⟨s, v, rfl, h, .refl s, .refl v _, ?_, by omega⟩
    rw [← List.length_eq_zero_iff, Volume.bytes_length, hzero]
  rw [if_neg hzero]
  obtain ⟨s₀, hflush, hstep, hf₀⟩ := setup_flush h.inv h.holds hi
  rw [hflush]
  -- the control block, the directory and the walk
  let s₁ := s₀.setFile i fun f => { f with
    lfpos := 0, lfinum := LF_INULL, lfdnum := LF_DNULL, lfbyte := LF_BLKSIZ }
  have hf₁ : s₁.lfltab i = { s.lfltab i with
      lfibdirty := false, lfdbdirty := false, lfpos := 0, lfinum := LF_INULL
      lfdnum := LF_DNULL, lfbyte := LF_BLKSIZ } := by
    have hset : s₁.lfltab i = { s₀.lfltab i with
        lfpos := 0, lfinum := LF_INULL, lfdnum := LF_DNULL
        lfbyte := LF_BLKSIZ } := lfltab_setFile_self
    rw [hset, hf₀]
  have hentry₁ : (s₁.lfltab i).lfdirptr = (s.lfltab i).lfdirptr := by rw [hf₁]
  have hdir₁ : s₁.lf_dir = v.dir := hstep.holds.dir
  have hilist : (s₁.entry i).ld_ilist =
      (v.file (s.lfltab i).lfdirptr).ld_ilist := by
    unfold Lfs.entry
    rw [hdir₁, hentry₁]
    rfl
  let t : Lfs := { s₁ with lf_dirdirty := true }
  let s₃ := t.setEntry (s.lfltab i).lfdirptr fun e =>
    { e with ld_ilist := LF_INULL, ld_size := 0 }
  have hne : v.chain (s.lfltab i).lfdirptr ≠ [] := by
    intro hnil
    obtain ⟨hroom, hchain⟩ := hfit
    rw [hnil, List.length_nil] at hchain
    simp only [LF_BLKSIZ, LF_IBLEN] at hroom hchain
    omega
  have hhead := (h.inv.chain _ he).head
  have hi₀ := hstep.own.inUse.mpr hi
  have hiclean : ∀ n ∈ v.chain (s.lfltab i).lfdirptr,
      s₀.disk.iblocks n = v.index n := by
    intro n hn
    rw [← hstep.own.entry] at hn
    exact hstep.holds.index_of_clean
      (hstep.holds.othersIndex_chain h.inv hi₀ hn) fun hdirty => by
        rw [hf₀] at hdirty
        cases hdirty
  have hfree : v.dir.lfd_ifree ∉ v.chain (s.lfltab i).lfdirptr := by
    intro hmem
    rw [h.inv.ifree.head] at hmem
    cases hlist : v.ifree with
    | nil =>
        rw [hlist] at hmem
        exact h.inv.inull_not_mem he hmem
    | cons n rest =>
        rw [hlist] at hmem
        exact h.inv.ifree_not_mem he (by rw [hlist]; exact List.mem_cons_self)
          hmem
  have hchain₃ : LinkedTable.Chain LF_INULL
      (fun n => (s₃.disk.iblocks n).ib_next)
      ((v.chain (s.lfltab i).lfdirptr).head?.getD LF_INULL)
      (v.chain (s.lfltab i).lfdirptr) := by
    rw [← hhead]
    refine (h.inv.chain _ he).congr fun n hn => ?_
    show (s₀.disk.iblocks n).ib_next = _
    rw [hiclean n hn]
    rfl
  have hnext : (v.file (s.lfltab i).lfdirptr).ld_ilist =
      (v.chain (s.lfltab i).lfdirptr).head?.getD v.dir.lfd_ifree := by
    rw [hhead]
    obtain ⟨x, l, hl⟩ := List.exists_cons_of_ne_nil hne
    simp [hl]
  have hlen := h.inv.chain_length he
  obtain ⟨s₄, hloop, hun⟩ := truncateLoop_spec (s := s₃) hchain₃ hnext
    (h.inv.iblocks.owned_nodup p.iblocks_nodup he) hfree
    (h.inv.inull_not_mem he) (by omega : _ < budget)
  let s' : Lfs := { s₄ with
    lf_dir := { s₄.lf_dir with
      lfd_ifree := (v.file (s.lfltab i).lfdirptr).ld_ilist }
    lf_dirdirty := true }
  have ht : Truncated v (s.lfltab i).lfdirptr
      (v.truncated (s.lfltab i).lfdirptr s') :=
    truncated_truncated (t := t) h.inv he hne hdir₁
      (fun d hd => hstep.holds.blocks_free h.inv hd) hiclean hun rfl rfl
  have hinv := h.inv.truncate he ht
  have ho : Own i s₀ s' := by
    have hset : Own i s₀ s₁ := .setFile rfl rfl rfl rfl
    exact hset.trans (.of_table hun.table hun.dskdev hun.present)
  have hf' : s'.lfltab i = s₁.lfltab i := congrFun hun.table i
  have hother : ∀ f < v.nfiles, f ≠ (s.lfltab i).lfdirptr →
      SameFile v (v.truncated (s.lfltab i).lfdirptr s') f :=
    fun f hf hne => ht.sameFile h.inv he hf hne
  have hholds : Holds s' (v.truncated (s.lfltab i).lfdirptr s') := by
    refine hstep.holds.own h.inv hi₀ ho rfl ht.nfiles ?_ ?_ ?_ ?_
    · rw [hstep.own.entry]
      exact hother
    · rw [hf', hf₁]
      refine ⟨?_, ?_, Nat.zero_le _, Or.inl ⟨rfl, rfl⟩, Or.inl ⟨rfl, rfl⟩,
        fun hlt => absurd hlt (lt_irrefl _)⟩
      · rw [ht.nfiles]
        exact he
      · show (s.lfltab i).lfname = _
        rw [ht.file_self]
        exact hdev.name
    · intro n hothers _
      show s₄.disk.iblocks n = if n ∈ v.chain (s.lfltab i).lfdirptr then
        s₄.disk.iblocks n else v.index n
      by_cases hn : n ∈ v.chain (s.lfltab i).lfdirptr
      · rw [if_pos hn]
      · rw [if_neg hn, hun.iblocks n hn]
        exact hstep.holds.index_of_clean hothers fun hdirty => by
          rw [hf₀] at hdirty
          cases hdirty
    · intro d hothers _
      show s₄.disk.blocks d = if d ∈ v.pointers (s.lfltab i).lfdirptr then
        s₄.disk.blocks d else v.block d
      by_cases hd : d ∈ v.pointers (s.lfltab i).lfdirptr
      · rw [if_pos hd]
      · have hpointers : chainPointers s₃.disk.iblocks
            (v.chain (s.lfltab i).lfdirptr) =
              v.pointers (s.lfltab i).lfdirptr := by
          rw [← h.inv.chainPointers_eq he]
          apply List.flatMap_congr
          intro n hn
          show (s₀.disk.iblocks n).pointers = _
          rw [hiclean n hn]
        rw [if_neg hd, hun.data.blocks, hpointers,
          (freeAll_freed s₃ _).blocks d hd]
        exact hstep.holds.block_of_clean hothers fun hdirty => by
          rw [hf₀] at hdirty
          cases hdirty
  have honly : OnlyFile v (v.truncated (s.lfltab i).lfdirptr s')
      (s.lfltab i).lfdirptr :=
    ⟨ht.nfiles, hother, by rw [ht.file_self]⟩
  refine ⟨s', _, ?_, h.only hinv hholds honly ⟨?_, ?_⟩, hstep.own.trans ho,
    honly, ?_, ?_⟩
  · show Option.map (fun u : Lfs => { u with
        lf_dir := { u.lf_dir with lfd_ifree := (s₁.entry i).ld_ilist }
        lf_dirdirty := true })
      (Lfs.truncateLoop s₁.lf_dir.lfd_ifree budget (s₁.entry i).ld_ilist
        { s₁.setEntry (s₁.lfltab i).lfdirptr fun e =>
            { e with ld_ilist := LF_INULL, ld_size := 0 } with
          lf_dirdirty := true }) = _
    rw [hilist, hentry₁, hdir₁]
    change Option.map _ (Lfs.truncateLoop _ budget _ s₃) = _
    rw [hloop]
    rfl
  · rw [ht.room_self, ht.file_self]
    simp [LF_BLKSIZ]
  · rw [ht.room_self, ht.chain_self]
    rfl
  · rw [← List.length_eq_zero_iff, Volume.bytes_length, ht.file_self]
  · rw [hf', hf₁]

end Truncation

end Xinu.LocalFiles
