import Mathlib.Data.List.GetD
import Xinu.FreePools
import Xinu.LocalFiles
import Xinu.NullLists

/-!
# The blocks of a local file system

A volume is a file system without its caches: the directory, the index blocks
and data blocks as they are with every dirty copy written back, the two free
lists, the chain of index blocks of each file and the number of data blocks
each file has.  The changes that the calls of the file system make to it keep
every block on exactly one list.
-/

namespace Xinu.LocalFiles

open FreePools LinkedTable

/-- The numbers of the index blocks and of the data blocks of a disk. -/
structure Pools where
  iblocks : List ℤ
  dblocks : List ℤ
  iblocks_nodup : iblocks.Nodup
  dblocks_nodup : dblocks.Nodup
  inull : LF_INULL ∉ iblocks
  dnull : LF_DNULL ∉ dblocks
  /-- A link is a 32-bit number. -/
  link : ∀ d ∈ dblocks, -2 ^ 31 ≤ d ∧ d < 2 ^ 31

structure Volume where
  dir : Lfdir
  index : ℤ → Lfiblk
  block : ℤ → Block
  ifree : List ℤ
  dfree : List ℤ
  chain : ℕ → List ℤ
  /-- The number of data blocks of a file. -/
  room : ℕ → ℕ

namespace Volume

variable (v : Volume)

def nfiles : ℕ := v.dir.lfd_nfiles.toNat

def file (e : ℕ) : Ldentry := v.dir.lfd_files e

def next (n : ℤ) : ℤ := (v.index n).ib_next

def nextdb (d : ℤ) : ℤ := (v.block d).nextdb

/-- The pointer to the data block `k` of a file. -/
def pointer (e k : ℕ) : ℤ :=
  (v.index ((v.chain e).getD (k / LF_IBLEN) LF_INULL)).ib_dba (k % LF_IBLEN)

def pointers (e : ℕ) : List ℤ := (List.range (v.room e)).map (v.pointer e)

/-- The byte of a file at an offset. -/
def content (e off : ℕ) : BitVec 8 :=
  v.block (v.pointer e (off / LF_BLKSIZ)) (off % LF_BLKSIZ)

/-- The index blocks and data blocks that a file of this size needs. -/
def Fitted (e : ℕ) : Prop :=
  v.room e = ((v.file e).ld_size + 511) / LF_BLKSIZ ∧
    (v.chain e).length = (v.room e + 15) / LF_IBLEN

end Volume

/-- Every block is on one list, and the chain of a file starts with the index
blocks that have pointers. -/
structure VolumeInv (p : Pools) (v : Volume) : Prop where
  check : lfscheck v.dir = true
  ifree : LinkedTable.Chain LF_INULL v.next v.dir.lfd_ifree v.ifree
  dfree : LinkedTable.Chain LF_DNULL v.nextdb v.dir.lfd_dfree v.dfree
  chain : ∀ e < v.nfiles,
    LinkedTable.Chain LF_INULL v.next (v.file e).ld_ilist (v.chain e)
  offset : ∀ e < v.nfiles, ∀ k < (v.chain e).length,
    (v.index ((v.chain e).getD k LF_INULL)).ib_offset = LF_IDATA * k
  filled : ∀ e < v.nfiles, ∀ k < LF_IBLEN * (v.chain e).length,
    v.pointer e k ≠ LF_DNULL ↔ k < v.room e
  room : ∀ e < v.nfiles, v.room e ≤ LF_IBLEN * (v.chain e).length
  iblocks : Divided p.iblocks v.ifree v.chain v.nfiles
  dblocks : Divided p.dblocks v.dfree v.pointers v.nfiles

/-- What a change of another file leaves of this one. -/
structure SameFile (v v' : Volume) (e : ℕ) : Prop where
  file : v'.file e = v.file e
  chain : v'.chain e = v.chain e
  room : v'.room e = v.room e
  index : ∀ n ∈ v.chain e, v'.index n = v.index n
  block : ∀ d ∈ v.pointers e, v'.block d = v.block d

/-! ## Chains and pointers -/

section Structure

variable {p : Pools} {v v' : Volume} {e f k n : ℕ} {x : ℤ}

theorem VolumeInv.nfiles_eq (h : VolumeInv p v) :
    v.dir.lfd_nfiles = v.nfiles := by
  have hcheck := h.check
  simp only [lfscheck, Bool.and_eq_true, decide_eq_true_eq] at hcheck
  exact (Int.toNat_of_nonneg hcheck.2).symm

theorem VolumeInv.chain_mem (h : VolumeInv p v) (he : e < v.nfiles)
    (hx : x ∈ v.chain e) : x ∈ p.iblocks :=
  h.iblocks.mem_of_owned he hx

theorem VolumeInv.inull_not_mem (h : VolumeInv p v) (he : e < v.nfiles) :
    LF_INULL ∉ v.chain e :=
  fun hx => p.inull (h.chain_mem he hx)

theorem VolumeInv.chain_other
    (h : VolumeInv p v) (he : e < v.nfiles) (hf : f < v.nfiles) (hne : f ≠ e)
    (hx : x ∈ v.chain e) : x ∉ v.chain f :=
  fun hx' => hne (h.iblocks.owner_unique p.iblocks_nodup he hf hx hx')

theorem VolumeInv.ifree_not_mem
    (h : VolumeInv p v) (he : e < v.nfiles) (hx : x ∈ v.ifree) :
    x ∉ v.chain e :=
  h.iblocks.not_owned_of_free p.iblocks_nodup he hx

theorem VolumeInv.dfree_not_mem
    (h : VolumeInv p v) (he : e < v.nfiles) (hx : x ∈ v.dfree) :
    x ∉ v.pointers e :=
  h.dblocks.not_owned_of_free p.dblocks_nodup he hx

theorem VolumeInv.pointers_other
    (h : VolumeInv p v) (he : e < v.nfiles) (hf : f < v.nfiles) (hne : f ≠ e)
    (hx : x ∈ v.pointers e) : x ∉ v.pointers f :=
  fun hx' => hne (h.dblocks.owner_unique p.dblocks_nodup he hf hx hx')

theorem Volume.pointer_mem (hk : k < v.room e) : v.pointer e k ∈ v.pointers e :=
  List.mem_map.mpr ⟨k, List.mem_range.mpr hk, rfl⟩

theorem Volume.mem_pointers :
    x ∈ v.pointers e ↔ ∃ k < v.room e, v.pointer e k = x := by
  simp [Volume.pointers]

/-- Different blocks of a file are at different places. -/
theorem VolumeInv.pointer_inj
    (h : VolumeInv p v) (he : e < v.nfiles) (hk : k < v.room e)
    (hn : n < v.room e) (heq : v.pointer e k = v.pointer e n) : k = n := by
  have hnodup := h.dblocks.owned_nodup p.dblocks_nodup he
  exact List.inj_on_of_nodup_map hnodup (List.mem_range.mpr hk)
    (List.mem_range.mpr hn) heq

theorem index_lt {len : ℕ} (hk : k < LF_IBLEN * len) : k / LF_IBLEN < len := by
  simp only [LF_IBLEN] at hk ⊢
  omega

theorem chain_getD_mem {l : List ℤ} (hk : k < l.length) :
    l.getD k LF_INULL ∈ l := by
  rw [List.getD_eq_getElem l LF_INULL hk]
  exact List.getElem_mem hk

/-- The index block of a pointer is in the chain. -/
theorem Volume.pointer_index_mem (hk : k < LF_IBLEN * (v.chain e).length) :
    (v.chain e).getD (k / LF_IBLEN) LF_INULL ∈ v.chain e :=
  chain_getD_mem (index_lt hk)

theorem chain_getD_inj
    {l : List ℤ} (hl : l.Nodup) (hk : k < l.length) (hn : n < l.length)
    (heq : l.getD k LF_INULL = l.getD n LF_INULL) : k = n := by
  rw [List.getD_eq_getElem l LF_INULL hk, List.getD_eq_getElem l LF_INULL hn]
    at heq
  exact (List.Nodup.getElem_inj_iff hl).mp heq

section Unchanged

/-- Pointers depend on the index blocks of the chain. -/
theorem Volume.pointer_congr
    (hchain : v'.chain e = v.chain e)
    (hindex : ∀ n ∈ v.chain e, (v'.index n).ib_dba = (v.index n).ib_dba)
    (hk : k < LF_IBLEN * (v.chain e).length) :
    v'.pointer e k = v.pointer e k := by
  unfold Volume.pointer
  rw [hchain, hindex _ (Volume.pointer_index_mem hk)]

theorem SameFile.pointer
    (h : SameFile v v' e) (hk : k < LF_IBLEN * (v.chain e).length) :
    v'.pointer e k = v.pointer e k :=
  Volume.pointer_congr h.chain (fun n hn => by rw [h.index n hn]) hk

theorem SameFile.pointers
    (h : SameFile v v' e) (hroom : v.room e ≤ LF_IBLEN * (v.chain e).length) :
    v'.pointers e = v.pointers e := by
  unfold Volume.pointers
  rw [h.room]
  apply List.map_congr_left
  intro k hk
  exact h.pointer (lt_of_lt_of_le (List.mem_range.mp hk) hroom)

/-- The bytes of a file that nothing has changed. -/
theorem SameFile.content
    (h : SameFile v v' e) (hroom : v.room e ≤ LF_IBLEN * (v.chain e).length)
    {off : ℕ} (hoff : off / LF_BLKSIZ < v.room e) :
    v'.content e off = v.content e off := by
  unfold Volume.content
  rw [h.pointer (by omega), h.block _ (Volume.pointer_mem hoff)]

theorem SameFile.fitted (h : SameFile v v' e) (hfit : v.Fitted e) :
    v'.Fitted e := by
  unfold Volume.Fitted at hfit ⊢
  rw [h.file, h.room, h.chain]
  exact hfit

theorem SameFile.refl (v : Volume) (e : ℕ) : SameFile v v e :=
  ⟨rfl, rfl, rfl, fun _ _ => rfl, fun _ _ => rfl⟩

theorem SameFile.trans
    {v'' : Volume} (h : SameFile v v' e) (h' : SameFile v' v'' e)
    (hroom : v.room e ≤ LF_IBLEN * (v.chain e).length) : SameFile v v'' e where
  file := h'.file.trans h.file
  chain := h'.chain.trans h.chain
  room := h'.room.trans h.room
  index := fun n hn =>
    (h'.index n (by rw [h.chain]; exact hn)).trans (h.index n hn)
  block := fun d hd =>
    (h'.block d (by rw [h.pointers hroom]; exact hd)).trans (h.block d hd)

end Unchanged

/-- The next block of a chain. -/
theorem chain_next
    {next : ℤ → ℤ} {a : ℤ} {l : List ℤ}
    (h : LinkedTable.Chain LF_INULL next a l)
    (hk : k < l.length) :
    next (l.getD k LF_INULL) = l.getD (k + 1) LF_INULL := by
  have hsplit : l = l.take k ++ l.getD k LF_INULL :: l.drop (k + 1) := by
    rw [List.getD_eq_getElem l LF_INULL hk, ← List.drop_eq_getElem_cons hk,
      List.take_append_drop]
  rw [hsplit] at h
  have hrest := h.drop.head
  rw [hrest, List.getD_eq_getElem?_getD, List.head?_drop]

end Structure

/-! ## Changes of a volume -/

namespace Volume

variable (v : Volume)

/-- File `e` gets the free index block `n`. -/
def grow (e : ℕ) (n : ℤ) : Volume :=
  { v with
    dir := { v.dir with
      lfd_ifree := v.next n
      lfd_files := Function.update v.dir.lfd_files e
        { v.file e with ld_ilist := (v.chain e).head?.getD n } }
    index := Function.update
      (match (v.chain e).getLast? with
      | none => v.index
      | some m => Function.update v.index m { v.index m with ib_next := n })
      n (lfibclear (LF_IDATA * (v.chain e).length))
    ifree := v.ifree.tail
    chain := Function.update v.chain e (v.chain e ++ [n]) }

/-- The index block whose next pointer is free. -/
def filling (e : ℕ) : ℤ := (v.chain e).getD (v.room e / LF_IBLEN) LF_INULL

/-- File `e` gets the free data block `d`. -/
def addBlock (e : ℕ) (d : ℤ) : Volume :=
  { v with
    dir := { v.dir with lfd_dfree := v.nextdb d }
    index := Function.update v.index (v.filling e)
      { v.index (v.filling e) with
        ib_dba := Function.update (v.index (v.filling e)).ib_dba
          (v.room e % LF_IBLEN) d }
    block := Function.update v.block d fun _ => DFILL
    dfree := v.dfree.tail
    room := Function.update v.room e (v.room e + 1) }

/-- A byte of file `e` is written. -/
def putByte (e off : ℕ) (ch : BitVec 8) : Volume :=
  { v with
    dir := { v.dir with
      lfd_files := Function.update v.dir.lfd_files e
        { v.file e with ld_size := max (v.file e).ld_size (off + 1) } }
    block := Function.update v.block (v.pointer e (off / LF_BLKSIZ))
      (Function.update (v.block (v.pointer e (off / LF_BLKSIZ)))
        (off % LF_BLKSIZ) ch) }

/-- An entry for an empty file. -/
def addFile (name : Name) : Volume :=
  { v with
    dir := { v.dir with
      lfd_nfiles := v.dir.lfd_nfiles + 1
      lfd_files := Function.update v.dir.lfd_files v.nfiles
        ⟨0, LF_INULL, name⟩ }
    chain := Function.update v.chain v.nfiles []
    room := Function.update v.room v.nfiles 0 }

end Volume

/-- File `e` loses all its blocks. -/
structure Truncated (v : Volume) (e : ℕ) (v' : Volume) : Prop where
  dir : v'.dir = { v.dir with
    lfd_ifree := (v.chain e ++ v.ifree).head?.getD LF_INULL
    lfd_dfree := v'.dir.lfd_dfree
    lfd_files := Function.update v.dir.lfd_files e
      { v.file e with ld_ilist := LF_INULL, ld_size := 0 } }
  ifree : v'.ifree = v.chain e ++ v.ifree
  dfree : v'.dfree = (v.pointers e).reverse ++ v.dfree
  chain : v'.chain = Function.update v.chain e []
  room : v'.room = Function.update v.room e 0
  ichain : LinkedTable.Chain LF_INULL v'.next v'.dir.lfd_ifree v'.ifree
  dchain : LinkedTable.Chain LF_DNULL v'.nextdb v'.dir.lfd_dfree v'.dfree
  index : ∀ n ∉ v.chain e, v'.index n = v.index n
  block : ∀ d ∉ v.pointers e, v'.block d = v.block d

section Growing

variable {p : Pools} {v : Volume} {e f : ℕ} {n m x : ℤ} {rest : List ℤ}

theorem grow_index_new :
    (v.grow e n).index n = lfibclear (LF_IDATA * (v.chain e).length) := by
  simp [Volume.grow]

theorem grow_index_of_ne (hx : x ≠ n) :
    (v.grow e n).index x =
      if x ∈ (v.chain e).getLast? then { v.index x with ib_next := n }
      else v.index x := by
  cases hlast : (v.chain e).getLast? with
  | none => simp [Volume.grow, hlast, hx]
  | some m =>
      by_cases hm : m = x
      · simp [Volume.grow, hlast, hx, hm]
      · simp [Volume.grow, hlast, hx, hm, Ne.symm hm]

theorem grow_index_other (hx : x ≠ n) (hlast : x ∉ (v.chain e).getLast?) :
    (v.grow e n).index x = v.index x := by
  rw [grow_index_of_ne hx, if_neg hlast]

theorem grow_index_kept (hx : x ≠ n) :
    ((v.grow e n).index x).ib_dba = (v.index x).ib_dba ∧
      ((v.grow e n).index x).ib_offset = (v.index x).ib_offset := by
  rw [grow_index_of_ne hx]
  split <;> exact ⟨rfl, rfl⟩

theorem grow_chain_self :
    (v.grow e n).chain e = v.chain e ++ [n] := by
  simp [Volume.grow]

theorem grow_chain_of_ne (hf : f ≠ e) : (v.grow e n).chain f = v.chain f := by
  simp [Volume.grow, hf]

theorem grow_file_of_ne (hf : f ≠ e) : (v.grow e n).file f = v.file f := by
  simp [Volume.grow, Volume.file, hf]

theorem last_mem_chain (hm : m ∈ (v.chain e).getLast?) : m ∈ v.chain e :=
  List.mem_of_getLast? hm

variable (h : VolumeInv p v) (he : e < v.nfiles) (hfree : v.ifree = n :: rest)

include h hfree

theorem grow_fresh (hf : f < v.nfiles) (hx : x ∈ v.chain f) : x ≠ n := by
  rintro rfl
  exact h.ifree_not_mem hf (by simp [hfree]) hx

include he

theorem grow_sameFile (hf : f < v.nfiles) (hne : f ≠ e) :
    SameFile v (v.grow e n) f where
  file := grow_file_of_ne hne
  chain := grow_chain_of_ne hne
  room := rfl
  index := fun _ hx => grow_index_other (grow_fresh h hfree hf hx)
    fun hlast => h.chain_other he hf hne (last_mem_chain hlast) hx
  block := fun _ _ => rfl

/-- The pointers of the file that grows. -/
theorem grow_pointer {k : ℕ} (hk : k < LF_IBLEN * (v.chain e).length) :
    (v.grow e n).pointer e k = v.pointer e k := by
  unfold Volume.pointer
  have hlt := index_lt hk
  rw [grow_chain_self, List.getD_append _ _ _ _ hlt]
  have hmem := chain_getD_mem hlt
  rw [(grow_index_kept (grow_fresh h hfree he hmem)).1]

theorem grow_pointers (hf : f < v.nfiles) :
    (v.grow e n).pointers f = v.pointers f := by
  by_cases hne : f = e
  · subst hne
    unfold Volume.pointers
    apply List.map_congr_left
    intro k hk
    exact grow_pointer h he hfree
      (lt_of_lt_of_le (List.mem_range.mp hk) (h.room f he))
  · exact (grow_sameFile h he hfree hf hne).pointers (h.room f hf)

theorem grow_chain :
    LinkedTable.Chain LF_INULL (v.grow e n).next ((v.grow e n).file e).ld_ilist
      ((v.grow e n).chain e) := by
  have hchain := h.chain e he
  have hilist : ((v.grow e n).file e).ld_ilist = (v.chain e).head?.getD n := by
    simp [Volume.grow, Volume.file]
  have hnew : (v.grow e n).next n = LF_INULL := by
    rw [Volume.next, grow_index_new]
    rfl
  rw [grow_chain_self, hilist]
  cases hl : v.chain e with
  | nil => exact ⟨rfl, hnew⟩
  | cons y l =>
      rw [← hl]
      have hne : v.chain e ≠ [] := by simp [hl]
      have hhead : (v.chain e).head?.getD n = (v.file e).ld_ilist := by
        rw [hchain.head]
        simp [hl]
      rw [hhead]
      refine hchain.splice hne ?_ ?_ ⟨rfl, hnew⟩
      · have hmem := List.getLast_mem hne
        rw [Volume.next, grow_index_of_ne (grow_fresh h hfree he hmem),
          if_pos (by simp [List.getLast?_eq_some_getLast hne])]
      · intro x hx
        have hmem := List.mem_of_mem_dropLast hx
        have hnodup := h.iblocks.owned_nodup p.iblocks_nodup he
        rw [← List.dropLast_append_getLast hne] at hnodup
        have hlast : x ∉ (v.chain e).getLast? := by
          rw [List.getLast?_eq_some_getLast hne, Option.mem_some_iff]
          intro heq
          have hdisj := List.disjoint_of_nodup_append hnodup
          exact hdisj hx (by simp [heq])
        rw [Volume.next,
          grow_index_other (grow_fresh h hfree he hmem) hlast]
        rfl

theorem grow_offset {k : ℕ} (hk : k < ((v.grow e n).chain e).length) :
    ((v.grow e n).index (((v.grow e n).chain e).getD k LF_INULL)).ib_offset =
      LF_IDATA * k := by
  rw [grow_chain_self] at hk ⊢
  rw [List.length_append, List.length_singleton] at hk
  by_cases hlt : k < (v.chain e).length
  · rw [List.getD_append _ _ _ _ hlt]
    have hmem := chain_getD_mem hlt
    rw [(grow_index_kept (grow_fresh h hfree he hmem)).2]
    exact h.offset e he k hlt
  · obtain rfl : k = (v.chain e).length := by omega
    rw [List.getD_append_right _ _ _ _ le_rfl, Nat.sub_self]
    simp only [List.getD_cons_zero]
    rw [grow_index_new]
    rfl

theorem grow_filled {k : ℕ}
    (hk : k < LF_IBLEN * ((v.grow e n).chain e).length) :
    (v.grow e n).pointer e k ≠ LF_DNULL ↔ k < v.room e := by
  by_cases hlt : k < LF_IBLEN * (v.chain e).length
  · rw [grow_pointer h he hfree hlt]
    exact h.filled e he k hlt
  · have hroom := h.room e he
    have hnull : (v.grow e n).pointer e k = LF_DNULL := by
      unfold Volume.pointer
      rw [grow_chain_self] at hk ⊢
      rw [List.length_append, List.length_singleton] at hk
      have hindex : k / LF_IBLEN = (v.chain e).length := by
        simp only [LF_IBLEN] at hk hlt ⊢
        omega
      rw [hindex, List.getD_append_right _ _ _ _ le_rfl, Nat.sub_self]
      simp only [List.getD_cons_zero]
      rw [grow_index_new]
      rfl
    simp only [hnull, ne_eq, not_true_eq_false, false_iff]
    omega

theorem VolumeInv.grow : VolumeInv p (v.grow e n) where
  check := h.check
  ifree := by
    have hfirst := h.ifree
    rw [hfree] at hfirst
    have hnodup := h.iblocks.free_nodup p.iblocks_nodup
    rw [hfree] at hnodup
    have htail : (v.grow e n).ifree = rest := by simp [Volume.grow, hfree]
    rw [htail]
    refine hfirst.2.congr fun x hx => ?_
    have hxn : x ≠ n := fun heq =>
      (List.nodup_cons.mp hnodup).1 (heq ▸ hx)
    have hlast : x ∉ (v.chain e).getLast? := fun hlast =>
      h.ifree_not_mem he (by simp [hfree, hx]) (last_mem_chain hlast)
    rw [Volume.next, grow_index_other hxn hlast]
    rfl
  dfree := h.dfree
  chain := fun f hf => by
    by_cases hne : f = e
    · subst hne
      exact grow_chain h he hfree
    · have hsame := grow_sameFile h he hfree hf hne
      rw [hsame.file, hsame.chain]
      exact (h.chain f hf).congr fun x hx => by
        rw [Volume.next, hsame.index x hx]
        rfl
  offset := fun f hf k hk => by
    by_cases hne : f = e
    · subst hne
      exact grow_offset h he hfree hk
    · have hsame := grow_sameFile h he hfree hf hne
      rw [hsame.chain] at hk ⊢
      rw [hsame.index _ (chain_getD_mem hk)]
      exact h.offset f hf k hk
  filled := fun f hf k hk => by
    by_cases hne : f = e
    · subst hne
      exact grow_filled h he hfree hk
    · have hsame := grow_sameFile h he hfree hf hne
      rw [hsame.chain] at hk
      rw [hsame.pointer hk]
      exact h.filled f hf k hk
  room := fun f hf => by
    have hroom := h.room f hf
    by_cases hne : f = e
    · subst hne
      rw [grow_chain_self, List.length_append]
      exact hroom.trans (Nat.mul_le_mul_left _ (Nat.le_add_right _ _))
    · rw [grow_chain_of_ne hne]
      exact hroom
  iblocks := by
    have hdiv := h.iblocks
    rw [hfree] at hdiv
    have htail : (v.grow e n).ifree = rest := by simp [Volume.grow, hfree]
    rw [htail]
    refine hdiv.take he ?_ fun f _ hne => grow_chain_of_ne hne
    rw [grow_chain_self]
    exact List.perm_append_singleton n (v.chain e)
  dblocks := h.dblocks.congr fun _ hf => grow_pointers h he hfree hf

end Growing

section Adding

variable {p : Pools} {v : Volume} {e f k : ℕ} {d x : ℤ} {rest : List ℤ}

theorem addBlock_index_kept :
    ((v.addBlock e d).index x).ib_next = (v.index x).ib_next ∧
      ((v.addBlock e d).index x).ib_offset = (v.index x).ib_offset := by
  by_cases hx : x = v.filling e <;> simp [Volume.addBlock, hx]

theorem addBlock_index_other (hx : x ≠ v.filling e) :
    (v.addBlock e d).index x = v.index x := by
  simp [Volume.addBlock, hx]

theorem addBlock_block_other (hx : x ≠ d) :
    (v.addBlock e d).block x = v.block x := by
  simp [Volume.addBlock, hx]

theorem addBlock_room_self : (v.addBlock e d).room e = v.room e + 1 := by
  simp [Volume.addBlock]

theorem addBlock_room_of_ne (hf : f ≠ e) :
    (v.addBlock e d).room f = v.room f := by
  simp [Volume.addBlock, hf]

variable (h : VolumeInv p v) (hfree : v.dfree = d :: rest)

include h hfree

theorem addBlock_fresh (hf : f < v.nfiles) (hx : x ∈ v.pointers f) : x ≠ d := by
  rintro rfl
  exact h.dfree_not_mem hf (by simp [hfree]) hx

variable (he : e < v.nfiles)
  (hroom : v.room e < LF_IBLEN * (v.chain e).length)

include he hroom

omit h hfree he in
theorem filling_mem : v.filling e ∈ v.chain e :=
  Volume.pointer_index_mem hroom

omit hfree in
/-- The pointers of the file that gets a block. -/
theorem addBlock_pointer (hk : k < LF_IBLEN * (v.chain e).length) :
    (v.addBlock e d).pointer e k =
      if k = v.room e then d else v.pointer e k := by
  unfold Volume.pointer
  by_cases hblock :
      (v.chain e).getD (k / LF_IBLEN) LF_INULL = v.filling e
  · have hindex : k / LF_IBLEN = v.room e / LF_IBLEN :=
      chain_getD_inj (h.iblocks.owned_nodup p.iblocks_nodup he) (index_lt hk)
        (index_lt hroom) hblock
    have hchain : (v.addBlock e d).chain = v.chain := rfl
    rw [hchain, hblock]
    by_cases hkr : k = v.room e
    · simp [Volume.addBlock, hkr]
    · have hmod : k % LF_IBLEN ≠ v.room e % LF_IBLEN := by
        simp only [LF_IBLEN] at hindex ⊢
        omega
      simp [Volume.addBlock, hkr, hmod]
  · have hkr : k ≠ v.room e := by
      rintro rfl
      exact hblock rfl
    have hchain : (v.addBlock e d).chain = v.chain := rfl
    rw [hchain, addBlock_index_other hblock, if_neg hkr]

theorem addBlock_sameFile (hf : f < v.nfiles) (hne : f ≠ e) :
    SameFile v (v.addBlock e d) f where
  file := rfl
  chain := rfl
  room := addBlock_room_of_ne hne
  index := fun x hx => addBlock_index_other (by
    rintro rfl
    exact h.chain_other he hf hne (filling_mem hroom) hx)
  block := fun _ hx => addBlock_block_other (addBlock_fresh h hfree hf hx)

omit hfree in
theorem addBlock_pointers_self :
    (v.addBlock e d).pointers e = v.pointers e ++ [d] := by
  unfold Volume.pointers
  rw [addBlock_room_self, List.range_succ, List.map_append, List.map_singleton,
    addBlock_pointer h he hroom hroom, if_pos rfl]
  congr 1
  apply List.map_congr_left
  intro k hk
  have hlt := List.mem_range.mp hk
  rw [addBlock_pointer h he hroom (by omega), if_neg (by omega)]

theorem VolumeInv.addBlock : VolumeInv p (v.addBlock e d) where
  check := h.check
  ifree := h.ifree.congr fun _ _ => addBlock_index_kept.1
  dfree := by
    have hfirst := h.dfree
    rw [hfree] at hfirst
    have hnodup := h.dblocks.free_nodup p.dblocks_nodup
    rw [hfree] at hnodup
    have htail : (v.addBlock e d).dfree = rest := by
      simp [Volume.addBlock, hfree]
    rw [htail]
    refine hfirst.2.congr fun x hx => ?_
    have hxd : x ≠ d := fun heq => (List.nodup_cons.mp hnodup).1 (heq ▸ hx)
    rw [Volume.nextdb, addBlock_block_other hxd]
    rfl
  chain := fun f hf => (h.chain f hf).congr fun _ _ => addBlock_index_kept.1
  offset := fun f hf k hk => addBlock_index_kept.2.trans (h.offset f hf k hk)
  filled := fun f hf k hk => by
    by_cases hne : f = e
    · subst hne
      have hold := h.filled f hf k hk
      rw [addBlock_pointer h he hroom hk, addBlock_room_self]
      split
      next heq =>
        have hd : d ≠ LF_DNULL := fun heq => p.dnull
          (heq ▸ h.dblocks.mem_of_free (by simp [hfree]))
        simp only [ne_eq, hd, not_false_eq_true, true_iff]
        omega
      next hne =>
        rw [hold]
        omega
    · have hsame := addBlock_sameFile h hfree he hroom hf hne
      rw [hsame.pointer hk, hsame.room]
      exact h.filled f hf k hk
  room := fun f hf => by
    have hle := h.room f hf
    have hchain : (v.addBlock e d).chain = v.chain := rfl
    rw [hchain]
    by_cases hne : f = e
    · subst hne
      rw [addBlock_room_self]
      omega
    · rw [addBlock_room_of_ne hne]
      exact hle
  iblocks := h.iblocks
  dblocks := by
    have hdiv := h.dblocks
    rw [hfree] at hdiv
    have htail : (v.addBlock e d).dfree = rest := by
      simp [Volume.addBlock, hfree]
    rw [htail]
    refine hdiv.take he ?_ fun f hf hne =>
      (addBlock_sameFile h hfree he hroom hf hne).pointers (h.room f hf)
    rw [addBlock_pointers_self h he hroom]
    exact List.perm_append_singleton d (v.pointers e)

end Adding

section Putting

variable {p : Pools} {v : Volume} {e f off : ℕ} {ch : BitVec 8} {x : ℤ}

theorem putByte_file_self :
    (v.putByte e off ch).file e =
      { v.file e with ld_size := max (v.file e).ld_size (off + 1) } := by
  simp [Volume.putByte, Volume.file]

theorem putByte_file_of_ne (hf : f ≠ e) :
    (v.putByte e off ch).file f = v.file f := by
  simp [Volume.putByte, Volume.file, hf]

theorem putByte_ilist :
    ((v.putByte e off ch).file f).ld_ilist = (v.file f).ld_ilist := by
  by_cases hf : f = e
  · rw [hf, putByte_file_self]
  · rw [putByte_file_of_ne hf]

theorem putByte_block_other (hx : x ≠ v.pointer e (off / LF_BLKSIZ)) :
    (v.putByte e off ch).block x = v.block x := by
  simp [Volume.putByte, hx]

variable (h : VolumeInv p v) (he : e < v.nfiles)
  (hoff : off / LF_BLKSIZ < v.room e)

include h he hoff

theorem putByte_sameFile (hf : f < v.nfiles) (hne : f ≠ e) :
    SameFile v (v.putByte e off ch) f where
  file := putByte_file_of_ne hne
  chain := rfl
  room := rfl
  index := fun _ _ => rfl
  block := fun x hx => putByte_block_other (by
    rintro rfl
    exact h.pointers_other he hf hne (Volume.pointer_mem hoff) hx)

theorem VolumeInv.putByte : VolumeInv p (v.putByte e off ch) where
  check := h.check
  ifree := h.ifree
  dfree := h.dfree.congr fun x hx => by
    have hne : x ≠ v.pointer e (off / LF_BLKSIZ) := by
      rintro rfl
      exact h.dfree_not_mem he hx (Volume.pointer_mem hoff)
    rw [Volume.nextdb, putByte_block_other hne]
    rfl
  chain := fun f hf => by
    rw [putByte_ilist]
    exact h.chain f hf
  offset := h.offset
  filled := h.filled
  room := h.room
  iblocks := h.iblocks
  dblocks := h.dblocks

/-- The bytes of the file after one of them has been written. -/
theorem putByte_content {n : ℕ} (hn : n / LF_BLKSIZ < v.room e) :
    (v.putByte e off ch).content e n =
      if n = off then ch else v.content e n := by
  have hpointer : (v.putByte e off ch).pointer = v.pointer := rfl
  unfold Volume.content
  rw [hpointer]
  by_cases hblock : n / LF_BLKSIZ = off / LF_BLKSIZ
  · rw [hblock]
    by_cases hnoff : n = off
    · simp [Volume.putByte, hnoff]
    · have hmod : n % LF_BLKSIZ ≠ off % LF_BLKSIZ := by
        simp only [LF_BLKSIZ] at hblock ⊢
        omega
      simp [Volume.putByte, hnoff, hmod]
  · have hne : v.pointer e (n / LF_BLKSIZ) ≠ v.pointer e (off / LF_BLKSIZ) :=
      fun heq => hblock (h.pointer_inj he hn hoff heq)
    rw [putByte_block_other hne, if_neg fun heq => hblock (by rw [heq])]

end Putting

section Truncating

variable {p : Pools} {v v' : Volume} {e f : ℕ} {name : Name}

theorem Truncated.nfiles (ht : Truncated v e v') : v'.nfiles = v.nfiles := by
  unfold Volume.nfiles
  rw [ht.dir]

theorem Truncated.file_of_ne (ht : Truncated v e v') (hf : f ≠ e) :
    v'.file f = v.file f := by
  unfold Volume.file
  rw [ht.dir]
  simp [hf]

theorem Truncated.chain_self (ht : Truncated v e v') : v'.chain e = [] := by
  simp [ht.chain]

theorem Truncated.room_self (ht : Truncated v e v') : v'.room e = 0 := by
  simp [ht.room]

theorem Truncated.file_self (ht : Truncated v e v') :
    v'.file e = { v.file e with ld_ilist := LF_INULL, ld_size := 0 } := by
  unfold Volume.file
  rw [ht.dir]
  simp [Volume.file]

theorem Truncated.sameFile
    (ht : Truncated v e v') (h : VolumeInv p v) (he : e < v.nfiles)
    (hf : f < v.nfiles) (hne : f ≠ e) : SameFile v v' f where
  file := ht.file_of_ne hne
  chain := by simp [ht.chain, hne]
  room := by simp [ht.room, hne]
  index := fun n hn =>
    ht.index n fun hn' => h.chain_other he hf hne hn' hn
  block := fun d hd =>
    ht.block d fun hd' => h.pointers_other he hf hne hd' hd

theorem VolumeInv.truncate
    (h : VolumeInv p v) (he : e < v.nfiles) (ht : Truncated v e v') :
    VolumeInv p v' where
  check := by
    rw [ht.dir]
    exact h.check
  ifree := ht.ichain
  dfree := ht.dchain
  chain := fun f hf => by
    rw [ht.nfiles] at hf
    by_cases hne : f = e
    · subst hne
      rw [ht.chain_self, ht.file_self]
      rfl
    · have hsame := ht.sameFile h he hf hne
      rw [hsame.file, hsame.chain]
      exact (h.chain f hf).congr fun n hn => by
        rw [Volume.next, hsame.index n hn]
        rfl
  offset := fun f hf k hk => by
    rw [ht.nfiles] at hf
    by_cases hne : f = e
    · subst hne
      simp [ht.chain_self] at hk
    · have hsame := ht.sameFile h he hf hne
      rw [hsame.chain] at hk ⊢
      rw [hsame.index _ (chain_getD_mem hk)]
      exact h.offset f hf k hk
  filled := fun f hf k hk => by
    rw [ht.nfiles] at hf
    by_cases hne : f = e
    · subst hne
      simp [ht.chain_self] at hk
    · have hsame := ht.sameFile h he hf hne
      rw [hsame.chain] at hk
      rw [hsame.pointer hk, hsame.room]
      exact h.filled f hf k hk
  room := fun f hf => by
    rw [ht.nfiles] at hf
    by_cases hne : f = e
    · subst hne
      simp [ht.room_self]
    · have hsame := ht.sameFile h he hf hne
      rw [hsame.room, hsame.chain]
      exact h.room f hf
  iblocks := by
    rw [ht.nfiles]
    refine h.iblocks.giveBack he ?_ ht.chain_self fun f hf hne =>
      (ht.sameFile h he hf hne).chain
    rw [ht.ifree]
  dblocks := by
    rw [ht.nfiles]
    refine h.dblocks.giveBack he ?_ ?_ fun f hf hne =>
      (ht.sameFile h he hf hne).pointers (h.room f hf)
    · rw [ht.dfree]
      exact (List.reverse_perm _).append_right _
    · simp [Volume.pointers, ht.room_self]

end Truncating

section NewFiles

variable {p : Pools} {v : Volume} {f : ℕ} (name : Name)

theorem addFile_nfiles (h : VolumeInv p v) :
    (v.addFile name).nfiles = v.nfiles + 1 := by
  have hcount : (v.addFile name).nfiles = (v.dir.lfd_nfiles + 1).toNat := rfl
  have heq := h.nfiles_eq
  omega

theorem addFile_file_new :
    (v.addFile name).file v.nfiles = ⟨0, LF_INULL, name⟩ := by
  simp [Volume.addFile, Volume.file]

theorem addFile_sameFile (hf : f < v.nfiles) :
    SameFile v (v.addFile name) f where
  file := by
    have hne : f ≠ v.nfiles := by omega
    simp [Volume.addFile, Volume.file, hne]
  chain := by
    have hne : f ≠ v.nfiles := by omega
    simp [Volume.addFile, hne]
  room := by
    have hne : f ≠ v.nfiles := by omega
    simp [Volume.addFile, hne]
  index := fun _ _ => rfl
  block := fun _ _ => rfl

theorem addFile_chain_new : (v.addFile name).chain v.nfiles = [] := by
  simp [Volume.addFile]

theorem addFile_room_new : (v.addFile name).room v.nfiles = 0 := by
  simp [Volume.addFile]

theorem VolumeInv.addFile (h : VolumeInv p v) :
    VolumeInv p (v.addFile name) := by
  have hcount := addFile_nfiles name h
  have hcases : ∀ f < (v.addFile name).nfiles, f = v.nfiles ∨ f < v.nfiles :=
    fun f hf => by omega
  refine ⟨?_, h.ifree, h.dfree, ?_, ?_, ?_, ?_, ?_, ?_⟩
  · have hcheck := h.check
    have hnfiles : (v.addFile name).dir.lfd_nfiles = v.dir.lfd_nfiles + 1 := rfl
    simp only [lfscheck, Bool.and_eq_true, decide_eq_true_eq] at hcheck ⊢
    exact ⟨hcheck.1, by omega⟩
  · intro f hf
    rcases hcases f hf with rfl | hold
    · rw [addFile_chain_new, addFile_file_new]
      rfl
    · have hsame := addFile_sameFile name hold
      rw [hsame.file, hsame.chain]
      exact h.chain f hold
  · intro f hf k hk
    rcases hcases f hf with rfl | hold
    · simp [addFile_chain_new] at hk
    · have hsame := addFile_sameFile name hold
      rw [hsame.chain] at hk ⊢
      exact h.offset f hold k hk
  · intro f hf k hk
    rcases hcases f hf with rfl | hold
    · simp [addFile_chain_new] at hk
    · have hsame := addFile_sameFile name hold
      rw [hsame.chain] at hk
      rw [hsame.pointer hk, hsame.room]
      exact h.filled f hold k hk
  · intro f hf
    rcases hcases f hf with rfl | hold
    · simp [addFile_room_new]
    · have hsame := addFile_sameFile name hold
      rw [hsame.room, hsame.chain]
      exact h.room f hold
  · rw [hcount]
    exact h.iblocks.addOwner (addFile_chain_new name) fun f hf =>
      (addFile_sameFile name hf).chain
  · rw [hcount]
    refine h.dblocks.addOwner ?_ fun f hf =>
      (addFile_sameFile name hf).pointers (h.room f hf)
    simp [Volume.pointers, addFile_room_new]

end NewFiles

end Xinu.LocalFiles
