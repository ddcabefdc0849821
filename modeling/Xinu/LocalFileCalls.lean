import Xinu.LocalFileSetup

/-!
# Calls on open local files

What each call does to the volume and to its own pseudo-device.  Between calls
every file has the blocks that its size needs, so a byte that is read is in a
block of the file and a call that reads takes no block.
-/

namespace Xinu.LocalFiles

open LinkedTable

/-- The state of the file system between calls. -/
structure FilesOk (p : Pools) (s : Lfs) (v : Volume) : Prop where
  inv : VolumeInv p v
  holds : Holds s v
  fitted : ∀ e < v.nfiles, v.Fitted e
  names : DistinctNames v.dir

/-- The bytes of a file. -/
def Volume.bytes (v : Volume) (e : ℕ) : List (BitVec 8) :=
  (List.range (v.file e).ld_size).map (v.content e)

/-- No file but `e` has changed. -/
structure OnlyFile (v v' : Volume) (e : ℕ) : Prop where
  nfiles : v'.nfiles = v.nfiles
  other : ∀ f < v.nfiles, f ≠ e → SameFile v v' f
  name : (v'.file e).ld_name = (v.file e).ld_name

theorem Holds.entry_eq {s : Lfs} {v : Volume} {i : ℕ} (h : Holds s v) :
    s.entry i = v.file (s.lfltab i).lfdirptr := by
  unfold Lfs.entry
  rw [h.dir]
  rfl

section Volumes

variable {p : Pools} {s s' : Lfs} {v v' : Volume} {e f i budget : ℕ}

theorem Volume.bytes_length : (v.bytes e).length = (v.file e).ld_size := by
  simp [Volume.bytes]

theorem Extended.onlyFile (h : Extended v v' e) : OnlyFile v v' e :=
  ⟨h.nfiles, h.other, h.name⟩

theorem OnlyFile.refl (v : Volume) (e : ℕ) : OnlyFile v v e :=
  ⟨rfl, fun f _ _ => .refl v f, rfl⟩

theorem OnlyFile.trans
    {v'' : Volume} (h : OnlyFile v v' e) (h' : OnlyFile v' v'' e)
    (hv : VolumeInv p v) : OnlyFile v v'' e where
  nfiles := h'.nfiles.trans h.nfiles
  other := fun f hf hne =>
    (h.other f hf hne).trans (h'.other f (by rw [h.nfiles]; exact hf) hne)
      (hv.room f hf)
  name := h'.name.trans h.name

theorem OnlyFile.file_name (h : OnlyFile v v' e) (hf : f < v.nfiles) :
    (v'.file f).ld_name = (v.file f).ld_name := by
  by_cases hne : f = e
  · rw [hne]
    exact h.name
  · rw [(h.other f hf hne).file]

theorem OnlyFile.distinctNames
    (h : OnlyFile v v' e) (hv : VolumeInv p v) (hv' : VolumeInv p v')
    (hnames : DistinctNames v.dir) : DistinctNames v'.dir := by
  intro a b ha hb heq
  rw [hv'.nfiles_eq, h.nfiles] at ha hb
  have hname := h.file_name (f := a) (by exact_mod_cast ha)
  have hname' := h.file_name (f := b) (by exact_mod_cast hb)
  refine hnames a b ?_ ?_ ?_
  · rw [hv.nfiles_eq]
    exact ha
  · rw [hv.nfiles_eq]
    exact hb
  · exact hname.symm.trans (heq.trans hname')

/-- A byte inside a fitted file is in one of its blocks. -/
theorem Volume.Fitted.lt
    (h : v.Fitted e) {off : ℕ} (hoff : off < (v.file e).ld_size) :
    off / LF_BLKSIZ < v.room e := by
  rw [h.1]
  simp only [LF_BLKSIZ]
  omega

theorem Volume.Fitted.le
    (h : v.Fitted e) {off : ℕ} (hoff : off ≤ (v.file e).ld_size) :
    off / LF_BLKSIZ ≤ v.room e := by
  rw [h.1]
  simp only [LF_BLKSIZ]
  omega

theorem SameFile.bytes
    (h : SameFile v v' e) (hv : VolumeInv p v) (he : e < v.nfiles)
    (hfit : v.Fitted e) : v'.bytes e = v.bytes e := by
  unfold Volume.bytes
  rw [h.file]
  apply List.map_congr_left
  intro off hoff
  exact h.content (hv.room e he) (hfit.lt (List.mem_range.mp hoff))

theorem Extended.bytes (h : Extended v v' e) (hfit : v.Fitted e) :
    v'.bytes e = v.bytes e := by
  unfold Volume.bytes
  rw [h.size]
  apply List.map_congr_left
  intro off hoff
  exact h.content (hfit.lt (List.mem_range.mp hoff))

theorem VolumeInv.chain_length (hv : VolumeInv p v) (he : e < v.nfiles) :
    (v.chain e).length ≤ p.iblocks.length := by
  have hnodup := hv.iblocks.owned_nodup p.iblocks_nodup he
  exact (hnodup.subperm fun _ hn => hv.chain_mem he hn).length_le

/-- A walk to a position inside a file fits into the budget. -/
theorem FilesOk.walk_budget
    (h : FilesOk p s v) (he : e < v.nfiles) {off : ℕ}
    (hoff : off ≤ (v.file e).ld_size) (hbudget : p.iblocks.length < budget) :
    off / LF_IDATA < budget := by
  have hlen := h.inv.chain_length he
  obtain ⟨hroom, hchain⟩ := h.fitted e he
  simp only [LF_IDATA, LF_IBLEN, LF_BLKSIZ] at hroom hchain ⊢
  omega

end Volumes

/-! ## The block of the position -/

/-- The block of the position is in memory, as the byte pointer says. -/
structure Ready (p : Pools) (i : ℕ) (s : Lfs) (v : Volume) (t : Lfs)
    (w : Volume) : Prop where
  inv : VolumeInv p w
  dirty : Holds (t.dirtied i) w
  clean : (s.lfltab i).lfpos / LF_BLKSIZ < v.room (s.lfltab i).lfdirptr →
    Holds t w
  own : Own i s t
  extended : Extended v w (s.lfltab i).lfdirptr
  pos : (t.lfltab i).lfpos = (s.lfltab i).lfpos
  byte : (t.lfltab i).lfbyte < LF_BLKSIZ
  room : w.room (s.lfltab i).lfdirptr =
    max ((s.lfltab i).lfpos / LF_BLKSIZ + 1) (v.room (s.lfltab i).lfdirptr)
  chain : (w.chain (s.lfltab i).lfdirptr).length =
    max ((s.lfltab i).lfpos / LF_IDATA + 1)
      (v.chain (s.lfltab i).lfdirptr).length

section Blocks

variable {p : Pools} {s s' t : Lfs} {v w : Volume} {i budget : ℕ}

theorem ensureBlock_spec
    (h : FilesOk p s v) (hi : s.InUse i) (hbudget : p.iblocks.length < budget) :
    LF_BLKSIZ ≤ (s.lfltab i).lfbyte ∧ Lacking v (s.lfltab i) ∧
        s.ensureBlock budget i = none ∨
      ∃ t w, s.ensureBlock budget i = some t ∧ Ready p i s v t w := by
  have hdev := h.holds.device i hi
  have hfit := h.fitted _ hdev.entry
  unfold Lfs.ensureBlock
  by_cases hbyte : LF_BLKSIZ ≤ (s.lfltab i).lfbyte
  · rw [if_pos hbyte]
    rcases lfsetup_spec h.inv h.holds hi (hfit.le hdev.pos) hbyte
        (h.walk_budget hdev.entry hdev.pos hbudget) with ⟨hlack, hnone⟩ |
      ⟨t, w, hsome, hdone, hchain⟩
    · exact Or.inl ⟨hbyte, hlack, hnone⟩
    · right
      refine ⟨t, w, hsome, hdone.inv, hdone.dirty, hdone.clean, hdone.own,
        hdone.extended, hdone.pos, ?_, hdone.room, hchain⟩
      rw [hdone.byte]
      exact Nat.mod_lt _ (by decide)
  · rw [if_neg hbyte]
    right
    obtain ⟨-, hlt, hdnum⟩ := hdev.byte (by omega)
    have hroom := h.inv.room _ hdev.entry
    refine ⟨s, v, rfl, h.inv, h.holds.dirtied h.inv hi ?_, fun _ => h.holds,
      .refl s, .refl v _, rfl, by omega, by omega, ?_⟩
    · rw [hdnum]
      exact Volume.pointer_mem hlt
    · simp only [LF_IDATA, LF_BLKSIZ, LF_IBLEN] at hlt hroom ⊢
      omega

/-- The copy in memory holds the byte at the position. -/
theorem Ready.copy (h : Ready p i s v t w) (hi : s.InUse i) :
    DeviceInv w (t.lfltab i) ∧
      (t.lfltab i).lfdirptr = (s.lfltab i).lfdirptr ∧
      (s.lfltab i).lfpos / LF_BLKSIZ < w.room (s.lfltab i).lfdirptr ∧
      (t.lfltab i).lfbyte = (s.lfltab i).lfpos % LF_BLKSIZ ∧
      (t.lfltab i).lfdnum = w.pointer (s.lfltab i).lfdirptr
        ((s.lfltab i).lfpos / LF_BLKSIZ) ∧
      (t.lfltab i).lfdblock = w.block (t.lfltab i).lfdnum := by
  have hused : (t.dirtied i).InUse i :=
    (own_dirtied t).inUse.mpr (h.own.inUse.mpr hi)
  have hdev := h.dirty.device i hused
  rw [lfltab_dirtied] at hdev
  obtain ⟨hoff, hlt, hdnum⟩ := hdev.byte h.byte
  have hentry := h.own.entry
  have hpos := h.pos
  have hdata := hdev.data.resolve_left fun hnull => by
    have hdirty := hnull.2
    cases hdirty
  refine ⟨⟨hdev.entry, hdev.name, hdev.pos, hdev.index, Or.inr hdata,
    hdev.byte⟩, hentry, ?_, ?_, ?_, hdata.2⟩
  · rw [← hentry, ← hpos]
    exact hlt
  · rw [← hpos]
    exact hoff
  · rw [← hentry, ← hpos]
    exact hdnum

/-- The blocks of the file after a byte has been put at the position. -/
theorem Ready.fitted
    (h : Ready p i s v t w) (hfit : v.Fitted (s.lfltab i).lfdirptr)
    (hpos : (s.lfltab i).lfpos ≤ (v.file (s.lfltab i).lfdirptr).ld_size) :
    w.room (s.lfltab i).lfdirptr =
        (max (v.file (s.lfltab i).lfdirptr).ld_size
          ((s.lfltab i).lfpos + 1) + 511) / LF_BLKSIZ ∧
      (w.chain (s.lfltab i).lfdirptr).length =
        (w.room (s.lfltab i).lfdirptr + 15) / LF_IBLEN := by
  obtain ⟨hroom, hchain⟩ := hfit
  have hroom' := h.room
  have hchain' := h.chain
  simp only [LF_IDATA, LF_BLKSIZ, LF_IBLEN] at hroom hchain hroom' hchain' ⊢
  omega

end Blocks

/-! ## One byte -/

section Bytes

variable {p : Pools} {s s' t : Lfs} {v w : Volume} {i budget : ℕ}
  {ch : BitVec 8}

/-- The control block after a byte has been put. -/
def Lflcblk.putByte (f : Lflcblk) (ch : BitVec 8) : Lflcblk :=
  { f with
    lfdblock := Function.update f.lfdblock f.lfbyte ch
    lfbyte := f.lfbyte + 1
    lfpos := f.lfpos + 1
    lfdbdirty := true }

/-- A byte has been put into the block in memory. -/
theorem Ready.putByte
    (h : Ready p i s v t w) (hi : s.InUse i)
    (hdir : s'.lf_dir = (w.putByte (s.lfltab i).lfdirptr
      (s.lfltab i).lfpos ch).dir)
    (ho : Own i t s') (hf : s'.lfltab i = (t.lfltab i).putByte ch)
    (hdisk : s'.disk = t.disk) :
    Holds s' (w.putByte (s.lfltab i).lfdirptr (s.lfltab i).lfpos ch) := by
  obtain ⟨hdev, hentry, hlt, hbyte, hdnum, hcopy⟩ := h.copy hi
  have hused : (t.dirtied i).InUse i :=
    (own_dirtied t).inUse.mpr (h.own.inUse.mpr hi)
  have he : (s.lfltab i).lfdirptr < w.nfiles := hentry ▸ hdev.entry
  have ho' : Own i (t.dirtied i) s' := by
    have hback : Own i (t.dirtied i) t := by
      refine ⟨fun j hj => (lfltab_setFile_of_ne hj).symm, ?_, ?_, ?_, ?_, rfl,
        rfl⟩ <;> rw [lfltab_dirtied]
    exact hback.trans ho
  have hfile : (w.putByte (s.lfltab i).lfdirptr (s.lfltab i).lfpos ch).file
      (s.lfltab i).lfdirptr = { w.file (s.lfltab i).lfdirptr with
        ld_size := max (w.file (s.lfltab i).lfdirptr).ld_size
          ((s.lfltab i).lfpos + 1) } := putByte_file_self
  refine h.dirty.own h.inv hused ho' hdir rfl ?_ ?_ ?_ ?_
  · intro f hf' hne
    rw [lfltab_dirtied] at hne
    exact putByte_sameFile h.inv he hlt hf' (hentry ▸ hne)
  · rw [hf]
    refine ⟨hdev.entry, ?_, ?_, hdev.index, Or.inr ⟨?_, ?_⟩, ?_⟩
    · show (t.lfltab i).lfname = _
      rw [show ((t.lfltab i).putByte ch).lfdirptr = (s.lfltab i).lfdirptr from
        hentry, hfile]
      exact hentry ▸ hdev.name
    · show (t.lfltab i).lfpos + 1 ≤ _
      rw [show ((t.lfltab i).putByte ch).lfdirptr = (s.lfltab i).lfdirptr from
        hentry, hfile, h.pos]
      exact le_max_right _ _
    · show (t.lfltab i).lfdnum ∈ w.pointers (t.lfltab i).lfdirptr
      rw [hdnum, hentry]
      exact Volume.pointer_mem hlt
    · show Function.update (t.lfltab i).lfdblock (t.lfltab i).lfbyte ch =
        (w.putByte _ _ ch).block (t.lfltab i).lfdnum
      rw [hcopy, hdnum, hbyte]
      simp [Volume.putByte]
    · intro hin
      simp only [Lflcblk.putByte] at hin ⊢
      rw [hbyte] at hin
      rw [hentry, h.pos, hbyte]
      have hquot : ((s.lfltab i).lfpos + 1) / LF_BLKSIZ =
          (s.lfltab i).lfpos / LF_BLKSIZ := by
        simp only [LF_BLKSIZ] at hin ⊢
        omega
      refine ⟨?_, ?_, ?_⟩
      · simp only [LF_BLKSIZ] at hin ⊢
        omega
      · rw [hquot]
        exact hlt
      · rw [hquot]
        exact hdnum
  · intro n hothers hown
    rw [hdisk]
    rw [hf] at hown
    refine h.dirty.index_of_clean hothers ?_
    rw [lfltab_dirtied]
    exact hown
  · intro d hothers hown
    rw [hdisk]
    rw [hf] at hown
    have hne : d ≠ (t.lfltab i).lfdnum := fun heq => hown rfl heq.symm
    rw [putByte_block_other (by rw [← hdnum]; exact hne)]
    refine h.dirty.block_of_clean hothers ?_
    rw [lfltab_dirtied]
    exact fun _ => Ne.symm hne

/-- What a call does to its own pseudo-device and to the bytes. -/
structure CallDone (p : Pools) (i : ℕ) (s : Lfs) (v : Volume) (s' : Lfs)
    (v' : Volume) (bytes : List (BitVec 8)) (pos : ℕ) : Prop where
  ok : FilesOk p s' v'
  own : Own i s s'
  only : OnlyFile v v' (s.lfltab i).lfdirptr
  bytes : v'.bytes (s.lfltab i).lfdirptr = bytes
  pos : (s'.lfltab i).lfpos = pos

/-- The call needs the block of the position, and there is none for it. -/
def NoSpace (v : Volume) (f : Lflcblk) : Prop :=
  LF_BLKSIZ ≤ f.lfbyte ∧ Lacking v f

theorem FilesOk.only
    {v' : Volume} (h : FilesOk p s v) {e : ℕ} (hinv : VolumeInv p v')
    (hholds : Holds s' v') (honly : OnlyFile v v' e) (hfit : v'.Fitted e) :
    FilesOk p s' v' where
  inv := hinv
  holds := hholds
  fitted := fun f hf => by
    rw [honly.nfiles] at hf
    by_cases hne : f = e
    · rw [hne]
      exact hfit
    · exact (honly.other f hf hne).fitted (h.fitted f hf)
  names := honly.distinctNames h.inv hinv h.names

/-- The bytes of a file after one has been put at or before its end. -/
theorem putByte_bytes
    {e off : ℕ} (hv : VolumeInv p v) (he : e < v.nfiles)
    (hoff : off ≤ (v.file e).ld_size)
    (hroom : ∀ k ≤ max (v.file e).ld_size (off + 1) - 1,
      k / LF_BLKSIZ < v.room e) :
    (v.putByte e off ch).bytes e =
      (v.bytes e).take off ++ ch :: (v.bytes e).drop (off + 1) := by
  have hlt := hroom off (by omega)
  apply List.ext_getElem
  · rw [Volume.bytes_length, putByte_file_self]
    simp only [List.length_append, List.length_cons, List.length_take,
      List.length_drop, Volume.bytes_length]
    omega
  intro n hin hin'
  have hn := hin
  rw [Volume.bytes_length, putByte_file_self] at hn
  have hget : ((v.putByte e off ch).bytes e)[n] =
      (v.putByte e off ch).content e n := by
    simp [Volume.bytes]
  rw [hget, putByte_content hv he hlt (hroom n (Nat.le_sub_one_of_lt hn))]
  by_cases hbefore : n < off
  · rw [if_neg (by omega), List.getElem_append_left (by
      simp [Volume.bytes_length]
      omega)]
    simp [Volume.bytes]
  · rw [List.getElem_append_right (by simp [Volume.bytes_length]; omega)]
    have htake : ((v.bytes e).take off).length = off := by
      simp [Volume.bytes_length]
      omega
    by_cases heq : n = off
    · subst heq
      simp [htake]
    · rw [if_neg heq]
      obtain ⟨m, rfl⟩ : ∃ m, n = off + 1 + m := ⟨n - off - 1, by omega⟩
      have hidx : off + 1 + m - ((v.bytes e).take off).length = m + 1 := by
        rw [htake]
        omega
      simp only [hidx, List.getElem_cons_succ]
      simp [Volume.bytes]

theorem lflputc_spec
    (h : FilesOk p s v) (hi : s.InUse i) (hbudget : p.iblocks.length < budget)
    (ch : BitVec 8) :
    NoSpace v (s.lfltab i) ∧ s.lflputc budget i ch = none ∨
      ∃ s' v', s.lflputc budget i ch = some (s', OK.toInt) ∧
        CallDone p i s v s' v'
          ((v.bytes (s.lfltab i).lfdirptr).take (s.lfltab i).lfpos ++
            ch :: (v.bytes (s.lfltab i).lfdirptr).drop
              ((s.lfltab i).lfpos + 1))
          ((s.lfltab i).lfpos + 1) := by
  have hdev := h.holds.device i hi
  have hfit := h.fitted _ hdev.entry
  have hentry : s.entry i = v.file (s.lfltab i).lfdirptr := h.holds.entry_eq
  unfold Lfs.lflputc
  rw [if_neg (by rw [hi.2]; decide), hentry,
    if_neg (not_lt_of_ge hdev.pos)]
  rcases ensureBlock_spec h hi hbudget with ⟨hbyte, hlack, hnone⟩ |
    ⟨t, w, hsome, hready⟩
  · exact Or.inl ⟨⟨hbyte, hlack⟩, by rw [hnone]; rfl⟩
  right
  obtain ⟨hdev', hptr, hlt, -, -, -⟩ := hready.copy hi
  have he' : (s.lfltab i).lfdirptr < w.nfiles := hptr ▸ hdev'.entry
  have hsize := hready.extended.size
  have hdirw : t.lf_dir = w.dir := hready.dirty.dir
  have hentry' : t.entry i = w.file (s.lfltab i).lfdirptr := by
    unfold Lfs.entry
    rw [hdirw, hptr]
    rfl
  rw [hsome, Option.map_some]
  -- the directory after the size has been counted
  let t₁ := if (t.entry i).ld_size ≤ (t.lfltab i).lfpos then
      { t.setEntry (t.lfltab i).lfdirptr fun e =>
          { e with ld_size := e.ld_size + 1 } with lf_dirdirty := true }
    else t
  have htab₁ : t₁.lfltab = t.lfltab := by
    simp only [t₁]
    split <;> rfl
  have hdisk₁ : t₁.disk = t.disk := by
    simp only [t₁]
    split <;> rfl
  have hown₁ : Own i t t₁ := by
    refine .of_table htab₁ ?_ ?_ <;> simp only [t₁] <;> split <;> rfl
  have hdir₁ : t₁.lf_dir =
      (w.putByte (s.lfltab i).lfdirptr (s.lfltab i).lfpos ch).dir := by
    have hle := hdev.pos
    simp only [t₁]
    rw [hentry', hready.pos, hptr, hsize]
    split
    next hend =>
      have hmax : max (w.file (s.lfltab i).lfdirptr).ld_size
          ((s.lfltab i).lfpos + 1) =
            (w.file (s.lfltab i).lfdirptr).ld_size + 1 := by
        rw [hsize]
        omega
      rw [Volume.putByte, hmax]
      simp [Lfs.setEntry, Volume.file, hdirw]
    next hin =>
      have hmax : max (w.file (s.lfltab i).lfdirptr).ld_size
          ((s.lfltab i).lfpos + 1) =
            (w.file (s.lfltab i).lfdirptr).ld_size := by
        rw [hsize]
        omega
      rw [Volume.putByte, hmax]
      simp [Volume.file, hdirw]
  let s' := t₁.setFile i fun f => f.putByte ch
  have hf : s'.lfltab i = (t.lfltab i).putByte ch := by
    have hset : s'.lfltab i = (t₁.lfltab i).putByte ch := lfltab_setFile_self
    rw [hset, htab₁]
  have ho : Own i t s' := hown₁.trans (.setFile rfl rfl rfl rfl)
  have hholds : Holds s' (w.putByte (s.lfltab i).lfdirptr (s.lfltab i).lfpos
      ch) := hready.putByte hi hdir₁ ho hf hdisk₁
  have hinv : VolumeInv p (w.putByte (s.lfltab i).lfdirptr
      (s.lfltab i).lfpos ch) := hready.inv.putByte he' hlt
  have hfit' := hready.fitted hfit hdev.pos
  have hput : OnlyFile w (w.putByte (s.lfltab i).lfdirptr (s.lfltab i).lfpos ch)
      (s.lfltab i).lfdirptr :=
    ⟨rfl, fun f hf hne => putByte_sameFile hready.inv he' hlt hf hne,
      by rw [putByte_file_self]⟩
  have honly := hready.extended.onlyFile.trans hput h.inv
  refine ⟨s', _, rfl, ⟨h.only hinv hholds honly ⟨?_, hfit'.2⟩,
    hready.own.trans ho, honly, ?_, ?_⟩⟩
  · rw [putByte_file_self, hsize]
    exact hfit'.1
  · rw [putByte_bytes hready.inv he' (by rw [hsize]; exact hdev.pos),
      hready.extended.bytes hfit]
    intro k hk
    rw [hfit'.1]
    rw [hsize] at hk
    simp only [LF_BLKSIZ]
    omega
  · rw [hf, ← hready.pos]
    rfl

/-- A byte inside the file is always read. -/
theorem lflgetc_spec
    (h : FilesOk p s v) (hi : s.InUse i) (hbudget : p.iblocks.length < budget) :
    (v.file (s.lfltab i).lfdirptr).ld_size ≤ (s.lfltab i).lfpos ∧
        s.lflgetc budget i = some (s, EOF) ∨
      ∃ s' v', (s.lfltab i).lfpos < (v.file (s.lfltab i).lfdirptr).ld_size ∧
        s.lflgetc budget i = some (s',
          ((v.content (s.lfltab i).lfdirptr (s.lfltab i).lfpos).toNat : ℤ)) ∧
        CallDone p i s v s' v' (v.bytes (s.lfltab i).lfdirptr)
          ((s.lfltab i).lfpos + 1) := by
  have hdev := h.holds.device i hi
  have hfit := h.fitted _ hdev.entry
  have hentry : s.entry i = v.file (s.lfltab i).lfdirptr := h.holds.entry_eq
  unfold Lfs.lflgetc
  rw [if_neg (by rw [hi.2]; decide), hentry]
  by_cases hend : (v.file (s.lfltab i).lfdirptr).ld_size ≤ (s.lfltab i).lfpos
  · rw [if_pos hend]
    exact Or.inl ⟨hend, rfl⟩
  right
  rw [if_neg hend]
  have hin : (s.lfltab i).lfpos / LF_BLKSIZ < v.room (s.lfltab i).lfdirptr :=
    hfit.lt (by omega)
  have hroom := h.inv.room _ hdev.entry
  rcases ensureBlock_spec h hi hbudget with ⟨-, hlack, -⟩ |
    ⟨t, w, hsome, hready⟩
  · exfalso
    rcases hlack with hindex | ⟨hdata, -⟩
    · simp only [LF_IDATA, LF_BLKSIZ, LF_IBLEN] at hin hroom hindex
      omega
    · omega
  obtain ⟨hdev', hptr, hlt, hbyte, hdnum, hcopy⟩ := hready.copy hi
  have hholds := hready.clean hin
  have hused := hready.own.inUse.mpr hi
  let s' := t.setFile i fun f =>
    { f with lfbyte := f.lfbyte + 1, lfpos := f.lfpos + 1 }
  have hf : s'.lfltab i = { t.lfltab i with
      lfbyte := (t.lfltab i).lfbyte + 1, lfpos := (t.lfltab i).lfpos + 1 } :=
    lfltab_setFile_self
  have ho : Own i t s' := .setFile rfl rfl rfl rfl
  have hholds' : Holds s' w := by
    refine hholds.own hready.inv hused ho hholds.dir rfl
      (fun f _ _ => .refl w f) ?_ ?_ ?_
    · rw [hf]
      refine ⟨hdev'.entry, hdev'.name, ?_, hdev'.index, hdev'.data, ?_⟩
      · show (t.lfltab i).lfpos + 1 ≤ (w.file (t.lfltab i).lfdirptr).ld_size
        rw [hptr, hready.pos, hready.extended.size]
        omega
      · intro hnext
        simp only at hnext ⊢
        rw [hbyte] at hnext
        rw [hptr, hready.pos, hbyte]
        have hquot : ((s.lfltab i).lfpos + 1) / LF_BLKSIZ =
            (s.lfltab i).lfpos / LF_BLKSIZ := by
          simp only [LF_BLKSIZ] at hnext ⊢
          omega
        refine ⟨?_, ?_, ?_⟩
        · simp only [LF_BLKSIZ] at hnext ⊢
          omega
        · rw [hquot]
          exact hlt
        · rw [hquot]
          exact hdnum
    · intro n hothers hown
      rw [hf] at hown
      exact hholds.index_of_clean hothers hown
    · intro d hothers hown
      rw [hf] at hown
      exact hholds.block_of_clean hothers hown
  have hvalue : (t.lfltab i).lfdblock (t.lfltab i).lfbyte =
      v.content (s.lfltab i).lfdirptr (s.lfltab i).lfpos := by
    rw [← hready.extended.content hin, hcopy, hdnum, hbyte]
    rfl
  have hfit' : w.Fitted (s.lfltab i).lfdirptr := by
    obtain ⟨hroom', hchain'⟩ := hready.fitted hfit (by omega)
    refine ⟨?_, hchain'⟩
    rw [hroom', hready.extended.size]
    congr 2
    omega
  refine ⟨s', w, by omega, ?_, ⟨h.only hready.inv hholds'
    hready.extended.onlyFile hfit', hready.own.trans ho,
    hready.extended.onlyFile, hready.extended.bytes hfit, ?_⟩⟩
  · rw [hsome, Option.map_some, hvalue]
  · rw [hf, ← hready.pos]

end Bytes

/-! ## The position -/

section Seeking

variable {p : Pools} {s : Lfs} {v : Volume} {i offset : ℕ}

theorem lflseek_spec
    (h : FilesOk p s v) (hi : s.InUse i)
    (hoffset : offset ≤ (v.file (s.lfltab i).lfdirptr).ld_size) :
    ∃ s', s.lflseek i offset = (s', OK.toInt) ∧
      CallDone p i s v s' v (v.bytes (s.lfltab i).lfdirptr) offset := by
  have hdev := h.holds.device i hi
  have hentry : s.entry i = v.file (s.lfltab i).lfdirptr := h.holds.entry_eq
  unfold Lfs.lflseek
  rw [if_neg (by rw [hi.2]; decide), hentry, if_neg (by omega)]
  let s' := s.setFile i fun f =>
    { f with lfpos := offset, lfbyte := LF_BLKSIZ }
  have hf : s'.lfltab i =
      { s.lfltab i with lfpos := offset, lfbyte := LF_BLKSIZ } :=
    lfltab_setFile_self
  have ho : Own i s s' := .setFile rfl rfl rfl rfl
  have hholds : Holds s' v := by
    refine h.holds.own h.inv hi ho h.holds.dir rfl (fun f _ _ => .refl v f)
      ?_ ?_ ?_
    · rw [hf]
      exact ⟨hdev.entry, hdev.name, hoffset, hdev.index, hdev.data,
        fun hlt => absurd hlt (lt_irrefl _)⟩
    · intro n hothers hown
      rw [hf] at hown
      exact h.holds.index_of_clean hothers hown
    · intro d hothers hown
      rw [hf] at hown
      exact h.holds.block_of_clean hothers hown
  exact ⟨s', rfl, ⟨⟨h.inv, hholds, h.fitted, h.names⟩, ho, .refl v _, rfl,
    by rw [hf]⟩⟩

theorem lflseek_refused
    (h : FilesOk p s v) (hi : s.InUse i)
    (hoffset : (v.file (s.lfltab i).lfdirptr).ld_size < offset) :
    s.lflseek i offset = (s, SYSERR.toInt) := by
  have hentry : s.entry i = v.file (s.lfltab i).lfdirptr := h.holds.entry_eq
  unfold Lfs.lflseek
  rw [if_neg (by rw [hi.2]; decide), hentry, if_pos hoffset]

end Seeking

/-! ## The close -/

section Closing

variable {p : Pools} {s : Lfs} {v : Volume} {i : ℕ}

/-- The pseudo-device is free and its copies are on the disk. -/
theorem lflclose_spec (h : FilesOk p s v) (hi : s.InUse i) :
    ∃ s', s.lflclose i = (s', OK.toInt) ∧ FilesOk p s' v ∧
      (s'.lfltab i).lfstate = .free ∧
      ∀ j ≠ i, s'.lfltab j = s.lfltab j := by
  unfold Lfs.lflclose
  rw [if_neg (by rw [hi.2]; decide)]
  have hflush : ∃ s₀, (if s.lf_dirdirty || (s.lfltab i).lfdbdirty ||
        (s.lfltab i).lfibdirty then s.lfflush i else s) = s₀ ∧
      Holds s₀ v ∧ Own i s s₀ ∧ (s₀.lfltab i).lfibdirty = false ∧
        (s₀.lfltab i).lfdbdirty = false := by
    split
    next =>
      obtain ⟨hholds, hown, hf⟩ := lfflush_spec h.inv h.holds hi
      exact ⟨_, rfl, hholds, hown, by rw [hf], by rw [hf]⟩
    next hclean =>
      simp only [Bool.or_eq_true, not_or, Bool.not_eq_true] at hclean
      exact ⟨s, rfl, h.holds, .refl s, hclean.2, hclean.1.2⟩
  obtain ⟨s₀, hif, hholds, hown, hiclean, hdclean⟩ := hflush
  rw [hif]
  let s' := s₀.setFile i fun f => { f with lfstate := .free }
  have hf : s'.lfltab i = { s₀.lfltab i with lfstate := .free } :=
    lfltab_setFile_self
  have hother : ∀ j ≠ i, s'.lfltab j = s₀.lfltab j :=
    fun j hj => lfltab_setFile_of_ne hj
  have hused : ∀ j, s'.InUse j → j ≠ i ∧ s₀.InUse j := by
    intro j hj
    have hne : j ≠ i := by
      rintro rfl
      have hstate := hj.2
      rw [hf] at hstate
      cases hstate
    have hstate := hj.2
    rw [hother j hne] at hstate
    exact ⟨hne, hj.1, hstate⟩
  refine ⟨s', rfl, ⟨h.inv, ?_, h.fitted, h.names⟩, by rw [hf], fun j hj =>
    (hother j hj).trans (hown.others j hj)⟩
  refine ⟨hholds.dir, hholds.present, hholds.selected, ?_, ?_, ?_, ?_, ?_⟩
  · intro j hj
    by_cases hji : j = i
    · rw [hji, hf]
      exact hholds.devs i hi.1
    · rw [hother j hji]
      exact hholds.devs j hj
  · intro j hj
    obtain ⟨hne, hj₀⟩ := hused j hj
    rw [hother j hne]
    exact hholds.device j hj₀
  · intro j k hj hk heq
    obtain ⟨hne, hj₀⟩ := hused j hj
    obtain ⟨hne', hk₀⟩ := hused k hk
    rw [hother j hne, hother k hne'] at heq
    exact hholds.apart j k hj₀ hk₀ heq
  · intro n hclean
    refine hholds.index n fun j hj hdirty => ?_
    by_cases hji : j = i
    · rw [hji, hiclean] at hdirty
      cases hdirty
    · have hat := hclean j ⟨hj.1, by rw [hother j hji]; exact hj.2⟩
      rw [hother j hji] at hat
      exact hat hdirty
  · intro d hclean
    refine hholds.block d fun j hj hdirty => ?_
    by_cases hji : j = i
    · rw [hji, hdclean] at hdirty
      cases hdirty
    · have hat := hclean j ⟨hj.1, by rw [hother j hji]; exact hj.2⟩
      rw [hother j hji] at hat
      exact hat hdirty

end Closing

end Xinu.LocalFiles
