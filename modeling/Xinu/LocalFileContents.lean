import Xinu.LocalFileTruncate

/-!
# Local files as names and bytes

What the callers of a local file system see: the names of the files, the bytes
of each, and a position in every open one.  Each call on an open file does to
the state what it should do to this view.
-/

namespace Xinu.LocalFiles

open ByteMemory

structure OpenFile where
  /-- The index of the file in the directory. -/
  file : ℕ
  pos : ℕ
  deriving DecidableEq

structure Files where
  files : List (Name × List (BitVec 8))
  opened : ℕ → Option OpenFile

/-- The bytes of a file after some of them have been written at a position. -/
def overwrite (bytes : List (BitVec 8)) (pos : ℕ) (buff : List (BitVec 8)) :
    List (BitVec 8) :=
  bytes.take pos ++ buff ++ bytes.drop (pos + buff.length)

namespace Files

variable (fs : Files)

def bytes (e : ℕ) : List (BitVec 8) := (fs.files.getD e ([], [])).2

/-- The open file of pseudo-device `i` has other bytes and another position. -/
def change (i : ℕ) (o : OpenFile) (bytes : List (BitVec 8)) (pos : ℕ) :
    Files where
  files := fs.files.modify o.file fun f => (f.1, bytes)
  opened := Function.update fs.opened i (some { o with pos := pos })

def putc (i : ℕ) (ch : BitVec 8) : Files × ℤ :=
  match fs.opened i with
  | none => (fs, SYSERR.toInt)
  | some o => (fs.change i o (overwrite (fs.bytes o.file) o.pos [ch])
      (o.pos + 1), OK.toInt)

def write (i : ℕ) (buff : List (BitVec 8)) : Files × ℤ :=
  match fs.opened i with
  | none => (fs, if buff = [] then 0 else SYSERR.toInt)
  | some o => (fs.change i o (overwrite (fs.bytes o.file) o.pos buff)
      (o.pos + buff.length), buff.length)

def getc (i : ℕ) : Files × ℤ :=
  match fs.opened i with
  | none => (fs, SYSERR.toInt)
  | some o =>
      match (fs.bytes o.file)[o.pos]? with
      | none => (fs, EOF)
      | some ch => (fs.change i o (fs.bytes o.file) (o.pos + 1), ch.toNat)

/-- The bytes read and the value returned. -/
def read (i count : ℕ) : Files × List (BitVec 8) × ℤ :=
  match fs.opened i with
  | none => (fs, [], if count = 0 then 0 else SYSERR.toInt)
  | some o =>
      let buff := ((fs.bytes o.file).drop o.pos).take count
      (fs.change i o (fs.bytes o.file) (o.pos + buff.length), buff,
        if buff = [] ∧ count ≠ 0 then EOF else buff.length)

def seek (i offset : ℕ) : Files × ℤ :=
  match fs.opened i with
  | none => (fs, SYSERR.toInt)
  | some o =>
      if (fs.bytes o.file).length < offset then (fs, SYSERR.toInt)
      else (fs.change i o (fs.bytes o.file) offset, OK.toInt)

def truncate (i : ℕ) : Files × ℤ :=
  match fs.opened i with
  | none => (fs, SYSERR.toInt)
  | some o => (fs.change i o [] 0, OK.toInt)

def close (i : ℕ) : Files × ℤ :=
  match fs.opened i with
  | none => (fs, SYSERR.toInt)
  | some _ =>
      ({ fs with opened := Function.update fs.opened i none }, OK.toInt)

/-- The first pseudo-device that is free, unless the file is open. -/
def freeDevice (name : Name) : Option ℕ :=
  if (List.range Nlfl).any fun i => ((fs.opened i).map fun o =>
      (fs.files.getD o.file ([], [])).1) = some name then none
  else (List.range Nlfl).find? fun i => (fs.opened i).isNone

/-- A pseudo-device is opened for a file. -/
def claim (i e : ℕ) : Files :=
  { fs with opened := Function.update fs.opened i (some ⟨e, 0⟩) }

/-- What an open does with a free pseudo-device. -/
def openEntry (name : Name) (mbits i : ℕ) : Files × ℤ :=
  match fs.files.findIdx? fun f => f.1 = name with
  | none =>
      if mbits &&& LF_MODE_O ≠ 0 then (fs, SYSERR.toInt)
      else if LF_NUM_DIR_ENT ≤ fs.files.length then (fs, SYSERR.toInt)
      else ({ fs with files := fs.files ++ [(name, [])] }.claim i
        fs.files.length, 18 + i)
  | some e =>
      if mbits &&& LF_MODE_N ≠ 0 then (fs, SYSERR.toInt)
      else (fs.claim i e, 18 + i)

def «open» (name mode : Name) : Files × ℤ :=
  if LF_NAME_LEN ≤ name.length then (fs, SYSERR.toInt)
  else
    match lfgetmode mode with
    | none => (fs, SYSERR.toInt)
    | some mbits =>
        match fs.freeDevice name with
        | none => (fs, SYSERR.toInt)
        | some i => fs.openEntry name mbits i

end Files

instance (s : Lfs) (i : ℕ) : Decidable (s.InUse i) :=
  inferInstanceAs (Decidable (_ ∧ _))

/-- The view of a state that holds a volume. -/
def view (s : Lfs) (v : Volume) : Files where
  files := (List.range v.nfiles).map fun e => ((v.file e).ld_name, v.bytes e)
  opened := fun i =>
    if s.InUse i then some ⟨(s.lfltab i).lfdirptr, (s.lfltab i).lfpos⟩ else none

/-! ## Overwriting -/

section Overwriting

variable {bytes buff : List (BitVec 8)} {pos : ℕ} {ch : BitVec 8}

theorem overwrite_nil : overwrite bytes pos [] = bytes := by
  simp [overwrite]

theorem overwrite_overwrite (hpos : pos ≤ bytes.length) :
    overwrite (overwrite bytes pos [ch]) (pos + 1) buff =
      overwrite bytes pos (ch :: buff) := by
  have hlen : (bytes.take pos ++ [ch]).length = pos + 1 := by
    simp
    omega
  have hdrop : (bytes.take pos ++ [ch]).drop (pos + 1 + buff.length) = [] := by
    rw [List.drop_eq_nil_iff]
    omega
  unfold overwrite
  rw [List.length_singleton, List.take_left' hlen, List.drop_append, hlen,
    hdrop, List.nil_append, List.drop_drop, List.length_cons]
  simp only [List.append_assoc, List.singleton_append]
  have hsame : pos + 1 + (pos + 1 + buff.length - (pos + 1)) =
      pos + (buff.length + 1) := by omega
  rw [hsame]

end Overwriting

/-! ## The view of a state -/

section Views

variable {p : Pools} {s s' s'' : Lfs} {v v' v'' : Volume} {i budget : ℕ}
  {b b' : List (BitVec 8)} {q q' : ℕ}

theorem view_opened (hi : s.InUse i) :
    (view s v).opened i =
      some ⟨(s.lfltab i).lfdirptr, (s.lfltab i).lfpos⟩ := by
  simp [view, hi]

theorem view_closed (hi : ¬ s.InUse i) : (view s v).opened i = none := by
  simp [view, hi]

theorem view_getD {e : ℕ} (he : e < v.nfiles) :
    (view s v).files.getD e ([], []) = ((v.file e).ld_name, v.bytes e) := by
  rw [List.getD_eq_getElem _ _ (by simpa [view] using he)]
  simp [view]

theorem view_bytes {e : ℕ} (he : e < v.nfiles) :
    (view s v).bytes e = v.bytes e := by
  unfold Files.bytes
  rw [view_getD he]

theorem CallDone.refl (h : FilesOk p s v) :
    CallDone p i s v s v (v.bytes (s.lfltab i).lfdirptr) (s.lfltab i).lfpos :=
  ⟨h, .refl s, .refl v _, rfl, rfl⟩

theorem CallDone.trans
    (h : CallDone p i s v s' v' b q) (h' : CallDone p i s' v' s'' v'' b' q')
    (hv : VolumeInv p v) : CallDone p i s v s'' v'' b' q' := by
  obtain ⟨hok, hown, honly, hbytes, hpos⟩ := h'
  rw [h.own.entry] at honly hbytes
  exact ⟨hok, h.own.trans hown, h.only.trans honly hv, hbytes, hpos⟩

/-- A call on an open file changes the view of that file. -/
theorem CallDone.view
    (h : CallDone p i s v s' v' b q) (hok : FilesOk p s v) (hi : s.InUse i) :
    LocalFiles.view s' v' = (LocalFiles.view s v).change i
      ⟨(s.lfltab i).lfdirptr, (s.lfltab i).lfpos⟩ b q := by
  have he := (hok.holds.device i hi).entry
  have hfiles : (LocalFiles.view s' v').files =
      (LocalFiles.view s v).files.modify (s.lfltab i).lfdirptr
        fun f => (f.1, b) := by
    apply List.ext_getElem
    · simp [LocalFiles.view, h.only.nfiles]
    intro e hlt _
    have he' : e < v.nfiles := by
      simpa [LocalFiles.view, h.only.nfiles] using hlt
    rw [List.getElem_modify]
    by_cases heq : (s.lfltab i).lfdirptr = e
    · simp [LocalFiles.view, ← heq, h.only.name, h.bytes]
    · have hsame := h.only.other e he' (Ne.symm heq)
      simp [LocalFiles.view, heq, hsame.file,
        hsame.bytes hok.inv he' (hok.fitted e he')]
  have hopened : (LocalFiles.view s' v').opened =
      Function.update (LocalFiles.view s v).opened i
        (some ⟨(s.lfltab i).lfdirptr, q⟩) := by
    funext j
    by_cases hj : j = i
    · subst hj
      rw [view_opened (h.own.inUse.mpr hi), Function.update_self, h.own.entry,
        h.pos]
    · rw [Function.update_of_ne hj]
      simp only [LocalFiles.view, h.own.inUse, h.own.others j hj]
  unfold Files.change
  rw [← hfiles, ← hopened]

end Views

/-! ## Calls on a pseudo-device that is open -/

section OpenCalls

variable {p : Pools} {s s' : Lfs} {v : Volume} {i budget count offset : ℕ}
  {buff : List (BitVec 8)} {ch : BitVec 8}

theorem putc_view
    (h : FilesOk p s v) (hi : s.InUse i) (hbudget : p.iblocks.length < budget)
    (ch : BitVec 8) :
    NoSpace v (s.lfltab i) ∧ s.lflputc budget i ch = none ∨
      ∃ s' v', s.lflputc budget i ch = some (s', OK.toInt) ∧
        FilesOk p s' v' ∧ (view s v).putc i ch = (view s' v', OK.toInt) := by
  rcases lflputc_spec h hi hbudget ch with hnone |
    ⟨s', v', hsome, hdone⟩
  · exact Or.inl hnone
  · have he := (h.holds.device i hi).entry
    refine Or.inr ⟨s', v', hsome, hdone.ok, ?_⟩
    simp only [Files.putc, view_opened hi, view_bytes he]
    rw [hdone.view h hi]
    simp [overwrite]

/-- The loop of a write that ends has written all bytes. -/
theorem writeLoop_spec
    {done : Bool} (h : FilesOk p s v) (hi : s.InUse i)
    (hbudget : p.iblocks.length < budget)
    (hrun : Lfs.writeLoop budget i buff s = some (s', done)) :
    done = true ∧ ∃ v', CallDone p i s v s' v'
      (overwrite (v.bytes (s.lfltab i).lfdirptr) (s.lfltab i).lfpos buff)
      ((s.lfltab i).lfpos + buff.length) := by
  induction buff generalizing s v with
  | nil =>
      simp only [Lfs.writeLoop, Option.some.injEq, Prod.mk.injEq] at hrun
      obtain ⟨rfl, rfl⟩ := hrun
      refine ⟨rfl, v, ?_⟩
      rw [overwrite_nil]
      exact .refl h
  | cons ch buff ih =>
      rw [Lfs.writeLoop, Option.bind_eq_some_iff] at hrun
      obtain ⟨⟨s₁, status⟩, hput, hrest⟩ := hrun
      rcases lflputc_spec h hi hbudget ch with ⟨-, hnone⟩ |
        ⟨s₁', v₁, hsome, hdone⟩
      · rw [hnone] at hput
        cases hput
      rw [hsome, Option.some.injEq, Prod.mk.injEq] at hput
      obtain ⟨rfl, rfl⟩ := hput
      have hne : OK.toInt ≠ SYSERR.toInt := by decide
      simp only [if_neg hne] at hrest
      have hi₁ := hdone.own.inUse.mpr hi
      obtain ⟨htrue, v₂, hdone₂⟩ := ih hdone.ok hi₁ hrest
      have hpos : (s.lfltab i).lfpos ≤
          (v.bytes (s.lfltab i).lfdirptr).length := by
        rw [Volume.bytes_length]
        exact (h.holds.device i hi).pos
      have hput : (v.bytes (s.lfltab i).lfdirptr).take (s.lfltab i).lfpos ++
          ch :: (v.bytes (s.lfltab i).lfdirptr).drop ((s.lfltab i).lfpos + 1) =
            overwrite (v.bytes (s.lfltab i).lfdirptr) (s.lfltab i).lfpos
              [ch] := by
        simp [overwrite]
      rw [hdone.own.entry, hdone.bytes, hdone.pos, hput,
        overwrite_overwrite hpos] at hdone₂
      refine ⟨htrue, v₂, ?_⟩
      have hall := hdone.trans hdone₂ h.inv
      rwa [List.length_cons, Nat.add_comm buff.length, ← Nat.add_assoc]

theorem write_view
    {r : ℤ} (h : FilesOk p s v) (hi : s.InUse i)
    (hbudget : p.iblocks.length < budget)
    (hrun : s.lflwrite budget i buff = some (s', r)) :
    ∃ v', FilesOk p s' v' ∧ (view s v).write i buff = (view s' v', r) := by
  have he := (h.holds.device i hi).entry
  unfold Lfs.lflwrite at hrun
  rw [Option.map_eq_some_iff] at hrun
  obtain ⟨⟨s₁, done⟩, hloop, heq⟩ := hrun
  obtain ⟨rfl, v', hdone⟩ := writeLoop_spec h hi hbudget hloop
  simp only [if_true, Prod.mk.injEq] at heq
  obtain ⟨rfl, rfl⟩ := heq
  refine ⟨v', hdone.ok, ?_⟩
  simp only [Files.write, view_opened hi, view_bytes he]
  rw [hdone.view h hi]

theorem content_toNat_ne (n : BitVec 8) :
    ¬ ((n.toNat : ℤ) = SYSERR.toInt ∨ (n.toNat : ℤ) = EOF) := by
  have hsyserr : SYSERR.toInt = -1 := by decide
  rw [hsyserr, EOF]
  omega

theorem Volume.bytes_getElem? {e off : ℕ} (hoff : off < (v.file e).ld_size) :
    (v.bytes e)[off]? = some (v.content e off) := by
  simp [Volume.bytes, hoff]

theorem getc_view
    (h : FilesOk p s v) (hi : s.InUse i) (hbudget : p.iblocks.length < budget) :
    ∃ s' v' r, s.lflgetc budget i = some (s', r) ∧ FilesOk p s' v' ∧
      (view s v).getc i = (view s' v', r) := by
  have he := (h.holds.device i hi).entry
  rcases lflgetc_spec h hi hbudget with ⟨hend, hsome⟩ |
    ⟨s', v', hin, hsome, hdone⟩
  · refine ⟨s, v, _, hsome, h, ?_⟩
    have hnone : (v.bytes (s.lfltab i).lfdirptr)[(s.lfltab i).lfpos]? =
        none := by
      rw [List.getElem?_eq_none_iff, Volume.bytes_length]
      exact hend
    simp only [Files.getc, view_opened hi, view_bytes he, hnone]
  · refine ⟨s', v', _, hsome, hdone.ok, ?_⟩
    simp only [Files.getc, view_opened hi, view_bytes he,
      Volume.bytes_getElem? hin]
    rw [hdone.view h hi]

/-- The loop of a read ends at the end of the file. -/
theorem readLoop_spec
    (h : FilesOk p s v) (hi : s.InUse i) (hbudget : p.iblocks.length < budget)
    (count : ℕ) :
    ∃ s' v', Lfs.readLoop budget i count s = some (s',
        ((v.bytes (s.lfltab i).lfdirptr).drop (s.lfltab i).lfpos).take count,
        if (v.file (s.lfltab i).lfdirptr).ld_size - (s.lfltab i).lfpos < count
          then some EOF else none) ∧
      CallDone p i s v s' v' (v.bytes (s.lfltab i).lfdirptr)
        ((s.lfltab i).lfpos +
          min count ((v.file (s.lfltab i).lfdirptr).ld_size -
            (s.lfltab i).lfpos)) := by
  induction count generalizing s v with
  | zero =>
      refine ⟨s, v, by simp [Lfs.readLoop], ?_⟩
      rw [Nat.zero_min, Nat.add_zero]
      exact .refl h
  | succ count ih =>
      rw [Lfs.readLoop]
      rcases lflgetc_spec h hi hbudget with ⟨hend, hsome⟩ |
        ⟨s₁, v₁, hin, hsome, hdone⟩
      · -- the end of the file
        have hdrop : (v.bytes (s.lfltab i).lfdirptr).drop (s.lfltab i).lfpos =
            [] := by
          rw [List.drop_eq_nil_iff, Volume.bytes_length]
          exact hend
        have hzero : (v.file (s.lfltab i).lfdirptr).ld_size -
            (s.lfltab i).lfpos = 0 := by omega
        refine ⟨s, v, ?_, ?_⟩
        · rw [hsome, Option.bind_some, hdrop, hzero]
          simp
        · rw [hzero, Nat.min_zero, Nat.add_zero]
          exact .refl h
      · have hi₁ := hdone.own.inUse.mpr hi
        obtain ⟨s₂, v₂, hloop, hdone₂⟩ := ih hdone.ok hi₁
        have hsize : (v₁.file (s.lfltab i).lfdirptr).ld_size =
            (v.file (s.lfltab i).lfdirptr).ld_size := by
          rw [← Volume.bytes_length, hdone.bytes, Volume.bytes_length]
        rw [hdone.own.entry, hdone.bytes, hdone.pos, hsize] at hloop hdone₂
        have hbyte : BitVec.ofInt 8
            ((v.content (s.lfltab i).lfdirptr (s.lfltab i).lfpos).toNat : ℤ) =
              v.content (s.lfltab i).lfdirptr (s.lfltab i).lfpos := by
          rw [BitVec.ofInt_natCast, BitVec.ofNat_toNat, BitVec.setWidth_eq]
        have hget : (v.bytes (s.lfltab i).lfdirptr).drop (s.lfltab i).lfpos =
            v.content (s.lfltab i).lfdirptr (s.lfltab i).lfpos ::
              (v.bytes (s.lfltab i).lfdirptr).drop
                ((s.lfltab i).lfpos + 1) := by
          have hlt : (s.lfltab i).lfpos <
              (v.bytes (s.lfltab i).lfdirptr).length := by
            rw [Volume.bytes_length]
            exact hin
          rw [List.drop_eq_getElem_cons hlt]
          simp [Volume.bytes]
        refine ⟨s₂, v₂, ?_, ?_⟩
        · rw [hsome, Option.bind_some]
          simp only [content_toNat_ne, if_false]
          rw [hloop, Option.map_some, hbyte, hget, List.take_succ_cons]
          congr 3
          split_ifs <;> first | rfl | omega
        · have hall := hdone.trans hdone₂ h.inv
          have hmin : (s.lfltab i).lfpos + 1 + min count
              ((v.file (s.lfltab i).lfdirptr).ld_size -
                ((s.lfltab i).lfpos + 1)) =
              (s.lfltab i).lfpos + min (count + 1)
                ((v.file (s.lfltab i).lfdirptr).ld_size -
                  (s.lfltab i).lfpos) := by
            omega
          rwa [hmin] at hall

theorem read_view
    (h : FilesOk p s v) (hi : s.InUse i) (hbudget : p.iblocks.length < budget)
    (count : ℕ) :
    ∃ s' v' bytes r, s.lflread budget i count = some (s', bytes, r) ∧
      FilesOk p s' v' ∧ (view s v).read i count = (view s' v', bytes, r) := by
  have he := (h.holds.device i hi).entry
  obtain ⟨s', v', hloop, hdone⟩ := readLoop_spec h hi hbudget count
  have hlen : (((v.bytes (s.lfltab i).lfdirptr).drop
      (s.lfltab i).lfpos).take count).length =
        min count ((v.file (s.lfltab i).lfdirptr).ld_size -
          (s.lfltab i).lfpos) := by
    simp [Volume.bytes_length]
  refine ⟨s', v', ((v.bytes (s.lfltab i).lfdirptr).drop
      (s.lfltab i).lfpos).take count,
    if ((v.bytes (s.lfltab i).lfdirptr).drop
      (s.lfltab i).lfpos).take count = [] ∧ count ≠ 0 then EOF
    else ((((v.bytes (s.lfltab i).lfdirptr).drop
      (s.lfltab i).lfpos).take count).length : ℤ), ?_, hdone.ok, ?_⟩
  rotate_left
  · simp only [Files.read, view_opened hi, view_bytes he]
    rw [hdone.view h hi, hlen]
  · unfold Lfs.lflread
    rw [hloop, Option.map_some]
    have hsyserr : EOF ≠ SYSERR.toInt := by decide
    by_cases hshort : (v.file (s.lfltab i).lfdirptr).ld_size -
        (s.lfltab i).lfpos < count
    · simp only [if_pos hshort, hsyserr, if_false]
      have hcount : count ≠ 0 := by omega
      by_cases hnil : ((v.bytes (s.lfltab i).lfdirptr).drop
          (s.lfltab i).lfpos).take count = []
      · simp [hnil, hcount]
      · simp [hnil]
    · simp only [if_neg hshort]
      have hall : (((v.bytes (s.lfltab i).lfdirptr).drop
          (s.lfltab i).lfpos).take count).length = count := by
        rw [hlen]
        omega
      have hnil : ¬ (((v.bytes (s.lfltab i).lfdirptr).drop
          (s.lfltab i).lfpos).take count = [] ∧ count ≠ 0) := by
        rintro ⟨hnil, hcount⟩
        rw [hnil] at hall
        exact hcount hall.symm
      rw [if_neg hnil, hall]

theorem seek_view (h : FilesOk p s v) (hi : s.InUse i) (offset : ℕ) :
    ∃ s' r, s.lflseek i offset = (s', r) ∧ FilesOk p s' v ∧
      (view s v).seek i offset = (view s' v, r) := by
  have he := (h.holds.device i hi).entry
  by_cases hoffset : (v.file (s.lfltab i).lfdirptr).ld_size < offset
  · refine ⟨s, _, lflseek_refused h hi hoffset, h, ?_⟩
    simp only [Files.seek, view_opened hi, view_bytes he, Volume.bytes_length,
      if_pos hoffset]
  · obtain ⟨s', hseek, hdone⟩ := lflseek_spec h hi (by omega : offset ≤ _)
    refine ⟨s', _, hseek, hdone.ok, ?_⟩
    simp only [Files.seek, view_opened hi, view_bytes he, Volume.bytes_length,
      if_neg hoffset]
    rw [hdone.view h hi]

theorem truncate_view
    (h : FilesOk p s v) (hi : s.InUse i) (hbudget : p.iblocks.length < budget) :
    ∃ s' v', s.lflcontrolTrunc budget i = some (s', OK.toInt) ∧
      FilesOk p s' v' ∧ (view s v).truncate i = (view s' v', OK.toInt) := by
  obtain ⟨s', v', hsome, hdone⟩ := lftruncate_spec h hi hbudget
  refine ⟨s', v', ?_, hdone.ok, ?_⟩
  · unfold Lfs.lflcontrolTrunc
    rw [if_neg (by rw [hi.2]; decide), hsome]
    rfl
  · simp only [Files.truncate, view_opened hi]
    rw [hdone.view h hi]

theorem close_view (h : FilesOk p s v) (hi : s.InUse i) :
    ∃ s', s.lflclose i = (s', OK.toInt) ∧ FilesOk p s' v ∧
      (view s v).close i = (view s' v, OK.toInt) := by
  obtain ⟨s', hclose, hok, hfree, hother⟩ := lflclose_spec h hi
  refine ⟨s', hclose, hok, ?_⟩
  simp only [Files.close, view_opened hi]
  have hopened : (view s' v).opened =
      Function.update (view s v).opened i none := by
    funext j
    by_cases hj : j = i
    · subst hj
      rw [Function.update_self]
      apply view_closed
      intro hused
      rw [hused.2] at hfree
      cases hfree
    · have hused : s'.InUse j ↔ s.InUse j := by
        unfold Lfs.InUse
        rw [hother j hj]
      rw [Function.update_of_ne hj]
      simp only [view, hused, hother j hj]
  rw [← hopened]
  rfl

end OpenCalls

end Xinu.LocalFiles
