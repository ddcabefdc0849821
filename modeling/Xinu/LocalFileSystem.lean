import Xinu.LocalFileSpace
import Xinu.OutputRuns

/-!
# The local file system as a whole

All calls of the file system, on a state and on its view.  A call on the state
answers as the call on the view does, and it panics exactly if the files would
no longer fit on the disk.
-/

namespace Xinu.LocalFiles

open ByteMemory OutputRuns

def LF_CTL_TRUNC : ℤ := 2

/-- Truncation is the only function. -/
def Lfs.lflcontrol (s : Lfs) (budget i : ℕ) (func : ℤ) : Option (Lfs × ℤ) :=
  if (s.lfltab i).lfstate ≠ .used then some (s, SYSERR.toInt)
  else if func = LF_CTL_TRUNC then s.lflcontrolTrunc budget i
  else some (s, SYSERR.toInt)

inductive FsCall where
  | lfsopen (name mode : Name)
  | lflputc (i : Fin Nlfl) (ch : BitVec 8)
  | lflwrite (i : Fin Nlfl) (buff : List (BitVec 8))
  | lflgetc (i : Fin Nlfl)
  | lflread (i : Fin Nlfl) (count : ℕ)
  | lflseek (i : Fin Nlfl) (offset : ℕ)
  | lflcontrol (i : Fin Nlfl) (func : ℤ)
  | lflclose (i : Fin Nlfl)

/-- The pseudo-device that a call uses. -/
def FsCall.device : FsCall → Option (Fin Nlfl)
  | .lfsopen _ _ => none
  | .lflputc i _ => some i
  | .lflwrite i _ => some i
  | .lflgetc i => some i
  | .lflread i _ => some i
  | .lflseek i _ => some i
  | .lflcontrol i _ => some i
  | .lflclose i => some i

/-- The bytes stored into the buffer of the caller and the value returned. -/
abbrev Reply := List (BitVec 8) × ℤ

def Lfs.call (budget : ℕ) (s : Lfs) : FsCall → Option (Lfs × Reply)
  | .lfsopen name mode =>
      some ((s.lfsopen name mode).1, [], (s.lfsopen name mode).2)
  | .lflputc i ch => (s.lflputc budget i ch).map fun (s, r) => (s, [], r)
  | .lflwrite i buff => (s.lflwrite budget i buff).map fun (s, r) => (s, [], r)
  | .lflgetc i => (s.lflgetc budget i).map fun (s, r) => (s, [], r)
  | .lflread i count => s.lflread budget i count
  | .lflseek i offset =>
      some ((s.lflseek i offset).1, [], (s.lflseek i offset).2)
  | .lflcontrol i func =>
      (s.lflcontrol budget i func).map fun (s, r) => (s, [], r)
  | .lflclose i => some ((s.lflclose i).1, [], (s.lflclose i).2)

namespace Files

variable (fs : Files)

def control (i : ℕ) (func : ℤ) : Files × ℤ :=
  if func = LF_CTL_TRUNC then fs.truncate i else (fs, SYSERR.toInt)

def call : FsCall → Files × Reply
  | .lfsopen name mode => ((fs.open name mode).1, [], (fs.open name mode).2)
  | .lflputc i ch => ((fs.putc i ch).1, [], (fs.putc i ch).2)
  | .lflwrite i buff => ((fs.write i buff).1, [], (fs.write i buff).2)
  | .lflgetc i => ((fs.getc i).1, [], (fs.getc i).2)
  | .lflread i count => fs.read i count
  | .lflseek i offset => ((fs.seek i offset).1, [], (fs.seek i offset).2)
  | .lflcontrol i func => ((fs.control i func).1, [], (fs.control i func).2)
  | .lflclose i => ((fs.close i).1, [], (fs.close i).2)

end Files

/-- A call on a disk with these numbers of blocks. -/
def Files.callWithin (iblks dblks : ℕ) (fs : Files) (c : FsCall) :
    Option (Files × Reply) :=
  if (fs.call c).1.Fits iblks dblks then some (fs.call c) else none

/-- The directory is in memory after the first open that needs it. -/
def Lfs.loaded (s : Lfs) : Lfs :=
  if s.lf_dirpresent then s
  else { s with lf_dir := s.disk.dir, lf_dirpresent := true }

/-- The state between calls, with the directory in memory or not. -/
structure FsInv (p : Pools) (s : Lfs) (v : Volume) : Prop where
  ok : FilesOk p s.loaded v
  idle : s.lf_dirpresent = false → ∀ i, ¬ s.InUse i

section Loading

variable {p : Pools} {s s' : Lfs} {v : Volume} {i : ℕ} {name mode : Name}

theorem loaded_of_present (h : s.lf_dirpresent = true) : s.loaded = s := by
  simp [Lfs.loaded, h]

theorem loaded_lfltab : s.loaded.lfltab = s.lfltab := by
  unfold Lfs.loaded
  split <;> rfl

theorem loaded_dskdev : s.loaded.lf_dskdev = s.lf_dskdev := by
  unfold Lfs.loaded
  split <;> rfl

theorem view_congr (h : s'.lfltab = s.lfltab) : view s' v = view s v := by
  have hopened : (view s' v).opened = (view s v).opened := by
    funext i
    have hused : s'.InUse i ↔ s.InUse i := by
      unfold Lfs.InUse
      rw [h]
    simp only [view, hused, h]
  exact congrArg (Files.mk _) hopened

theorem FilesOk.fsInv (h : FilesOk p s v) : FsInv p s v := by
  have hpresent := h.holds.present
  refine ⟨?_, fun habsent => ?_⟩
  · rw [loaded_of_present hpresent]
    exact h
  · rw [hpresent] at habsent
    cases habsent

/-- A file is open only after the directory has been read. -/
theorem FsInv.opened (h : FsInv p s v) (hi : s.InUse i) : FilesOk p s v := by
  have hpresent : s.lf_dirpresent = true := by
    by_contra habsent
    exact h.idle (by simpa using habsent) i hi
  have hok := h.ok
  rwa [loaded_of_present hpresent] at hok

theorem scanDevices_congr
    (htab : s'.lfltab = s.lfltab) (l : List ℕ) (lfnext : Option ℕ) :
    s'.scanDevices name l lfnext = s.scanDevices name l lfnext := by
  rw [scanDevices_eq, scanDevices_eq, htab]

/-- Every open works on the directory of the disk. -/
theorem FsInv.lfsopen_eq (h : FsInv p s v) :
    s.lfsopen name mode =
      match s.openScan name mode with
      | none => (s, SYSERR.toInt)
      | some (mbits, lfnext) => s.loaded.openEntry name mbits lfnext := by
  unfold Lfs.lfsopen
  cases s.openScan name mode with
  | none => rfl
  | some found =>
      obtain ⟨mbits, lfnext⟩ := found
      dsimp only
      cases hpresent : s.lf_dirpresent with
      | true => rw [if_pos rfl, loaded_of_present hpresent]
      | false =>
          have hloaded : s.loaded =
              { s with lf_dir := s.disk.dir, lf_dirpresent := true } := by
            simp [Lfs.loaded, hpresent]
          have hcheck := h.ok.inv.check
          rw [← h.ok.holds.dir, hloaded] at hcheck
          have hread : s.readDirectory = some s.loaded := by
            unfold Lfs.readDirectory
            rw [hloaded]
            exact if_pos hcheck
          rw [if_neg (by decide), hread]

theorem lfsopen_view (h : FsInv p s v) (name mode : Name) :
    ∃ v', FsInv p (s.lfsopen name mode).1 v' ∧
      (view s v).open name mode =
        (view (s.lfsopen name mode).1 v', (s.lfsopen name mode).2) := by
  have hselected := h.ok.holds.selected
  rw [loaded_dskdev] at hselected
  have hfreeDevice := h.ok.freeDevice name
  rw [scanDevices_congr loaded_lfltab, view_congr loaded_lfltab] at hfreeDevice
  rw [h.lfsopen_eq]
  unfold Files.open
  rw [hfreeDevice]
  by_cases hlong : LF_NAME_LEN ≤ name.length
  · have hscan : s.openScan name mode = none := by
      unfold Lfs.openScan
      rw [if_neg (by omega), if_pos hlong]
    rw [if_pos hlong, hscan]
    exact ⟨v, h, rfl⟩
  rw [if_neg hlong]
  have hscan : s.openScan name mode = (lfgetmode mode).bind fun mbits =>
      (s.scanDevices name (List.range Nlfl) none).map fun lfnext =>
        (mbits, lfnext) := by
    unfold Lfs.openScan
    rw [if_neg (by omega), if_neg hlong]
  cases hmode : lfgetmode mode with
  | none =>
      rw [hmode] at hscan
      rw [hscan]
      exact ⟨v, h, rfl⟩
  | some mbits =>
      rw [hmode, Option.bind_some] at hscan
      cases hdev : s.scanDevices name (List.range Nlfl) none with
      | none =>
          rw [hdev] at hscan
          rw [hscan]
          exact ⟨v, h, rfl⟩
      | some i =>
          rw [hdev, Option.map_some] at hscan
          obtain ⟨hi, hfresh⟩ := openScan_spec hscan
          rw [hscan]
          dsimp only
          have hunused : ∀ j, s.loaded.InUse j →
              (s.loaded.lfltab j).lfname ≠ name := by
            intro j hj
            rw [Lfs.InUse, loaded_lfltab] at hj
            rw [loaded_lfltab]
            exact hfresh.2 j hj.1 hj.2
          obtain ⟨v', hok, hview⟩ := h.ok.openEntry hi
            (by rw [loaded_lfltab]; exact hfresh.1) hunused mbits
          rw [view_congr loaded_lfltab] at hview
          exact ⟨v', hok.fsInv, hview⟩

end Loading

/-! ## Calls on a pseudo-device that is not open -/

section Closed

variable {s : Lfs} {v : Volume} {i budget count offset : ℕ}
  {buff : List (BitVec 8)} {ch : BitVec 8}

theorem lfstate_of_closed (hi : i < Nlfl) (hclosed : ¬ s.InUse i) :
    (s.lfltab i).lfstate ≠ .used :=
  fun hused => hclosed ⟨hi, hused⟩

theorem lflwrite_closed (hstate : (s.lfltab i).lfstate ≠ .used) :
    s.lflwrite budget i buff =
      some (s, if buff = [] then 0 else SYSERR.toInt) := by
  unfold Lfs.lflwrite
  cases buff with
  | nil => simp [Lfs.writeLoop]
  | cons ch buff => simp [Lfs.writeLoop, Lfs.lflputc, hstate]

theorem lflread_closed (hstate : (s.lfltab i).lfstate ≠ .used) :
    s.lflread budget i count =
      some (s, [], if count = 0 then 0 else SYSERR.toInt) := by
  unfold Lfs.lflread
  cases count with
  | zero => simp [Lfs.readLoop]
  | succ count => simp [Lfs.readLoop, Lfs.lflgetc, hstate]

/-- A call changes nothing and has one answer. -/
def Refused (budget : ℕ) (s : Lfs) (v : Volume) (c : FsCall) : Prop :=
  ∃ r, s.call budget c = some (s, r) ∧ (view s v).call c = (view s v, r)

theorem call_closed
    {c : FsCall} {i : Fin Nlfl} (budget : ℕ) (v : Volume)
    (hclosed : ¬ s.InUse i) (hc : c.device = some i) :
    Refused budget s v c := by
  have hstate := lfstate_of_closed i.isLt hclosed
  have hview : (view s v).opened i = none := view_closed hclosed
  cases c <;> cases hc
  case lflputc ch =>
    exact ⟨_, by simp only [Lfs.call, Lfs.lflputc, if_pos hstate]; rfl,
      by simp only [Files.call, Files.putc, hview]⟩
  case lflwrite buff =>
    exact ⟨_, by simp only [Lfs.call, lflwrite_closed hstate]; rfl,
      by simp only [Files.call, Files.write, hview]⟩
  case lflgetc =>
    exact ⟨_, by simp only [Lfs.call, Lfs.lflgetc, if_pos hstate]; rfl,
      by simp only [Files.call, Files.getc, hview]⟩
  case lflread count =>
    exact ⟨_, by simp only [Lfs.call, lflread_closed hstate]; rfl,
      by simp only [Files.call, Files.read, hview]⟩
  case lflseek offset =>
    exact ⟨_, by simp only [Lfs.call, Lfs.lflseek, if_pos hstate]; rfl,
      by simp only [Files.call, Files.seek, hview]⟩
  case lflcontrol func =>
    refine ⟨_, by simp only [Lfs.call, Lfs.lflcontrol, if_pos hstate]; rfl, ?_⟩
    simp only [Files.call, Files.control, Files.truncate, hview]
    split <;> rfl
  case lflclose =>
    exact ⟨_, by simp only [Lfs.call, Lfs.lflclose, if_pos hstate]; rfl,
      by simp only [Files.call, Files.close, hview]⟩

end Closed

/-! ## One call -/

/-- What a call on a state gives, and what it gives on the view. -/
def Agrees (p : Pools) (out : Option (Lfs × Reply)) (want : Files × Reply) :
    Prop :=
  match out with
  | none => ¬ want.1.Fits p.iblocks.length p.dblocks.length
  | some (s, r) => ∃ v, FsInv p s v ∧ want = (view s v, r)

section Calls

variable {p : Pools} {s s' : Lfs} {v v' : Volume} {budget : ℕ} {c : FsCall}

theorem Refused.agrees (hc : Refused budget s v c) (h : FsInv p s v) :
    Agrees p (s.call budget c) ((view s v).call c) := by
  obtain ⟨r, hcall, hview⟩ := hc
  rw [hcall, hview]
  exact ⟨v, h, rfl⟩

theorem FsInv.fits (h : FsInv p s v) :
    (view s v).Fits p.iblocks.length p.dblocks.length := by
  have hfits := h.ok.fits
  rwa [view_congr loaded_lfltab] at hfits

theorem call_agrees
    (h : FsInv p s v) (hbudget : p.iblocks.length < budget) (c : FsCall) :
    Agrees p (s.call budget c) ((view s v).call c) := by
  cases c with
  | lfsopen name mode =>
      obtain ⟨v', hinv, hview⟩ := lfsopen_view h name mode
      exact ⟨v', hinv, by simp only [Files.call, hview]⟩
  | lflputc i ch =>
      by_cases hi : s.InUse i
      · have hok := h.opened hi
        rcases putc_view hok hi hbudget ch with ⟨-, hnone⟩ |
          ⟨s', v', hsome, hok', hview⟩
        · simp only [Lfs.call, hnone, Option.map_none]
          exact lflputc_full hok hi hbudget hnone
        · simp only [Lfs.call, hsome, Option.map_some]
          exact ⟨v', hok'.fsInv, by simp only [Files.call, hview]⟩
      · exact (call_closed budget v hi rfl).agrees h
  | lflwrite i buff =>
      by_cases hi : s.InUse i
      · have hok := h.opened hi
        cases hwrite : s.lflwrite budget i buff with
        | none =>
            simp only [Lfs.call, hwrite, Option.map_none]
            exact lflwrite_full hok hi hbudget hwrite
        | some out =>
            obtain ⟨s', r⟩ := out
            obtain ⟨v', hok', hview⟩ := write_view hok hi hbudget hwrite
            simp only [Lfs.call, hwrite, Option.map_some]
            exact ⟨v', hok'.fsInv, by simp only [Files.call, hview]⟩
      · exact (call_closed budget v hi rfl).agrees h
  | lflgetc i =>
      by_cases hi : s.InUse i
      · obtain ⟨s', v', r, hsome, hok', hview⟩ :=
          getc_view (h.opened hi) hi hbudget
        simp only [Lfs.call, hsome, Option.map_some]
        exact ⟨v', hok'.fsInv, by simp only [Files.call, hview]⟩
      · exact (call_closed budget v hi rfl).agrees h
  | lflread i count =>
      by_cases hi : s.InUse i
      · obtain ⟨s', v', bytes, r, hsome, hok', hview⟩ :=
          read_view (h.opened hi) hi hbudget count
        simp only [Lfs.call, hsome]
        exact ⟨v', hok'.fsInv, by simp only [Files.call, hview]⟩
      · exact (call_closed budget v hi rfl).agrees h
  | lflseek i offset =>
      by_cases hi : s.InUse i
      · obtain ⟨s', r, hseek, hok', hview⟩ :=
          seek_view (h.opened hi) hi offset
        simp only [Lfs.call, hseek]
        exact ⟨v, hok'.fsInv, by simp only [Files.call, hview]⟩
      · exact (call_closed budget v hi rfl).agrees h
  | lflcontrol i func =>
      by_cases hi : s.InUse i
      · have hstate : ¬ (s.lfltab i).lfstate ≠ .used := not_not.mpr hi.2
        by_cases hfunc : func = LF_CTL_TRUNC
        · obtain ⟨s', v', hsome, hok', hview⟩ :=
            truncate_view (h.opened hi) hi hbudget
          simp only [Lfs.call, Lfs.lflcontrol, if_neg hstate, if_pos hfunc,
            hsome, Option.map_some]
          exact ⟨v', hok'.fsInv,
            by simp only [Files.call, Files.control, if_pos hfunc, hview]⟩
        · simp only [Lfs.call, Lfs.lflcontrol, if_neg hstate, if_neg hfunc,
            Option.map_some, Files.call, Files.control]
          exact ⟨v, h, rfl⟩
      · exact (call_closed budget v hi rfl).agrees h
  | lflclose i =>
      by_cases hi : s.InUse i
      · obtain ⟨s', hclose, hok', hview⟩ := close_view (h.opened hi) hi
        simp only [Lfs.call, hclose]
        exact ⟨v, hok'.fsInv, by simp only [Files.call, hview]⟩
      · exact (call_closed budget v hi rfl).agrees h

/-- A state and the files that it holds. -/
def Shows (p : Pools) (s : Lfs) (fs : Files) : Prop :=
  ∃ v, FsInv p s v ∧ fs = view s v

theorem call_alike
    {fs : Files} (h : Shows p s fs) (hbudget : p.iblocks.length < budget)
    (c : FsCall) :
    Alike (Shows p) (s.call budget c)
      (Files.callWithin p.iblocks.length p.dblocks.length fs c) := by
  obtain ⟨v, hinv, rfl⟩ := h
  have hagrees := call_agrees hinv hbudget c
  unfold Files.callWithin
  cases hcall : s.call budget c with
  | none =>
      rw [hcall] at hagrees
      rw [if_neg hagrees]
      exact .none
  | some out =>
      obtain ⟨s', r⟩ := out
      rw [hcall] at hagrees
      obtain ⟨v', hinv', hwant⟩ := hagrees
      rw [hwant, if_pos hinv'.fits]
      exact .some ⟨⟨v', hinv', rfl⟩, rfl⟩

end Calls

end Xinu.LocalFiles
