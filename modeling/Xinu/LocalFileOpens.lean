import Xinu.LocalFiles
import Xinu.TransitionSystem

/-!
# Concurrent opens of local files

`lfsopen` scans the pseudo-devices, waits for the mutex of the directory, reads
the directory if it is not in memory, and claims the pseudo-device that its
scan has picked.  A process gives the processor away only while it waits for
the mutex or for the transfer.
-/

namespace Xinu.LocalFiles

open TransitionSystem

/-! ## The interleaved calls -/

/-- What an open carries over from its scan. -/
structure Opening where
  name : Name
  mbits : ℕ
  lfnext : ℕ

/-- Where a process is in `lfsopen`. -/
inductive OpenPc where
  | outside
  /-- On the queue of the mutex. -/
  | blocked (o : Opening)
  /-- With the mutex, about to go on after `wait`. -/
  | entered (o : Opening)
  /-- With the mutex, in the read of the directory. -/
  | reading (o : Opening)

/-- The opens of all processes.  The number of opens of a device that have
succeeded since it was last closed is kept only for reasoning. -/
structure Opens where
  fs : Lfs
  mutex : ℤ
  queue : List ℤ
  pc : ℤ → OpenPc
  holders : ℤ → ℕ

inductive OpenAction where
  | call (pid : ℤ) (name mode : Name)
  | resume (pid : ℤ)
  /-- The transfer of the directory ends, well or not. -/
  | readDone (pid : ℤ) (good : Bool)
  | close (i : ℕ)

namespace Opens

variable (s : Opens)

def setPc (pid : ℤ) (pc : OpenPc) : Opens :=
  { s with pc := Function.update s.pc pid pc }

/-- `signal(Lf_data.lf_mutex)`. -/
def release : Opens :=
  let count := s.mutex
  let s := { s with mutex := count + 1 }
  if count < 0 then
    match s.queue with
    | [] => s
    | pid :: rest =>
        match s.pc pid with
        | .blocked o => { s with queue := rest }.setPc pid (.entered o)
        | _ => { s with queue := rest }
  else s

/-- Count a device that an open has returned. -/
def record (dev : ℤ) : Opens :=
  if dev = SYSERR.toInt then s
  else
    { s with holders := Function.update s.holders dev (s.holders dev + 1) }

/-- The end of `lfsopen`, with the directory in memory. -/
def finish (pid : ℤ) (o : Opening) : Opens :=
  let (fs, dev) := s.fs.openEntry o.name o.mbits o.lfnext
  ({ s with fs := fs }.record dev).release.setPc pid .outside

/-- `lfsopen` after the wait on the mutex. -/
def goOn (pid : ℤ) (o : Opening) : Opens :=
  if s.fs.lf_dirpresent then s.finish pid o else s.setPc pid (.reading o)

/-- `wait(Lf_data.lf_mutex)` and what follows. -/
def enter (pid : ℤ) (o : Opening) : Opens :=
  let s := { s with mutex := s.mutex - 1 }
  if s.mutex < 0 then
    { s with queue := s.queue ++ [pid] }.setPc pid (.blocked o)
  else s.goOn pid o

/-- `lfsopen` after the read of the directory. -/
def readDone (pid : ℤ) (o : Opening) (good : Bool) : Opens :=
  if good then
    match s.fs.readDirectory with
    | none =>
        { s with fs := { s.fs with lf_dir := s.fs.disk.dir } }.release.setPc pid
          .outside
    | some fs => { s with fs := fs }.finish pid o
  else s.release.setPc pid .outside

def step : OpenAction → Option Opens
  | .call pid name mode =>
      match s.pc pid with
      | .outside =>
          match s.fs.openScan name mode with
          | none => some s
          | some (mbits, lfnext) => some (s.enter pid ⟨name, mbits, lfnext⟩)
      | _ => none
  | .resume pid =>
      match s.pc pid with
      | .entered o => some (s.goOn pid o)
      | _ => none
  | .readDone pid good =>
      match s.pc pid with
      | .reading o => some (s.readDone pid o good)
      | _ => none
  | .close i =>
      if i < Nlfl then
        let (fs, status) := s.fs.lflclose i
        if status = SYSERR.toInt then some { s with fs := fs }
        else
          some { s with
            fs := fs
            holders := Function.update s.holders (s.fs.lfltab i).lfdev 0 }
      else none

end Opens

/-! ## What the opens should keep -/

/-- No two entries of a directory have one name. -/
def DistinctNames (dir : Lfdir) : Prop :=
  ∀ e e' : ℕ, (e : ℤ) < dir.lfd_nfiles → (e' : ℤ) < dir.lfd_nfiles →
    (dir.lfd_files e).ld_name = (dir.lfd_files e').ld_name → e = e'

def Lfs.InUse (fs : Lfs) (i : ℕ) : Prop :=
  i < Nlfl ∧ (fs.lfltab i).lfstate = .used

structure OpensLaw (s : Opens) : Prop where
  exclusive : ∀ dev, s.holders dev ≤ 1
  single : ∀ i j, s.fs.InUse i → s.fs.InUse j →
    (s.fs.lfltab i).lfname = (s.fs.lfltab j).lfname → i = j
  entries : s.fs.lf_dirpresent = true → DistinctNames s.fs.lf_dir

/-- The directory and the mode let the open succeed. -/
def accepts (dir : Lfdir) (o : Opening) : Bool :=
  match Lfs.findEntry dir o.name with
  | none => o.mbits &&& LF_MODE_O = 0 && dir.lfd_nfiles < LF_NUM_DIR_ENT
  | some _ => o.mbits &&& LF_MODE_N = 0

/-- What the scan has found is still so. -/
def Fresh (fs : Lfs) (o : Opening) : Prop :=
  (fs.lfltab o.lfnext).lfstate = .free ∧
    ∀ i < Nlfl, (fs.lfltab i).lfstate = .used → (fs.lfltab i).lfname ≠ o.name

instance (fs : Lfs) (o : Opening) : Decidable (Fresh fs o) :=
  inferInstanceAs (Decidable (_ ∧ _))

/-- An open that goes on after it has been blocked, and that succeeds, finds
its pseudo-device still free and its file still not open. -/
def StillFresh (s : Opens) : OpenAction → Prop
  | .resume pid =>
      match s.pc pid with
      | .entered o => s.fs.lf_dirpresent = true →
          accepts s.fs.lf_dir o = true → Fresh s.fs o
      | _ => True
  | .readDone pid good =>
      match s.pc pid with
      | .reading o => good = true → lfscheck s.fs.disk.dir = true →
          accepts s.fs.disk.dir o = true → Fresh s.fs o
      | _ => True
  | _ => True

instance (s : Opens) (action : OpenAction) : Decidable (StillFresh s action) :=
  match action with
  | .call _ _ _ | .close _ => inferInstanceAs (Decidable True)
  | .resume pid => by
      dsimp only [StillFresh]
      cases s.pc pid <;> infer_instance
  | .readDone pid _ => by
      dsimp only [StillFresh]
      cases s.pc pid <;> infer_instance

/-! ## The mutex -/

def OpenPc.inside : OpenPc → Bool
  | .entered _ | .reading _ => true
  | _ => false

def OpenPc.waits : OpenPc → Bool
  | .blocked _ => true
  | _ => false

/-- The opening that a process is at. -/
def OpenPc.opening : OpenPc → Option Opening
  | .outside => none
  | .blocked o | .entered o | .reading o => some o

structure MutexInv (s : Opens) : Prop where
  one : ∀ p q, (s.pc p).inside = true → (s.pc q).inside = true → p = q
  count : (s.mutex = 1 ∧ s.queue = [] ∧ ∀ p, (s.pc p).inside = false) ∨
    (s.mutex = -(s.queue.length : ℤ) ∧ ∃ p, (s.pc p).inside = true)
  waits : ∀ p, p ∈ s.queue ↔ (s.pc p).waits = true
  nodup : s.queue.Nodup

section Mutex

variable {s : Opens} {pid : ℤ} {o : Opening}

theorem pc_setPc_self (s : Opens) (pid : ℤ) (pc : OpenPc) :
    (s.setPc pid pc).pc pid = pc := by
  simp [Opens.setPc]

theorem pc_setPc_of_ne (s : Opens) {p pid : ℤ} (pc : OpenPc) (hp : p ≠ pid) :
    (s.setPc pid pc).pc p = s.pc p := by
  simp [Opens.setPc, hp]

theorem release_fs (s : Opens) : s.release.fs = s.fs := by
  unfold Opens.release
  dsimp only
  split_ifs
  · split
    · rfl
    · split <;> rfl
  · rfl

theorem release_holders (s : Opens) : s.release.holders = s.holders := by
  unfold Opens.release
  dsimp only
  split_ifs
  · split
    · rfl
    · split <;> rfl
  · rfl

theorem release_pc (s : Opens) (p : ℤ) :
    s.release.pc p = s.pc p ∨
      ∃ o, s.pc p = .blocked o ∧ s.release.pc p = .entered o := by
  unfold Opens.release
  dsimp only
  split_ifs
  · split
    · exact Or.inl rfl
    · split
      next _ q _ _ _ o hq =>
        by_cases hp : p = q
        · exact Or.inr ⟨o, hp ▸ hq, by simp [Opens.setPc, hp]⟩
        · exact Or.inl (by simp [Opens.setPc, hp])
      · exact Or.inl rfl
  · exact Or.inl rfl

theorem release_setPc {pc : OpenPc} (hpid : pid ∉ s.queue) :
    (s.setPc pid pc).release.setPc pid .outside =
      s.release.setPc pid .outside := by
  unfold Opens.release
  dsimp only [Opens.setPc]
  split_ifs
  · cases hqueue : s.queue with
    | nil => simp [Opens.setPc]
    | cons q rest =>
        have hq : q ≠ pid := by
          rintro rfl
          exact hpid (by simp [hqueue])
        dsimp only
        rw [Function.update_of_ne hq]
        cases s.pc q with
        | blocked o =>
            dsimp only [Opens.setPc]
            rw [Function.update_comm hq.symm, Function.update_idem,
              Function.update_comm hq]
        | _ => simp [Opens.setPc]
  · simp [Opens.setPc]

/-- What `signal` does for the process with the mutex. -/
theorem MutexInv.release_cases
    (h : MutexInv s) (hin : (s.pc pid).inside = true) :
    (s.queue = [] ∧ s.release = { s with mutex := 1 }) ∨
      ∃ q o rest, s.queue = q :: rest ∧ s.pc q = .blocked o ∧
        s.release = ({ s with mutex := s.mutex + 1, queue := rest }.setPc q
          (.entered o)) := by
  have hmutex : s.mutex = -(s.queue.length : ℤ) := by
    rcases h.count with ⟨-, -, hnone⟩ | ⟨hmutex, -⟩
    · rw [hnone pid] at hin
      cases hin
    · exact hmutex
  unfold Opens.release
  cases hqueue : s.queue with
  | nil =>
      rw [hqueue] at hmutex
      have hzero : s.mutex = 0 := by simpa using hmutex
      left
      refine ⟨rfl, ?_⟩
      dsimp only
      rw [if_neg (by omega), hzero]
      rfl
  | cons q rest =>
      rw [hqueue, List.length_cons] at hmutex
      have hwait := (h.waits q).mp (by simp [hqueue])
      right
      cases hpc : s.pc q with
      | blocked o =>
          refine ⟨q, o, rest, rfl, hpc, ?_⟩
          dsimp only
          rw [if_pos (by omega), hpc]
      | outside => simp [hpc, OpenPc.waits] at hwait
      | entered o => simp [hpc, OpenPc.waits] at hwait
      | reading o => simp [hpc, OpenPc.waits] at hwait

/-- The process with the mutex gives it to the first one that waits. -/
theorem MutexInv.release (h : MutexInv s) (hin : (s.pc pid).inside = true) :
    MutexInv (s.release.setPc pid .outside) := by
  have hmutex : s.mutex = -(s.queue.length : ℤ) := by
    rcases h.count with ⟨-, -, hnone⟩ | ⟨hmutex, -⟩
    · rw [hnone pid] at hin
      cases hin
    · exact hmutex
  have hpid : pid ∉ s.queue := by
    intro hmem
    have hwait := (h.waits pid).mp hmem
    cases hpc : s.pc pid <;> simp [hpc, OpenPc.inside, OpenPc.waits] at hin hwait
  rcases h.release_cases hin with ⟨hqueue, hs⟩ | ⟨q, o, rest, hqueue, hq, hs⟩
  · have hothers : ∀ p, ((s.release.setPc pid .outside).pc p).inside = false := by
      intro p
      by_cases hp : p = pid
      · rw [hp, pc_setPc_self]
        rfl
      · rw [pc_setPc_of_ne _ _ hp, hs]
        by_contra hne
        exact hp (h.one p pid (by simpa using hne) hin)
    refine ⟨?_, Or.inl ⟨?_, ?_, hothers⟩, ?_, ?_⟩
    · intro p p' hp
      rw [hothers] at hp
      cases hp
    · rw [hs]
      rfl
    · rw [hs]
      exact hqueue
    · intro p
      rw [hs]
      show p ∈ s.queue ↔ _
      by_cases hp : p = pid
      · rw [hp, pc_setPc_self]
        simpa [OpenPc.waits] using hpid
      · rw [pc_setPc_of_ne _ _ hp]
        exact h.waits p
    · rw [hs]
      exact h.nodup
  · have hnodup := h.nodup
    rw [hqueue, List.nodup_cons] at hnodup
    have hqpid : q ≠ pid := by
      rintro rfl
      exact hpid (by simp [hqueue])
    have hpc : ∀ p, (s.release.setPc pid .outside).pc p =
        if p = pid then .outside else if p = q then .entered o else s.pc p := by
      intro p
      split_ifs with hp hpq
      · rw [hp, pc_setPc_self]
      · rw [pc_setPc_of_ne _ _ hp, hs, hpq, pc_setPc_self]
      · rw [pc_setPc_of_ne _ _ hp, hs, pc_setPc_of_ne _ _ hpq]
    have hin' : ∀ p, ((s.release.setPc pid .outside).pc p).inside = true →
        p = q := by
      intro p hp
      rw [hpc] at hp
      split_ifs at hp with hpp hpq
      · simp [OpenPc.inside] at hp
      · exact hpq
      · exact absurd (h.one p pid hp hin) hpp
    refine ⟨?_, Or.inr ⟨?_, q, ?_⟩, ?_, ?_⟩
    · intro p p' hp hp'
      rw [hin' p hp, hin' p' hp']
    · rw [hs]
      show s.mutex + 1 = -(rest.length : ℤ)
      rw [hmutex, hqueue, List.length_cons]
      omega
    · rw [hpc, if_neg hqpid, if_pos rfl]
      rfl
    · intro p
      rw [hpc, hs]
      show p ∈ rest ↔ _
      have hwaits := h.waits p
      rw [hqueue, List.mem_cons] at hwaits
      split_ifs with hpp hpq
      · rw [hpp]
        constructor
        · exact fun hmem => absurd (by simp [hqueue, hmem]) hpid
        · exact fun hw => by simp [OpenPc.waits] at hw
      · rw [hpq]
        constructor
        · exact fun hmem => absurd hmem hnodup.1
        · exact fun hw => by simp [OpenPc.waits] at hw
      · rw [← hwaits]
        simp [hpq]
    · rw [hs]
      exact hnodup.2

/-- A process joins the queue of the mutex. -/
theorem MutexInv.wait
    (h : MutexInv s) (hout : s.pc pid = .outside) (hcount : s.mutex - 1 < 0) :
    MutexInv ({ s with mutex := s.mutex - 1, queue := s.queue ++ [pid] }.setPc
      pid (.blocked o)) := by
  obtain ⟨hmutex, q, hq⟩ : s.mutex = -(s.queue.length : ℤ) ∧
      ∃ p, (s.pc p).inside = true := by
    rcases h.count with ⟨hone, -⟩ | hrest
    · omega
    · exact hrest
  have hpid : pid ∉ s.queue := by
    rw [h.waits, hout]
    simp [OpenPc.waits]
  have hin : ∀ p, (({ s with
      mutex := s.mutex - 1, queue := s.queue ++ [pid] }.setPc
      pid (.blocked o)).pc p).inside = (s.pc p).inside := by
    intro p
    by_cases hp : p = pid
    · rw [hp, pc_setPc_self, hout]
      rfl
    · rw [pc_setPc_of_ne _ _ hp]
  refine ⟨?_, Or.inr ⟨?_, q, ?_⟩, ?_, ?_⟩
  · intro p p' hp hp'
    rw [hin] at hp hp'
    exact h.one p p' hp hp'
  · show s.mutex - 1 = -((s.queue ++ [pid]).length : ℤ)
    rw [List.length_append, List.length_singleton, hmutex]
    push_cast
    omega
  · rwa [hin]
  · intro p
    show p ∈ s.queue ++ [pid] ↔ _
    rw [List.mem_append, List.mem_singleton, h.waits]
    by_cases hp : p = pid
    · rw [hp, pc_setPc_self]
      simp [OpenPc.waits]
    · rw [pc_setPc_of_ne _ _ hp]
      simp [hp]
  · show (s.queue ++ [pid]).Nodup
    rw [List.nodup_append]
    refine ⟨h.nodup, List.nodup_singleton pid, ?_⟩
    intro p hp p' hp' heq
    rw [List.mem_singleton.mp hp'] at heq
    exact hpid (heq ▸ hp)

theorem MutexInv.take
    {pc : OpenPc} (h : MutexInv s) (hcount : ¬ s.mutex - 1 < 0) (hpc : pc.inside = true) :
    MutexInv ({ s with mutex := s.mutex - 1 }.setPc pid pc) := by
  obtain ⟨hmutex, hqueue, hnone⟩ : s.mutex = 1 ∧ s.queue = [] ∧
      ∀ p, (s.pc p).inside = false := by
    rcases h.count with hfree | ⟨hheld, -⟩
    · exact hfree
    · omega
  have hwaits : pc.waits = false := by
    cases pc <;> simp [OpenPc.inside, OpenPc.waits] at hpc ⊢
  have hin : ∀ p, (({ s with mutex := s.mutex - 1 }.setPc pid pc).pc
      p).inside = true → p = pid := by
    intro p hp
    by_contra hne
    rw [pc_setPc_of_ne _ _ hne] at hp
    exact absurd hp (by simp [hnone p])
  refine ⟨?_, Or.inr ⟨?_, pid, ?_⟩, ?_, h.nodup⟩
  · intro p p' hp hp'
    rw [hin p hp, hin p' hp']
  · show s.mutex - 1 = -(s.queue.length : ℤ)
    rw [hmutex, hqueue]
    rfl
  · rw [pc_setPc_self]
    exact hpc
  · intro p
    show p ∈ s.queue ↔ _
    by_cases hp : p = pid
    · rw [hp, pc_setPc_self, hwaits, hqueue]
      simp
    · rw [pc_setPc_of_ne _ _ hp]
      exact h.waits p

/-- The process with the mutex goes on with it. -/
theorem MutexInv.keep
    {pc : OpenPc} (h : MutexInv s) (hin : (s.pc pid).inside = true)
    (hpc : pc.inside = true) : MutexInv (s.setPc pid pc) := by
  have hw : ∀ {pc : OpenPc}, pc.inside = true → pc.waits = false := by
    intro pc hpc
    cases pc <;> simp [OpenPc.inside, OpenPc.waits] at hpc ⊢
  have hsame : ∀ p, ((s.setPc pid pc).pc p).inside = (s.pc p).inside ∧
      ((s.setPc pid pc).pc p).waits = (s.pc p).waits := by
    intro p
    by_cases hp : p = pid
    · rw [hp, pc_setPc_self, hin, hpc, hw hin, hw hpc]
      exact ⟨rfl, rfl⟩
    · rw [pc_setPc_of_ne _ _ hp]
      exact ⟨rfl, rfl⟩
  refine ⟨?_, ?_, ?_, h.nodup⟩
  · intro p p' hp hp'
    rw [(hsame _).1] at hp hp'
    exact h.one p p' hp hp'
  · rcases h.count with ⟨hone, hqueue, hnone⟩ | ⟨hmutex, q, hq⟩
    · rw [hnone pid] at hin
      cases hin
    · refine Or.inr ⟨hmutex, q, ?_⟩
      rw [(hsame q).1]
      exact hq
  · intro p
    rw [(hsame p).2]
    exact h.waits p

end Mutex

/-! ## The devices and the directory -/

structure FilesInv (fs : Lfs) (holders : ℤ → ℕ) : Prop where
  devs : ∀ i < Nlfl, (fs.lfltab i).lfdev = 18 + i
  used : ∀ i < Nlfl,
    holders (18 + i) = if (fs.lfltab i).lfstate = .used then 1 else 0
  others : ∀ dev, (∀ i < Nlfl, dev ≠ 18 + (i : ℤ)) → holders dev = 0
  single : ∀ i j, fs.InUse i → fs.InUse j →
    (fs.lfltab i).lfname = (fs.lfltab j).lfname → i = j
  present : ∀ i, fs.InUse i → fs.lf_dirpresent = true
  entries : fs.lf_dirpresent = true →
    DistinctNames fs.lf_dir ∧ 0 ≤ fs.lf_dir.lfd_nfiles
  disk : fs.lf_dirpresent = false → DistinctNames fs.disk.dir

section Files

variable {fs : Lfs} {holders : ℤ → ℕ} {i e mbits : ℕ} {name : Name}

theorem lfltab_claimDevice_of_ne {j : ℕ} (hj : j ≠ i) :
    (fs.claimDevice i e mbits name).lfltab j = fs.lfltab j := by
  simp [Lfs.claimDevice, Lfs.setFile, hj]

theorem lfltab_claimDevice_self :
    ((fs.claimDevice i e mbits name).lfltab i).lfstate = .used ∧
      ((fs.claimDevice i e mbits name).lfltab i).lfname = name ∧
      ((fs.claimDevice i e mbits name).lfltab i).lfdev =
        (fs.lfltab i).lfdev := by
  simp [Lfs.claimDevice, Lfs.setFile]

/-- A free pseudo-device is claimed for a file that is not open. -/
theorem FilesInv.claim
    (h : FilesInv fs holders) (hi : i < Nlfl)
    (hpresent : fs.lf_dirpresent = true)
    (hfresh : (fs.lfltab i).lfstate = .free ∧
      ∀ j < Nlfl, (fs.lfltab j).lfstate = .used → (fs.lfltab j).lfname ≠ name) :
    FilesInv (fs.claimDevice i e mbits name)
      (Function.update holders (18 + i) (holders (18 + i) + 1)) := by
  obtain ⟨hstate, hname, hdev⟩ := @lfltab_claimDevice_self fs i e mbits name
  have hcases : ∀ j, (fs.claimDevice i e mbits name).InUse j →
      j = i ∨ j ≠ i ∧ fs.InUse j := by
    intro j hj
    by_cases heq : j = i
    · exact Or.inl heq
    · right
      refine ⟨heq, hj.1, ?_⟩
      have hused := hj.2
      rwa [lfltab_claimDevice_of_ne heq] at hused
  refine ⟨?_, ?_, ?_, ?_, fun _ _ => hpresent, h.entries, h.disk⟩
  · intro j hj
    by_cases heq : j = i
    · rw [heq, hdev]
      exact h.devs i hi
    · rw [lfltab_claimDevice_of_ne heq]
      exact h.devs j hj
  · intro j hj
    by_cases heq : j = i
    · rw [heq, Function.update_self, hstate, if_pos rfl, h.used i hi,
        hfresh.1]
      rfl
    · rw [Function.update_of_ne (by omega), lfltab_claimDevice_of_ne heq]
      exact h.used j hj
  · intro dev hdev
    rw [Function.update_of_ne (hdev i hi)]
    exact h.others dev hdev
  · intro j j' hj hj' heq
    rcases hcases j hj with rfl | ⟨hne, hused⟩
    · rcases hcases j' hj' with rfl | ⟨hne', hused'⟩
      · rfl
      · rw [hname, lfltab_claimDevice_of_ne hne'] at heq
        exact absurd heq.symm (hfresh.2 j' hused'.1 hused'.2)
    · rcases hcases j' hj' with rfl | ⟨hne', hused'⟩
      · rw [hname, lfltab_claimDevice_of_ne hne] at heq
        exact absurd heq (hfresh.2 j hused.1 hused.2)
      · rw [lfltab_claimDevice_of_ne hne, lfltab_claimDevice_of_ne hne'] at heq
        exact h.single j j' hused hused' heq

theorem findEntry_none
    {dir : Lfdir} (hfind : Lfs.findEntry dir name = none) {e : ℕ}
    (he : (e : ℤ) < dir.lfd_nfiles) : (dir.lfd_files e).ld_name ≠ name := by
  unfold Lfs.findEntry at hfind
  have hat := List.find?_eq_none.mp hfind e (List.mem_range.mpr (by omega))
  simpa using hat

/-- A file that is not in the directory gets an entry. -/
theorem FilesInv.addEntry
    (h : FilesInv fs holders) (hpresent : fs.lf_dirpresent = true)
    (hfind : Lfs.findEntry fs.lf_dir name = none) :
    FilesInv (fs.addEntry name) holders := by
  obtain ⟨hdistinct, hpos⟩ := h.entries hpresent
  have hfiles : ∀ e : ℕ, ((fs.addEntry name).lf_dir.lfd_files e).ld_name =
      if e = fs.lf_dir.lfd_nfiles.toNat then name
      else (fs.lf_dir.lfd_files e).ld_name := by
    intro e
    by_cases he : e = fs.lf_dir.lfd_nfiles.toNat
    · simp [Lfs.addEntry, Lfs.setEntry, he]
    · simp [Lfs.addEntry, Lfs.setEntry, he]
  have hcount : (fs.addEntry name).lf_dir.lfd_nfiles =
      fs.lf_dir.lfd_nfiles + 1 := rfl
  refine ⟨h.devs, h.used, h.others, h.single, h.present, ?_, h.disk⟩
  intro _
  refine ⟨?_, by omega⟩
  intro e e' he he' heq
  rw [hcount] at he he'
  rw [hfiles, hfiles] at heq
  split_ifs at heq with hnew hnew' hnew'
  · rw [hnew, hnew']
  · exact absurd heq.symm (findEntry_none hfind (by omega))
  · exact absurd heq (findEntry_none hfind (by omega))
  · exact hdistinct e e' (by omega) (by omega) heq

end Files

section Steps

variable {s s' : Opens} {pid : ℤ} {o : Opening}

/-- The search of the directory and the claim keep the devices apart. -/
theorem FilesInv.openEntry
    (h : FilesInv s.fs s.holders) (hpresent : s.fs.lf_dirpresent = true)
    (hslot : o.lfnext < Nlfl)
    (hfresh : accepts s.fs.lf_dir o = true → Fresh s.fs o) :
    FilesInv (s.fs.openEntry o.name o.mbits o.lfnext).1
      ({ s with fs := (s.fs.openEntry o.name o.mbits o.lfnext).1 }.record
        (s.fs.openEntry o.name o.mbits o.lfnext).2).holders ∧
      (s.fs.openEntry o.name o.mbits o.lfnext).1.lf_dirpresent = true := by
  have hok : ∀ fs : Lfs, FilesInv fs s.holders → fs.lf_dirpresent = true →
      Fresh fs o → ∀ e,
      FilesInv (fs.claimDevice o.lfnext e o.mbits o.name)
        ({ s with fs := fs.claimDevice o.lfnext e o.mbits o.name }.record
          ((fs.claimDevice o.lfnext e o.mbits o.name).lfltab
            o.lfnext).lfdev).holders := by
    intro fs hfs hdir hnew e
    have hclaim : FilesInv (fs.claimDevice o.lfnext e o.mbits o.name) _ :=
      hfs.claim hslot hdir hnew
    have hdev : ((fs.claimDevice o.lfnext e o.mbits o.name).lfltab
        o.lfnext).lfdev = 18 + (o.lfnext : ℤ) :=
      hclaim.devs o.lfnext hslot
    unfold Opens.record
    rw [hdev, if_neg (by rw [show SYSERR.toInt = -1 from rfl]; omega)]
    exact hclaim
  have herr : FilesInv s.fs
      ({ s with fs := s.fs }.record SYSERR.toInt).holders := by
    unfold Opens.record
    rw [if_pos rfl]
    exact h
  unfold accepts at hfresh
  unfold Lfs.openEntry
  cases hfind : Lfs.findEntry s.fs.lf_dir o.name with
  | none =>
      rw [hfind] at hfresh
      dsimp only at hfresh ⊢
      split_ifs with hold hfull
      · exact ⟨herr, hpresent⟩
      · exact ⟨herr, hpresent⟩
      · have hnew : Fresh s.fs o := hfresh (by simp_all)
        exact ⟨hok _ (h.addEntry hpresent hfind) hpresent hnew _, hpresent⟩
  | some e =>
      rw [hfind] at hfresh
      dsimp only at hfresh ⊢
      split_ifs with hnone
      · exact ⟨herr, hpresent⟩
      · have hnew : Fresh s.fs o := hfresh (by simp_all)
        exact ⟨hok _ h hpresent hnew e, hpresent⟩

structure OpensInv (s : Opens) : Prop where
  mutex : MutexInv s
  reading : ∀ p o, s.pc p = .reading o → s.fs.lf_dirpresent = false
  slots : ∀ p o, (s.pc p).opening = some o → o.lfnext < Nlfl
  files : FilesInv s.fs s.holders

theorem OpensInv.law (h : OpensInv s) : OpensLaw s where
  exclusive := by
    intro dev
    by_cases hdev : ∀ i < Nlfl, dev ≠ 18 + (i : ℤ)
    · rw [h.files.others dev hdev]
      exact Nat.zero_le 1
    · push_neg at hdev
      obtain ⟨i, hi, rfl⟩ := hdev
      rw [h.files.used i hi]
      split_ifs <;> omega
  single := h.files.single
  entries := fun hpresent => (h.files.entries hpresent).1

/-- What the processes other than `pid` are at while it has the mutex. -/
structure Others (s : Opens) (pid : ℤ) : Prop where
  reading : ∀ p o, p ≠ pid → s.pc p ≠ .reading o
  slots : ∀ p o, p ≠ pid → (s.pc p).opening = some o → o.lfnext < Nlfl

/-- The process with the mutex leaves `lfsopen`. -/
theorem OpensInv.leave
    (hmutex : MutexInv (s.release.setPc pid .outside)) (hothers : Others s pid)
    (hfiles : FilesInv s.fs s.holders) :
    OpensInv (s.release.setPc pid .outside) := by
  refine ⟨hmutex, ?_, ?_, ?_⟩
  · intro p o hp
    by_cases heq : p = pid
    · rw [heq, pc_setPc_self] at hp
      cases hp
    · rw [pc_setPc_of_ne _ _ heq] at hp
      rcases release_pc s p with hsame | ⟨o', -, hnew⟩
      · rw [hsame] at hp
        exact absurd hp (hothers.reading p o heq)
      · rw [hnew] at hp
        cases hp
  · intro p o hp
    by_cases heq : p = pid
    · rw [heq, pc_setPc_self] at hp
      cases hp
    · rw [pc_setPc_of_ne _ _ heq] at hp
      rcases release_pc s p with hsame | ⟨o', hold, hnew⟩
      · rw [hsame] at hp
        exact hothers.slots p o heq hp
      · rw [hnew] at hp
        exact hothers.slots p o heq (by rw [hold]; exact hp)
  · show FilesInv s.release.fs s.release.holders
    rw [release_fs, release_holders]
    exact hfiles

theorem record_mutex (s : Opens) (dev : ℤ) :
    (s.record dev).mutex = s.mutex ∧ (s.record dev).queue = s.queue ∧
      (s.record dev).pc = s.pc ∧ (s.record dev).fs = s.fs := by
  unfold Opens.record
  split_ifs <;> exact ⟨rfl, rfl, rfl, rfl⟩

theorem MutexInv.congr
    (h : MutexInv s) (hmutex : s'.mutex = s.mutex) (hqueue : s'.queue = s.queue)
    (hpc : s'.pc = s.pc) : MutexInv s' := by
  refine ⟨?_, ?_, ?_, ?_⟩
  · rw [hpc]
    exact h.one
  · rw [hmutex, hqueue, hpc]
    exact h.count
  · rw [hqueue, hpc]
    exact h.waits
  · rw [hqueue]
    exact h.nodup

/-- The process `pid` has the mutex, whatever its entry says yet. -/
structure Holding (s : Opens) (pid : ℤ) : Prop where
  mutex : ∃ pc : OpenPc, pc.inside = true ∧ MutexInv (s.setPc pid pc)
  others : Others s pid
  files : FilesInv s.fs s.holders

theorem Holding.leave
    (h : Holding s pid) (hmutex : s'.mutex = s.mutex)
    (hqueue : s'.queue = s.queue) (hpc : s'.pc = s.pc)
    (hfiles : FilesInv s'.fs s'.holders) :
    OpensInv (s'.release.setPc pid .outside) := by
  obtain ⟨pc, hin, hinv⟩ := h.mutex
  have hinv' : MutexInv (s'.setPc pid pc) := by
    apply hinv.congr
    · exact hmutex
    · exact hqueue
    · show Function.update s'.pc pid pc = _
      rw [hpc]
      rfl
  have hself : ((s'.setPc pid pc).pc pid).inside = true := by
    rw [pc_setPc_self]
    exact hin
  have hpid : pid ∉ s'.queue := by
    intro hmem
    have hwait := (hinv'.waits pid).mp hmem
    rw [pc_setPc_self] at hwait
    cases pc <;> simp [OpenPc.inside, OpenPc.waits] at hin hwait
  have hothers : Others s' pid := by
    refine ⟨?_, ?_⟩
    · rw [hpc]
      exact h.others.reading
    · rw [hpc]
      exact h.others.slots
  apply OpensInv.leave _ hothers hfiles
  rw [← release_setPc hpid]
  exact hinv'.release hself

theorem Holding.finish
    (h : Holding s pid) (hpresent : s.fs.lf_dirpresent = true)
    (hslot : o.lfnext < Nlfl)
    (hfresh : accepts s.fs.lf_dir o = true → Fresh s.fs o) :
    OpensInv (s.finish pid o) := by
  have hopen := (h.files.openEntry hpresent hslot hfresh).1
  obtain ⟨hmutex, hqueue, hpc, hfs⟩ := record_mutex
    { s with fs := (s.fs.openEntry o.name o.mbits o.lfnext).1 }
    (s.fs.openEntry o.name o.mbits o.lfnext).2
  apply h.leave hmutex hqueue hpc
  rw [hfs]
  exact hopen

theorem Holding.goOn
    (h : Holding s pid) (hslot : o.lfnext < Nlfl)
    (hfresh : s.fs.lf_dirpresent = true →
      accepts s.fs.lf_dir o = true → Fresh s.fs o) :
    OpensInv (s.goOn pid o) := by
  unfold Opens.goOn
  split_ifs with hpresent
  · exact h.finish hpresent hslot (hfresh hpresent)
  · obtain ⟨pc, hin, hinv⟩ := h.mutex
    have hkeep : MutexInv ((s.setPc pid pc).setPc pid (.reading o)) :=
      hinv.keep (by rw [pc_setPc_self]; exact hin) rfl
    have hset : (s.setPc pid pc).setPc pid (.reading o) =
        s.setPc pid (.reading o) := by
      simp [Opens.setPc]
    rw [hset] at hkeep
    refine ⟨hkeep, ?_, ?_, h.files⟩
    · intro p o' _
      show s.fs.lf_dirpresent = false
      simpa using hpresent
    · intro p o' hp
      by_cases heq : p = pid
      · rw [heq, pc_setPc_self] at hp
        obtain rfl : o = o' := by simpa [OpenPc.opening] using hp
        exact hslot
      · rw [pc_setPc_of_ne _ _ heq] at hp
        exact h.others.slots p o' heq hp

theorem Holding.readDone
    (h : Holding s pid) (hread : s.fs.lf_dirpresent = false) (good : Bool)
    (hslot : o.lfnext < Nlfl)
    (hfresh : good = true → lfscheck s.fs.disk.dir = true →
      accepts s.fs.disk.dir o = true → Fresh s.fs o) :
    OpensInv (s.readDone pid o good) := by
  have hnone : ∀ i, ¬ s.fs.InUse i := by
    intro i hi
    have hpresent := h.files.present i hi
    rw [hread] at hpresent
    cases hpresent
  unfold Opens.readDone
  split_ifs with hgood
  · unfold Lfs.readDirectory
    dsimp only
    by_cases hcheck : lfscheck s.fs.disk.dir = true
    · rw [if_pos hcheck]
      have hpos : 0 ≤ s.fs.disk.dir.lfd_nfiles := by
        unfold lfscheck at hcheck
        simp only [Bool.and_eq_true, decide_eq_true_eq] at hcheck
        exact hcheck.2
      have hload : Holding { s with fs := { s.fs with
          lf_dir := s.fs.disk.dir, lf_dirpresent := true } } pid := by
        obtain ⟨pc, hin, hinv⟩ := h.mutex
        refine ⟨⟨pc, hin, hinv.congr rfl rfl rfl⟩,
          ⟨h.others.reading, h.others.slots⟩, h.files.devs, h.files.used, h.files.others,
          h.files.single, fun _ _ => rfl, fun _ => ⟨h.files.disk hread, hpos⟩,
          fun hfalse => ?_⟩
        cases hfalse
      exact hload.finish rfl hslot (hfresh hgood hcheck)
    · rw [if_neg hcheck]
      refine h.leave ?_ ?_ ?_ ?_
      · rfl
      · rfl
      · rfl
      refine ⟨h.files.devs, h.files.used, h.files.others, h.files.single,
        h.files.present, fun hpresent => ?_, h.files.disk⟩
      rw [show _ = false from hread] at hpresent
      cases hpresent
  · exact h.leave rfl rfl rfl h.files

end Steps

/-! ## The scan and the close -/

section Scan

variable {fs fs' : Lfs} {holders : ℤ → ℕ} {name mode : Name} {i : ℕ}

theorem scanDevices_spec
    {l : List ℕ} {lfnext : Option ℕ}
    (hscan : fs.scanDevices name l lfnext = some i) :
    (lfnext = some i ∨ i ∈ l ∧ (fs.lfltab i).lfstate = .free) ∧
      ∀ j ∈ l, (fs.lfltab j).lfstate = .used → (fs.lfltab j).lfname ≠ name := by
  induction l generalizing lfnext with
  | nil => exact ⟨Or.inl hscan, by simp⟩
  | cons j l ih =>
      rw [Lfs.scanDevices] at hscan
      split_ifs at hscan with hfree hnone hname
      · obtain ⟨hfound, hnames⟩ := ih hscan
        refine ⟨Or.inr ?_, ?_⟩
        · rcases hfound with hi | ⟨hi, hstate⟩
          · obtain rfl : j = i := by simpa using hi
            exact ⟨by simp, hfree⟩
          · exact ⟨by simp [hi], hstate⟩
        · intro j' hj' hused
          rcases List.mem_cons.mp hj' with rfl | hj'
          · rw [hfree] at hused
            cases hused
          · exact hnames j' hj' hused
      · obtain ⟨hfound, hnames⟩ := ih hscan
        refine ⟨?_, ?_⟩
        · rcases hfound with hi | ⟨hi, hstate⟩
          · exact Or.inl hi
          · exact Or.inr ⟨by simp [hi], hstate⟩
        · intro j' hj' hused
          rcases List.mem_cons.mp hj' with rfl | hj'
          · rw [hfree] at hused
            cases hused
          · exact hnames j' hj' hused
      · obtain ⟨hfound, hnames⟩ := ih hscan
        refine ⟨?_, ?_⟩
        · rcases hfound with hi | ⟨hi, hstate⟩
          · exact Or.inl hi
          · exact Or.inr ⟨by simp [hi], hstate⟩
        · intro j' hj' hused
          rcases List.mem_cons.mp hj' with rfl | hj'
          · exact hname
          · exact hnames j' hj' hused

theorem openScan_spec
    {mbits : ℕ} (hscan : fs.openScan name mode = some (mbits, i)) :
    i < Nlfl ∧ Fresh fs ⟨name, mbits, i⟩ := by
  unfold Lfs.openScan at hscan
  split_ifs at hscan
  rw [Option.bind_eq_some_iff] at hscan
  obtain ⟨bits, -, hscan⟩ := hscan
  rw [Option.map_eq_some_iff] at hscan
  obtain ⟨j, hscan, heq⟩ := hscan
  rw [Prod.mk.injEq] at heq
  obtain ⟨-, rfl⟩ := heq
  obtain ⟨hfound, hnames⟩ := scanDevices_spec hscan
  rcases hfound with hnone | ⟨hmem, hfree⟩
  · cases hnone
  · exact ⟨List.mem_range.mp hmem, hfree,
      fun k hk => hnames k (List.mem_range.mpr hk)⟩

/-- The parts of the state that a flush leaves alone. -/
structure Flushed (fs fs' : Lfs) : Prop where
  dir : fs'.lf_dir = fs.lf_dir
  present : fs'.lf_dirpresent = fs.lf_dirpresent
  state : ∀ j, (fs'.lfltab j).lfstate = (fs.lfltab j).lfstate
  name : ∀ j, (fs'.lfltab j).lfname = (fs.lfltab j).lfname
  dev : ∀ j, (fs'.lfltab j).lfdev = (fs.lfltab j).lfdev

theorem Flushed.refl (fs : Lfs) : Flushed fs fs :=
  ⟨rfl, rfl, fun _ => rfl, fun _ => rfl, fun _ => rfl⟩

theorem Flushed.setFile
    {f : Lflcblk → Lflcblk} (h : Flushed fs fs')
    (hstate : ∀ b, (f b).lfstate = b.lfstate)
    (hname : ∀ b, (f b).lfname = b.lfname)
    (hdev : ∀ b, (f b).lfdev = b.lfdev) : Flushed fs (fs'.setFile i f) := by
  refine ⟨h.dir, h.present, fun j => ?_, fun j => ?_, fun j => ?_⟩
  · rw [← h.state]
    by_cases hj : j = i
    · simp [Lfs.setFile, hj, hstate]
    · simp [Lfs.setFile, hj]
  · rw [← h.name]
    by_cases hj : j = i
    · simp [Lfs.setFile, hj, hname]
    · simp [Lfs.setFile, hj]
  · rw [← h.dev]
    by_cases hj : j = i
    · simp [Lfs.setFile, hj, hdev]
    · simp [Lfs.setFile, hj]

theorem Flushed.trans
    {fs₁ fs₂ : Lfs} (h : Flushed fs fs₁) (h' : Flushed fs₁ fs₂) :
    Flushed fs fs₂ :=
  ⟨h'.dir.trans h.dir, h'.present.trans h.present,
    fun j => (h'.state j).trans (h.state j),
    fun j => (h'.name j).trans (h.name j), fun j => (h'.dev j).trans (h.dev j)⟩

theorem flushDir_flushed (fs : Lfs) : Flushed fs fs.flushDir := by
  unfold Lfs.flushDir
  split_ifs
  · exact ⟨rfl, rfl, fun _ => rfl, fun _ => rfl, fun _ => rfl⟩
  · exact .refl fs

theorem flushData_flushed (fs : Lfs) (i : ℕ) : Flushed fs (fs.flushData i) := by
  unfold Lfs.flushData
  split_ifs
  · exact Flushed.setFile ⟨rfl, rfl, fun _ => rfl, fun _ => rfl, fun _ => rfl⟩
      (fun _ => rfl) (fun _ => rfl) fun _ => rfl
  · exact .refl fs

theorem flushIndex_flushed (fs : Lfs) (i : ℕ) :
    Flushed fs (fs.flushIndex i) := by
  unfold Lfs.flushIndex
  split_ifs
  · exact Flushed.setFile ⟨rfl, rfl, fun _ => rfl, fun _ => rfl, fun _ => rfl⟩
      (fun _ => rfl) (fun _ => rfl) fun _ => rfl
  · exact .refl fs

theorem lfflush_flushed (fs : Lfs) (i : ℕ) : Flushed fs (fs.lfflush i) := by
  unfold Lfs.lfflush
  split_ifs
  · exact .refl fs
  · exact ((flushDir_flushed fs).trans (flushData_flushed _ i)).trans
      (flushIndex_flushed _ i)

/-- A close makes the pseudo-device free again. -/
theorem FilesInv.lflclose
    (h : FilesInv fs holders) (hi : i < Nlfl)
    (hused : (fs.lfltab i).lfstate = .used) :
    FilesInv (fs.lflclose i).1
      (Function.update holders (fs.lfltab i).lfdev 0) := by
  have hpresent := h.present i ⟨hi, hused⟩
  have hflush : Flushed fs (if fs.lf_dirdirty || (fs.lfltab i).lfdbdirty ||
      (fs.lfltab i).lfibdirty then fs.lfflush i else fs) := by
    split_ifs
    · exact lfflush_flushed fs i
    · exact .refl fs
  unfold Lfs.lflclose
  rw [if_neg (by simp [hused])]
  dsimp only
  generalize (if fs.lf_dirdirty || (fs.lfltab i).lfdbdirty ||
      (fs.lfltab i).lfibdirty then fs.lfflush i else fs) = fs₁ at hflush ⊢
  have hstate : ∀ j, ((fs₁.setFile i fun f =>
      { f with lfstate := .free }).lfltab j).lfstate =
        if j = i then .free else (fs.lfltab j).lfstate := by
    intro j
    rw [← hflush.state]
    by_cases hj : j = i
    · simp [Lfs.setFile, hj]
    · simp [Lfs.setFile, hj]
  have hname : ∀ j, ((fs₁.setFile i fun f =>
      { f with lfstate := .free }).lfltab j).lfname = (fs.lfltab j).lfname := by
    intro j
    rw [← hflush.name]
    by_cases hj : j = i
    · simp [Lfs.setFile, hj]
    · simp [Lfs.setFile, hj]
  have hdev : ∀ j, ((fs₁.setFile i fun f =>
      { f with lfstate := .free }).lfltab j).lfdev = (fs.lfltab j).lfdev := by
    intro j
    rw [← hflush.dev]
    by_cases hj : j = i
    · simp [Lfs.setFile, hj]
    · simp [Lfs.setFile, hj]
  have huse : ∀ j, (fs₁.setFile i fun f => { f with lfstate := .free }).InUse j →
      fs.InUse j := by
    intro j hj
    refine ⟨hj.1, ?_⟩
    have hstatej := hj.2
    rw [hstate] at hstatej
    split_ifs at hstatej
    exact hstatej
  have hdir : (fs₁.setFile i fun f => { f with lfstate := .free }).lf_dir =
      fs.lf_dir := hflush.dir
  have hpres : (fs₁.setFile i fun f =>
      { f with lfstate := .free }).lf_dirpresent = fs.lf_dirpresent :=
    hflush.present
  refine ⟨?_, ?_, ?_, ?_, ?_, ?_, ?_⟩
  · intro j hj
    rw [hdev]
    exact h.devs j hj
  · intro j hj
    rw [h.devs i hi, hstate]
    by_cases heq : j = i
    · simp [heq]
    · rw [Function.update_of_ne (by omega), if_neg heq]
      exact h.used j hj
  · intro dev hother
    rw [h.devs i hi, Function.update_of_ne (hother i hi)]
    exact h.others dev hother
  · intro j j' hj hj' heq
    rw [hname, hname] at heq
    exact h.single j j' (huse j hj) (huse j' hj') heq
  · intro j hj
    rw [hpres]
    exact hpresent
  · rw [hpres, hdir]
    exact h.entries
  · rw [hpres, hpresent]
    intro hfalse
    cases hfalse

end Scan

/-! ## Runs -/

section Runs

variable {s s' : Opens} {action : OpenAction}

theorem OpensInv.others
    (h : OpensInv s) {pid : ℤ}
    (hone : ∀ p, p ≠ pid → (s.pc p).inside = false) : Others s pid where
  reading := by
    intro p o hp hpc
    have hout := hone p hp
    rw [hpc] at hout
    cases hout
  slots := fun p o _ => h.slots p o

theorem OpensInv.holding
    (h : OpensInv s) {pid : ℤ} (hin : (s.pc pid).inside = true) :
    Holding s pid := by
  refine ⟨⟨s.pc pid, hin, h.mutex.congr rfl rfl ?_⟩, h.others ?_, h.files⟩
  · exact Function.update_eq_self pid s.pc
  · intro p hp
    by_contra hne
    exact hp (h.mutex.one p pid (by simpa using hne) hin)

theorem OpensInv.enter
    (h : OpensInv s) {pid : ℤ} {o : Opening} (hout : s.pc pid = .outside)
    (hslot : o.lfnext < Nlfl) (hfresh : Fresh s.fs o) :
    OpensInv (s.enter pid o) := by
  unfold Opens.enter
  dsimp only
  split_ifs with hcount
  · refine ⟨h.mutex.wait hout hcount, ?_, ?_, h.files⟩
    · intro p o' hp
      by_cases heq : p = pid
      · rw [heq, pc_setPc_self] at hp
        cases hp
      · rw [pc_setPc_of_ne _ _ heq] at hp
        exact h.reading p o' hp
    · intro p o' hp
      by_cases heq : p = pid
      · rw [heq, pc_setPc_self] at hp
        obtain rfl : o = o' := by simpa [OpenPc.opening] using hp
        exact hslot
      · rw [pc_setPc_of_ne _ _ heq] at hp
        exact h.slots p o' hp
  · have hnone : ∀ p, (s.pc p).inside = false := by
      rcases h.mutex.count with ⟨-, -, hnone⟩ | ⟨hheld, -⟩
      · exact hnone
      · omega
    have hothers : Others s pid := h.others fun p _ => hnone p
    have hhold : Holding { s with mutex := s.mutex - 1 } pid :=
      ⟨⟨.entered o, rfl, h.mutex.take hcount rfl⟩,
        ⟨hothers.reading, hothers.slots⟩, h.files⟩
    exact hhold.goOn hslot fun _ _ => hfresh

theorem OpensInv.step
    (h : OpensInv s) (hfresh : StillFresh s action)
    (hstep : s.step action = some s') : OpensInv s' := by
  cases action with
  | call pid name mode =>
      cases hpc : s.pc pid with
      | outside =>
          simp only [Opens.step, hpc] at hstep
          cases hscan : s.fs.openScan name mode with
          | none =>
              rw [hscan, Option.some.injEq] at hstep
              rw [← hstep]
              exact h
          | some found =>
              obtain ⟨mbits, lfnext⟩ := found
              rw [hscan, Option.some.injEq] at hstep
              rw [← hstep]
              obtain ⟨hslot, hnew⟩ := openScan_spec hscan
              exact h.enter hpc hslot hnew
      | blocked o => simp [Opens.step, hpc] at hstep
      | entered o => simp [Opens.step, hpc] at hstep
      | reading o => simp [Opens.step, hpc] at hstep
  | resume pid =>
      cases hpc : s.pc pid with
      | entered o =>
          simp only [Opens.step, hpc, Option.some.injEq] at hstep
          simp only [StillFresh, hpc] at hfresh
          rw [← hstep]
          exact (h.holding (by rw [hpc]; rfl)).goOn
            (h.slots pid o (by rw [hpc]; rfl)) hfresh
      | outside => simp [Opens.step, hpc] at hstep
      | blocked o => simp [Opens.step, hpc] at hstep
      | reading o => simp [Opens.step, hpc] at hstep
  | readDone pid good =>
      cases hpc : s.pc pid with
      | reading o =>
          simp only [Opens.step, hpc, Option.some.injEq] at hstep
          simp only [StillFresh, hpc] at hfresh
          rw [← hstep]
          exact (h.holding (by rw [hpc]; rfl)).readDone (h.reading pid o hpc)
            good (h.slots pid o (by rw [hpc]; rfl)) hfresh
      | outside => simp [Opens.step, hpc] at hstep
      | blocked o => simp [Opens.step, hpc] at hstep
      | entered o => simp [Opens.step, hpc] at hstep
  | close i =>
      simp only [Opens.step] at hstep
      split_ifs at hstep with hi hstatus
      · rw [Option.some.injEq] at hstep
        have hfree : (s.fs.lfltab i).lfstate ≠ .used := by
          intro hused
          unfold Lfs.lflclose at hstatus
          rw [if_neg (by simp [hused])] at hstatus
          have hne : OK.toInt ≠ SYSERR.toInt := by decide
          exact hne hstatus
        have hfs : (s.fs.lflclose i).1 = s.fs := by
          unfold Lfs.lflclose
          rw [if_pos hfree]
        rw [← hstep, hfs]
        exact h
      · rw [Option.some.injEq] at hstep
        have hused : (s.fs.lfltab i).lfstate = .used := by
          by_contra hfree
          unfold Lfs.lflclose at hstatus
          rw [if_pos hfree] at hstatus
          exact hstatus rfl
        have hpresent : (s.fs.lflclose i).1.lf_dirpresent =
            s.fs.lf_dirpresent := by
          unfold Lfs.lflclose
          rw [if_neg (by simp [hused])]
          dsimp only
          split_ifs
          · exact (lfflush_flushed s.fs i).present
          · rfl
        rw [← hstep]
        refine ⟨h.mutex.congr rfl rfl rfl, ?_, h.slots,
          h.files.lflclose hi hused⟩
        intro p o hp
        rw [← h.reading p o hp]
        exact hpresent

def opensStart (disk : Disk) (dir : Lfdir) (junk : Block) : Opens where
  fs := mounted disk dir junk
  mutex := 1
  queue := []
  pc := fun _ => .outside
  holders := fun _ => 0

theorem opensStart_inv
    {disk : Disk} {dir : Lfdir} {junk : Block}
    (hdisk : DistinctNames disk.dir) : OpensInv (opensStart disk dir junk) := by
  refine ⟨⟨?_, Or.inl ⟨rfl, rfl, fun _ => rfl⟩, ?_, List.nodup_nil⟩, ?_, ?_,
    ⟨fun _ _ => rfl, fun _ _ => rfl, fun _ _ => rfl, ?_, ?_, ?_, fun _ => hdisk⟩⟩
  · intro p q hp
    cases hp
  · intro p
    simp [opensStart, OpenPc.waits]
  · intro p o hp
    cases hp
  · intro p o hp
    cases hp
  · intro i j hi
    cases hi.2
  · intro i hi
    cases hi.2
  · intro hpresent
    cases hpresent

/-- In every run in which each open that goes on finds its pseudo-device free
and its file not open, the opens do not share devices, files or entries. -/
theorem opens_exclusive_of_fresh
    {disk : Disk} {dir : Lfdir} {junk : Block}
    (hdisk : DistinctNames disk.dir)
    (hreach : Reach Opens.step StillFresh (opensStart disk dir junk) s) :
    OpensLaw s := by
  have hinv := hreach.invariant OpensInv (opensStart_inv hdisk)
    fun _ _ _ hinv hfresh hstep => hinv.step hfresh hstep
  exact hinv.law

end Runs

/-- The start with a small disk that `lfscreate` has just formatted. -/
def freshOpens : Opens :=
  opensStart (formatData 2 6 (formatIndex 7
    ⟨emptyDir 1, fun _ => lfibclear 0, fun _ _ => 0⟩)) (emptyDir 0) fun _ => 0

theorem freshOpens_distinct : DistinctNames freshOpens.fs.disk.dir := by
  intro e e' he
  have hnone : ¬ ((e : ℤ) < 0) := by omega
  exact absurd he hnone

/-- Two files are opened one after the other, and one is closed and opened
again. -/
theorem opens_exclusive_of_fresh_freshOpens :
    ∃ s, Reach Opens.step StillFresh freshOpens s ∧
      (s.holders 18, s.holders 19) = (1, 1) ∧ OpensLaw s := by
  have hview : (run (fun s action => if StillFresh s action
      then Opens.step s action else none) freshOpens
      [.call 1 [97] [], .readDone 1 true, .call 2 [98] [], .close 0,
        .call 3 [97] []]).map (fun s => (s.holders 18, s.holders 19)) =
      some (1, 1) := by
    decide
  rw [Option.map_eq_some_iff] at hview
  obtain ⟨s, hrun, hs⟩ := hview
  have hreach := Reach.run_checked _ .start hrun
  exact ⟨s, hreach, hs, opens_exclusive_of_fresh freshOpens_distinct hreach⟩

/-- A second open scans while the first one reads the directory, and gets the
same pseudo-device. -/
theorem blocked_open_shares_device :
    ¬ ∀ s, Reach Opens.step (fun _ _ => True) freshOpens s → OpensLaw s := by
  intro hlaw
  have hview : (run (fun s action => if True then Opens.step s action else none)
      freshOpens [.call 1 [97] [], .call 2 [97] [], .readDone 1 true,
        .resume 2]).map (fun s => s.holders 18) = some 2 := by
    decide
  rw [Option.map_eq_some_iff] at hview
  obtain ⟨s, hrun, hs⟩ := hview
  have hone := (hlaw s (Reach.run_checked _ .start hrun)).exclusive 18
  omega

end Xinu.LocalFiles
