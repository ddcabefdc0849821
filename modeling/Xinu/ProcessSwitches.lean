import Xinu.ContextSwitch

/-!
# Processes that are switched out and in

A system of processes runs on one processor: the current one computes, new
ones are created and `ctxsw` changes from one to another.  The stack pointers
of the waiting processes are in the process table, in memory like their
stacks.  A process that is switched out keeps its words as long as nobody else
writes to them.
-/

namespace Xinu.ContextSwitch

open ByteMemory FreeExtents TransitionSystem Kernel

/-! ## The system -/

/-- The addresses of the fields `prstkptr` of the process table. -/
structure Layout where
  cell : ℤ → Word
  aligned : ∀ pid, Aligned (cell pid)

structure System where
  machine : Machine
  current : ℤ
  /-- What each process had when it was last switched out or created. -/
  saved : ℤ → Option Saved

inductive Action
  /-- The current process runs, with any effect on registers and memory. -/
  | compute (cpu : Cpu) (mem : Memory)
  | create (pid : ℤ) (saddr funcaddr : Word) (args : List Word)
  | exit (pid : ℤ)
  /-- `ctxsw` from the current process, whose stack has so many words. -/
  | switch (pid : ℤ) (depth : ℕ)

def pids : List ℤ := (List.range NPROC.toNat).map Int.ofNat

namespace System

variable (L : Layout)

def start (m : Machine) (current : ℤ) : System := ⟨m, current, fun _ => none⟩

def step (s : System) : Action → Option System
  | .compute cpu mem => some { s with machine := ⟨cpu, mem⟩ }
  | .create pid saddr funcaddr args =>
      let (mem, prstkptr) := initStack s.machine.mem saddr funcaddr args
      some { s with
        machine :=
          { s.machine with
            mem := write32 mem (L.cell pid) prstkptr }
        saved := Function.update s.saved pid (some (firstSaved saddr funcaddr args)) }
  | .exit pid => some { s with saved := Function.update s.saved pid none }
  | .switch pid depth =>
      some {
        machine := s.machine.ctxsw
        current := pid
        saved := Function.update s.saved s.current (some (s.machine.saving depth)) }

/-- The words of the waiting processes, and their cells, are left alone. -/
def Keeps (s : System) (mem : Memory) : Prop :=
  ∀ q ∈ pids, q ≠ s.current → ∀ sv ∈ s.saved q,
    read32 mem (L.cell q) = read32 s.machine.mem (L.cell q) ∧
      ∀ addr ∈ sv.addrs, read32 mem addr = read32 s.machine.mem addr

/-- The words and the cells of two processes are apart. -/
def Apart (cell : Word) (sv : Saved) (cell' : Word) (other : Saved) : Prop :=
  cell' ≠ cell ∧ cell' ∉ sv.addrs ∧
    ∀ addr ∈ other.addrs, addr ≠ cell ∧ addr ∉ sv.addrs

instance (cell : Word) (sv : Saved) (cell' : Word) (other : Saved) :
    Decidable (Apart cell sv cell' other) :=
  decidable_of_iff (cell' ≠ cell ∧ sv.addrs.contains cell' = false ∧
    (other.addrs.all fun addr => addr != cell && !sv.addrs.contains addr) = true)
    (by simp [Apart])

/-- The words of `sv` and the cell of `pid` are apart from each other and from
those of the other processes that wait. -/
def Clear (s : System) (pid : ℤ) (sv : Saved) : Prop :=
  L.cell pid ∉ sv.addrs ∧
    ∀ q ∈ pids, q ≠ s.current → q ≠ pid → ∀ other ∈ s.saved q,
      Apart (L.cell pid) sv (L.cell q) other

instance (s : System) (pid : ℤ) (sv : Saved) : Decidable (Clear L s pid sv) :=
  inferInstanceAs (Decidable (_ ∧ _))

/-- No process writes to the stack of another one, a new stack is free, and
`ctxsw` is called with the two cells and room on the stack. -/
def allowed (s : System) : Action → Prop
  | .compute _ mem => Keeps L s mem
  | .create pid saddr funcaddr args =>
      pid ≠ s.current ∧ Aligned saddr ∧ 4 * (args.length + 13) ≤ 2 ^ 32 ∧
        Clear L s pid (firstSaved saddr funcaddr args)
  | .exit _ => True
  | .switch pid depth =>
      pid ∈ pids ∧ pid ≠ s.current ∧ s.saved pid ≠ none ∧
        Calls s.machine (L.cell s.current) (L.cell pid) depth ∧
        Clear L s s.current (s.machine.saving depth)

/-! ## The invariant -/

/-- Every waiting process can be resumed. -/
def Inv (s : System) : Prop :=
  ∀ q ∈ pids, q ≠ s.current → ∀ sv ∈ s.saved q,
    Resumable s.machine.mem (L.cell q) sv

variable {L} {s s' : System} {pid : ℤ} {sv : Saved} {depth : ℕ}

theorem update_same (f : ℤ → Option Saved) (p : ℤ) (o : Option Saved) :
    Function.update f p o p = o :=
  Function.update_self p o f

theorem update_other (f : ℤ → Option Saved) {p q : ℤ} (o : Option Saved)
    (hne : q ≠ p) : Function.update f p o q = f q :=
  Function.update_of_ne hne o f

theorem firstSaved_resumable
    {mem : Memory} {saddr funcaddr cell : Word} {args : List Word}
    (haligned : Aligned saddr) (hbound : 4 * (args.length + 13) ≤ 2 ^ 32)
    (hcell : Aligned cell) (hout : cell ∉ (firstSaved saddr funcaddr args).addrs) :
    Resumable (write32 (initStack mem saddr funcaddr args).1 cell
      (initStack mem saddr funcaddr args).2) cell (firstSaved saddr funcaddr args) := by
  have hsp : Aligned (firstSaved saddr funcaddr args).sp := by
    rw [← @initStack_sp mem, initStack_eq]
    exact aligned_foldl _ _ haligned
  refine ⟨hsp, List.cons_ne_nil _ _, ?_, ?_⟩
  · rw [read32_write32_aligned _ _ hcell hcell, if_pos rfl, initStack_sp]
  · refine (@initStack_words mem saddr funcaddr args haligned hbound).congr fun j hj => ?_
    refine read32_write32_of_ne hcell (aligned_add hsp j) fun heq => hout ?_
    rw [← heq]
    exact mem_addrs hj

/-- After the first half of `ctxsw`, all that waited can still be resumed. -/
theorem Inv.saved
    (hinv : Inv L s) (hok : allowed L s (.switch pid depth)) {q : ℤ}
    (hq : q ∈ pids) (hne : q ≠ s.current) (hsv : sv ∈ s.saved q) :
    Resumable s.machine.ctxswSave.mem (L.cell q) sv := by
  obtain ⟨-, -, -, hcalls, hclear⟩ := hok
  obtain ⟨hcell, hout, hwords⟩ := hclear.2 q hq hne hne sv hsv
  have hres := hinv q hq hne sv hsv
  refine hres.congr ?_ fun addr haddr => ?_
  · exact ctxswSave_other hcalls (L.aligned q) hcell hout
  · exact ctxswSave_other hcalls (aligned_addrs hres.aligned haddr)
      (hwords addr haddr).1 (hwords addr haddr).2

theorem Inv.ctxsw
    (hinv : Inv L s) (hok : allowed L s (.switch pid depth))
    (hsv : s.saved pid = some sv) :
    s.machine.ctxsw = ⟨sv.resume, s.machine.ctxswSave.mem⟩ :=
  ctxsw_resumes hok.2.2.2.1 (hinv.saved hok hok.1 hok.2.1 hsv)

theorem Inv.step {a : Action}
    (hinv : Inv L s) (hok : allowed L s a) (hstep : step L s a = some s') :
    Inv L s' := by
  cases a with
  | compute cpu mem =>
      cases hstep
      intro q hq hne sv hsv
      have hkeep := hok q hq hne sv hsv
      exact (hinv q hq hne sv hsv).congr hkeep.1 hkeep.2
  | create pid saddr funcaddr args =>
      cases hstep
      obtain ⟨-, haligned, hbound, hout, hclear⟩ := hok
      intro q hq hne sv hsv
      by_cases hpid : q = pid
      · subst hpid
        have hfirst : some (firstSaved saddr funcaddr args) = some sv :=
          (update_same _ _ _).symm.trans hsv
        cases hfirst
        exact firstSaved_resumable haligned hbound (L.aligned q) hout
      · have hold : s.saved q = some sv := (update_other _ _ hpid).symm.trans hsv
        obtain ⟨hcell, hcellout, hwords⟩ := hclear q hq hne hpid sv hold
        have hres := hinv q hq hne sv hold
        refine hres.congr ?_ fun addr haddr => ?_
        · show read32 (write32 _ (L.cell pid) _) _ = _
          rw [read32_write32_of_ne (L.aligned pid) (L.aligned q) hcell]
          exact initStack_other haligned (L.aligned q) hbound hcellout
        · have haddr' := aligned_addrs hres.aligned haddr
          show read32 (write32 _ (L.cell pid) _) _ = _
          rw [read32_write32_of_ne (L.aligned pid) haddr' (hwords addr haddr).1]
          exact initStack_other haligned haddr' hbound (hwords addr haddr).2
  | exit pid =>
      cases hstep
      intro q hq hne sv hsv
      by_cases hpid : q = pid
      · subst hpid
        exact absurd ((update_same _ _ _).symm.trans hsv) (by simp)
      · exact hinv q hq hne sv ((update_other _ _ hpid).symm.trans hsv)
  | switch pid depth =>
      cases hstep
      obtain ⟨new, hnew⟩ := Option.ne_none_iff_exists'.mp hok.2.2.1
      have hmem : s.machine.ctxsw.mem = s.machine.ctxswSave.mem := by
        rw [hinv.ctxsw hok hnew]
      intro q hq hne sv hsv
      show Resumable s.machine.ctxsw.mem _ _
      rw [hmem]
      by_cases hcur : q = s.current
      · subst hcur
        have hsaved : some (s.machine.saving depth) = some sv :=
          (update_same _ _ _).symm.trans hsv
        cases hsaved
        exact ctxswSave_resumable hok.2.2.2.1
      · exact hinv.saved hok hq hcur ((update_other _ _ hcur).symm.trans hsv)

theorem Inv.reach {m : Machine} {first : ℤ}
    (hreach : Reach (System.step L) (allowed L) (start m first) s) : Inv L s := by
  refine hreach.invariant (Inv L) ?_ fun _ _ _ hinv hok hstep => hinv.step hok hstep
  intro q _ _ sv hsv
  cases hsv

/-! ## A process that waits -/

/-- The action neither switches to the process nor ends or replaces it. -/
def LeavesOut (pid : ℤ) : Action → Prop
  | .compute _ _ => True
  | .create p _ _ _ => p ≠ pid
  | .exit p => p ≠ pid
  | .switch p _ => p ≠ pid

instance (pid : ℤ) (a : Action) : Decidable (LeavesOut pid a) := by
  cases a <;> unfold LeavesOut <;> infer_instance

/-- The steps of a run in which the process waits. -/
def Waits (L : Layout) (pid : ℤ) (s : System) (a : Action) : Prop :=
  allowed L s a ∧ LeavesOut pid a

/-- What was saved for a process stays until it runs again. -/
theorem saved_of_waits
    (hreach : Reach (System.step L) (Waits L pid) s s')
    (hcur : s.current ≠ pid) (hsv : s.saved pid = some sv) :
    s'.saved pid = some sv := by
  refine (hreach.invariant (fun t => t.current ≠ pid ∧ t.saved pid = some sv)
    ⟨hcur, hsv⟩ fun t a t' hinv hok hstep => ?_).2
  obtain ⟨hne, hold⟩ := hinv
  cases a with
  | compute cpu mem =>
      cases hstep
      exact ⟨hne, hold⟩
  | create p saddr funcaddr args =>
      cases hstep
      exact ⟨hne, (update_other _ _ (Ne.symm hok.2)).trans hold⟩
  | exit p =>
      cases hstep
      exact ⟨hne, (update_other _ _ (Ne.symm hok.2)).trans hold⟩
  | switch p depth =>
      cases hstep
      exact ⟨hok.2, (update_other _ _ (Ne.symm hne)).trans hold⟩

/-! ## What a switch gives back -/

/-- The flags that `popfl` loads and the addition after it leaves alone. -/
def KEPT : Word := FLAGS &&& ~~~STATUS

/-- The machine is that of the saved process, after the return. -/
structure Resumed (sv : Saved) (m : Machine) : Prop where
  registers : m.cpu =
    { sv.cpu with
      esp := sv.cpu.esp + 4
      eip := sv.stack.headD 0
      eflags := m.cpu.eflags }
  flags : m.cpu.eflags &&& KEPT = sv.cpu.eflags &&& KEPT
  stack : WordsAt m.mem sv.cpu.esp sv.stack

/-- The machine is at the entry of the function of a new process. -/
structure Entered (saddr funcaddr : Word) (args : List Word) (m : Machine) : Prop
    where
  eip : m.cpu.eip = funcaddr
  interrupts : m.cpu.eflags &&& IF = IF
  ebp : m.cpu.ebp = saddr
  magic : read32 m.mem saddr = STACKMAGIC
  stack : WordsAt m.mem m.cpu.esp (INITRET :: args)

theorem masked
    {x load status sum one : Word} (hsum : sum &&& ~~~status = 0)
    (hone : one &&& load = 0) :
    ((x &&& load ||| one) &&& ~~~status ||| sum) &&& (load &&& ~~~status) =
      x &&& (load &&& ~~~status) := by
  refine BitVec.eq_of_getElem_eq fun i hi => ?_
  have hsumi : (sum &&& ~~~status)[i] = (0 : Word)[i] := by rw [hsum]
  have honei : (one &&& load)[i] = (0 : Word)[i] := by rw [hone]
  simp only [BitVec.getElem_and, BitVec.getElem_or, BitVec.getElem_not,
    BitVec.getElem_zero, BitVec.ofNat_eq_ofNat] at hsumi honei ⊢
  generalize x[i] = a, load[i] = b, status[i] = c, sum[i] = d, one[i] = e
    at hsumi honei ⊢
  revert a b c d e
  decide

theorem addFlags_status (x y : Word) : Machine.addFlags x y &&& ~~~STATUS = 0 := by
  unfold Machine.addFlags
  dsimp only
  split_ifs <;> decide

theorem resume_flags (sv : Saved) : sv.resume.eflags &&& KEPT = sv.cpu.eflags &&& KEPT :=
  masked (addFlags_status _ _) (by decide)

theorem Inv.switch
    (hinv : Inv L s) (hok : allowed L s (.switch pid depth))
    (hstep : System.step L s (.switch pid depth) = some s')
    (hsv : s.saved pid = some sv) :
    Resumed sv s'.machine := by
  cases hstep
  have hctxsw := hinv.ctxsw hok hsv
  have hres := hinv.saved hok hok.1 hok.2.1 hsv
  show Resumed sv s.machine.ctxsw
  rw [hctxsw]
  refine ⟨rfl, resume_flags sv, fun j hj => ?_⟩
  have hplace : sv.cpu.esp + BitVec.ofNat 32 (4 * j) =
      sv.sp + BitVec.ofNat 32 (4 * (10 + j)) := by
    unfold Saved.sp
    rw [show 4 * (10 + j) = 40 + 4 * j by omega, BitVec.ofNat_add]
    bv_omega
  have hlen : 10 + j < sv.words.length := by
    unfold Saved.words
    rw [List.length_append]
    exact Nat.add_lt_add_left hj 10
  have hword := hres.words (10 + j) hlen
  rw [hplace, hword]
  unfold Saved.words
  rw [List.get_eq_getElem, List.getElem_append_right (Nat.le_add_right 10 j)]
  simp

/-- The first switch to a new process enters its function. -/
theorem Resumed.entered
    {m : Machine} {saddr funcaddr : Word} {args : List Word}
    (h : Resumed (firstSaved saddr funcaddr args) m) :
    Entered saddr funcaddr args m := by
  have hesp : m.cpu.esp = (firstSaved saddr funcaddr args).cpu.esp + 4 := by
    rw [h.registers]
  have hup : ∀ j, m.cpu.esp + BitVec.ofNat 32 (4 * j) =
      (firstSaved saddr funcaddr args).cpu.esp + BitVec.ofNat 32 (4 * (j + 1)) := by
    intro j
    rw [hesp, show 4 * (j + 1) = 4 + 4 * j by omega, BitVec.ofNat_add,
      BitVec.add_assoc]
    rfl
  refine ⟨?_, ?_, ?_, ?_, fun j hj => ?_⟩
  · rw [h.registers]
    rfl
  · have hmask : IF = KEPT &&& IF := by decide
    rw [hmask, ← BitVec.and_assoc, h.flags]
    show IF &&& KEPT &&& IF = _
    decide
  · rw [h.registers]
    rfl
  · have hlen : args.length + 2 < (firstSaved saddr funcaddr args).stack.length := by
      show _ < (funcaddr :: INITRET :: args ++ [STACKMAGIC]).length
      rw [List.length_append]
      exact Nat.lt_succ_self _
    have hword := h.stack (args.length + 2) hlen
    have hplace : (firstSaved saddr funcaddr args).cpu.esp +
        BitVec.ofNat 32 (4 * (args.length + 2)) = saddr := BitVec.sub_add_cancel _ _
    rw [hplace] at hword
    rw [hword]
    simp [firstSaved]
  · have hlen : j + 1 < (firstSaved saddr funcaddr args).stack.length := by
      show _ < (funcaddr :: INITRET :: args ++ [STACKMAGIC]).length
      rw [List.length_append]
      exact Nat.lt_succ_of_lt (Nat.succ_lt_succ hj)
    have hlen' : j + 1 < (funcaddr :: ((INITRET :: args) ++ [STACKMAGIC])).length := hlen
    rw [hup j, h.stack (j + 1) hlen]
    show (funcaddr :: ((INITRET :: args) ++ [STACKMAGIC])).get ⟨j + 1, hlen'⟩ = _
    rw [List.get_eq_getElem, List.getElem_cons_succ, List.getElem_append_left hj]
    rfl

/-! ## The stack that `create` makes -/

section Created

variable {k k' : Kernel Queuetab} {h h' : Heap} {l : List Extent} {n : Word}
  {funcaddr ssize saddr : Word} {priority : Int16} {args : List Word}

/-- The size of the stack that `create` asks for. -/
def stackSize (ssize : Word) : Word :=
  roundmb (if ssize < MINSTK then MINSTK else ssize)

/-- The entry and the memory of a new process: its stack is inside the block
that was taken for it and ready for `ctxsw`. -/
structure Created
    (funcaddr ssize : Word) (args : List Word) (p : Procent) (mem : Memory) : Prop where
  aligned : Aligned p.prstkbase
  prstklen : p.prstklen = stackSize ssize
  inside : p.prstklen.toNat ≤ p.prstkbase.toNat + 4
  prstkptr : p.prstkptr = (firstSaved p.prstkbase funcaddr args).sp
  words : WordsAt mem p.prstkptr (firstSaved p.prstkbase funcaddr args).words

theorem newpidLoop_heap (i : ℕ) (k : Kernel Queuetab) :
    (k.newpidLoop i).1.heap = k.heap := by
  induction i generalizing k with
  | zero => rfl
  | succ i ih =>
      rw [newpidLoop]
      dsimp only
      split
      · rfl
      · exact ih _

theorem stackSize_dvd (ssize : Word) : 8 ∣ (stackSize ssize).toNat := by
  show 8 ∣ (truncmb (7 + _)).toNat
  rw [truncmb_toNat]
  exact Dvd.intro_left _ rfl

theorem getstk_region
    (hwf : WellFormed h l) (hdvd : 8 ∣ n.toNat) (hpos : 0 < n.toNat)
    (hget : getstk n h = some (h', saddr)) (hok : saddr ≠ SYSERR) :
    Aligned saddr ∧ n.toNat ≤ saddr.toNat + 4 := by
  have hbound : n.toNat ≤ 2 ^ 32 - 8 := by
    have hlt := n.isLt
    omega
  have hround : roundmb n = n := by
    apply BitVec.eq_of_toNat_eq
    rw [roundmb_toNat hbound]
    omega
  have hspec := getstk_spec hwf hpos hbound
  rw [hround] at hspec
  cases hcarve : carveLast n.toNat l with
  | none =>
      rw [hcarve] at hspec
      dsimp only at hspec
      rw [hspec, Option.some.injEq, Prod.mk.injEq] at hget
      exact absurd hget.2.symm hok
  | some r =>
      rw [hcarve] at hspec
      obtain ⟨h'', hgot, -⟩ := hspec
      rw [hgot, Option.some.injEq, Prod.mk.injEq] at hget
      obtain ⟨-, rfl⟩ := hget
      have hgran := (carveLast_granular hwf.granular hdvd hpos hcarve).1
      obtain ⟨e, he, hin⟩ := (carveLast_carved hcarve).inside
      have hplace := hwf.placeable he
      obtain ⟨pre, e', post, -, -, -, rfl⟩ := carveLast_split hcarve
      have hdvdBase := hgran.base_dvd
      have hbase := hplace.base_pos
      have htop := hplace.top_le
      unfold Extent.Inside Extent.top at hin
      unfold Extent.top at htop
      dsimp only at hin hdvdBase
      have hsum : (blockAddr ⟨e'.base + (e'.len - n.toNat), n.toNat⟩ + n - 4).toNat =
          e'.base + (e'.len - n.toNat) + n.toNat - 4 := by
        have haddr : (blockAddr ⟨e'.base + (e'.len - n.toNat), n.toNat⟩).toNat =
            e'.base + (e'.len - n.toNat) := by
          show (BitVec.ofNat 32 (e'.base + (e'.len - n.toNat))).toNat = _
          rw [BitVec.toNat_ofNat]
          exact Nat.mod_eq_of_lt (by omega)
        generalize blockAddr _ = b at haddr
        bv_omega
      unfold Aligned
      rw [hsum]
      omega

theorem create_created {pid : ℤ}
    (hwf : WellFormed k.heap l)
    (hfit : 4 * (args.length + 13) ≤ (stackSize ssize).toNat)
    (hcreate : k.create funcaddr ssize priority args = some (k', pid))
    (hok : pid ≠ SYSERR.toInt) :
    Created funcaddr ssize args (k'.proctab pid) k'.heap.mem := by
  unfold Kernel.create at hcreate
  dsimp only at hcreate
  have hheap := newpidLoop_heap NPROC.toNat k
  generalize hfound : k.newpid = found at hcreate
  rw [show k.newpidLoop NPROC.toNat = found from hfound] at hheap
  rw [show roundmb (if ssize < MINSTK then MINSTK else ssize) = stackSize ssize
    from rfl] at hcreate
  split at hcreate
  · cases hcreate
    exact absurd rfl hok
  split at hcreate
  · cases hcreate
    exact absurd rfl hok
  obtain ⟨⟨heap, saddr⟩, hget, hr⟩ := Option.map_eq_some_iff.mp hcreate
  dsimp only at hr
  split at hr
  · cases hr
    exact absurd rfl hok
  rename_i hsaddr
  rw [hheap] at hget
  obtain ⟨haligned, hinside⟩ := getstk_region hwf (stackSize_dvd ssize)
    (by omega) hget hsaddr
  have hsp := @initStack_sp heap.mem saddr funcaddr args
  have hwords := @initStack_words heap.mem saddr funcaddr args haligned
    (hfit.trans (stackSize ssize).isLt.le)
  generalize initStack heap.mem saddr funcaddr args = stack at hr hsp hwords
  rw [Prod.mk.injEq] at hr
  obtain ⟨rfl, rfl⟩ := hr
  have hentry : ∀ (t : Kernel Queuetab) (e : Procent) (ev : Event),
      ((t.setProc found.2 fun _ => e).note ev).proctab found.2 = e :=
    fun t e ev => Function.update_self ..
  constructor
  all_goals rw [hentry]
  · exact haligned
  · rfl
  · exact hinside
  · exact hsp
  · rw [← hsp] at hwords
    exact hwords

end Created

/-! ## Switches restore processes -/

/-- From any state of a run: `create` prepares the stack, the first switch to
a new process enters its function, and a process that is switched out resumes
with its registers, its stack and the flags that `ctxsw` restores, however
long it waits. -/
theorem switches_restore {m : Machine} {first : ℤ}
    (hreach : Reach (System.step L) (allowed L) (start m first) s) :
    (∀ (k k' : Kernel Queuetab) (l : List Extent) (funcaddr ssize : Word)
      (priority : Int16) (args : List Word) (pid : ℤ),
      WellFormed k.heap l → 4 * (args.length + 13) ≤ (stackSize ssize).toNat →
      k.create funcaddr ssize priority args = some (k', pid) → pid ≠ SYSERR.toInt →
        Created funcaddr ssize args (k'.proctab pid) k'.heap.mem) ∧
    (∀ (pid : ℤ) (saddr funcaddr : Word) (args : List Word) (depth : ℕ)
      (s₁ s₂ s₃ : System), allowed L s (.create pid saddr funcaddr args) →
      System.step L s (.create pid saddr funcaddr args) = some s₁ →
      Reach (System.step L) (Waits L pid) s₁ s₂ →
      allowed L s₂ (.switch pid depth) →
      System.step L s₂ (.switch pid depth) = some s₃ →
        Entered saddr funcaddr args s₃.machine) ∧
    ∀ (next : ℤ) (depth depth' : ℕ) (s₁ s₂ s₃ : System),
      allowed L s (.switch next depth) →
      System.step L s (.switch next depth) = some s₁ →
      Reach (System.step L) (Waits L s.current) s₁ s₂ →
      allowed L s₂ (.switch s.current depth') →
      System.step L s₂ (.switch s.current depth') = some s₃ →
        Resumed (s.machine.saving depth) s₃.machine := by
  have hinv := Inv.reach hreach
  have hkeep {p : ℤ} {s₁ s₂ : System} (hinv₁ : Inv L s₁)
      (hrun : Reach (System.step L) (Waits L p) s₁ s₂) : Inv L s₂ :=
    hrun.invariant (Inv L) hinv₁ fun _ _ _ h hok hstep => h.step hok.1 hstep
  refine ⟨fun k k' l funcaddr ssize priority args pid => create_created, ?_, ?_⟩
  · intro pid saddr funcaddr args depth s₁ s₂ s₃ hok hstep hrun hok₂ hstep₂
    have hinv₂ := hkeep (hinv.step hok hstep) hrun
    have hsaved : s₂.saved pid = some (firstSaved saddr funcaddr args) := by
      cases hstep
      exact saved_of_waits hrun (Ne.symm hok.1) (update_same _ _ _)
    exact (hinv₂.switch hok₂ hstep₂ hsaved).entered
  · intro next depth depth' s₁ s₂ s₃ hok hstep hrun hok₂ hstep₂
    have hinv₂ := hkeep (hinv.step hok hstep) hrun
    have hsaved : s₂.saved s.current = some (s.machine.saving depth) := by
      cases hstep
      exact saved_of_waits hrun hok.2.1 (update_same _ _ _)
    exact hinv₂.switch hok₂ hstep₂ hsaved

def twoCells : Layout where
  cell pid := if pid = 0 then 0x100000 else 0x100040
  aligned pid := by
    split <;> decide

/-- The null process at a call of `ctxsw` to process 1. -/
def nullCalls : Machine where
  cpu :=
    { eax := 1
      ecx := 2
      edx := 3
      ebx := 4
      esp := 0x8000
      ebp := 0x8020
      esi := 5
      edi := 6
      eip := 0x10500
      eflags := 0x246 }
  mem := write32 (write32 (write32 (fun _ => 0) 0x8000 0x10777) 0x8004 0x100000)
    0x8008 0x100040

instance (s : System) : (a : Action) → Decidable (allowed L s a)
  | .compute _ _ => inferInstanceAs (Decidable (∀ q ∈ pids, q ≠ s.current →
      ∀ sv ∈ s.saved q, _ ∧ ∀ addr ∈ sv.addrs, _))
  | .create _ _ _ _ => inferInstanceAs (Decidable (_ ∧ _))
  | .exit _ => inferInstanceAs (Decidable True)
  | .switch _ _ => inferInstanceAs (Decidable (_ ∧ _))

def follow (s : System) (a : Action) : System := (System.step twoCells s a).getD s

theorem step_follow (s : System) (a : Action) :
    System.step twoCells s a = some (s.follow a) := by
  cases a <;> rfl

/-- Process 1 is created with the arguments of a call of `ctxsw` back. -/
def afterCreate : System :=
  (start nullCalls 0).follow (.create 1 0x9000 0x10500 [0x100040, 0x100000])

def afterSwitch : System := afterCreate.follow (.switch 1 3)

def afterReturn : System := afterSwitch.follow (.switch 0 3)

theorem afterCreate_reach :
    Reach (System.step twoCells) (allowed twoCells) (start nullCalls 0) afterCreate :=
  Reach.start.next (.create 1 0x9000 0x10500 [0x100040, 0x100000])
    (by decide) (step_follow _ _)

theorem afterCreate_switch : allowed twoCells afterCreate (.switch 1 3) := by
  decide

theorem afterSwitch_switch : allowed twoCells afterSwitch (.switch 0 3) := by
  decide

/-- The null process goes on when process 1 has switched back. -/
theorem switches_restore_null :
    Resumed (afterCreate.machine.saving 3) afterReturn.machine :=
  (switches_restore afterCreate_reach).2.2 1 3 3 afterSwitch afterSwitch afterReturn
    afterCreate_switch (step_follow _ _) .start afterSwitch_switch (step_follow _ _)

/-- The zero flag of a process that is switched out and in is not what it was. -/
theorem status_flags_lost :
    ∃ s₁ s₂ s₃ : System,
      Reach (System.step twoCells) (allowed twoCells) (start nullCalls 0) s₁ ∧
      allowed twoCells s₁ (.switch 1 3) ∧
      System.step twoCells s₁ (.switch 1 3) = some s₂ ∧
      allowed twoCells s₂ (.switch 0 3) ∧
      System.step twoCells s₂ (.switch 0 3) = some s₃ ∧
      s₁.current = 0 ∧ s₁.machine.cpu.eflags = 0x246 ∧
      s₃.current = 0 ∧ s₃.machine.cpu.eflags = 0x216 :=
  ⟨afterCreate, afterSwitch, afterReturn, afterCreate_reach, afterCreate_switch,
    step_follow _ _, afterSwitch_switch, step_follow _ _, by decide,
    by decide +kernel, by decide +kernel, by decide +kernel⟩

end System

end Xinu.ContextSwitch
