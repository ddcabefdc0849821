import Xinu.HeapHistory
import Xinu.KernelCalls

/-!
# The context switch

`ctxsw` pushes the state of a process on its stack and pops the state of
another from the stack that is saved for it; `create` builds such a stack by
hand.  The instructions of ctxsw.S are functions on the registers and on
memory, one for each line.
-/

namespace Xinu.ContextSwitch

open ByteMemory FreeExtents TransitionSystem Kernel

/-! ## The processor -/

/-- The bits of EFLAGS that `popfl` loads in kernel mode. -/
def FLAGS : Word := 0x247fd5

/-- What `popfl` makes of a word: bit 1 is always set. -/
def loadFlags (x : Word) : Word := x &&& FLAGS ||| 2

/-- The carry, parity, adjust, zero, sign and overflow flags. -/
def STATUS : Word := 0x8d5

def IF : Word := 0x200

structure Cpu where
  eax : Word
  ecx : Word
  edx : Word
  ebx : Word
  esp : Word
  ebp : Word
  esi : Word
  edi : Word
  eip : Word
  eflags : Word

structure Machine where
  cpu : Cpu
  mem : Memory

namespace Machine

variable (m : Machine)

def setCpu (f : Cpu → Cpu) : Machine := { m with cpu := f m.cpu }

def pushl (x : Word) : Machine :=
  { m with
    cpu := { m.cpu with esp := m.cpu.esp - 4 }
    mem := write32 m.mem (m.cpu.esp - 4) x }

def top : Word := read32 m.mem m.cpu.esp

def drop : Machine := m.setCpu fun c => { c with esp := c.esp + 4 }

def pushfl : Machine := m.pushl m.cpu.eflags

/-- All registers; the stack pointer is pushed as it was before. -/
def pushal : Machine :=
  let c := m.cpu
  (((((((m.pushl c.eax).pushl c.ecx).pushl c.edx).pushl c.ebx).pushl c.esp).pushl
    c.ebp).pushl c.esi).pushl c.edi

/-- All registers; the saved stack pointer is skipped. -/
def popal : Machine :=
  let m := (m.setCpu fun c => { c with edi := m.top }).drop
  let m := (m.setCpu fun c => { c with esi := m.top }).drop
  let m := (m.setCpu fun c => { c with ebp := m.top }).drop
  let m := m.drop
  let m := (m.setCpu fun c => { c with ebx := m.top }).drop
  let m := (m.setCpu fun c => { c with edx := m.top }).drop
  let m := (m.setCpu fun c => { c with ecx := m.top }).drop
  (m.setCpu fun c => { c with eax := m.top }).drop

def popfl : Machine :=
  (m.setCpu fun c => { c with eflags := loadFlags m.top }).drop

def addFlags (x y : Word) : Word :=
  let sum := x + y
  let low := sum.extractLsb' 0 8
  let parity := (List.range 8).countP fun i => low.getLsbD i
  (if sum < x then 0x1 else 0) ||| (if parity % 2 = 0 then 0x4 else 0) |||
    (if (x.extractLsb' 0 4).toNat + (y.extractLsb' 0 4).toNat ≥ 16 then 0x10
      else 0) |||
    (if sum = 0 then 0x40 else 0) ||| (if sum.msb then 0x80 else 0) |||
    (if x.msb = y.msb ∧ sum.msb ≠ x.msb then 0x800 else 0)

/-- `add $n,%esp`, which sets the status flags. -/
def addEsp (n : Word) : Machine :=
  m.setCpu fun c => { c with
    esp := c.esp + n
    eflags := c.eflags &&& ~~~STATUS ||| addFlags c.esp n }

def ret : Machine := (m.setCpu fun c => { c with eip := m.top }).drop

/-! ## ctxsw.S -/

/-- `ctxsw` up to the instruction that loads the new stack pointer. -/
def ctxswSave : Machine :=
  let m := m.pushl m.cpu.ebp
  let m := m.setCpu fun c => { c with ebp := c.esp }
  let m := m.pushfl
  let m := m.pushal
  let m := m.setCpu fun c => { c with eax := read32 m.mem (c.ebp + 8) }
  { m with mem := write32 m.mem m.cpu.eax m.cpu.esp }

def ctxswRestore : Machine :=
  let m := m.setCpu fun c => { c with eax := read32 m.mem (c.ebp + 12) }
  let m := m.setCpu fun c => { c with esp := read32 m.mem c.eax }
  let m := m.popal
  let m := m.setCpu fun c => { c with ebp := read32 m.mem (c.esp + 4) }
  (m.popfl.addEsp 4).ret

/-- From the first instruction of `ctxsw`, where the stack pointer is at the
return address, to the return. -/
def ctxsw : Machine := m.ctxswSave.ctxswRestore

end Machine

/-! ## Frames -/

/-- The registers that a saved frame at `sp` gives back; the status flags are
those of the addition in `ctxsw`. -/
def restored (mem : Memory) (sp : Word) : Cpu where
  edi := read32 mem sp
  esi := read32 mem (sp + 4)
  ebx := read32 mem (sp + 16)
  edx := read32 mem (sp + 20)
  ecx := read32 mem (sp + 24)
  eax := read32 mem (sp + 28)
  eflags := loadFlags (read32 mem (sp + 32)) &&& ~~~STATUS |||
    Machine.addFlags (sp + 36) 4
  ebp := read32 mem (sp + 36)
  eip := read32 mem (sp + 40)
  esp := sp + 44

section Switch

variable {m : Machine} {mem : Memory} {sp addr : Word}

theorem ctxswRestore_eq (hsp : read32 m.mem (read32 m.mem (m.cpu.ebp + 12)) = sp) :
    m.ctxswRestore = ⟨restored m.mem sp, m.mem⟩ := by
  subst hsp
  unfold Machine.ctxswRestore Machine.ret Machine.addEsp Machine.popfl
    Machine.popal Machine.drop Machine.setCpu Machine.top restored
  simp only [BitVec.add_assoc]
  rfl

end Switch

/-! ## Words on a stack -/

/-- The words from `sp` upward. -/
def WordsAt (mem : Memory) (sp : Word) (ws : List Word) : Prop :=
  ∀ j (hj : j < ws.length), read32 mem (sp + BitVec.ofNat 32 (4 * j)) =
    ws.get ⟨j, hj⟩

section Words

variable {mem mem' : Memory} {sp x : Word} {ws vs : List Word}

theorem aligned_add (hsp : Aligned sp) (j : ℕ) :
    Aligned (sp + BitVec.ofNat 32 (4 * j)) := by
  unfold Aligned at *
  rw [BitVec.toNat_add, BitVec.toNat_ofNat]
  omega

theorem WordsAt.congr (h : WordsAt mem sp ws)
    (hsame : ∀ j < ws.length, read32 mem' (sp + BitVec.ofNat 32 (4 * j)) =
      read32 mem (sp + BitVec.ofNat 32 (4 * j))) : WordsAt mem' sp ws :=
  fun j hj => (hsame j hj).trans (h j hj)

theorem offset_ne {i j : ℕ} (hi : 4 * i < 2 ^ 32) (hj : 4 * j < 2 ^ 32)
    (hne : i ≠ j) : sp + BitVec.ofNat 32 (4 * i) ≠ sp + BitVec.ofNat 32 (4 * j) := by
  intro heq
  have hnat := congrArg BitVec.toNat heq
  rw [BitVec.toNat_add, BitVec.toNat_add, BitVec.toNat_ofNat,
    BitVec.toNat_ofNat] at hnat
  have hlt := sp.isLt
  omega

theorem WordsAt.push
    (h : WordsAt mem sp ws) (hsp : Aligned sp) (hlen : 4 * (ws.length + 1) ≤ 2 ^ 32) :
    WordsAt (pushWord (mem, sp) x).1 (pushWord (mem, sp) x).2 (x :: ws) := by
  have hnew : Aligned (sp - 4) := by
    unfold Aligned at *
    bv_omega
  intro j hj
  rw [List.length_cons] at hj
  show read32 (write32 mem (sp - 4) x) (sp - 4 + BitVec.ofNat 32 (4 * j)) = _
  rw [read32_write32_aligned mem x hnew (aligned_add hnew j)]
  cases j with
  | zero => simp
  | succ j =>
      have hup : sp - 4 + BitVec.ofNat 32 (4 * (j + 1)) =
          sp + BitVec.ofNat 32 (4 * j) := by
        rw [show 4 * (j + 1) = 4 + 4 * j by omega, BitVec.ofNat_add]
        bv_omega
      have hother : sp - 4 + BitVec.ofNat 32 (4 * (j + 1)) ≠ sp - 4 := by
        have hne := @offset_ne (sp - 4) (j + 1) 0 (by omega) (by omega) (by omega)
        simpa using hne
      rw [if_neg hother, hup, h j (by omega)]
      rfl

theorem aligned_foldl (vs : List Word) (mem : Memory) (hsp : Aligned sp) :
    Aligned (vs.foldl pushWord (mem, sp)).2 := by
  induction vs generalizing mem sp with
  | nil => exact hsp
  | cons v vs ih =>
      refine ih _ ?_
      unfold Aligned at *
      bv_omega

theorem WordsAt.foldl
    (vs : List Word) (h : WordsAt mem sp ws) (hsp : Aligned sp)
    (hlen : 4 * (vs.length + ws.length) ≤ 2 ^ 32) :
    WordsAt (vs.foldl pushWord (mem, sp)).1 (vs.foldl pushWord (mem, sp)).2
      (vs.reverse ++ ws) := by
  induction vs generalizing mem sp ws with
  | nil => exact h
  | cons v vs ih =>
      rw [List.length_cons] at hlen
      have hpushed := h.push (x := v) hsp (by omega)
      have hnext : Aligned (sp - 4) := by
        unfold Aligned at *
        bv_omega
      rw [List.reverse_cons, List.append_assoc, List.singleton_append]
      exact ih hpushed hnext (by rw [List.length_cons]; omega)

theorem foldl_sp (vs : List Word) (mem : Memory) (sp : Word) :
    (vs.foldl pushWord (mem, sp)).2 = sp - BitVec.ofNat 32 (4 * vs.length) := by
  induction vs generalizing mem sp with
  | nil => simp
  | cons v vs ih =>
      show (vs.foldl pushWord (write32 mem (sp - 4) v, sp - 4)).2 = _
      rw [ih, List.length_cons, show 4 * (vs.length + 1) = 4 + 4 * vs.length by omega,
        BitVec.ofNat_add]
      bv_omega

theorem foldl_other {addr : Word} (hsp : Aligned sp) (haddr : Aligned addr)
    (hother : ∀ k < vs.length, addr ≠ sp - BitVec.ofNat 32 (4 * (k + 1))) :
    read32 (vs.foldl pushWord (mem, sp)).1 addr = read32 mem addr := by
  induction vs generalizing mem sp with
  | nil => rfl
  | cons v vs ih =>
      have hnext : Aligned (sp - 4) := by
        unfold Aligned at *
        bv_omega
      have hfirst : addr ≠ sp - 4 := hother 0 (Nat.succ_pos _)
      show read32 (vs.foldl pushWord (write32 mem (sp - 4) v, sp - 4)).1 addr = _
      rw [ih hnext fun k hk heq => hother (k + 1) (Nat.succ_lt_succ hk) ?_,
        read32_write32_aligned mem v hnext haddr, if_neg hfirst]
      rw [heq, show 4 * (k + 1 + 1) = 4 + 4 * (k + 1) by omega, BitVec.ofNat_add]
      bv_omega

theorem WordsAt.set
    (h : WordsAt mem sp ws) (hsp : Aligned sp) (hlen : 4 * ws.length ≤ 2 ^ 32)
    {i : ℕ} (hi : i < ws.length) :
    WordsAt (write32 mem (sp + BitVec.ofNat 32 (4 * i)) x) sp (ws.set i x) := by
  intro j hj
  rw [List.length_set] at hj
  rw [read32_write32_aligned mem x (aligned_add hsp i) (aligned_add hsp j)]
  by_cases heq : j = i
  · subst heq
    simp
  · rw [if_neg (offset_ne (by omega) (by omega) heq), h j hj]
    simp [List.getElem_set_of_ne (Ne.symm heq)]

end Words

/-! ## Saved processes -/

/-- A process that is switched out: its registers at the first instruction of
`ctxsw`, the word in its frame that `popal` skips, and its stack from the
return address on. -/
structure Saved where
  cpu : Cpu
  skipped : Word
  stack : List Word

namespace Saved

variable (s : Saved)

def sp : Word := s.cpu.esp - 40

def words : List Word :=
  [s.cpu.edi, s.cpu.esi, s.cpu.esp - 4, s.skipped, s.cpu.ebx, s.cpu.edx, s.cpu.ecx,
    s.cpu.eax, s.cpu.eflags, s.cpu.ebp] ++ s.stack

/-- The registers with which the process goes on: those it had, at the return
address, with the status flags of the addition in `ctxsw`. -/
def resume : Cpu :=
  { s.cpu with
    esp := s.cpu.esp + 4
    eip := s.stack.headD 0
    eflags := loadFlags s.cpu.eflags &&& ~~~STATUS |||
      Machine.addFlags (s.cpu.esp - 4) 4 }

end Saved

theorem restored_saved
    {mem : Memory} {s : Saved} (h : WordsAt mem s.sp s.words) (hstack : s.stack ≠ []) :
    restored mem s.sp = s.resume := by
  obtain ⟨r, rest, hr⟩ := List.exists_cons_of_ne_nil hstack
  have hlen : s.words.length = rest.length + 11 := by
    unfold Saved.words
    rw [hr]
    simp
  have hzero : read32 mem s.sp = s.cpu.edi := by
    have hword := h 0 (by omega)
    simpa [Saved.words] using hword
  have hret : read32 mem (s.sp + 40) = r := by
    have hword := h 10 (by omega)
    simpa [Saved.words, hr] using hword
  unfold restored Saved.resume
  rw [hzero, show read32 mem (s.sp + 4) = s.cpu.esi from h 1 (by omega),
    show read32 mem (s.sp + 16) = s.cpu.ebx from h 4 (by omega),
    show read32 mem (s.sp + 20) = s.cpu.edx from h 5 (by omega),
    show read32 mem (s.sp + 24) = s.cpu.ecx from h 6 (by omega),
    show read32 mem (s.sp + 28) = s.cpu.eax from h 7 (by omega),
    show read32 mem (s.sp + 32) = s.cpu.eflags from h 8 (by omega),
    show read32 mem (s.sp + 36) = s.cpu.ebp from h 9 (by omega), hret, hr]
  have hadd : s.sp + 36 = s.cpu.esp - 4 := by
    unfold Saved.sp
    bv_omega
  have hesp : s.sp + 44 = s.cpu.esp + 4 := by
    unfold Saved.sp
    bv_omega
  rw [hadd, hesp]
  rfl

/-! ## What `ctxsw` saves -/

section Save

variable {m : Machine} {mem : Memory} {cell addr : Word} {sv : Saved} {depth : ℕ}

def wordsFrom (mem : Memory) (sp : Word) (depth : ℕ) : List Word :=
  (List.range depth).map fun j => read32 mem (sp + BitVec.ofNat 32 (4 * j))

/-- The process that calls `ctxsw`, with so many words of its stack. -/
def Machine.saving (m : Machine) (depth : ℕ) : Saved where
  cpu := m.cpu
  skipped := m.cpu.esp - 8
  stack := wordsFrom m.mem m.cpu.esp depth

/-- The words that belong to a saved process. -/
def Saved.addrs (sv : Saved) : List Word :=
  (List.range sv.words.length).map fun j => sv.sp + BitVec.ofNat 32 (4 * j)

/-- The state of a process is in memory, and `cell` has its stack pointer. -/
structure Resumable (mem : Memory) (cell : Word) (sv : Saved) : Prop where
  aligned : Aligned sv.sp
  stack : sv.stack ≠ []
  cell : read32 mem cell = sv.sp
  words : WordsAt mem sv.sp sv.words

theorem wordsAt_wordsFrom (mem : Memory) (sp : Word) (depth : ℕ) :
    WordsAt mem sp (wordsFrom mem sp depth) := by
  intro j hj
  unfold wordsFrom
  simp

theorem mem_addrs {j : ℕ} (hj : j < sv.words.length) :
    sv.sp + BitVec.ofNat 32 (4 * j) ∈ sv.addrs :=
  List.mem_map.mpr ⟨j, List.mem_range.mpr hj, rfl⟩

theorem aligned_addrs (hsp : Aligned sv.sp) (haddr : addr ∈ sv.addrs) :
    Aligned addr := by
  obtain ⟨j, -, rfl⟩ := List.mem_map.mp haddr
  exact aligned_add hsp j

/-- A process stays resumable while its words and its cell are kept. -/
theorem Resumable.congr
    {mem' : Memory} (h : Resumable mem cell sv)
    (hcell : read32 mem' cell = read32 mem cell)
    (hwords : ∀ addr ∈ sv.addrs, read32 mem' addr = read32 mem addr) :
    Resumable mem' cell sv where
  aligned := h.aligned
  stack := h.stack
  cell := hcell.trans h.cell
  words := h.words.congr fun _ hj => hwords _ (mem_addrs hj)

/-- What `ctxsw` pushes, the first word first. -/
def Machine.pushes (m : Machine) : List Word :=
  [m.cpu.ebp, m.cpu.eflags, m.cpu.eax, m.cpu.ecx, m.cpu.edx, m.cpu.ebx,
    m.cpu.esp - 8, m.cpu.esp - 4, m.cpu.esi, m.cpu.edi]

def Machine.pushed (m : Machine) : Memory :=
  (m.pushes.foldl pushWord (m.mem, m.cpu.esp)).1

theorem pushed_sp (m : Machine) :
    (m.pushes.foldl pushWord (m.mem, m.cpu.esp)).2 = m.cpu.esp - 40 :=
  foldl_sp m.pushes m.mem m.cpu.esp

theorem ctxswSave_eq (m : Machine) :
    m.ctxswSave.cpu.ebp = m.cpu.esp - 4 ∧
      m.ctxswSave.mem = write32 m.pushed
        (read32 m.pushed (m.cpu.esp + 4)) (m.cpu.esp - 40) := by
  have hdown : m.cpu.esp - 4 - 4 = m.cpu.esp - 8 := by bv_omega
  have hup : m.cpu.esp - 4 + 8 = m.cpu.esp + 4 := by bv_omega
  refine ⟨rfl, ?_⟩
  rw [← pushed_sp, ← hup]
  unfold Machine.pushed Machine.pushes
  rw [← hdown]
  rfl

theorem saving_words (m : Machine) (depth : ℕ) :
    (m.saving depth).words = m.pushes.reverse ++ wordsFrom m.mem m.cpu.esp depth :=
  rfl

theorem saving_length (m : Machine) (depth : ℕ) :
    (m.saving depth).words.length = depth + 10 := by
  rw [saving_words, List.length_append]
  unfold wordsFrom
  rw [List.length_map, List.length_range]
  exact Nat.add_comm _ _

/-- The words that the calling process leaves in memory. -/
theorem pushed_words
    (hsp : Aligned m.cpu.esp) (hdepth : 4 * (depth + 10) ≤ 2 ^ 32) :
    WordsAt m.pushed (m.saving depth).sp (m.saving depth).words := by
  have hlen : (wordsFrom m.mem m.cpu.esp depth).length = depth := by
    unfold wordsFrom
    rw [List.length_map, List.length_range]
  have hwords := (wordsAt_wordsFrom m.mem m.cpu.esp depth).foldl m.pushes
    hsp (by rw [hlen]; exact (Nat.add_comm 10 depth) ▸ hdepth)
  rw [pushed_sp] at hwords
  exact hwords

theorem saving_sp_aligned (hsp : Aligned m.cpu.esp) : Aligned (m.saving depth).sp := by
  show Aligned (m.cpu.esp - 40)
  unfold Aligned at *
  bv_omega

/-- The words pushed are words of the saved process. -/
theorem pushed_other
    (hsp : Aligned m.cpu.esp) (haddr : Aligned addr)
    (hother : addr ∉ (m.saving depth).addrs) :
    read32 m.pushed addr = read32 m.mem addr := by
  refine foldl_other hsp haddr fun k hk heq => hother ?_
  have hk' : k < 10 := hk
  have hplace : addr = (m.saving depth).sp + BitVec.ofNat 32 (4 * (9 - k)) := by
    rw [heq]
    show m.cpu.esp - BitVec.ofNat 32 (4 * (k + 1)) =
      m.cpu.esp - 40 + BitVec.ofNat 32 (4 * (9 - k))
    have hsplit : (40 : Word) =
        BitVec.ofNat 32 (4 * (9 - k)) + BitVec.ofNat 32 (4 * (k + 1)) := by
      rw [← BitVec.ofNat_add, show 4 * (9 - k) + 4 * (k + 1) = 40 by omega]
      rfl
    rw [hsplit]
    bv_omega
  rw [hplace]
  exact mem_addrs (by rw [saving_length]; omega)

/-- The stack of a caller of `ctxsw`: the return address, the places of the
old and of the new stack pointer, and room for the frame, which does not reach
the place of the old stack pointer. -/
def Calls (m : Machine) (old new : Word) (depth : ℕ) : Prop :=
  Aligned m.cpu.esp ∧ Aligned old ∧ 3 ≤ depth ∧ 4 * (depth + 10) ≤ 2 ^ 32 ∧
    read32 m.mem (m.cpu.esp + 4) = old ∧ read32 m.mem (m.cpu.esp + 8) = new ∧
    old ∉ (m.saving depth).addrs

instance (m : Machine) (old new : Word) (depth : ℕ) :
    Decidable (Calls m old new depth) :=
  inferInstanceAs (Decidable (_ ∧ _))

variable {old new : Word}

/-- The words of the stack keep their places in the saved words. -/
theorem pushed_stack
    (h : Calls m old new depth) {j : ℕ} (hj : j < depth) :
    read32 m.pushed (m.cpu.esp + BitVec.ofNat 32 (4 * j)) =
      read32 m.mem (m.cpu.esp + BitVec.ofNat 32 (4 * j)) := by
  obtain ⟨hsp, -, -, hbound, -⟩ := h
  refine foldl_other hsp (aligned_add hsp j) fun k hk heq => ?_
  have hk' : k < 10 := hk
  have hnat := congrArg BitVec.toNat heq
  rw [BitVec.toNat_add, BitVec.toNat_sub, BitVec.toNat_ofNat,
    BitVec.toNat_ofNat] at hnat
  have hlt := m.cpu.esp.isLt
  omega

theorem ctxswSave_mem (h : Calls m old new depth) :
    m.ctxswSave.mem = write32 m.pushed old (m.cpu.esp - 40) := by
  have hold := pushed_stack h (j := 1) (by have := h.2.2.1; omega)
  rw [(ctxswSave_eq m).2]
  congr 1
  exact hold.trans h.2.2.2.2.1

/-- After the first half of `ctxsw`, the caller can be resumed. -/
theorem ctxswSave_resumable (h : Calls m old new depth) :
    Resumable m.ctxswSave.mem old (m.saving depth) := by
  have hmem := ctxswSave_mem h
  obtain ⟨hsp, hold, hdeep, hbound, -, -, hout⟩ := h
  have haligned : Aligned (m.saving depth).sp := saving_sp_aligned hsp
  refine ⟨haligned, ?_, ?_, ?_⟩
  · intro hnil
    have hlen := congrArg List.length hnil
    simp only [Machine.saving, wordsFrom, List.length_map, List.length_range,
      List.length_nil] at hlen
    omega
  · rw [hmem, read32_write32_aligned _ _ hold hold, if_pos rfl]
    rfl
  · refine (pushed_words hsp hbound).congr fun j hj => ?_
    rw [hmem]
    refine read32_write32_of_ne hold (aligned_add haligned j) fun heq => hout ?_
    rw [← heq]
    exact mem_addrs hj

/-- The first half of `ctxsw` writes the words of the caller and its cell. -/
theorem ctxswSave_other
    (h : Calls m old new depth) (haddr : Aligned addr) (hcell : addr ≠ old)
    (hother : addr ∉ (m.saving depth).addrs) :
    read32 m.ctxswSave.mem addr = read32 m.mem addr := by
  rw [ctxswSave_mem h, read32_write32_of_ne h.2.1 haddr hcell]
  exact pushed_other h.1 haddr hother

/-- `ctxsw` resumes the process whose stack pointer is in the new cell. -/
theorem ctxsw_resumes
    (h : Calls m old new depth) (hres : Resumable m.ctxswSave.mem new sv) :
    m.ctxsw = ⟨sv.resume, m.ctxswSave.mem⟩ := by
  have harg : read32 m.ctxswSave.mem (m.ctxswSave.cpu.ebp + 12) = new := by
    have hplace : m.ctxswSave.cpu.ebp + 12 = m.cpu.esp + BitVec.ofNat 32 (4 * 2) := by
      rw [(ctxswSave_eq m).1]
      bv_omega
    have hin : m.cpu.esp + BitVec.ofNat 32 (4 * 2) ∈ (m.saving depth).addrs := by
      have hup : m.cpu.esp + BitVec.ofNat 32 (4 * 2) =
          (m.saving depth).sp + BitVec.ofNat 32 (4 * 12) := by
        show _ = m.cpu.esp - 40 + BitVec.ofNat 32 (4 * 12)
        bv_omega
      have hdeep := h.2.2.1
      rw [hup]
      exact mem_addrs (by rw [saving_length]; omega)
    rw [hplace, ctxswSave_mem h,
      read32_write32_of_ne h.2.1 (aligned_add h.1 2) fun heq => h.2.2.2.2.2.2 (heq ▸ hin),
      pushed_stack h h.2.2.1]
    exact h.2.2.2.2.2.1
  have hrestore := @ctxswRestore_eq m.ctxswSave sv.sp (by rw [harg, hres.cell])
  unfold Machine.ctxsw
  rw [hrestore, restored_saved hres.words hres.stack]

end Save

/-! ## The stack of a new process -/

/-- A new process, as if it had called `ctxsw` from the first instruction of
its function. -/
def firstSaved (saddr funcaddr : Word) (args : List Word) : Saved where
  cpu :=
    { eax := 0
      ecx := 0
      edx := 0
      ebx := 0
      esp := saddr - BitVec.ofNat 32 (4 * (args.length + 2))
      ebp := saddr
      esi := 0
      edi := 0
      eip := 0
      eflags := IF }
  skipped := saddr - BitVec.ofNat 32 (4 * (args.length + 12))
  stack := funcaddr :: INITRET :: args ++ [STACKMAGIC]

section First

variable {mem : Memory} {saddr funcaddr addr : Word} {args : List Word}

theorem firstSaved_length :
    (firstSaved saddr funcaddr args).words.length = args.length + 13 := by
  show (_ ++ (funcaddr :: INITRET :: args ++ [STACKMAGIC])).length = _
  simp only [List.length_append, List.length_cons, List.length_nil]
  omega

theorem firstSaved_sp :
    (firstSaved saddr funcaddr args).sp =
      saddr - BitVec.ofNat 32 (4 * (args.length + 12)) := by
  show saddr - BitVec.ofNat 32 (4 * (args.length + 2)) - 40 = _
  rw [show 4 * (args.length + 12) = 4 * (args.length + 2) + 40 by omega,
    BitVec.ofNat_add]
  bv_omega

/-- The words that `create` pushes above the stack's end marker. -/
def firstPushes (saddr funcaddr : Word) (args : List Word) : List Word :=
  args.reverse ++ [INITRET, funcaddr, saddr, 0x200, 0, 0, 0, 0, 0,
    saddr - BitVec.ofNat 32 (4 * (args.length + 3)), 0, 0]

theorem firstPushes_length :
    (firstPushes saddr funcaddr args).length = args.length + 12 := by
  unfold firstPushes
  rw [List.length_append, List.length_reverse]
  rfl

theorem initStack_eq :
    initStack mem saddr funcaddr args =
      let stack := (firstPushes saddr funcaddr args).foldl pushWord
        (write32 mem saddr STACKMAGIC, saddr)
      (write32 stack.1 (stack.2 + 12) stack.2, stack.2) := by
  unfold firstPushes
  rw [List.foldl_append]
  have hsp := foldl_sp args.reverse (write32 mem saddr STACKMAGIC) saddr
  rw [List.length_reverse] at hsp
  unfold initStack
  dsimp only
  generalize args.reverse.foldl pushWord (write32 mem saddr STACKMAGIC, saddr) = stack
    at hsp ⊢
  obtain ⟨mem', sp⟩ := stack
  dsimp only at hsp
  have hebp : saddr - BitVec.ofNat 32 (4 * (args.length + 3)) = sp - 4 - 4 - 4 := by
    rw [hsp, show 4 * (args.length + 3) = 4 * args.length + 12 by omega,
      BitVec.ofNat_add]
    bv_omega
  have hpush : sp - 4 - 4 - 4 - 4 - 4 - 4 - 4 - 4 - 4 - 4 - 4 - 4 + 12 =
      sp - 4 - 4 - 4 - 4 - 4 - 4 - 4 - 4 - 4 := by bv_omega
  rw [hebp]
  dsimp only [List.foldl_cons, List.foldl_nil, pushWord]
  rw [hpush]

theorem initStack_sp :
    (initStack mem saddr funcaddr args).2 = (firstSaved saddr funcaddr args).sp := by
  rw [initStack_eq, firstSaved_sp, ← firstPushes_length, ← foldl_sp]

/-- `create` lays out the frame and the stack of the new process. -/
theorem initStack_words
    (haligned : Aligned saddr) (hbound : 4 * (args.length + 13) ≤ 2 ^ 32) :
    WordsAt (initStack mem saddr funcaddr args).1
      (firstSaved saddr funcaddr args).sp (firstSaved saddr funcaddr args).words := by
  have hbase : WordsAt (write32 mem saddr STACKMAGIC) saddr [STACKMAGIC] := by
    intro j hj
    have hj0 : j = 0 := Nat.lt_one_iff.mp hj
    subst hj0
    have hself := read32_write32_aligned mem STACKMAGIC haligned haligned
    rw [if_pos rfl] at hself
    simp only [Nat.mul_zero, BitVec.add_zero]
    exact hself
  have hlen := @firstPushes_length saddr funcaddr args
  have hwords := hbase.foldl (firstPushes saddr funcaddr args) haligned
    (by rw [hlen]; exact hbound)
  have hsp := aligned_foldl (firstPushes saddr funcaddr args)
    (write32 mem saddr STACKMAGIC) haligned
  have hset := hwords.set (x := ((firstPushes saddr funcaddr args).foldl pushWord
    (write32 mem saddr STACKMAGIC, saddr)).2) hsp
    (by rw [List.length_append, List.length_reverse, hlen]; exact hbound)
    (i := 3) (by rw [List.length_append, List.length_reverse, hlen]; omega)
  have hlist : ((firstPushes saddr funcaddr args).reverse ++ [STACKMAGIC]).set 3
      (firstSaved saddr funcaddr args).sp = (firstSaved saddr funcaddr args).words := by
    rw [firstSaved_sp]
    have hebp : saddr - BitVec.ofNat 32 (4 * (args.length + 3)) =
        saddr - BitVec.ofNat 32 (4 * (args.length + 2)) - 4 := by
      rw [show 4 * (args.length + 3) = 4 * (args.length + 2) + 4 by omega,
        BitVec.ofNat_add]
      bv_omega
    unfold firstPushes
    rw [List.reverse_append, List.reverse_reverse, hebp]
    rfl
  rw [initStack_eq]
  have hfinal : ((firstPushes saddr funcaddr args).foldl pushWord
      (write32 mem saddr STACKMAGIC, saddr)).2 = (firstSaved saddr funcaddr args).sp := by
    rw [foldl_sp, hlen, firstSaved_sp]
  dsimp only
  rw [hfinal] at hset ⊢
  rw [hlist] at hset
  exact hset

theorem initStack_other
    (haligned : Aligned saddr) (haddr : Aligned addr)
    (hbound : 4 * (args.length + 13) ≤ 2 ^ 32)
    (hother : addr ∉ (firstSaved saddr funcaddr args).addrs) :
    read32 (initStack mem saddr funcaddr args).1 addr = read32 mem addr := by
  have hplace : ∀ j ≤ args.length + 12, addr ≠ saddr - BitVec.ofNat 32 (4 * j) := by
    intro j hj heq
    have hup : addr = (firstSaved saddr funcaddr args).sp +
        BitVec.ofNat 32 (4 * (args.length + 12 - j)) := by
      rw [heq, firstSaved_sp, show 4 * (args.length + 12) =
        4 * j + 4 * (args.length + 12 - j) by omega, BitVec.ofNat_add]
      bv_omega
    refine hother ?_
    rw [hup]
    exact mem_addrs (by rw [firstSaved_length]; omega)
  have hsp := foldl_sp (firstPushes saddr funcaddr args)
    (write32 mem saddr STACKMAGIC) saddr
  have haligned' := aligned_foldl (firstPushes saddr funcaddr args)
    (write32 mem saddr STACKMAGIC) haligned
  have hskip : addr ≠ ((firstPushes saddr funcaddr args).foldl pushWord
      (write32 mem saddr STACKMAGIC, saddr)).2 + 12 := by
    have hfar := hplace (args.length + 9) (by omega)
    rw [hsp, firstPushes_length, show 4 * (args.length + 12) =
      4 * (args.length + 9) + 12 by omega, BitVec.ofNat_add]
    intro heq
    refine hfar ?_
    rw [heq]
    bv_omega
  have hplace' : Aligned (((firstPushes saddr funcaddr args).foldl pushWord
      (write32 mem saddr STACKMAGIC, saddr)).2 + 12) := aligned_add haligned' 3
  have hmagic : addr ≠ saddr := by
    have hfar := hplace 0 (by omega)
    simpa using hfar
  rw [initStack_eq]
  dsimp only
  rw [read32_write32_of_ne hplace' haddr hskip,
    foldl_other haligned haddr fun k hk => hplace (k + 1) (by
      rw [firstPushes_length] at hk
      omega),
    read32_write32_of_ne haligned haddr hmagic]

end First

end Xinu.ContextSwitch
