import Xinu.CountingSemaphore
import Xinu.HeapFreeList
import Xinu.NullLists
import Xinu.TransitionSystem

/-!
# Buffer pools

A pool of buffers from mkbufpool.c, getbuf.c and freebuf.c, in byte-addressed
memory.  The first word of a free buffer links it to the next one, and that of
a buffer in use names its pool.  `getbuf` is one step unless its `wait` blocks;
then it ends when the process runs again.
-/

namespace Xinu.BufferPools

open ByteMemory FreeExtents TransitionSystem

def NBPOOLS : ℤ := 20
def BP_MINB : ℤ := 8
def BP_MAXB : ℤ := 8192
def BP_MAXN : ℤ := 2048

/-- A pool and the memory.  The last three fields record what `mkbufpool`
obtained and the buffers that `getbuf` has returned and nobody has freed. -/
structure Bpentry where
  mem : Memory
  bpnext : Word
  bpsize : Word
  bpsem : CountingSemaphore ℤ
  buf : Word
  numbufs : ℕ
  held : List Word

/-! ## mkbufpool.c -/

/-- The loop that links `n + 1` buffers. -/
def linkBuffers (bufsiz : Word) : ℕ → Word → Memory → Memory
  | 0, buf, mem => write32 mem buf NULL
  | n + 1, buf, mem =>
      linkBuffers bufsiz n (buf + bufsiz) (write32 mem buf (buf + bufsiz))

def roundBufsiz (bufsiz : ℤ) : Word := (BitVec.ofInt 32 bufsiz + 3) &&& ~~~3

/-- Room for the buffers, each with the identifier of its pool. -/
def poolBytes (bufsiz numbufs : ℤ) : Word :=
  BitVec.ofInt 32 numbufs * (roundBufsiz bufsiz + 4)

/-- `mkbufpool`, with `nbpools` pools so far and the outcome of `semcreate`;
it gives the new pool with its identifier, or an error. -/
def mkbufpool (bufsiz numbufs : ℤ) (nbpools : ℕ) (semcreate : Bool) (h : Heap) :
    Option (Heap × Option (ℤ × Bpentry)) :=
  if bufsiz < BP_MINB ∨ bufsiz > BP_MAXB ∨ numbufs < 1 ∨ numbufs > BP_MAXN ∨
      nbpools ≥ NBPOOLS then
    some (h, none)
  else
    (getmem (poolBytes bufsiz numbufs) h).bind fun (h, buf) =>
      if buf = SYSERR then some (h, none)
      else if semcreate = false then
        (freemem buf (poolBytes bufsiz numbufs) h).map fun (h, _) => (h, none)
      else
        let mem := linkBuffers (roundBufsiz bufsiz + 4) (numbufs.toNat - 1) buf
          h.mem
        some ({ h with mem := mem }, some (nbpools,
          ⟨mem, buf, roundBufsiz bufsiz, .init numbufs, buf, numbufs.toNat, []⟩))

/-! ## getbuf.c and freebuf.c -/

namespace Bpentry

variable (poolid : ℤ) (s : Bpentry)

/-- `getbuf` after `wait` has returned. -/
def take (pid : ℤ) : Bpentry :=
  { s with
    bpnext := read32 s.mem s.bpnext
    mem := write32 s.mem s.bpnext (BitVec.ofInt 32 poolid)
    bpsem := s.bpsem.goOn pid
    held := (s.bpnext + 4) :: s.held }

def getbuf (pid : ℤ) : Bpentry :=
  let s : Bpentry := { s with bpsem := s.bpsem.wait pid }
  if pid ∈ s.bpsem.passed then s.take poolid pid else s

/-- `freebuf`; the buffer goes to the pool that its first word names. -/
def freebuf (nbpools : ℤ) (bufaddr : Word) : Bpentry :=
  let block := bufaddr - 4
  let id := (read32 s.mem block).toInt
  if id < 0 ∨ id ≥ nbpools then s
  else if id ≠ poolid then { s with held := s.held.erase bufaddr }
  else
    { s with
      mem := write32 s.mem block s.bpnext
      bpnext := block
      bpsem := s.bpsem.signal
      held := s.held.erase bufaddr }

/-- The distance from one buffer to the next. -/
def stride : ℕ := s.bpsize.toNat + 4

/-- A process stores in a buffer that is held, or elsewhere. -/
def MayStore (addr : Word) : Prop :=
  ¬ (addr - s.buf).toNat < s.numbufs * s.stride ∨
    ∃ b ∈ s.held, (addr - b).toNat < s.bpsize.toNat

instance (addr : Word) : Decidable (s.MayStore addr) :=
  inferInstanceAs (Decidable (_ ∨ _))

end Bpentry

inductive PoolAction
  | getbuf (pid : ℤ)
  /-- A process that `signal` has made ready in `getbuf` runs again. -/
  | resume (pid : ℤ)
  | freebuf (nbpools : ℤ) (bufaddr : Word)
  | store (addr : Word) (value : BitVec 8)
  | kill (pid : ℤ)

/-- One step of the processes.  Only held buffers are freed. -/
def poolStep (poolid : ℤ) (s : Bpentry) : PoolAction → Option Bpentry
  | .getbuf pid =>
      if pid ∈ s.bpsem.waiting ∨ pid ∈ s.bpsem.passed then none
      else some (s.getbuf poolid pid)
  | .resume pid =>
      if pid ∈ s.bpsem.passed then some (s.take poolid pid) else none
  | .freebuf nbpools bufaddr =>
      if bufaddr ∈ s.held ∧ poolid < nbpools then
        some (s.freebuf poolid nbpools bufaddr)
      else none
  | .store addr value =>
      if s.MayStore addr then
        some { s with mem := Function.update s.mem addr value }
      else none
  | .kill pid => some { s with bpsem := s.bpsem.kill pid }

/-! ## What a pool should keep -/

namespace Bpentry

variable (s : Bpentry)

/-- The addresses of the buffers, with their first words. -/
def blocks : List Word :=
  (List.range s.numbufs).map fun i => s.buf + BitVec.ofNat 32 (i * s.stride)

def extents : List Extent :=
  (List.range s.numbufs).map fun i => ⟨s.buf.toNat + i * s.stride, s.stride⟩

end Bpentry

/-- The buffers divide the memory that has been obtained. -/
structure Divides (bufsiz numbufs : ℤ) (s : Bpentry) (obtained : Extent) :
    Prop where
  count : (s.extents.length : ℤ) = numbufs
  addresses : s.blocks.map BitVec.toNat = s.extents.map Extent.base
  room : ∀ e ∈ s.extents, (e.len : ℤ) = 4 + 4 * ((bufsiz + 3) / 4)
  apart : s.extents.Pairwise Extent.Apart
  inside : ∀ e ∈ s.extents, e.Inside obtained
  bytes : total s.extents = (poolBytes bufsiz numbufs).toNat

/-- The free buffers are those that nobody holds. -/
structure PoolLaw (poolid : ℤ) (s : Bpentry) : Prop where
  free : ∃ l, LinkedTable.Chain NULL (read32 s.mem) s.bpnext l ∧
    (l ++ s.held.map (· - 4)).Perm s.blocks ∧
      (l.length : ℤ) = max 0 s.bpsem.count + s.bpsem.passed.length
  held : s.held.Nodup
  ids : ∀ b ∈ s.held, read32 s.mem (b - 4) = BitVec.ofInt 32 poolid

def NoneKilledInside (s : Bpentry) : PoolAction → Prop
  | .kill pid => pid ∉ s.bpsem.waiting ∧ pid ∉ s.bpsem.passed
  | _ => True

/-- No process is killed between the signal that releases it and its run. -/
def NoneKilledReleased (s : Bpentry) : PoolAction → Prop
  | .kill pid => pid ∉ s.bpsem.passed
  | _ => True

instance (s : Bpentry) (action : PoolAction) :
    Decidable (NoneKilledInside s action) := by
  cases action <;> unfold NoneKilledInside <;> infer_instance

instance (s : Bpentry) (action : PoolAction) :
    Decidable (NoneKilledReleased s action) := by
  cases action <;> unfold NoneKilledReleased <;> infer_instance

/-! ## Where the buffers lie -/

/-- The buffers are words apart and inside the address space. -/
structure Region (s : Bpentry) : Prop where
  aligned : s.buf.toNat % 4 = 0
  size : s.bpsize.toNat % 4 = 0
  base_pos : 0 < s.buf.toNat
  top_le : s.buf.toNat + s.numbufs * s.stride ≤ 2 ^ 32

section Layout

variable {s : Bpentry} {w b addr : Word} {i j : ℕ}

theorem block_end (hi : i < s.numbufs) :
    i * s.stride + s.stride ≤ s.numbufs * s.stride := by
  rw [← Nat.succ_mul]
  exact Nat.mul_le_mul_right _ hi

theorem Region.block_toNat (h : Region s) (hi : i < s.numbufs) :
    (s.buf + BitVec.ofNat 32 (i * s.stride)).toNat =
      s.buf.toNat + i * s.stride := by
  have hend := block_end hi
  have htop := h.top_le
  have hstride : 0 < s.stride := Nat.succ_pos _
  rw [BitVec.toNat_add, BitVec.toNat_ofNat, Nat.mod_eq_of_lt (by omega),
    Nat.mod_eq_of_lt (by omega)]

theorem mem_blocks :
    w ∈ s.blocks ↔
      ∃ i < s.numbufs, s.buf + BitVec.ofNat 32 (i * s.stride) = w := by
  unfold Bpentry.blocks
  simp only [List.mem_map, List.mem_range]

theorem Region.block_aligned (h : Region s) (hw : w ∈ s.blocks) :
    Aligned w ∧ w ≠ NULL := by
  obtain ⟨i, hi, rfl⟩ := mem_blocks.mp hw
  have hat := h.block_toNat hi
  have hpos := h.base_pos
  constructor
  · unfold Aligned
    have hbuf := h.aligned
    have hstride : i * s.stride % 4 = 0 := by
      have hsize := h.size
      have hstep : s.stride % 4 = 0 := by
        unfold Bpentry.stride
        omega
      rw [Nat.mul_mod, hstep, Nat.mul_zero, Nat.zero_mod]
    omega
  · intro heq
    rw [heq] at hat
    have hzero : (NULL : Word).toNat = 0 := rfl
    omega

theorem Region.blocks_nodup (h : Region s) : s.blocks.Nodup := by
  unfold Bpentry.blocks
  refine List.Nodup.map_on ?_ List.nodup_range
  intro i hi j hj heq
  have hsame := congrArg BitVec.toNat heq
  rw [h.block_toNat (List.mem_range.mp hi), h.block_toNat (List.mem_range.mp hj)]
    at hsame
  have hstride : 0 < s.stride := Nat.succ_pos _
  exact Nat.eq_of_mul_eq_mul_right hstride (by omega)

theorem toNat_add_sub_base {base offset : Word} {d : ℕ}
    (hw : w.toNat = base.toNat + d) (hroom : base.toNat + d + offset.toNat < 2 ^ 32) :
    (w + offset - base).toNat = d + offset.toNat := by
  bv_omega

/-- The place of an address in a buffer, counted from the word before it. -/
theorem toNat_add_sub_first {offset : Word} {base d : ℕ}
    (hw : w.toNat + 4 ≤ 2 ^ 32) (hoffset : offset.toNat < 4)
    (hb : (b - 4).toNat = base) (hin : (w + offset - b).toNat < d)
    (hroom : base + 4 + d ≤ 2 ^ 32) :
    (w + offset - b).toNat + base + 4 = w.toNat + offset.toNat := by
  bv_omega

/-- The first words of the buffers are out of reach of the processes. -/
theorem Region.store_outside
    (h : Region s) (hheld : ∀ b ∈ s.held, b - 4 ∈ s.blocks)
    (hmay : s.MayStore addr) (hw : w ∈ s.blocks) {offset : Word}
    (hoffset : offset.toNat < 4) : w + offset ≠ addr := by
  obtain ⟨i, hi, hwi⟩ := mem_blocks.mp hw
  have hat := h.block_toNat hi
  rw [hwi] at hat
  have hend := block_end hi
  have htop := h.top_le
  have hstride : s.stride = s.bpsize.toNat + 4 := rfl
  rintro rfl
  rcases hmay with hout | ⟨b, hb, hin⟩
  · apply hout
    have hsum := toNat_add_sub_base hat (show _ + _ + offset.toNat < _ by omega)
    omega
  · obtain ⟨j, hj, hbj⟩ := mem_blocks.mp (hheld b hb)
    have hat' := h.block_toNat hj
    rw [hbj] at hat'
    have hend' := block_end hj
    have hsum := toNat_add_sub_first (by omega) hoffset hat' hin (by omega)
    rcases Nat.lt_trichotomy i j with hlt | rfl | hgt
    · have hle := Nat.mul_le_mul_right s.stride (Nat.succ_le_of_lt hlt)
      rw [Nat.succ_mul] at hle
      omega
    · omega
    · have hle := Nat.mul_le_mul_right s.stride (Nat.succ_le_of_lt hgt)
      rw [Nat.succ_mul] at hle
      omega

end Layout

/-! ## The invariant -/

structure PoolInv (poolid : ℤ) (s : Bpentry) (l : List Word) : Prop where
  region : Region s
  free : LinkedTable.Chain NULL (read32 s.mem) s.bpnext l
  blocks : (l ++ s.held.map (· - 4)).Perm s.blocks
  ids : ∀ b ∈ s.held, read32 s.mem (b - 4) = BitVec.ofInt 32 poolid
  sound : s.bpsem.Sound
  counted : s.bpsem.count + s.bpsem.inside = l.length

section Invariant

variable {poolid pid nbpools : ℤ} {s s' : Bpentry} {l : List Word} {addr b x : Word}
  {value : BitVec 8}

theorem PoolInv.mem_blocks_of_held (h : PoolInv poolid s l) (hb : b ∈ s.held) :
    b - 4 ∈ s.blocks :=
  h.blocks.mem_iff.mp (List.mem_append_right _ (List.mem_map_of_mem hb))

theorem PoolInv.mem_blocks_of_free (h : PoolInv poolid s l) (hx : x ∈ l) :
    x ∈ s.blocks :=
  h.blocks.mem_iff.mp (List.mem_append_left _ hx)

theorem PoolInv.nodup (h : PoolInv poolid s l) :
    l.Nodup ∧ (s.held.map (· - 4)).Nodup ∧
      ∀ x ∈ l, ∀ y ∈ s.held.map (· - 4), x ≠ y :=
  List.nodup_append.mp (h.blocks.nodup_iff.mpr h.region.blocks_nodup)

theorem PoolInv.length_eq (h : PoolInv poolid s l) :
    (l.length : ℤ) = max 0 s.bpsem.count + s.bpsem.passed.length := by
  have hcounted := h.counted
  have hinside := h.sound.count_inside
  omega

theorem PoolInv.law (h : PoolInv poolid s l) : PoolLaw poolid s where
  free := ⟨l, h.free, h.blocks, h.length_eq⟩
  held := h.nodup.2.1.of_map _
  ids := h.ids

/-- A write to the first word of a buffer leaves the other ones. -/
theorem PoolInv.read_other
    (h : PoolInv poolid s l) {w w' : Word} (hw : w ∈ s.blocks)
    (hw' : w' ∈ s.blocks) (hne : w' ≠ w) (word : Word) :
    read32 (write32 s.mem w word) w' = read32 s.mem w' :=
  read32_write32_of_ne (h.region.block_aligned hw).1
    (h.region.block_aligned hw').1 hne

theorem PoolInv.wait (h : PoolInv poolid s l) :
    PoolInv poolid { s with bpsem := s.bpsem.wait pid } l where
  region := ⟨h.region.aligned, h.region.size, h.region.base_pos,
    h.region.top_le⟩
  free := h.free
  blocks := h.blocks
  ids := h.ids
  sound := h.sound.wait
  counted := by
    have hcounted := h.counted
    simp only [CountingSemaphore.count_wait, CountingSemaphore.inside_wait]
    push_cast
    omega

/-- A process that has a permit finds a buffer. -/
theorem PoolInv.take (h : PoolInv poolid s l) (hpid : pid ∈ s.bpsem.passed) :
    ∃ l, PoolInv poolid (s.take poolid pid) l := by
  have hlen := h.length_eq
  have hpos := List.length_pos_of_mem hpid
  have hgone := CountingSemaphore.inside_goOn hpid
  have hcounted := h.counted
  obtain ⟨hnodup, hheld, hapart⟩ := h.nodup
  cases l with
  | nil =>
      rw [List.length_nil] at hlen
      omega
  | cons x rest =>
      obtain ⟨hx, hrest⟩ := h.free
      have hxb := h.mem_blocks_of_free (x := x) (by simp)
      rw [List.nodup_cons] at hnodup
      refine ⟨rest, ⟨h.region.aligned, h.region.size, h.region.base_pos,
        h.region.top_le⟩, ?_, ?_, ?_, h.sound.goOn, ?_⟩
      · show LinkedTable.Chain NULL (read32 (write32 s.mem s.bpnext _))
          (read32 s.mem s.bpnext) rest
        rw [hx]
        apply hrest.congr
        intro y hy
        apply h.read_other hxb (h.mem_blocks_of_free (by simp [hy]))
        rintro rfl
        exact hnodup.1 hy
      · show (rest ++ ((s.bpnext + 4) :: s.held).map (· - 4)).Perm s.blocks
        rw [List.map_cons, BitVec.add_sub_cancel, hx]
        exact List.perm_middle.trans h.blocks
      · intro b hb
        show read32 (write32 s.mem s.bpnext _) (b - 4) = _
        rw [hx]
        rcases List.mem_cons.mp hb with rfl | hb
        · rw [hx, BitVec.add_sub_cancel, read32_write32_self]
        · have hne : b - 4 ≠ x := fun heq =>
            hapart x (by simp) (b - 4) (List.mem_map_of_mem hb) heq.symm
          rw [h.read_other hxb (h.mem_blocks_of_held hb) hne]
          exact h.ids b hb
      · show s.bpsem.count + (s.bpsem.goOn pid).inside = rest.length
        rw [List.length_cons] at hcounted
        push_cast at hcounted
        omega

theorem PoolInv.getbuf (h : PoolInv poolid s l) :
    ∃ l, PoolInv poolid (s.getbuf poolid pid) l := by
  unfold Bpentry.getbuf
  dsimp only
  split_ifs with hpid
  · exact h.wait.take hpid
  · exact ⟨l, h.wait⟩

theorem PoolInv.freebuf
    (h : PoolInv poolid s l) (hb : b ∈ s.held) (hpoolid : 0 ≤ poolid)
    (hlt : poolid < NBPOOLS) (hnbpools : poolid < nbpools) :
    ∃ l, PoolInv poolid (s.freebuf poolid nbpools b) l := by
  have hid : (BitVec.ofInt 32 poolid).toInt = poolid := by
    unfold NBPOOLS at hlt
    rw [BitVec.toInt_ofInt, Int.bmod_eq_of_le] <;> omega
  unfold Bpentry.freebuf
  dsimp only
  rw [h.ids b hb, hid, if_neg (by omega), if_neg (by simp)]
  have hblock := h.mem_blocks_of_held hb
  obtain ⟨-, hheld, hapart⟩ := h.nodup
  have hout : ∀ x ∈ l, x ≠ b - 4 := fun x hx =>
    hapart x hx (b - 4) (List.mem_map_of_mem hb)
  have herase : s.held.Perm (b :: s.held.erase b) := List.perm_cons_erase hb
  refine ⟨(b - 4) :: l, ⟨h.region.aligned, h.region.size, h.region.base_pos,
    h.region.top_le⟩, ⟨rfl, ?_⟩, ?_, ?_, h.sound.signal, ?_⟩
  · show LinkedTable.Chain NULL (read32 (write32 s.mem (b - 4) s.bpnext))
      (read32 (write32 s.mem (b - 4) s.bpnext) (b - 4)) l
    rw [read32_write32_self]
    apply h.free.congr
    exact fun y hy => h.read_other hblock (h.mem_blocks_of_free hy) (hout y hy) _
  · show ((b - 4) :: l ++ (s.held.erase b).map (· - 4)).Perm s.blocks
    refine List.Perm.trans ?_ h.blocks
    rw [List.cons_append]
    exact (((herase.map (· - 4)).append_left l).trans List.perm_middle).symm
  · intro b' hb'
    show read32 (write32 s.mem (b - 4) s.bpnext) (b' - 4) = _
    have hnodup := herase.nodup_iff.mp (hheld.of_map _)
    have hne : b' - 4 ≠ b - 4 := by
      intro heq
      have hsame : b' = b := by bv_omega
      exact (List.nodup_cons.mp hnodup).1 (hsame ▸ hb')
    have hmem := List.mem_of_mem_erase hb'
    rw [h.read_other hblock (h.mem_blocks_of_held hmem) hne]
    exact h.ids b' hmem
  · have hcounted := h.counted
    rw [CountingSemaphore.count_signal, CountingSemaphore.inside_signal,
      List.length_cons]
    push_cast
    omega

theorem PoolInv.store (h : PoolInv poolid s l) (hmay : s.MayStore addr) :
    PoolInv poolid { s with mem := Function.update s.mem addr value } l := by
  have hword : ∀ w ∈ s.blocks,
      read32 (Function.update s.mem addr value) w = read32 s.mem w := by
    intro w hw
    apply read32_congr
    intro offset hoffset
    exact Function.update_of_ne (h.region.store_outside
      (fun b hb => h.mem_blocks_of_held hb) hmay hw hoffset) _ _
  refine ⟨⟨h.region.aligned, h.region.size, h.region.base_pos,
    h.region.top_le⟩, ?_, h.blocks, ?_, h.sound, h.counted⟩
  · exact h.free.congr fun y hy => hword y (h.mem_blocks_of_free hy)
  · intro b hb
    exact (hword _ (h.mem_blocks_of_held hb)).trans (h.ids b hb)

theorem PoolInv.kill (h : PoolInv poolid s l) (hpid : pid ∉ s.bpsem.passed) :
    PoolInv poolid { s with bpsem := s.bpsem.kill pid } l where
  region := ⟨h.region.aligned, h.region.size, h.region.base_pos,
    h.region.top_le⟩
  free := h.free
  blocks := h.blocks
  ids := h.ids
  sound := h.sound.kill
  counted := (CountingSemaphore.count_inside_kill hpid).trans h.counted

theorem PoolInv.step
    {action : PoolAction} (h : PoolInv poolid s l) (hpoolid : 0 ≤ poolid)
    (hlt : poolid < NBPOOLS) (hallowed : NoneKilledReleased s action)
    (hstep : poolStep poolid s action = some s') : ∃ l, PoolInv poolid s' l := by
  cases action with
  | getbuf pid =>
      simp only [poolStep] at hstep
      split_ifs at hstep
      cases hstep
      exact h.getbuf
  | resume pid =>
      simp only [poolStep] at hstep
      split_ifs at hstep with hpid
      cases hstep
      exact h.take hpid
  | freebuf nbpools b =>
      simp only [poolStep] at hstep
      split_ifs at hstep with hb
      cases hstep
      exact h.freebuf hb.1 hpoolid hlt hb.2
  | store addr value =>
      simp only [poolStep] at hstep
      split_ifs at hstep with hmay
      cases hstep
      exact ⟨l, h.store hmay⟩
  | kill pid =>
      cases hstep
      exact ⟨l, h.kill hallowed⟩

end Invariant

/-! ## Making a pool -/

section Making

variable {bufsiz numbufs poolid : ℤ} {nbpools : ℕ} {semcreate : Bool} {h h' : Heap}
  {l : List Extent} {s : Bpentry} {step buf : Word} {mem : Memory} {n : ℕ}

theorem add_step
    (htop : buf.toNat + (n + 2) * step.toNat ≤ 2 ^ 32)
    (hstep : 0 < step.toNat) :
    (buf + step).toNat = buf.toNat + step.toNat ∧
      (buf + step).toNat + (n + 1) * step.toNat ≤ 2 ^ 32 := by
  have hsplit : (n + 2) * step.toNat = (n + 1) * step.toNat + step.toNat :=
    Nat.succ_mul _ _
  have hfirst : step.toNat ≤ (n + 1) * step.toNat :=
    Nat.le_mul_of_pos_left _ n.succ_pos
  have hadd : (buf + step).toNat = buf.toNat + step.toNat := by
    rw [BitVec.toNat_add, Nat.mod_eq_of_lt (by omega)]
  omega

/-- The loop writes no word below the first buffer. -/
theorem linkBuffers_below
    {w : Word} (hw : Aligned w) (hbuf : buf.toNat % 4 = 0)
    (hmod : step.toNat % 4 = 0) (hstep : 0 < step.toNat)
    (htop : buf.toNat + (n + 1) * step.toNat ≤ 2 ^ 32)
    (hlt : w.toNat < buf.toNat) :
    read32 (linkBuffers step n buf mem) w = read32 mem w := by
  induction n generalizing buf mem with
  | zero => exact read32_write32_of_ne hbuf hw (by rintro rfl; omega)
  | succ n ih =>
      obtain ⟨hadd, htop⟩ := add_step htop hstep
      rw [linkBuffers, ih (by omega) htop (by omega)]
      exact read32_write32_of_ne hbuf hw (by rintro rfl; omega)

theorem linkBuffers_chain
    (hbuf : buf.toNat % 4 = 0) (hmod : step.toNat % 4 = 0)
    (hstep : 0 < step.toNat)
    (htop : buf.toNat + (n + 1) * step.toNat ≤ 2 ^ 32) :
    LinkedTable.Chain NULL (read32 (linkBuffers step n buf mem)) buf
      ((List.range (n + 1)).map fun i =>
        buf + BitVec.ofNat 32 (i * step.toNat)) := by
  induction n generalizing buf mem with
  | zero =>
      refine ⟨by simp, ?_⟩
      simp [linkBuffers, LinkedTable.Chain]
  | succ n ih =>
      obtain ⟨hadd, htop⟩ := add_step htop hstep
      have hrest : ∀ i, buf + BitVec.ofNat 32 ((i + 1) * step.toNat) =
          buf + step + BitVec.ofNat 32 (i * step.toNat) := by
        intro i
        rw [Nat.succ_mul, BitVec.ofNat_add, BitVec.ofNat_toNat,
          BitVec.setWidth_eq, BitVec.add_assoc, BitVec.add_comm step]
      have hlink : read32 (linkBuffers step (n + 1) buf mem) buf =
          buf + step := by
        rw [linkBuffers, linkBuffers_below hbuf (by omega) hmod hstep htop
          (by omega), read32_write32_self]
      rw [List.range_succ_eq_map, List.map_cons, List.map_map]
      refine ⟨by simp, ?_⟩
      have hzero : buf + BitVec.ofNat 32 (0 * step.toNat) = buf := by simp
      rw [hzero, hlink]
      simp only [Function.comp_def, Nat.succ_eq_add_one, hrest]
      exact ih (by omega) htop

theorem roundBufsiz_toNat (hmin : 0 ≤ bufsiz) (hmax : bufsiz ≤ BP_MAXB) :
    ((roundBufsiz bufsiz).toNat : ℤ) = 4 * ((bufsiz + 3) / 4) := by
  have hshift : ∀ x : Word, x &&& ~~~(3 : Word) = (x >>> 2) <<< 2 := by
    intro x
    apply BitVec.eq_of_getLsbD_eq
    intro i hi
    interval_cases i <;> simp
  unfold BP_MAXB at hmax
  obtain ⟨k, rfl⟩ := Int.eq_ofNat_of_zero_le hmin
  have hsum : (BitVec.ofInt 32 (k : ℤ) + 3).toNat = k + 3 := by
    rw [BitVec.ofInt_natCast]
    have hk : (BitVec.ofNat 32 k).toNat = k := by
      rw [BitVec.toNat_ofNat, Nat.mod_eq_of_lt (by omega)]
    bv_omega
  rw [roundBufsiz, hshift, BitVec.toNat_shiftLeft, BitVec.toNat_ushiftRight,
    hsum, Nat.shiftLeft_eq, Nat.shiftRight_eq_div_pow]
  omega

theorem poolBytes_toNat
    (hmin : 0 ≤ bufsiz) (hmax : bufsiz ≤ BP_MAXB) (hpos : 1 ≤ numbufs)
    (hmaxn : numbufs ≤ BP_MAXN) :
    (poolBytes bufsiz numbufs).toNat =
        numbufs.toNat * ((roundBufsiz bufsiz).toNat + 4) ∧
      (poolBytes bufsiz numbufs).toNat ≤ 2048 * 8196 := by
  have hround := roundBufsiz_toNat hmin hmax
  unfold BP_MAXB at hmax
  unfold BP_MAXN at hmaxn
  have hprod : numbufs.toNat * ((roundBufsiz bufsiz).toNat + 4) ≤ 2048 * 8196 :=
    Nat.mul_le_mul (by omega) (by omega)
  have hcount : (BitVec.ofInt 32 numbufs).toNat = numbufs.toNat := by
    rw [BitVec.toNat_ofInt]
    omega
  have hsize : (roundBufsiz bufsiz + 4).toNat = (roundBufsiz bufsiz).toNat + 4 := by
    bv_omega
  have hbytes : (poolBytes bufsiz numbufs).toNat =
      numbufs.toNat * ((roundBufsiz bufsiz).toNat + 4) := by
    rw [poolBytes, BitVec.toNat_mul, hcount, hsize, Nat.mod_eq_of_lt (by omega)]
  omega

theorem Region.addresses (hs : Region s) :
    s.blocks.map BitVec.toNat = s.extents.map Extent.base := by
  unfold Bpentry.blocks Bpentry.extents
  rw [List.map_map, List.map_map]
  exact List.map_congr_left fun i hi => hs.block_toNat (List.mem_range.mp hi)

theorem extents_apart : s.extents.Pairwise Extent.Apart := by
  unfold Bpentry.extents
  rw [List.pairwise_map]
  refine List.pairwise_lt_range.imp ?_
  intro i j hlt
  have hle := Nat.mul_le_mul_right s.stride (Nat.succ_le_of_lt hlt)
  rw [Nat.succ_mul] at hle
  left
  show s.buf.toNat + i * s.stride + s.stride ≤ s.buf.toNat + j * s.stride
  omega

theorem extents_inside
    {obtained e : Extent} (hbase : obtained.base = s.buf.toNat)
    (hlen : s.numbufs * s.stride ≤ obtained.len) (he : e ∈ s.extents) :
    e.Inside obtained := by
  unfold Bpentry.extents at he
  obtain ⟨i, hi, rfl⟩ := List.mem_map.mp he
  have hend := block_end (s := s) (List.mem_range.mp hi)
  constructor
  · show obtained.base ≤ s.buf.toNat + i * s.stride
    omega
  · show s.buf.toNat + i * s.stride + s.stride ≤ obtained.base + obtained.len
    omega

theorem total_extents : total s.extents = s.numbufs * s.stride := by
  unfold total Bpentry.extents
  rw [List.map_map]
  simp [Function.comp_def]

/-- Memory that `getmem` gives starts at a multiple of eight. -/
theorem getmem_placed
    {nbytes : Word} {h₁ : Heap} (hwf : WellFormed h l) (hpos : 0 < nbytes.toNat)
    (hbound : nbytes.toNat ≤ 2 ^ 32 - 8)
    (hget : getmem nbytes h = some (h₁, buf)) (hok : buf ≠ SYSERR) :
    ∃ obtained l', Carved obtained l l' ∧ Placeable obtained ∧
      buf = blockAddr obtained ∧ nbytes.toNat ≤ obtained.len := by
  have hspec := getmem_spec hwf hpos hbound
  obtain ⟨hdvd, hsize, hcovers⟩ := roundmb_request hpos hbound
  cases hcarve : carveFirst (roundmb nbytes).toNat l with
  | none =>
      rw [hcarve] at hspec
      dsimp only at hspec
      rw [hspec, Option.some.injEq, Prod.mk.injEq] at hget
      exact absurd hget.2.symm hok
  | some r =>
      rw [hcarve] at hspec
      obtain ⟨h₂, hgot, -⟩ := hspec
      rw [hgot, Option.some.injEq, Prod.mk.injEq] at hget
      obtain ⟨pre, e, post, hl, -, hfit, rfl⟩ := carveFirst_split hcarve
      have hplace := hwf.placeable (e := e) (by simp [hl])
      have htop := hplace.top_le
      unfold Extent.top at htop
      refine ⟨⟨e.base, (roundmb nbytes).toNat⟩, _, carveFirst_carved hcarve,
        ⟨⟨hplace.granular.base_dvd, hdvd, hsize⟩, hplace.base_pos, ?_⟩,
        hget.2.symm, hcovers⟩
      unfold Extent.top
      dsimp only
      omega

/-- What `mkbufpool` leaves when it makes a pool. -/
theorem mkbufpool_spec
    (hwf : WellFormed h l)
    (hmake : mkbufpool bufsiz numbufs nbpools semcreate h =
      some (h', some (poolid, s))) :
    poolid = nbpools ∧ poolid < NBPOOLS ∧
      (∃ obtained l', Carved obtained l l' ∧ Divides bufsiz numbufs s obtained) ∧
        PoolInv poolid s s.blocks := by
  unfold mkbufpool at hmake
  by_cases hrefused : bufsiz < BP_MINB ∨ bufsiz > BP_MAXB ∨ numbufs < 1 ∨
      numbufs > BP_MAXN ∨ nbpools ≥ NBPOOLS
  · rw [if_pos hrefused] at hmake
    simp at hmake
  rw [if_neg hrefused] at hmake
  push Not at hrefused
  obtain ⟨hminb, hmaxb, hone, hmaxn, hpools⟩ := hrefused
  unfold BP_MINB at hminb
  have hround := roundBufsiz_toNat (by omega) hmaxb
  obtain ⟨hbytes, hbound⟩ := poolBytes_toNat (by omega) hmaxb hone hmaxn
  have hroom : 0 < numbufs.toNat * ((roundBufsiz bufsiz).toNat + 4) :=
    Nat.mul_pos (by omega) (by omega)
  obtain ⟨⟨h₁, buf⟩, hget, hmake⟩ := Option.bind_eq_some_iff.mp hmake
  dsimp only at hmake
  split_ifs at hmake with hfail hsem
  · simp at hmake
  · simp at hmake
  obtain ⟨obtained, l', hcarved, hplace, hbuf, hlen⟩ :=
    getmem_placed hwf (by omega) (by omega) hget hfail
  have haddr := hplace.blockAddr_toNat
  have hdvd := hplace.granular.base_dvd
  have hbase := hplace.base_pos
  have htop := hplace.top_le
  unfold Extent.top at htop
  rw [← hbuf] at haddr
  have hstep : (roundBufsiz bufsiz + 4).toNat = (roundBufsiz bufsiz).toNat + 4 := by
    unfold BP_MAXB at hmaxb
    bv_omega
  simp only [Option.some.injEq, Prod.mk.injEq] at hmake
  obtain ⟨-, hid, rfl⟩ := hmake
  obtain ⟨k, hk⟩ : ∃ k, numbufs.toNat = k + 1 := ⟨numbufs.toNat - 1, by omega⟩
  have hregion : Region ⟨linkBuffers (roundBufsiz bufsiz + 4) (numbufs.toNat - 1)
      buf h₁.mem, buf, roundBufsiz bufsiz, .init numbufs, buf, numbufs.toNat,
      []⟩ := by
    refine ⟨?_, ?_, ?_, ?_⟩
    · show buf.toNat % 4 = 0
      omega
    · show (roundBufsiz bufsiz).toNat % 4 = 0
      omega
    · show 0 < buf.toNat
      omega
    · show buf.toNat + numbufs.toNat * ((roundBufsiz bufsiz).toNat + 4) ≤ 2 ^ 32
      omega
  refine ⟨hid.symm, by omega, ⟨obtained, l', hcarved, ?_, hregion.addresses, ?_,
    extents_apart, fun e he => extents_inside haddr.symm ?_ he, ?_⟩, hregion, ?_,
    ?_, ?_, .init (by omega), ?_⟩
  · show ((List.map _ (List.range numbufs.toNat)).length : ℤ) = numbufs
    rw [List.length_map, List.length_range]
    omega
  · intro e he
    obtain ⟨i, -, rfl⟩ := List.mem_map.mp he
    show (((roundBufsiz bufsiz).toNat + 4 : ℕ) : ℤ) = _
    push_cast
    omega
  · show numbufs.toNat * ((roundBufsiz bufsiz).toNat + 4) ≤ obtained.len
    omega
  · rw [total_extents, hbytes]
    rfl
  · show LinkedTable.Chain NULL (read32 (linkBuffers (roundBufsiz bufsiz + 4)
      (numbufs.toNat - 1) buf h₁.mem)) buf ((List.range numbufs.toNat).map
        fun i => buf + BitVec.ofNat 32 (i * ((roundBufsiz bufsiz).toNat + 4)))
    rw [hk, Nat.add_sub_cancel, ← hstep]
    rw [hk, ← hstep] at hbytes
    exact linkBuffers_chain (by omega) (by omega) (by omega) (by omega)
  · rw [List.map_nil, List.append_nil]
  · intro b hb
    simp at hb
  · show numbufs + ((0 + 0 : ℕ) : ℤ) = ((List.map _ (List.range _)).length : ℤ)
    rw [List.length_map, List.length_range]
    push_cast
    omega

/-! ## Pools over whole runs -/

theorem PoolInv.reach
    {s₀ : Bpentry} {blocks : List Word} (hstart : PoolInv poolid s₀ blocks)
    (hpoolid : 0 ≤ poolid) (hlt : poolid < NBPOOLS)
    (hreach : Reach (poolStep poolid) NoneKilledReleased s₀ s) :
    ∃ free, PoolInv poolid s free :=
  hreach.invariant (fun s => ∃ free, PoolInv poolid s free) ⟨blocks, hstart⟩
    fun _ _ _ ⟨_, hinv⟩ hallowed hstep =>
      hinv.step hpoolid hlt hallowed hstep

theorem NoneKilledInside.released {action : PoolAction}
    (h : NoneKilledInside s action) : NoneKilledReleased s action := by
  cases action with
  | kill pid => exact h.2
  | _ => exact h

/-- The pool is cut out of free memory into its buffers, and while nobody is
killed inside `getbuf` every buffer is free or held by one process. -/
theorem buffer_pool_sound
    {s₀ : Bpentry} (hwf : WellFormed h l)
    (hmake : mkbufpool bufsiz numbufs nbpools semcreate h =
      some (h', some (poolid, s₀)))
    (hreach : Reach (poolStep poolid) NoneKilledInside s₀ s) :
    (∃ obtained l', Carved obtained l l' ∧ Divides bufsiz numbufs s₀ obtained) ∧
      PoolLaw poolid s := by
  obtain ⟨hid, hlt, hdivides, hinv⟩ := mkbufpool_spec hwf hmake
  have hpoolid : 0 ≤ poolid := by omega
  obtain ⟨free, hinv⟩ := hinv.reach hpoolid hlt
    (hreach.mono fun _ _ hallowed => hallowed.released)
  exact ⟨hdivides, hinv.law⟩

end Making

/-- Two buffers of twelve bytes; a third process waits for one of them. -/
theorem buffer_pool_sound_two_buffers :
    ∃ h' s₀ s, mkbufpool 9 2 0 true
        (singleBlockHeap ⟨4096, 64⟩ 4096 8191 fun _ => 0) =
          some (h', some (0, s₀)) ∧
      Reach (poolStep 0) NoneKilledInside s₀ s ∧ s.held = [4100, 4116] ∧
        PoolLaw 0 s := by
  have hwf : WellFormed (singleBlockHeap ⟨4096, 64⟩ 4096 8191 fun _ => 0)
      [⟨4096, 64⟩] := by
    apply singleBlockHeap_wellFormed
    · exact ⟨by decide, by decide, by decide⟩
    · exact ⟨by decide, by decide⟩
    · decide
  have hview : ((mkbufpool 9 2 0 true
      (singleBlockHeap ⟨4096, 64⟩ 4096 8191 fun _ => 0)).bind fun r =>
        r.2.bind fun p => (run (fun s action =>
          if NoneKilledInside s action then poolStep p.1 s action else none) p.2
            [.getbuf 1, .getbuf 2, .getbuf 3, .freebuf 1 4100, .resume 3]).map
              fun s => (p.1, s.held)) = some (0, [4100, 4116]) := by
    decide
  obtain ⟨⟨h', made⟩, hmake, hview⟩ := Option.bind_eq_some_iff.mp hview
  obtain ⟨⟨poolid, s₀⟩, rfl, hview⟩ := Option.bind_eq_some_iff.mp hview
  obtain ⟨s, hrun, hs⟩ := Option.map_eq_some_iff.mp hview
  obtain ⟨rfl, hheld⟩ := Prod.mk.inj hs
  have hreach := Reach.run_checked _ .start hrun
  exact ⟨h', s₀, s, hmake, hreach, hheld, (buffer_pool_sound hwf hmake hreach).2⟩

end Xinu.BufferPools
