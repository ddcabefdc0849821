import Xinu.ProcessSwitches
import Xinu.StraddledHeap

/-!
# Stacks that come and go

A process gets its stack from `getstk` and gives it back through `freestk`; what
else happens to the process makes no difference to the heap.  The stacks of a
run tile what has been handed out of the free list of the boot, as long as each
of them was taken from above the header of the first block.
-/

namespace Xinu

open ByteMemory FreeExtents TransitionSystem Kernel
open ContextSwitch.System (stackSize)

/-! ## Processes and their stacks -/

/-- What a table entry says about the stack; the states other than `PR_FREE`
make no difference here. -/
structure StackEntry where
  free : Bool
  prstkbase : Word
  prstklen : Word

structure Stacks where
  heap : Heap
  proctab : ℤ → StackEntry

/-- A process gets entry `pid` and a stack, or the process there gives its stack
back. -/
inductive StackCall where
  | create (pid : ℤ) (funcaddr ssize : Word) (args : List Word)
  | release (pid : ℤ)

/-- A stack that is taken from the free list has its place in one block above
the header of the first block, with room for the arguments. -/
def Heap.RoomAbove (h : Heap) (size : Word) (nargs : ℕ) : Prop :=
  size ≠ 0 → (∃ block ∈ h.freeList, size ≤ h.mlength (some block)) →
    4 * (nargs + 13) ≤ size.toNat ∧
      ∃ block ∈ h.freeList.tail, size ≤ h.mlength (some block) ∧
        (h.mnext none).toNat + 8 + size.toNat ≤
          block.toNat + (h.mlength (some block)).toNat

-- The list is searched, not the whole type of addresses.
instance (h : Heap) (size : Word) (nargs : ℕ) :
    Decidable (h.RoomAbove size nargs) :=
  letI := List.decidableBEx (fun block => size ≤ h.mlength (some block))
    h.freeList
  letI := List.decidableBEx (fun block => size ≤ h.mlength (some block) ∧
    (h.mnext none).toNat + 8 + size.toNat ≤
      block.toNat + (h.mlength (some block)).toNat) h.freeList.tail
  inferInstanceAs (Decidable (_ → _ → _))

namespace Stacks

variable (s : Stacks)

/-- A process that is not the null process. -/
def Created (p : ℤ) : Prop := p ≠ NULLPROC ∧ (s.proctab p).free = false

instance (p : ℤ) : Decidable (s.Created p) :=
  inferInstanceAs (Decidable (_ ∧ _))

def create (pid : ℤ) (funcaddr ssize : Word) (args : List Word) :
    Option Stacks :=
  (getstk (stackSize ssize) s.heap).map fun (heap, saddr) =>
    if saddr = SYSERR then { s with heap := heap }
    else
      { heap := { heap with mem := (initStack heap.mem saddr funcaddr args).1 }
        proctab := Function.update s.proctab pid
          ⟨false, saddr, stackSize ssize⟩ }

def release (pid : ℤ) : Option Stacks :=
  (freestk (s.proctab pid).prstkbase (s.proctab pid).prstklen s.heap).map
    fun (heap, _) =>
      { heap := heap
        proctab := Function.update s.proctab pid
          { s.proctab pid with free := true } }

def step : StackCall → Option Stacks
  | .create pid funcaddr ssize args =>
      if 0 ≤ pid ∧ pid < NPROC ∧ (s.proctab pid).free then
        s.create pid funcaddr ssize args
      else none
  | .release pid => if s.Created pid then s.release pid else none

def RoomAbove : StackCall → Prop
  | .create _ _ ssize args => s.heap.RoomAbove (stackSize ssize) args.length
  | .release _ => True

def block (p : ℤ) : LiveBlock :=
  stackBlock (s.proctab p).prstkbase (s.proctab p).prstklen

/-- How many created processes have the address `x` in their stack. -/
def held (x : Word) : ℕ :=
  ((List.range NPROC.toNat).map fun i : ℕ =>
    if s.Created i then (s.block i).extent.tally x.toNat else 0).sum

end Stacks

/-- The stack of every process can be released, free addresses and stacks are
together what was free at boot, and this is what is left without processes. -/
structure StackLaw (s₀ s : Stacks) : Prop where
  returned : ∀ p, s.Created p → ∃ h',
    freestk (s.proctab p).prstkbase (s.proctab p).prstklen s.heap =
        some (h', OK) ∧
      ∀ x, h'.cover x = s.heap.cover x + (s.block p).extent.tally x.toNat
  balanced : ∀ x, s.heap.cover x + s.held x = s₀.heap.cover x
  gone : (∀ p, ¬ s.Created p) → ∀ x, s.heap.cover x = s₀.heap.cover x

section Invariant

variable {low high bytes : ℕ} {first mh len : Word} {l₀ l : List Extent}
variable {s s' : Stacks} {procs : List ℤ} {v : Heap} {p pid : ℤ}

/-- `procs` are the created processes; their stacks are what has been handed
out of the list `l₀`. -/
structure StackInv
    (low high bytes : ℕ) (first mh len : Word) (l₀ : List Extent) (s : Stacks)
    (procs : List ℤ) (v : Heap) (l : List Extent) : Prop where
  front : FrontInv low high bytes first mh len s.heap (procs.map s.block) v l
  balance : ∀ x, covers (procs.map fun p => (s.block p).extent) x +
    covers l x = covers l₀ x
  nodup : procs.Nodup
  mem_iff : ∀ p, p ∈ procs ↔ s.Created p
  ids : ∀ p ∈ procs, ProcId p
  rounded : ∀ p ∈ procs,
    roundmb (s.proctab p).prstklen = (s.proctab p).prstklen
  null : (s.proctab NULLPROC).free = false

theorem roundmb_multiple (x : Word) :
    (roundmb x).toNat ≤ 2 ^ 32 - 8 ∧ roundmb (roundmb x) = roundmb x := by
  have hround : (roundmb x).toNat = (7 + x).toNat / 8 * 8 := truncmb_toNat (7 + x)
  have hlt := (7 + x).isLt
  have hle : (roundmb x).toNat ≤ 2 ^ 32 - 8 := by omega
  refine ⟨hle, ?_⟩
  apply BitVec.eq_of_toNat_eq
  rw [roundmb_toNat hle]
  omega

/-- The stack of every process can be released. -/
theorem StackInv.released
    (h : StackInv low high bytes first mh len l₀ s procs v l)
    (hp : p ∈ procs) :
    ∃ h' v', freestk (s.proctab p).prstkbase (s.proctab p).prstklen s.heap =
        some (h', OK) ∧
      FrontInv low high bytes first mh len h' ((procs.erase p).map s.block) v'
        (release (s.block p).extent l) := by
  have hmem : s.block p ∈ procs.map s.block := List.mem_map_of_mem hp
  have hsize : SizeOk (s.proctab p).prstklen := h.front.inv.sizes _ hmem
  have hround := h.rounded p hp
  obtain ⟨h', v', hfree, hfront⟩ := h.front.release hmem
    (roundmb_roundmb hsize.2) (roundmb_ne_zero hsize)
  refine ⟨h', v', hfree, hfront.perm ?_⟩
  have hperm : (procs.map s.block).Perm
      (s.block p :: (procs.erase p).map s.block) :=
    (List.perm_cons_erase hp).map s.block
  have herase := hperm.erase (s.block p)
  rwa [List.erase_cons_head] at herase

theorem StackInv.release
    (h : StackInv low high bytes first mh len l₀ s procs v l)
    (hp : p ∈ procs) (hrelease : s.release p = some s') :
    ∃ v', StackInv low high bytes first mh len l₀ s' (procs.erase p) v'
      (release (s.block p).extent l) := by
  obtain ⟨h', v', hfree, hfront⟩ := h.released hp
  unfold Stacks.release at hrelease
  rw [hfree, Option.map_some, Option.some.injEq] at hrelease
  subst hrelease
  have hne : ∀ {q}, q ∈ procs.erase p → q ≠ p := fun hq =>
    ((h.nodup.mem_erase_iff).mp hq).1
  have hold : ∀ {q}, q ∈ procs.erase p → q ∈ procs := List.mem_of_mem_erase
  have hproc : ∀ {q}, q ≠ p → Function.update s.proctab p
      { s.proctab p with free := true } q = s.proctab q := fun hq =>
    Function.update_of_ne hq _ _
  have hcreated := (h.mem_iff p).mp hp
  have hblocks : ∀ {α : Type} (f : LiveBlock → α),
      (procs.erase p).map (fun q => f (Stacks.block ⟨h', Function.update
        s.proctab p { s.proctab p with free := true }⟩ q)) =
          (procs.erase p).map fun q => f (s.block q) := by
    intro α f
    apply List.map_congr_left
    intro q hq
    simp only [Stacks.block, hproc (hne hq)]
  refine ⟨v', ?_, ?_, h.nodup.erase p, ?_, fun q hq => h.ids q (hold hq), ?_,
    ?_⟩
  · exact (hblocks id).symm ▸ hfront
  · intro x
    have hperm := (List.perm_cons_erase hp).map fun q => (s.block q).extent
    have hall := covers_perm hperm x
    have hbalance := h.balance x
    rw [List.map_cons, covers_cons] at hall
    rw [hblocks LiveBlock.extent, covers_release]
    omega
  · intro q
    rw [h.nodup.mem_erase_iff, h.mem_iff]
    unfold Stacks.Created
    dsimp only
    by_cases hq : q = p
    · simp [hq]
    · rw [hproc hq]
      simp [hq]
  · intro q hq
    dsimp only
    rw [hproc (hne hq)]
    exact h.rounded q (hold hq)
  · dsimp only
    rw [hproc hcreated.1.symm]
    exact h.null

/-- Where `create` writes: inside the stack. -/
theorem initStack_outside
    {mem : Memory} {base size funcaddr addr : Word} {args : List Word}
    (hbase : base.toNat % 8 = 0) (hsize : size.toNat % 8 = 0)
    (htop : base.toNat + size.toNat ≤ 2 ^ 32)
    (hroom : 4 * (args.length + 13) ≤ size.toNat) (haddr : addr.toNat % 4 = 0)
    (hout : addr.toNat < base.toNat ∨ base.toNat + size.toNat ≤ addr.toNat) :
    read32 (initStack mem (base + size - 4) funcaddr args).1 addr =
      read32 mem addr := by
  have hlt := base.isLt
  have hsaddr : (base + size - 4).toNat = base.toNat + size.toNat - 4 := by
    rw [show base + size - 4 = base + (size - 4) by bv_omega, BitVec.toNat_add,
      BitVec.toNat_sub]
    show (base.toNat + (2 ^ 32 - 4 + size.toNat) % 2 ^ 32) % 2 ^ 32 = _
    omega
  apply ContextSwitch.initStack_other
  · show (base + size - 4).toNat % 4 = 0
    omega
  · exact haddr
  · have hbound := size.isLt
    omega
  · intro hmem
    obtain ⟨j, hj, rfl⟩ := List.mem_map.mp hmem
    rw [List.mem_range, ContextSwitch.firstSaved_length] at hj
    have hplace : ((ContextSwitch.firstSaved (base + size - 4) funcaddr
        args).sp + BitVec.ofNat 32 (4 * j)).toNat =
          base.toNat + size.toNat - 4 - 4 * (args.length + 12) + 4 * j := by
      rw [ContextSwitch.firstSaved_sp, BitVec.toNat_add, BitVec.toNat_sub,
        hsaddr, BitVec.toNat_ofNat, BitVec.toNat_ofNat]
      omega
    rw [hplace] at hout
    omega

theorem FrontInv.initStack
    {h : Heap} {live : List LiveBlock} {base size : Word} {args : List Word}
    (hf : FrontInv low high bytes first mh len h live v l)
    (hmem : ⟨base, size⟩ ∈ live) (hround : roundmb size = size)
    (hargs : 4 * (args.length + 13) ≤ size.toNat) (funcaddr : Word) :
    FrontInv low high bytes first mh len
      { h with mem :=
        (Kernel.initStack h.mem (base + size - 4) funcaddr args).1 } live
      { v with mem :=
        (Kernel.initStack h.mem (base + size - 4) funcaddr args).1 } l := by
  have hext : LiveBlock.extent ⟨base, size⟩ ∈
      (⟨v, live⟩ : AllocState).liveExtents := List.mem_map_of_mem hmem
  have hgran := hf.inv.partitioned.live_granular _ hext
  have hwithin := hf.inv.partitioned.live_within _ hext
  have hhigh := hf.inv.high_lt
  have hplace : LiveBlock.extent ⟨base, size⟩ =
      ⟨base.toNat, size.toNat⟩ := by rw [LiveBlock.extent, hround]
  have hbase : 8 ∣ base.toNat := hgran.base_dvd
  have hsize := hgran.len_dvd
  rw [hplace] at hwithin hsize
  have htop : base.toNat + size.toNat ≤ high := hwithin.2
  apply hf.write hmem
  intro addr haddr hout
  rw [hplace] at hout
  exact initStack_outside (Nat.mod_eq_zero_of_dvd hbase)
    (Nat.mod_eq_zero_of_dvd hsize) (by omega) hargs haddr hout

theorem FrontInv.room
    {h : Heap} {live : List LiveBlock} {size : Word}
    (hf : FrontInv low high bytes first mh len h live v l)
    (hroom : ∃ block ∈ h.freeList.tail, size ≤ h.mlength (some block) ∧
      (h.mnext none).toNat + 8 + size.toNat ≤
        block.toNat + (h.mlength (some block)).toNat) :
    ∃ e ∈ l, size.toNat ≤ e.len ∧ first.toNat + 8 + size.toNat ≤ e.top := by
  obtain ⟨ml, rfl⟩ := hf.heap
  have hwf := hf.inv.wellFormed
  rw [freeList_front hwf hf.ne_null hf.link, List.tail_cons] at hroom
  obtain ⟨block, hmem, hfit, habove⟩ := hroom
  obtain ⟨e, he, rfl⟩ := List.mem_map.mp hmem
  have hplace := hwf.placeable he
  have hmlen : (v.front first ml mh).mlength (some (blockAddr e)) =
      BitVec.ofNat 32 e.len := threaded_mlength hwf.chain.1 he
  have hlen : (BitVec.ofNat 32 e.len).toNat = e.len := by
    rw [BitVec.toNat_ofNat, Nat.mod_eq_of_lt hplace.len_lt]
  rw [hmlen, BitVec.le_def, hlen] at hfit
  rw [hmlen, hlen, hplace.blockAddr_toNat] at habove
  exact ⟨e, he, hfit, habove⟩

theorem FrontInv.getstk_none
    {h : Heap} {live : List LiveBlock} {size : Word}
    (hf : FrontInv low high bytes first mh len h live v l) (hne : size ≠ 0)
    (hround : roundmb size = size)
    (hnone : ¬ ∃ block ∈ h.freeList, size ≤ h.mlength (some block)) :
    Xinu.getstk size h = some (h, SYSERR) := by
  obtain ⟨ml, rfl⟩ := hf.heap
  have hwf := hf.inv.wellFormed
  rw [freeList_front hwf hf.ne_null hf.link] at hnone
  apply getstk_front_none _ _ hwf hne hf.ne_null hf.link
  · rw [hround, ← BitVec.not_le]
    exact fun hle => hnone ⟨first, by simp, hle⟩
  · intro e he
    have hplace := hwf.placeable he
    have hmlen : (v.front first ml mh).mlength (some (blockAddr e)) =
        BitVec.ofNat 32 e.len := threaded_mlength hwf.chain.1 he
    by_contra hlong
    refine hnone ⟨blockAddr e, ?_, ?_⟩
    · exact List.mem_cons_of_mem _ (List.mem_map_of_mem he)
    · rw [hmlen, BitVec.le_def, BitVec.toNat_ofNat,
        Nat.mod_eq_of_lt hplace.len_lt]
      rw [hround] at hlong
      omega

/-- A new process with a stack of its own. -/
theorem StackInv.place
    {h' : Heap} {v' : Heap} {l' : List Extent} {base size saddr : Word}
    (h : StackInv low high bytes first mh len l₀ s procs v l)
    (hid : ProcId pid) (hfree : (s.proctab pid).free = true)
    (hround : roundmb size = size) (hsaddr : saddr = base + size - 4)
    (hfront : FrontInv low high bytes first mh len h'
      (⟨base, size⟩ :: procs.map s.block) v' l')
    (hcovers : ∀ x, (LiveBlock.extent ⟨base, size⟩).tally x + covers l' x =
      covers l x)
    (hheap : s'.heap = h')
    (hproc : s'.proctab = Function.update s.proctab pid ⟨false, saddr, size⟩) :
    StackInv low high bytes first mh len l₀ s' (pid :: procs) v' l' := by
  have hnot : pid ∉ procs := by
    intro hmem
    rw [((h.mem_iff pid).mp hmem).2] at hfree
    cases hfree
  have hold : ∀ {q}, q ∈ procs → s'.proctab q = s.proctab q := by
    intro q hq
    rw [hproc, Function.update_of_ne]
    rintro rfl
    exact hnot hq
  have hself : s'.proctab pid = ⟨false, saddr, size⟩ := by
    rw [hproc, Function.update_self]
  have hblock : s'.block pid = ⟨base, size⟩ := by
    rw [Stacks.block, hself, hsaddr, stackBlock, hround]
    congr 1
    bv_omega
  have hblocks : ∀ {α : Type} (f : LiveBlock → α),
      procs.map (fun q => f (s'.block q)) =
        procs.map fun q => f (s.block q) := by
    intro α f
    apply List.map_congr_left
    intro q hq
    rw [Stacks.block, Stacks.block, hold hq]
  have hnull : pid ≠ NULLPROC := by
    rintro rfl
    rw [h.null] at hfree
    cases hfree
  refine ⟨?_, ?_, List.nodup_cons.mpr ⟨hnot, h.nodup⟩, ?_,
    List.forall_mem_cons.mpr ⟨hid, h.ids⟩, ?_, ?_⟩
  · rw [List.map_cons, hblock, hheap]
    exact (hblocks id).symm ▸ hfront
  · intro x
    have hbalance := h.balance x
    have hcarve := hcovers x
    rw [List.map_cons, covers_cons, hblock, hblocks LiveBlock.extent]
    omega
  · intro q
    rw [List.mem_cons, h.mem_iff]
    unfold Stacks.Created
    by_cases hq : q = pid
    · subst hq
      simp [hself, hnull]
    · rw [hproc, Function.update_of_ne hq]
      simp [hq]
  · refine List.forall_mem_cons.mpr ⟨?_, fun q hq => ?_⟩
    · rw [hself]
      exact hround
    · rw [hold hq]
      exact h.rounded q hq
  · rw [hproc, Function.update_of_ne hnull.symm]
    exact h.null

theorem StackInv.create
    {funcaddr ssize : Word} {args : List Word}
    (h : StackInv low high bytes first mh len l₀ s procs v l)
    (hid : ProcId pid) (hfree : (s.proctab pid).free = true)
    (hroom : s.heap.RoomAbove (stackSize ssize) args.length)
    (hcreate : s.create pid funcaddr ssize args = some s') :
    ∃ procs' v' l', StackInv low high bytes first mh len l₀ s' procs' v' l' := by
  obtain ⟨hbound, hround⟩ :=
    roundmb_multiple (if ssize < MINSTK then MINSTK else ssize)
  rw [show roundmb (if ssize < MINSTK then MINSTK else ssize) =
    stackSize ssize from rfl] at hbound hround
  unfold Stacks.create at hcreate
  -- Without a block that is long enough nothing changes.
  have hfail : getstk (stackSize ssize) s.heap = some (s.heap, SYSERR) →
      ∃ procs' v' l',
        StackInv low high bytes first mh len l₀ s' procs' v' l' := by
    intro hget
    rw [hget, Option.map_some, Option.some.injEq] at hcreate
    dsimp only at hcreate
    rw [if_pos rfl] at hcreate
    subst hcreate
    exact ⟨procs, v, l, h⟩
  by_cases hzero : stackSize ssize = 0
  · exact hfail (if_pos hzero)
  · by_cases hfits : ∃ block ∈ s.heap.freeList,
        stackSize ssize ≤ s.heap.mlength (some block)
    · obtain ⟨hargs, hplace⟩ := hroom hzero hfits
      have hpos : 0 < (stackSize ssize).toNat := by
        by_contra hnot
        exact hzero (BitVec.eq_of_toNat_eq (by simpa using hnot))
      obtain ⟨h', v', l', base, hget, hfront, hcovers, hsys⟩ :=
        h.front.getstk hpos hbound hround (h.front.room hplace)
      rw [hget, Option.map_some, Option.some.injEq] at hcreate
      dsimp only at hcreate
      rw [if_neg hsys] at hcreate
      have hlive : (⟨base, stackSize ssize⟩ : LiveBlock) ∈
          (⟨base, stackSize ssize⟩ : LiveBlock) :: procs.map s.block :=
        List.mem_cons_self
      have hwritten := hfront.initStack hlive hround hargs funcaddr
      subst hcreate
      exact ⟨_, _, _, h.place hid hfree hround rfl hwritten hcovers rfl rfl⟩
    · exact hfail (h.front.getstk_none hzero hround hfits)

theorem StackInv.step
    {call : StackCall}
    (h : StackInv low high bytes first mh len l₀ s procs v l)
    (hroom : s.RoomAbove call) (hstep : s.step call = some s') :
    ∃ procs' v' l', StackInv low high bytes first mh len l₀ s' procs' v' l' := by
  cases call with
  | create pid funcaddr ssize args =>
      simp only [Stacks.step] at hstep
      split_ifs at hstep with hpid
      exact h.create ⟨hpid.1, hpid.2.1⟩ hpid.2.2 hroom hstep
  | release p =>
      simp only [Stacks.step] at hstep
      split_ifs at hstep with hp
      obtain ⟨v', h'⟩ := h.release ((h.mem_iff p).mpr hp) hstep
      exact ⟨_, _, _, h'⟩

theorem sum_map_ite
    {α : Type} (l : List α) (P : α → Prop) [DecidablePred P] (f : α → ℕ) :
    (l.map fun a => if P a then f a else 0).sum =
      ((l.filter fun a => P a).map f).sum := by
  induction l with
  | nil => rfl
  | cons a l ih =>
      by_cases ha : P a <;> simp [ha, ih]

theorem StackInv.held
    (h : StackInv low high bytes first mh len l₀ s procs v l) (x : Word) :
    s.held x = covers (procs.map fun p => (s.block p).extent) x.toNat := by
  have hperm : procs.Perm (((List.range NPROC.toNat).filter
      fun i : ℕ => s.Created i).map fun i : ℕ => (i : ℤ)) := by
    refine (List.perm_ext_iff_of_nodup h.nodup ?_).mpr ?_
    · exact (List.nodup_range.filter _).map Nat.cast_injective
    · intro p
      rw [List.mem_map]
      constructor
      · intro hp
        obtain ⟨i, rfl⟩ := Int.eq_ofNat_of_zero_le (h.ids p hp).1
        have hlt := (h.ids _ hp).2
        refine ⟨i, List.mem_filter.mpr ⟨List.mem_range.mpr (by omega), ?_⟩, rfl⟩
        exact decide_eq_true ((h.mem_iff _).mp hp)
      · rintro ⟨i, hi, rfl⟩
        exact (h.mem_iff _).mpr (of_decide_eq_true (List.mem_filter.mp hi).2)
  rw [covers_perm (hperm.map _) x.toNat, Stacks.held, sum_map_ite]
  simp only [covers, List.map_map]
  rfl

theorem StackInv.law
    {s₀ : Stacks} (h : StackInv low high bytes first mh len l₀ s procs v l)
    (hstart : ∀ x, s₀.heap.cover x =
      (if x - first < len then 1 else 0) + covers l₀ x.toNat) :
    StackLaw s₀ s := by
  have hcover := h.front.cover
  have hbalanced : ∀ x, s.heap.cover x + s.held x = s₀.heap.cover x := by
    intro x
    have hbalance := h.balance x.toNat
    rw [hcover, h.held, hstart]
    omega
  refine ⟨?_, hbalanced, ?_⟩
  · intro p hp
    obtain ⟨h', v', hfree, hfront⟩ := h.released ((h.mem_iff p).mpr hp)
    refine ⟨h', hfree, fun x => ?_⟩
    rw [hfront.cover, hcover, covers_release]
    omega
  · intro hnone x
    have hnil : procs = [] := List.eq_nil_iff_forall_not_mem.mpr fun p hp =>
      hnone p ((h.mem_iff p).mp hp)
    have hheld := h.held x
    rw [hnil] at hheld
    have hall := hbalanced x
    rw [hheld] at hall
    exact hall

end Invariant

end Xinu
