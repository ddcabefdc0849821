import Xinu.HeapRequests
import Xinu.KernelMoves
import Xinu.BufferPools

/-!
# Undoing an allocation

Giving back what was just allocated leaves the free list as it was: `freemem`
after `getmem`, `freestk` after `getstk`, and the failure path of `mkbufpool`,
which has obtained its memory when no semaphore is left.
-/

namespace Xinu

open ByteMemory FreeExtents

/-- The list head with its count, and the links and lengths in the free
blocks. -/
structure SameFreeList (l : List Extent) (h h' : Heap) : Prop where
  wellFormed : WellFormed h' l
  memlist : h'.memlist = h.memlist
  links : ∀ e ∈ l, h'.mnext (blockRef e) = h.mnext (blockRef e) ∧
    h'.mlength (blockRef e) = h.mlength (blockRef e)
  minheap : h'.minheap = h.minheap
  maxheap : h'.maxheap = h.maxheap

section Chains

variable {h h' : Heap} {l : List Extent}

/-- A list of blocks determines what its chain stores. -/
theorem Chain.unique
    {ref ref' : BlockRef} (hchain : Chain h ref l) (hchain' : Chain h' ref' l) :
    h'.mnext ref' = h.mnext ref ∧
      ∀ e ∈ l, h'.mnext (blockRef e) = h.mnext (blockRef e) ∧
        h'.mlength (blockRef e) = h.mlength (blockRef e) := by
  induction l generalizing ref ref' with
  | nil => exact ⟨hchain'.2.trans hchain.2.symm, by simp⟩
  | cons e l ih =>
      obtain ⟨hhead, hsize, hrest⟩ := chain_cons.mp hchain
      obtain ⟨hhead', hsize', hrest'⟩ := chain_cons.mp hchain'
      obtain ⟨hnext, htail⟩ := ih hrest hrest'
      exact ⟨hhead'.trans hhead.symm,
        List.forall_mem_cons.mpr ⟨⟨hnext, hsize'.trans hsize.symm⟩, htail⟩⟩

theorem WellFormed.same
    (hwf : WellFormed h l) (hwf' : WellFormed h' l)
    (hmin : h'.minheap = h.minheap) (hmax : h'.maxheap = h.maxheap) :
    SameFreeList l h h' := by
  obtain ⟨hhead, hlinks⟩ := hwf.chain.unique hwf'.chain
  have hcount : h'.memlist.mlength = h.memlist.mlength :=
    BitVec.eq_of_toNat_eq (hwf'.mlength_eq.trans hwf.mlength_eq.symm)
  refine ⟨hwf', ?_, hlinks, hmin, hmax⟩
  show (⟨h'.memlist.mnext, h'.memlist.mlength⟩ : Memblk) = _
  rw [hcount]
  exact congrArg (fun next => (⟨next, h.memlist.mlength⟩ : Memblk)) hhead

end Chains

section Undo

variable {h h₁ : Heap} {l : List Extent} {n p : Word}

/-- Giving a carved block back, in a heap that does not reach the end of the
address space. -/
theorem WellFormed.giveBack
    {b : Extent} {l' : List Extent} {nbytes : Word} (hwf : WellFormed h l)
    (hwf₁ : WellFormed h₁ l') (hmin : h₁.minheap = h.minheap)
    (hmax : h₁.maxheap = h.maxheap) (htop : ∀ e ∈ l, e.top < 2 ^ 32)
    (hcarved : Carved b l l') (hgran : b.Granular 8)
    (hback : release b l' = l) (hbase : p.toNat = b.base) (hne : nbytes ≠ 0)
    (hlen : (roundmb nbytes).toNat = b.len) :
    ∃ h₂, freemem p nbytes h₁ = some (h₂, OK) ∧ SameFreeList l h h₂ := by
  obtain ⟨e, he, hin⟩ := hcarved.inside
  have hwithin := hwf.within e he
  have hlt := htop e he
  unfold Extent.Inside at hin
  have hbin : b.Within h₁.minheap.toNat (h₁.maxheap.toNat + 1) := by
    rw [hmin, hmax]
    unfold Extent.Within at *
    omega
  obtain ⟨h₂, hfree, hwf₂, hmin₂, hmax₂⟩ := freemem_spec hwf₁ hgran hbin
    (by omega) (fun c hc => hcarved.apart hwf.separated hc) hbase hne hlen
  rw [hback] at hwf₂
  exact ⟨h₂, hfree, hwf.same hwf₂ (hmin₂.trans hmin) (hmax₂.trans hmax)⟩

theorem freemem_getmem
    (hwf : WellFormed h l) (htop : ∀ e ∈ l, e.top < 2 ^ 32) (hsize : SizeOk n)
    (hget : getmem n h = some (h₁, p)) (hok : p ≠ SYSERR) :
    ∃ h₂, freemem p n h₁ = some (h₂, OK) ∧ SameFreeList l h h₂ := by
  have hspec := getmem_spec hwf hsize.1 hsize.2
  obtain ⟨hdvd, hround, -⟩ := roundmb_request hsize.1 hsize.2
  have hne : n ≠ 0 := by
    rintro rfl
    exact absurd hsize.1 (by simp)
  cases hcarve : carveFirst (roundmb n).toNat l with
  | none =>
      rw [hcarve] at hspec
      dsimp only at hspec
      rw [hspec, Option.some.injEq, Prod.mk.injEq] at hget
      exact absurd hget.2.symm hok
  | some r =>
      rw [hcarve] at hspec
      obtain ⟨h', hgot, hwf₁, hmin, hmax⟩ := hspec
      rw [hgot, Option.some.injEq, Prod.mk.injEq] at hget
      obtain ⟨rfl, rfl⟩ := hget
      have hcarved := carveFirst_carved hcarve
      have hgran := (carveFirst_granular hwf.granular hdvd hround hcarve).1
      obtain ⟨pre, e, post, rfl, -, hfit, rfl⟩ := carveFirst_split hcarve
      have hplace := hwf.placeable (e := e) (by simp)
      exact hwf.giveBack hwf₁ hmin hmax htop hcarved hgran
        (release_takeLow hwf.separated hround hfit) hplace.blockAddr_toNat hne rfl

theorem freestk_getstk
    (hwf : WellFormed h l) (htop : ∀ e ∈ l, e.top < 2 ^ 32) (hsize : SizeOk n)
    (hget : getstk n h = some (h₁, p)) (hok : p ≠ SYSERR) :
    ∃ h₂, freestk p n h₁ = some (h₂, OK) ∧ SameFreeList l h h₂ := by
  have hspec := getstk_spec hwf hsize.1 hsize.2
  obtain ⟨hdvd, hround, -⟩ := roundmb_request hsize.1 hsize.2
  cases hcarve : carveLast (roundmb n).toNat l with
  | none =>
      rw [hcarve] at hspec
      dsimp only at hspec
      rw [hspec, Option.some.injEq, Prod.mk.injEq] at hget
      exact absurd hget.2.symm hok
  | some r =>
      rw [hcarve] at hspec
      obtain ⟨h', hgot, hwf₁, hmin, hmax⟩ := hspec
      rw [hgot, Option.some.injEq, Prod.mk.injEq] at hget
      obtain ⟨rfl, rfl⟩ := hget
      have hcarved := carveLast_carved hcarve
      have hgran := (carveLast_granular hwf.granular hdvd hround hcarve).1
      obtain ⟨e', he', hin⟩ := hcarved.inside
      have hplace' := hwf.placeable he'
      obtain ⟨pre, e, post, rfl, -, hfit, rfl⟩ := carveLast_split hcarve
      unfold Extent.Inside Extent.top at hin
      dsimp only at hin
      have hbase := hplace'.base_pos
      have hend := hplace'.top_le
      unfold Extent.top at hend
      have hplace : Placeable ⟨e.base + (e.len - (roundmb n).toNat),
          (roundmb n).toNat⟩ := by
        refine ⟨hgran, ?_, ?_⟩
        · dsimp only
          omega
        · unfold Extent.top
          dsimp only
          omega
      have haddr : blockAddr ⟨e.base + (e.len - (roundmb n).toNat),
          (roundmb n).toNat⟩ + roundmb n - 4 - roundmb n + 4 =
            blockAddr ⟨e.base + (e.len - (roundmb n).toNat),
              (roundmb n).toNat⟩ := by
        bv_omega
      rw [freestk, haddr]
      exact hwf.giveBack hwf₁ hmin hmax htop hcarved hgran
        (release_takeHigh hwf.separated hround hfit) hplace.blockAddr_toNat
        (roundmb_ne_zero hsize) (congrArg BitVec.toNat (roundmb_roundmb hsize.2))

end Undo

/-! ## mkbufpool.c -/

/-- An entry of `buftab`, with the identifier of its semaphore. -/
structure Bufentry where
  bpnext : Word
  bpsize : Word
  bpsem : ℤ

structure Buftab where
  nbpools : ℕ
  buftab : ℕ → Bufentry

namespace Kernel

open BufferPools

/-- `mkbufpool` in the kernel; `BufferPools.mkbufpool` takes the outcome of
`semcreate` as given. -/
def mkbufpool (bufsiz numbufs : ℤ) (t : Buftab) (k : Kernel Queuetab) :
    Option (Kernel Queuetab × Buftab × ℤ) :=
  if bufsiz < BP_MINB ∨ bufsiz > BP_MAXB ∨ numbufs < 1 ∨ numbufs > BP_MAXN ∨
      t.nbpools ≥ NBPOOLS then
    some (k, t, SYSERR.toInt)
  else
    (getmem (poolBytes bufsiz numbufs) k.heap).bind fun (heap, buf) =>
      let k := { k with heap := heap }
      if buf = SYSERR then some (k, t, SYSERR.toInt)
      else
        let poolid := t.nbpools
        let t := { t with nbpools := t.nbpools + 1 }
        let (k, sem) := k.semcreate numbufs
        let t := { t with
          buftab := Function.update t.buftab poolid
            ⟨buf, roundBufsiz bufsiz, sem⟩ }
        if sem = SYSERR.toInt then
          (freemem buf (poolBytes bufsiz numbufs) k.heap).map fun (heap, _) =>
            ({ k with heap := heap }, { t with nbpools := t.nbpools - 1 },
              SYSERR.toInt)
        else
          let mem := linkBuffers (roundBufsiz bufsiz + 4) (numbufs.toNat - 1) buf
            k.heap.mem
          some ({ k with heap := { k.heap with mem := mem } }, t, poolid)

section Refused

variable {k : Kernel Queuetab} {t : Buftab} {l : List Extent}
  {bufsiz numbufs count : ℤ}

/-- `newsem` that finds no free entry has looked at entries only. -/
theorem newsemLoop_spec
    (i : ℕ) (k : Kernel Queuetab) (hnext : SemId k.nextsem) :
    (k.newsemLoop i).1.heap = k.heap ∧
      ((k.newsemLoop i).2 = SYSERR.toInt →
        (k.newsemLoop i).1.semtab = k.semtab) := by
  induction i generalizing k with
  | zero => exact ⟨rfl, fun _ => rfl⟩
  | succ i ih =>
      unfold SemId at hnext
      by_cases hfree : (k.semtab k.nextsem).sstate = .free
      · have hfound : (k.newsemLoop (i + 1)).2 = k.nextsem ∧
            (k.newsemLoop (i + 1)).1.heap = k.heap := by
          simp only [newsemLoop]
          split_ifs <;> exact ⟨rfl, rfl⟩
        refine ⟨hfound.2, fun hfail => ?_⟩
        rw [hfound.1, show SYSERR.toInt = -1 from rfl] at hfail
        omega
      · generalize hmid : (if NSEM ≤ k.nextsem + 1 then
          ({ k with nextsem := 0 } : Kernel Queuetab)
            else { k with nextsem := k.nextsem + 1 }) = mid
        have hstep : k.newsemLoop (i + 1) = mid.newsemLoop i := by
          rw [← hmid]
          simp only [newsemLoop]
          split_ifs <;> rfl
        have htables : mid.semtab = k.semtab ∧ mid.heap = k.heap ∧
            SemId mid.nextsem := by
          rw [← hmid]
          split_ifs with hlast
          · exact ⟨rfl, rfl, show SemId 0 from ⟨le_rfl, by decide⟩⟩
          · refine ⟨rfl, rfl, ?_⟩
            show SemId (k.nextsem + 1)
            exact ⟨by omega, by omega⟩
        obtain ⟨hheap, hsemtab⟩ := ih mid htables.2.2
        rw [hstep]
        exact ⟨hheap.trans htables.2.1,
          fun hfail => (hsemtab hfail).trans htables.1⟩

theorem semcreate_spec (count : ℤ) (hnext : SemId k.nextsem) :
    (k.semcreate count).1.heap = k.heap ∧
      ((k.semcreate count).2 = SYSERR.toInt →
        (k.semcreate count).1.semtab = k.semtab) := by
  obtain ⟨hheap, hsemtab⟩ := newsemLoop_spec NSEM.toNat k hnext
  have hcreate : k.semcreate count =
      if count < 0 then (k, SYSERR.toInt)
      else if k.newsem.2 = SYSERR.toInt then (k.newsem.1, SYSERR.toInt)
      else ((k.newsem.1.setScount k.newsem.2 count).note
        (.started k.newsem.2 count), k.newsem.2) := rfl
  rw [hcreate]
  split_ifs with hneg hnone
  · exact ⟨rfl, fun _ => rfl⟩
  · exact ⟨hheap, fun _ => hsemtab hnone⟩
  · exact ⟨hheap, fun hfail => absurd hfail hnone⟩

/-- The outcome of `mkbufpool` that leaves no trace. -/
structure MadeNothing
    (l : List Extent) (k : Kernel Queuetab) (t : Buftab)
    (r : Kernel Queuetab × Buftab × ℤ) : Prop where
  heap : SameFreeList l k.heap r.1.heap
  nbpools : r.2.1.nbpools = t.nbpools
  semtab : r.1.semtab = k.semtab

theorem mkbufpool_refused
    (hwf : WellFormed k.heap l) (htop : ∀ e ∈ l, e.top < 2 ^ 32)
    (hnext : SemId k.nextsem) :
    ∃ r, k.mkbufpool bufsiz numbufs t = some r ∧
      (r.2.2 = SYSERR.toInt → MadeNothing l k t r) := by
  have hsame : SameFreeList l k.heap k.heap := hwf.same hwf rfl rfl
  unfold mkbufpool
  by_cases hrefused : bufsiz < BP_MINB ∨ bufsiz > BP_MAXB ∨ numbufs < 1 ∨
      numbufs > BP_MAXN ∨ t.nbpools ≥ NBPOOLS
  · rw [if_pos hrefused]
    exact ⟨_, rfl, fun _ => ⟨hsame, rfl, rfl⟩⟩
  rw [if_neg hrefused]
  push Not at hrefused
  obtain ⟨hminb, hmaxb, hone, hmaxn, hpools⟩ := hrefused
  unfold BP_MINB at hminb
  obtain ⟨hbytes, hbound⟩ := poolBytes_toNat (by omega) hmaxb hone hmaxn
  have hroom : 0 < numbufs.toNat * ((roundBufsiz bufsiz).toNat + 4) :=
    Nat.mul_pos (by omega) (by omega)
  have hsize : SizeOk (poolBytes bufsiz numbufs) := ⟨by omega, by omega⟩
  rcases getmemLaw_of_le hwf hsize.2 with ⟨hget, -⟩ |
    ⟨h₁, b, l', pre, e, post, hget, hl, -, hbase, -⟩
  · rw [hget, Option.bind_some]
    exact ⟨_, if_pos rfl, fun _ => ⟨hsame, rfl, rfl⟩⟩
  · have hok : blockAddr b ≠ SYSERR := by
      rw [blockAddr, hbase]
      exact blockAddr_ne_syserr (hwf.placeable (e := e) (by simp [hl]))
    obtain ⟨h₂, hfree, hundone⟩ := freemem_getmem hwf htop hsize hget hok
    rw [hget, Option.bind_some]
    dsimp only
    rw [if_neg hok]
    obtain ⟨hheap, hsemtab⟩ :=
      semcreate_spec (k := { k with heap := h₁ }) numbufs hnext
    generalize hsem : ({ k with heap := h₁ } : Kernel Queuetab).semcreate numbufs
      = created at hheap hsemtab ⊢
    by_cases hnone : created.2 = SYSERR.toInt
    · rw [if_pos hnone, show created.1.heap = h₁ from hheap, hfree]
      exact ⟨_, rfl, fun _ => ⟨hundone, Nat.add_sub_cancel _ _, hsemtab hnone⟩⟩
    · rw [if_neg hnone]
      refine ⟨_, rfl, fun hval => ?_⟩
      have hneg : ((t.nbpools : ℕ) : ℤ) = -1 := hval
      omega

end Refused

end Kernel

/-- Where no free block ends with the address space, both releases undo both
allocations, and a `mkbufpool` that gives an error has changed nothing. -/
theorem allocations_undone
    {h : Heap} {l : List Extent} {n : Word} (hwf : WellFormed h l)
    (htop : ∀ e ∈ l, e.top < 2 ^ 32) (hsize : SizeOk n) :
    (∀ h₁ p, getmem n h = some (h₁, p) → p ≠ SYSERR →
      ∃ h₂, freemem p n h₁ = some (h₂, OK) ∧ SameFreeList l h h₂) ∧
    (∀ h₁ p, getstk n h = some (h₁, p) → p ≠ SYSERR →
      ∃ h₂, freestk p n h₁ = some (h₂, OK) ∧ SameFreeList l h h₂) ∧
    ∀ (bufsiz numbufs : ℤ) (t : Buftab) (k : Kernel Queuetab), k.heap = h →
      SemId k.nextsem → ∃ r, k.mkbufpool bufsiz numbufs t = some r ∧
        (r.2.2 = SYSERR.toInt → Kernel.MadeNothing l k t r) := by
  refine ⟨fun h₁ p hget hok => freemem_getmem hwf htop hsize hget hok,
    fun h₁ p hget hok => freestk_getstk hwf htop hsize hget hok, ?_⟩
  rintro bufsiz numbufs t k rfl hnext
  exact Kernel.mkbufpool_refused hwf htop hnext

def semaphoresTaken : Kernel Queuetab :=
  { bootKernel (bootQueues (NSEM.toNat + 2)) sixteenBytes 0 with
    semtab := fun sem => ⟨.used, 0, NPROC + 2 * sem⟩ }

theorem allocations_undone_sixteen_bytes :
    (∃ h₁ h₂, getmem 5 sixteenBytes = some (h₁, 16) ∧
      freemem 16 5 h₁ = some (h₂, OK) ∧
        SameFreeList [⟨16, 16⟩] sixteenBytes h₂) ∧
    ∃ r, semaphoresTaken.mkbufpool 8 1 ⟨3, fun _ => ⟨0, 0, 0⟩⟩ = some r ∧
      r.2.2 = SYSERR.toInt ∧
        Kernel.MadeNothing [⟨16, 16⟩] semaphoresTaken
          ⟨3, fun _ => ⟨0, 0, 0⟩⟩ r := by
  obtain ⟨hget, -, hpool⟩ := allocations_undone sixteenBytes_wellFormed
    (by decide) (show SizeOk 5 from ⟨by decide, by decide⟩)
  constructor
  · have hview : (getmem 5 sixteenBytes).map Prod.snd = some 16 := by
      decide
    obtain ⟨⟨h₁, p⟩, hcall, rfl⟩ := Option.map_eq_some_iff.mp hview
    obtain ⟨h₂, hfree, hsame⟩ := hget h₁ 16 hcall (by decide)
    exact ⟨h₁, h₂, hcall, hfree, hsame⟩
  · obtain ⟨r, hmake, hnothing⟩ := hpool 8 1 ⟨3, fun _ => ⟨0, 0, 0⟩⟩
      semaphoresTaken rfl ⟨by decide, by decide⟩
    have hview : (semaphoresTaken.mkbufpool 8 1 ⟨3, fun _ => ⟨0, 0, 0⟩⟩).map
        (fun r => r.2.2) = some SYSERR.toInt := by
      decide
    rw [hmake, Option.map_some, Option.some.injEq] at hview
    exact ⟨r, hmake, hview, hnothing hview⟩

/-- With a block that ends at `2 ^ 32`, `freemem` takes the word at address 4
for the length of a next block. -/
theorem allocation_not_undone_at_top :
    ∃ h l n h₁ p, WellFormed h l ∧ SizeOk n ∧ getmem n h = some (h₁, p) ∧
      p ≠ SYSERR ∧
        ¬ ∃ h₂, freemem p n h₁ = some (h₂, OK) ∧ SameFreeList l h h₂ := by
  let mem : Memory := fun a => if a = 4 then 8 else 0
  let h := singleBlockHeap ⟨2 ^ 32 - 16, 16⟩ 8 (-1) mem
  have hwf : WellFormed h [⟨2 ^ 32 - 16, 16⟩] := by
    apply singleBlockHeap_wellFormed
    · exact ⟨by decide, by decide, by decide⟩
    · exact ⟨by decide, by decide⟩
    · decide
  have hview : (getmem 16 h).bind (fun r => (freemem (-16) 16 r.1).map
      fun s => (r.2, s.1.mlength (some (-16)))) = some (-16, 24) := by
    decide
  obtain ⟨⟨h₁, p⟩, hget, hview⟩ := Option.bind_eq_some_iff.mp hview
  obtain ⟨⟨h₂, value⟩, hfree, hview⟩ := Option.map_eq_some_iff.mp hview
  rw [Prod.mk.injEq] at hview
  obtain ⟨rfl, hlen⟩ := hview
  refine ⟨h, _, 16, h₁, -16, hwf, ⟨by decide, by decide⟩, hget, by decide, ?_⟩
  rintro ⟨h₃, hfree', hsame⟩
  rw [hfree, Option.some.injEq, Prod.mk.injEq] at hfree'
  obtain ⟨rfl, -⟩ := hfree'
  have hlink := (hsame.links ⟨2 ^ 32 - 16, 16⟩ (by simp)).2
  have hbefore : h.mlength (some (-16)) = 16 := by
    decide
  have hafter : h₂.mlength (blockRef ⟨2 ^ 32 - 16, 16⟩) = 24 := hlen
  rw [hafter, show h.mlength (blockRef ⟨2 ^ 32 - 16, 16⟩) = 16 from hbefore] at hlink
  exact absurd hlink (by decide)

end Xinu
