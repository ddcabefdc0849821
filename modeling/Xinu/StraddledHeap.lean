import Xinu.BootFreeList
import Xinu.ExtentCover
import Xinu.HeapHistory

/-!
# A free list with a block in front

When the image lies above the memory hole, `meminit` links the block above the
image to the block at the end of the hole, and the list runs downwards.  Such a
heap is a sorted list with one more block in front.  `getstk` and `freemem` treat
it as they treat the sorted list, as long as the stacks lie above the header of
the block in front.
-/

namespace Xinu

open ByteMemory
open FreeExtents

/-! ## A block in front of a free list -/

/-- The heap `v` with one more block, at `first`, in front of its list, and a
lower bound of its own. -/
def Heap.front (first mlength minheap : Word) (v : Heap) : Heap :=
  { v with memlist := ⟨first, mlength⟩, minheap := minheap }

section Front

variable {v v' : Heap} {first ml mh n : Word} {pre post l : List Extent}
variable {e : Extent} {ref : BlockRef}

theorem Placeable.len_lt (he : Placeable e) : e.len < 2 ^ 32 := by
  have htop := he.top_le
  have hbase := he.base_pos
  unfold Extent.top at htop
  omega

theorem WellFormed.length_lt_bound (hwf : WellFormed v l) :
    l.length < 2 ^ 32 := by
  have hcount := length_le_total fun c hc => (hwf.granular c hc).len_pos
  have htotal := hwf.separated.total_le hwf.within
  have hmax := v.maxheap.isLt
  have hmin := hwf.minheap_pos
  omega

theorem getstkLoop_last
    {h : Heap} {fits : Option (BlockRef × Word)} {fuel : ℕ}
    (hchain : Chain h ref (pre ++ e :: post))
    (hplace : ∀ c ∈ pre ++ e :: post, Placeable c)
    (hfit : n.toNat ≤ e.len) (hpost : ∀ c ∈ post, c.len < n.toNat)
    (hfuel : (pre ++ e :: post).length < fuel) :
    getstkLoop n h fuel ref (h.mnext ref) fits =
      some (some (lastRef ref pre, blockAddr e)) := by
  have he := hplace e (by simp)
  obtain ⟨hpre, hrest⟩ := chain_append.mp hchain
  obtain ⟨hhead, hsize, htail⟩ := chain_cons.mp hrest
  have helt := he.len_lt
  have hle : n ≤ BitVec.ofNat 32 e.len := by
    rw [BitVec.le_def, BitVec.toNat_ofNat]
    omega
  rw [List.length_append, List.length_cons] at hfuel
  obtain ⟨spare, rfl⟩ : ∃ spare,
      fuel = (spare + 1 + post.length + 1) + pre.length :=
    ⟨fuel - 2 - post.length - pre.length, by omega⟩
  obtain ⟨fits', hfits⟩ := getstkLoop_append n (spare + 1 + post.length + 1)
    fits hpre (fun c hc => hplace c (by simp [hc]))
  have hskip := getstkLoop_skip n (spare + 1)
    (some (lastRef ref pre, blockAddr e)) htail.1
    (fun c hc => hplace c (by simp [hc])) hpost
  have hlen : h.mlength (some (blockAddr e)) = BitVec.ofNat 32 e.len := hsize
  rw [hfits, getstkLoop, hhead, if_neg he.blockAddr_ne_null, hlen, if_pos hle,
    show (some (blockAddr e) : BlockRef) = blockRef e from rfl, hskip,
    getstkLoop, htail.2, if_pos rfl]

theorem freememLoop_around
    {h : Heap} {blkaddr : Word} {fuel : ℕ} (hchain : Chain h ref (pre ++ post))
    (hplace : ∀ c ∈ pre ++ post, Placeable c)
    (hpre : ∀ c ∈ pre, c.base < blkaddr.toNat)
    (hpost : ∀ c ∈ post, blkaddr.toNat ≤ c.base)
    (hfuel : pre.length < fuel) :
    freememLoop blkaddr h fuel ref (h.mnext ref) =
      some (lastRef ref pre, h.mnext (lastRef ref pre)) := by
  obtain ⟨hbefore, hafter⟩ := chain_append.mp hchain
  obtain ⟨spare, rfl⟩ : ∃ spare, fuel = spare + 1 + pre.length :=
    ⟨fuel - 1 - pre.length, by omega⟩
  rw [freememLoop_skip (spare + 1) hbefore
    (fun c hc => hplace c (List.mem_append_left _ hc)) hpre, freememLoop, if_neg]
  rintro ⟨hnonnull, hbelow⟩
  cases post with
  | nil => exact hnonnull hafter.2
  | cons f post =>
      have hf := hplace f (List.mem_append_right pre List.mem_cons_self)
      have hge := hpost f List.mem_cons_self
      rw [(chain_cons.mp hafter).1, BitVec.lt_def, hf.blockAddr_toNat] at hbelow
      omega

theorem chain_front_some {x : Word} :
    Chain (v.front first ml mh) (some x) l ↔ Chain v (some x) l := by
  induction l generalizing x with
  | nil => rfl
  | cons e l ih =>
      rw [chain_cons, chain_cons]
      exact and_congr Iff.rfl (and_congr Iff.rfl ih)

/-- The front block is followed by the rest of the list. -/
theorem Chain.front
    (ml mh : Word) (h : Chain v none l) (hlink : v.mnext (some first) = v.mnext none) :
    Chain (v.front first ml mh) (some first) l := by
  rw [chain_front_some]
  cases l with
  | nil =>
      refine ⟨trivial, ?_⟩
      show v.mnext (some first) = NULL
      rw [hlink]
      exact h.2
  | cons e l =>
      rw [chain_cons] at h ⊢
      rw [hlink]
      exact h

theorem exists_lastRef (hpre : pre ≠ []) :
    ∃ c ∈ pre, ∀ ref, lastRef ref pre = blockRef c := by
  rcases List.eq_nil_or_concat' pre with rfl | ⟨init, c, rfl⟩
  · exact absurd rfl hpre
  · refine ⟨c, by simp, fun ref => ?_⟩
    rw [lastRef_append]
    rfl

/-- The header of the front block is as it was. -/
structure SameHeader (first : Word) (v v' : Heap) : Prop where
  mnext : v'.mnext (some first) = v.mnext (some first)
  mlength : v'.mlength (some first) = v.mlength (some first)

theorem SameHeader.refl (first : Word) (v : Heap) : SameHeader first v v :=
  ⟨rfl, rfl⟩

theorem SameHeader.trans
    {v'' : Heap} (h : SameHeader first v v') (h' : SameHeader first v' v'') :
    SameHeader first v v'' :=
  ⟨h'.mnext.trans h.mnext, h'.mlength.trans h.mlength⟩

theorem SameHeader.debit (h : SameHeader first v v') (n : Word) :
    SameHeader first v (v'.debit n) :=
  ⟨h.mnext, h.mlength⟩

theorem SameHeader.credit (h : SameHeader first v v') (n : Word) :
    SameHeader first v (v'.credit n) :=
  ⟨h.mnext, h.mlength⟩

theorem sameHeader_setMnext
    {x value : Word} (hx : BlockRef.Node (some x))
    (hfirst : BlockRef.Node (some first)) (hne : x ≠ first) :
    SameHeader first v (v.setMnext (some x) value) := by
  constructor
  · rw [mnext_setMnext hx hfirst, if_neg]
    exact fun heq => hne (Option.some.inj heq).symm
  · exact mlength_setMnext hx hfirst

theorem sameHeader_setMlength
    {x value : Word} (hx : BlockRef.Node (some x))
    (hfirst : BlockRef.Node (some first)) (hne : x ≠ first) :
    SameHeader first v (v.setMlength (some x) value) := by
  constructor
  · exact mnext_setMlength hx hfirst
  · rw [mlength_setMlength hx hfirst, if_neg]
    exact fun heq => hne (Option.some.inj heq).symm

/-- `getstk` takes the same block whether or not there is one more in front,
as long as it does not take the first block whole. -/
theorem getstk_front
    {b : Extent} {nbytes : Word} (ml mh : Word) (hwf : WellFormed v l)
    (hpos : 0 < nbytes.toNat) (hbound : nbytes.toNat ≤ 2 ^ 32 - 8)
    (hcarve : carveLast (roundmb nbytes).toNat l = some (b, post))
    (hfirst : BlockRef.Node (some first)) (hnull : first ≠ NULL)
    (hlink : v.mnext (some first) = v.mnext none)
    (hother : ∀ e ∈ l, blockAddr e ≠ first)
    (hpart : ∀ e, l.head? = some e → b.base ≠ e.base) :
    ∃ v' ml', getstk nbytes v = some (v', blockAddr b + roundmb nbytes - 4) ∧
      WellFormed v' post ∧ v'.minheap = v.minheap ∧ v'.maxheap = v.maxheap ∧
      getstk nbytes (v.front first ml mh) =
        some (v'.front first ml' mh, blockAddr b + roundmb nbytes - 4) ∧
      SameHeader first v v' := by
  have hspec := getstk_spec hwf hpos hbound
  rw [hcarve] at hspec
  obtain ⟨v', hv, hwf', hmin, hmax⟩ := hspec
  have hne : nbytes ≠ 0 := by
    rintro rfl
    simp at hpos
  obtain ⟨hdvd, hround, -⟩ := roundmb_request hpos hbound
  obtain ⟨pre, e, rest, rfl, hrest, hfit, hb⟩ := carveLast_split hcarve
  have hplace : ∀ c ∈ pre ++ e :: rest, Placeable c := fun c hc =>
    hwf.placeable hc
  have he := hplace e (by simp)
  have hlt := hwf.length_lt
  have hscan : getstkLoop (roundmb nbytes) v walkBound none (v.mnext none)
      none = some (some (lastRef none pre, blockAddr e)) :=
    getstkLoop_last hwf.chain hplace hfit hrest hlt
  have hscan' : getstkLoop (roundmb nbytes) (v.front first ml mh) walkBound
      none first none = some (some (lastRef (some first) pre, blockAddr e)) := by
    obtain ⟨fuel, hfuel⟩ : ∃ fuel, walkBound = fuel + 1 :=
      ⟨2 ^ 32, rfl⟩
    have hshort : (pre ++ e :: rest).length < fuel := by
      have hbound := hwf.length_lt_bound
      unfold walkBound at hfuel
      omega
    rw [hfuel, getstkLoop, if_neg hnull]
    exact getstkLoop_last (hwf.chain.front ml mh hlink) hplace hfit hrest hshort
  have hlen : v.mlength (some (blockAddr e)) = BitVec.ofNat 32 e.len :=
    (chain_cons.mp (chain_append.mp hwf.chain).2).2.1
  have hhead : (v.front first ml mh).mnext none = first := rfl
  have hrun := hv
  unfold getstk at hrun
  simp only [if_neg hne, hscan] at hrun
  suffices hfront : getstk nbytes (v.front first ml mh) =
      some (v'.front first (ml - roundmb nbytes) mh,
        blockAddr b + roundmb nbytes - 4) ∧ SameHeader first v v' from
    ⟨v', ml - roundmb nbytes, hv, hwf', hmin, hmax, hfront⟩
  rw [getstk, if_neg hne, hhead]
  simp only [hscan']
  have hmlen : (v.front first ml mh).mlength (some (blockAddr e)) =
      v.mlength (some (blockAddr e)) := rfl
  rw [hmlen]
  have hene := hother e (by simp)
  by_cases hexact : roundmb nbytes = v.mlength (some (blockAddr e))
  · have hprene : pre ≠ [] := by
      rintro rfl
      have hbase : b.base = e.base + (e.len - (roundmb nbytes).toNat) :=
        congrArg (fun r => r.1.base) hb
      have hword := congrArg BitVec.toNat hexact
      rw [hlen, BitVec.toNat_ofNat, Nat.mod_eq_of_lt he.len_lt] at hword
      refine hpart e rfl ?_
      omega
    obtain ⟨c, hc, hlast⟩ := exists_lastRef hprene
    rw [if_pos hexact, hlast] at hrun
    rw [if_pos hexact, hlast]
    obtain ⟨hv', hvalue⟩ := Prod.mk.inj (Option.some.inj hrun)
    have hsame : SameHeader first v v' := by
      rw [← hv']
      exact (sameHeader_setMnext (hplace c (by simp [hc])).node hfirst
        (hother c (by simp [hc]))).debit _
    refine ⟨?_, hsame⟩
    rw [← hvalue, ← hv']
    rfl
  · rw [if_neg hexact] at hrun
    rw [if_neg hexact]
    obtain ⟨hv', hvalue⟩ := Prod.mk.inj (Option.some.inj hrun)
    have hsame : SameHeader first v v' := by
      rw [← hv']
      exact (sameHeader_setMlength he.node hfirst hene).debit _
    refine ⟨?_, hsame⟩
    rw [← hvalue, ← hv']
    rfl

theorem getstk_front_none
    {nbytes : Word} (ml mh : Word) (hwf : WellFormed v l) (hne : nbytes ≠ 0)
    (hnull : first ≠ NULL) (hlink : v.mnext (some first) = v.mnext none)
    (hfirst : v.mlength (some first) < roundmb nbytes)
    (hshort : ∀ e ∈ l, e.len < (roundmb nbytes).toNat) :
    getstk nbytes (v.front first ml mh) =
      some (v.front first ml mh, SYSERR) := by
  have hchain := hwf.chain.front ml mh hlink
  have hhead : (v.front first ml mh).mnext none = first := rfl
  have hmlen : (v.front first ml mh).mlength (some first) =
      v.mlength (some first) := rfl
  have hscan : getstkLoop (roundmb nbytes) (v.front first ml mh) walkBound
      none first none = some none := by
    have hlt := hwf.length_lt_bound
    obtain ⟨fuel, hfuel⟩ : ∃ fuel, walkBound = fuel + 1 + l.length + 1 :=
      ⟨2 ^ 32 - 1 - l.length, by unfold walkBound; omega⟩
    rw [hfuel, getstkLoop, if_neg hnull, hmlen,
      if_neg (BitVec.not_le.mpr hfirst), getstkLoop_skip _ _ none hchain.1
      (fun e he => hwf.placeable he) hshort, getstkLoop, hchain.2, if_pos rfl]
  rw [getstk, if_neg hne, hhead]
  simp only [hscan]

theorem coalesceNext_front {x next : Word} :
    coalesceNext (some x) next (v.front first ml mh) =
      (coalesceNext (some x) next v).front first ml mh := by
  unfold coalesceNext
  have hend : (v.front first ml mh).addrOf (some x) +
      (v.front first ml mh).mlength (some x) =
        v.addrOf (some x) + v.mlength (some x) := rfl
  rw [hend]
  split_ifs <;> rfl

theorem SameHeader.coalesceNext
    {x next : Word} (h : SameHeader first v v')
    (hx : BlockRef.Node (some x)) (hfirst : BlockRef.Node (some first))
    (hne : x ≠ first) : SameHeader first v (coalesceNext (some x) next v') := by
  unfold Xinu.coalesceNext
  split_ifs
  · exact (h.trans (sameHeader_setMlength hx hfirst hne)).trans
      (sameHeader_setMnext hx hfirst hne)
  · exact h

/-- So does `freemem`, for a range that lies above the block in front and above
another free block. -/
theorem freemem_front
    {b : Extent} {blkaddr nbytes : Word} (ml : Word) (hwf : WellFormed v l)
    (hb : Placeable b) (hapart : ∀ e ∈ l, b.Apart e)
    (hbase : blkaddr.toNat = b.base) (hmin : ¬ blkaddr < mh)
    (hfirst : BlockRef.Node (some first)) (hnull : first ≠ NULL)
    (hlink : v.mnext (some first) = v.mnext none)
    (hother : ∀ e ∈ l, blockAddr e ≠ first) (habove : first < blkaddr)
    (hlow : ∃ e ∈ l, e.base < b.base)
    (hv : freemem blkaddr nbytes v = some (v', OK)) :
    ∃ ml', freemem blkaddr nbytes (v.front first ml mh) =
        some (v'.front first ml' mh, OK) ∧ SameHeader first v v' := by
  obtain ⟨pre, post, rfl, hpre, hpost⟩ := split_around hwf.separated hapart
  have hplace : ∀ c ∈ pre ++ post, Placeable c := fun c hc => hwf.placeable hc
  have hbelow : ∀ c ∈ pre, c.base < blkaddr.toNat := by
    intro c hc
    have hle := hpre c hc
    have hpos := (hplace c (by simp [hc])).granular.len_pos
    unfold Extent.top at hle
    omega
  have hafter : ∀ c ∈ post, blkaddr.toNat ≤ c.base := by
    intro c hc
    have hle := hpost c hc
    unfold Extent.top at hle
    omega
  have hprene : pre ≠ [] := by
    rintro rfl
    obtain ⟨e, he, hlt⟩ := hlow
    have hle := hafter e he
    omega
  obtain ⟨c, hc, hlast⟩ := exists_lastRef hprene
  have hwalk := freememLoop_split hwf hbelow hafter
  rw [hlast] at hwalk
  have hwalk' : freememLoop blkaddr (v.front first ml mh) walkBound none first =
      some (blockRef c, v.mnext (blockRef c)) := by
    have hlt := hwf.length_lt_bound
    rw [List.length_append] at hlt
    obtain ⟨fuel, hfuel⟩ : ∃ fuel, walkBound = fuel + 1 := ⟨2 ^ 32, rfl⟩
    have hshort : pre.length < fuel := by
      unfold walkBound at hfuel
      omega
    have haround := freememLoop_around (hwf.chain.front ml mh hlink) hplace
      hbelow hafter hshort
    rw [hlast] at haround
    rw [hfuel, freememLoop, if_pos ⟨hnull, habove⟩]
    exact haround
  have hblk : blkaddr = blockAddr b := by
    apply BitVec.eq_of_toNat_eq
    rw [hb.blockAddr_toNat, hbase]
  have hbnode : BlockRef.Node (some blkaddr) := by
    rw [hblk]
    exact hb.node
  have hbne : blkaddr ≠ first := by
    rintro rfl
    exact absurd habove (BitVec.lt_irrefl _)
  have hcnode : BlockRef.Node (some (blockAddr c)) := (hplace c (by simp [hc])).node
  have hcne := hother c (by simp [hc])
  have hsome : ¬ (some (blockAddr c) : BlockRef) = none := by simp
  have hhead : (v.front first ml mh).mnext none = first := rfl
  unfold freemem at hv ⊢
  simp only [hwalk, blockRef, hsome, if_false] at hv
  have hend : (v.front first ml mh).addrOf (some (blockAddr c)) +
      (v.front first ml mh).mlength (some (blockAddr c)) =
        v.addrOf (some (blockAddr c)) + v.mlength (some (blockAddr c)) := rfl
  simp only [hhead, hwalk', blockRef, hsome, if_false, hend]
  split_ifs at hv with hguard hover htop
  · cases hv
  · cases hv
  · have hguard' : ¬ (nbytes = 0 ∨ blkaddr < (v.front first ml mh).minheap ∨
        (v.front first ml mh).maxheap < blkaddr) := fun h =>
      hguard (h.imp_right fun h => Or.inr (h.resolve_left hmin))
    obtain ⟨hv', -⟩ := Prod.mk.inj (Option.some.inj hv)
    refine ⟨ml + roundmb nbytes, ?_, ?_⟩
    · rw [if_neg hguard', if_neg hover, if_pos htop, ← hv',
        ← coalesceNext_front]
      rfl
    · rw [← hv']
      exact (((SameHeader.refl first v).credit _).trans
        (sameHeader_setMlength hcnode hfirst hcne)).coalesceNext hcnode hfirst
          hcne
  · have hguard' : ¬ (nbytes = 0 ∨ blkaddr < (v.front first ml mh).minheap ∨
        (v.front first ml mh).maxheap < blkaddr) := fun h =>
      hguard (h.imp_right fun h => Or.inr (h.resolve_left hmin))
    obtain ⟨hv', -⟩ := Prod.mk.inj (Option.some.inj hv)
    refine ⟨ml + roundmb nbytes, ?_, ?_⟩
    · rw [if_neg hguard', if_neg hover, if_neg htop, ← hv',
        ← coalesceNext_front]
      rfl
    · rw [← hv']
      exact (((((SameHeader.refl first v).credit _).trans
        (sameHeader_setMnext hbnode hfirst hbne)).trans
          (sameHeader_setMlength hbnode hfirst hbne)).trans
            (sameHeader_setMnext hcnode hfirst hcne)).coalesceNext hbnode hfirst
              hbne

end Front

/-! ## The addresses on a free list -/

/-- The blocks from `block` on, as their links give them. -/
def Heap.freeBlocks (h : Heap) : ℕ → Word → List Word
  | 0, _ => []
  | fuel + 1, block =>
      if block = NULL then []
      else block :: h.freeBlocks fuel (h.mnext (some block))

def Heap.freeList (h : Heap) : List Word :=
  h.freeBlocks walkBound (h.mnext none)

/-- How many blocks of the free list hold the address `x`. -/
def Heap.cover (h : Heap) (x : Word) : ℕ :=
  h.freeList.countP fun block => x - block < h.mlength (some block)

section Cover

variable {h v : Heap} {l : List Extent} {first ml mh : Word}

theorem freeBlocks_chain
    {ref : BlockRef} {fuel : ℕ} (hchain : Chain h ref l)
    (hplace : ∀ e ∈ l, Placeable e) (hfuel : l.length < fuel) :
    h.freeBlocks fuel (h.mnext ref) = l.map blockAddr := by
  induction l generalizing ref fuel with
  | nil =>
      cases fuel with
      | zero => cases hfuel
      | succ fuel =>
          have hend : h.mnext ref = NULL := hchain.2
          rw [Heap.freeBlocks, if_pos hend, List.map_nil]
  | cons e l ih =>
      cases fuel with
      | zero => cases hfuel
      | succ fuel =>
          obtain ⟨hhead, -, htail⟩ := chain_cons.mp hchain
          have he := hplace e (by simp)
          rw [Heap.freeBlocks, hhead, if_neg he.blockAddr_ne_null, List.map_cons]
          congr 1
          exact ih htail (fun c hc => hplace c (by simp [hc]))
            (Nat.lt_of_succ_lt_succ hfuel)

theorem sub_lt_iff
    {e : Extent} (he : Placeable e) (x : Word) :
    x - blockAddr e < BitVec.ofNat 32 e.len ↔
      e.base ≤ x.toNat ∧ x.toNat < e.top := by
  have haddr := he.blockAddr_toNat
  have hlen := he.len_lt
  have htop := he.top_le
  have hx := x.isLt
  have hbase := he.base_lt
  rw [BitVec.lt_def, BitVec.toNat_sub, haddr, BitVec.toNat_ofNat,
    Nat.mod_eq_of_lt hlen]
  unfold Extent.top at *
  omega

theorem freeList_front
    (hwf : WellFormed v l) (hnull : first ≠ NULL)
    (hlink : v.mnext (some first) = v.mnext none) :
    (v.front first ml mh).freeList = first :: l.map blockAddr := by
  obtain ⟨fuel, hfuel⟩ : ∃ fuel, walkBound = fuel + 1 := ⟨2 ^ 32, rfl⟩
  have hlt := hwf.length_lt_bound
  have hshort : l.length < fuel := by
    unfold walkBound at hfuel
    omega
  have hrest := freeBlocks_chain (hwf.chain.front ml mh hlink)
    (fun e he => hwf.placeable he) hshort
  unfold Heap.freeList
  rw [hfuel, show (v.front first ml mh).mnext none = first from rfl,
    Heap.freeBlocks, if_neg hnull, hrest]

theorem threaded_mlength
    {ref : BlockRef} (hl : Threaded h ref l) {e : Extent} (he : e ∈ l) :
    h.mlength (blockRef e) = BitVec.ofNat 32 e.len := by
  induction l generalizing ref with
  | nil => cases he
  | cons f l ih =>
      obtain ⟨-, hsize, htail⟩ := hl
      rcases List.mem_cons.mp he with rfl | he
      · exact hsize
      · exact ih htail he

theorem cover_front
    (hwf : WellFormed v l) (hnull : first ≠ NULL)
    (hlink : v.mnext (some first) = v.mnext none) (x : Word) :
    (v.front first ml mh).cover x =
      (if x - first < v.mlength (some first) then 1 else 0) +
        covers l x.toNat := by
  have hrest : ∀ l' ⊆ l, (l'.map blockAddr).countP
      (fun block => x - block < (v.front first ml mh).mlength (some block)) =
        covers l' x.toNat := by
    intro l' hsub
    induction l' with
    | nil => rfl
    | cons e l' ih =>
        rw [List.cons_subset] at hsub
        have hlen : (v.front first ml mh).mlength (some (blockAddr e)) =
            BitVec.ofNat 32 e.len := threaded_mlength hwf.chain.1 hsub.1
        have hiff := sub_lt_iff (hwf.placeable hsub.1) x
        rw [List.map_cons, List.countP_cons, ih hsub.2, covers_cons, hlen,
          Extent.tally, Nat.add_comm]
        simp only [hiff, decide_eq_true_eq]
  unfold Heap.cover
  rw [freeList_front hwf hnull hlink, List.countP_cons,
    hrest l (List.Subset.refl l), Nat.add_comm]
  simp only [decide_eq_true_eq]
  rfl

end Cover

/-! ## Stacks from a list with a block in front -/

theorem HeapInv.perm
    {low high bytes : ℕ} {h : Heap} {live live' : List LiveBlock}
    {l : List Extent} (hinv : HeapInv low high bytes ⟨h, live⟩ l)
    (hperm : live.Perm live') : HeapInv low high bytes ⟨h, live'⟩ l := by
  have hext : (live.map LiveBlock.extent).Perm (live'.map LiveBlock.extent) :=
    hperm.map _
  have hpart := hinv.partitioned
  refine ⟨hinv.wellFormed, ⟨hpart.separated, hpart.free_granular, ?_,
    hpart.free_within, ?_, ?_, ?_⟩, ?_, ?_, hinv.low_eq, hinv.high_le,
    hinv.high_lt⟩
  · exact fun e he => hpart.live_granular e (hext.mem_iff.mpr he)
  · exact fun e he => hpart.live_within e (hext.mem_iff.mpr he)
  · exact (hext.pairwise_iff fun hab => Extent.Apart.symm hab).mp
      hpart.live_apart
  · exact fun b hb => hpart.apart b (hext.mem_iff.mpr hb)
  · exact fun b hb => hinv.sizes b (hperm.mem_iff.mpr hb)
  · have hsum : total (live.map LiveBlock.extent) =
        total (live'.map LiveBlock.extent) := (hext.map _).sum_eq
    show total l + total (live'.map LiveBlock.extent) = bytes
    rw [← hsum]
    exact hinv.bytes_eq

/-- A heap with a block of `len` bytes at `first` in front of a sorted list
whose lowest block lies below; everything handed out lies above both. -/
structure FrontInv
    (low high bytes : ℕ) (first mh len : Word) (h : Heap)
    (live : List LiveBlock) (v : Heap) (l : List Extent) : Prop where
  heap : ∃ ml, h = v.front first ml mh
  inv : HeapInv low high bytes ⟨v, live⟩ l
  next : v.mnext (some first) = BitVec.ofNat 32 low
  length : v.mlength (some first) = len
  lowest : ∃ e ∈ l, e.base = low
  bases : ∀ e ∈ l, e.base = low ∨ first.toNat < e.base
  above : ∀ b ∈ live, first.toNat < b.base.toNat
  granular : first.toNat % 8 = 0
  low_lt : low < first.toNat
  minheap_le : mh.toNat ≤ first.toNat

section Front

variable {low high bytes : ℕ} {first mh len n : Word} {h v : Heap}
variable {live live' : List LiveBlock} {l : List Extent}

theorem FrontInv.perm
    (hf : FrontInv low high bytes first mh len h live v l)
    (hperm : live.Perm live') :
    FrontInv low high bytes first mh len h live' v l :=
  ⟨hf.heap, hf.inv.perm hperm, hf.next, hf.length, hf.lowest, hf.bases,
    fun b hb => hf.above b (hperm.mem_iff.mpr hb), hf.granular, hf.low_lt,
    hf.minheap_le⟩

theorem head_lowest
    {e : Extent} (hwf : WellFormed v l) (hlow : v.minheap.toNat = low)
    (hmem : ∃ e ∈ l, e.base = low) (he : l.head? = some e) : e.base = low := by
  obtain ⟨c, hc, hbase⟩ := hmem
  cases l with
  | nil => cases he
  | cons f l =>
      rw [List.head?_cons, Option.some.injEq] at he
      subst he
      have hsep := hwf.separated
      unfold Separated at hsep
      rw [List.pairwise_cons] at hsep
      have hin := (hwf.within f (by simp)).1
      have htop : f.top = f.base + f.len := rfl
      rcases List.mem_cons.mp hc with rfl | hc
      · exact hbase
      · have hlt := hsep.1 c hc
        omega

theorem mnext_lowest
    (hwf : WellFormed v l) (hlow : v.minheap.toNat = low)
    (hmem : ∃ e ∈ l, e.base = low) : v.mnext none = BitVec.ofNat 32 low := by
  cases l with
  | nil =>
      obtain ⟨e, he, -⟩ := hmem
      cases he
  | cons f l =>
      rw [(chain_cons.mp hwf.chain).1, blockAddr,
        head_lowest hwf hlow hmem rfl]

theorem FrontInv.link (hf : FrontInv low high bytes first mh len h live v l) :
    v.mnext (some first) = v.mnext none := by
  rw [hf.next, mnext_lowest hf.inv.wellFormed hf.inv.low_eq hf.lowest]

theorem FrontInv.node (hf : FrontInv low high bytes first mh len h live v l) :
    BlockRef.Node (some first) := hf.granular

theorem FrontInv.ne_null
    (hf : FrontInv low high bytes first mh len h live v l) : first ≠ NULL := by
  rintro rfl
  exact absurd hf.low_lt (Nat.not_lt_zero _)

theorem FrontInv.other
    (hf : FrontInv low high bytes first mh len h live v l) :
    ∀ e ∈ l, blockAddr e ≠ first := by
  rintro e he rfl
  have haddr := (hf.inv.wellFormed.placeable he).blockAddr_toNat
  have hlow := hf.low_lt
  rcases hf.bases e he with hbase | hbase <;> omega

theorem FrontInv.cover
    (hf : FrontInv low high bytes first mh len h live v l) (x : Word) :
    h.cover x = (if x - first < len then 1 else 0) + covers l x.toNat := by
  obtain ⟨ml, rfl⟩ := hf.heap
  rw [cover_front hf.inv.wellFormed hf.ne_null hf.link, hf.length]

theorem FrontInv.release
    {block : LiveBlock} {nbytes : Word}
    (hf : FrontInv low high bytes first mh len h live v l)
    (hmem : block ∈ live) (hround : roundmb nbytes = roundmb block.size)
    (hne : nbytes ≠ 0) :
    ∃ h' v', freemem block.base nbytes h = some (h', OK) ∧
      FrontInv low high bytes first mh len h' (live.erase block) v'
        (FreeExtents.release block.extent l) := by
  obtain ⟨ml, hheap⟩ := hf.heap
  obtain ⟨v', hv, hinv⟩ := hf.inv.free hmem hround hne
  have hwf := hf.inv.wellFormed
  have hext : block.extent ∈ (⟨v, live⟩ : AllocState).liveExtents :=
    List.mem_map_of_mem hmem
  have habove := hf.above block hmem
  have hlow := hf.low_lt
  have hgran := hf.inv.partitioned.live_granular _ hext
  have hwithin := hf.inv.partitioned.live_within _ hext
  have hhigh := hf.inv.high_lt
  have hplace : Placeable block.extent := by
    refine ⟨hgran, ?_, ?_⟩
    · show 0 < block.base.toNat
      omega
    · unfold Extent.Within at hwithin
      omega
  obtain ⟨e, he, hbase⟩ := hf.lowest
  have hbelow : e.base < block.extent.base := by
    show e.base < block.base.toNat
    omega
  have hmin : ¬ block.base < mh := by
    have hle := hf.minheap_le
    rw [BitVec.lt_def]
    omega
  obtain ⟨ml', hfront, hsame⟩ := freemem_front ml hwf hplace
    (hf.inv.partitioned.apart _ hext) rfl hmin hf.node hf.ne_null hf.link
    hf.other (by rw [BitVec.lt_def]; exact habove) ⟨e, he, hbelow⟩ hv
  refine ⟨_, v', by rw [hheap]; exact hfront, ⟨ml', rfl⟩, hinv, ?_, ?_, ?_, ?_,
    ?_, hf.granular, hf.low_lt, hf.minheap_le⟩
  · exact hsame.mnext.trans hf.next
  · exact hsame.mlength.trans hf.length
  · rw [← hbase]
    exact base_mem_release he hbelow.le hwf.separated
  · intro c hc
    rcases base_of_release hc with hc | ⟨d, hd, hc⟩
    · rw [hc]
      exact Or.inr habove
    · rw [hc]
      exact hf.bases d hd
  · exact fun b hb => hf.above b (List.mem_of_mem_erase hb)

/-- The last block that fits gives a part above the header of the block in
front, if any block does. -/
theorem FrontInv.carved_above
    {r : Extent × List Extent} {size : ℕ}
    (hf : FrontInv low high bytes first mh len h live v l)
    (hcarve : carveLast size l = some r)
    (hroom : ∃ e ∈ l, size ≤ e.len ∧ first.toNat + 8 + size ≤ e.top) :
    first.toNat < r.1.base := by
  obtain ⟨pre, e, post, rfl, hpost, hfit, rfl⟩ := carveLast_split hcarve
  obtain ⟨c, hc, hlong, htop⟩ := hroom
  have hwf := hf.inv.wellFormed
  have hlow : v.minheap.toNat = low := hf.inv.low_eq
  rcases hf.bases e (by simp) with hbase | hbase
  · have hce : c = e := by
      rcases List.mem_append.mp hc with hc | hc
      · have hbelow := (below_of_separated hwf.separated).1 c hc
        have hin : v.minheap.toNat ≤ c.base := (hwf.within c (by simp [hc])).1
        have hctop : c.top = c.base + c.len := rfl
        omega
      · rcases List.mem_cons.mp hc with rfl | hc
        · rfl
        · have hshort := hpost c hc
          omega
    subst hce
    unfold Extent.top at htop
    dsimp only
    omega
  · dsimp only
    omega

/-- Some block but the first has `n` bytes above the header of the first. -/
theorem FrontInv.getstk
    (hf : FrontInv low high bytes first mh len h live v l)
    (hpos : 0 < n.toNat) (hbound : n.toNat ≤ 2 ^ 32 - 8)
    (hround : roundmb n = n)
    (hroom : ∃ e ∈ l, n.toNat ≤ e.len ∧ first.toNat + 8 + n.toNat ≤ e.top) :
    ∃ h' v' l' base, getstk n h = some (h', base + n - 4) ∧
      FrontInv low high bytes first mh len h' (⟨base, n⟩ :: live) v' l' ∧
      (∀ x, (LiveBlock.extent ⟨base, n⟩).tally x + covers l' x = covers l x) ∧
      base + n - 4 ≠ SYSERR := by
  obtain ⟨ml, hheap⟩ := hf.heap
  have hwf := hf.inv.wellFormed
  obtain ⟨hdvd, hrpos, -⟩ := roundmb_request hpos hbound
  cases hcarve : carveLast (roundmb n).toNat l with
  | none =>
      have hshort := carveLast_eq_none_iff.mp hcarve
      obtain ⟨e, he, hfit, -⟩ := hroom
      have hlt := hshort e he
      rw [hround] at hlt
      omega
  | some r =>
      obtain ⟨b, l'⟩ := r
      have hcarved : Carved b l l' := carveLast_carved hcarve
      have hgran : b.Granular 8 ∧ ∀ e ∈ l', e.Granular 8 :=
        carveLast_granular hwf.granular hdvd hrpos hcarve
      have hblen : b.len = (roundmb n).toNat := by
        obtain ⟨pre, f, post, -, -, -, hr⟩ := carveLast_split hcarve
        exact congrArg (fun r => r.1.len) hr
      obtain ⟨hplace, hext⟩ := hf.inv.carvedBlock hcarved hgran.1 hblen
      have hlow := hf.low_lt
      have habove : first.toNat < b.base :=
        hf.carved_above hcarve (by rwa [hround])
      have hpart : ∀ e, l.head? = some e → b.base ≠ e.base := by
        intro e he
        rw [head_lowest hwf hf.inv.low_eq hf.lowest he]
        omega
      obtain ⟨v', ml', hv, hwf', hmin, hmax, hfront, hsame⟩ := getstk_front
        ml mh hwf hpos hbound hcarve hf.node hf.ne_null hf.link
        hf.other hpart
      rw [hround] at hfront
      have hbase : (blockAddr b).toNat = b.base := hplace.blockAddr_toNat
      refine ⟨_, v', l', blockAddr b, by rw [hheap]; exact hfront,
        ⟨⟨ml', rfl⟩, hf.inv.allocate hcarved hgran hext ⟨hpos, hbound⟩ hwf' hmin
          hmax, hsame.mnext.trans hf.next, hsame.mlength.trans hf.length, ?_,
          ?_, ?_, hf.granular, hf.low_lt, hf.minheap_le⟩, ?_, ?_⟩
      · obtain ⟨e, he, helow⟩ := hf.lowest
        rw [← helow]
        exact base_mem_carveLast hcarve he (by simp only; omega)
      · intro c hc
        obtain ⟨e, he, hceq⟩ := base_of_carveLast hcarve hc
        rw [hceq]
        exact hf.bases e he
      · refine List.forall_mem_cons.mpr ⟨?_, hf.above⟩
        simp only
        omega
      · intro x
        rw [hext]
        exact covers_carveLast hcarve x
      · rw [hround] at hdvd
        exact stack_ne_syserr hplace hdvd

/-- Writes inside a block that is handed out leave the free list alone. -/
theorem FrontInv.write
    {mem : Memory} {block : LiveBlock}
    (hf : FrontInv low high bytes first mh len h live v l)
    (hmem : block ∈ live)
    (hother : ∀ addr : Word, addr.toNat % 4 = 0 →
      addr.toNat < block.extent.base ∨ block.extent.top ≤ addr.toNat →
        read32 mem addr = read32 h.mem addr) :
    FrontInv low high bytes first mh len { h with mem := mem } live
      { v with mem := mem } l := by
  obtain ⟨ml, rfl⟩ := hf.heap
  have hwf := hf.inv.wellFormed
  have hext : block.extent ∈ (⟨v, live⟩ : AllocState).liveExtents :=
    List.mem_map_of_mem hmem
  have hword : ∀ (x : Word) (top : ℕ), x.toNat % 8 = 0 → x.toNat + 8 ≤ top →
      top ≤ block.extent.base ∨ block.extent.top ≤ x.toNat →
        ∀ {y : Word}, y = x ∨ y = x + 4 → read32 mem y = read32 v.mem y := by
    intro x top hx htop hout y hy
    have hlt := x.isLt
    have hsum : (x + 4).toNat = x.toNat + 4 := by
      rw [BitVec.toNat_add]
      show (x.toNat + 4) % 2 ^ 32 = _
      omega
    apply hother
    · rcases hy with rfl | rfl <;> omega
    · rcases hy with rfl | rfl <;> omega
  have hfree : ∀ e ∈ l, ∀ {y : Word}, y = blockAddr e ∨ y = blockAddr e + 4 →
      read32 mem y = read32 v.mem y := by
    intro e he
    have haddr := (hwf.placeable he).blockAddr_toNat
    have hgran := hwf.granular e he
    have hbase := hgran.base_dvd
    have hlen := hgran.len_dvd
    have hpos := hgran.len_pos
    have htop : e.top = e.base + e.len := rfl
    have hapart := hf.inv.partitioned.apart _ hext e he
    unfold Extent.Apart at hapart
    intro y hy
    exact hword (blockAddr e) e.top (by omega) (by omega) (by omega) hy
  have hhead : ∀ {y : Word}, y = first ∨ y = first + 4 →
      read32 mem y = read32 v.mem y := by
    have habove := hf.above block hmem
    have hgran := hf.granular
    have hdvd := (hf.inv.partitioned.live_granular _ hext).base_dvd
    have hbase : block.extent.base = block.base.toNat := rfl
    intro y hy
    exact hword first (first.toNat + 8) hgran le_rfl (by omega) hy
  refine ⟨⟨ml, rfl⟩, ?_, ?_, ?_, hf.lowest, hf.bases, hf.above, hf.granular,
    hf.low_lt, hf.minheap_le⟩
  · refine ⟨⟨?_, hwf.separated, hwf.granular, hwf.within, hwf.minheap_pos,
      hwf.mlength_eq⟩, hf.inv.partitioned, hf.inv.sizes, hf.inv.bytes_eq,
      hf.inv.low_eq, hf.inv.high_le, hf.inv.high_lt⟩
    apply hwf.chain.congr
    · intro r hr
      rcases List.mem_cons.mp hr with rfl | hr
      · rfl
      · obtain ⟨e, he, rfl⟩ := List.mem_map.mp hr
        exact hfree e he (Or.inl rfl)
    · intro e he
      exact hfree e he (Or.inr rfl)
  · rw [← hf.next]
    exact hhead (Or.inl rfl)
  · rw [← hf.length]
    exact hhead (Or.inr rfl)

end Front

end Xinu
