import Xinu.FreeExtents
import Xinu.HeapAllocator

/-!
# The free list in memory

`WellFormed h l` says that the blocks threaded through physical memory from
`memlist` are exactly the extents `l`, and that `l` is the kind of list the
allocator maintains.  On such a heap the three allocator operations compute
the list operations of `FreeExtents`.
-/

namespace Xinu

open ByteMemory
open FreeExtents

/-! ## Rounding -/

theorem truncmb_toNat (x : Word) : (truncmb x).toNat = x.toNat / 8 * 8 := by
  have hshift : truncmb x = (x >>> 3) <<< 3 := by
    unfold truncmb
    apply BitVec.eq_of_getLsbD_eq
    intro i hi
    interval_cases i <;> simp
  rw [hshift, BitVec.toNat_shiftLeft, BitVec.toNat_ushiftRight,
    Nat.shiftLeft_eq, Nat.shiftRight_eq_div_pow]
  omega

theorem roundmb_toNat {x : Word} (hx : x.toNat ≤ 2 ^ 32 - 8) :
    (roundmb x).toNat = (x.toNat + 7) / 8 * 8 := by
  have hsum : (7 + x).toNat = x.toNat + 7 := by bv_omega
  have hround : roundmb x = truncmb (7 + x) := rfl
  rw [hround, truncmb_toNat, hsum]

/-- Rounding a request gives a positive block size that covers it. -/
theorem roundmb_request
    {x : Word} (hpos : 0 < x.toNat) (hx : x.toNat ≤ 2 ^ 32 - 8) :
    8 ∣ (roundmb x).toNat ∧ 0 < (roundmb x).toNat ∧
      x.toNat ≤ (roundmb x).toNat := by
  rw [roundmb_toNat hx]
  omega

theorem roundmb_roundmb {x : Word} (hx : x.toNat ≤ 2 ^ 32 - 8) :
    roundmb (roundmb x) = roundmb x := by
  have hfirst := roundmb_toNat hx
  apply BitVec.eq_of_toNat_eq
  rw [roundmb_toNat (by omega), hfirst]
  omega

/-! ## Links of the heap -/

def BlockRef.Node : BlockRef → Prop
  | none => True
  | some block => block.toNat % 8 = 0

@[simp] theorem setMnext_bounds (h : Heap) (ref : BlockRef) (value : Word) :
    (h.setMnext ref value).minheap = h.minheap ∧
      (h.setMnext ref value).maxheap = h.maxheap := by
  cases ref <;> exact ⟨rfl, rfl⟩

@[simp] theorem setMlength_bounds (h : Heap) (ref : BlockRef) (value : Word) :
    (h.setMlength ref value).minheap = h.minheap ∧
      (h.setMlength ref value).maxheap = h.maxheap := by
  cases ref <;> exact ⟨rfl, rfl⟩

theorem mnext_setMnext
    {h : Heap} {ref other : BlockRef} {value : Word}
    (href : ref.Node) (hother : other.Node) :
    (h.setMnext ref value).mnext other =
      if other = ref then value else h.mnext other := by
  cases ref with
  | none => cases other <;> simp [Heap.setMnext, Heap.mnext]
  | some block =>
      cases other with
      | none => simp [Heap.setMnext, Heap.mnext]
      | some node =>
          have hb : Aligned block := by
            unfold BlockRef.Node at href
            unfold Aligned
            omega
          have hn : Aligned node := by
            unfold BlockRef.Node at hother
            unfold Aligned
            omega
          simp only [Heap.setMnext, Heap.mnext, Option.some.injEq]
          exact read32_write32_aligned h.mem value hb hn

theorem mlength_setMnext
    {h : Heap} {ref other : BlockRef} {value : Word}
    (href : ref.Node) (hother : other.Node) :
    (h.setMnext ref value).mlength other = h.mlength other := by
  cases ref with
  | none => cases other <;> simp [Heap.setMnext, Heap.mlength]
  | some block =>
      cases other with
      | none => simp [Heap.setMnext, Heap.mlength]
      | some node =>
          unfold BlockRef.Node at href hother
          simp only [Heap.setMnext, Heap.mlength]
          apply read32_write32_of_ne
          · unfold Aligned
            omega
          · unfold Aligned
            bv_omega
          · bv_omega

theorem mnext_setMlength
    {h : Heap} {ref other : BlockRef} {value : Word}
    (href : ref.Node) (hother : other.Node) :
    (h.setMlength ref value).mnext other = h.mnext other := by
  cases ref with
  | none => cases other <;> simp [Heap.setMlength, Heap.mnext]
  | some block =>
      cases other with
      | none => simp [Heap.setMlength, Heap.mnext]
      | some node =>
          unfold BlockRef.Node at href hother
          simp only [Heap.setMlength, Heap.mnext]
          apply read32_write32_of_ne
          · unfold Aligned
            bv_omega
          · unfold Aligned
            omega
          · bv_omega

theorem mlength_setMlength
    {h : Heap} {ref other : BlockRef} {value : Word}
    (href : ref.Node) (hother : other.Node) :
    (h.setMlength ref value).mlength other =
      if other = ref then value else h.mlength other := by
  cases ref with
  | none => cases other <;> simp [Heap.setMlength, Heap.mlength]
  | some block =>
      cases other with
      | none => simp [Heap.setMlength, Heap.mlength]
      | some node =>
          unfold BlockRef.Node at href hother
          have hshift : node + 4 = block + 4 ↔ node = block := by bv_omega
          simp only [Heap.setMlength, Heap.mlength, Option.some.injEq]
          rw [read32_write32_aligned h.mem value
            (by unfold Aligned; bv_omega) (by unfold Aligned; bv_omega)]
          simp only [hshift]

/-! ## Threads of blocks -/

def blockAddr (e : Extent) : Word := BitVec.ofNat 32 e.base

def blockRef (e : Extent) : BlockRef := some (blockAddr e)

/-- Where an extent can lie: a multiple of eight, not at address zero, and
inside the address space. -/
structure Placeable (e : Extent) : Prop where
  granular : e.Granular 8
  base_pos : 0 < e.base
  top_le : e.top ≤ 2 ^ 32

theorem Placeable.base_lt {e : Extent} (he : Placeable e) :
    e.base < 2 ^ 32 := by
  have hpos := he.granular.len_pos
  have htop := he.top_le
  unfold Extent.top at htop
  omega

theorem Placeable.blockAddr_toNat {e : Extent} (he : Placeable e) :
    (blockAddr e).toNat = e.base := by
  have hlt := he.base_lt
  simp only [blockAddr, BitVec.toNat_ofNat]
  omega

theorem Placeable.node {e : Extent} (he : Placeable e) :
    (blockRef e).Node := by
  have hdvd := he.granular.base_dvd
  show (blockAddr e).toNat % 8 = 0
  rw [he.blockAddr_toNat]
  omega

theorem Placeable.blockAddr_ne_null {e : Extent} (he : Placeable e) :
    blockAddr e ≠ NULL := by
  intro heq
  have hzero : (blockAddr e).toNat = 0 := by rw [heq]; rfl
  rw [he.blockAddr_toNat] at hzero
  have hpos := he.base_pos
  omega

theorem blockRef_inj
    {a b : Extent} (ha : Placeable a) (hb : Placeable b)
    (heq : blockRef a = blockRef b) : a.base = b.base := by
  unfold blockRef at heq
  rw [Option.some.injEq] at heq
  rw [← ha.blockAddr_toNat, ← hb.blockAddr_toNat, heq]

/-- The blocks `l` follow one another along the links that start at `ref`. -/
def Threaded (h : Heap) : BlockRef → List Extent → Prop
  | _, [] => True
  | ref, e :: l =>
      h.mnext ref = blockAddr e ∧
        h.mlength (blockRef e) = BitVec.ofNat 32 e.len ∧
          Threaded h (blockRef e) l

/-- The last block of a thread, or its start. -/
def lastRef : BlockRef → List Extent → BlockRef
  | ref, [] => ref
  | _, e :: l => lastRef (blockRef e) l

/-- The blocks whose links a thread follows. -/
def followed : BlockRef → List Extent → List BlockRef
  | _, [] => []
  | ref, e :: l => ref :: followed (blockRef e) l

/-- A thread that ends in the null pointer. -/
def Chain (h : Heap) (ref : BlockRef) (l : List Extent) : Prop :=
  Threaded h ref l ∧ h.mnext (lastRef ref l) = NULL

theorem lastRef_append (ref : BlockRef) (xs ys : List Extent) :
    lastRef ref (xs ++ ys) = lastRef (lastRef ref xs) ys := by
  induction xs generalizing ref with
  | nil => rfl
  | cons e xs ih => exact ih (blockRef e)

theorem threaded_append
    {h : Heap} {ref : BlockRef} {xs ys : List Extent} :
    Threaded h ref (xs ++ ys) ↔
      Threaded h ref xs ∧ Threaded h (lastRef ref xs) ys := by
  induction xs generalizing ref with
  | nil => simp [Threaded, lastRef]
  | cons e xs ih => simp [Threaded, lastRef, ih, and_assoc]

theorem chain_append {h : Heap} {ref : BlockRef} {xs ys : List Extent} :
    Chain h ref (xs ++ ys) ↔
      Threaded h ref xs ∧ Chain h (lastRef ref xs) ys := by
  simp [Chain, threaded_append, lastRef_append, and_assoc]

theorem chain_cons {h : Heap} {ref : BlockRef} {e : Extent} {l : List Extent} :
    Chain h ref (e :: l) ↔
      h.mnext ref = blockAddr e ∧
        h.mlength (blockRef e) = BitVec.ofNat 32 e.len ∧
          Chain h (blockRef e) l := by
  simp [Chain, Threaded, lastRef, and_assoc]

theorem followed_concat_lastRef (ref : BlockRef) (l : List Extent) :
    followed ref l ++ [lastRef ref l] = ref :: l.map blockRef := by
  induction l generalizing ref with
  | nil => rfl
  | cons e l ih => simp [followed, lastRef, ih]

theorem Threaded.congr
    {h h' : Heap} {ref : BlockRef} {l : List Extent} (hl : Threaded h ref l)
    (hnext : ∀ r ∈ followed ref l, h'.mnext r = h.mnext r)
    (hlen : ∀ e ∈ l, h'.mlength (blockRef e) = h.mlength (blockRef e)) :
    Threaded h' ref l := by
  induction l generalizing ref with
  | nil => trivial
  | cons e l ih =>
      obtain ⟨hhead, hsize, htail⟩ := hl
      refine ⟨?_, ?_, ?_⟩
      · rw [hnext ref (by simp [followed])]
        exact hhead
      · rw [hlen e (by simp)]
        exact hsize
      · apply ih htail
        · intro r hr
          exact hnext r (by simp [followed, hr])
        · intro c hc
          exact hlen c (by simp [hc])

theorem Chain.congr
    {h h' : Heap} {ref : BlockRef} {l : List Extent} (hl : Chain h ref l)
    (hnext : ∀ r ∈ ref :: l.map blockRef, h'.mnext r = h.mnext r)
    (hlen : ∀ e ∈ l, h'.mlength (blockRef e) = h.mlength (blockRef e)) :
    Chain h' ref l := by
  rw [← followed_concat_lastRef] at hnext
  refine ⟨hl.1.congr (fun r hr => hnext r (by simp [hr])) hlen, ?_⟩
  rw [hnext _ (by simp)]
  exact hl.2

theorem lastRef_node
    {ref : BlockRef} {l : List Extent} (href : ref.Node)
    (hl : ∀ e ∈ l, Placeable e) : (lastRef ref l).Node := by
  induction l generalizing ref with
  | nil => exact href
  | cons e l ih =>
      exact ih (hl e (by simp)).node fun c hc => hl c (by simp [hc])

theorem lastRef_mem (ref : BlockRef) (l : List Extent) :
    lastRef ref l = ref ∨ ∃ e ∈ l, lastRef ref l = blockRef e := by
  have hmem : lastRef ref l ∈ followed ref l ++ [lastRef ref l] := by simp
  rw [followed_concat_lastRef, List.mem_cons, List.mem_map] at hmem
  rcases hmem with heq | ⟨e, he, heq⟩
  · exact Or.inl heq
  · exact Or.inr ⟨e, he, heq.symm⟩

/-! ## Well-formed heaps -/

structure WellFormed (h : Heap) (l : List Extent) : Prop where
  chain : Chain h none l
  separated : Separated l
  granular : ∀ e ∈ l, e.Granular 8
  within : ∀ e ∈ l, e.Within h.minheap.toNat (h.maxheap.toNat + 1)
  minheap_pos : 0 < h.minheap.toNat
  mlength_eq : h.memlist.mlength.toNat = total l

theorem WellFormed.placeable
    {h : Heap} {l : List Extent} (hwf : WellFormed h l)
    {e : Extent} (he : e ∈ l) : Placeable e := by
  have hin := hwf.within e he
  have hmin := hwf.minheap_pos
  have hmax := h.maxheap.isLt
  unfold Extent.Within at hin
  exact ⟨hwf.granular e he, by omega, by omega⟩

theorem WellFormed.length_lt
    {h : Heap} {l : List Extent} (hwf : WellFormed h l) :
    l.length < walkBound := by
  have hcount := length_le_total fun e he => (hwf.granular e he).len_pos
  have htotal := hwf.separated.total_le hwf.within
  have hmax := h.maxheap.isLt
  unfold walkBound
  omega

/-- No two nodes of a sorted list are stored at the same place. -/
theorem blockRefs_nodup
    {l : List Extent} (hsep : Separated l) (hl : ∀ e ∈ l, Placeable e) :
    (none :: l.map blockRef).Nodup := by
  rw [List.nodup_cons]
  refine ⟨by simp [blockRef], ?_⟩
  unfold Separated at hsep
  rw [List.Nodup, List.pairwise_map]
  refine hsep.imp_of_mem ?_
  intro a b ha hb hlt heq
  have hbase := blockRef_inj (hl a ha) (hl b hb) heq
  have hpos := (hl a ha).granular.len_pos
  unfold Extent.top at hlt
  omega

/-- The last block of a thread is not one whose link the thread follows. -/
theorem lastRef_not_mem_followed
    {l : List Extent} (hsep : Separated l) (hl : ∀ e ∈ l, Placeable e) :
    ∀ r ∈ followed none l, r ≠ lastRef none l := by
  have hnodup := blockRefs_nodup hsep hl
  rw [← followed_concat_lastRef, List.nodup_append] at hnodup
  intro r hr
  exact hnodup.2.2 r hr (lastRef none l) (by simp)

theorem followed_node
    {ref : BlockRef} {l : List Extent} (href : ref.Node)
    (hl : ∀ e ∈ l, Placeable e) : ∀ r ∈ followed ref l, r.Node := by
  intro r hr
  have hmem : r ∈ followed ref l ++ [lastRef ref l] := by simp [hr]
  rw [followed_concat_lastRef, List.mem_cons, List.mem_map] at hmem
  rcases hmem with rfl | ⟨e, he, rfl⟩
  · exact href
  · exact (hl e he).node

/-! ## Edits of a chain -/

theorem Chain.move
    {h h' : Heap} {ref ref' : BlockRef} {l : List Extent}
    (hl : Chain h ref l) (hstart : h'.mnext ref' = h.mnext ref)
    (hnext : ∀ e ∈ l, h'.mnext (blockRef e) = h.mnext (blockRef e))
    (hlen : ∀ e ∈ l, h'.mlength (blockRef e) = h.mlength (blockRef e)) :
    Chain h' ref' l := by
  cases l with
  | nil => exact ⟨trivial, hstart.trans hl.2⟩
  | cons e l =>
      rw [chain_cons] at hl ⊢
      obtain ⟨hhead, hsize, htail⟩ := hl
      refine ⟨hstart.trans hhead, (hlen e (by simp)).trans hsize, ?_⟩
      apply htail.congr
      · intro r hr
        rw [List.mem_cons, List.mem_map] at hr
        rcases hr with rfl | ⟨c, hc, rfl⟩
        · exact hnext e (by simp)
        · exact hnext c (by simp [hc])
      · intro c hc
        exact hlen c (by simp [hc])

theorem chain_setMlength_none
    {h : Heap} {ref : BlockRef} {l : List Extent} (value : Word)
    (hl : Chain h ref l) : Chain (h.setMlength none value) ref l := by
  apply hl.congr
  · intro r _
    cases r <;> rfl
  · intro e _
    rfl

/-- A position in a sorted list of placeable extents: the extents before it
and those after it. -/
structure Position (pre post : List Extent) : Prop where
  separated : Separated (pre ++ post)
  placeable : ∀ e ∈ pre ++ post, Placeable e

namespace Position

variable {pre post : List Extent} (hpos : Position pre post)

include hpos

theorem pre_placeable : ∀ e ∈ pre, Placeable e := fun e he =>
  hpos.placeable e (by simp [he])

theorem post_placeable : ∀ e ∈ post, Placeable e := fun e he =>
  hpos.placeable e (by simp [he])

theorem last_node : (lastRef none pre).Node :=
  lastRef_node trivial hpos.pre_placeable

theorem post_ne_last : ∀ e ∈ post, blockRef e ≠ lastRef none pre := by
  intro e he heq
  have hnodup := blockRefs_nodup hpos.separated hpos.placeable
  rw [List.map_append, ← List.cons_append, List.nodup_append] at hnodup
  have hmem : lastRef none pre ∈ none :: pre.map blockRef := by
    rw [← followed_concat_lastRef]
    simp
  exact hnodup.2.2 _ hmem (blockRef e) (List.mem_map_of_mem he) heq.symm

theorem followed_ne_last :
    ∀ r ∈ followed none pre, r ≠ lastRef none pre :=
  lastRef_not_mem_followed (List.pairwise_append.mp hpos.separated).1
    hpos.pre_placeable

theorem pre_followed_node : ∀ r ∈ followed none pre, r.Node :=
  followed_node trivial hpos.pre_placeable

/-- A block that starts inside the gap after `pre`, or inside the first extent
after it, is stored apart from every block before the position. -/
theorem followed_ne
    {e : Extent} (he : Placeable e) (hbelow : ∀ c ∈ pre, c.base < e.base) :
    ∀ r ∈ followed none pre, r ≠ blockRef e := by
  intro r hr heq
  have hmem : r ∈ followed none pre ++ [lastRef none pre] := by simp [hr]
  rw [followed_concat_lastRef, List.mem_cons, List.mem_map] at hmem
  rcases hmem with rfl | ⟨c, hc, rfl⟩
  · simp [blockRef] at heq
  · have hbase := blockRef_inj (hpos.pre_placeable c hc) he heq
    have hlt := hbelow c hc
    omega

end Position

theorem blockRef_ne
    {a b : Extent} (ha : Placeable a) (hb : Placeable b)
    (hne : a.base ≠ b.base) : blockRef a ≠ blockRef b := fun heq =>
  hne (blockRef_inj ha hb heq)

section Edits

variable {h : Heap} {pre post : List Extent} {e : Extent}

theorem below_of_separated
    (hsep : Separated (pre ++ e :: post)) :
    (∀ c ∈ pre, c.top < e.base) ∧ ∀ c ∈ post, e.top < c.base := by
  unfold Separated at hsep
  rw [List.pairwise_append, List.pairwise_cons] at hsep
  exact ⟨fun c hc => hsep.2.2 c hc e (by simp), hsep.2.1.1⟩

theorem lastRef_ne_of_below
    {b : Extent} (hpos : Position pre post) (hb : Placeable b)
    (hbelow : ∀ c ∈ pre, c.base < b.base) :
    lastRef none pre ≠ blockRef b := by
  rcases lastRef_mem none pre with heq | ⟨c, hc, heq⟩
  · rw [heq]
    simp [blockRef]
  · rw [heq]
    exact blockRef_ne (hpos.pre_placeable c hc) hb (hbelow c hc).ne

theorem position_of_separated
    (hsep : Separated (pre ++ e :: post))
    (hplace : ∀ c ∈ pre ++ e :: post, Placeable c) :
    Position pre post := by
  refine ⟨hsep.sublist ?_, fun c hc => hplace c ?_⟩
  · exact List.Sublist.append_left (List.sublist_cons_self e post) pre
  · rw [List.mem_append] at hc
    rcases hc with hc | hc <;> simp [hc]

/-- Take a whole block out of the chain. -/
theorem chain_unlink
    (hsep : Separated (pre ++ e :: post))
    (hplace : ∀ c ∈ pre ++ e :: post, Placeable c)
    (hchain : Chain h none (pre ++ e :: post)) :
    Chain (h.setMnext (lastRef none pre) (h.mnext (blockRef e))) none
      (pre ++ post) := by
  have hpos := position_of_separated hsep hplace
  have hlast := hpos.last_node
  obtain ⟨hpre, hrest⟩ := chain_append.mp hchain
  obtain ⟨-, -, htail⟩ := chain_cons.mp hrest
  refine chain_append.mpr ⟨?_, ?_⟩
  · apply hpre.congr
    · intro r hr
      rw [mnext_setMnext hlast (hpos.pre_followed_node r hr),
        if_neg (hpos.followed_ne_last r hr)]
    · intro c hc
      exact mlength_setMnext hlast (hpos.pre_placeable c hc).node
  · apply htail.move
    · rw [mnext_setMnext hlast hlast, if_pos rfl]
    · intro c hc
      rw [mnext_setMnext hlast (hpos.post_placeable c hc).node,
        if_neg (hpos.post_ne_last c hc)]
    · intro c hc
      exact mlength_setMnext hlast (hpos.post_placeable c hc).node

/-- Give a block of the chain another length. -/
theorem chain_resize
    (hsep : Separated (pre ++ e :: post))
    (hplace : ∀ c ∈ pre ++ e :: post, Placeable c)
    (hchain : Chain h none (pre ++ e :: post)) (len : ℕ) :
    Chain (h.setMlength (blockRef e) (BitVec.ofNat 32 len)) none
      (pre ++ ⟨e.base, len⟩ :: post) := by
  have hpos := position_of_separated hsep hplace
  have he := hplace e (by simp)
  have hnode := he.node
  have hbelow := below_of_separated hsep
  obtain ⟨hpre, hrest⟩ := chain_append.mp hchain
  obtain ⟨hhead, -, htail⟩ := chain_cons.mp hrest
  refine chain_append.mpr ⟨?_, chain_cons.mpr ⟨?_, ?_, ?_⟩⟩
  · apply hpre.congr
    · intro r hr
      exact mnext_setMlength hnode (hpos.pre_followed_node r hr)
    · intro c hc
      have hlt := hbelow.1 c hc
      unfold Extent.top at hlt
      rw [mlength_setMlength hnode (hpos.pre_placeable c hc).node,
        if_neg (blockRef_ne (hpos.pre_placeable c hc) he (by omega))]
  · rw [mnext_setMlength hnode hpos.last_node, hhead]
    rfl
  · exact (mlength_setMlength hnode hnode).trans (if_pos rfl)
  · apply htail.move
    · exact mnext_setMlength hnode hnode
    · intro c hc
      exact mnext_setMlength hnode (hpos.post_placeable c hc).node
    · intro c hc
      have hlt := hbelow.2 c hc
      unfold Extent.top at hlt
      rw [mlength_setMlength hnode (hpos.post_placeable c hc).node,
        if_neg (blockRef_ne (hpos.post_placeable c hc) he (by omega))]

/-- Thread a block between `pre` and `post`, which so far hangs off `ref`. -/
theorem chain_link
    {b : Extent} {ref : BlockRef} (hpos : Position pre post)
    (hb : Placeable b)
    (hbelow : ∀ c ∈ pre, c.base < b.base)
    (habove : ∀ c ∈ post, b.base < c.base)
    (hpre : Threaded h none pre) (hpost : Chain h ref post)
    (h' : Heap)
    (hlink : h'.mnext (lastRef none pre) = blockAddr b)
    (hlen : h'.mlength (blockRef b) = BitVec.ofNat 32 b.len)
    (hnext : h'.mnext (blockRef b) = h.mnext ref)
    (hkeepNext : ∀ r : BlockRef, r.Node → r ≠ lastRef none pre →
      r ≠ blockRef b → h'.mnext r = h.mnext r)
    (hkeepLen : ∀ c, Placeable c → c.base ≠ b.base →
      h'.mlength (blockRef c) = h.mlength (blockRef c)) :
    Chain h' none (pre ++ b :: post) := by
  refine chain_append.mpr ⟨?_, chain_cons.mpr ⟨hlink, hlen, ?_⟩⟩
  · apply hpre.congr
    · intro r hr
      exact hkeepNext r (hpos.pre_followed_node r hr)
        (hpos.followed_ne_last r hr) (hpos.followed_ne hb hbelow r hr)
    · intro c hc
      exact hkeepLen c (hpos.pre_placeable c hc) (hbelow c hc).ne
  · apply hpost.move hnext
    · intro c hc
      exact hkeepNext _ (hpos.post_placeable c hc).node
        (hpos.post_ne_last c hc)
        (blockRef_ne (hpos.post_placeable c hc) hb (habove c hc).ne')
    · intro c hc
      exact hkeepLen c (hpos.post_placeable c hc) (habove c hc).ne'

end Edits

/-! ## getmem and getstk -/

/-- What an allocation leaves when it has carved `b` out of `l`. -/
theorem WellFormed.of_carved
    {h h' : Heap} {l l' : List Extent} {b : Extent} {nbytes : Word}
    (hwf : WellFormed h l) (hcarved : Carved b l l')
    (hgranular : ∀ e ∈ l', e.Granular 8) (hlen : b.len = nbytes.toNat)
    (hchain : Chain h' none l')
    (hcredit : h'.memlist.mlength = h.memlist.mlength - nbytes)
    (hmin : h'.minheap = h.minheap) (hmax : h'.maxheap = h.maxheap) :
    WellFormed h' l' := by
  refine ⟨hchain, hcarved.separated hwf.separated, hgranular, ?_, ?_, ?_⟩
  · intro c hc
    obtain ⟨e, he, hin⟩ := hcarved.mem_inside hc
    have hwithin := hwf.within e he
    rw [hmin, hmax]
    unfold Extent.Within Extent.Inside at *
    omega
  · rw [hmin]
    exact hwf.minheap_pos
  · have htotal := hcarved.total_eq
    have hold := hwf.mlength_eq
    rw [hcredit]
    have hle : nbytes.toNat ≤ h.memlist.mlength.toNat := by omega
    rw [BitVec.toNat_sub_of_le hle]
    omega

theorem debit_chain
    {h : Heap} {ref : BlockRef} {l : List Extent} (nbytes : Word)
    (hl : Chain h ref l) : Chain (h.debit nbytes) ref l :=
  chain_setMlength_none _ hl

@[simp] theorem debit_mlength (h : Heap) (nbytes : Word) :
    (h.debit nbytes).memlist.mlength = h.memlist.mlength - nbytes := rfl

@[simp] theorem debit_bounds (h : Heap) (nbytes : Word) :
    (h.debit nbytes).minheap = h.minheap ∧
      (h.debit nbytes).maxheap = h.maxheap := ⟨rfl, rfl⟩

theorem ref_mlength_setMnext
    (h : Heap) (ref : BlockRef) (value : Word) :
    (h.setMnext ref value).memlist.mlength = h.memlist.mlength := by
  cases ref <;> rfl

theorem ofNat_eq_word_iff {n : ℕ} {x : Word} (hn : n < 2 ^ 32) :
    BitVec.ofNat 32 n = x ↔ n = x.toNat := by
  constructor
  · rintro rfl
    simp only [BitVec.toNat_ofNat]
    omega
  · rintro rfl
    simp

/-- The search of `getmem` passes over the blocks that are too short. -/
theorem getmemLoop_skip
    {h : Heap} {nbytes : Word} {pre : List Extent} {ref : BlockRef} (fuel : ℕ)
    (hpre : Threaded h ref pre) (hplace : ∀ e ∈ pre, Placeable e)
    (hshort : ∀ e ∈ pre, e.len < nbytes.toNat) :
    getmemLoop nbytes (fuel + pre.length) ref (h.mnext ref) h =
      getmemLoop nbytes fuel (lastRef ref pre)
        (h.mnext (lastRef ref pre)) h := by
  induction pre generalizing ref with
  | nil => rfl
  | cons e pre ih =>
      obtain ⟨hhead, hsize, htail⟩ := hpre
      have he := hplace e (by simp)
      have hlt := hshort e (by simp)
      have hbound := nbytes.isLt
      have hlen : h.mlength (some (blockAddr e)) = BitVec.ofNat 32 e.len :=
        hsize
      have hne : ¬ BitVec.ofNat 32 e.len = nbytes := by
        rw [ofNat_eq_word_iff (by omega)]
        omega
      have hnlt : ¬ nbytes < BitVec.ofNat 32 e.len := by
        rw [BitVec.lt_def, BitVec.toNat_ofNat]
        omega
      rw [List.length_cons, ← Nat.add_assoc, getmemLoop, hhead,
        if_neg he.blockAddr_ne_null, hlen, if_neg hne, if_neg hnlt]
      exact ih htail (fun c hc => hplace c (by simp [hc]))
        (fun c hc => hshort c (by simp [hc]))

theorem blockAddr_add (e : Extent) (nbytes : Word) (len : ℕ) :
    blockAddr e + nbytes = blockAddr ⟨e.base + nbytes.toNat, len⟩ := by
  apply BitVec.eq_of_toNat_eq
  simp [blockAddr]

/-- The block that `getmem` leaves behind when it splits `e`. -/
theorem getmem_split_chain
    {h : Heap} {pre post : List Extent} {e : Extent} {nbytes : Word}
    (hsep : Separated (pre ++ e :: post))
    (hplace : ∀ c ∈ pre ++ e :: post, Placeable c)
    (hchain : Chain h none (pre ++ e :: post))
    (hdvd : 8 ∣ nbytes.toNat) (hpos : 0 < nbytes.toNat)
    (hlt : nbytes.toNat < e.len) :
    let leftover := blockAddr e + nbytes
    let h₁ := h.setMnext (lastRef none pre) leftover
    let h₂ := h₁.setMnext (some leftover) (h₁.mnext (blockRef e))
    let h₃ := h₂.setMlength (some leftover) (h₂.mlength (blockRef e) - nbytes)
    Chain h₃ none
      (pre ++ ⟨e.base + nbytes.toNat, e.len - nbytes.toNat⟩ :: post) := by
  have he := hplace e (by simp)
  have hposition := position_of_separated hsep hplace
  have hbelow := below_of_separated hsep
  have hetop : e.top = e.base + e.len := rfl
  have hadd := blockAddr_add e nbytes (e.len - nbytes.toNat)
  obtain ⟨hpre, hrest⟩ := chain_append.mp hchain
  obtain ⟨-, hsize, htail⟩ := chain_cons.mp hrest
  intro leftover h₁ h₂ h₃
  have hb : Placeable ⟨e.base + nbytes.toNat, e.len - nbytes.toNat⟩ := by
    have htop := he.top_le
    have hbase := he.base_pos
    have hgran := he.granular
    refine ⟨⟨hgran.base_dvd.add hdvd, Nat.dvd_sub hgran.len_dvd hdvd, ?_⟩,
      ?_, ?_⟩ <;> simp only [Extent.top_mk] <;> omega
  have href : some leftover =
      blockRef ⟨e.base + nbytes.toNat, e.len - nbytes.toNat⟩ := by
    show some (blockAddr e + nbytes) = some _
    rw [hadd]
  have hlastne := lastRef_ne_of_below hposition hb (fun c hc => by
    have hlt' := hbelow.1 c hc
    unfold Extent.top at hlt'
    simp only
    omega)
  have hlastne' := lastRef_ne_of_below hposition he (fun c hc => by
    have hlt' := hbelow.1 c hc
    unfold Extent.top at hlt'
    omega)
  have hbe : blockRef e ≠
      blockRef ⟨e.base + nbytes.toNat, e.len - nbytes.toNat⟩ :=
    blockRef_ne he hb (by simp only; omega)
  have hlast := hposition.last_node
  have hnode := hb.node
  have hnext : ∀ r : BlockRef, r.Node →
      h₃.mnext r = if r = some leftover then h.mnext (blockRef e)
        else if r = lastRef none pre then leftover else h.mnext r := by
    intro r hr
    simp only [h₃, h₂, h₁, href]
    rw [mnext_setMlength hnode hr, mnext_setMnext hnode hr,
      mnext_setMnext hlast hr, mnext_setMnext hlast he.node,
      if_neg hlastne'.symm]
  have hlen : ∀ r : BlockRef, r.Node →
      h₃.mlength r = if r = some leftover
        then h.mlength (blockRef e) - nbytes else h.mlength r := by
    intro r hr
    simp only [h₃, h₂, h₁, href]
    rw [mlength_setMlength hnode hr, mlength_setMnext hnode hr,
      mlength_setMnext hlast hr, mlength_setMnext hnode he.node,
      mlength_setMnext hlast he.node]
  refine chain_link hposition hb ?_ ?_ hpre htail h₃ ?_ ?_ ?_ ?_ ?_
  · intro c hc
    have hlt' := hbelow.1 c hc
    unfold Extent.top at hlt'
    simp only
    omega
  · intro c hc
    have hlt' := hbelow.2 c hc
    simp only
    omega
  · rw [hnext _ hlast, href, if_neg hlastne, if_pos rfl]
    exact hadd
  · rw [← href, hlen _ (href ▸ hnode), if_pos rfl, hsize]
    apply BitVec.eq_of_toNat_eq
    have htop := he.top_le
    have hbase := he.base_pos
    rw [BitVec.toNat_sub_of_le] <;>
      simp only [BitVec.le_def, BitVec.toNat_ofNat] <;> omega
  · rw [← href, hnext _ (href ▸ hnode), if_pos rfl]
  · intro r hr hne hneb
    rw [hnext r hr, href, if_neg hneb, if_neg hne]
  · intro c hc hne
    rw [hlen _ hc.node, href, if_neg (blockRef_ne hc hb hne)]

theorem walkBound_split {n : ℕ} (hn : n < walkBound) :
    ∃ fuel, walkBound = fuel + 1 + n := ⟨walkBound - n - 1, by omega⟩

/-- On a well-formed heap, `getmem` carves the low end of the first block that
fits, and fails without a trace when no block does. -/
theorem getmem_spec
    {h : Heap} {l : List Extent} {nbytes : Word} (hwf : WellFormed h l)
    (hpos : 0 < nbytes.toNat) (hbound : nbytes.toNat ≤ 2 ^ 32 - 8) :
    match carveFirst (roundmb nbytes).toNat l with
    | none => getmem nbytes h = some (h, SYSERR)
    | some (b, l') => ∃ h', getmem nbytes h = some (h', blockAddr b) ∧
        WellFormed h' l' ∧ h'.minheap = h.minheap ∧
          h'.maxheap = h.maxheap := by
  have hne : nbytes ≠ 0 := by
    rintro rfl
    simp at hpos
  obtain ⟨hdvd, hround, -⟩ := roundmb_request hpos hbound
  generalize hn : roundmb nbytes = n at hdvd hround ⊢
  have hunfold : getmem nbytes h =
      getmemLoop n walkBound none (h.mnext none) h := by
    rw [getmem, if_neg hne, hn]
  rw [hunfold]
  cases hcarve : carveFirst n.toNat l with
  | none =>
      have hshort := carveFirst_eq_none_iff.mp hcarve
      obtain ⟨fuel, hfuel⟩ := walkBound_split hwf.length_lt
      rw [hfuel, getmemLoop_skip (fuel + 1) hwf.chain.1
        (fun e he => hwf.placeable he) hshort, getmemLoop, hwf.chain.2,
        if_pos rfl]
  | some r =>
      have hcarved := carveFirst_carved hcarve
      have hgran := carveFirst_granular hwf.granular hdvd hround hcarve
      obtain ⟨pre, e, post, rfl, hpre, hfit, rfl⟩ := carveFirst_split hcarve
      have hplace : ∀ c ∈ pre ++ e :: post, Placeable c := fun c hc =>
        hwf.placeable hc
      have he := hplace e (by simp)
      have hechain := chain_append.mp hwf.chain
      obtain ⟨hhead, hsize, -⟩ := chain_cons.mp hechain.2
      have hlen : h.mlength (some (blockAddr e)) = BitVec.ofNat 32 e.len :=
        hsize
      have helt : e.len < 2 ^ 32 := by
        have htop := he.top_le
        have hbase := he.base_pos
        unfold Extent.top at htop
        omega
      have hprelen : pre.length < walkBound := by
        have hlt := hwf.length_lt
        simp only [List.length_append] at hlt
        omega
      obtain ⟨fuel, hfuel⟩ := walkBound_split hprelen
      rw [hfuel, getmemLoop_skip (fuel + 1) hechain.1
        (fun c hc => hplace c (by simp [hc])) hpre, getmemLoop, hhead,
        if_neg he.blockAddr_ne_null, hlen]
      by_cases hexact : e.len = n.toNat
      · rw [if_pos ((ofNat_eq_word_iff helt).mpr hexact)]
        refine ⟨_, rfl, hwf.of_carved hcarved hgran.2 rfl ?_ ?_ ?_ ?_, ?_, ?_⟩
        · have hlow : takeLow n.toNat e = [] := if_pos hexact
          rw [hlow, List.append_nil]
          exact debit_chain n (chain_unlink hwf.separated hplace hwf.chain)
        · rw [debit_mlength, ref_mlength_setMnext]
        all_goals simp
      · have hlt : n < BitVec.ofNat 32 e.len := by
          rw [BitVec.lt_def, BitVec.toNat_ofNat]
          omega
        rw [if_neg (fun heq => hexact ((ofNat_eq_word_iff helt).mp heq)),
          if_pos hlt]
        refine ⟨_, rfl, hwf.of_carved hcarved hgran.2 rfl ?_ ?_ ?_ ?_, ?_, ?_⟩
        · have hlow : takeLow n.toNat e =
              [⟨e.base + n.toNat, e.len - n.toNat⟩] := if_neg hexact
          rw [hlow, List.append_assoc]
          exact debit_chain n (getmem_split_chain hwf.separated hplace
            hwf.chain hdvd hround (by omega))
        · rw [debit_mlength]
          congr 1
          exact (ref_mlength_setMnext _ _ _).trans (ref_mlength_setMnext _ _ _)
        all_goals simp

/-! The scan of `getstk` -/

theorem getstkLoop_skip
    {h : Heap} {pre : List Extent} {ref : BlockRef} (nbytes : Word) (fuel : ℕ)
    (fits : Option (BlockRef × Word))
    (hpre : Threaded h ref pre) (hplace : ∀ e ∈ pre, Placeable e)
    (hshort : ∀ e ∈ pre, e.len < nbytes.toNat) :
    getstkLoop nbytes h (fuel + pre.length) ref (h.mnext ref) fits =
      getstkLoop nbytes h fuel (lastRef ref pre)
        (h.mnext (lastRef ref pre)) fits := by
  induction pre generalizing ref with
  | nil => rfl
  | cons e pre ih =>
      obtain ⟨hhead, hsize, htail⟩ := hpre
      have he := hplace e (by simp)
      have hlt := hshort e (by simp)
      have hbound := nbytes.isLt
      have hlen : h.mlength (some (blockAddr e)) = BitVec.ofNat 32 e.len :=
        hsize
      have hnle : ¬ nbytes ≤ BitVec.ofNat 32 e.len := by
        rw [BitVec.le_def, BitVec.toNat_ofNat]
        omega
      rw [List.length_cons, ← Nat.add_assoc, getstkLoop, hhead,
        if_neg he.blockAddr_ne_null, hlen, if_neg hnle]
      exact ih htail (fun c hc => hplace c (by simp [hc]))
        (fun c hc => hshort c (by simp [hc]))

/-- Whatever the scan has recorded before, it only matters which blocks it has
passed. -/
theorem getstkLoop_append
    {h : Heap} {pre : List Extent} {ref : BlockRef} (nbytes : Word) (fuel : ℕ)
    (fits : Option (BlockRef × Word))
    (hpre : Threaded h ref pre) (hplace : ∀ e ∈ pre, Placeable e) :
    ∃ fits', getstkLoop nbytes h (fuel + pre.length) ref (h.mnext ref) fits =
      getstkLoop nbytes h fuel (lastRef ref pre)
        (h.mnext (lastRef ref pre)) fits' := by
  induction pre generalizing ref fits with
  | nil => exact ⟨fits, rfl⟩
  | cons e pre ih =>
      obtain ⟨hhead, hsize, htail⟩ := hpre
      have he := hplace e (by simp)
      rw [List.length_cons, ← Nat.add_assoc, getstkLoop, hhead,
        if_neg he.blockAddr_ne_null]
      exact ih _ htail (fun c hc => hplace c (by simp [hc]))

/-- On a well-formed heap, `getstk` carves the high end of the last block that
fits, and returns the address of the highest word of what it took. -/
theorem getstk_spec
    {h : Heap} {l : List Extent} {nbytes : Word} (hwf : WellFormed h l)
    (hpos : 0 < nbytes.toNat) (hbound : nbytes.toNat ≤ 2 ^ 32 - 8) :
    match carveLast (roundmb nbytes).toNat l with
    | none => getstk nbytes h = some (h, SYSERR)
    | some (b, l') => ∃ h',
        getstk nbytes h = some (h', blockAddr b + roundmb nbytes - 4) ∧
        WellFormed h' l' ∧ h'.minheap = h.minheap ∧
          h'.maxheap = h.maxheap := by
  have hne : nbytes ≠ 0 := by
    rintro rfl
    simp at hpos
  obtain ⟨hdvd, hround, -⟩ := roundmb_request hpos hbound
  rw [getstk, if_neg hne]
  generalize roundmb nbytes = n at hdvd hround ⊢
  simp only
  cases hcarve : carveLast n.toNat l with
  | none =>
      have hshort := carveLast_eq_none_iff.mp hcarve
      obtain ⟨fuel, hfuel⟩ := walkBound_split hwf.length_lt
      have hscan : getstkLoop n h walkBound none (h.mnext none) none =
          some none := by
        rw [hfuel, getstkLoop_skip n (fuel + 1) none hwf.chain.1
          (fun e he => hwf.placeable he) hshort, getstkLoop, hwf.chain.2,
          if_pos rfl]
      simp only [hscan]
  | some r =>
      have hcarved := carveLast_carved hcarve
      have hgran := carveLast_granular hwf.granular hdvd hround hcarve
      obtain ⟨pre, e, post, rfl, hpost, hfit, rfl⟩ := carveLast_split hcarve
      have hplace : ∀ c ∈ pre ++ e :: post, Placeable c := fun c hc =>
        hwf.placeable hc
      have he := hplace e (by simp)
      have hechain := chain_append.mp hwf.chain
      obtain ⟨hhead, hsize, htail⟩ := chain_cons.mp hechain.2
      have hlen : h.mlength (some (blockAddr e)) = BitVec.ofNat 32 e.len :=
        hsize
      have helt : e.len < 2 ^ 32 := by
        have htop := he.top_le
        have hbase := he.base_pos
        unfold Extent.top at htop
        omega
      have hscan : getstkLoop n h walkBound none (h.mnext none) none =
          some (some (lastRef none pre, blockAddr e)) := by
        have hlt := hwf.length_lt
        simp only [List.length_append, List.length_cons] at hlt
        obtain ⟨fuel, hfuel⟩ : ∃ fuel,
            walkBound = (fuel + 1 + post.length + 1) + pre.length :=
          ⟨walkBound - 2 - post.length - pre.length, by omega⟩
        obtain ⟨fits, hfits⟩ := getstkLoop_append n
          (fuel + 1 + post.length + 1) none hechain.1
          (fun c hc => hplace c (by simp [hc]))
        have hle : n ≤ BitVec.ofNat 32 e.len := by
          rw [BitVec.le_def, BitVec.toNat_ofNat]
          omega
        rw [hfuel, hfits, getstkLoop, hhead, if_neg he.blockAddr_ne_null,
          hlen, if_pos hle]
        have hskip := getstkLoop_skip n (fuel + 1)
          (some (lastRef none pre, blockAddr e)) htail.1
          (fun c hc => hplace c (by simp [hc])) hpost
        have hnull := htail.2
        rw [show (some (blockAddr e) : BlockRef) = blockRef e from rfl, hskip,
          getstkLoop, hnull, if_pos rfl]
      simp only [hscan, hlen]
      by_cases hexact : e.len = n.toNat
      · have heq : n = BitVec.ofNat 32 e.len :=
          ((ofNat_eq_word_iff helt).mpr hexact).symm
        rw [if_pos heq]
        refine ⟨(h.setMnext (lastRef none pre) (h.mnext (blockRef e))).debit n,
          ?_, hwf.of_carved hcarved hgran.2 rfl ?_ ?_ ?_ ?_, ?_, ?_⟩
        · simp [blockAddr, blockRef, hexact]
        · have hhigh : takeHigh n.toNat e = [] := if_pos hexact
          rw [hhigh, List.append_nil]
          exact debit_chain n (chain_unlink hwf.separated hplace hwf.chain)
        · rw [debit_mlength, ref_mlength_setMnext]
        all_goals simp
      · have hne' : ¬ n = BitVec.ofNat 32 e.len := fun heq =>
          hexact ((ofNat_eq_word_iff helt).mp heq.symm)
        have hcut : BitVec.ofNat 32 e.len - n =
            BitVec.ofNat 32 (e.len - n.toNat) := by
          apply BitVec.eq_of_toNat_eq
          rw [BitVec.toNat_sub_of_le] <;>
            simp only [BitVec.le_def, BitVec.toNat_ofNat] <;> omega
        rw [if_neg hne', hcut]
        refine ⟨(h.setMlength (blockRef e)
            (BitVec.ofNat 32 (e.len - n.toNat))).debit n,
          ?_, hwf.of_carved hcarved hgran.2 rfl ?_ ?_ ?_ ?_, ?_, ?_⟩
        · have hread : (h.setMlength (some (blockAddr e))
              (BitVec.ofNat 32 (e.len - n.toNat))).mlength
                (some (blockAddr e)) = BitVec.ofNat 32 (e.len - n.toNat) :=
            (mlength_setMlength he.node he.node).trans (if_pos rfl)
          rw [hread]
          simp [blockAddr, blockRef, BitVec.ofNat_add]
        · have hhigh : takeHigh n.toNat e =
              [⟨e.base, e.len - n.toNat⟩] := if_neg hexact
          rw [hhigh, List.append_assoc]
          exact debit_chain n
            (chain_resize hwf.separated hplace hwf.chain _)
        · rfl
        all_goals simp

/-! ## freemem -/

theorem freememLoop_skip
    {h : Heap} {block : Word} {pre : List Extent} {ref : BlockRef} (fuel : ℕ)
    (hpre : Threaded h ref pre) (hplace : ∀ e ∈ pre, Placeable e)
    (hbelow : ∀ e ∈ pre, e.base < block.toNat) :
    freememLoop block h (fuel + pre.length) ref (h.mnext ref) =
      freememLoop block h fuel (lastRef ref pre)
        (h.mnext (lastRef ref pre)) := by
  induction pre generalizing ref with
  | nil => rfl
  | cons e pre ih =>
      obtain ⟨hhead, -, htail⟩ := hpre
      have he := hplace e (by simp)
      have hlt : blockAddr e < block := by
        rw [BitVec.lt_def, he.blockAddr_toNat]
        exact hbelow e (by simp)
      rw [List.length_cons, ← Nat.add_assoc, freememLoop, hhead,
        if_pos ⟨he.blockAddr_ne_null, hlt⟩]
      exact ih htail (fun c hc => hplace c (by simp [hc]))
        (fun c hc => hbelow c (by simp [hc]))

/-- Coalescing with the next block joins the two extents when they touch. -/
theorem coalesceNext_chain
    {h : Heap} {pre post : List Extent} {b : Extent}
    (hpos : Position pre post) (hb : Placeable b) (htop : b.top < 2 ^ 32)
    (hbelow : ∀ c ∈ pre, c.base < b.base)
    (habove : ∀ c ∈ post, b.top ≤ c.base)
    (hchain : Chain h none (pre ++ b :: post)) :
    Chain (coalesceNext (blockRef b) (h.mnext (blockRef b)) h) none
      (pre ++ joinRight b post) := by
  obtain ⟨hpre, hrest⟩ := chain_append.mp hchain
  obtain ⟨hhead, hsize, htail⟩ := chain_cons.mp hrest
  have hend : h.addrOf (blockRef b) + h.mlength (blockRef b) =
      BitVec.ofNat 32 b.top := by
    rw [hsize]
    exact (BitVec.ofNat_add b.base b.len).symm
  have hbpos := hb.base_pos
  have hbtop : b.top = b.base + b.len := rfl
  unfold coalesceNext
  rw [hend]
  cases post with
  | nil =>
      have hnull := htail.2
      have hne : ¬ BitVec.ofNat 32 b.top = h.mnext (blockRef b) := by
        rw [show h.mnext (blockRef b) = NULL from hnull, ofNat_eq_word_iff htop,
          show NULL.toNat = 0 from rfl]
        omega
      rw [if_neg hne]
      exact hchain
  | cons f post =>
      have hf := hpos.placeable f (by simp)
      have hbf : b.base < f.base := by
        have hpos' := hb.granular.len_pos
        have hle := habove f (by simp)
        omega
      have hfpost := (below_of_separated hpos.separated).2
      obtain ⟨hnext, hfsize, hftail⟩ := chain_cons.mp htail
      have htouch : BitVec.ofNat 32 b.top = blockAddr f ↔ b.top = f.base := by
        rw [ofNat_eq_word_iff htop, hf.blockAddr_toNat]
      rw [hnext]
      by_cases hadj : b.top = f.base
      · rw [if_pos (htouch.mpr hadj)]
        simp only [joinRight]
        rw [if_pos hadj]
        have hnode := hb.node
        have hjoined : Placeable ⟨b.base, b.len + f.len⟩ := by
          have hftop := hf.top_le
          have hflen := hf.granular.len_pos
          refine ⟨⟨hb.granular.base_dvd,
            hb.granular.len_dvd.add hf.granular.len_dvd, ?_⟩, hbpos, ?_⟩
          · simp only
            omega
          · unfold Extent.top at *
            simp only
            omega
        have hpos' := position_of_separated hpos.separated hpos.placeable
        have hfb : blockRef f ≠ blockRef b := blockRef_ne hf hb hbf.ne'
        simp only [show (some (blockAddr f) : BlockRef) = blockRef f from rfl]
        generalize hedit : h.setMlength (blockRef b)
          (h.mlength (blockRef b) + h.mlength (blockRef f)) = h₁
        have hmnext : ∀ r : BlockRef, r.Node →
            (h₁.setMnext (blockRef b) (h₁.mnext (blockRef f))).mnext r =
              if r = blockRef b then h.mnext (blockRef f) else h.mnext r := by
          intro r hr
          rw [mnext_setMnext hnode hr, ← hedit, mnext_setMlength hnode hr,
            mnext_setMlength hnode hf.node]
        have hmlength : ∀ r : BlockRef, r.Node →
            (h₁.setMnext (blockRef b) (h₁.mnext (blockRef f))).mlength r =
              if r = blockRef b then
                h.mlength (blockRef b) + h.mlength (blockRef f)
              else h.mlength r := by
          intro r hr
          rw [mlength_setMnext hnode hr, ← hedit, mlength_setMlength hnode hr]
        refine chain_link hpos' hjoined hbelow ?_ hpre hftail _ ?_ ?_ ?_ ?_ ?_
        · intro c hc
          have hlt := hfpost c hc
          unfold Extent.top at hlt
          simp only
          omega
        · rw [hmnext _ hpos'.last_node,
            if_neg (lastRef_ne_of_below hpos' hb hbelow), hhead]
          rfl
        · refine (hmlength _ hjoined.node).trans ((if_pos rfl).trans ?_)
          rw [hsize, hfsize]
          exact (BitVec.ofNat_add b.len f.len).symm
        · exact (hmnext _ hjoined.node).trans (if_pos rfl)
        · intro r hr _ hne
          rw [hmnext r hr, if_neg (show r ≠ blockRef b from hne)]
        · intro c hc hne
          rw [hmlength _ hc.node, if_neg (blockRef_ne hc hb hne)]
      · rw [if_neg fun heq => hadj (htouch.mp heq)]
        simp only [joinRight]
        rw [if_neg hadj]
        exact hchain

theorem chain_credit
    {h : Heap} {ref : BlockRef} {l : List Extent} (nbytes : Word)
    (hl : Chain h ref l) : Chain (h.credit nbytes) ref l :=
  chain_setMlength_none _ hl

theorem coalesceNext_frame (block : BlockRef) (next : Word) (h : Heap) :
    (coalesceNext block next h).minheap = h.minheap ∧
      (coalesceNext block next h).maxheap = h.maxheap := by
  unfold coalesceNext
  split_ifs <;> simp

theorem coalesceNext_mlength (b : Extent) (next : Word) (h : Heap) :
    (coalesceNext (blockRef b) next h).memlist.mlength =
      h.memlist.mlength := by
  unfold coalesceNext
  split_ifs <;> rfl

/-- The extents below a free range and those above it. -/
theorem split_around
    {b : Extent} {l : List Extent} (hsep : Separated l)
    (hapart : ∀ e ∈ l, b.Apart e) :
    ∃ pre post, l = pre ++ post ∧ (∀ e ∈ pre, e.top ≤ b.base) ∧
      ∀ e ∈ post, b.top ≤ e.base := by
  induction l with
  | nil => exact ⟨[], [], rfl, by simp, by simp⟩
  | cons e l ih =>
      have hsep' := hsep
      unfold Separated at hsep'
      rw [List.pairwise_cons] at hsep'
      have he := hapart e (by simp)
      rcases he with habove | hbelow
      · refine ⟨[], e :: l, rfl, by simp, ?_⟩
        intro c hc
        rcases List.mem_cons.mp hc with rfl | hc
        · exact habove
        · have hlt := hsep'.1 c hc
          unfold Extent.top at *
          omega
      · obtain ⟨pre, post, rfl, hpre, hpost⟩ := ih hsep'.2
          (fun c hc => hapart c (by simp [hc]))
        exact ⟨e :: pre, post, rfl,
          List.forall_mem_cons.mpr ⟨hbelow, hpre⟩, hpost⟩

theorem WellFormed.of_released
    {h h' : Heap} {l : List Extent} {b : Extent} {nbytes : Word}
    (hwf : WellFormed h l) (hb : b.Granular 8)
    (hin : b.Within h.minheap.toNat (h.maxheap.toNat + 1))
    (hapart : ∀ e ∈ l, b.Apart e) (hlen : nbytes.toNat = b.len)
    (hchain : Chain h' none (release b l))
    (hcredit : h'.memlist.mlength = h.memlist.mlength + nbytes)
    (hmin : h'.minheap = h.minheap) (hmax : h'.maxheap = h.maxheap) :
    WellFormed h' (release b l) := by
  have hsep := (release_separated hwf.separated hb.len_pos
    (fun e he => (hwf.granular e he).len_pos) hapart).1
  have hwithin := release_within hin hwf.within
  refine ⟨hchain, hsep, release_granular hb hwf.granular, ?_, ?_, ?_⟩
  · rw [hmin, hmax]
    exact hwithin
  · rw [hmin]
    exact hwf.minheap_pos
  · have htotal := hsep.total_le hwithin
    have hold := hwf.mlength_eq
    have hpos := hwf.minheap_pos
    have hbound := h.maxheap.isLt
    rw [total_release] at htotal ⊢
    rw [hcredit, BitVec.toNat_add, hold, hlen]
    omega

/-- Threading a released range that touches no free block below it. -/
theorem freemem_gap_chain
    {h : Heap} {pre post : List Extent} {b : Extent} {n : Word}
    (hpos : Position pre post) (hb : Placeable b) (htop : b.top < 2 ^ 32)
    (hbelow : ∀ c ∈ pre, c.base < b.base)
    (habove : ∀ c ∈ post, b.top ≤ c.base)
    (hlen : n = BitVec.ofNat 32 b.len)
    (hchain : Chain h none (pre ++ post)) :
    let next := h.mnext (lastRef none pre)
    let h₂ := (h.credit n).setMnext (blockRef b) next
    let h₃ := h₂.setMlength (blockRef b) n
    let h₄ := h₃.setMnext (lastRef none pre) (blockAddr b)
    Chain (coalesceNext (blockRef b) next h₄) none
      (pre ++ joinRight b post) := by
  intro next h₂ h₃ h₄
  have hnode := hb.node
  have hlast := hpos.last_node
  have hlastne := lastRef_ne_of_below hpos hb hbelow
  have hblen := hb.granular.len_pos
  have hpostbase : ∀ c ∈ post, b.base < c.base := by
    intro c hc
    have hle := habove c hc
    unfold Extent.top at hle
    omega
  obtain ⟨hpre, hpost⟩ := chain_append.mp hchain
  have hcredit : ∀ r : BlockRef, (h.credit n).mnext r = h.mnext r := by
    intro r
    cases r <;> rfl
  have hnext : ∀ r : BlockRef, r.Node →
      h₄.mnext r = if r = lastRef none pre then blockAddr b
        else if r = blockRef b then next else h.mnext r := by
    intro r hr
    simp only [h₄, h₃, h₂]
    rw [mnext_setMnext hlast hr, mnext_setMlength hnode hr,
      mnext_setMnext hnode hr, hcredit]
  have hsize : ∀ c, Placeable c →
      h₄.mlength (blockRef c) = if blockRef c = blockRef b then n
        else h.mlength (blockRef c) := by
    intro c hc
    simp only [h₄, h₃, h₂]
    rw [mlength_setMnext hlast hc.node, mlength_setMlength hnode hc.node,
      mlength_setMnext hnode hc.node]
    rfl
  have hread : h₄.mnext (blockRef b) = next := by
    rw [hnext _ hnode, if_neg hlastne.symm, if_pos rfl]
  have hlinked : Chain h₄ none (pre ++ b :: post) := by
    refine chain_link hpos hb hbelow hpostbase hpre hpost h₄ ?_ ?_ hread ?_ ?_
    · rw [hnext _ hlast, if_pos rfl]
    · rw [hsize b hb, if_pos rfl, hlen]
    · intro r hr hne hneb
      rw [hnext r hr, if_neg hne, if_neg hneb]
    · intro c hc hne
      rw [hsize c hc, if_neg (blockRef_ne hc hb hne)]
  have hjoin := coalesceNext_chain hpos hb htop hbelow habove hlinked
  rwa [hread] at hjoin

/-- Growing the free block that ends where the released range begins. -/
theorem freemem_touch_chain
    {h : Heap} {pre post : List Extent} {e b : Extent} {n : Word}
    (hsep : Separated (pre ++ e :: post))
    (hplace : ∀ c ∈ pre ++ e :: post, Placeable c)
    (hb : Placeable b) (htop : b.top < 2 ^ 32) (htouch : e.top = b.base)
    (habove : ∀ c ∈ post, b.top ≤ c.base)
    (hlen : n = BitVec.ofNat 32 b.len)
    (hchain : Chain h none (pre ++ e :: post)) :
    let h₁ := h.credit n
    let h₂ := h₁.setMlength (blockRef e) (h₁.mlength (blockRef e) + n)
    Chain (coalesceNext (blockRef e) (h.mnext (blockRef e)) h₂) none
      (pre ++ joinRight ⟨e.base, e.len + b.len⟩ post) := by
  intro h₁ h₂
  have he := hplace e (by simp)
  have hpos := position_of_separated hsep hplace
  have hbelow := (below_of_separated hsep).1
  have hetop : e.top = e.base + e.len := rfl
  have hbtop : b.top = b.base + b.len := rfl
  have hgrown : Placeable ⟨e.base, e.len + b.len⟩ := by
    refine ⟨⟨he.granular.base_dvd,
      he.granular.len_dvd.add hb.granular.len_dvd, ?_⟩, he.base_pos, ?_⟩
    · have hepos := he.granular.len_pos
      simp only
      omega
    · simp only [Extent.top_mk]
      omega
  have hsize := (chain_cons.mp (chain_append.mp hchain).2).2.1
  have hwrite : h₁.mlength (blockRef e) + n =
      BitVec.ofNat 32 (e.len + b.len) := by
    rw [show h₁.mlength (blockRef e) = BitVec.ofNat 32 e.len from hsize, hlen]
    exact (BitVec.ofNat_add e.len b.len).symm
  have hresized : Chain h₂ none (pre ++ ⟨e.base, e.len + b.len⟩ :: post) := by
    simp only [h₂]
    rw [hwrite]
    exact chain_resize hsep hplace (chain_credit n hchain) _
  have hread : h₂.mnext (blockRef e) = h.mnext (blockRef e) :=
    mnext_setMlength he.node he.node
  have hjoin := coalesceNext_chain hpos hgrown (by simp only [Extent.top_mk]; omega)
    (fun c hc => by
      have hlt := hbelow c hc
      unfold Extent.top at hlt
      simp only
      omega)
    (fun c hc => by
      have hle := habove c hc
      simp only [Extent.top_mk]
      omega) hresized
  rw [← hread]
  exact hjoin

theorem coalesceNext_keeps
    {h : Heap} {l : List Extent} {b e : Extent} {next nbytes : Word}
    {h₄ : Heap} (hwf : WellFormed h l) (hb : b.Granular 8)
    (hin : b.Within h.minheap.toNat (h.maxheap.toNat + 1))
    (hapart : ∀ c ∈ l, b.Apart c) (hlen : nbytes.toNat = b.len)
    (hchain : Chain (coalesceNext (blockRef e) next h₄) none (release b l))
    (hcredit : h₄.memlist.mlength = h.memlist.mlength + nbytes)
    (hmin : h₄.minheap = h.minheap) (hmax : h₄.maxheap = h.maxheap) :
    WellFormed (coalesceNext (blockRef e) next h₄) (release b l) ∧
      (coalesceNext (blockRef e) next h₄).minheap = h.minheap ∧
        (coalesceNext (blockRef e) next h₄).maxheap = h.maxheap := by
  have hframe := coalesceNext_frame (blockRef e) next h₄
  have hmin' := hframe.1.trans hmin
  have hmax' := hframe.2.trans hmax
  refine ⟨hwf.of_released hb hin hapart hlen hchain ?_ hmin' hmax', hmin',
    hmax'⟩
  rw [coalesceNext_mlength, hcredit]

/-- The walk stops between the blocks below the address and the others. -/
theorem freememLoop_split
    {h : Heap} {blkaddr : Word} {pre post : List Extent} (hwf : WellFormed h (pre ++ post))
    (hpre : ∀ e ∈ pre, e.base < blkaddr.toNat)
    (hpost : ∀ e ∈ post, blkaddr.toNat ≤ e.base) :
    freememLoop blkaddr h walkBound none (h.mnext none) =
      some (lastRef none pre, h.mnext (lastRef none pre)) := by
  obtain ⟨hbefore, hafter⟩ := chain_append.mp hwf.chain
  have hlt := hwf.length_lt
  rw [List.length_append] at hlt
  obtain ⟨fuel, hfuel⟩ : ∃ fuel, walkBound = fuel + 1 + pre.length :=
    walkBound_split (by omega)
  rw [hfuel, freememLoop_skip (fuel + 1) hbefore
    (fun c hc => hwf.placeable (List.mem_append_left _ hc)) hpre, freememLoop, if_neg]
  rintro ⟨hnonnull, hbelow⟩
  cases post with
  | nil => exact hnonnull hafter.2
  | cons f post =>
      have hplace := hwf.placeable (List.mem_append_right pre List.mem_cons_self)
      have hge := hpost f List.mem_cons_self
      rw [(chain_cons.mp hafter).1, BitVec.lt_def, hplace.blockAddr_toNat] at hbelow
      omega

/-- On a well-formed heap, `freemem` puts back any aligned range of the heap
that is not free and does not end at the end of the address space. -/
theorem freemem_spec
    {h : Heap} {l : List Extent} {b : Extent} {blkaddr nbytes : Word}
    (hwf : WellFormed h l) (hb : b.Granular 8)
    (hin : b.Within h.minheap.toNat (h.maxheap.toNat + 1))
    (htop : b.top < 2 ^ 32)
    (hapart : ∀ e ∈ l, b.Apart e) (hbase : blkaddr.toNat = b.base)
    (hne : nbytes ≠ 0) (hlen : (roundmb nbytes).toNat = b.len) :
    ∃ h', freemem blkaddr nbytes h = some (h', OK) ∧
      WellFormed h' (release b l) ∧ h'.minheap = h.minheap ∧
        h'.maxheap = h.maxheap := by
  have hblen := hb.len_pos
  have hbtop : b.top = b.base + b.len := rfl
  have hminpos := hwf.minheap_pos
  have hin' := hin
  unfold Extent.Within at hin'
  have hbplace : Placeable b := ⟨hb, by omega, by omega⟩
  have haddr : blkaddr = blockAddr b := by
    apply BitVec.eq_of_toNat_eq
    rw [hbplace.blockAddr_toNat, hbase]
  have hguard : ¬ (nbytes = 0 ∨ blkaddr < h.minheap ∨
      h.maxheap < blkaddr) := by
    rw [BitVec.lt_def, BitVec.lt_def]
    rintro (hz | hlow | hhigh)
    · exact hne hz
    · omega
    · omega
  obtain ⟨pre, post, rfl, hbelow, habove⟩ :=
    split_around hwf.separated hapart
  have hplace : ∀ c ∈ pre ++ post, Placeable c := fun c hc =>
    hwf.placeable hc
  have hpos : Position pre post := ⟨hwf.separated, hplace⟩
  have hchain := hwf.chain
  obtain ⟨hpre, hpost⟩ := chain_append.mp hchain
  have hprebase : ∀ c ∈ pre, c.base < b.base := by
    intro c hc
    have hle := hbelow c hc
    have hcpos := (hpos.pre_placeable c hc).granular.len_pos
    unfold Extent.top at hle
    omega
  have hpostbase : ∀ c ∈ post, b.base < c.base := by
    intro c hc
    have hle := habove c hc
    omega
  generalize hn : roundmb nbytes = n at hlen
  have hnword : n = BitVec.ofNat 32 b.len := by
    rw [← hlen]
    simp
  have hwalk : freememLoop blkaddr h walkBound none (h.mnext none) =
      some (lastRef none pre, h.mnext (lastRef none pre)) := by
    refine freememLoop_split hwf (fun c hc => ?_) fun c hc => ?_
    · rw [hbase]
      exact hprebase c hc
    · rw [hbase]
      exact (hpostbase c hc).le
  have hfitsAbove : ¬ (h.mnext (lastRef none pre) ≠ NULL ∧
      h.mnext (lastRef none pre) < blkaddr + n) := by
    rintro ⟨hnonnull, hlt'⟩
    cases post with
    | nil => exact hnonnull hpost.2
    | cons f post =>
        have hhead := (chain_cons.mp hpost).1
        have hle := habove f (by simp)
        rw [hhead, BitVec.lt_def, (hplace f (by simp)).blockAddr_toNat,
          BitVec.toNat_add, hbase, hlen] at hlt'
        omega
  have hgap : (∀ c ∈ pre, c.top ≠ b.base) → ∃ h', some
      (coalesceNext (blockRef b) (h.mnext (lastRef none pre))
        ((((h.credit n).setMnext (blockRef b)
          (h.mnext (lastRef none pre))).setMlength (blockRef b) n).setMnext
            (lastRef none pre) (blockAddr b)), OK) = some (h', OK) ∧
      WellFormed h' (release b (pre ++ post)) ∧ h'.minheap = h.minheap ∧
        h'.maxheap = h.maxheap := by
    intro hnotouch
    refine ⟨_, rfl, coalesceNext_keeps hwf hb hin hapart hlen ?_ ?_ ?_ ?_⟩
    · rw [release_of_gap (fun c hc => ⟨(hprebase c hc).le, hnotouch c hc⟩)
        hpostbase]
      exact freemem_gap_chain hpos hbplace (by omega) hprebase habove hnword
        hwf.chain
    · exact ref_mlength_setMnext _ _ _
    · rw [(setMnext_bounds _ _ _).1]
      rfl
    · rw [(setMnext_bounds _ _ _).2]
      rfl
  rw [freemem, if_neg hguard]
  simp only [hn, hwalk]
  subst haddr
  rcases List.eq_nil_or_concat' pre with rfl | ⟨init, e, rfl⟩
  · -- Nothing free lies below: the range becomes the first block.
    have hfirst : ¬ NULL = blockAddr b := hbplace.blockAddr_ne_null.symm
    have hno : ¬ (((none : BlockRef) ≠ none ∧ blockAddr b < NULL) ∨
        (h.mnext none ≠ NULL ∧ h.mnext none < blockAddr b + n)) := by
      rintro (⟨hnone, -⟩ | hover)
      · exact hnone rfl
      · exact hfitsAbove hover
    simp only [lastRef, ↓reduceIte]
    rw [if_neg hno, if_neg hfirst]
    exact hgap (by simp)
  · have he := hplace e (by simp)
    have hlast : lastRef none (init ++ [e]) = blockRef e := by
      rw [lastRef_append]
      rfl
    have hsome : ¬ blockRef e = none := by simp [blockRef]
    have hle := hbelow e (by simp)
    have hend : h.addrOf (blockRef e) + h.mlength (blockRef e) =
        BitVec.ofNat 32 e.top := by
      rw [List.append_assoc] at hchain
      rw [(chain_cons.mp (chain_append.mp hchain).2).2.1]
      exact (BitVec.ofNat_add e.base e.len).symm
    have htopAddr : BitVec.ofNat 32 e.top = blockAddr b ↔ e.top = b.base := by
      rw [ofNat_eq_word_iff (by omega), hbase]
    have hnotBelow : ¬ blockAddr b < BitVec.ofNat 32 e.top := by
      rw [BitVec.lt_def, hbase, BitVec.toNat_ofNat]
      omega
    have hno : ¬ ((blockRef e ≠ none ∧ blockAddr b < BitVec.ofNat 32 e.top) ∨
        (h.mnext (blockRef e) ≠ NULL ∧
          h.mnext (blockRef e) < blockAddr b + n)) := by
      rintro (⟨-, hover⟩ | hover)
      · exact hnotBelow hover
      · rw [hlast] at hfitsAbove
        exact hfitsAbove hover
    have hinit : ∀ c ∈ init, c.top < e.base := by
      have hsep := hwf.separated
      rw [List.append_assoc] at hsep
      exact (below_of_separated hsep).1
    have hepos := he.granular.len_pos
    have hetop : e.top = e.base + e.len := rfl
    rw [hlast] at hgap ⊢
    rw [if_neg hsome, hend, if_neg hno]
    by_cases htouch : e.top = b.base
    · -- The range extends the block below it.
      rw [if_pos (htopAddr.mpr htouch)]
      refine ⟨_, rfl, coalesceNext_keeps hwf hb hin hapart hlen ?_ ?_ ?_ ?_⟩
      · have hlist : release b (init ++ [e] ++ post) =
            init ++ joinRight ⟨e.base, e.len + b.len⟩ post := by
          rw [List.append_assoc]
          exact release_of_touch
            (fun c hc => ⟨(hprebase c (by simp [hc])).le, by
              have hlt := hinit c hc
              omega⟩) (hprebase e (by simp)).le htouch
        rw [hlist]
        have hsep := hwf.separated
        rw [List.append_assoc] at hchain hsep hplace
        exact freemem_touch_chain hsep hplace hbplace (by omega) htouch
          habove hnword hchain
      · rfl
      · rfl
      · rfl
    · rw [if_neg fun heq => htouch (htopAddr.mp heq)]
      apply hgap
      intro c hc
      rcases List.mem_append.mp hc with hc | hc
      · have hlt := hinit c hc
        omega
      · rw [List.mem_singleton] at hc
        rw [hc]
        exact htouch

/-! ## A heap of one block -/

/-- A free list of the single block `e`, with the given bytes around it. -/
def singleBlockHeap (e : Extent) (minheap maxheap : Word) (mem : Memory) : Heap where
  mem := write32 (write32 mem (blockAddr e) NULL) (blockAddr e + 4)
    (BitVec.ofNat 32 e.len)
  memlist := ⟨blockAddr e, BitVec.ofNat 32 e.len⟩
  memlistAddr := 0
  minheap := minheap
  maxheap := maxheap

theorem singleBlockHeap_wellFormed
    {e : Extent} {minheap maxheap : Word} (mem : Memory)
    (he : e.Granular 8)
    (hin : e.Within minheap.toNat (maxheap.toNat + 1))
    (hmin : 0 < minheap.toNat) :
    WellFormed (singleBlockHeap e minheap maxheap mem) [e] := by
  have hmax := maxheap.isLt
  have hin' := hin
  unfold Extent.Within Extent.top at hin'
  have hplace : Placeable e := by
    refine ⟨he, by omega, ?_⟩
    unfold Extent.top
    omega
  have hdvd := he.base_dvd
  have haddr := hplace.blockAddr_toNat
  have hfirst : Aligned (blockAddr e) := by
    unfold Aligned
    omega
  have hsecond : Aligned (blockAddr e + 4) := by
    unfold Aligned
    bv_omega
  refine ⟨?_, List.pairwise_singleton _ e, by simpa using he,
    ?_, hmin, ?_⟩
  · refine chain_cons.mpr ⟨rfl, ?_, trivial, ?_⟩
    · exact read32_write32_self _ _ _
    · show read32 _ (blockAddr e) = NULL
      simp only [singleBlockHeap]
      rw [read32_write32_of_ne hsecond hfirst (by bv_omega)]
      exact read32_write32_self _ _ _
  · rintro c hc
    rw [List.mem_singleton.mp hc]
    exact hin
  · simp only [singleBlockHeap, BitVec.toNat_ofNat, total_cons, total_nil]
    omega

end Xinu
