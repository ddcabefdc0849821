import Xinu.HeapHistory

/-!
# Requests of the heap

What `getmem` and `getstk` owe for every request, the largest ones included:
rounding a request within 7 of `2 ^ 32` gives zero, and every free block has
room for zero bytes.
-/

namespace Xinu

open ByteMemory FreeExtents

def Refuses (l : List Extent) (nbytes : Word) : Prop :=
  nbytes = 0 ∨ ∀ e ∈ l, e.len < nbytes.toNat

/-- `b` was cut out of the free block `e` and is not free any more. -/
structure Grants (h' : Heap) (l l' : List Extent) (nbytes : Word)
    (e b : Extent) : Prop where
  enough : nbytes.toNat ≤ b.len
  free : b.Inside e
  carved : Carved b l l'
  wellFormed : WellFormed h' l'
  apart : ∀ c ∈ l', b.Apart c

def GetmemLaw (h : Heap) (l : List Extent) (nbytes : Word) : Prop :=
  (getmem nbytes h = some (h, SYSERR) ∧ Refuses l nbytes) ∨
    ∃ h' b l' pre e post, getmem nbytes h = some (h', blockAddr b) ∧
      l = pre ++ e :: post ∧ (∀ c ∈ pre, c.len < nbytes.toNat) ∧
        b.base = e.base ∧ Grants h' l l' nbytes e b

/-- `getstk` gives the address of the highest word of the block. -/
def GetstkLaw (h : Heap) (l : List Extent) (nbytes : Word) : Prop :=
  (getstk nbytes h = some (h, SYSERR) ∧ Refuses l nbytes) ∨
    ∃ h' b l' pre e post,
      getstk nbytes h = some (h', BitVec.ofNat 32 b.top - 4) ∧
        l = pre ++ e :: post ∧ (∀ c ∈ post, c.len < nbytes.toNat) ∧
          b.top = e.top ∧ Grants h' l l' nbytes e b

section Requests

variable {h : Heap} {l : List Extent} {nbytes : Word}

/-- A block, being a multiple of eight, is too small for the request exactly if
it is too small for the rounded request. -/
theorem lt_roundmb_iff
    {e : Extent} (he : e.Granular 8) (hbound : nbytes.toNat ≤ 2 ^ 32 - 8) :
    e.len < (roundmb nbytes).toNat ↔ e.len < nbytes.toNat := by
  have hdvd := he.len_dvd
  rw [roundmb_toNat hbound]
  omega

theorem getmemLaw_of_le
    (hwf : WellFormed h l) (hbound : nbytes.toNat ≤ 2 ^ 32 - 8) :
    GetmemLaw h l nbytes := by
  by_cases hzero : nbytes = 0
  · exact Or.inl ⟨by rw [getmem, if_pos hzero], Or.inl hzero⟩
  have hpos : 0 < nbytes.toNat := by bv_omega
  have hspec := getmem_spec hwf hpos hbound
  obtain ⟨-, -, hcovers⟩ := roundmb_request hpos hbound
  cases hcarve : carveFirst (roundmb nbytes).toNat l with
  | none =>
      rw [hcarve] at hspec
      refine Or.inl ⟨hspec, Or.inr fun e he => ?_⟩
      exact (lt_roundmb_iff (hwf.granular e he) hbound).mp
        (carveFirst_eq_none_iff.mp hcarve e he)
  | some r =>
      rw [hcarve] at hspec
      obtain ⟨h', hget, hwf', -⟩ := hspec
      have hcarved := carveFirst_carved hcarve
      obtain ⟨pre, e, post, hl, hpre, hfit, rfl⟩ := carveFirst_split hcarve
      refine Or.inr ⟨h', _, _, pre, e, post, hget, hl, fun c hc => ?_, rfl,
        hcovers, ⟨le_rfl, ?_⟩, hcarved, hwf', fun c hc =>
          hcarved.apart hwf.separated hc⟩
      · exact (lt_roundmb_iff (hwf.granular c (by simp [hl, hc])) hbound).mp
          (hpre c hc)
      · unfold Extent.top
        dsimp only
        omega

theorem getstkLaw_of_le
    (hwf : WellFormed h l) (hbound : nbytes.toNat ≤ 2 ^ 32 - 8) :
    GetstkLaw h l nbytes := by
  by_cases hzero : nbytes = 0
  · exact Or.inl ⟨by rw [getstk, if_pos hzero], Or.inl hzero⟩
  have hpos : 0 < nbytes.toNat := by bv_omega
  have hspec := getstk_spec hwf hpos hbound
  obtain ⟨-, -, hcovers⟩ := roundmb_request hpos hbound
  cases hcarve : carveLast (roundmb nbytes).toNat l with
  | none =>
      rw [hcarve] at hspec
      refine Or.inl ⟨hspec, Or.inr fun e he => ?_⟩
      exact (lt_roundmb_iff (hwf.granular e he) hbound).mp
        (carveLast_eq_none_iff.mp hcarve e he)
  | some r =>
      rw [hcarve] at hspec
      obtain ⟨h', hget, hwf', -⟩ := hspec
      have hcarved := carveLast_carved hcarve
      obtain ⟨pre, e, post, hl, hpost, hfit, rfl⟩ := carveLast_split hcarve
      have htop : (⟨e.base + (e.len - (roundmb nbytes).toNat),
          (roundmb nbytes).toNat⟩ : Extent).top = e.top := by
        unfold Extent.top
        dsimp only
        omega
      refine Or.inr ⟨h', _, _, pre, e, post, ?_, hl, fun c hc => ?_, htop,
        hcovers, ⟨Nat.le_add_right _ _, htop.le⟩, hcarved, hwf', fun c hc =>
          hcarved.apart hwf.separated hc⟩
      · rw [hget]
        simp [blockAddr, Extent.top, BitVec.ofNat_add]
      · exact (lt_roundmb_iff (hwf.granular c (by simp [hl, hc])) hbound).mp
          (hpost c hc)

theorem Placeable.len_le {e : Extent} (he : Placeable e) :
    e.len ≤ 2 ^ 32 - 8 := by
  have hdvd := he.granular.base_dvd
  have hbase := he.base_pos
  have htop := he.top_le
  unfold Extent.top at htop
  omega

theorem roundmb_eq_zero (hbig : 2 ^ 32 - 8 < nbytes.toNat) :
    roundmb nbytes = 0 := by
  have hsum : (7 + nbytes).toNat < 8 := by bv_omega
  have hround : roundmb nbytes = truncmb (7 + nbytes) := rfl
  apply BitVec.eq_of_toNat_eq
  rw [hround, truncmb_toNat]
  show (7 + nbytes).toNat / 8 * 8 = 0
  omega

/-- A request that rounds to zero gets the first free block all the same. -/
theorem getmem_of_gt
    {e : Extent} {rest : List Extent} (hwf : WellFormed h (e :: rest))
    (hbig : 2 ^ 32 - 8 < nbytes.toNat) :
    ∃ h', getmem nbytes h = some (h', blockAddr e) := by
  have he := hwf.placeable (e := e) (by simp)
  obtain ⟨hhead, hsize, -⟩ := chain_cons.mp hwf.chain
  have hlen : h.mlength (some (blockAddr e)) = BitVec.ofNat 32 e.len := hsize
  have hle := he.len_le
  have hpos := he.granular.len_pos
  have hne : nbytes ≠ 0 := by
    rintro rfl
    simp at hbig
  have hlt : (0 : Word) < BitVec.ofNat 32 e.len := by
    rw [BitVec.lt_def, BitVec.toNat_ofNat]
    show 0 < e.len % 2 ^ 32
    omega
  have hne' : ¬ BitVec.ofNat 32 e.len = (0 : Word) := by
    intro heq
    rw [heq] at hlt
    exact absurd hlt (by decide)
  rw [getmem, if_neg hne, roundmb_eq_zero hbig, hhead]
  show ∃ h', getmemLoop 0 (2 ^ 32 + 1) none (blockAddr e) h = some (h', _)
  rw [getmemLoop, if_neg he.blockAddr_ne_null, hlen, if_neg hne', if_pos hlt]
  exact ⟨_, rfl⟩

theorem getmemLaw_iff (hwf : WellFormed h l) :
    GetmemLaw h l nbytes ↔ nbytes.toNat ≤ 2 ^ 32 - 8 ∨ l = [] := by
  constructor
  · intro hlaw
    by_contra hcond
    push Not at hcond
    obtain ⟨hbig, hne⟩ := hcond
    obtain ⟨e, rest, rfl⟩ := List.exists_cons_of_ne_nil hne
    obtain ⟨h₁, hget⟩ := getmem_of_gt hwf hbig
    rcases hlaw with ⟨hrefused, -⟩ | ⟨h', b, l', pre, f, post, -, hl, -, -, hgrant⟩
    · rw [hget, Option.some.injEq, Prod.mk.injEq] at hrefused
      exact blockAddr_ne_syserr (hwf.placeable (by simp)) hrefused.2
    · have hlen := (hwf.placeable (e := f) (by simp [hl])).len_le
      have hbase := (hwf.placeable (e := f) (by simp [hl])).base_pos
      have hin := hgrant.free
      have henough := hgrant.enough
      unfold Extent.Inside Extent.top at hin
      omega
  · rintro (hbound | rfl)
    · exact getmemLaw_of_le hwf hbound
    · by_cases hzero : nbytes = 0
      · exact Or.inl ⟨by rw [getmem, if_pos hzero], Or.inl hzero⟩
      · refine Or.inl ⟨?_, Or.inr (by simp)⟩
        have hend : h.mnext none = NULL := hwf.chain.2
        rw [getmem, if_neg hzero, hend]
        show getmemLoop _ (2 ^ 32 + 1) none NULL h = _
        rw [getmemLoop, if_pos rfl]

/-- The scan of `getstk` for zero bytes ends with the last free block. -/
theorem getstkLoop_zero
    {pre : List Extent} {e : Extent} {ref : BlockRef} (fuel : ℕ)
    (fits : Option (BlockRef × Word)) (hchain : Chain h ref (pre ++ [e]))
    (hplace : ∀ c ∈ pre ++ [e], Placeable c) :
    getstkLoop 0 h (fuel + 1 + (pre.length + 1)) ref (h.mnext ref) fits =
      some (some (lastRef ref pre, blockAddr e)) := by
  induction pre generalizing ref fits with
  | nil =>
      obtain ⟨hhead, -, hend⟩ := chain_cons.mp hchain
      have he := hplace e (by simp)
      have hnull : h.mnext (some (blockAddr e)) = NULL := hend.2
      have hzero : (0 : Word) ≤ h.mlength (some (blockAddr e)) := by
        rw [BitVec.le_def]
        exact Nat.zero_le _
      rw [List.length_nil, Nat.zero_add, getstkLoop, hhead,
        if_neg he.blockAddr_ne_null, getstkLoop, hnull, if_pos rfl,
        if_pos hzero]
      rfl
  | cons c pre ih =>
      obtain ⟨hhead, -, hrest⟩ := chain_cons.mp hchain
      have hc := hplace c (by simp)
      rw [List.length_cons, ← Nat.add_assoc, getstkLoop, hhead,
        if_neg hc.blockAddr_ne_null]
      exact ih _ hrest fun d hd => hplace d (List.mem_cons_of_mem _ hd)

/-- A stack that rounds to zero lies above the last free block. -/
theorem getstk_of_gt
    {e : Extent} {pre : List Extent} (hwf : WellFormed h (pre ++ [e]))
    (hbig : 2 ^ 32 - 8 < nbytes.toNat) :
    ∃ h', getstk nbytes h = some (h', BitVec.ofNat 32 e.top - 4) := by
  have he := hwf.placeable (e := e) (by simp)
  have hlt := hwf.length_lt
  rw [List.length_append, List.length_singleton] at hlt
  obtain ⟨fuel, hfuel⟩ : ∃ fuel, walkBound = fuel + 1 + (pre.length + 1) :=
    walkBound_split hlt
  have hscan : getstkLoop 0 h walkBound none (h.mnext none) none =
      some (some (lastRef none pre, blockAddr e)) := by
    rw [hfuel]
    exact getstkLoop_zero fuel none hwf.chain fun c hc => hwf.placeable hc
  have hsize := (chain_cons.mp (chain_append.mp hwf.chain).2).2.1
  have hlen : h.mlength (some (blockAddr e)) = BitVec.ofNat 32 e.len := hsize
  have hle := he.len_le
  have hpos := he.granular.len_pos
  have hne : nbytes ≠ 0 := by
    rintro rfl
    simp at hbig
  have hne' : ¬ (0 : Word) = BitVec.ofNat 32 e.len := by
    intro heq
    have hval := (ofNat_eq_word_iff (by omega)).mp heq.symm
    simp at hval
    omega
  have hread : (h.setMlength (some (blockAddr e))
      (BitVec.ofNat 32 e.len)).mlength (some (blockAddr e)) =
        BitVec.ofNat 32 e.len :=
    (mlength_setMlength he.node he.node).trans (if_pos rfl)
  rw [getstk, if_neg hne, roundmb_eq_zero hbig]
  have hsub : BitVec.ofNat 32 e.len - (0 : Word) = BitVec.ofNat 32 e.len := by
    simp
  have hend : blockAddr e + BitVec.ofNat 32 e.len + 0 - 4 =
      BitVec.ofNat 32 e.top - 4 := by
    simp [blockAddr, Extent.top, BitVec.ofNat_add]
  simp only [hscan, hlen, if_neg hne', hsub, hread, hend]
  exact ⟨_, rfl⟩

theorem getstkLaw_iff (hwf : WellFormed h l) :
    GetstkLaw h l nbytes ↔ nbytes.toNat ≤ 2 ^ 32 - 8 ∨ l = [] := by
  constructor
  · intro hlaw
    by_contra hcond
    push Not at hcond
    obtain ⟨hbig, hne⟩ := hcond
    rcases List.eq_nil_or_concat' l with rfl | ⟨init, e, rfl⟩
    · exact hne rfl
    obtain ⟨h₁, hget⟩ := getstk_of_gt hwf hbig
    rcases hlaw with ⟨hrefused, -⟩ | ⟨h', b, l', pre, f, post, -, hl, -, -, hgrant⟩
    · rw [hget, Option.some.injEq, Prod.mk.injEq] at hrefused
      have he := hwf.placeable (e := e) (by simp)
      have hdvd := he.granular.base_dvd
      have hdvd' := he.granular.len_dvd
      have hword : (BitVec.ofNat 32 e.top - 4).toNat = 2 ^ 32 - 1 := by
        rw [hrefused.2]
        rfl
      have hfour : (4 : Word).toNat = 4 := rfl
      unfold Extent.top at hword
      rw [BitVec.toNat_sub, BitVec.toNat_ofNat, hfour] at hword
      omega
    · have hlen := (hwf.placeable (e := f) (by simp [hl])).len_le
      have hin := hgrant.free
      have henough := hgrant.enough
      unfold Extent.Inside Extent.top at hin
      omega
  · rintro (hbound | rfl)
    · exact getstkLaw_of_le hwf hbound
    · by_cases hzero : nbytes = 0
      · exact Or.inl ⟨by rw [getstk, if_pos hzero], Or.inl hzero⟩
      · refine Or.inl ⟨?_, Or.inr (by simp)⟩
        have hend : h.mnext none = NULL := hwf.chain.2
        have hscan : getstkLoop (roundmb nbytes) h walkBound none NULL none =
            some none := by
          show getstkLoop _ h (2 ^ 32 + 1) none NULL none = _
          rw [getstkLoop, if_pos rfl]
        rw [getstk, if_neg hzero, hend]
        simp only [hscan]

/-- Both allocators keep to their laws for exactly the requests that are not
rounded to zero, and on an empty list. -/
theorem requests_lawful_iff (hwf : WellFormed h l) :
    (GetmemLaw h l nbytes ↔ nbytes.toNat ≤ 2 ^ 32 - 8 ∨ l = []) ∧
      (GetstkLaw h l nbytes ↔ nbytes.toNat ≤ 2 ^ 32 - 8 ∨ l = []) :=
  ⟨getmemLaw_iff hwf, getstkLaw_iff hwf⟩

end Requests

def sixteenBytes : Heap := singleBlockHeap ⟨16, 16⟩ 8 255 fun _ => 0

theorem sixteenBytes_wellFormed : WellFormed sixteenBytes [⟨16, 16⟩] := by
  apply singleBlockHeap_wellFormed
  · exact ⟨by decide, by decide, by decide⟩
  · exact ⟨by decide, by decide⟩
  · decide

theorem requests_lawful_iff_five_bytes :
    GetmemLaw sixteenBytes [⟨16, 16⟩] 5 ∧ GetstkLaw sixteenBytes [⟨16, 16⟩] 5 :=
  ⟨(requests_lawful_iff sixteenBytes_wellFormed).1.mpr (Or.inl (by decide)),
    (requests_lawful_iff sixteenBytes_wellFormed).2.mpr (Or.inl (by decide))⟩

/-- A request of `2 ^ 32 - 7` bytes is granted. -/
theorem huge_request_granted :
    ∃ h l nbytes, WellFormed h l ∧ ¬ GetmemLaw h l nbytes ∧
      ¬ GetstkLaw h l nbytes := by
  refine ⟨sixteenBytes, [⟨16, 16⟩], -7, sixteenBytes_wellFormed, ?_, ?_⟩
  · rw [getmemLaw_iff sixteenBytes_wellFormed]
    decide
  · rw [getstkLaw_iff sixteenBytes_wellFormed]
    decide

end Xinu
