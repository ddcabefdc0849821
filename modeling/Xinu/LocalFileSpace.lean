import Xinu.LocalFileNames

/-!
# The space of local files

A file takes the blocks that its size needs and no others, so the sizes of the
files say whether a call finds the blocks it needs: a call that writes fails
exactly if the files with the bytes it writes would not fit on the disk.
-/

namespace Xinu.LocalFiles

open ByteMemory FreePools

def dataBlocks (size : ℕ) : ℕ := (size + 511) / LF_BLKSIZ

def indexBlocks (size : ℕ) : ℕ := (dataBlocks size + 15) / LF_IBLEN

/-- The index blocks and data blocks that the files need are there. -/
def Files.Fits (fs : Files) (iblks dblks : ℕ) : Prop :=
  (fs.files.map fun f => indexBlocks f.2.length).sum ≤ iblks ∧
    (fs.files.map fun f => dataBlocks f.2.length).sum ≤ dblks

instance (fs : Files) (iblks dblks : ℕ) : Decidable (fs.Fits iblks dblks) :=
  inferInstanceAs (Decidable (_ ∧ _))

theorem dataBlocks_mono {m n : ℕ} (h : m ≤ n) : dataBlocks m ≤ dataBlocks n :=
  Nat.div_le_div_right (by omega)

theorem indexBlocks_mono {m n : ℕ} (h : m ≤ n) :
    indexBlocks m ≤ indexBlocks n :=
  Nat.div_le_div_right (by have := dataBlocks_mono h; omega)

section Sums

variable {α : Type*} {l : List α} {e : ℕ}

/-- One element is replaced in a sum. -/
theorem sum_map_modify (g : α → ℕ) (f : α → α) (he : e < l.length) :
    ((l.modify e f).map g).sum + g l[e] = (l.map g).sum + g (f l[e]) := by
  induction l generalizing e with
  | nil => simp at he
  | cons x l ih =>
      cases e with
      | zero =>
          simp
          omega
      | succ e =>
          have hrest := ih (by simpa using he)
          simp only [List.modify_succ_cons, List.map_cons, List.sum_cons,
            List.getElem_cons_succ]
          omega

end Sums

section Changes

variable {fs : Files} {i : ℕ} {o : OpenFile} {b b' : List (BitVec 8)}
  {q q' iblks dblks : ℕ}

theorem Files.change_change
    (fs : Files) (i : ℕ) (o : OpenFile) (b b' : List (BitVec 8)) (q q' : ℕ) :
    (fs.change i o b q).change i { o with pos := q' } b' q' =
      fs.change i o b' q' := by
  unfold Files.change
  congr 1
  · simp only
    apply List.ext_getElem
    · simp
    intro e he he'
    simp only [List.getElem_modify]
    split <;> rfl
  · simp

/-- Fewer bytes in one file fit too. -/
theorem Files.Fits.mono
    (h : (fs.change i o b q).Fits iblks dblks) (ho : o.file < fs.files.length)
    (hle : b'.length ≤ b.length) :
    (fs.change i o b' q').Fits iblks dblks := by
  obtain ⟨hindex, hdata⟩ := h
  have hsum : ∀ g : ℕ → ℕ, g b'.length ≤ g b.length →
      ((fs.change i o b' q').files.map fun f => g f.2.length).sum ≤
        ((fs.change i o b q).files.map fun f => g f.2.length).sum := by
    intro g hg
    have hold := sum_map_modify (fun f => g f.2.length)
      (fun f : Name × List (BitVec 8) => (f.1, b)) ho
    have hnew := sum_map_modify (fun f => g f.2.length)
      (fun f : Name × List (BitVec 8) => (f.1, b')) ho
    simp only [Files.change] at hold hnew ⊢
    omega
  exact ⟨(hsum _ (indexBlocks_mono hle)).trans hindex,
    (hsum _ (dataBlocks_mono hle)).trans hdata⟩

end Changes

/-! ## What is on the disk -/

section Counting

variable {p : Pools} {s : Lfs} {v : Volume} {i : ℕ} {b : List (BitVec 8)}
  {q : ℕ}

theorem view_sum (g : ℕ → ℕ) :
    ((view s v).files.map fun f => g f.2.length).sum =
      ((List.range v.nfiles).map fun e => g (v.file e).ld_size).sum := by
  simp [view, Function.comp_def, Volume.bytes_length]

/-- The free blocks are those that no file needs. -/
theorem FilesOk.count (h : FilesOk p s v) :
    v.ifree.length +
        ((view s v).files.map fun f => indexBlocks f.2.length).sum =
      p.iblocks.length ∧
    v.dfree.length +
        ((view s v).files.map fun f => dataBlocks f.2.length).sum =
      p.dblocks.length := by
  have hindex := h.inv.iblocks.count
  have hdata := h.inv.dblocks.count
  rw [view_sum, view_sum]
  constructor
  · rw [← hindex]
    congr 2
    apply List.map_congr_left
    intro e he
    obtain ⟨hroom, hchain⟩ := h.fitted e (List.mem_range.mp he)
    rw [hchain, hroom]
    rfl
  · rw [← hdata]
    congr 2
    apply List.map_congr_left
    intro e he
    obtain ⟨hroom, -⟩ := h.fitted e (List.mem_range.mp he)
    rw [Volume.pointers, List.length_map, List.length_range, hroom]
    rfl

theorem FilesOk.fits (h : FilesOk p s v) :
    (view s v).Fits p.iblocks.length p.dblocks.length := by
  obtain ⟨hindex, hdata⟩ := h.count
  exact ⟨by omega, by omega⟩

/-- The byte for which there is no block would not have fitted. -/
theorem NoSpace.not_fits
    (hno : NoSpace v (s.lfltab i)) (h : FilesOk p s v) (hi : s.InUse i)
    (hb : (s.lfltab i).lfpos < b.length) :
    ¬ ((view s v).change i ⟨(s.lfltab i).lfdirptr, (s.lfltab i).lfpos⟩ b
      q).Fits p.iblocks.length p.dblocks.length := by
  have he := (h.holds.device i hi).entry
  have hlen : (s.lfltab i).lfdirptr < (view s v).files.length := by
    simpa [view] using he
  have hget : (view s v).files[(s.lfltab i).lfdirptr] =
      ((v.file (s.lfltab i).lfdirptr).ld_name,
        v.bytes (s.lfltab i).lfdirptr) := by
    simp [view]
  obtain ⟨hroom, hchain⟩ := h.fitted _ he
  obtain ⟨hindex, hdata⟩ := h.count
  have hnewi := sum_map_modify (fun f => indexBlocks f.2.length)
    (fun f : Name × List (BitVec 8) => (f.1, b)) hlen
  have hnewd := sum_map_modify (fun f => dataBlocks f.2.length)
    (fun f : Name × List (BitVec 8) => (f.1, b)) hlen
  simp only [hget, Volume.bytes_length] at hnewi hnewd
  rintro ⟨hfiti, hfitd⟩
  simp only [Files.change] at hfiti hfitd
  have hneedi := indexBlocks_mono (Nat.succ_le_of_lt hb)
  have hneedd := dataBlocks_mono (Nat.succ_le_of_lt hb)
  rcases hno.2 with hlack | ⟨hfull, hnil⟩
  · have hold : (v.chain (s.lfltab i).lfdirptr).length =
        indexBlocks (v.file (s.lfltab i).lfdirptr).ld_size := by
      rw [hchain, hroom]
      rfl
    have hpos : (s.lfltab i).lfpos / LF_IDATA + 1 ≤
        indexBlocks ((s.lfltab i).lfpos + 1) := by
      simp only [indexBlocks, dataBlocks, LF_IDATA, LF_IBLEN, LF_BLKSIZ]
      omega
    rw [Nat.succ_eq_add_one] at hneedi
    omega
  · have hold : v.room (s.lfltab i).lfdirptr =
        dataBlocks (v.file (s.lfltab i).lfdirptr).ld_size := hroom
    have hpos : (s.lfltab i).lfpos / LF_BLKSIZ + 1 ≤
        dataBlocks ((s.lfltab i).lfpos + 1) := by
      simp only [dataBlocks, LF_BLKSIZ]
      omega
    rw [hnil, List.length_nil] at hdata
    rw [Nat.succ_eq_add_one] at hneedd
    omega

end Counting

/-! ## Writing until the disk is full -/

section Full

variable {p : Pools} {s : Lfs} {v : Volume} {i budget : ℕ}
  {buff : List (BitVec 8)} {ch : BitVec 8}

theorem overwrite_length {bytes : List (BitVec 8)} {pos : ℕ}
    (hpos : pos ≤ bytes.length) :
    (overwrite bytes pos buff).length =
      max bytes.length (pos + buff.length) := by
  simp [overwrite]
  omega

theorem FilesOk.pos_le (h : FilesOk p s v) (hi : s.InUse i) :
    (s.lfltab i).lfpos ≤ (v.bytes (s.lfltab i).lfdirptr).length := by
  rw [Volume.bytes_length]
  exact (h.holds.device i hi).pos

theorem lflputc_full
    (h : FilesOk p s v) (hi : s.InUse i) (hbudget : p.iblocks.length < budget)
    (hnone : s.lflputc budget i ch = none) :
    ¬ ((view s v).putc i ch).1.Fits p.iblocks.length p.dblocks.length := by
  rcases putc_view h hi hbudget ch with ⟨hno, -⟩ |
    ⟨s', v', hsome, -, -⟩
  · have he := (h.holds.device i hi).entry
    simp only [Files.putc, view_opened hi, view_bytes he]
    apply hno.not_fits h hi
    rw [overwrite_length (h.pos_le hi), List.length_singleton]
    exact lt_of_lt_of_le (Nat.lt_succ_self _) (le_max_right _ _)
  · rw [hnone] at hsome
    cases hsome

/-- The loop of a write that panics has more bytes than fit. -/
theorem writeLoop_full
    (h : FilesOk p s v) (hi : s.InUse i) (hbudget : p.iblocks.length < budget)
    (hnone : Lfs.writeLoop budget i buff s = none) (q : ℕ) :
    ¬ ((view s v).change i ⟨(s.lfltab i).lfdirptr, (s.lfltab i).lfpos⟩
      (overwrite (v.bytes (s.lfltab i).lfdirptr) (s.lfltab i).lfpos buff)
      q).Fits p.iblocks.length p.dblocks.length := by
  induction buff generalizing s v q with
  | nil => cases hnone
  | cons ch buff ih =>
      have hpos := h.pos_le hi
      have he := (h.holds.device i hi).entry
      rw [Lfs.writeLoop] at hnone
      rcases lflputc_spec h hi hbudget ch with ⟨hno, -⟩ |
        ⟨s₁, v₁, hsome, hdone⟩
      · -- this byte does not fit
        apply hno.not_fits h hi
        rw [overwrite_length hpos, List.length_cons]
        omega
      rw [hsome, Option.bind_some] at hnone
      have hne : OK.toInt ≠ SYSERR.toInt := by decide
      simp only [if_neg hne] at hnone
      have hfull := ih hdone.ok (hdone.own.inUse.mpr hi) hnone q
      have hput : (v.bytes (s.lfltab i).lfdirptr).take (s.lfltab i).lfpos ++
          ch :: (v.bytes (s.lfltab i).lfdirptr).drop ((s.lfltab i).lfpos + 1) =
            overwrite (v.bytes (s.lfltab i).lfdirptr) (s.lfltab i).lfpos
              [ch] := by
        simp [overwrite]
      rw [hdone.own.entry, hdone.bytes, hdone.pos, hdone.view h hi, hput,
        overwrite_overwrite hpos] at hfull
      intro hfit
      apply hfull
      have hchange := Files.change_change (view s v) i
        ⟨(s.lfltab i).lfdirptr, (s.lfltab i).lfpos⟩
        (overwrite (v.bytes (s.lfltab i).lfdirptr) (s.lfltab i).lfpos [ch])
        (overwrite (v.bytes (s.lfltab i).lfdirptr) (s.lfltab i).lfpos
          (ch :: buff)) ((s.lfltab i).lfpos + 1) q
      rw [← hchange] at hfit
      exact hfit

theorem lflwrite_full
    (h : FilesOk p s v) (hi : s.InUse i) (hbudget : p.iblocks.length < budget)
    (hnone : s.lflwrite budget i buff = none) :
    ¬ ((view s v).write i buff).1.Fits p.iblocks.length p.dblocks.length := by
  have he := (h.holds.device i hi).entry
  unfold Lfs.lflwrite at hnone
  rw [Option.map_eq_none_iff] at hnone
  simp only [Files.write, view_opened hi, view_bytes he]
  exact writeLoop_full h hi hbudget hnone _

end Full

end Xinu.LocalFiles
