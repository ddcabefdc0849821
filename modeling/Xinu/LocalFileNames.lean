import Xinu.LocalFileContents

/-!
# Opening local files by name

`lfsopen` finds a free pseudo-device and the entry of the file, or makes an
entry for an empty file.  With the calls on open files this gives the whole
interface of the file system, on a state and on its view.
-/

namespace Xinu.LocalFiles

open ByteMemory LinkedTable

/-! ## The search -/

section Searching

variable {p : Pools} {s : Lfs} {v : Volume} {name : Name}

theorem scanDevices_eq (l : List ℕ) (lfnext : Option ℕ) :
    s.scanDevices name l lfnext =
      if l.any fun i => (s.lfltab i).lfstate = .used ∧
        (s.lfltab i).lfname = name then none
      else lfnext.or (l.find? fun i => (s.lfltab i).lfstate = .free) := by
  induction l generalizing lfnext with
  | nil => simp [Lfs.scanDevices]
  | cons i l ih =>
      rw [Lfs.scanDevices]
      cases hstate : (s.lfltab i).lfstate with
      | free =>
          rw [if_pos rfl, ih]
          cases lfnext <;> simp [hstate]
      | used =>
          rw [if_neg (by decide)]
          by_cases hname : (s.lfltab i).lfname = name
          · simp [hstate, hname]
          · rw [if_neg hname, ih]
            simp [hstate, hname]

/-- The index of the first element with a property. -/
theorem find_range_eq_findIdx {α : Type*} (g : ℕ → α) (q : α → Bool) (n : ℕ) :
    (List.range n).find? (fun e => q (g e)) =
      ((List.range n).map g).findIdx? q := by
  ext e
  rw [List.find?_range_eq_some, List.findIdx?_eq_some_iff_getElem]
  simp only [List.mem_range, List.length_map, List.length_range,
    List.getElem_map, List.getElem_range, Bool.not_eq_eq_eq_not, Bool.not_true,
    Bool.not_eq_true]
  constructor
  · rintro ⟨hq, hlt, hbefore⟩
    exact ⟨hlt, hq, hbefore⟩
  · rintro ⟨hlt, hq, hbefore⟩
    exact ⟨hq, hlt, hbefore⟩

/-- The view finds the pseudo-device that the code finds. -/
theorem FilesOk.freeDevice (h : FilesOk p s v) (name : Name) :
    (view s v).freeDevice name =
      s.scanDevices name (List.range Nlfl) none := by
  rw [scanDevices_eq]
  unfold Files.freeDevice
  have hused : ∀ i ∈ List.range Nlfl,
      decide (((view s v).opened i).map (fun o =>
          ((view s v).files.getD o.file ([], [])).1) = some name) =
        decide ((s.lfltab i).lfstate = .used ∧ (s.lfltab i).lfname = name) := by
    intro i hi
    have hlt := List.mem_range.mp hi
    by_cases hstate : (s.lfltab i).lfstate = .used
    · have hin : s.InUse i := ⟨hlt, hstate⟩
      have hdev := h.holds.device i hin
      rw [view_opened hin, Option.map_some, view_getD hdev.entry]
      simp [hstate, hdev.name]
    · rw [view_closed fun hin => hstate hin.2]
      simp [hstate]
  have hfree : ∀ i ∈ List.range Nlfl, ((view s v).opened i).isNone =
      decide ((s.lfltab i).lfstate = .free) := by
    intro i hi
    have hlt := List.mem_range.mp hi
    cases hstate : (s.lfltab i).lfstate with
    | used => simp [view_opened (show s.InUse i from ⟨hlt, hstate⟩)]
    | free =>
        rw [view_closed fun hin => by
          have hbad := hin.2
          rw [hstate] at hbad
          cases hbad]
        rfl
  have hany : ((List.range Nlfl).any fun i =>
      ((view s v).opened i).map (fun o =>
        ((view s v).files.getD o.file ([], [])).1) = some name) =
        (List.range Nlfl).any fun i =>
          (s.lfltab i).lfstate = .used ∧ (s.lfltab i).lfname = name := by
    rw [Bool.eq_iff_iff, List.any_eq_true, List.any_eq_true]
    exact exists_congr fun i => and_congr_right fun hi => by rw [hused i hi]
  rw [Option.none_or, hany, List.find?_congr hfree]

theorem view_findIdx :
    Lfs.findEntry v.dir name =
      (view s v).files.findIdx? fun f => f.1 = name :=
  find_range_eq_findIdx (fun e => ((v.file e).ld_name, v.bytes e))
    (fun f => f.1 = name) v.nfiles

end Searching

/-! ## The directory and the pseudo-devices -/

section Opening

variable {p : Pools} {s : Lfs} {v : Volume} {name mode : Name} {i e mbits : ℕ}

theorem claimDevice_inUse (hi : i < Nlfl) {j : ℕ} :
    (s.claimDevice i e mbits name).InUse j ↔ j = i ∨ s.InUse j := by
  unfold Lfs.InUse
  by_cases hj : j = i
  · subst hj
    simp [lfltab_claimDevice_self.1, hi]
  · rw [lfltab_claimDevice_of_ne hj]
    simp [hj]

/-- A free pseudo-device is claimed for a file that is not open. -/
theorem FilesOk.claim
    (h : FilesOk p s v) (hi : i < Nlfl) (hfree : ¬ s.InUse i)
    (he : e < v.nfiles) (hname : (v.file e).ld_name = name)
    (hclosed : ∀ j, s.InUse j → (s.lfltab j).lfdirptr ≠ e) :
    FilesOk p (s.claimDevice i e mbits name) v := by
  have hself : (s.claimDevice i e mbits name).lfltab i =
      { s.lfltab i with
        lfstate := .used, lfdirptr := e, lfmode := mbits &&& LF_MODE_RW
        lfpos := 0, lfname := name, lfinum := LF_INULL, lfdnum := LF_DNULL
        lfbyte := LF_BLKSIZ, lfibdirty := false, lfdbdirty := false } :=
    lfltab_setFile_self
  have hother : ∀ j, s.InUse j →
      (s.claimDevice i e mbits name).lfltab j = s.lfltab j := by
    intro j hj
    apply lfltab_claimDevice_of_ne
    rintro rfl
    exact hfree hj
  refine ⟨h.inv, ?_, h.fitted, h.names⟩
  refine ⟨h.holds.dir, h.holds.present, h.holds.selected, ?_, ?_, ?_, ?_, ?_⟩
  · intro j hj
    by_cases hji : j = i
    · rw [hji, hself]
      exact h.holds.devs i hi
    · rw [lfltab_claimDevice_of_ne hji]
      exact h.holds.devs j hj
  · intro j hj
    rcases (claimDevice_inUse hi).mp hj with rfl | hused
    · rw [hself]
      exact ⟨he, hname.symm, Nat.zero_le _, Or.inl ⟨rfl, rfl⟩,
        Or.inl ⟨rfl, rfl⟩, fun hlt => absurd hlt (lt_irrefl _)⟩
    · rw [hother j hused]
      exact h.holds.device j hused
  · intro j k hj hk heq
    rcases (claimDevice_inUse hi).mp hj with rfl | hused <;>
      rcases (claimDevice_inUse hi).mp hk with rfl | hused'
    · rfl
    · rw [hself, hother k hused'] at heq
      exact absurd heq.symm (hclosed k hused')
    · rw [hself, hother j hused] at heq
      exact absurd heq (hclosed j hused)
    · rw [hother j hused, hother k hused'] at heq
      exact h.holds.apart j k hused hused' heq
  · intro n hclean
    refine h.holds.index n fun j hj hdirty => ?_
    have hat := hclean j ((claimDevice_inUse hi).mpr (Or.inr hj))
    rw [hother j hj] at hat
    exact hat hdirty
  · intro d hclean
    refine h.holds.block d fun j hj hdirty => ?_
    have hat := hclean j ((claimDevice_inUse hi).mpr (Or.inr hj))
    rw [hother j hj] at hat
    exact hat hdirty

theorem claim_view (hi : i < Nlfl) :
    view (s.claimDevice i e mbits name) v = (view s v).claim i e := by
  have hopened : (view (s.claimDevice i e mbits name) v).opened =
      Function.update (view s v).opened i (some ⟨e, 0⟩) := by
    funext j
    by_cases hj : j = i
    · subst hj
      rw [Function.update_self,
        view_opened ((claimDevice_inUse hi).mpr (Or.inl rfl))]
      simp [Lfs.claimDevice, Lfs.setFile]
    · rw [Function.update_of_ne hj]
      simp only [view, claimDevice_inUse hi, hj, false_or,
        lfltab_claimDevice_of_ne hj]
  unfold Files.claim
  rw [← hopened]
  rfl

theorem addFile_names
    (hv : VolumeInv p v) (hnames : DistinctNames v.dir)
    (hfind : Lfs.findEntry v.dir name = none) :
    DistinctNames (v.addFile name).dir := by
  have hnew := addFile_file_new (v := v) name
  have hold : ∀ f : ℕ, (f : ℤ) < v.dir.lfd_nfiles →
      (v.addFile name).file f = v.file f := by
    intro f hf
    rw [hv.nfiles_eq] at hf
    exact (addFile_sameFile name (by exact_mod_cast hf)).file
  have hcases : ∀ f : ℕ, (f : ℤ) < (v.addFile name).dir.lfd_nfiles →
      f = v.nfiles ∨ (f : ℤ) < v.dir.lfd_nfiles := by
    intro f hf
    have hcount : (v.addFile name).dir.lfd_nfiles = v.dir.lfd_nfiles + 1 := rfl
    have heq := hv.nfiles_eq
    omega
  intro f f' hf hf' heq
  replace heq : ((v.addFile name).file f).ld_name =
      ((v.addFile name).file f').ld_name := heq
  rcases hcases f hf with rfl | hlt <;> rcases hcases f' hf' with rfl | hlt'
  · rfl
  · rw [hnew, hold f' hlt'] at heq
    exact absurd heq.symm (findEntry_none hfind hlt')
  · rw [hnew, hold f hlt] at heq
    exact absurd heq (findEntry_none hfind hlt)
  · rw [hold f hlt, hold f' hlt'] at heq
    exact hnames f f' hlt hlt' heq

/-- A file that is not in the directory gets an entry. -/
theorem FilesOk.addEntry
    (h : FilesOk p s v) (hfind : Lfs.findEntry v.dir name = none) :
    FilesOk p (s.addEntry name) (v.addFile name) := by
  have hinv := h.inv.addFile name
  have hcount := addFile_nfiles name h.inv
  have hdir : (s.addEntry name).lf_dir = (v.addFile name).dir := by
    unfold Lfs.addEntry Lfs.setEntry
    rw [h.holds.dir]
    rfl
  refine ⟨hinv, ⟨hdir, h.holds.present, h.holds.selected, h.holds.devs, ?_,
    h.holds.apart, h.holds.index, h.holds.block⟩, ?_,
    addFile_names h.inv h.names hfind⟩
  · intro j hj
    have hdev := h.holds.device j hj
    exact hdev.same (addFile_sameFile name hdev.entry) (h.inv.room _ hdev.entry)
      (by omega)
  · intro f hf
    rw [hcount] at hf
    by_cases hnew : f = v.nfiles
    · subst hnew
      unfold Volume.Fitted
      rw [addFile_room_new, addFile_chain_new, addFile_file_new]
      exact ⟨by simp [LF_BLKSIZ], by simp [LF_IBLEN]⟩
    · have hlt : f < v.nfiles := by omega
      exact (addFile_sameFile name hlt).fitted (h.fitted f hlt)

theorem addEntry_view (h : FilesOk p s v) :
    view (s.addEntry name) (v.addFile name) =
      { view s v with files := (view s v).files ++ [(name, [])] } := by
  have hfiles : (view (s.addEntry name) (v.addFile name)).files =
      (view s v).files ++ [(name, [])] := by
    simp only [view]
    rw [addFile_nfiles name h.inv, List.range_succ, List.map_append]
    congr 1
    · apply List.map_congr_left
      intro f hf
      have hlt := List.mem_range.mp hf
      have hsame := addFile_sameFile name hlt
      rw [hsame.file, hsame.bytes h.inv hlt (h.fitted f hlt)]
    · simp [Volume.bytes, addFile_file_new]
  rw [← hfiles]
  rfl

theorem FilesOk.openEntry
    (h : FilesOk p s v) (hi : i < Nlfl) (hfree : (s.lfltab i).lfstate = .free)
    (hclosed : ∀ j, s.InUse j → (s.lfltab j).lfname ≠ name) (mbits : ℕ) :
    ∃ v', FilesOk p (s.openEntry name mbits i).1 v' ∧
      (view s v).openEntry name mbits i =
        (view (s.openEntry name mbits i).1 v',
          (s.openEntry name mbits i).2) := by
  have hidle : ¬ s.InUse i := by
    rintro ⟨-, hused⟩
    rw [hfree] at hused
    cases hused
  have hlen : (view s v).files.length = v.nfiles := by simp [view]
  have hdev : ∀ t : Lfs, t.lfltab = s.lfltab → ∀ e,
      ((t.claimDevice i e mbits name).lfltab i).lfdev = 18 + i := by
    intro t ht e
    rw [lfltab_claimDevice_self.2.2, ht]
    exact h.holds.devs i hi
  unfold Files.openEntry Lfs.openEntry
  rw [h.holds.dir, ← view_findIdx (s := s)]
  cases hfind : Lfs.findEntry v.dir name with
  | none =>
      have hadd := h.addEntry hfind
      have hcount := addFile_nfiles name h.inv
      dsimp only
      rw [h.inv.nfiles_eq, hlen]
      split_ifs with hold hfull
      · exact ⟨v, h, rfl⟩
      · exact ⟨v, h, rfl⟩
      · refine ⟨v.addFile name, hadd.claim hi hidle (by omega) ?_ ?_, ?_⟩
        · show ((v.addFile name).file v.nfiles).ld_name = name
          rw [addFile_file_new]
        · intro j hj
          have hlt := (h.holds.device j hj).entry
          exact hlt.ne
        · rw [← addEntry_view h, Int.toNat_natCast, ← claim_view hi]
          exact congrArg (Prod.mk _) (hdev (s.addEntry name) rfl _).symm
  | some e =>
      obtain ⟨hname, hmem⟩ := List.find?_range_eq_some.mp hfind
      have he : e < v.nfiles := List.mem_range.mp hmem.1
      replace hname : (v.file e).ld_name = name := of_decide_eq_true hname
      dsimp only
      split_ifs with hnew
      · exact ⟨v, h, rfl⟩
      · refine ⟨v, h.claim hi hidle he hname ?_, ?_⟩
        · rintro j hj rfl
          exact hclosed j hj ((h.holds.device j hj).name.trans hname)
        · rw [← claim_view hi]
          exact congrArg (Prod.mk _) (hdev s rfl e).symm

end Opening

end Xinu.LocalFiles
