import Xinu.NamePrefixes
import Mathlib.Data.List.GetD

/-!
# The name table of naminit

`naminit` mounts every device of the configuration under `/dev/` and then the
eight prefixes of its list.  A mount is refused when its strings are too long,
when its device is not in the device table or when the name table is full, and
a name is then served by a later entry or by none.
-/

namespace Xinu.Namespace

def chars (l : List Char) : List Ch := l.map fun c => BitVec.ofNat 8 c.toNat

structure Dentry where
  dvnum : ℤ
  dvname : List Ch

/-- A device name of conf.h stands for the number of the device. -/
def Named (devtab : List Dentry) (dvname : List Ch) (d : ℤ) : Prop :=
  ∃ i : Fin devtab.length, d = i ∧ (devtab.get i).dvname = dvname

/-- What the configuration program writes into conf.h and conf.c.  A file
system that is not configured is `SYSERR`. -/
structure Configuration where
  devtab : List Dentry
  NULLDEV : ℤ
  NAMESPACE : ℤ
  RFILESYS : ℤ
  LFILESYS : ℤ
  dvnum_eq : ∀ i : Fin devtab.length, (devtab.get i).dvnum = i
  dvname_nonzero : ∀ d ∈ devtab, ∀ c ∈ d.dvname, c ≠ 0
  nulldev : Named devtab (chars ['N', 'U', 'L', 'L', 'D', 'E', 'V']) NULLDEV
  nam : Named devtab (chars ['N', 'A', 'M', 'E', 'S', 'P', 'A', 'C', 'E']) NAMESPACE
  rfilesys : RFILESYS = SYSERR.toInt ∨
    Named devtab (chars ['R', 'F', 'I', 'L', 'E', 'S', 'Y', 'S']) RFILESYS
  lfilesys : LFILESYS = SYSERR.toInt ∨
    Named devtab (chars ['L', 'F', 'I', 'L', 'E', 'S', 'Y', 'S']) LFILESYS

namespace Configuration

variable (cfg : Configuration)

def NDEVS : ℕ := cfg.devtab.length

def isbaddev (f : ℤ) : Bool := f < 0 || f ≥ cfg.NDEVS

/-- `mount`, in a kernel built for the configuration. -/
def mount (nPrefix replace : Str) (device : ℤ) (t : Nametab) : Nametab × ℤ :=
  let psiz := namlen nPrefix NM_PRELEN
  let rsiz := namlen replace NM_REPLLEN
  if t.nnames ≥ NNAMES then (t, SYSERR.toInt)
  else if psiz = SYSERR.toInt ∨ rsiz = SYSERR.toInt ∨ cfg.isbaddev device then
    (t, SYSERR.toInt)
  else
    let e := t.nametab t.nnames
    let e : Nmentry :=
      ⟨copyInto psiz nPrefix e.nPrefix, copyInto rsiz replace e.nReplace, device⟩
    (⟨Function.update t.nametab t.nnames e, t.nnames + 1⟩, OK.toInt)

/-- For a configuration of this repository's size it is the `mount` of before. -/
theorem mount_eq (h : (cfg.NDEVS : ℤ) = Namespace.NDEVS) :
    cfg.mount = Namespace.mount := by
  funext nPrefix replace device t
  have hbad : cfg.isbaddev device = Namespace.isbaddev device := by
    rw [isbaddev, h, Namespace.isbaddev]
  rw [mount, Namespace.mount, hbad]

/-! ## naminit.c -/

def lowerCase (ch : Ch) : Ch :=
  if 0x41 ≤ ch.toNat ∧ ch.toNat ≤ 0x5a then ch + 0x20 else ch

def devPrefix : List Ch := chars ['/', 'd', 'e', 'v', '/']

/-- `while (++len < NM_MAXLEN)`, with the name from `nptr` on still to come;
the next byte of `tmpstr` to be written is the one at `len`. -/
def nameLoop (dvname : Str) : ℕ → ℕ → ℕ → Str → Str × ℕ
  | 0, len, _, tmpstr => (tmpstr, len + 1)
  | n + 1, len, nptr, tmpstr =>
      let ch := lowerCase (dvname nptr)
      let tmpstr := Function.update tmpstr len ch
      if ch = 0 then (tmpstr, len + 1)
      else nameLoop dvname n (len + 1) (nptr + 1) tmpstr

/-- One pass of the loop over the devices. -/
def mountDevice (s : Str × Nametab) (d : Dentry) : Str × Nametab :=
  let tmpstr := copyInto 6 (ofList devPrefix) s.1
  let (tmpstr, len) := nameLoop (ofList d.dvname) (NM_MAXLEN - 1 - 5) 5 0 tmpstr
  if len > NM_MAXLEN then (tmpstr, s.2)
  else (tmpstr, (cfg.mount tmpstr (ofList []) d.dvnum s.2).1)

def nullName : Mapping :=
  ⟨chars ['/', 'd', 'e', 'v', '/', 'n', 'u', 'l', 'l'], [], cfg.NULLDEV⟩

def root : Mapping := ⟨chars ['/'], chars ['r', 'o', 'o', 't', ':'], cfg.RFILESYS⟩

def anyName : Mapping := ⟨[], [], cfg.LFILESYS⟩

/-- The prefixes of the list that follows `/dev/null`, but for the empty one. -/
def prefixes : List Mapping :=
  [⟨chars ['/', 'r', 'e', 'm', 'o', 't', 'e', '/'], [], cfg.RFILESYS⟩,
    ⟨chars ['/', 'l', 'o', 'c', 'a', 'l', '/'], [], cfg.LFILESYS⟩,
    ⟨chars ['/', 't', 'm', 'p', '/'], chars ['t', 'm', 'p', '-'], cfg.LFILESYS⟩,
    ⟨devPrefix, [], SYSERR.toInt⟩,
    ⟨chars ['~', '/'], [], cfg.RFILESYS⟩,
    cfg.root]

def others : List Mapping := cfg.nullName :: (cfg.prefixes ++ [cfg.anyName])

def mountOther (t : Nametab) (m : Mapping) : Nametab :=
  (cfg.mount (ofList m.pre) (ofList m.replacement) m.device t).1

/-- `naminit`, with what is in the table and on the stack before it. -/
def naminit (tmpstr : Str) (t : Nametab) : Nametab :=
  cfg.others.foldl cfg.mountOther
    (cfg.devtab.foldl cfg.mountDevice (tmpstr, ⟨t.nametab, 0⟩)).2

/-! ## Which mounts are made -/

def deviceName (d : Dentry) : Mapping :=
  ⟨devPrefix ++ d.dvname.map lowerCase, [], d.dvnum⟩

def Accepts (m : Mapping) : Prop :=
  m.pre.length < NM_PRELEN ∧ m.replacement.length < NM_REPLLEN ∧
    0 ≤ m.device ∧ m.device < cfg.NDEVS

instance (m : Mapping) : Decidable (cfg.Accepts m) :=
  inferInstanceAs (Decidable (_ ∧ _ ∧ _ ∧ _))

def accepted (ms : List Mapping) : List Mapping := ms.filter fun m => cfg.Accepts m

/-- The names of devices, `/dev/null` included, that can be mounted. -/
def deviceNames : List Mapping :=
  cfg.accepted (cfg.devtab.map deviceName ++ [cfg.nullName])

def later : List Mapping := cfg.accepted (cfg.prefixes ++ [cfg.anyName])

/-- What the name table stands for after `naminit`. -/
def table : List Mapping := (cfg.deviceNames ++ cfg.later).take NNAMES

/-- When `m` is mounted there are fewer than `NNAMES` mounts. -/
def Room (m : Mapping) : Prop :=
  cfg.deviceNames.length +
    (cfg.accepted ((cfg.prefixes ++ [cfg.anyName]).takeWhile (· ≠ m))).length < NNAMES

instance (m : Mapping) : Decidable (cfg.Room m) := inferInstanceAs (Decidable (_ < _))

/-- The mount is made: its file system is configured and the table has room. -/
def Kept (m : Mapping) : Prop := m.device ≠ SYSERR.toInt ∧ cfg.Room m

/-! ## What a name should reach -/

/-- Of the six prefixes, `m` has the longest that the name begins with; a name
under `/dev/` begins with no mounted device name. -/
structure Listed (l : List Ch) (m : Mapping) : Prop where
  mem : m ∈ cfg.prefixes
  pre : m.pre <+: l
  longest : ∀ m' ∈ cfg.prefixes, m'.pre <+: l → m'.pre.length ≤ m.pre.length
  unnamed : m.pre = devPrefix →
    ∀ m' ∈ cfg.deviceNames.take NNAMES, ¬ m'.pre <+: l

def Reaches (t : Nametab) (tmpname newname : Str) (l : List Ch) (device : ℤ) : Prop :=
  ∃ new, nammap t tmpname (ofList l) newname cfg.NAMESPACE = some (new, device)

/-- A name whose file system is configured must fit the buffers and its prefix
the table.  Any other, one under `/dev/` above all, must be too long, or no
file system may be mounted under the root or the empty prefix. -/
def Serves (l : List Ch) : Prop :=
  ∀ m, cfg.Listed l m →
    (m.device ≠ SYSERR.toInt → l.length < NM_MAXLEN ∧ cfg.Room m) ∧
      (m.device = SYSERR.toInt →
        NM_MAXLEN ≤ l.length ∨ ¬ cfg.Kept cfg.root ∧ ¬ cfg.Kept cfg.anyName)

/-! ## The table that is built -/

section Building

variable {cfg} {t : Nametab} {ms : List Mapping} {m : Mapping}

/-- A mount adds its entry or leaves the table as it is. -/
def place (cfg : Configuration) (ms : List Mapping) (m : Mapping) : List Mapping :=
  if ms.length < NNAMES ∧ cfg.Accepts m then ms ++ [m] else ms

theorem isbaddev_iff {f : ℤ} : cfg.isbaddev f = true ↔ ¬ (0 ≤ f ∧ f < cfg.NDEVS) := by
  unfold isbaddev
  rw [Bool.or_eq_true, decide_eq_true_iff, decide_eq_true_iff]
  omega

/-- What the checks of `mount` come to for strings that end in time. -/
theorem mount_refused
    {nPrefix replace : Str} (h : Represents t ms)
    (hlong : NM_PRELEN ≤ m.pre.length → namlen nPrefix NM_PRELEN = SYSERR.toInt)
    (hreplace : Holds replace m.replacement)
    (hno : ¬ (ms.length < NNAMES ∧ cfg.Accepts m)) :
    (cfg.mount nPrefix replace m.device t).1 = t := by
  unfold mount
  dsimp only
  by_cases hfull : t.nnames ≥ NNAMES
  · rw [if_pos hfull]
  · rw [if_neg hfull, if_pos]
    by_contra hgood
    push Not at hgood
    obtain ⟨hpsiz, hrsiz, hdevice⟩ := hgood
    have hlt : m.pre.length < NM_PRELEN := by
      by_contra hge
      exact hpsiz (hlong (by omega))
    rw [namlen_spec hreplace, ne_eq, ite_eq_right_iff, Classical.not_imp] at hrsiz
    have hdev : 0 ≤ m.device ∧ m.device < cfg.NDEVS := by
      by_contra hbad
      exact hdevice (isbaddev_iff.mpr hbad)
    have hroom : ms.length < NNAMES := by
      rw [← h.nnames]
      omega
    exact hno ⟨hroom, hlt, hrsiz.1, hdev⟩

theorem mount_made
    {nPrefix replace : Str} (h : Represents t ms) (hstart : Holds nPrefix m.pre)
    (hreplace : Holds replace m.replacement)
    (hyes : ms.length < NNAMES ∧ cfg.Accepts m) :
    Represents (cfg.mount nPrefix replace m.device t).1 (ms ++ [m]) := by
  obtain ⟨hroom, hpre, hrepl, hnonneg, hlt⟩ := hyes
  have hfree : ¬ t.nnames ≥ NNAMES := by
    have hlast := h.nnames
    omega
  have hpos : ∀ n : ℕ, (n : ℤ) + 1 ≠ SYSERR.toInt := by
    intro n
    rw [show SYSERR.toInt = -1 from rfl]
    omega
  have hgood : ¬ ((m.pre.length : ℤ) + 1 = SYSERR.toInt ∨
      (m.replacement.length : ℤ) + 1 = SYSERR.toInt ∨ cfg.isbaddev m.device) := by
    rintro (hbad | hbad | hbad)
    · exact hpos _ hbad
    · exact hpos _ hbad
    · exact isbaddev_iff.mp hbad ⟨hnonneg, hlt⟩
  unfold mount
  dsimp only
  rw [if_neg hfree, namlen_spec hstart, namlen_spec hreplace, if_pos hpre,
    if_pos hrepl, if_neg hgood]
  exact h.append (storedIn_copyInto hstart hreplace hpre hrepl hnonneg _)

theorem represents_place
    {nPrefix replace : Str} (h : Represents t ms)
    (hsize : m.pre.length < NM_PRELEN → Holds nPrefix m.pre)
    (hlong : NM_PRELEN ≤ m.pre.length → namlen nPrefix NM_PRELEN = SYSERR.toInt)
    (hreplace : Holds replace m.replacement) :
    Represents (cfg.mount nPrefix replace m.device t).1 (place cfg ms m) := by
  unfold Configuration.place
  by_cases hyes : ms.length < NNAMES ∧ cfg.Accepts m
  · rw [if_pos hyes]
    exact mount_made h (hsize hyes.2.1) hreplace hyes
  · rw [if_neg hyes, mount_refused h hlong hreplace hyes]
    exact h

theorem lowerCase_eq_zero {ch : Ch} : lowerCase ch = 0 ↔ ch = 0 := by
  unfold lowerCase
  split_ifs with hupper
  · constructor <;> intro hzero <;> bv_omega
  · exact Iff.rfl

theorem ofList_lowerCase (l : List Ch) (k : ℕ) :
    ofList (l.map lowerCase) k = lowerCase (ofList l k) := by
  unfold ofList
  exact List.getD_map (d := (0 : Ch)) l lowerCase

/-- The bytes that the loop has written so far are those of the full name. -/
theorem nameLoop_spec
    {l : List Ch} (n nptr : ℕ) (tmpstr : Str) (hn : nptr ≤ l.length)
    (hdone : ∀ j < nptr + 5, tmpstr j = ofList (devPrefix ++ l.map lowerCase) j)
    (hl : ∀ c ∈ l, c ≠ 0) :
    ∀ j ≤ l.length + 5, j < nptr + 5 + n →
      (nameLoop (ofList l) n (nptr + 5) nptr tmpstr).1 j =
        ofList (devPrefix ++ l.map lowerCase) j := by
  induction n generalizing nptr tmpstr with
  | zero =>
      intro j _ hj
      exact hdone j (by omega)
  | succ n ih =>
      have hhere : ofList (devPrefix ++ l.map lowerCase) (nptr + 5) =
          lowerCase (ofList l nptr) := by
        rw [← ofList_lowerCase]
        unfold ofList
        rw [List.getD_append_right _ _ _ _ (show devPrefix.length ≤ _ by simp [devPrefix, chars]),
          show nptr + 5 - devPrefix.length = nptr by simp [devPrefix, chars]]
      have hnext : ∀ j < nptr + 5 + 1,
          Function.update tmpstr (nptr + 5) (lowerCase (ofList l nptr)) j =
            ofList (devPrefix ++ l.map lowerCase) j := by
        intro j hj
        by_cases hlast : j = nptr + 5
        · rw [hlast, Function.update_self, hhere]
        · rw [Function.update_of_ne hlast]
          exact hdone j (by omega)
      intro j hjl hj
      rw [nameLoop]
      by_cases hend : lowerCase (ofList l nptr) = 0
      · have hlast := ((ofList_holds hl).zero_iff hn).mp (lowerCase_eq_zero.mp hend)
        rw [if_pos hend]
        exact hnext j (by omega)
      · have hne : nptr ≠ l.length := by
          intro heq
          apply hend
          rw [heq, (ofList_holds hl).null]
          rfl
        rw [if_neg hend, show nptr + 5 + 1 = nptr + 1 + 5 by omega]
        exact ih (nptr + 1) _ (by omega)
          (fun j hj => hnext j (by omega)) j hjl (by omega)

theorem nameLoop_len (dvname : Str) (n len nptr : ℕ) (tmpstr : Str) :
    (nameLoop dvname n len nptr tmpstr).2 ≤ len + n + 1 := by
  induction n generalizing len nptr tmpstr with
  | zero => exact le_rfl
  | succ n ih =>
      rw [nameLoop]
      split_ifs
      · dsimp only
        omega
      · have := ih (len + 1) (nptr + 1)
          (Function.update tmpstr len (lowerCase (dvname nptr)))
        omega

theorem namlenLoop_of_ne_zero
    {s : Str} (n i : ℕ) (h : ∀ j < i + n, s j ≠ 0) :
    namlenLoop s n i = SYSERR.toInt := by
  induction n generalizing i with
  | zero => rfl
  | succ n ih =>
      rw [namlenLoop, if_neg (h i (by omega))]
      exact ih (i + 1) fun j hj => h j (by omega)

theorem deviceName_nonzero {d : Dentry} (hd : ∀ c ∈ d.dvname, c ≠ 0) :
    ∀ c ∈ (deviceName d).pre, c ≠ 0 := by
  intro c hc
  rcases List.mem_append.mp hc with hc | hc
  · exact nonzero_of_all (l := devPrefix) rfl c hc
  · obtain ⟨b, hb, rfl⟩ := List.mem_map.mp hc
    exact fun hzero => hd b hb (lowerCase_eq_zero.mp hzero)

theorem represents_mountDevice
    {d : Dentry} (tmpstr : Str) (h : Represents t ms) (hd : ∀ c ∈ d.dvname, c ≠ 0) :
    Represents (cfg.mountDevice (tmpstr, t) d).2 (place cfg ms (deviceName d)) := by
  unfold Configuration.mountDevice
  dsimp only
  have hlen := nameLoop_len (ofList d.dvname) (NM_MAXLEN - 1 - 5) 5 0
    (copyInto 6 (ofList devPrefix) tmpstr)
  have hwritten := nameLoop_spec (l := d.dvname) (NM_MAXLEN - 1 - 5) 0
    (copyInto 6 (ofList devPrefix) tmpstr) (Nat.zero_le _)
    (fun j hj => by
      rw [copyInto, if_pos (by omega)]
      unfold ofList
      rw [List.getD_append _ _ _ _ (by simpa [devPrefix, chars] using hj)]) hd
  rw [Nat.zero_add] at hwritten
  have hfull : (deviceName d).pre.length = d.dvname.length + 5 := by
    rw [deviceName, List.length_append, List.length_map, Nat.add_comm]
    rfl
  have hholds := ofList_holds (deviceName_nonzero hd)
  rw [if_neg (by unfold NM_MAXLEN at hlen ⊢; omega)]
  refine represents_place (m := deviceName d) h (fun hsize => ?_)
    (fun hlong => ?_) (ofList_holds (by simp))
  · unfold NM_PRELEN at hsize
    refine hholds.congr fun k hk => hwritten k (by omega) ?_
    unfold NM_MAXLEN
    omega
  · unfold NM_PRELEN at hlong ⊢
    refine namlenLoop_of_ne_zero 64 0 fun j hj => ?_
    rw [hwritten j (by omega) (by unfold NM_MAXLEN; omega)]
    intro hzero
    have := (hholds.zero_iff (by omega)).mp hzero
    omega

theorem represents_devices
    (ds : List Dentry) (s : Str × Nametab) (h : Represents s.2 ms)
    (hds : ∀ d ∈ ds, ∀ c ∈ d.dvname, c ≠ 0) :
    Represents (ds.foldl cfg.mountDevice s).2
      ((ds.map deviceName).foldl (place cfg) ms) := by
  induction ds generalizing s ms with
  | nil => exact h
  | cons d ds ih =>
      rw [List.foldl_cons, List.map_cons, List.foldl_cons]
      exact ih _ (represents_mountDevice s.1 h (hds d List.mem_cons_self))
        fun d' hd' => hds d' (List.mem_cons_of_mem d hd')

theorem represents_others
    (os : List Mapping) (h : Represents t ms)
    (hpre : ∀ m ∈ os, ∀ c ∈ m.pre, c ≠ 0)
    (hreplacement : ∀ m ∈ os, ∀ c ∈ m.replacement, c ≠ 0)
    (hshort : ∀ m ∈ os, m.pre.length < NM_PRELEN) :
    Represents (os.foldl cfg.mountOther t) (os.foldl (place cfg) ms) := by
  induction os generalizing t ms with
  | nil => exact h
  | cons m os ih =>
      rw [List.foldl_cons, List.foldl_cons]
      refine ih ?_ (fun m' hm' => hpre m' (List.mem_cons_of_mem m hm'))
        (fun m' hm' => hreplacement m' (List.mem_cons_of_mem m hm'))
        fun m' hm' => hshort m' (List.mem_cons_of_mem m hm')
      have hlt := hshort m List.mem_cons_self
      exact represents_place h (fun _ => ofList_holds (hpre m List.mem_cons_self))
        (fun hlong => absurd hlong (by omega))
        (ofList_holds (hreplacement m List.mem_cons_self))

/-- Once the table is full nothing is added. -/
theorem foldl_place (rows : List Mapping) (hms : ms.length ≤ NNAMES) :
    rows.foldl (place cfg) ms = (ms ++ cfg.accepted rows).take NNAMES := by
  induction rows generalizing ms with
  | nil =>
      rw [List.foldl_nil, accepted, List.filter_nil, List.append_nil,
        List.take_of_length_le hms]
  | cons m rows ih =>
      rw [List.foldl_cons, Configuration.place, accepted]
      by_cases haccepts : cfg.Accepts m
      · rw [List.filter_cons_of_pos (by simpa using haccepts)]
        by_cases hroom : ms.length < NNAMES
        · rw [if_pos ⟨hroom, haccepts⟩, ih (by simp; omega), List.append_assoc]
          rfl
        · rw [if_neg fun h => hroom h.1, ih hms,
            List.take_append_of_le_length (by omega),
            List.take_append_of_le_length (by omega)]
      · rw [if_neg fun h => haccepts h.2,
          List.filter_cons_of_neg (by simpa using haccepts)]
        exact ih hms

theorem others_good (cfg : Configuration) :
    ∀ m ∈ cfg.others, (∀ c ∈ m.pre, c ≠ 0) ∧ (∀ c ∈ m.replacement, c ≠ 0) ∧
      m.pre.length < NM_PRELEN ∧ m.replacement.length < NM_REPLLEN := by
  intro m hm
  have hpre : (cfg.others.all fun m => m.pre.all fun c => c.toNat != 0) = true := rfl
  have hreplacement :
      (cfg.others.all fun m => m.replacement.all fun c => c.toNat != 0) = true := rfl
  have hsizes : (cfg.others.all fun m =>
      m.pre.length < NM_PRELEN ∧ m.replacement.length < NM_REPLLEN) = true := rfl
  exact ⟨nonzero_of_all (List.all_eq_true.mp hpre m hm),
    nonzero_of_all (List.all_eq_true.mp hreplacement m hm),
    of_decide_eq_true (List.all_eq_true.mp hsizes m hm)⟩

theorem naminit_represents (tmpstr : Str) (t : Nametab) :
    Represents (cfg.naminit tmpstr t) cfg.table := by
  have hdevices := @represents_devices cfg [] cfg.devtab
    (tmpstr, ⟨t.nametab, 0⟩) ⟨rfl, fun i hi => absurd hi (Nat.not_lt_zero i)⟩
    cfg.dvname_nonzero
  have hothers := @represents_others cfg _ _ cfg.others hdevices
    (fun m hm => (others_good cfg m hm).1) (fun m hm => (others_good cfg m hm).2.1)
    fun m hm => (others_good cfg m hm).2.2.1
  rw [← List.foldl_append, foldl_place _ (Nat.zero_le _), List.nil_append] at hothers
  have htable : cfg.accepted (cfg.devtab.map deviceName ++ cfg.others) =
      cfg.deviceNames ++ cfg.later := by
    unfold deviceNames later accepted
    rw [← List.filter_append, List.append_assoc, List.singleton_append]
    rfl
  rw [htable] at hothers
  exact hothers

end Building

/-! ## The search -/

section Search

variable {cfg} {t : Nametab} {ms : List Mapping} {m : Mapping} {l : List Ch}
  {p : Mapping → Bool}

/-- The device of the first entry whose prefix matches. -/
def firstDevice (ms : List Mapping) (l : List Ch) : ℤ :=
  ((ms.find? fun m => m.pre.isPrefixOf l).map Mapping.device).getD SYSERR.toInt

theorem toChar_le (x : ℤ) : toChar x ≤ 127 := by
  have h := Int.bmod_le (x := x) (m := 2 ^ 8) (by norm_num)
  unfold toChar
  omega

/-- The replacement is under 96 characters and what remains under 128: both fit
in a name buffer whatever the length of the name becomes as a `char`. -/
theorem namreplLoop_device
    {name newname : Str} (h : Represents t ms) (hl : Holds name l) (n i : ℕ)
    (hi : i + n = ms.length) :
    ∃ new, namreplLoop t name newname n i =
      some (new, firstDevice (ms.drop i) l) := by
  induction n generalizing i with
  | zero =>
      rw [List.drop_eq_nil_of_le (by omega)]
      exact ⟨newname, rfl⟩
  | succ n ih =>
      have hlt : i < ms.length := by omega
      have hm : ms[i].StoredIn (t.nametab i) := h.entry i hlt
      have hstart : prefixLoop (t.nametab i).nPrefix name NM_PRELEN 0 =
          if ms[i].pre <+: l then some ms[i].pre.length else none :=
        prefixLoop_spec hm.nPrefix hl 0 (Nat.zero_le _) (Nat.zero_le _) rfl
          (by have := hm.prefix_lt; omega)
      rw [namreplLoop, hstart, List.drop_eq_getElem_cons hlt, firstDevice]
      by_cases hpre : ms[i].pre <+: l
      · have hfind : (ms[i] :: ms.drop (i + 1)).find?
            (fun m => m.pre.isPrefixOf l) = some ms[i] :=
          List.find?_cons_of_pos (List.isPrefixOf_iff_prefix.mpr hpre)
        have hchar := toChar_le (namlen name NM_MAXLEN)
        have hrlt := hm.replace_lt
        have hmax : NM_MAXLEN = 256 := rfl
        unfold NM_REPLLEN at hrlt
        rw [if_pos hpre, hfind]
        dsimp only
        rw [namlen_spec hm.nReplace, if_pos (show _ < NM_MAXLEN by omega),
          if_neg (by omega), copyLoop_spec _ _ _ _ (by omega), Option.bind_some,
          copyLoop_spec _ _ _ _ (by omega), Option.map_some]
        exact ⟨_, by rw [hm.nDevice]; rfl⟩
      · have hskip : (ms[i] :: ms.drop (i + 1)).find?
            (fun m => m.pre.isPrefixOf l) =
              (ms.drop (i + 1)).find? fun m => m.pre.isPrefixOf l :=
          List.find?_cons_of_neg fun hpos =>
            hpre (List.isPrefixOf_iff_prefix.mp hpos)
        rw [if_neg hpre, hskip]
        exact ih (i + 1) (by omega)

theorem namcpyLoop_long
    {old : Str} (n i : ℕ) (new : Str) (h : ∀ j < i + n, old j ≠ 0) :
    (namcpyLoop n new old i).2 = SYSERR.toInt := by
  induction n generalizing i new with
  | zero => rfl
  | succ n ih =>
      rw [namcpyLoop, if_neg (h i (by omega))]
      exact ih (i + 1) _ fun j hj => h j (by omega)

theorem nammap_device
    {name : Str} {namdev : ℤ} (tmpname newname : Str) (h : Represents t ms)
    (hl : Holds name l) (hdev : firstDevice ms l ≠ namdev) :
    ∃ new, nammap t tmpname name newname namdev =
      some (new, if l.length < NM_MAXLEN then firstDevice ms l else SYSERR.toInt) := by
  unfold nammap
  by_cases hlen : l.length < NM_MAXLEN
  · obtain ⟨hok, hholds⟩ := namcpy_spec tmpname hl hlen
    rw [if_neg (by rw [hok]; decide), if_pos hlen]
    obtain hzero | ⟨k, hk⟩ : t.nnames = 0 ∨ ∃ k, t.nnames = k + 1 := by
      cases t.nnames with
      | zero => exact Or.inl rfl
      | succ k => exact Or.inr ⟨k, rfl⟩
    · have hnil : ms = [] := List.length_eq_zero_iff.mp (by rw [← h.nnames, hzero])
      rw [hzero, hnil]
      exact ⟨newname, rfl⟩
    · obtain ⟨new, hnew⟩ := @namreplLoop_device _ _ _ _ newname h hholds t.nnames 0
        (by rw [h.nnames, Nat.zero_add])
      rw [hk, nammapLoop, namrepl, hnew, List.drop_zero, Option.bind_some]
      exact ⟨new, if_pos hdev⟩
  · have hfail : (namcpy tmpname name NM_MAXLEN).2 = SYSERR.toInt := by
      refine namcpyLoop_long _ 0 _ fun j hj hzero => ?_
      have := (hl.zero_iff (by omega)).mp hzero
      omega
    rw [if_pos hfail, if_neg hlen]
    exact ⟨newname, rfl⟩

/-- Of the entries that are kept, in a table cut off at `k`, the first match is
the one it would be without the cut, if that is still there. -/
theorem find_take_filter
    {q : Mapping → Bool} (rows : List Mapping) (k : ℕ) (hq : q m)
    (hfind : rows.find? p = some m) :
    ((rows.filter q).take k).find? p =
      if ((rows.takeWhile (· ≠ m)).filter q).length < k then some m else none := by
  induction rows generalizing k with
  | nil => simp at hfind
  | cons a rows ih =>
      by_cases ha : p a
      · rw [List.find?_cons_of_pos ha] at hfind
        cases hfind
        rw [List.takeWhile_cons_of_neg (by simp), List.filter_cons_of_pos hq]
        cases k with
        | zero => rfl
        | succ k => rw [List.take_succ_cons, List.find?_cons_of_pos ha]; simp
      · rw [List.find?_cons_of_neg ha] at hfind
        have hne : a ≠ m := by
          rintro rfl
          exact ha (List.find?_some hfind)
        rw [List.takeWhile_cons_of_pos (by simpa using hne)]
        by_cases hqa : q a
        · rw [List.filter_cons_of_pos hqa, List.filter_cons_of_pos hqa,
            List.length_cons]
          cases k with
          | zero => rfl
          | succ k =>
              rw [List.take_succ_cons, List.find?_cons_of_neg ha, ih k hfind]
              simp only [Nat.add_lt_add_iff_right]
        · rw [List.filter_cons_of_neg hqa, List.filter_cons_of_neg hqa]
          exact ih k hfind

theorem mem_take_filter
    {q : Mapping → Bool} (rows : List Mapping) (k : ℕ) (hq : q m) (hm : m ∈ rows) :
    m ∈ (rows.filter q).take k ↔
      ((rows.takeWhile (· ≠ m)).filter q).length < k := by
  induction rows generalizing k with
  | nil => simp at hm
  | cons a rows ih =>
      by_cases ha : a = m
      · subst ha
        rw [List.takeWhile_cons_of_neg (by simp), List.filter_cons_of_pos hq]
        cases k with
        | zero => simp
        | succ k => simp
      · have hrest : m ∈ rows := (List.mem_cons.mp hm).resolve_left (Ne.symm ha)
        rw [List.takeWhile_cons_of_pos (by simpa using ha)]
        by_cases hqa : q a
        · rw [List.filter_cons_of_pos hqa, List.filter_cons_of_pos hqa,
            List.length_cons]
          cases k with
          | zero => simp
          | succ k =>
              rw [List.take_succ_cons, List.mem_cons, ih k hrest,
                Nat.add_lt_add_iff_right]
              exact or_iff_right (Ne.symm ha)
        · rw [List.filter_cons_of_neg hqa, List.filter_cons_of_neg hqa]
          exact ih k hrest

/-- Where no prefix extends an earlier one, the longest match is the first. -/
theorem find_longest
    (rows : List Mapping) (hrows : (rows.map Mapping.pre).Pairwise fun a b => ¬ a <+: b)
    (hm : m ∈ rows) (hpre : m.pre <+: l)
    (hlongest : ∀ m' ∈ rows, m'.pre <+: l → m'.pre.length ≤ m.pre.length) :
    rows.find? (fun m => m.pre.isPrefixOf l) = some m := by
  induction rows with
  | nil => simp at hm
  | cons a rows ih =>
      rw [List.map_cons, List.pairwise_cons] at hrows
      rcases List.mem_cons.mp hm with rfl | hrest
      · exact List.find?_cons_of_pos (List.isPrefixOf_iff_prefix.mpr hpre)
      · have hno : ¬ a.pre <+: l := by
          intro ha
          have hle := hlongest a List.mem_cons_self ha
          exact hrows.1 m.pre (List.mem_map_of_mem hrest)
            (List.prefix_of_prefix_length_le ha hpre hle)
        have hskip : (a :: rows).find? (fun m => m.pre.isPrefixOf l) =
            rows.find? fun m => m.pre.isPrefixOf l :=
          List.find?_cons_of_neg fun hpos => hno (List.isPrefixOf_iff_prefix.mp hpos)
        rw [hskip]
        exact ih hrows.2 hrest fun m' hm' => hlongest m' (List.mem_cons_of_mem a hm')

end Search

/-! ## The file systems of the configuration -/

section Devices

variable {cfg} {m m' : Mapping} {l : List Ch}

theorem named_bounds {devtab : List Dentry} {dvname : List Ch} {d : ℤ}
    (h : Named devtab dvname d) : 0 ≤ d ∧ d < devtab.length := by
  obtain ⟨i, rfl, -⟩ := h
  exact ⟨Int.natCast_nonneg _, by exact_mod_cast i.isLt⟩

theorem named_ne {devtab : List Dentry} {s s' : List Ch} {d d' : ℤ}
    (h : Named devtab s d) (h' : Named devtab s' d') (hne : s ≠ s') : d ≠ d' := by
  obtain ⟨i, rfl, hi⟩ := h
  obtain ⟨j, rfl, hj⟩ := h'
  intro heq
  have hij : i = j := Fin.ext (by exact_mod_cast heq)
  rw [hij, hj] at hi
  exact hne hi.symm

theorem syserr_toInt : SYSERR.toInt = -1 := rfl

theorem mem_rows (hm : m ∈ cfg.prefixes ++ [cfg.anyName]) :
    m.pre.length < NM_PRELEN ∧ m.replacement.length < NM_REPLLEN ∧
      (m.device = SYSERR.toInt ∨ m.device = cfg.RFILESYS ∨
        m.device = cfg.LFILESYS) := by
  have hgood := others_good cfg m (List.mem_cons_of_mem _ hm)
  simp only [prefixes, List.cons_append, List.nil_append, List.mem_cons,
    List.not_mem_nil, or_false] at hm
  refine ⟨hgood.2.2.1, hgood.2.2.2, ?_⟩
  rcases hm with rfl | rfl | rfl | rfl | rfl | rfl | rfl
  · exact Or.inr (Or.inl rfl)
  · exact Or.inr (Or.inr rfl)
  · exact Or.inr (Or.inr rfl)
  · exact Or.inl rfl
  · exact Or.inr (Or.inl rfl)
  · exact Or.inr (Or.inl rfl)
  · exact Or.inr (Or.inr rfl)

theorem accepts_iff (hm : m ∈ cfg.prefixes ++ [cfg.anyName]) :
    cfg.Accepts m ↔ m.device ≠ SYSERR.toInt := by
  obtain ⟨hpre, hreplacement, hdevice⟩ := mem_rows hm
  constructor
  · rintro ⟨-, -, hnonneg, -⟩ heq
    rw [heq, syserr_toInt] at hnonneg
    omega
  · intro hne
    have hin : 0 ≤ m.device ∧ m.device < cfg.NDEVS := by
      rcases hdevice with heq | heq | heq
      · exact absurd heq hne
      · rw [heq] at hne ⊢
        exact named_bounds (cfg.rfilesys.resolve_left hne)
      · rw [heq] at hne ⊢
        exact named_bounds (cfg.lfilesys.resolve_left hne)
    exact ⟨hpre, hreplacement, hin⟩

theorem later_device {k : ℕ} (hm : m ∈ cfg.later.take k) :
    m ∈ cfg.prefixes ++ [cfg.anyName] ∧ m.device ≠ SYSERR.toInt ∧
      m.device ≠ cfg.NAMESPACE := by
  obtain ⟨hrow, haccepts⟩ := List.mem_filter.mp (List.mem_of_mem_take hm)
  have hne := (accepts_iff hrow).mp (by simpa using haccepts)
  refine ⟨hrow, hne, ?_⟩
  obtain ⟨-, -, heq | heq | heq⟩ := mem_rows hrow
  · exact absurd heq hne
  · rw [heq] at hne ⊢
    exact named_ne (cfg.rfilesys.resolve_left hne) cfg.nam (by decide)
  · rw [heq] at hne ⊢
    exact named_ne (cfg.lfilesys.resolve_left hne) cfg.nam (by decide)

theorem firstDevice_later_ne (k : ℕ) :
    firstDevice (cfg.later.take k) l ≠ cfg.NAMESPACE := by
  unfold firstDevice
  cases hfind : (cfg.later.take k).find? fun m => m.pre.isPrefixOf l with
  | none =>
      have := named_bounds cfg.nam
      rw [Option.map_none, Option.getD_none, syserr_toInt]
      omega
  | some m =>
      rw [Option.map_some, Option.getD_some]
      exact (later_device (List.mem_of_find?_eq_some hfind)).2.2

theorem firstDevice_later_eq_syserr (k : ℕ) :
    firstDevice (cfg.later.take k) l = SYSERR.toInt ↔
      ∀ m ∈ cfg.later.take k, ¬ m.pre <+: l := by
  unfold firstDevice
  cases hfind : (cfg.later.take k).find? fun m => m.pre.isPrefixOf l with
  | none =>
      rw [List.find?_eq_none] at hfind
      exact iff_of_true rfl fun m hm hpre =>
        hfind m hm (List.isPrefixOf_iff_prefix.mpr hpre)
  | some m =>
      rw [Option.map_some, Option.getD_some]
      have hm := List.mem_of_find?_eq_some hfind
      refine iff_of_false (later_device hm).2.1 fun h => h m hm ?_
      exact List.isPrefixOf_iff_prefix.mp (by simpa using List.find?_some hfind)

theorem devPrefix_starts {k : ℕ} (hm : m ∈ cfg.deviceNames.take k) :
    devPrefix <+: m.pre := by
  have hm := (List.mem_filter.mp (List.mem_of_mem_take hm)).1
  rcases List.mem_append.mp hm with hm | hm
  · obtain ⟨d, -, rfl⟩ := List.mem_map.mp hm
    exact List.prefix_append _ _
  · rw [List.mem_singleton.mp hm]
    simp only [nullName]
    decide

/-- No device name is a prefix of a listed name. -/
theorem Listed.not_device (h : cfg.Listed l m) :
    ∀ m' ∈ cfg.deviceNames.take NNAMES, ¬ m'.pre <+: l := by
  intro m' hm' hpre
  have hdev : devPrefix <+: l := (devPrefix_starts hm').trans hpre
  have hle : devPrefix.length ≤ m.pre.length :=
    h.longest ⟨devPrefix, [], SYSERR.toInt⟩ (by simp [prefixes]) hdev
  have hin : devPrefix <+: m.pre := List.prefix_of_prefix_length_le hdev h.pre hle
  refine h.unnamed ?_ m' hm' hpre
  have hmem := h.mem
  simp only [prefixes, List.mem_cons, List.not_mem_nil, or_false] at hmem
  rcases hmem with rfl | rfl | rfl | rfl | rfl | rfl
  case inr.inr.inr.inl => rfl
  all_goals
    dsimp only [root] at hin
    exact absurd hin (by decide)

theorem Listed.firstDevice_table (h : cfg.Listed l m) :
    firstDevice cfg.table l =
      firstDevice (cfg.later.take (NNAMES - cfg.deviceNames.length)) l := by
  have hnone : (cfg.deviceNames.take NNAMES).find?
      (fun m => m.pre.isPrefixOf l) = none :=
    List.find?_eq_none.mpr fun m' hm' hpos =>
      h.not_device m' hm' (List.isPrefixOf_iff_prefix.mp hpos)
  unfold firstDevice table
  rw [List.take_append, List.find?_append, hnone, Option.none_or]

theorem Listed.find (h : cfg.Listed l m) :
    (cfg.prefixes ++ [cfg.anyName]).find? (fun m => m.pre.isPrefixOf l) = some m := by
  have hrows : ((cfg.prefixes ++ [cfg.anyName]).map Mapping.pre).Pairwise
      fun a b => ¬ a <+: b := by
    simp only [prefixes, root, anyName, List.cons_append, List.nil_append,
      List.map_cons, List.map_nil]
    decide
  refine find_longest _ hrows (List.mem_append_left _ h.mem) h.pre fun m' hm' hpre => ?_
  rcases List.mem_append.mp hm' with hm' | hm'
  · exact h.longest m' hm' hpre
  · rw [List.mem_singleton.mp hm']
    exact Nat.zero_le _

theorem room_iff :
    cfg.Room m ↔ (((cfg.prefixes ++ [cfg.anyName]).takeWhile (· ≠ m)).filter
      fun m => cfg.Accepts m).length < NNAMES - cfg.deviceNames.length := by
  unfold Room accepted
  omega

/-- A prefix whose file system is configured serves the name if it is mounted. -/
theorem Listed.firstDevice_of_configured
    (h : cfg.Listed l m) (hdevice : m.device ≠ SYSERR.toInt) :
    firstDevice cfg.table l = if cfg.Room m then m.device else SYSERR.toInt := by
  have haccepts : decide (cfg.Accepts m) = true :=
    decide_eq_true ((accepts_iff (List.mem_append_left _ h.mem)).mpr hdevice)
  rw [h.firstDevice_table, firstDevice, later, accepted,
    find_take_filter _ _ haccepts h.find]
  by_cases hroom : cfg.Room m
  · rw [if_pos hroom, if_pos (room_iff.mp hroom)]
    rfl
  · rw [if_neg hroom, if_neg fun hlt => hroom (room_iff.mpr hlt)]
    rfl

theorem mem_later_iff (hm : m ∈ cfg.prefixes ++ [cfg.anyName]) :
    m ∈ cfg.later.take (NNAMES - cfg.deviceNames.length) ↔ cfg.Kept m := by
  constructor
  · intro hin
    have hdevice := (later_device hin).2.1
    have haccepts : decide (cfg.Accepts m) = true :=
      decide_eq_true ((accepts_iff hm).mpr hdevice)
    exact ⟨hdevice, room_iff.mpr ((mem_take_filter _ _ haccepts hm).mp hin)⟩
  · rintro ⟨hdevice, hroom⟩
    have haccepts : decide (cfg.Accepts m) = true :=
      decide_eq_true ((accepts_iff hm).mpr hdevice)
    exact (mem_take_filter _ _ haccepts hm).mpr (room_iff.mp hroom)

/-- Only the root and the empty prefix begin other prefixes of the list. -/
theorem prefix_of_listed
    (hm' : m' ∈ cfg.prefixes ++ [cfg.anyName]) (hm : m ∈ cfg.prefixes)
    (hpre : m'.pre <+: m.pre) :
    m' = cfg.root ∨ m' = cfg.anyName ∨ m'.device = m.device := by
  simp only [prefixes, List.cons_append, List.nil_append, List.mem_cons,
    List.not_mem_nil, or_false] at hm hm'
  rcases hm' with rfl | rfl | rfl | rfl | rfl | rfl | rfl
  case inr.inr.inr.inr.inr.inl => exact Or.inl rfl
  case inr.inr.inr.inr.inr.inr => exact Or.inr (Or.inl rfl)
  all_goals
    rcases hm with rfl | rfl | rfl | rfl | rfl | rfl <;>
      first
      | exact Or.inr (Or.inr rfl)
      | exact absurd hpre (by dsimp only [root]; decide)

/-- A name of a prefix that is not mounted falls through to the root and the
empty prefix. -/
theorem Listed.firstDevice_of_unmounted
    (h : cfg.Listed l m) (hdevice : m.device = SYSERR.toInt) :
    firstDevice cfg.table l = SYSERR.toInt ↔
      ¬ cfg.Kept cfg.root ∧ ¬ cfg.Kept cfg.anyName := by
  have hroot : cfg.root ∈ cfg.prefixes ++ [cfg.anyName] := by simp [prefixes]
  have hany : cfg.anyName ∈ cfg.prefixes ++ [cfg.anyName] := by simp
  rw [h.firstDevice_table, firstDevice_later_eq_syserr]
  constructor
  · intro hnone
    refine ⟨fun hkept => ?_, fun hkept => ?_⟩
    · refine hnone _ ((mem_later_iff hroot).mpr hkept) (List.IsPrefix.trans ?_ h.pre)
      have hmem := h.mem
      simp only [prefixes, List.mem_cons, List.not_mem_nil, or_false] at hmem
      rcases hmem with rfl | rfl | rfl | rfl | rfl | rfl
      case inr.inr.inr.inr.inl => exact absurd hdevice hkept.1
      all_goals
        dsimp only [root]
        decide
    · exact hnone _ ((mem_later_iff hany).mpr hkept) (List.nil_prefix)
  · rintro ⟨hnoroot, hnoany⟩ m' hm' hpre
    obtain ⟨hrow, hne, -⟩ := later_device hm'
    have hkept := (mem_later_iff hrow).mp hm'
    have hle : m'.pre.length ≤ m.pre.length := by
      rcases List.mem_append.mp hrow with hin | hin
      · exact h.longest m' hin hpre
      · rw [List.mem_singleton.mp hin]
        exact Nat.zero_le _
    rcases prefix_of_listed hrow h.mem
      (List.prefix_of_prefix_length_le hpre h.pre hle) with rfl | rfl | heq
    · exact hnoroot hkept
    · exact hnoany hkept
    · exact hne (heq.trans hdevice)

end Devices

/-- Whether the device of the list is reached, prefix by prefix. -/
theorem Listed.reaches_iff
    {cfg : Configuration} {l : List Ch} {m : Mapping} (h : cfg.Listed l m)
    (stack tmpname newname : Str) (t : Nametab) (hl : ∀ c ∈ l, c ≠ 0) :
    cfg.Reaches (cfg.naminit stack t) tmpname newname l m.device ↔
      (m.device ≠ SYSERR.toInt → l.length < NM_MAXLEN ∧ cfg.Room m) ∧
        (m.device = SYSERR.toInt →
          NM_MAXLEN ≤ l.length ∨ ¬ cfg.Kept cfg.root ∧ ¬ cfg.Kept cfg.anyName) := by
  have hrepr : Represents (cfg.naminit stack t) cfg.table := naminit_represents stack t
  obtain ⟨new, hnew⟩ := @nammap_device _ _ _ _ cfg.NAMESPACE tmpname newname hrepr
    (ofList_holds hl) (by rw [h.firstDevice_table]; exact firstDevice_later_ne _)
  have hreaches : cfg.Reaches (cfg.naminit stack t) tmpname newname l m.device ↔
      (if l.length < NM_MAXLEN then firstDevice cfg.table l else SYSERR.toInt) =
        m.device := by
    unfold Reaches
    rw [hnew]
    constructor
    · rintro ⟨new', heq⟩
      exact (Prod.mk.inj (Option.some.inj heq)).2
    · intro heq
      exact ⟨new, by rw [heq]⟩
  rw [hreaches]
  by_cases hdevice : m.device = SYSERR.toInt
  · have hfall := h.firstDevice_of_unmounted hdevice
    by_cases hlen : l.length < NM_MAXLEN
    · rw [if_pos hlen, hdevice, hfall]
      constructor
      · exact fun hnone => ⟨fun hne => absurd rfl hne, fun _ => Or.inr hnone⟩
      · exact fun hserves => (hserves.2 rfl).resolve_left (by omega)
    · rw [if_neg hlen, hdevice]
      exact iff_of_true rfl ⟨fun hne => absurd rfl hne, fun _ => Or.inl (by omega)⟩
  · have hserved := h.firstDevice_of_configured hdevice
    constructor
    · intro heq
      refine ⟨fun _ => ?_, fun hsys => absurd hsys hdevice⟩
      by_cases hlen : l.length < NM_MAXLEN
      · rw [if_pos hlen, hserved] at heq
        refine ⟨hlen, ?_⟩
        by_contra hroom
        rw [if_neg hroom] at heq
        exact hdevice heq.symm
      · rw [if_neg hlen] at heq
        exact absurd heq.symm hdevice
    · intro hserves
      obtain ⟨hlen, hroom⟩ := hserves.1 hdevice
      rw [if_pos hlen, hserved, if_pos hroom]

theorem length_accepted_le (ms : List Mapping) :
    (cfg.accepted ms).length ≤ ms.length :=
  List.length_filter_le _ _

theorem room_of_few (hfew : cfg.devtab.length + 8 < NNAMES) (m : Mapping) :
    cfg.Room m := by
  have hnames := cfg.length_accepted_le (cfg.devtab.map deviceName ++ [cfg.nullName])
  have hothers :=
    cfg.length_accepted_le ((cfg.prefixes ++ [cfg.anyName]).takeWhile (· ≠ m))
  have hbefore := (List.takeWhile_sublist (· ≠ m)
    (l := cfg.prefixes ++ [cfg.anyName])).length_le
  have hseven : (cfg.prefixes ++ [cfg.anyName]).length = 7 := rfl
  rw [List.length_append, List.length_map, List.length_singleton] at hnames
  unfold Room deviceNames
  omega

/-- For every configuration and name, the namespace does with the name what the
list of `naminit` says, exactly when `Serves` holds. -/
theorem listed_reached_iff
    (cfg : Configuration) (stack tmpname newname : Str) (t : Nametab) (l : List Ch)
    (hl : ∀ c ∈ l, c ≠ 0) :
    (∀ m, cfg.Listed l m →
      cfg.Reaches (cfg.naminit stack t) tmpname newname l m.device) ↔
        cfg.Serves l :=
  forall_congr' fun _ => imp_congr_right fun h =>
    h.reaches_iff stack tmpname newname t hl

/-- The devices of this repository, in the order of conf.c. -/
def vboxNames : List (List Char) :=
  [['C', 'O', 'N', 'S', 'O', 'L', 'E'], ['N', 'U', 'L', 'L', 'D', 'E', 'V'],
    ['E', 'T', 'H', 'E', 'R', '0'], ['N', 'A', 'M', 'E', 'S', 'P', 'A', 'C', 'E'],
    ['R', 'D', 'I', 'S', 'K'], ['R', 'A', 'M', '0'],
    ['R', 'F', 'I', 'L', 'E', 'S', 'Y', 'S'],
    ['R', 'F', 'I', 'L', 'E', '0'], ['R', 'F', 'I', 'L', 'E', '1'],
    ['R', 'F', 'I', 'L', 'E', '2'], ['R', 'F', 'I', 'L', 'E', '3'],
    ['R', 'F', 'I', 'L', 'E', '4'], ['R', 'F', 'I', 'L', 'E', '5'],
    ['R', 'F', 'I', 'L', 'E', '6'], ['R', 'F', 'I', 'L', 'E', '7'],
    ['R', 'F', 'I', 'L', 'E', '8'], ['R', 'F', 'I', 'L', 'E', '9'],
    ['L', 'F', 'I', 'L', 'E', 'S', 'Y', 'S'],
    ['L', 'F', 'I', 'L', 'E', '0'], ['L', 'F', 'I', 'L', 'E', '1'],
    ['L', 'F', 'I', 'L', 'E', '2'], ['L', 'F', 'I', 'L', 'E', '3'],
    ['L', 'F', 'I', 'L', 'E', '4'], ['L', 'F', 'I', 'L', 'E', '5']]

theorem vboxNames_nonzero : ∀ s ∈ vboxNames, ∀ c ∈ chars s, c ≠ 0 := by
  intro s hs
  have hall : (vboxNames.all fun s => (chars s).all fun c => c.toNat != 0) = true := rfl
  exact nonzero_of_all (List.all_eq_true.mp hall s hs)

def vbox : Configuration where
  devtab := vboxNames.mapIdx fun i s => ⟨i, chars s⟩
  NULLDEV := 1
  NAMESPACE := 3
  RFILESYS := 6
  LFILESYS := 17
  dvnum_eq i := by simp
  dvname_nonzero d hd := by
    obtain ⟨i, hi, rfl⟩ := List.mem_mapIdx.mp hd
    exact vboxNames_nonzero _ (List.getElem_mem hi)
  nulldev := ⟨⟨1, by decide⟩, by decide⟩
  nam := ⟨⟨3, by decide⟩, by decide⟩
  rfilesys := Or.inr ⟨⟨6, by decide⟩, by decide⟩
  lfilesys := Or.inr ⟨⟨17, by decide⟩, by decide⟩

/-- The name `/tmp/a` reaches the local file system. -/
theorem listed_reached_iff_tmp :
    vbox.Serves (chars ['/', 't', 'm', 'p', '/', 'a']) ∧
      ∀ m, vbox.Listed (chars ['/', 't', 'm', 'p', '/', 'a']) m →
        vbox.Reaches (vbox.naminit (fun _ => 0) ⟨fun _ => ⟨fun _ => 0, fun _ => 0, 0⟩, 0⟩)
          (fun _ => 0) (fun _ => 0) (chars ['/', 't', 'm', 'p', '/', 'a']) m.device := by
  have hdev : ∀ m ∈ vbox.prefixes, m.device = SYSERR.toInt →
      ¬ m.pre <+: chars ['/', 't', 'm', 'p', '/', 'a'] := by decide
  have hserves : vbox.Serves (chars ['/', 't', 'm', 'p', '/', 'a']) := fun m h =>
    ⟨fun _ => ⟨by decide, vbox.room_of_few (by decide) m⟩, fun hsys => absurd h.pre (hdev m h.mem hsys)⟩
  exact ⟨hserves, (listed_reached_iff vbox _ _ _ _ _ (nonzero_of_all rfl)).mpr hserves⟩

/-- Nothing is mounted at `/dev/x`, and the remote file system gets the name. -/
theorem unmounted_device_name_passed :
    ¬ ∀ (cfg : Configuration) (stack tmpname newname : Str) (t : Nametab)
        (l : List Ch), (∀ c ∈ l, c ≠ 0) → ∀ m, cfg.Listed l m →
          cfg.Reaches (cfg.naminit stack t) tmpname newname l m.device := by
  intro hall
  have hl : ∀ c ∈ chars ['/', 'd', 'e', 'v', '/', 'x'], c ≠ 0 := nonzero_of_all rfl
  have hlisted : vbox.Listed (chars ['/', 'd', 'e', 'v', '/', 'x'])
      ⟨devPrefix, [], SYSERR.toInt⟩ :=
    ⟨by simp [prefixes], by decide, by decide, fun _ => by decide⟩
  have hkept : vbox.Kept vbox.root := ⟨by decide, vbox.room_of_few (by decide) _⟩
  have hcond := (hlisted.reaches_iff (fun _ => 0) (fun _ => 0) (fun _ => 0)
    ⟨fun _ => ⟨fun _ => 0, fun _ => 0, 0⟩, 0⟩ hl).mp (hall _ _ _ _ _ _ hl _ hlisted)
  rcases hcond.2 rfl with hlong | hnone
  · exact absurd hlong (by decide)
  · exact hnone.1 hkept

end Configuration

end Xinu.Namespace
