import Xinu.HeapAllocator

/-!
# The namespace

`mount` adds a prefix, a replacement and a device to the name table, and
`nammap` replaces the first prefix that matches a name, again and again, until
a device other than the namespace is reached.  Strings are as in memory: bytes
up to a null byte.  A write outside a buffer of `NM_MAXLEN` bytes gives `none`.
-/

namespace Xinu.Namespace

abbrev Ch := BitVec 8

/-- The memory from a pointer on. -/
abbrev Str := ℕ → Ch

def NM_PRELEN : ℕ := 64
def NM_REPLLEN : ℕ := 96
def NM_MAXLEN : ℕ := 256
def NNAMES : ℕ := 128
def NDEVS : ℤ := 24

def isbaddev (f : ℤ) : Bool := f < 0 || f ≥ NDEVS

structure Nmentry where
  nPrefix : Str
  nReplace : Str
  nDevice : ℤ

structure Nametab where
  nametab : ℕ → Nmentry
  nnames : ℕ

/-! ## mount.c -/

def namlenLoop (name : Str) : ℕ → ℕ → ℤ
  | 0, _ => SYSERR.toInt
  | n + 1, i => if name i = 0 then i + 1 else namlenLoop name n (i + 1)

def namlen (name : Str) (maxlen : ℕ) : ℤ := namlenLoop name maxlen 0

/-- The first `n` bytes come from `src`. -/
def copyInto (n : ℤ) (src dst : Str) : Str := fun i =>
  if (i : ℤ) < n then src i else dst i

def mount (nPrefix replace : Str) (device : ℤ) (t : Nametab) : Nametab × ℤ :=
  let psiz := namlen nPrefix NM_PRELEN
  let rsiz := namlen replace NM_REPLLEN
  if t.nnames ≥ NNAMES then (t, SYSERR.toInt)
  else if psiz = SYSERR.toInt ∨ rsiz = SYSERR.toInt ∨ isbaddev device then
    (t, SYSERR.toInt)
  else
    let e := t.nametab t.nnames
    let e : Nmentry :=
      ⟨copyInto psiz nPrefix e.nPrefix, copyInto rsiz replace e.nReplace, device⟩
    (⟨Function.update t.nametab t.nnames e, t.nnames + 1⟩, OK.toInt)

/-! ## nammap.c -/

/-- `*nptr++ = *optr++`, `n` times, into a name buffer. -/
def copyLoop : ℕ → Str → ℕ → Str → ℕ → Option Str
  | 0, _, _, new, _ => some new
  | n + 1, old, optr, new, nptr =>
      if nptr < NM_MAXLEN then
        copyLoop n old (optr + 1) (Function.update new nptr (old optr)) (nptr + 1)
      else none

def namcpyLoop : ℕ → Str → Str → ℕ → Str × ℤ
  | 0, new, _, _ => (new, SYSERR.toInt)
  | n + 1, new, old, i =>
      let new := Function.update new i (old i)
      if old i = 0 then (new, OK.toInt) else namcpyLoop n new old (i + 1)

def namcpy (new old : Str) (buflen : ℕ) : Str × ℤ := namcpyLoop buflen new old 0

/-- The loop that compares a prefix and gives its length if it matches; a
prefix in the table ends within `NM_PRELEN` bytes. -/
def prefixLoop (pptr optr : Str) : ℕ → ℕ → Option ℕ
  | 0, _ => none
  | n + 1, plen =>
      if pptr plen = 0 then some plen
      else if pptr plen ≠ optr plen then none
      else prefixLoop pptr optr n (plen + 1)

/-- The conversion of an `int32` to a `char`, which is signed. -/
def toChar (x : ℤ) : ℤ := x.bmod (2 ^ 8)

/-- The search of `namrepl` from entry `i` on. -/
def namreplLoop (t : Nametab) (name newname : Str) : ℕ → ℕ → Option (Str × ℤ)
  | 0, _ => some (newname, SYSERR.toInt)
  | n + 1, i =>
      match prefixLoop (t.nametab i).nPrefix name NM_PRELEN 0 with
      | none => namreplLoop t name newname n (i + 1)
      | some plen =>
          let olen := toChar (namlen name NM_MAXLEN)
          let rlen := namlen (t.nametab i).nReplace NM_MAXLEN - 1
          let remain := olen - plen
          if rlen + remain > NM_MAXLEN then some (newname, SYSERR.toInt)
          else
            (copyLoop rlen.toNat (t.nametab i).nReplace 0 newname 0).bind
              fun newname =>
                (copyLoop remain.toNat name plen newname rlen.toNat).map
                  fun newname => (newname, (t.nametab i).nDevice)

def namrepl (t : Nametab) (name newname : Str) : Option (Str × ℤ) :=
  namreplLoop t name newname t.nnames 0

def nammapLoop (t : Nametab) (namdev : ℤ) :
    ℕ → Str → Str → Option (Str × ℤ)
  | 0, _, newname => some (newname, SYSERR.toInt)
  | n + 1, tmpname, newname =>
      (namrepl t tmpname newname).bind fun (newname, newdev) =>
        if newdev ≠ namdev then some (newname, newdev)
        else nammapLoop t namdev n (namcpy tmpname newname NM_MAXLEN).1 newname

/-- `nammap`, with what the buffer on the stack holds before the call. -/
def nammap (t : Nametab) (tmpname name newname : Str) (namdev : ℤ) :
    Option (Str × ℤ) :=
  if (namcpy tmpname name NM_MAXLEN).2 = SYSERR.toInt then
    some (newname, SYSERR.toInt)
  else nammapLoop t namdev t.nnames (namcpy tmpname name NM_MAXLEN).1 newname

/-! ## What the namespace is for -/

structure Mapping where
  pre : List Ch
  replacement : List Ch
  device : ℤ
  deriving DecidableEq

/-- Replace the first prefix that matches, unless the new name is too long. -/
def rewrite (ms : List Mapping) (name : List Ch) : Option (List Ch × ℤ) :=
  match ms.find? fun m => m.pre.isPrefixOf name with
  | none => none
  | some m =>
      if (m.replacement ++ name.drop m.pre.length).length < NM_MAXLEN then
        some (m.replacement ++ name.drop m.pre.length, m.device)
      else none

/-- At most `n` replacements. -/
def resolve (ms : List Mapping) (namdev : ℤ) : ℕ → List Ch → Option (List Ch × ℤ)
  | 0, _ => none
  | n + 1, name =>
      match rewrite ms name with
      | none => none
      | some (new, device) =>
          if device ≠ namdev then some (new, device) else resolve ms namdev n new

structure Holds (s : Str) (l : List Ch) : Prop where
  chars : ∀ k (hk : k < l.length), s k = l.get ⟨k, hk⟩
  null : s l.length = 0
  nonzero : ∀ c ∈ l, c ≠ 0

/-- The tables that successful calls of `mount` build, with the mappings they
stand for. -/
inductive Mounted : Nametab → List Mapping → Prop
  | empty (nametab : ℕ → Nmentry) : Mounted ⟨nametab, 0⟩ []
  | mount {t t' : Nametab} {ms : List Mapping} {m : Mapping}
      {nPrefix replace : Str} (hmounted : Mounted t ms)
      (hstart : Holds nPrefix m.pre) (hreplace : Holds replace m.replacement)
      (hmount : mount nPrefix replace m.device t = (t', OK.toInt)) :
      Mounted t' (ms ++ [m])

/-- The result that is due, in the caller's buffer. -/
def Yields (r : Option (Str × ℤ)) : Option (List Ch × ℤ) → Prop
  | none => ∃ newname, r = some (newname, SYSERR.toInt)
  | some (new, device) => device ≠ SYSERR.toInt ∧
      ∃ newname, r = some (newname, device) ∧ Holds newname new

/-- Every name whose prefix is replaced fits, with its null byte, a `char`. -/
def Short (ms : List Mapping) (namdev : ℤ) : ℕ → List Ch → Prop
  | 0, _ => True
  | n + 1, name =>
      ((∃ m ∈ ms, m.pre <+: name) → name.length < 127) ∧
        ∀ new, rewrite ms name = some (new, namdev) → Short ms namdev n new

/-! ## Strings in memory -/

section Strings

variable {s s' : Str} {l p : List Ch} {n : ℕ}

theorem Holds.zero_iff (h : Holds s l) {k : ℕ} (hk : k ≤ l.length) :
    s k = 0 ↔ k = l.length := by
  constructor
  · intro hzero
    by_contra hne
    have hlt : k < l.length := by omega
    rw [h.chars k hlt] at hzero
    exact h.nonzero _ (List.get_mem l ⟨k, hlt⟩) hzero
  · rintro rfl
    exact h.null

theorem Holds.congr (h : Holds s l) (heq : ∀ k ≤ l.length, s' k = s k) :
    Holds s' l where
  chars k hk := (heq k hk.le).trans (h.chars k hk)
  null := (heq _ le_rfl).trans h.null
  nonzero := h.nonzero

theorem namlenLoop_spec (h : Holds s l) (k : ℕ) (hk : k ≤ l.length) :
    namlenLoop s n k =
      if l.length < k + n then (l.length : ℤ) + 1 else SYSERR.toInt := by
  induction n generalizing k with
  | zero => rw [namlenLoop, if_neg (by omega)]
  | succ n ih =>
      rw [namlenLoop]
      by_cases hend : s k = 0
      · have hlast := (h.zero_iff hk).mp hend
        rw [if_pos hend, if_pos (by omega), hlast]
      · have hne : k ≠ l.length := fun heq => hend ((h.zero_iff hk).mpr heq)
        rw [if_neg hend, ih (k + 1) (by omega)]
        congr 1
        rw [Nat.add_right_comm, Nat.add_assoc]

theorem namlen_spec (h : Holds s l) (maxlen : ℕ) :
    namlen s maxlen = if l.length < maxlen then (l.length : ℤ) + 1
      else SYSERR.toInt := by
  rw [namlen, namlenLoop_spec h 0 (Nat.zero_le _), Nat.zero_add]

/-- The comparison goes on as long as prefix and name agree. -/
theorem prefixLoop_spec
    (hp : Holds s p) (hl : Holds s' l) (k : ℕ) (hk : k ≤ p.length)
    (hkl : k ≤ l.length) (hagree : p.take k = l.take k) (hn : p.length < k + n) :
    prefixLoop s s' n k = if p <+: l then some p.length else none := by
  induction n generalizing k with
  | zero => omega
  | succ n ih =>
      rw [prefixLoop]
      by_cases hend : s k = 0
      · have hlast := (hp.zero_iff hk).mp hend
        have hpre : p <+: l := by
          rw [List.prefix_iff_eq_take, ← hlast, ← hagree, hlast, List.take_length]
        rw [if_pos hend, if_pos hpre, hlast]
      · have hlt : k < p.length :=
          lt_of_le_of_ne hk fun heq => hend ((hp.zero_iff hk).mpr heq)
        rw [if_neg hend]
        by_cases hsame : s k = s' k
        · have hltl : k < l.length := by
            refine lt_of_le_of_ne hkl fun heq => hend ?_
            rw [hsame]
            exact (hl.zero_iff hkl).mpr heq
          rw [if_neg (not_not.mpr hsame)]
          refine ih (k + 1) hlt hltl ?_ (by omega)
          rw [List.take_succ_eq_append_getElem hlt,
            List.take_succ_eq_append_getElem hltl, hagree]
          have hchar := hp.chars k hlt
          rw [hsame, hl.chars k hltl] at hchar
          rw [List.get_eq_getElem, List.get_eq_getElem] at hchar
          rw [hchar]
        · have hno : ¬ p <+: l := by
            intro hpre
            apply hsame
            have hltl : k < l.length := hlt.trans_le hpre.length_le
            rw [hp.chars k hlt, hl.chars k hltl]
            exact hpre.getElem hlt
          rw [if_pos hsame, if_neg hno]

theorem copyLoop_spec
    (old new : Str) (optr nptr : ℕ) (hfit : nptr + n ≤ NM_MAXLEN) :
    copyLoop n old optr new nptr = some fun k =>
      if nptr ≤ k ∧ k < nptr + n then old (optr + (k - nptr)) else new k := by
  induction n generalizing optr new nptr with
  | zero =>
      rw [copyLoop]
      congr 1
      funext k
      rw [if_neg (by omega)]
  | succ n ih =>
      rw [copyLoop, if_pos (by omega), ih _ _ _ (by omega)]
      congr 1
      funext k
      by_cases hfirst : k = nptr
      · subst hfirst
        rw [if_neg (by omega), if_pos (by omega), Function.update_self,
          Nat.sub_self, Nat.add_zero]
      · rw [Function.update_of_ne hfirst]
        by_cases hin : nptr + 1 ≤ k ∧ k < nptr + 1 + n
        · rw [if_pos hin, if_pos (by omega),
            show optr + 1 + (k - (nptr + 1)) = optr + (k - nptr) by omega]
        · rw [if_neg hin, if_neg (by omega)]

theorem namcpyLoop_spec
    (new : Str) (h : Holds s l) (k : ℕ) (hk : k ≤ l.length)
    (hdone : ∀ j < k, new j = s j) (hn : l.length < k + n) :
    (namcpyLoop n new s k).2 = OK.toInt ∧ Holds (namcpyLoop n new s k).1 l := by
  induction n generalizing new k with
  | zero => omega
  | succ n ih =>
      have hnext : ∀ j < k + 1, Function.update new k (s k) j = s j := by
        intro j hj
        by_cases hlast : j = k
        · rw [hlast, Function.update_self]
        · rw [Function.update_of_ne hlast]
          exact hdone j (by omega)
      rw [namcpyLoop]
      by_cases hend : s k = 0
      · have hlast := (h.zero_iff hk).mp hend
        rw [if_pos hend]
        exact ⟨rfl, h.congr fun j hj => hnext j (by omega)⟩
      · have hne : k ≠ l.length := fun heq => hend ((h.zero_iff hk).mpr heq)
        rw [if_neg hend]
        exact ih _ (k + 1) (by omega) hnext (by omega)

theorem namcpy_spec (new : Str) (h : Holds s l) (hlen : l.length < NM_MAXLEN) :
    (namcpy new s NM_MAXLEN).2 = OK.toInt ∧
      Holds (namcpy new s NM_MAXLEN).1 l :=
  namcpyLoop_spec new h 0 (Nat.zero_le _) (by simp) (by omega)

end Strings

/-! ## The table -/

structure Mapping.StoredIn (m : Mapping) (e : Nmentry) : Prop where
  nPrefix : Holds e.nPrefix m.pre
  nReplace : Holds e.nReplace m.replacement
  nDevice : e.nDevice = m.device
  prefix_lt : m.pre.length < NM_PRELEN
  replace_lt : m.replacement.length < NM_REPLLEN
  device_nonneg : 0 ≤ m.device

structure Represents (t : Nametab) (ms : List Mapping) : Prop where
  nnames : t.nnames = ms.length
  entry : ∀ i (hi : i < ms.length), (ms.get ⟨i, hi⟩).StoredIn (t.nametab i)

section Table

variable {t t' : Nametab} {ms : List Mapping} {m : Mapping} {l : List Ch}
  {name newname tmpname : Str} {namdev : ℤ}

theorem storedIn_copyInto
    {nPrefix replace : Str} (hstart : Holds nPrefix m.pre)
    (hreplace : Holds replace m.replacement) (hpre : m.pre.length < NM_PRELEN)
    (hrepl : m.replacement.length < NM_REPLLEN) (hdevice : 0 ≤ m.device)
    (e : Nmentry) :
    m.StoredIn ⟨copyInto ((m.pre.length : ℤ) + 1) nPrefix e.nPrefix,
      copyInto ((m.replacement.length : ℤ) + 1) replace e.nReplace, m.device⟩ :=
  ⟨hstart.congr fun k hk => if_pos (by omega),
    hreplace.congr fun k hk => if_pos (by omega), rfl, hpre, hrepl, hdevice⟩

/-- The table with a mapping stored in its next entry. -/
theorem Represents.append
    {e : Nmentry} (h : Represents t ms) (hnew : m.StoredIn e) :
    Represents ⟨Function.update t.nametab t.nnames e, t.nnames + 1⟩ (ms ++ [m]) := by
  have hlast : t.nnames = ms.length := h.nnames
  refine ⟨?_, fun i hi => ?_⟩
  · show t.nnames + 1 = (ms ++ [m]).length
    rw [hlast, List.length_append, List.length_singleton]
  · rw [List.length_append, List.length_singleton] at hi
    by_cases hi' : i = ms.length
    · subst hi'
      have hentry : (ms ++ [m]).get ⟨ms.length, by simp⟩ = m := by simp
      dsimp only
      rw [hentry, hlast, Function.update_self]
      exact hnew
    · have hold := h.entry i (by omega)
      dsimp only
      rw [Function.update_of_ne (by omega)]
      simpa [List.getElem_append_left (show i < ms.length by omega)] using hold

theorem Represents.mount
    {nPrefix replace : Str} (h : Represents t ms) (hstart : Holds nPrefix m.pre)
    (hreplace : Holds replace m.replacement)
    (hmount : mount nPrefix replace m.device t = (t', OK.toInt)) :
    Represents t' (ms ++ [m]) := by
  have hok : SYSERR.toInt ≠ OK.toInt := by decide
  unfold Namespace.mount at hmount
  dsimp only at hmount
  split_ifs at hmount with hfull hbad
  · exact absurd (Prod.mk.inj hmount).2 hok
  · exact absurd (Prod.mk.inj hmount).2 hok
  rw [namlen_spec hstart, namlen_spec hreplace] at hbad hmount
  push Not at hbad
  obtain ⟨hpsiz, hrsiz, hdevice⟩ := hbad
  rw [ne_eq, ite_eq_right_iff, Classical.not_imp] at hpsiz hrsiz
  rw [if_pos hpsiz.1, if_pos hrsiz.1] at hmount
  obtain ⟨rfl, -⟩ := Prod.mk.inj hmount
  have hnonneg : 0 ≤ m.device := by
    by_contra hneg
    apply hdevice
    unfold isbaddev
    rw [Bool.or_eq_true]
    exact Or.inl (decide_eq_true (by omega))
  exact h.append (storedIn_copyInto hstart hreplace hpsiz.1 hrsiz.1 hnonneg _)

theorem Mounted.represents (h : Mounted t ms) : Represents t ms := by
  induction h with
  | empty nametab => exact ⟨rfl, fun i hi => absurd hi (Nat.not_lt_zero i)⟩
  | mount _ hstart hreplace hmount ih => exact ih.mount hstart hreplace hmount

theorem toChar_of_lt {n : ℕ} (hn : n < 127) : toChar ((n : ℤ) + 1) = n + 1 := by
  unfold toChar
  rw [Int.bmod_def]
  split_ifs <;> omega

/-- Replacement and remainder, copied one behind the other. -/
theorem copy_holds
    {e : Nmentry} (newname : Str) (hm : m.StoredIn e) (hl : Holds name l) (hpre : m.pre <+: l)
    (hfit : (m.replacement ++ l.drop m.pre.length).length < NM_MAXLEN) :
    ∃ new, ((copyLoop m.replacement.length e.nReplace 0 newname 0).bind
        fun newname => (copyLoop (l.length + 1 - m.pre.length) name m.pre.length
          newname m.replacement.length).map fun newname =>
            (newname, e.nDevice)) = some (new, m.device) ∧
      Holds new (m.replacement ++ l.drop m.pre.length) := by
  have hle := hpre.length_le
  rw [List.length_append, List.length_drop] at hfit
  rw [copyLoop_spec _ _ _ _ (by omega), Option.bind_some,
    copyLoop_spec _ _ _ _ (by omega), Option.map_some, hm.nDevice]
  refine ⟨_, rfl, ?_, ?_, ?_⟩
  · intro k hk
    rw [List.length_append, List.length_drop] at hk
    by_cases hfirst : k < m.replacement.length
    · rw [if_neg (by omega), if_pos (by omega)]
      have hchar := hm.nReplace.chars k hfirst
      simpa [List.getElem_append_left hfirst] using hchar
    · rw [if_pos (by omega)]
      have hchar := hl.chars (m.pre.length + (k - m.replacement.length)) (by omega)
      rw [hchar]
      simp [List.getElem_append_right (Nat.not_lt.mp hfirst)]
  · rw [List.length_append, List.length_drop, if_pos (by omega)]
    have hend : m.pre.length + (m.replacement.length + (l.length - m.pre.length) -
        m.replacement.length) = l.length := by omega
    rw [hend]
    exact hl.null
  · intro c hc
    rcases List.mem_append.mp hc with hc | hc
    · exact hm.nReplace.nonzero c hc
    · exact hl.nonzero c (List.mem_of_mem_drop hc)

theorem namreplLoop_spec
    (h : Represents t ms) (hl : Holds name l) (hlen : l.length < NM_MAXLEN)
    (hshort : (∃ m ∈ ms, m.pre <+: l) → l.length < 127)
    (n i : ℕ) (hi : i + n = ms.length) :
    Yields (namreplLoop t name newname n i) (rewrite (ms.drop i) l) := by
  induction n generalizing i with
  | zero =>
      rw [List.drop_eq_nil_of_le (by omega)]
      exact ⟨newname, rfl⟩
  | succ n ih =>
      have hlt : i < ms.length := by omega
      have hm : ms[i].StoredIn (t.nametab i) := h.entry i hlt
      have hstart : prefixLoop (t.nametab i).nPrefix name NM_PRELEN 0 =
          if ms[i].pre <+: l then some ms[i].pre.length else none :=
        prefixLoop_spec hm.nPrefix hl 0 (Nat.zero_le _) (Nat.zero_le _) rfl
          (by have := hm.prefix_lt; omega)
      rw [namreplLoop, hstart, List.drop_eq_getElem_cons hlt]
      by_cases hpre : ms[i].pre <+: l
      · have hfind : (ms[i] :: ms.drop (i + 1)).find?
            (fun m => m.pre.isPrefixOf l) = some ms[i] :=
          List.find?_cons_of_pos (List.isPrefixOf_iff_prefix.mpr hpre)
        have hsmall := hshort ⟨ms[i], List.getElem_mem hlt, hpre⟩
        have hrlt := hm.replace_lt
        have hle := hpre.length_le
        unfold NM_MAXLEN at hlen
        unfold NM_REPLLEN at hrlt
        have hnew : (ms[i].replacement ++ l.drop ms[i].pre.length).length =
            ms[i].replacement.length + (l.length - ms[i].pre.length) := by
          rw [List.length_append, List.length_drop]
        rw [if_pos hpre]
        dsimp only
        rw [namlen_spec hl, namlen_spec hm.nReplace,
          if_pos (show l.length < NM_MAXLEN from hlen),
          if_pos (show ms[i].replacement.length < NM_MAXLEN by
            unfold NM_MAXLEN; omega),
          toChar_of_lt hsmall, rewrite, hfind]
        dsimp only
        by_cases hfit : (ms[i].replacement ++
            l.drop ms[i].pre.length).length < NM_MAXLEN
        · obtain ⟨new, hcopy, hholds⟩ := copy_holds newname hm hl hpre hfit
          have hrlen : ((ms[i].replacement.length : ℤ) + 1 - 1).toNat =
              ms[i].replacement.length := by omega
          have hremain : ((l.length : ℤ) + 1 - ms[i].pre.length).toNat =
              l.length + 1 - ms[i].pre.length := by omega
          rw [if_neg (by rw [hnew] at hfit; omega), if_pos hfit, hrlen, hremain,
            hcopy]
          have hnonneg := hm.device_nonneg
          exact ⟨by rw [show SYSERR.toInt = -1 from rfl]; omega, new, rfl, hholds⟩
        · rw [if_pos (by rw [hnew] at hfit; omega), if_neg hfit]
          exact ⟨newname, rfl⟩
      · have hfind : rewrite (ms[i] :: ms.drop (i + 1)) l =
            rewrite (ms.drop (i + 1)) l := by
          have hskip : (ms[i] :: ms.drop (i + 1)).find?
              (fun m => m.pre.isPrefixOf l) =
                (ms.drop (i + 1)).find? fun m => m.pre.isPrefixOf l :=
            List.find?_cons_of_neg fun hpos =>
              hpre (List.isPrefixOf_iff_prefix.mp hpos)
          rw [rewrite, hskip, rewrite]
        rw [if_neg hpre, hfind]
        exact ih (i + 1) (by omega)

theorem nammapLoop_spec
    (h : Represents t ms) (hdev : 0 ≤ namdev) (n : ℕ) (hl : Holds tmpname l)
    (hlen : l.length < NM_MAXLEN) (hshort : Short ms namdev n l) :
    Yields (nammapLoop t namdev n tmpname newname) (resolve ms namdev n l) := by
  induction n generalizing tmpname newname l with
  | zero => exact ⟨newname, rfl⟩
  | succ n ih =>
      have hrepl : Yields (namrepl t tmpname newname) (rewrite ms l) :=
        namreplLoop_spec h hl hlen hshort.1 t.nnames 0 (by rw [h.nnames]; omega)
      rw [nammapLoop, resolve]
      cases hrewrite : rewrite ms l with
      | none =>
          rw [hrewrite] at hrepl
          obtain ⟨new, hnew⟩ := hrepl
          have hother : SYSERR.toInt ≠ namdev := by
            rw [show SYSERR.toInt = -1 from rfl]
            omega
          rw [hnew, Option.bind_some]
          exact ⟨new, if_pos hother⟩
      | some r =>
          obtain ⟨new, device⟩ := r
          rw [hrewrite] at hrepl
          obtain ⟨hne, mapped, hmapped, hholds⟩ := hrepl
          rw [hmapped, Option.bind_some]
          dsimp only
          by_cases hdevice : device ≠ namdev
          · rw [if_pos hdevice, if_pos hdevice]
            exact ⟨hne, mapped, rfl, hholds⟩
          · rw [if_neg hdevice, if_neg hdevice]
            have hfits : new.length < NM_MAXLEN := by
              unfold rewrite at hrewrite
              split at hrewrite
              · contradiction
              · split_ifs at hrewrite with hfit
                cases hrewrite
                exact hfit
            rw [not_not] at hdevice
            subst hdevice
            exact ih (namcpy_spec tmpname hholds hfits).2 hfits
              (hshort.2 new hrewrite)

end Table

/-- For a table that `mount` has built and names that fit a `char` wherever a
prefix is replaced, `nammap` replaces prefixes until it leaves the namespace. -/
theorem nammap_resolves
    {t : Nametab} {ms : List Mapping} {l : List Ch} {name : Str} {namdev : ℤ}
    (tmpname newname : Str) (hmounted : Mounted t ms) (hname : Holds name l)
    (hlen : l.length ≤ 255) (hdev : 0 ≤ namdev)
    (hshort : Short ms namdev ms.length l) :
    Yields (nammap t tmpname name newname namdev)
      (resolve ms namdev ms.length l) := by
  have h := hmounted.represents
  have hlt : l.length < NM_MAXLEN := by
    unfold NM_MAXLEN
    omega
  obtain ⟨hok, hholds⟩ := namcpy_spec tmpname hname hlt
  unfold nammap
  rw [if_neg (by rw [hok]; decide), h.nnames]
  exact nammapLoop_spec h hdev ms.length hholds hlt hshort

/-! ## Two tables -/

def ofList (l : List Ch) : Str := fun k => l.getD k 0

theorem ofList_holds {l : List Ch} (hl : ∀ c ∈ l, c ≠ 0) : Holds (ofList l) l where
  chars k hk := by simp [ofList, hk]
  null := by simp [ofList]
  nonzero := hl

/-- The test for null bytes on their numbers, which evaluates faster. -/
theorem nonzero_of_all {l : List Ch} (h : (l.all fun c => c.toNat != 0) = true) :
    ∀ c ∈ l, c ≠ 0 := by
  rintro c hc rfl
  exact absurd (List.all_eq_true.mp h 0 hc) (by decide)

/-- The table after one call of `mount`. -/
def mounted (m : Mapping) : Nametab :=
  (mount (ofList m.pre) (ofList m.replacement) m.device
    ⟨fun _ => ⟨fun _ => 0, fun _ => 0, 0⟩, 0⟩).1

theorem mounted_mounted
    {m : Mapping} (hpre : ∀ c ∈ m.pre, c ≠ 0) (hrepl : ∀ c ∈ m.replacement, c ≠ 0)
    (hok : (mount (ofList m.pre) (ofList m.replacement) m.device
      ⟨fun _ => ⟨fun _ => 0, fun _ => 0, 0⟩, 0⟩).2 = OK.toInt) :
    Mounted (mounted m) [m] :=
  .mount (.empty _) (ofList_holds hpre) (ofList_holds hrepl) (Prod.ext rfl hok)

/-- `/tmp/` stands for `tmp-` on device 5. -/
def tmpMapping : Mapping :=
  ⟨[0x2f, 0x74, 0x6d, 0x70, 0x2f], [0x74, 0x6d, 0x70, 0x2d], 5⟩

/-- The name `/tmp/a` becomes `tmp-a`. -/
theorem nammap_resolves_tmp :
    Yields (nammap (mounted tmpMapping) (fun _ => 0)
      (ofList [0x2f, 0x74, 0x6d, 0x70, 0x2f, 0x61]) (fun _ => 0) 3)
        (some ([0x74, 0x6d, 0x70, 0x2d, 0x61], 5)) :=
  nammap_resolves _ _
    (mounted_mounted (m := tmpMapping) (nonzero_of_all rfl) (nonzero_of_all rfl)
      (by decide))
    (ofList_holds (nonzero_of_all rfl)) (by decide) (by decide)
    ⟨fun _ => by decide, fun _ _ => trivial⟩

/-- A name of 127 characters under the empty prefix: its length with the null
byte is negative as a `char`, and nothing of it is copied. -/
theorem long_name_lost :
    ∃ t ms l newname, Mounted t ms ∧ l.length ≤ 255 ∧ Holds (ofList l) l ∧
      ¬ Yields (nammap t (fun _ => 0) (ofList l) newname 3)
        (resolve ms 3 ms.length l) := by
  have hchars : ∀ c ∈ List.replicate 127 (0x61 : Ch), c ≠ 0 := by
    intro c hc
    rw [List.eq_of_mem_replicate hc]
    decide
  refine ⟨mounted ⟨[], [], 5⟩, [⟨[], [], 5⟩], List.replicate 127 0x61, fun _ => 0,
    mounted_mounted (by decide) (by decide) (by decide), by simp,
    ofList_holds hchars, ?_⟩
  have hresolve : ∀ l : List Ch, l.length < NM_MAXLEN →
      resolve [⟨[], [], 5⟩] 3 1 l = some (l, 5) := by
    intro l hl
    simp [resolve, rewrite, hl]
  have hview : (nammap (mounted ⟨[], [], 5⟩) (fun _ => 0)
      (ofList (List.replicate 127 0x61)) (fun _ => 0) 3).map (fun r => r.1 0) =
        some 0 := by
    decide +kernel
  rw [show [(⟨[], [], 5⟩ : Mapping)].length = 1 from rfl,
    hresolve _ (by rw [List.length_replicate]; decide)]
  rintro ⟨-, new, hnew, hholds⟩
  rw [hnew, Option.map_some, Option.some.injEq] at hview
  have hfirst := hholds.chars 0 (by simp)
  have hzero : new 0 = 0 := hview
  rw [hzero, List.get_eq_getElem, List.getElem_replicate] at hfirst
  exact absurd hfirst (by decide)

end Xinu.Namespace
