import Xinu.UdpClients

/-!
# Responses of a name server

`dns_getrname` and `dns_geta` on the bytes of a received message.  A run ends
without a result at the first read behind the message or the first write
beside `rname`, and when its fuel does not suffice.
-/

namespace Xinu.Dns

open ByteMemory Tftp UdpClients

/-- The received bytes, the header included. -/
abbrev Packet := List Octet

/-- The offset of `data`. -/
def DATA : ℕ := 12

def RNAMESIZ : ℕ := 1024
def DNS_QT_A : BitVec 16 := 1
def DOT : Octet := 0x2e

/-- The fields of `NetData` that a choice of addresses depends on. -/
structure Subnet where
  ipmask : Word
  ipprefix : Word

section Decoders

variable (pkt : Packet)

/-- `memcpy` and `ntohs`. -/
def read16 (i : ℕ) : Option (BitVec 16) := do
  let hi ← pkt[i]?
  let lo ← pkt[i + 1]?
  return hi ++ lo

def read32 (i : ℕ) : Option Word := do
  let hi ← read16 pkt i
  let lo ← read16 pkt (i + 2)
  return hi ++ lo

/-- `*dst = c` for a place in `rname`. -/
def store (rname : Buffer) (dst : ℕ) (c : Octet) : Option Buffer :=
  if dst < RNAMESIZ then some (Function.update rname dst c) else none

/-! ## dns_getrname -/

/-- The loop over the characters of a label. -/
def copyLabel : ℕ → ℕ → ℕ → Buffer → Option Buffer
  | 0, _, _, rname => some rname
  | n + 1, son, dst, rname => do
      let c ← pkt[son]?
      let rname ← store rname dst c
      copyLabel n (son + 1) (dst + 1) rname

/-- Where a pointer of two bytes leads. -/
def pointerOffset (hi lo : Octet) : ℕ := ((hi ++ lo : BitVec 16) &&& 0x3fff).toNat

/-- The loop over the labels, with `son` behind the length byte `llen`. -/
def getrnameLoop : ℕ → Octet → ℕ → ℕ → Buffer → Option (ℕ × Buffer)
  | 0, _, _, _, _ => none
  | fuel + 1, llen, son, dst, rname =>
      if llen = 0 then
        -- an empty name writes in front of the buffer
        if dst = 0 then none
        else do
          let rname ← store rname (dst - 1) 0
          return (son, rname)
      else if llen.toNat ≤ 63 then do
        let rname ← copyLabel pkt llen.toNat son dst rname
        let rname ← store rname (dst + llen.toNat) DOT
        let next ← pkt[son + llen.toNat]?
        getrnameLoop fuel next (son + llen.toNat + 1) (dst + llen.toNat + 1) rname
      else do
        let hi ← pkt[son - 1]?
        let lo ← pkt[son]?
        let offset := pointerOffset hi lo
        -- `dns_getrname(sop, sop+offset, dst)`
        let first ← pkt[offset]?
        let (_, rname) ← getrnameLoop fuel first (offset + 1) dst rname
        return (son + 1, rname)

/-- The number of bytes of the name at `son`, and the buffer. -/
def dnsGetrname (fuel son : ℕ) (rname : Buffer) : Option (ℕ × Buffer) := do
  let llen ← pkt[son]?
  let (stop, rname) ← getrnameLoop pkt fuel llen (son + 1) 0 rname
  return (stop - son, rname)

/-! ## dns_geta -/

/-- The loop that skips the labels of a question. -/
def skipLabels : ℕ → Octet → ℕ → Option (Octet × ℕ)
  | 0, _, _ => none
  | fuel + 1, llen, dptr =>
      if llen = 0 then some (llen, dptr)
      else if 63 < llen.toNat then some (llen, dptr + 2)
      else do
        let next ← pkt[dptr + (llen.toNat + 1)]?
        skipLabels fuel next (dptr + (llen.toNat + 1))

def skipQuestion (fuel dptr : ℕ) : Option ℕ := do
  let llen ← pkt[dptr]?
  let (llen, dptr) ← skipLabels pkt fuel llen dptr
  let dptr := if llen = 0 then dptr + 1 else dptr
  return dptr + (2 + 2)

def skipQuestions (fuel : ℕ) : ℕ → ℕ → Option ℕ
  | 0, dptr => some dptr
  | n + 1, dptr => do
      let dptr ← skipQuestion pkt fuel dptr
      skipQuestions fuel n dptr

/-- `strncmp(dname, rname, strlen(dname)) == 0`. -/
def strncmpEq : List Octet → Buffer → ℕ → Bool
  | [], _, _ => true
  | c :: dname, rname, i => rname i = c && strncmpEq dname rname (i + 1)

/-- The address that the record at `dptr` leaves in `ipaddr`. -/
def pickAddr (nd : Subnet) (dname : List Octet) (rname : Buffer) (dptr : ℕ)
    (ipaddr : Word) : Option Word := do
  let tmptype ← read16 pkt dptr
  if strncmpEq dname rname 0 && tmptype = DNS_QT_A then do
    let tmpip ← read32 pkt (dptr + 10)
    return if ipaddr = 0 ∨ nd.ipmask &&& tmpip = nd.ipprefix then tmpip else ipaddr
  else return ipaddr

def answers (nd : Subnet) (dname : List Octet) (fuel : ℕ) :
    ℕ → ℕ → Word → Buffer → Option Word
  | 0, _, ipaddr, _ => some ipaddr
  | n + 1, dptr, ipaddr, rname => do
      let (namlen, rname) ← dnsGetrname pkt fuel dptr rname
      let dptr := dptr + namlen
      let ipaddr ← pickAddr pkt nd dname rname dptr ipaddr
      let dptr := dptr + 8
      let tmplen ← read16 pkt dptr
      answers nd dname fuel n (dptr + (tmplen.toNat + 2)) ipaddr rname

/-- The address in network order, or `none` for `SYSERR`. -/
def dnsGeta (fuel : ℕ) (nd : Subnet) (dname : List Octet) (rname : Buffer) :
    Option (Option Word) := do
  let qcount ← read16 pkt 4
  let dptr ← skipQuestions pkt fuel qcount.toNat DATA
  let acount ← read16 pkt 6
  let ipaddr ← answers pkt nd dname fuel acount.toNat dptr 0 rname
  return if ipaddr ≠ 0 then some ipaddr else none

end Decoders

/-! ## Well-formed responses -/

/-- A name at `p` whose bytes there end at `q`.  The labels that a pointer
leads to are labels of the name. -/
inductive Name (pkt : Packet) : ℕ → ℕ → List (List Octet) → Prop
  | root {p : ℕ} (hbyte : pkt[p]? = some 0) : Name pkt p (p + 1) []
  | label {p q : ℕ} {n : Octet} {labels : List (List Octet)}
      (hbyte : pkt[p]? = some n) (hpos : n ≠ 0) (hlen : n.toNat ≤ 63)
      (hrest : Name pkt (p + n.toNat + 1) q labels) :
      Name pkt p q ((pkt.drop (p + 1)).take n.toNat :: labels)
  | pointer {p q : ℕ} {hi lo : Octet} {labels : List (List Octet)}
      (hbyte : pkt[p]? = some hi) (hbig : 63 < hi.toNat)
      (hnext : pkt[p + 1]? = some lo)
      (hrest : Name pkt (pointerOffset hi lo) q labels) :
      Name pkt p (p + 2) labels

/-- The characters of a name, each label with its dot. -/
def spell (labels : List (List Octet)) : List Octet :=
  labels.flatMap (· ++ [DOT])

/-- The bytes of a name in a question. -/
inductive QuestionName (pkt : Packet) : ℕ → ℕ → Prop
  | root {p : ℕ} (hbyte : pkt[p]? = some 0) : QuestionName pkt p (p + 1)
  | pointer {p : ℕ} {n : Octet} (hbyte : pkt[p]? = some n)
      (hbig : 63 < n.toNat) : QuestionName pkt p (p + 2)
  | label {p q : ℕ} {n : Octet} (hbyte : pkt[p]? = some n) (hpos : n ≠ 0)
      (hlen : n.toNat ≤ 63) (hrest : QuestionName pkt (p + (n.toNat + 1)) q) :
      QuestionName pkt p q

inductive Questions (pkt : Packet) : ℕ → ℕ → ℕ → Prop
  | none {p : ℕ} : Questions pkt 0 p p
  | more {n p q r : ℕ} (hname : QuestionName pkt p q)
      (hrest : Questions pkt n (q + 4) r) : Questions pkt (n + 1) p r

/-- Resource records for a name that is looked up, each with a name that fits
into `rname` and with the fields that are used. -/
inductive Records (pkt : Packet) (dname : List Octet) : ℕ → ℕ → Prop
  | none {p : ℕ} : Records pkt dname 0 p
  | more {n p q : ℕ} {labels : List (List Octet)} {rtype rdlen : BitVec 16}
      (hname : Name pkt p q labels) (hlabels : labels ≠ [])
      (hfits : (spell labels).length ≤ RNAMESIZ)
      (htype : read16 pkt q = some rtype)
      (haddr : dname <+: (spell labels).dropLast → rtype = DNS_QT_A →
        q + 13 < pkt.length)
      (hrdlen : read16 pkt (q + 8) = some rdlen)
      (hrest : Records pkt dname n (q + 8 + (rdlen.toNat + 2))) :
      Records pkt dname (n + 1) p

/-- A header, as many questions as it says and as many records. -/
def WellFormed (pkt : Packet) (dname : List Octet) : Prop :=
  ∃ qcount acount r, read16 pkt 4 = some qcount ∧ read16 pkt 6 = some acount ∧
    Questions pkt qcount.toNat DATA r ∧ Records pkt dname acount.toNat r

/-! ## The buffer -/

/-- The buffer after some characters have been stored. -/
def fill : Buffer → ℕ → List Octet → Buffer
  | rname, _, [] => rname
  | rname, dst, c :: l => fill (Function.update rname dst c) (dst + 1) l

/-- The buffer when a name has been stored and ended. -/
def written (rname : Buffer) (dst : ℕ) (labels : List (List Octet)) : Buffer :=
  Function.update (fill rname dst (spell labels))
    (dst + (spell labels).length - 1) 0

section Buffers

variable {rname : Buffer} {dst i : ℕ} {l l' : List Octet}
  {labels : List (List Octet)}

theorem fill_cons {c : Octet} :
    fill rname dst (c :: l) = fill (Function.update rname dst c) (dst + 1) l :=
  rfl

theorem fill_append :
    fill rname dst (l ++ l') = fill (fill rname dst l) (dst + l.length) l' := by
  induction l generalizing rname dst with
  | nil => rfl
  | cons c l ih =>
      rw [List.cons_append, fill_cons, ih, fill_cons, List.length_cons]
      congr 1
      omega

theorem fill_of_lt (hi : i < dst) : fill rname dst l i = rname i := by
  induction l generalizing rname dst with
  | nil => rfl
  | cons c l ih =>
      rw [fill_cons, ih (by omega), Function.update_of_ne (by omega)]

theorem fill_add (hi : i < l.length) : fill rname dst l (dst + i) = l[i] := by
  induction l generalizing rname dst i with
  | nil => simp at hi
  | cons c l ih =>
      cases i with
      | zero =>
          rw [fill_cons, fill_of_lt (by omega)]
          exact Function.update_self _ _ _
      | succ i =>
          have hplace : dst + (i + 1) = dst + 1 + i := by omega
          rw [fill_cons, hplace, ih (by rw [List.length_cons] at hi; omega)]
          rfl

theorem spell_cons {label : List Octet} :
    spell (label :: labels) = label ++ [DOT] ++ spell labels := by
  simp [spell]

theorem spell_pos (h : labels ≠ []) : 0 < (spell labels).length := by
  cases labels with
  | nil => exact absurd rfl h
  | cons label labels => simp [spell_cons]

theorem written_cons {label : List Octet} :
    written rname dst (label :: labels) =
      written (Function.update (fill rname dst label) (dst + label.length) DOT)
        (dst + label.length + 1) labels := by
  unfold written
  have hlen : (spell (label :: labels)).length =
      label.length + 1 + (spell labels).length := by
    rw [spell_cons, List.length_append, List.length_append,
      List.length_singleton]
  rw [hlen, spell_cons, List.append_assoc, fill_append, fill_append,
    ← Nat.add_assoc, ← Nat.add_assoc]
  rfl

/-- The string that a stored name is. -/
theorem written_string (rname : Buffer) (h : labels ≠ []) :
    (∀ i (hi : i < (spell labels).dropLast.length),
      written rname 0 labels i = (spell labels).dropLast[i]) ∧
    written rname 0 labels (spell labels).dropLast.length = 0 := by
  have hpos := spell_pos h
  have hlen := (spell labels).length_dropLast
  unfold written
  rw [Nat.zero_add]
  constructor
  · intro i hi
    rw [Function.update_of_ne (by omega), List.getElem_dropLast]
    have hfill : fill rname 0 (spell labels) (0 + i) = (spell labels)[i] :=
      fill_add (by omega)
    rwa [Nat.zero_add] at hfill
  · rw [hlen]
    exact Function.update_self _ _ _

theorem strncmpEq_iff
    {dname : List Octet} (hdname : 0 ∉ dname)
    (hchars : ∀ i (hi : i < l.length), rname (dst + i) = l[i])
    (hend : rname (dst + l.length) = 0) :
    strncmpEq dname rname dst = true ↔ dname <+: l := by
  induction dname generalizing l dst with
  | nil => simp [strncmpEq]
  | cons c dname ih =>
      rw [List.mem_cons, not_or] at hdname
      cases l with
      | nil =>
          have hne : rname dst ≠ c := by
            rw [List.length_nil, Nat.add_zero] at hend
            rw [hend]
            exact hdname.1
          simp [strncmpEq, hne]
      | cons c' l =>
          have hfirst := hchars 0 (by simp)
          rw [Nat.add_zero, List.getElem_cons_zero] at hfirst
          have hrest : strncmpEq dname rname (dst + 1) = true ↔ dname <+: l := by
            apply ih hdname.2
            · intro i hi
              have hplace : dst + 1 + i = dst + (i + 1) := by omega
              rw [hplace, hchars (i + 1) (by simpa using hi)]
              rfl
            · rw [List.length_cons] at hend
              rwa [Nat.add_assoc, Nat.add_comm 1]
          rw [strncmpEq, hfirst, Bool.and_eq_true, hrest, List.cons_prefix_cons,
            decide_eq_true_iff, eq_comm]

end Buffers

/-! ## Names are read where they are -/

section Reading

variable {pkt : Packet} {rname out : Buffer} {n fuel son dst p q : ℕ}
  {llen : Octet} {labels : List (List Octet)} {dname : List Octet}

theorem store_eq_some {c : Octet} :
    store rname dst c = some out ↔
      dst < RNAMESIZ ∧ out = Function.update rname dst c := by
  unfold store
  split_ifs with h
  · simp [h, eq_comm]
  · simp [h]

theorem copyLabel_eq_some (hdst : dst ≤ RNAMESIZ) :
    copyLabel pkt n son dst rname = some out ↔
      ((pkt.drop son).take n).length = n ∧ dst + n ≤ RNAMESIZ ∧
        out = fill rname dst ((pkt.drop son).take n) := by
  induction n generalizing son dst rname out with
  | zero => simp [copyLabel, fill, hdst, eq_comm]
  | succ n ih =>
      unfold copyLabel
      simp only [Option.bind_eq_bind, Option.bind_eq_some_iff, store_eq_some]
      constructor
      · rintro ⟨c, hc, b, ⟨hroom, rfl⟩, hrest⟩
        obtain ⟨hson, rfl⟩ := List.getElem?_eq_some_iff.mp hc
        rw [List.drop_eq_getElem_cons hson, List.take_succ_cons]
        obtain ⟨hlen, hfits, rfl⟩ := (ih hroom).mp hrest
        exact ⟨by rw [List.length_cons, hlen], by omega, rfl⟩
      · rintro ⟨hlen, hfits, rfl⟩
        have hson : son < pkt.length := by
          rw [List.length_take, List.length_drop] at hlen
          omega
        rw [List.drop_eq_getElem_cons hson, List.take_succ_cons] at hlen ⊢
        rw [List.length_cons, Nat.succ_inj] at hlen
        have hroom : dst < RNAMESIZ := by omega
        refine ⟨pkt[son], List.getElem?_eq_getElem hson, _, ⟨hroom, rfl⟩, ?_⟩
        apply (ih hroom).mpr
        exact ⟨hlen, by omega, rfl⟩

/-- What a run that ends has read. -/
theorem getrnameLoop_sound
    (hbyte : pkt[p]? = some llen) (hdst : dst ≤ RNAMESIZ)
    (hrun : getrnameLoop pkt fuel llen (p + 1) dst rname = some (q, out)) :
    ∃ labels, Name pkt p q labels ∧ 0 < dst + (spell labels).length ∧
      dst + (spell labels).length ≤ RNAMESIZ ∧
        out = written rname dst labels := by
  induction fuel generalizing p llen dst rname q out with
  | zero => cases hrun
  | succ fuel ih =>
      unfold getrnameLoop at hrun
      split_ifs at hrun with hzero hempty hlabel
      · simp only [Option.bind_eq_bind, Option.bind_eq_some_iff,
          store_eq_some] at hrun
        obtain ⟨b, ⟨hroom, rfl⟩, hout⟩ := hrun
        cases hout
        exact ⟨[], .root (hzero ▸ hbyte), by simp [spell]; omega, by simpa [spell],
          by simp [written, spell, fill]⟩
      · simp only [Option.bind_eq_bind, Option.bind_eq_some_iff,
          store_eq_some, copyLabel_eq_some hdst] at hrun
        obtain ⟨b, ⟨hlen, hfits, rfl⟩, b', ⟨hroom, rfl⟩, next, hnext, hrest⟩ := hrun
        have hplace : p + 1 + llen.toNat = p + llen.toNat + 1 := by omega
        rw [hplace] at hnext hrest
        obtain ⟨labels, hname, -, hbound, rfl⟩ := ih hnext (by omega) hrest
        refine ⟨_, .label hbyte hzero hlabel hname, ?_, ?_, ?_⟩
        · simp [spell_cons]
        · rw [spell_cons, List.length_append, List.length_append, hlen,
            List.length_singleton]
          omega
        · rw [written_cons, hlen]
      · simp only [Option.bind_eq_bind, Option.bind_eq_some_iff,
          Nat.add_sub_cancel] at hrun
        obtain ⟨hi, hhi, lo, hlo, first, hfirst, ⟨stop, b⟩, hrest, hout⟩ := hrun
        cases hout
        rw [hbyte] at hhi
        cases hhi
        obtain ⟨labels, hname, hpos, hbound, rfl⟩ := ih hfirst hdst hrest
        exact ⟨labels, .pointer hbyte (by omega) hlo hname, hpos, hbound, rfl⟩

theorem Name.getrnameLoop (hname : Name pkt p q labels) :
    ∃ llen, pkt[p]? = some llen ∧ ∃ enough, ∀ fuel ≥ enough, ∀ dst rname,
      0 < dst + (spell labels).length →
        dst + (spell labels).length ≤ RNAMESIZ →
          getrnameLoop pkt fuel llen (p + 1) dst rname =
            some (q, written rname dst labels) := by
  induction hname with
  | @root p hbyte =>
      refine ⟨0, hbyte, 1, ?_⟩
      intro fuel hfuel dst rname hpos hfits
      obtain ⟨m, rfl⟩ : ∃ m, fuel = m + 1 := ⟨fuel - 1, by omega⟩
      have hdst : 0 < dst := by simpa [spell] using hpos
      have hroom : dst - 1 < RNAMESIZ := by
        simp only [spell, List.flatMap_nil, List.length_nil] at hfits
        omega
      unfold Dns.getrnameLoop
      rw [if_pos rfl, if_neg (by omega)]
      simp [store, hroom, written, spell, fill]
  | @label p q n labels hbyte hn hlen hrest ih =>
      have htake : ((pkt.drop (p + 1)).take n.toNat).length = n.toNat := by
        have hinside : p + n.toNat + 1 < pkt.length := by
          cases hrest with
          | root hb => exact (List.getElem?_eq_some_iff.mp hb).1
          | label hb _ _ _ => exact (List.getElem?_eq_some_iff.mp hb).1
          | pointer hb _ _ _ => exact (List.getElem?_eq_some_iff.mp hb).1
        rw [List.length_take, List.length_drop]
        omega
      obtain ⟨next, hnext, enough, hrun⟩ := ih
      refine ⟨n, hbyte, enough + 1, ?_⟩
      intro fuel hfuel dst rname hpos hfits
      obtain ⟨m, rfl⟩ : ∃ m, fuel = m + 1 := ⟨fuel - 1, by omega⟩
      rw [spell_cons, List.length_append, List.length_append, htake,
        List.length_singleton] at hfits
      have hcopy : copyLabel pkt n.toNat (p + 1) dst rname =
          some (fill rname dst ((pkt.drop (p + 1)).take n.toNat)) := by
        apply (copyLabel_eq_some (by omega)).mpr
        exact ⟨htake, by omega, rfl⟩
      have hplace : p + 1 + n.toNat = p + n.toNat + 1 := by omega
      unfold Dns.getrnameLoop
      rw [if_neg hn, if_pos hlen]
      simp only [Option.bind_eq_bind, hcopy, Option.bind_some, store]
      rw [if_pos (by omega)]
      simp only [Option.bind_some, hplace, hnext]
      rw [hrun m (by omega) _ _ (by omega) (by omega), written_cons, htake]
  | @pointer p q hi lo labels hbyte hbig hnext hrest ih =>
      obtain ⟨first, hfirst, enough, hrun⟩ := ih
      refine ⟨hi, hbyte, enough + 1, ?_⟩
      intro fuel hfuel dst rname hpos hfits
      obtain ⟨m, rfl⟩ : ∃ m, fuel = m + 1 := ⟨fuel - 1, by omega⟩
      have hne : hi ≠ 0 := by
        rintro rfl
        simp at hbig
      unfold Dns.getrnameLoop
      rw [if_neg hne, if_neg (by omega)]
      simp only [Option.bind_eq_bind, Nat.add_sub_cancel, hbyte, hnext, hfirst,
        Option.bind_some]
      rw [hrun m (by omega) dst rname hpos hfits]
      rfl

theorem Name.lt (hname : Name pkt p q labels) : p < q := by
  induction hname with
  | root _ => omega
  | label _ _ _ _ ih => omega
  | pointer _ _ _ _ _ => omega

theorem dnsGetrname_sound
    (hrun : dnsGetrname pkt fuel p rname = some (n, out)) :
    ∃ q labels, Name pkt p q labels ∧ labels ≠ [] ∧
      (spell labels).length ≤ RNAMESIZ ∧ p + n = q ∧
        out = written rname 0 labels := by
  unfold dnsGetrname at hrun
  simp only [Option.bind_eq_bind, Option.bind_eq_some_iff] at hrun
  obtain ⟨llen, hbyte, ⟨q, b⟩, hloop, hout⟩ := hrun
  cases hout
  obtain ⟨labels, hname, hpos, hfits, rfl⟩ :=
    getrnameLoop_sound hbyte (Nat.zero_le _) hloop
  rw [Nat.zero_add] at hpos hfits
  refine ⟨q, labels, hname, ?_, hfits, ?_, rfl⟩
  · rintro rfl
    simp [spell] at hpos
  · have hlt := hname.lt
    omega

theorem Name.dnsGetrname
    (hname : Name pkt p q labels) (hlabels : labels ≠ [])
    (hfits : (spell labels).length ≤ RNAMESIZ) :
    ∃ enough, ∀ fuel ≥ enough, ∀ rname, dnsGetrname pkt fuel p rname =
      some (q - p, written rname 0 labels) := by
  obtain ⟨llen, hbyte, enough, hrun⟩ := hname.getrnameLoop
  refine ⟨enough, ?_⟩
  intro fuel hfuel rname
  have hpos := spell_pos hlabels
  unfold Dns.dnsGetrname
  simp only [Option.bind_eq_bind, hbyte, Option.bind_some]
  rw [hrun fuel hfuel 0 rname (by omega) (by omega)]
  rfl

/-! ## Whole responses -/

theorem skipLabels_sound
    {last : Octet} (hbyte : pkt[p]? = some llen)
    (hrun : skipLabels pkt fuel llen p = some (last, q)) :
    QuestionName pkt p (if last = 0 then q + 1 else q) := by
  induction fuel generalizing p llen with
  | zero => cases hrun
  | succ fuel ih =>
      unfold skipLabels at hrun
      split_ifs at hrun with hzero hbig
      · cases hrun
        rw [if_pos hzero]
        exact .root (hzero ▸ hbyte)
      · cases hrun
        rw [if_neg hzero]
        exact .pointer hbyte hbig
      · simp only [Option.bind_eq_bind, Option.bind_eq_some_iff] at hrun
        obtain ⟨next, hnext, hrest⟩ := hrun
        exact .label hbyte hzero (by omega) (ih hnext hrest)

theorem skipQuestion_sound (hrun : skipQuestion pkt fuel p = some q) :
    ∃ r, QuestionName pkt p r ∧ q = r + 4 := by
  unfold skipQuestion at hrun
  simp only [Option.bind_eq_bind, Option.bind_eq_some_iff] at hrun
  obtain ⟨llen, hbyte, ⟨last, d⟩, hloop, hout⟩ := hrun
  cases hout
  exact ⟨_, skipLabels_sound hbyte hloop, rfl⟩

theorem QuestionName.skipLabels (hname : QuestionName pkt p q) :
    ∃ llen, pkt[p]? = some llen ∧ ∃ enough, ∀ fuel ≥ enough, ∃ last d,
      skipLabels pkt fuel llen p = some (last, d) ∧
        q = if last = 0 then d + 1 else d := by
  induction hname with
  | @root p hbyte =>
      refine ⟨0, hbyte, 1, ?_⟩
      intro fuel hfuel
      obtain ⟨m, rfl⟩ : ∃ m, fuel = m + 1 := ⟨fuel - 1, by omega⟩
      exact ⟨0, p, rfl, rfl⟩
  | @pointer p n hbyte hbig =>
      refine ⟨n, hbyte, 1, ?_⟩
      intro fuel hfuel
      obtain ⟨m, rfl⟩ : ∃ m, fuel = m + 1 := ⟨fuel - 1, by omega⟩
      have hn : n ≠ 0 := by
        rintro rfl
        simp at hbig
      refine ⟨n, p + 2, ?_, (if_neg hn).symm⟩
      unfold Dns.skipLabels
      rw [if_neg hn, if_pos hbig]
  | @label p q n hbyte hn hlen _ ih =>
      obtain ⟨next, hnext, enough, hrun⟩ := ih
      refine ⟨n, hbyte, enough + 1, ?_⟩
      intro fuel hfuel
      obtain ⟨m, rfl⟩ : ∃ m, fuel = m + 1 := ⟨fuel - 1, by omega⟩
      obtain ⟨last, d, hloop, hq⟩ := hrun m (by omega)
      refine ⟨last, d, ?_, hq⟩
      unfold Dns.skipLabels
      rw [if_neg hn, if_neg (by omega)]
      simp only [Option.bind_eq_bind, hnext, Option.bind_some, hloop]

theorem QuestionName.skipQuestion (hname : QuestionName pkt p q) :
    ∃ enough, ∀ fuel ≥ enough, skipQuestion pkt fuel p = some (q + 4) := by
  obtain ⟨llen, hbyte, enough, hrun⟩ := hname.skipLabels
  refine ⟨enough, ?_⟩
  intro fuel hfuel
  obtain ⟨last, d, hloop, rfl⟩ := hrun fuel hfuel
  unfold Dns.skipQuestion
  simp only [Option.bind_eq_bind, hbyte, Option.bind_some, hloop]
  rfl

theorem skipQuestions_sound (hrun : skipQuestions pkt fuel n p = some q) :
    Questions pkt n p q := by
  induction n generalizing p with
  | zero =>
      cases hrun
      exact .none
  | succ n ih =>
      unfold skipQuestions at hrun
      simp only [Option.bind_eq_bind, Option.bind_eq_some_iff] at hrun
      obtain ⟨d, hfirst, hrest⟩ := hrun
      obtain ⟨r, hname, rfl⟩ := skipQuestion_sound hfirst
      exact .more hname (ih hrest)

theorem Questions.skipQuestions (h : Questions pkt n p q) :
    ∃ enough, ∀ fuel ≥ enough, skipQuestions pkt fuel n p = some q := by
  induction h with
  | none => exact ⟨0, fun _ _ => rfl⟩
  | more hname _ ih =>
      obtain ⟨enough, hfirst⟩ := hname.skipQuestion
      obtain ⟨enough', hrest⟩ := ih
      refine ⟨max enough enough', ?_⟩
      intro fuel hfuel
      unfold Dns.skipQuestions
      simp only [Option.bind_eq_bind, hfirst fuel (by omega), Option.bind_some,
        hrest fuel (by omega)]

theorem read16_eq_some {i : ℕ} : (∃ v, read16 pkt i = some v) ↔ i + 1 < pkt.length := by
  unfold read16
  simp only [Option.bind_eq_bind, Option.bind_eq_some_iff]
  constructor
  · rintro ⟨v, hi, hhi, lo, hlo, -⟩
    exact (List.getElem?_eq_some_iff.mp hlo).1
  · intro h
    exact ⟨_, _, List.getElem?_eq_getElem (by omega), _,
      List.getElem?_eq_getElem h, rfl⟩

theorem read32_eq_some {i : ℕ} : (∃ v, read32 pkt i = some v) ↔ i + 3 < pkt.length := by
  unfold read32
  simp only [Option.bind_eq_bind, Option.bind_eq_some_iff]
  constructor
  · rintro ⟨v, hi, -, lo, hlo, -⟩
    exact read16_eq_some.mp ⟨lo, hlo⟩
  · intro h
    obtain ⟨hi, hhi⟩ := read16_eq_some.mpr (show i + 1 < pkt.length by omega)
    obtain ⟨lo, hlo⟩ := read16_eq_some.mpr (show i + 2 + 1 < pkt.length by omega)
    exact ⟨_, hi, hhi, lo, hlo, rfl⟩

variable {subnet : Subnet} {ipaddr : Word}

/-- The type is read, and the address of a record that is used. -/
theorem pickAddr_eq_some :
    (∃ v, pickAddr pkt subnet dname rname q ipaddr = some v) ↔
      ∃ rtype, read16 pkt q = some rtype ∧
        (strncmpEq dname rname 0 = true → rtype = DNS_QT_A →
          q + 13 < pkt.length) := by
  unfold pickAddr
  simp only [Option.bind_eq_bind, Option.bind_eq_some_iff]
  constructor
  · rintro ⟨v, rtype, htype, hrest⟩
    refine ⟨rtype, htype, ?_⟩
    intro hmatch ha
    rw [if_pos (by simp [hmatch, ha])] at hrest
    simp only [Option.bind_eq_some_iff] at hrest
    obtain ⟨tmpip, hip, -⟩ := hrest
    exact read32_eq_some.mp ⟨tmpip, hip⟩
  · rintro ⟨rtype, htype, haddr⟩
    by_cases hused : strncmpEq dname rname 0 = true ∧ rtype = DNS_QT_A
    · obtain ⟨tmpip, hip⟩ := read32_eq_some.mpr (haddr hused.1 hused.2)
      refine ⟨if ipaddr = 0 ∨ subnet.ipmask &&& tmpip = subnet.ipprefix then
        tmpip else ipaddr, rtype, htype, ?_⟩
      rw [if_pos (by simp [hused])]
      simp only [hip, Option.bind_some]
      rfl
    · refine ⟨ipaddr, rtype, htype, ?_⟩
      rw [if_neg (by simpa using hused)]
      rfl

theorem strncmpEq_written (hdname : 0 ∉ dname) (hlabels : labels ≠ []) :
    strncmpEq dname (written rname 0 labels) 0 = true ↔
      dname <+: (spell labels).dropLast := by
  apply strncmpEq_iff hdname
  · simpa using (written_string _ hlabels).1
  · simpa using (written_string _ hlabels).2

theorem answers_sound
    {v : Word} (hdname : 0 ∉ dname)
    (hrun : answers pkt subnet dname fuel n p ipaddr rname = some v) :
    Records pkt dname n p := by
  induction n generalizing p ipaddr rname with
  | zero => exact .none
  | succ n ih =>
      unfold answers at hrun
      simp only [Option.bind_eq_bind, Option.bind_eq_some_iff] at hrun
      obtain ⟨⟨namlen, out⟩, hread, addr, hpick, rdlen, hrdlen, hrest⟩ := hrun
      obtain ⟨q, labels, hname, hlabels, hfits, rfl, rfl⟩ := dnsGetrname_sound hread
      obtain ⟨rtype, htype, haddr⟩ := pickAddr_eq_some.mp ⟨addr, hpick⟩
      rw [strncmpEq_written hdname hlabels] at haddr
      exact .more hname hlabels hfits htype haddr hrdlen (ih hrest)

theorem Records.answers
    (subnet : Subnet) (h : Records pkt dname n p) (hdname : 0 ∉ dname) :
    ∃ enough, ∀ fuel ≥ enough, ∀ ipaddr rname, ∃ v,
      answers pkt subnet dname fuel n p ipaddr rname = some v := by
  induction h with
  | none => exact ⟨0, fun _ _ ipaddr _ => ⟨ipaddr, rfl⟩⟩
  | @more n p q labels rtype rdlen hname hlabels hfits htype haddr hrdlen _ ih =>
      obtain ⟨enough, hread⟩ := hname.dnsGetrname hlabels hfits
      obtain ⟨enough', hrest⟩ := ih
      refine ⟨max enough enough', ?_⟩
      intro fuel hfuel ipaddr rname
      have hplace : p + (q - p) = q := by
        have hlt := hname.lt
        omega
      obtain ⟨addr, hpick⟩ : ∃ addr, pickAddr pkt subnet dname
          (written rname 0 labels) q ipaddr = some addr := by
        apply pickAddr_eq_some.mpr
        exact ⟨rtype, htype, by rwa [strncmpEq_written hdname hlabels]⟩
      obtain ⟨v, hv⟩ := hrest fuel (by omega) addr (written rname 0 labels)
      refine ⟨v, ?_⟩
      unfold Dns.answers
      simp only [Option.bind_eq_bind, hread fuel (by omega), Option.bind_some,
        hplace, hpick, hrdlen, hv]

/-- `dns_geta` ends, and every byte that it touches lies in the message and in
`rname`. -/
def StaysInside (pkt : Packet) (subnet : Subnet) (dname : List Octet)
    (rname : Buffer) : Prop :=
  ∃ fuel addr, dnsGeta pkt fuel subnet dname rname = some addr

theorem geta_stays_inside_iff
    (pkt : Packet) (subnet : Subnet) (dname : List Octet) (rname : Buffer)
    (hdname : 0 ∉ dname) :
    StaysInside pkt subnet dname rname ↔ WellFormed pkt dname := by
  unfold StaysInside WellFormed dnsGeta
  simp only [Option.bind_eq_bind, Option.bind_eq_some_iff]
  constructor
  · rintro ⟨fuel, addr, qcount, hq, r, hskip, acount, ha, v, hrun, -⟩
    exact ⟨qcount, acount, r, hq, ha, skipQuestions_sound hskip,
      answers_sound hdname hrun⟩
  · rintro ⟨qcount, acount, r, hq, ha, hquestions, hrecords⟩
    obtain ⟨enough, hskip⟩ := hquestions.skipQuestions
    obtain ⟨enough', hrun⟩ := hrecords.answers subnet hdname
    obtain ⟨v, hv⟩ := hrun (max enough enough') (by omega) 0 rname
    exact ⟨max enough enough', _, qcount, hq, r, hskip _ (by omega), acount, ha,
      v, hv, rfl⟩

end Reading

def answerForA : Packet :=
  [0, 7, 0x81, 0x80, 0, 0, 0, 1, 0, 0, 0, 0, 1, 0x61, 0, 0, 1, 0, 1, 0, 0, 0, 60,
    0, 4, 10, 0, 0, 1]

theorem answer_stays_inside :
    StaysInside answerForA ⟨0, 0⟩ [0x61] (fun _ => 0) := by
  apply (geta_stays_inside_iff answerForA ⟨0, 0⟩ [0x61] (fun _ => 0)
    (by decide)).mpr
  have hname : Name answerForA 12 15 [[0x61]] :=
    .label (show answerForA[12]? = some 1 from rfl) (by decide) (by decide)
      (.root rfl)
  exact ⟨0, 1, 12, rfl, rfl, .none, .more hname (by decide) (by decide) rfl
    (fun _ _ => by decide) rfl .none⟩

/-- An answer whose name is a pointer to itself. -/
def pointerToItself : Packet := [0, 7, 0x81, 0x80, 0, 0, 0, 1, 0, 0, 0, 0, 0xc0, 12]

theorem getrnameLoop_pointerToItself (fuel dst : ℕ) (rname : Buffer) :
    getrnameLoop pointerToItself fuel 0xc0 13 dst rname = none := by
  induction fuel with
  | zero => rfl
  | succ fuel ih =>
      change (getrnameLoop pointerToItself fuel 0xc0 13 dst rname).bind _ = none
      rw [ih]
      rfl

theorem pointer_to_itself_never_ends :
    ¬ StaysInside pointerToItself ⟨0, 0⟩ [0x61] (fun _ => 0) := by
  rintro ⟨fuel, addr, hrun⟩
  have hread : dnsGetrname pointerToItself fuel 12 (fun _ => 0) = none := by
    change (getrnameLoop pointerToItself fuel 0xc0 13 0 _).bind _ = none
    rw [getrnameLoop_pointerToItself]
    rfl
  change ((answers pointerToItself ⟨0, 0⟩ [0x61] fuel 1 12 0 fun _ => 0).bind
    _) = some addr at hrun
  unfold answers at hrun
  rw [hread] at hrun
  cases hrun

end Xinu.Dns
