import Xinu.RemoteExchange

/-!
# Reading and writing remote files

`rflread` and `rflwrite` send one request and trust the reply that `rfscomm`
lets pass: its length field is the number of bytes that are copied to the
caller, the advance of the file position and the value that is returned.
-/

namespace Xinu.RemoteFiles

open ByteMemory RemoteExchange RemoteExchange.Buffer

def RF_NAMLEN : ℕ := 128
def RF_DATALEN : ℤ := 1024
def RF_MODE_R : Word := 1
def RF_MODE_W : Word := 2
def RF_MSG_RREQ : BitVec 16 := 0x0001
def RF_MSG_WREQ : BitVec 16 := 0x0002
def EOF : Word := BitVec.ofInt 32 (-2)

/-! ## Messages -/

/-- `htons` into the two bytes at `i`. -/
def setHalf (b : Buffer) (i : ℕ) (x : BitVec 16) : Buffer := fun k =>
  if i ≤ k ∧ k < i + 2 then x.extractLsb' (8 * (i + 1 - k)) 8 else b k

/-- `htonl` into the four bytes at `i`. -/
def setWord (b : Buffer) (i : ℕ) (x : Word) : Buffer := fun k =>
  if i ≤ k ∧ k < i + 4 then x.extractLsb' (8 * (i + 3 - k)) 8 else b k

/-- Where the fields of the read and write messages are. -/
def NAME : ℕ := 8
def POS : ℕ := 136
def LEN : ℕ := 140
def DATA : ℕ := 144

def rreqSize : ℤ := 144
def rresSize : ℤ := 1168
def wreqSize : ℤ := 1168
def wresSize : ℤ := 144

/-- `memset(to, NULLCH, RF_NAMLEN)`. -/
def clearName (b : Buffer) : Buffer := fun k =>
  if NAME ≤ k ∧ k < NAME + RF_NAMLEN then 0 else b k

/-- The loop that copies the name, with `len` bytes done; `none` when the name
is too long, else the message and how far the loop came. -/
def nameLoop (rfname : Buffer) : ℕ → ℕ → Buffer → Option (Buffer × ℕ)
  | 0, _, _ => none
  | n + 1, len, msg =>
      let msg := Function.update msg (NAME + len) (rfname len)
      if rfname len = 0 then some (msg, len + 1)
      else if len + 1 ≥ RF_NAMLEN then none
      else nameLoop rfname n (len + 1) msg

/-- The second loop of `rflwrite`, which goes on behind the end of the name. -/
def restLoop (rfname : Buffer) : ℕ → ℕ → Buffer → Buffer
  | 0, _, msg => msg
  | n + 1, len, msg =>
      let msg := Function.update msg (NAME + len) (rfname len)
      if rfname len = 0 then msg else restLoop rfname n (len + 1) msg

/-! ## Control blocks -/

/-- A remote file.  The memory from `rfname` on goes on with the position and
the mode, so that a null byte comes within 136 bytes. -/
structure Rflcblk where
  inUse : Bool
  rfname : Buffer
  rfpos : Word
  rfmode : Word

/-- What a call meets: the state of the exchange with the server, the answers
of the network and what is on the stack. -/
structure Call where
  rf : Rfscomm
  dnslookup : Word
  net : Network
  msg : Buffer
  resp : Buffer

/-- How a call ends; `stored` bytes have been copied to the caller. -/
structure Outcome where
  retval : Word
  rfpos : Word
  stored : ℕ
  buff : Buffer

/-- A return of `SYSERR`. -/
def Outcome.failed (rfptr : Rflcblk) (buff : Buffer) : Outcome :=
  ⟨SYSERR, rfptr.rfpos, 0, buff⟩

/-! ## rflread.c -/

def readRequest (rfptr : Rflcblk) (count : ℤ) (msg : Buffer) : Option Buffer :=
  let msg := setHalf msg 0 RF_MSG_RREQ
  let msg := setHalf msg 2 0
  let msg := setWord msg 4 0
  (nameLoop rfptr.rfname RF_NAMLEN 0 (clearName msg)).map fun (msg, _) =>
    setWord (setWord msg POS rfptr.rfpos) LEN (BitVec.ofInt 32 count)

/-- What `rflread` does with a reply; `i` is compared as an unsigned number. -/
def readReply (rfptr : Rflcblk) (resp buff : Buffer) : Outcome :=
  let len := resp.word LEN
  { retval := if len = 0 then EOF else len
    rfpos := rfptr.rfpos + len
    stored := len.toNat
    buff := fun i => if i < len.toNat then resp (DATA + i) else buff i }

/-- `rflread`; `none` when `rfscomm` panics. -/
def rflread (rfptr : Rflcblk) (buff : Buffer) (count : ℤ) (c : Call) :
    Option Outcome :=
  if count ≤ 0 ∨ count > RF_DATALEN then some (.failed rfptr buff)
  else if ¬ rfptr.inUse then some (.failed rfptr buff)
  else if rfptr.rfmode &&& RF_MODE_R = 0 then some (.failed rfptr buff)
  else
    match readRequest rfptr count c.msg with
    | none => some (.failed rfptr buff)
    | some msg =>
        (rfscomm c.rf msg c.resp rresSize c.dnslookup c.net).map fun (_, _, e) =>
          if e.retval = SYSERR then .failed rfptr buff
          else if e.retval = TIMEOUT then .failed rfptr buff
          else if msgStatus e.reply ≠ 0 then .failed rfptr buff
          else readReply rfptr e.reply buff

/-! ## rflwrite.c -/

def writeRequest (rfptr : Rflcblk) (buff : Buffer) (count : ℤ) (msg : Buffer) :
    Option Buffer :=
  let msg := setHalf msg 0 RF_MSG_WREQ
  let msg := setHalf msg 2 0
  let msg := setWord msg 4 0
  (nameLoop rfptr.rfname RF_NAMLEN 0 (clearName msg)).map fun (msg, len) =>
    let msg := restLoop rfptr.rfname (RF_NAMLEN + 8 - len) len msg
    let msg := setWord (setWord msg POS rfptr.rfpos) LEN (BitVec.ofInt 32 count)
    fun k =>
      if k < DATA then msg k
      else if k < DATA + count.toNat then buff (k - DATA)
      else if k < DATA + RF_DATALEN.toNat then 0
      else msg k

def writeReply (rfptr : Rflcblk) (resp buff : Buffer) : Outcome :=
  let len := resp.word LEN
  { retval := len
    rfpos := rfptr.rfpos + len
    stored := 0
    buff := buff }

def rflwrite (rfptr : Rflcblk) (buff : Buffer) (count : ℤ) (c : Call) :
    Option Outcome :=
  if count ≤ 0 ∨ count > RF_DATALEN then some (.failed rfptr buff)
  else if ¬ rfptr.inUse ∨ rfptr.rfmode &&& RF_MODE_W = 0 then
    some (.failed rfptr buff)
  else
    match writeRequest rfptr buff count c.msg with
    | none => some (.failed rfptr buff)
    | some msg =>
        (rfscomm c.rf msg c.resp wresSize c.dnslookup c.net).map fun (_, _, e) =>
          if e.retval = SYSERR then .failed rfptr buff
          else if e.retval = TIMEOUT then .failed rfptr buff
          else if msgStatus e.reply ≠ 0 then .failed rfptr buff
          else writeReply rfptr e.reply buff

/-! ## What the calls should guarantee -/

/-- The result of a read of at most `count` bytes. -/
structure ReadLaw (rfptr : Rflcblk) (count : ℤ) (o : Outcome) : Prop where
  stored_le : o.stored ≤ count.toNat
  failed : o.retval = SYSERR → o.rfpos = rfptr.rfpos
  returned : o.retval ≠ SYSERR → o.rfpos = rfptr.rfpos + BitVec.ofNat 32 o.stored ∧
    (o.retval = EOF ∧ o.stored = 0 ∨
      1 ≤ o.retval.toInt ∧ o.retval.toInt ≤ count ∧ o.retval.toInt = o.stored)

structure WriteLaw (rfptr : Rflcblk) (count : ℤ) (o : Outcome) : Prop where
  failed : o.retval = SYSERR → o.rfpos = rfptr.rfpos
  returned : o.retval ≠ SYSERR → 0 ≤ o.retval.toInt ∧ o.retval.toInt ≤ count ∧
    o.rfpos = rfptr.rfpos + o.retval

/-- The server's reply to the request reaches the caller: the arguments and the
file are good, and an answer without an error comes in time. -/
inductive Answered (mode : Word) (rfptr : Rflcblk) (count : ℤ) (request : Option Buffer)
    (rlen : ℤ) (c : Call) : Buffer → Prop
  | intro {msg msg' : Buffer} {rf' : Rfscomm} {e : Exchanged}
      (hcount : ¬ (count ≤ 0 ∨ count > RF_DATALEN)) (huse : rfptr.inUse = true)
      (hmode : rfptr.rfmode &&& mode ≠ 0) (hrequest : request = some msg)
      (hcomm : rfscomm c.rf msg c.resp rlen c.dnslookup c.net = some (rf', msg', e))
      (hsyserr : e.retval ≠ SYSERR) (htimeout : e.retval ≠ TIMEOUT)
      (hstatus : msgStatus e.reply = 0) :
      Answered mode rfptr count request rlen c e.reply

section Calls

variable {rfptr : Rflcblk} {buff resp : Buffer} {count : ℤ} {c : Call} {o : Outcome}

theorem rflread_answered
    (h : Answered RF_MODE_R rfptr count (readRequest rfptr count c.msg) rresSize c resp) :
    rflread rfptr buff count c = some (readReply rfptr resp buff) := by
  obtain ⟨hcount, huse, hmode, hrequest, hcomm, hsyserr, htimeout, hstatus⟩ := h
  rw [rflread, if_neg hcount, if_neg (by simpa using huse), if_neg hmode, hrequest]
  dsimp only
  rw [hcomm, Option.map_some, if_neg hsyserr, if_neg htimeout, if_neg (by simpa using hstatus)]

theorem rflread_unanswered
    (h : ∀ resp, ¬ Answered RF_MODE_R rfptr count (readRequest rfptr count c.msg)
      rresSize c resp)
    (ho : rflread rfptr buff count c = some o) : o = .failed rfptr buff := by
  unfold rflread at ho
  by_cases hcount : count ≤ 0 ∨ count > RF_DATALEN
  · rw [if_pos hcount] at ho
    exact (Option.some.inj ho).symm
  rw [if_neg hcount] at ho
  by_cases huse : rfptr.inUse = true
  swap
  · rw [if_pos huse] at ho
    exact (Option.some.inj ho).symm
  rw [if_neg (not_not.mpr huse)] at ho
  by_cases hmode : rfptr.rfmode &&& RF_MODE_R = 0
  · rw [if_pos hmode] at ho
    exact (Option.some.inj ho).symm
  rw [if_neg hmode] at ho
  cases hrequest : readRequest rfptr count c.msg with
  | none =>
      rw [hrequest] at ho
      exact (Option.some.inj ho).symm
  | some msg =>
      rw [hrequest] at ho
      obtain ⟨⟨rf', msg', e⟩, hcomm, heq⟩ := Option.map_eq_some_iff.mp ho
      dsimp only at heq
      split_ifs at heq with hsyserr htimeout hstatus
      · exact heq.symm
      · exact heq.symm
      · exact heq.symm
      · refine absurd ?_ (h e.reply)
        exact .intro hcount huse hmode hrequest hcomm hsyserr htimeout
          (by simpa using hstatus)

theorem rflwrite_answered
    (h : Answered RF_MODE_W rfptr count (writeRequest rfptr buff count c.msg) wresSize c
      resp) :
    rflwrite rfptr buff count c = some (writeReply rfptr resp buff) := by
  obtain ⟨hcount, huse, hmode, hrequest, hcomm, hsyserr, htimeout, hstatus⟩ := h
  have hgood : ¬ (¬ rfptr.inUse ∨ rfptr.rfmode &&& RF_MODE_W = 0) := by
    rintro (hno | hno)
    · exact hno huse
    · exact hmode hno
  rw [rflwrite, if_neg hcount, if_neg hgood, hrequest]
  dsimp only
  rw [hcomm, Option.map_some, if_neg hsyserr, if_neg htimeout, if_neg (by simpa using hstatus)]

theorem rflwrite_unanswered
    (h : ∀ resp, ¬ Answered RF_MODE_W rfptr count (writeRequest rfptr buff count c.msg)
      wresSize c resp)
    (ho : rflwrite rfptr buff count c = some o) : o = .failed rfptr buff := by
  unfold rflwrite at ho
  split_ifs at ho with hcount hbad
  · exact (Option.some.inj ho).symm
  · exact (Option.some.inj ho).symm
  · push Not at hbad
    cases hrequest : writeRequest rfptr buff count c.msg with
    | none =>
        rw [hrequest] at ho
        exact (Option.some.inj ho).symm
    | some msg =>
        rw [hrequest] at ho
        obtain ⟨⟨rf', msg', e⟩, hcomm, heq⟩ := Option.map_eq_some_iff.mp ho
        dsimp only at heq
        split_ifs at heq with hsyserr htimeout hstatus
        · exact heq.symm
        · exact heq.symm
        · exact heq.symm
        · refine absurd ?_ (h e.reply)
          exact .intro hcount hbad.1 hbad.2 hrequest hcomm hsyserr htimeout
            (by simpa using hstatus)

theorem failed_readLaw : ReadLaw rfptr count (.failed rfptr buff) :=
  ⟨Nat.zero_le _, fun _ => rfl, fun hne => absurd rfl hne⟩

theorem failed_writeLaw : WriteLaw rfptr count (.failed rfptr buff) :=
  ⟨fun _ => rfl, fun hne => absurd rfl hne⟩

theorem toInt_of_le {x : Word} {n : ℕ} (hx : x.toNat ≤ n) (hn : n ≤ 1024) :
    x.toInt = x.toNat ∧ x ≠ SYSERR := by
  constructor
  · rw [BitVec.toInt_eq_toNat_cond, if_pos (by omega)]
  · rintro rfl
    have : (SYSERR : Word).toNat = 4294967295 := rfl
    omega

/-- A reply is handled as it should be if its length is at most the count. -/
theorem readReply_law_iff (hcount : ¬ (count ≤ 0 ∨ count > RF_DATALEN)) :
    ReadLaw rfptr count (readReply rfptr resp buff) ↔ (resp.word LEN).toNat ≤ count.toNat := by
  unfold RF_DATALEN at hcount
  refine ⟨fun h => h.stored_le, fun hle => ?_⟩
  obtain ⟨hint, hne⟩ := toInt_of_le hle (by omega)
  have hpos : rfptr.rfpos + resp.word LEN =
      rfptr.rfpos + BitVec.ofNat 32 (resp.word LEN).toNat := by
    rw [BitVec.ofNat_toNat, BitVec.setWidth_eq]
  unfold readReply
  dsimp only
  by_cases hzero : resp.word LEN = 0
  · rw [if_pos hzero]
    exact ⟨hle, fun hsys => absurd hsys (show EOF ≠ SYSERR by decide),
      fun _ => ⟨hpos, Or.inl ⟨rfl, by rw [hzero]; rfl⟩⟩⟩
  · rw [if_neg hzero]
    have hnat : (resp.word LEN).toNat ≠ 0 := fun h => hzero (BitVec.eq_of_toNat_eq h)
    exact ⟨hle, fun hsys => absurd hsys hne,
      fun _ => ⟨hpos, Or.inr ⟨by dsimp only; omega, by dsimp only; omega, hint⟩⟩⟩

theorem writeReply_law_iff (hcount : ¬ (count ≤ 0 ∨ count > RF_DATALEN)) :
    WriteLaw rfptr count (writeReply rfptr resp buff) ↔
      (resp.word LEN).toNat ≤ count.toNat := by
  unfold RF_DATALEN at hcount
  unfold writeReply
  constructor
  · intro h
    by_cases hsys : resp.word LEN = SYSERR
    · have hmoved := h.failed hsys
      dsimp only at hmoved
      rw [hsys] at hmoved
      have hother : rfptr.rfpos + SYSERR ≠ rfptr.rfpos := by
        rw [show (SYSERR : Word) = -1 from rfl]
        bv_omega
      exact absurd hmoved hother
    · obtain ⟨hnonneg, hle, -⟩ := h.returned hsys
      dsimp only at hnonneg hle
      rw [BitVec.toInt_eq_toNat_cond] at hnonneg hle
      split_ifs at hnonneg hle <;> omega
  · intro hle
    obtain ⟨hint, hne⟩ := toInt_of_le hle (by omega)
    exact ⟨fun hsys => absurd hsys hne,
      fun _ => ⟨by dsimp only; omega, by dsimp only; omega, rfl⟩⟩

end Calls

/-- For every file, request and behaviour of the server and the network, reads
and writes keep to the count exactly when the length in the reply does. -/
theorem transfer_law_iff
    (rfptr : Rflcblk) (buff : Buffer) (count : ℤ) (c : Call) :
    ((∀ o, rflread rfptr buff count c = some o → ReadLaw rfptr count o) ↔
      ∀ resp, Answered RF_MODE_R rfptr count (readRequest rfptr count c.msg) rresSize c
        resp → (resp.word LEN).toNat ≤ count.toNat) ∧
    ((∀ o, rflwrite rfptr buff count c = some o → WriteLaw rfptr count o) ↔
      ∀ resp, Answered RF_MODE_W rfptr count (writeRequest rfptr buff count c.msg)
        wresSize c resp → (resp.word LEN).toNat ≤ count.toNat) := by
  constructor
  · constructor
    · intro hall resp h
      have hlaw := hall _ (rflread_answered h)
      cases h with
      | intro hcount => exact (readReply_law_iff hcount).mp hlaw
    · intro hall o ho
      by_cases hanswered : ∃ resp, Answered RF_MODE_R rfptr count
          (readRequest rfptr count c.msg) rresSize c resp
      · obtain ⟨resp, h⟩ := hanswered
        have hle := hall resp h
        rw [rflread_answered h] at ho
        cases ho
        cases h with
        | intro hcount => exact (readReply_law_iff hcount).mpr hle
      · rw [rflread_unanswered (not_exists.mp hanswered) ho]
        exact failed_readLaw
  · constructor
    · intro hall resp h
      have hlaw := hall _ (rflwrite_answered h)
      cases h with
      | intro hcount => exact (writeReply_law_iff hcount).mp hlaw
    · intro hall o ho
      by_cases hanswered : ∃ resp, Answered RF_MODE_W rfptr count
          (writeRequest rfptr buff count c.msg) wresSize c resp
      · obtain ⟨resp, h⟩ := hanswered
        have hle := hall resp h
        rw [rflwrite_answered h] at ho
        cases ho
        cases h with
        | intro hcount => exact (writeReply_law_iff hcount).mpr hle
      · rw [rflwrite_unanswered (not_exists.mp hanswered) ho]
        exact failed_writeLaw

/-- A file that is open for reading and writing, at its start. -/
def openFile : Rflcblk := ⟨true, fun _ => 0, 0, 3⟩

/-- The server answers every request with a length of 2 for a read. -/
def twoBytes : Call where
  rf := ⟨0, true, 0⟩
  dnslookup := OK
  net := ⟨0, true, OK, fun _ => ⟨OK, .datagram 152 fun i =>
    if i = 0 then 1 else if i = 1 then 1 else if i = 143 then 2 else 0⟩⟩
  msg := fun _ => 0
  resp := fun _ => 0

/-- A read of one byte stores two. -/
theorem reply_too_long :
    ¬ ∀ (rfptr : Rflcblk) (buff : Buffer) (count : ℤ) (c : Call) (o : Outcome),
      1 ≤ count → count ≤ RF_DATALEN → rflread rfptr buff count c = some o →
        ReadLaw rfptr count o := by
  intro hall
  have hrun : (rflread openFile (fun _ => 0) 1 twoBytes).map Outcome.stored = some 2 := by
    decide
  obtain ⟨o, ho, hstored⟩ := Option.map_eq_some_iff.mp hrun
  have hle := (hall openFile (fun _ => 0) 1 twoBytes o (by decide) (by decide) ho).stored_le
  rw [hstored] at hle
  exact absurd hle (by decide)

end Xinu.RemoteFiles
