import Xinu.RemoteFiles

/-!
# The calls of the remote file system

Opening, closing, seeking, transfers of one byte and control of remote files.
Each call forms at most one request, gives it to `rfscomm` and finishes with
the response; `Rfs.plan` splits the calls at that place.
-/

namespace Xinu.RemoteFiles

open ByteMemory RemoteExchange RemoteExchange.Buffer

def Nrfl : ℕ := 10
def RF_MODE_RW : Word := 3
def RF_MODE_N : Word := 4
def RF_MODE_O : Word := 8
def RF_MSG_OREQ : BitVec 16 := 0x0003
def RF_MSG_DREQ : BitVec 16 := 0x0004
def RF_MSG_TREQ : BitVec 16 := 0x0005
def RF_MSG_SREQ : BitVec 16 := 0x0006
def RF_MSG_MREQ : BitVec 16 := 0x0007
def RF_MSG_XREQ : BitVec 16 := 0x0008
def RF_MSG_CREQ : BitVec 16 := 0x0009
def RFS_CTL_DEL : Word := 1
def RFS_CTL_TRUNC : Word := 2
def RFS_CTL_MKDIR : Word := 3
def RFS_CTL_RMDIR : Word := 4
def RFS_CTL_SIZE : Word := 5

/-- Where `rf_mode` and `rf_size` are. -/
def MBITS : ℕ := 136
def SIZE : ℕ := 136

def hdrSize : ℤ := 136
def oresSize : ℤ := 140
def sresSize : ℤ := 140

/-- The table of remote files, with the data of the master device. -/
structure Rfs where
  rf : Rfscomm
  rfltab : ℕ → Rflcblk
  rfdev : ℕ → Word

/-- What a call returns, with the bytes that it stores for its caller. -/
structure Answer where
  retval : Word
  data : List (BitVec 8)
  deriving DecidableEq

def Answer.failed : Answer := ⟨SYSERR, []⟩

def Outcome.answer (o : Outcome) : Answer :=
  ⟨o.retval, (List.range o.stored).map o.buff⟩

def Rfs.put (s : Rfs) (i : ℕ) (rfptr : Rflcblk) : Rfs :=
  { s with rfltab := Function.update s.rfltab i rfptr }

/-- `rfscomm` and the tests of the response after it. -/
def transact (c : Call) (msg : Buffer) (rlen : ℤ) :
    Option (Rfscomm × Option Buffer) :=
  (rfscomm c.rf msg c.resp rlen c.dnslookup c.net).map fun (rf, _, e) =>
    (rf,
      if e.retval = SYSERR then none
      else if e.retval = TIMEOUT then none
      else if msgStatus e.reply ≠ 0 then none
      else some e.reply)

/-! ## One byte, and the position -/

def rflgetc (rfptr : Rflcblk) (ch : Buffer) (c : Call) : Option Outcome :=
  (rflread rfptr ch 1 c).map fun o =>
    { o with
      retval :=
        if o.retval = TIMEOUT then TIMEOUT
        else if o.retval = EOF ∨ o.retval = 0 then EOF
        else if o.retval ≠ 1 then SYSERR
        else (o.buff 0).setWidth 32 }

def rflputc (rfptr : Rflcblk) (ch : BitVec 8) (c : Call) : Option Outcome :=
  (rflwrite rfptr (fun _ => ch) 1 c).map fun o =>
    { o with retval := if o.retval ≠ 1 then SYSERR else OK }

def rflseek (rfptr : Rflcblk) (pos : Word) : Rflcblk × Word :=
  if ¬ rfptr.inUse then (rfptr, SYSERR)
  else ({ rfptr with rfpos := pos }, OK)

/-! ## Closing -/

/-- The fields before the name in a request of a type. -/
def header (type : BitVec 16) (msg : Buffer) : Buffer :=
  setWord (setHalf (setHalf msg 0 type) 2 0) 4 0

def closeRequest (rfptr : Rflcblk) (msg : Buffer) : Option Buffer :=
  (nameLoop rfptr.rfname RF_NAMLEN 0
    (clearName (header RF_MSG_CREQ msg))).map Prod.fst

def rflclose (rfptr : Rflcblk) (c : Call) :
    Option (Rfscomm × Rflcblk × Word) :=
  if ¬ rfptr.inUse then some (c.rf, rfptr, SYSERR)
  else
    match closeRequest rfptr c.msg with
    | none => some (c.rf, rfptr, SYSERR)
    | some msg =>
        (transact c msg hdrSize).map fun (rf, reply) =>
          match reply with
          | none => (rf, rfptr, SYSERR)
          | some _ => (rf, { rfptr with inUse := false }, OK)

/-! ## Opening -/

/-- `rfsgetmode` after some characters; `none` is `SYSERR`. -/
def rfsgetmode : List (BitVec 8) → Word → Option Word
  | [], mbits =>
      some (if mbits &&& RF_MODE_RW = 0 then mbits ||| RF_MODE_RW else mbits)
  | ch :: mode, mbits =>
      if ch = 0x72 then
        if mbits &&& RF_MODE_R ≠ 0 then none
        else rfsgetmode mode (mbits ||| RF_MODE_R)
      else if ch = 0x77 then
        if mbits &&& RF_MODE_W ≠ 0 then none
        else rfsgetmode mode (mbits ||| RF_MODE_W)
      else if ch = 0x6f then
        if mbits &&& RF_MODE_O ≠ 0 ∨ mbits &&& RF_MODE_N ≠ 0 then none
        else rfsgetmode mode (mbits ||| RF_MODE_O)
      else if ch = 0x6e then
        if mbits &&& RF_MODE_O ≠ 0 ∨ mbits &&& RF_MODE_N ≠ 0 then none
        else rfsgetmode mode (mbits ||| RF_MODE_N)
      else none

/-- The loop that copies a name into the table, and the length of the name;
`none` when it is too long. -/
def copyName (name : Buffer) : ℕ → ℕ → Buffer → Buffer × Option ℕ
  | 0, _, rfname => (rfname, none)
  | n + 1, len, rfname =>
      let rfname := Function.update rfname len (name len)
      if name len = 0 then (rfname, some len)
      else copyName name n (len + 1) rfname

def openRequest (name : Buffer) (mbits : Word) (msg : Buffer) : Buffer :=
  let msg := clearName (header RF_MSG_OREQ msg)
  setWord (restLoop name RF_NAMLEN 0 msg) MBITS mbits

/-- The entry that `rfsopen` takes. -/
def Rfs.freeEntry (s : Rfs) : Option ℕ :=
  (List.range Nrfl).find? fun i => ¬ (s.rfltab i).inUse

def Rfs.rfsopen (s : Rfs) (name : Buffer) (mode : List (BitVec 8)) (c : Call) :
    Option (Rfs × Word) :=
  match s.freeEntry with
  | none => some (s, SYSERR)
  | some i =>
      let (rfname, len) := copyName name RF_NAMLEN 0 (s.rfltab i).rfname
      let rfptr := { s.rfltab i with rfname := rfname }
      if len = none ∨ len = some 0 then some (s.put i rfptr, SYSERR)
      else
        match rfsgetmode mode 0 with
        | none => some (s.put i { rfptr with rfmode := SYSERR }, SYSERR)
        | some mbits =>
            let rfptr := { rfptr with rfmode := mbits }
            (transact c (openRequest name mbits c.msg) oresSize).map
              fun (rf, reply) =>
                match reply with
                | none => ({ s.put i rfptr with rf := rf }, SYSERR)
                | some _ =>
                    ({ s.put i { rfptr with rfpos := 0, inUse := true } with
                        rf := rf },
                      s.rfdev i)

/-! ## Control of files by name -/

/-- The request of `rfsndmsg`, whose name field is not cleared. -/
def headerRequest (type : BitVec 16) (name msg : Buffer) : Buffer :=
  restLoop name RF_NAMLEN 0 (header type msg)

def rfsndmsg (type : BitVec 16) (name : Buffer) (c : Call) :
    Option (Rfscomm × Word) :=
  (transact c (headerRequest type name c.msg) hdrSize).map fun (rf, reply) =>
    match reply with
    | none => (rf, SYSERR)
    | some _ => (rf, OK)

/-- The loop of `rfscontrol` that checks the name while it copies it. -/
def controlName (name : Buffer) : ℕ → ℕ → Buffer → Option Buffer
  | 0, _, _ => none
  | n + 1, len, msg =>
      let msg := Function.update msg (NAME + len) (name len)
      if name len = 0 then some msg
      else if len + 1 ≥ RF_NAMLEN - 1 then none
      else controlName name n (len + 1) msg

def sizeRequest (c : Call) (msg : Buffer) : Option (Rfscomm × Word) :=
  (rfscomm c.rf (header RF_MSG_SREQ msg) c.resp sresSize c.dnslookup c.net).map
    fun (rf, _, e) =>
      if e.retval = SYSERR ∨ e.retval = TIMEOUT then (rf, SYSERR)
      else (rf, e.reply.word SIZE)

/-- `rfscontrol`; `c.msg` is also what `rfsndmsg` finds on the stack. -/
def rfscontrol (func : Word) (name : Buffer) (c : Call) :
    Option (Rfscomm × Word) :=
  match controlName name RF_NAMLEN 0 (clearName c.msg) with
  | none => some (c.rf, SYSERR)
  | some msg =>
      if func = RFS_CTL_DEL then rfsndmsg RF_MSG_DREQ name c
      else if func = RFS_CTL_TRUNC then rfsndmsg RF_MSG_TREQ name c
      else if func = RFS_CTL_MKDIR then rfsndmsg RF_MSG_MREQ name c
      else if func = RFS_CTL_RMDIR then rfsndmsg RF_MSG_XREQ name c
      else if func = RFS_CTL_SIZE then sizeRequest c msg
      else some (c.rf, SYSERR)

/-! ## The calls as one machine -/

inductive Control where
  | del
  | trunc
  | mkdir
  | rmdir

def Control.func : Control → Word
  | .del => RFS_CTL_DEL
  | .trunc => RFS_CTL_TRUNC
  | .mkdir => RFS_CTL_MKDIR
  | .rmdir => RFS_CTL_RMDIR

/-- The type of the request for a control function. -/
def Control.type : Control → BitVec 16
  | .del => RF_MSG_DREQ
  | .trunc => RF_MSG_TREQ
  | .mkdir => RF_MSG_MREQ
  | .rmdir => RF_MSG_XREQ

inductive RfsCall where
  | rfsopen (name : Buffer) (mode : List (BitVec 8))
  | rflclose (i : ℕ)
  | rflread (i : ℕ) (buff : Buffer) (count : ℤ)
  | rflwrite (i : ℕ) (buff : Buffer) (count : ℤ)
  | rflgetc (i : ℕ) (ch : Buffer)
  | rflputc (i : ℕ) (ch : BitVec 8)
  | rflseek (i : ℕ) (pos : Word)
  | rfscontrol (k : Control) (name : Buffer)

/-- The request of `rflread`, if it gets as far as that. -/
def readSends (rfptr : Rflcblk) (count : ℤ) (msg : Buffer) : Option Buffer :=
  if count ≤ 0 ∨ count > RF_DATALEN then none
  else if ¬ rfptr.inUse then none
  else if rfptr.rfmode &&& RF_MODE_R = 0 then none
  else readRequest rfptr count msg

def writeSends (rfptr : Rflcblk) (buff : Buffer) (count : ℤ) (msg : Buffer) :
    Option Buffer :=
  if count ≤ 0 ∨ count > RF_DATALEN then none
  else if ¬ rfptr.inUse ∨ rfptr.rfmode &&& RF_MODE_W = 0 then none
  else writeRequest rfptr buff count msg

/-- `Rf_data` after a call with this request. -/
def rfAfter (c : Call) (request : Option Buffer) (rlen : ℤ) : Rfscomm :=
  ((request.bind fun msg => transact c msg rlen).map Prod.fst).getD c.rf

/-- The table after a transfer on the file `i`. -/
def Rfs.moved (s : Rfs) (i : ℕ) (o : Outcome) : Rfs :=
  s.put i { s.rfltab i with rfpos := o.rfpos }

/-- A call in a state, with what it meets in `c`; `none` is a panic. -/
def Rfs.call (s : Rfs) (c : Call) : RfsCall → Option (Rfs × Answer)
  | .rfsopen name mode =>
      (s.rfsopen name mode { c with rf := s.rf }).map fun (s, dev) =>
        (s, ⟨dev, []⟩)
  | .rflclose i =>
      (rflclose (s.rfltab i) { c with rf := s.rf }).map
        fun (rf, rfptr, retval) =>
          ({ s.put i rfptr with rf := rf }, ⟨retval, []⟩)
  | .rflread i buff count =>
      let c := { c with rf := s.rf }
      (rflread (s.rfltab i) buff count c).map fun o =>
        ({ s.moved i o with
            rf := rfAfter c (readSends (s.rfltab i) count c.msg) rresSize },
          o.answer)
  | .rflwrite i buff count =>
      let c := { c with rf := s.rf }
      (rflwrite (s.rfltab i) buff count c).map fun o =>
        ({ s.moved i o with
            rf := rfAfter c (writeSends (s.rfltab i) buff count c.msg)
              wresSize },
          o.answer)
  | .rflgetc i ch =>
      let c := { c with rf := s.rf }
      (rflgetc (s.rfltab i) ch c).map fun o =>
        ({ s.moved i o with
            rf := rfAfter c (readSends (s.rfltab i) 1 c.msg) rresSize },
          ⟨o.retval, []⟩)
  | .rflputc i ch =>
      let c := { c with rf := s.rf }
      (rflputc (s.rfltab i) ch c).map fun o =>
        ({ s.moved i o with
            rf := rfAfter c (writeSends (s.rfltab i) (fun _ => ch) 1 c.msg)
              wresSize },
          ⟨o.retval, []⟩)
  | .rflseek i pos =>
      let (rfptr, retval) := rflseek (s.rfltab i) pos
      some (s.put i rfptr, ⟨retval, []⟩)
  | .rfscontrol k name =>
      (rfscontrol k.func name { c with rf := s.rf }).map fun (rf, retval) =>
        ({ s with rf := rf }, ⟨retval, []⟩)

/-! ## What comes before and after the exchange -/

/-- A call ends without a request, or asks the server and finishes. -/
inductive Plan where
  | done (s : Rfs) (a : Answer)
  | ask (msg : Buffer) (rlen : ℤ) (finish : Option Buffer → Rfs × Answer)

def Plan.message : Plan → Option Buffer
  | .done _ _ => none
  | .ask msg _ _ => some msg

def Plan.run (c : Call) : Plan → Option (Rfs × Answer)
  | .done s a => some (s, a)
  | .ask msg rlen finish =>
      (transact c msg rlen).map fun (rf, reply) =>
        ({ (finish reply).1 with rf := rf }, (finish reply).2)

section Plans

variable {s : Rfs} {c : Call}

end Plans

end Xinu.RemoteFiles
