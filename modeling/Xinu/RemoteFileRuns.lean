import Xinu.OutputRuns
import Xinu.RemoteFileServer

/-!
# Remote files as plain files

The remote file system over a network that loses, repeats and delays messages
behaves as files with positions do: a call that succeeds is carried out once,
and a call that fails at most once.
-/

namespace Xinu.RemoteFiles

open ByteMemory RemoteExchange RemoteExchange.Buffer OutputRuns

/-! ## Plain files -/

structure Handle where
  name : FileName
  pos : Word
  readable : Bool
  writable : Bool

structure Plain where
  files : Files
  handles : ℕ → Option Handle

/-- The answer of a read that gets these bytes. -/
def readAnswer (bytes : List (BitVec 8)) : Answer :=
  ⟨if bytes = [] then EOF else BitVec.ofNat 32 bytes.length, bytes⟩

def byteAnswer : List (BitVec 8) → Answer
  | [] => ⟨EOF, []⟩
  | ch :: _ => ⟨ch.setWidth 32, []⟩

namespace Plain

variable (p : Plain)

def freeEntry : Option ℕ :=
  (List.range Nrfl).find? fun i => (p.handles i).isNone

/-- Bytes from the position of a file on; `none` is a call that cannot be
carried out. -/
def read (i : ℕ) (count : ℤ) (answer : List (BitVec 8) → Answer) :
    Option (Plain × Answer) :=
  if count ≤ 0 ∨ count > RF_DATALEN then none
  else
    (p.handles i).bind fun h =>
      if h.readable then
        (p.files h.name).map fun content =>
          let bytes := (content.drop h.pos.toNat).take count.toNat
          let pos := h.pos + BitVec.ofNat 32 bytes.length
          (⟨p.files, Function.update p.handles i (some { h with pos := pos })⟩,
            answer bytes)
      else none

def write (i : ℕ) (buff : Buffer) (count : ℤ) (answer : Answer) :
    Option (Plain × Answer) :=
  if count ≤ 0 ∨ count > RF_DATALEN then none
  else
    (p.handles i).bind fun h =>
      if h.writable then
        (p.files.write h.name h.pos.toNat
            ((List.range count.toNat).map buff)).map fun files =>
          let pos := h.pos + BitVec.ofInt 32 count
          (⟨files, Function.update p.handles i (some { h with pos := pos })⟩,
            answer)
      else none

def openFile (rfdev : ℕ → Word) (name : FileName) (mode : List (BitVec 8)) :
    Option (Plain × Answer) :=
  if name = [] ∨ name.length ≥ RF_NAMLEN then none
  else
    p.freeEntry.bind fun i =>
      (rfsgetmode mode 0).bind fun mbits =>
        (p.files.create name mbits).map fun files =>
          (⟨files, Function.update p.handles i
              (some ⟨name, 0, mbits &&& RF_MODE_R ≠ 0,
                mbits &&& RF_MODE_W ≠ 0⟩)⟩,
            ⟨rfdev i, []⟩)

/-- A control function; directories are not among the files. -/
def control (k : Control) (name : FileName) : Option (Plain × Answer) :=
  if name.length ≥ RF_NAMLEN - 1 then none
  else
    (match k with
      | .del => p.files.delete name
      | .trunc => p.files.truncate name
      | .mkdir => some p.files
      | .rmdir => some p.files).map fun files =>
        ({ p with files := files }, ⟨OK, []⟩)

/-- A call on files of one's own. -/
def run (rfdev : ℕ → Word) : RfsCall → Option (Plain × Answer)
  | .rfsopen name mode => p.openFile rfdev (nameOf name) mode
  | .rflclose i =>
      (p.handles i).map fun _ =>
        (⟨p.files, Function.update p.handles i none⟩, ⟨OK, []⟩)
  | .rflread i _ count => p.read i count readAnswer
  | .rflwrite i buff count =>
      p.write i buff count ⟨BitVec.ofInt 32 count, []⟩
  | .rflgetc i _ => p.read i 1 byteAnswer
  | .rflputc i ch => p.write i (fun _ => ch) 1 ⟨OK, []⟩
  | .rflseek i pos =>
      (p.handles i).map fun h =>
        (⟨p.files, Function.update p.handles i (some { h with pos := pos })⟩,
          ⟨OK, []⟩)
  | .rfscontrol k name => p.control k (nameOf name)

section Results

variable {p : Plain} {i : ℕ} {h : Handle}

end Results

end Plain

/-- A call that needs the server. -/
def RfsCall.Asks : RfsCall → Prop
  | .rflseek _ _ => False
  | _ => True

/-- What a call on remote files may do.  One that needs the server may fail at
any time, and then it may still have been carried out there. -/
inductive Plain.Step (rfdev : ℕ → Word) (p : Plain) (call : RfsCall) :
    Plain → Answer → Prop
  | carried {p' : Plain} {a : Answer} (h : p.run rfdev call = some (p', a)) :
      Plain.Step rfdev p call p' a
  | failed (h : call.Asks ∨ p.run rfdev call = none) :
      Plain.Step rfdev p call p .failed
  | unreported {p' : Plain} {a : Answer} (hasks : call.Asks)
      (h : p.run rfdev call = some (p', a)) :
      Plain.Step rfdev p call { p with files := p'.files } .failed

/-! ## The files behind a state -/

def Rflcblk.handle (rfptr : Rflcblk) : Option Handle :=
  if rfptr.inUse then
    some ⟨nameOf rfptr.rfname, rfptr.rfpos, rfptr.rfmode &&& RF_MODE_R ≠ 0,
      rfptr.rfmode &&& RF_MODE_W ≠ 0⟩
  else none

def Rfs.handles (s : Rfs) (i : ℕ) : Option Handle := (s.rfltab i).handle

/-- What a plan has to do for the call to behave as on plain files. -/
def Plan.Law (s : Rfs) (call : RfsCall) : Plan → Prop
  | .done s' a =>
      s'.rf = s.rf ∧ s'.rfdev = s.rfdev ∧
        ∀ files, Plain.Step s.rfdev ⟨files, s.handles⟩ call
          ⟨files, s'.handles⟩ a
  | .ask msg rlen finish =>
      Fits msg rlen ∧ call.Asks ∧ (∀ reply, (finish reply).1.rfdev = s.rfdev) ∧
        (finish none).1.handles = s.handles ∧ (finish none).2 = .failed ∧
        ∀ files files', effect msg files = some files' →
          ∃ handles a,
            Plain.run ⟨files, s.handles⟩ s.rfdev call =
              some (⟨files', handles⟩, a) ∧
            ∀ resp, Reports msg files resp →
              (finish (some resp)).1.handles = handles ∧
                (finish (some resp)).2 = a

section Laws

variable {s s' : Rfs} {i : ℕ} {stack : Buffer} {w w' : World} {c : Call}
  {call : RfsCall} {a : Answer} {n : ℕ}

section Transfers

variable {count : ℤ} {rfptr : Rflcblk} {msg buff resp : Buffer}

end Transfers

/-! ### Other calls -/

end Laws

/-! ## Runs -/

end Xinu.RemoteFiles
