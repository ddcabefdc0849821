import Xinu.RemoteFileCalls

/-!
# The messages of the remote file system

What the requests of the calls hold in the fields that the server reads.
-/

namespace Xinu.RemoteFiles

open ByteMemory RemoteExchange RemoteExchange.Buffer

/-! ## Fields of messages -/

/-- The bytes before the null byte, in an area of `n` bytes from `k` on. -/
def cstring (b : Buffer) : ℕ → ℕ → List (BitVec 8)
  | 0, _ => []
  | n + 1, k => if b k = 0 then [] else b k :: cstring b n (k + 1)

abbrev FileName := List (BitVec 8)

def nameOf (name : Buffer) : FileName := cstring name RF_NAMLEN 0

/-- The name in a request. -/
def fileName (msg : Buffer) : FileName := nameOf fun k => msg (NAME + k)

/-- The bytes in a write request. -/
def fileData (msg : Buffer) : List (BitVec 8) :=
  (List.range (msg.word LEN).toNat).map fun k => msg (DATA + k)

section Fields

variable {b b' msg : Buffer} {i k n len : ℕ}

theorem word_congr (h : ∀ k, i ≤ k → k < i + 4 → b k = b' k) :
    b.word i = b'.word i := by
  unfold Buffer.word
  rw [h i (by omega) (by omega), h (i + 1) (by omega) (by omega),
    h (i + 2) (by omega) (by omega), h (i + 3) (by omega) (by omega)]

theorem half_congr (h : ∀ k, i ≤ k → k < i + 2 → b k = b' k) :
    b.half i = b'.half i := by
  unfold Buffer.half
  rw [h i (by omega) (by omega), h (i + 1) (by omega) (by omega)]

theorem word_setWord (x : Word) : (setWord b i x).word i = x := by
  unfold Buffer.word setWord
  rw [if_pos (by omega), if_pos (by omega), if_pos (by omega),
    if_pos (by omega), show 8 * (i + 3 - i) = 24 by omega,
    show 8 * (i + 3 - (i + 1)) = 16 by omega,
    show 8 * (i + 3 - (i + 2)) = 8 by omega,
    show 8 * (i + 3 - (i + 3)) = 0 by omega]
  exact word_of_bytes x

theorem setSeq_of_far {seq : Word} (h : k < 4 ∨ 8 ≤ k) :
    setSeq msg seq k = msg k := by
  rw [setSeq, if_neg (by omega)]

theorem msgSeq_setSeq (msg : Buffer) (seq : Word) :
    msgSeq (setSeq msg seq) = seq := by
  have hset : setSeq msg seq = setWord msg 4 seq := by
    funext k
    simp only [setSeq, setWord]
  rw [msgSeq, hset, word_setWord]

end Fields

/-! ## The requests of the calls -/

section Requests

variable {rfptr : Rflcblk} {name rfname msg msg' : Buffer} {n len len' : ℕ}

theorem fileName_congr (h : ∀ k, NAME ≤ k → k < NAME + RF_NAMLEN →
    msg k = msg' k) : fileName msg = fileName msg' := by
  have hgen : ∀ n k, k + n ≤ RF_NAMLEN →
      cstring (fun k => msg (NAME + k)) n k =
        cstring (fun k => msg' (NAME + k)) n k := by
    intro n
    induction n with
    | zero => exact fun _ _ => rfl
    | succ n ih =>
        intro k hk
        rw [cstring, cstring, h (NAME + k) (by omega) (by omega),
          ih (k + 1) (by omega)]
  exact hgen RF_NAMLEN 0 (by omega)

/-- What a request for the bytes of a file tells the server. -/
structure Asks (type : BitVec 16) (rfptr : Rflcblk) (count : ℤ) (msg : Buffer) :
    Prop where
  type_eq : msgType msg = type
  name_eq : fileName msg = nameOf rfptr.rfname
  pos_eq : msg.word POS = rfptr.rfpos
  len_eq : msg.word LEN = BitVec.ofInt 32 count

/-- The sequence number changes no other field. -/
theorem setSeq_fields (msg : Buffer) (seq : Word) :
    msgType (setSeq msg seq) = msgType msg ∧
      fileName (setSeq msg seq) = fileName msg ∧
      fileData (setSeq msg seq) = fileData msg ∧
      ∀ i, 8 ≤ i → (setSeq msg seq).word i = msg.word i := by
  have hword : ∀ i, 8 ≤ i → (setSeq msg seq).word i = msg.word i :=
    fun i hi => word_congr fun k hk _ => setSeq_of_far (by omega)
  refine ⟨half_congr fun k _ hk => setSeq_of_far (by omega),
    fileName_congr fun k hk _ => setSeq_of_far ?_, ?_, hword⟩
  · simp only [NAME] at hk
    omega
  · unfold fileData
    rw [hword LEN (by simp only [LEN]; omega)]
    refine List.map_congr_left fun k _ => setSeq_of_far ?_
    simp only [DATA]
    omega

end Requests

end Xinu.RemoteFiles
