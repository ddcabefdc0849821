import Xinu.RemoteFileMessages
import Xinu.RepeatedRequests

/-!
# The server of the remote file system

The server is not part of the kernel; what it does with a request is stated as
the message formats describe it, and it may refuse any request.  The network
may lose requests and replies, deliver a request any number of times until the
next exchange begins, and deliver any reply at any later time, any number of
times.  `rf_mutex` makes the exchanges of all processes follow each other.
-/

namespace Xinu.RemoteFiles

open ByteMemory RemoteExchange RemoteExchange.Buffer

/-! ## The files of the server -/

abbrev Files := FileName → Option (List (BitVec 8))

/-- Bytes written at a position; a file that ends before it is filled with
zeros. -/
def overwrite (content : List (BitVec 8)) (pos : ℕ) (bytes : List (BitVec 8)) :
    List (BitVec 8) :=
  content.take pos ++ List.replicate (pos - content.length) 0 ++ bytes ++
    content.drop (pos + bytes.length)

namespace Files

variable (files : Files) (name : FileName)

def set (content : Option (List (BitVec 8))) : Files :=
  Function.update files name content

/-- `none` is a request that cannot be carried out. -/
def read : Option Files := (files name).map fun _ => files

def write (pos : ℕ) (bytes : List (BitVec 8)) : Option Files :=
  (files name).map fun content =>
    files.set name (some (overwrite content pos bytes))

def create (mbits : Word) : Option Files :=
  match files name with
  | some _ => if mbits &&& RF_MODE_N = 0 then some files else none
  | none =>
      if mbits &&& RF_MODE_O = 0 then some (files.set name (some [])) else none

def delete : Option Files := (files name).map fun _ => files.set name none

def truncate : Option Files :=
  (files name).map fun _ => files.set name (some [])

end Files

section Stable

variable (name : FileName)

end Stable

/-! ## What the server does with a request -/

/-- The files after a request that is carried out. -/
def effect (msg : Buffer) (files : Files) : Option Files :=
  if msgType msg = RF_MSG_RREQ then files.read (fileName msg)
  else if msgType msg = RF_MSG_WREQ then
    files.write (fileName msg) (msg.word POS).toNat (fileData msg)
  else if msgType msg = RF_MSG_OREQ then
    files.create (fileName msg) (msg.word MBITS)
  else if msgType msg = RF_MSG_DREQ then files.delete (fileName msg)
  else if msgType msg = RF_MSG_TREQ then files.truncate (fileName msg)
  else some files

/-- What a response without an error says. -/
structure Reports (msg : Buffer) (files : Files) (reply : Buffer) : Prop where
  read : msgType msg = RF_MSG_RREQ → ∀ content,
    files (fileName msg) = some content →
      fileData reply =
        (content.drop (msg.word POS).toNat).take (msg.word LEN).toNat
  written : msgType msg = RF_MSG_WREQ → reply.word LEN = msg.word LEN

/-- The bytes of a response up to the end of its last field. -/
def replySize (msg reply : Buffer) : ℕ :=
  if msgType msg = RF_MSG_RREQ then DATA + (reply.word LEN).toNat
  else if msgType msg = RF_MSG_WREQ then DATA
  else NAME + RF_NAMLEN

structure Datagram where
  udplen : BitVec 16
  udpdata : Buffer

/-- One execution of a request, with the response. -/
structure Serves (msg : Buffer) (files : Files) (d : Datagram)
    (files' : Files) : Prop where
  type : msgType d.udpdata = msgType msg ||| RF_MSG_RESPONSE
  seq : msgSeq d.udpdata = msgSeq msg
  hdr : UDP_HDR_LEN + hdrSize ≤ d.udplen.toNat
  outcome :
    (msgStatus d.udpdata ≠ 0 ∧ files' = files) ∨
      (effect msg files = some files' ∧ Reports msg files d.udpdata ∧
        UDP_HDR_LEN + replySize msg d.udpdata ≤ d.udplen.toNat)

/-- A response to a request, as the client has to receive it. -/
def Complete (msg : Buffer) (files : Files) (d : Datagram) : Prop :=
  Reports msg files d.udpdata ∧
    UDP_HDR_LEN + replySize msg d.udpdata ≤ d.udplen.toNat

/-- The files of the server, and all responses that it has sent so far. -/
structure World where
  files : Files
  replies : Set Datagram

/-- Copies of a request come to the server. -/
def Executes (msg : Buffer) (w w' : World) : Prop :=
  ∃ ds, RepeatedRequests.Served (Serves msg) w.files ds w'.files ∧
    w'.replies = w.replies ∪ {d | d ∈ ds}

/-- What `udp_recv` can find. -/
def World.Arrives (w : World) (a : Arrival) : Prop :=
  a = .timeout ∨ a = .error ∨
    ∃ d ∈ w.replies, a = .datagram d.udplen d.udpdata

/-- The turns of an exchange, and what the server does until the next one. -/
inductive Conversation (msg : Buffer) : List Attempt → World → World → Prop
  | nil {w w' : World} (h : Executes msg w w') : Conversation msg [] w w'
  | cons {w w' w'' : World} {attempt : Attempt} {attempts : List Attempt}
      (h : Executes msg w w') (harrives : w'.Arrives attempt.arrival)
      (hrest : Conversation msg attempts w' w'') :
      Conversation msg (attempt :: attempts) w w''

section Network

variable {msg : Buffer} {w w' w'' : World} {attempts : List Attempt}

theorem Executes.trans (h : Executes msg w w') (h' : Executes msg w' w'') :
    Executes msg w w'' := by
  obtain ⟨ds, hserved, hreplies⟩ := h
  obtain ⟨ds', hserved', hreplies'⟩ := h'
  refine ⟨ds ++ ds', hserved.append hserved', ?_⟩
  rw [hreplies', hreplies]
  ext d
  simp [or_assoc]

theorem Executes.subset (h : Executes msg w w') : w.replies ⊆ w'.replies := by
  obtain ⟨ds, -, hreplies⟩ := h
  rw [hreplies]
  exact Set.subset_union_left

theorem Conversation.executes (h : Conversation msg attempts w w') :
    Executes msg w w' := by
  induction h with
  | nil h => exact h
  | cons h _ _ ih => exact h.trans ih

/-- A loop that ends with a reply has received it from the server. -/
theorem Conversation.received
    {tests : Buffer → Option Bool} {finish : Buffer → Word → Word} {rlen : ℤ}
    {xmit : Bool} {reply : Buffer} (h : Conversation msg attempts w w')
    (htimeout : (exchange tests finish rlen attempts xmit reply).retval ≠
      TIMEOUT)
    (hfailed : (exchange tests finish rlen attempts xmit reply).retval ≠
      SYSERR) :
    ∃ d ∈ w'.replies, ∃ buff,
      (exchange tests finish rlen attempts xmit reply).reply =
        (udpRecv buff rlen (.datagram d.udplen d.udpdata)).2 := by
  induction h generalizing xmit reply with
  | nil => exact absurd rfl htimeout
  | @cons w w₁ w' attempt attempts _ harrives hrest ih =>
      rcases turn_cases rlen attempt xmit reply with
        hsent | ⟨hsent, hlost⟩ | ⟨hsent, herror⟩ | hexamines
      · rw [exchange_unsent hsent] at hfailed
        exact absurd rfl hfailed
      · rw [exchange_lost hsent hlost] at htimeout hfailed ⊢
        exact ih htimeout hfailed
      · rw [exchange_failed hsent herror] at hfailed
        exact absurd rfl hfailed
      · rw [exchange_examined hexamines] at htimeout hfailed ⊢
        cases htests : tests (udpRecv reply rlen attempt.arrival).2 with
        | some xmit =>
            rw [htests] at htimeout hfailed
            exact ih htimeout hfailed
        | none =>
            rcases harrives with harrival | harrival | ⟨d, hd, harrival⟩
            · exact absurd (by rw [harrival]; rfl) hexamines.in_time
            · exact absurd (by rw [harrival]; rfl) hexamines.received
            · exact ⟨d, hrest.executes.subset hd, reply, by rw [harrival]⟩

end Network

/-! ## The responses that a call accepts -/

/-- All responses are whole and answer the last `n` requests. -/
def Numbered (n : ℕ) (rf : Rfscomm) (w : World) : Prop :=
  ∀ d ∈ w.replies, UDP_HDR_LEN + hdrSize ≤ d.udplen.toNat ∧
    ∃ m, 1 ≤ m ∧ m ≤ n ∧ msgSeq d.udpdata = rf.rf_seq - BitVec.ofNat 32 m

/-- The buffer for the response is as large as its fields. -/
structure Fits (msg : Buffer) (rlen : ℤ) : Prop where
  hdr : hdrSize ≤ rlen
  read : msgType msg = RF_MSG_RREQ →
    rlen = rresSize ∧ (msg.word LEN).toNat ≤ RF_DATALEN
  written : msgType msg = RF_MSG_WREQ → rlen = wresSize

section Accepted

variable {msg buff resp : Buffer} {files files' : Files} {d : Datagram}
  {w w' : World} {c : Call} {rf rf' : Rfscomm} {rlen : ℤ} {n : ℕ}
  {reply : Option Buffer}

theorem Numbered.fresh
    (h : Numbered n rf w) (hn : n < 2 ^ 32) (hd : d ∈ w.replies) :
    msgSeq d.udpdata ≠ rf.rf_seq := by
  obtain ⟨-, m, hm, hmn, hseq⟩ := h d hd
  rw [hseq]
  intro heq
  bv_omega

theorem Numbered.skip (h : Numbered n rf w) : Numbered (n + 1) rf w := by
  intro d hd
  obtain ⟨hhdr, m, hm, hmn, hseq⟩ := h d hd
  exact ⟨hhdr, m, hm, hmn.trans (Nat.le_succ n), hseq⟩

theorem Numbered.next
    (h : Numbered n rf w) (hex : Executes (setSeq msg rf.rf_seq) w w')
    (hrf : rf'.rf_seq = rf.rf_seq + 1) : Numbered (n + 1) rf' w' := by
  obtain ⟨ds, hserved, hreplies⟩ := hex
  intro d hd
  rw [hreplies] at hd
  rcases hd with hold | hnew
  · obtain ⟨hhdr, m, hm, hmn, hseq⟩ := h d hold
    refine ⟨hhdr, m + 1, by omega, by omega, ?_⟩
    rw [hseq, hrf, BitVec.ofNat_add]
    bv_omega
  · obtain ⟨s, t, hserve⟩ := hserved.exists_of_mem hnew
    refine ⟨hserve.hdr, 1, le_rfl, by omega, ?_⟩
    rw [hserve.seq, msgSeq_setSeq, hrf]
    bv_omega

theorem udpRecv_apply {k : ℕ} {udplen : BitVec 16} {data : Buffer}
    (hk : (k : ℤ) < rlen) (hk' : UDP_HDR_LEN + k < udplen.toNat) :
    (udpRecv buff rlen (.datagram udplen data)).2 k = data k := by
  simp only [udpRecv]
  split_ifs <;> first | rfl | omega

/-- A response that is received whole says what it said. -/
theorem Complete.received
    (h : Complete msg files d) (hfits : Fits msg rlen) :
    Reports msg files
      (udpRecv buff rlen (.datagram d.udplen d.udpdata)).2 := by
  obtain ⟨hreports, hsize⟩ := h
  constructor
  · intro htype content hname
    have hread := hreports.read htype content hname
    obtain ⟨hrlen, hcount⟩ := hfits.read htype
    rw [replySize, if_pos htype] at hsize
    have hlen : (d.udpdata.word LEN).toNat ≤ 1024 := by
      have hlength := congrArg List.length hread
      simp only [fileData, List.length_map, List.length_range,
        List.length_take] at hlength
      simp only [RF_DATALEN] at hcount
      omega
    have hword : (udpRecv buff rlen (.datagram d.udplen d.udpdata)).2.word LEN =
        d.udpdata.word LEN := by
      refine word_congr fun k _ hk => udpRecv_apply ?_ ?_
      · simp only [LEN, hrlen, rresSize] at hk ⊢
        omega
      · simp only [LEN, DATA] at hk hsize
        omega
    rw [← hread]
    unfold fileData
    rw [hword]
    refine List.map_congr_left fun k hk => udpRecv_apply ?_ ?_
    all_goals rw [List.mem_range] at hk
    · simp only [DATA, hrlen, rresSize]
      omega
    · omega
  · intro htype
    have hother : msgType msg ≠ RF_MSG_RREQ := by
      rw [htype]
      decide
    rw [replySize, if_neg hother, if_pos htype] at hsize
    rw [← hreports.written htype]
    refine word_congr fun k _ hk => udpRecv_apply ?_ ?_
    · simp only [LEN, hfits.written htype, wresSize] at hk ⊢
      omega
    · simp only [LEN, DATA] at hk hsize
      omega

theorem Fits.setSeq (h : Fits msg rlen) (seq : Word) :
    Fits (setSeq msg seq) rlen := by
  obtain ⟨htype, -, -, hword⟩ := setSeq_fields msg seq
  constructor
  · exact h.hdr
  · rw [htype, hword LEN (by decide)]
    exact h.read
  · rw [htype]
    exact h.written

end Accepted

end Xinu.RemoteFiles
