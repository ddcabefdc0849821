import Xinu.HeapAllocator

/-!
# Exchanges with a remote server

`rdscomm` and `rfscomm` number a request, send it and wait for the reply with
that number, a few times.  The environment decides what each send returns and
what arrives before each timeout, so late, repeated and reordered replies are
all among the arrivals.  The two functions share the loop and differ in the
tests that a reply has to pass.
-/

namespace Xinu.RemoteExchange

open ByteMemory

/-- Bytes from the start of a message. -/
abbrev Buffer := ℕ → BitVec 8

def UDP_HDR_LEN : ℤ := 8
def RD_RETRIES : ℕ := 3
def RF_RETRIES : ℕ := 3
def RD_MSG_RESPONSE : BitVec 16 := 0x0100
def RF_MSG_RESPONSE : BitVec 16 := 0x0100

/-! ## Message headers -/

namespace Buffer

variable (b : Buffer)

/-- `ntohs` of the two bytes at `i`. -/
def half (i : ℕ) : BitVec 16 := b i ++ b (i + 1)

/-- `ntohl` of the four bytes at `i`. -/
def word (i : ℕ) : Word := b i ++ b (i + 1) ++ b (i + 2) ++ b (i + 3)

def msgType : BitVec 16 := half b 0
def msgStatus : BitVec 16 := half b 2
def msgSeq : Word := word b 4

/-- `msg->rd_seq = htonl(seq)` -/
def setSeq (seq : Word) : Buffer := fun i =>
  if 4 ≤ i ∧ i < 8 then seq.extractLsb' (8 * (7 - i)) 8 else b i

end Buffer

open Buffer

/-- `rtype != (ntohs(msg->rd_type) | RD_MSG_RESPONSE)`, where `rtype` is a
signed 16-bit variable. -/
def otherType (response : BitVec 16) (msg reply : Buffer) : Bool :=
  (msgType reply).toInt != ((msgType msg ||| response).toNat : ℤ)

/-! ## Sending and receiving -/

/-- What `udp_recv` waits for. -/
inductive Arrival
  | timeout
  | error
  | datagram (udplen : BitVec 16) (udpdata : Buffer)

/-- The answer of `udp_recv` and the buffer afterwards. -/
def udpRecv (buff : Buffer) (len : ℤ) : Arrival → Word × Buffer
  | .timeout => (TIMEOUT, buff)
  | .error => (SYSERR, buff)
  | .datagram udplen udpdata =>
      let msglen := (udplen.toNat : ℤ) - UDP_HDR_LEN
      let msglen := if len < msglen then len else msglen
      (BitVec.ofInt 32 msglen,
        fun i => if (i : ℤ) < msglen then udpdata i else buff i)

/-- One turn of the loop: what `udp_send` returns, if it is called, and what
`udp_recv` then finds. -/
structure Attempt where
  sent : Word
  arrival : Arrival

/-- How the loop ends, with the replies that came to the sequence test. -/
structure Exchanged where
  retval : Word
  reply : Buffer
  examined : List Buffer

def Exchanged.after (b : Buffer) (e : Exchanged) : Exchanged :=
  { e with examined := b :: e.examined }

/-- The loop over the retries.  The tests drop a reply with the next value of
`xmit`, or let it pass to `finish`. -/
def exchange
    (tests : Buffer → Option Bool) (finish : Buffer → Word → Word) (rlen : ℤ) :
    List Attempt → Bool → Buffer → Exchanged
  | [], _, reply => ⟨TIMEOUT, reply, []⟩
  | attempt :: attempts, xmit, reply =>
      if xmit ∧ attempt.sent = SYSERR then ⟨SYSERR, reply, []⟩
      else
        let (retval, reply) := udpRecv reply rlen attempt.arrival
        if retval = TIMEOUT then exchange tests finish rlen attempts true reply
        else if retval = SYSERR then ⟨SYSERR, reply, []⟩
        else
          match tests reply with
          | some xmit =>
              (exchange tests finish rlen attempts xmit reply).after reply
          | none => ⟨finish reply retval, reply, [reply]⟩

/-! ## The remote disk -/

/-- The fields of `rdscblk` that `rdscomm` uses. -/
structure Rdscomm where
  rd_seq : Word
  rd_registered : Bool
  rd_udpslot : Word

/-- What the calls of `rdscomm` return. -/
structure Network where
  slot : Word
  ipvalid : Bool
  localip : Word
  attempts : ℕ → Attempt

/-- The sequence and type tests of `rdscomm`.  A smaller number only clears
`xmit`. -/
def rdsTests (seq : Word) (msg reply : Buffer) : Option Bool :=
  let xmit := true
  if msgSeq reply < seq then
    let xmit := false
    if otherType RD_MSG_RESPONSE msg reply then some xmit else none
  else if msgSeq reply ≠ seq then some xmit
  else if otherType RD_MSG_RESPONSE msg reply then some xmit
  else none

def rdsStatus (reply : Buffer) (_retval : Word) : Word :=
  if msgStatus reply ≠ 0 then SYSERR else OK

/-- The registration at the start of `rdscomm`. -/
def rdsRegister (rd : Rdscomm) (net : Network) : Rdscomm × Word :=
  if ¬ rd.rd_registered ∧ net.slot = SYSERR then (rd, SYSERR)
  else
    let rd := if rd.rd_registered then rd
      else { rd with rd_udpslot := net.slot, rd_registered := true }
    if ¬ net.ipvalid ∧ net.localip = SYSERR then (rd, SYSERR) else (rd, OK)

/-- The turns of the loop of `rdscomm`. -/
def rdsAttempts (net : Network) : List Attempt :=
  (List.range RD_RETRIES).map net.attempts

def rdscomm (rd : Rdscomm) (msg reply : Buffer) (rlen : ℤ) (net : Network) :
    Rdscomm × Buffer × Exchanged :=
  let (rd, retval) := rdsRegister rd net
  if retval = SYSERR then (rd, msg, ⟨SYSERR, reply, []⟩)
  else
    let seq := rd.rd_seq
    let rd := { rd with rd_seq := seq + 1 }
    let msg := setSeq msg seq
    (rd, msg, exchange (rdsTests seq msg) rdsStatus rlen (rdsAttempts net)
      true reply)

/-! ## The remote file system -/

/-- The fields of `Rf_data` that `rfscomm` uses. -/
structure Rfscomm where
  rf_seq : Word
  rf_registered : Bool
  rf_udp_slot : Word

def rfsTests (seq : Word) (msg reply : Buffer) : Option Bool :=
  if msgSeq reply ≠ seq then some true
  else if otherType RF_MSG_RESPONSE msg reply then some true
  else none

def rfsAttempts (net : Network) : List Attempt :=
  (List.range RF_RETRIES).map net.attempts

/-- `rfscomm`, which panics if the server's name has no address. -/
def rfscomm
    (rf : Rfscomm) (msg reply : Buffer) (rlen : ℤ) (dnslookup : Word)
    (net : Network) : Option (Rfscomm × Buffer × Exchanged) :=
  if ¬ rf.rf_registered ∧ dnslookup = SYSERR then none
  else if ¬ rf.rf_registered ∧ net.slot = SYSERR then
    some (rf, msg, ⟨SYSERR, reply, []⟩)
  else
    let rf := if rf.rf_registered then rf
      else { rf with rf_udp_slot := net.slot, rf_registered := true }
    let seq := rf.rf_seq
    let rf := { rf with rf_seq := seq + 1 }
    let msg := setSeq msg seq
    some (rf, msg, exchange (rfsTests seq msg) (fun _ retval => retval) rlen
      (rfsAttempts net) true reply)

/-! ## What an exchange should guarantee -/

/-- The reply answers the request `msg`, without an error. -/
structure Answers (seq : Word) (msg reply : Buffer) : Prop where
  seq_eq : msgSeq reply = seq
  type_eq : msgType reply = msgType msg ||| RD_MSG_RESPONSE
  status_eq : msgStatus reply = 0

/-- A success comes with an answer to the request, and every reply that is
examined passes the tests exactly if it passes those of `rfscomm`. -/
structure ExchangeLaw
    (rd : Rdscomm) (msg reply : Buffer) (rlen : ℤ) (net : Network) : Prop where
  answered : (rdscomm rd msg reply rlen net).2.2.retval = OK →
    Answers rd.rd_seq (rdscomm rd msg reply rlen net).2.1
      (rdscomm rd msg reply rlen net).2.2.reply
  tests_agree : ∀ b ∈ (rdscomm rd msg reply rlen net).2.2.examined,
    rdsTests rd.rd_seq (rdscomm rd msg reply rlen net).2.1 b = none ↔
      rfsTests rd.rd_seq (rdscomm rd msg reply rlen net).2.1 b = none

/-- A reply to an earlier request of the same type. -/
def Stale (seq : Word) (msg reply : Buffer) : Prop :=
  msgSeq reply < seq ∧ otherType RD_MSG_RESPONSE msg reply = false

/-- The reply is received and examined in this turn. -/
structure Examines (rlen : ℤ) (attempt : Attempt) (xmit : Bool)
    (reply : Buffer) : Prop where
  sent : ¬ (xmit ∧ attempt.sent = SYSERR)
  in_time : (udpRecv reply rlen attempt.arrival).1 ≠ TIMEOUT
  received : (udpRecv reply rlen attempt.arrival).1 ≠ SYSERR

/-- A stale reply comes before the exchange is over. -/
inductive StaleArrives (seq : Word) (msg : Buffer) (rlen : ℤ) :
    List Attempt → Bool → Buffer → Prop
  | now {attempt attempts} {xmit : Bool} {reply}
      (hexamines : Examines rlen attempt xmit reply)
      (hstale : Stale seq msg (udpRecv reply rlen attempt.arrival).2) :
      StaleArrives seq msg rlen (attempt :: attempts) xmit reply
  | lost {attempt attempts} {xmit : Bool} {reply}
      (hsent : ¬ (xmit ∧ attempt.sent = SYSERR))
      (htimeout : (udpRecv reply rlen attempt.arrival).1 = TIMEOUT)
      (hlater : StaleArrives seq msg rlen attempts true
        (udpRecv reply rlen attempt.arrival).2) :
      StaleArrives seq msg rlen (attempt :: attempts) xmit reply
  | dropped {attempt attempts} {xmit xmit' : Bool} {reply}
      (hexamines : Examines rlen attempt xmit reply)
      (hdropped : rdsTests seq msg (udpRecv reply rlen attempt.arrival).2 =
        some xmit')
      (hlater : StaleArrives seq msg rlen attempts xmit'
        (udpRecv reply rlen attempt.arrival).2) :
      StaleArrives seq msg rlen (attempt :: attempts) xmit reply

/-! ## The loop -/

section Loop

variable
    {tests : Buffer → Option Bool} {finish : Buffer → Word → Word} {rlen : ℤ}
    {attempt : Attempt} {attempts : List Attempt} {xmit : Bool} {reply : Buffer}

theorem exchange_unsent (hsent : xmit ∧ attempt.sent = SYSERR) :
    exchange tests finish rlen (attempt :: attempts) xmit reply =
      ⟨SYSERR, reply, []⟩ :=
  if_pos hsent

theorem exchange_lost
    (hsent : ¬ (xmit ∧ attempt.sent = SYSERR))
    (htimeout : (udpRecv reply rlen attempt.arrival).1 = TIMEOUT) :
    exchange tests finish rlen (attempt :: attempts) xmit reply =
      exchange tests finish rlen attempts true
        (udpRecv reply rlen attempt.arrival).2 :=
  (if_neg hsent).trans (if_pos htimeout)

theorem exchange_failed
    (hsent : ¬ (xmit ∧ attempt.sent = SYSERR))
    (hfailed : (udpRecv reply rlen attempt.arrival).1 = SYSERR) :
    exchange tests finish rlen (attempt :: attempts) xmit reply =
      ⟨SYSERR, (udpRecv reply rlen attempt.arrival).2, []⟩ := by
  have hreceived : (udpRecv reply rlen attempt.arrival).1 ≠ TIMEOUT := by
    rw [hfailed]
    decide
  exact (if_neg hsent).trans ((if_neg hreceived).trans (if_pos hfailed))

theorem exchange_examined (h : Examines rlen attempt xmit reply) :
    exchange tests finish rlen (attempt :: attempts) xmit reply =
      match tests (udpRecv reply rlen attempt.arrival).2 with
      | some xmit =>
          (exchange tests finish rlen attempts xmit
            (udpRecv reply rlen attempt.arrival).2).after
              (udpRecv reply rlen attempt.arrival).2
      | none => ⟨finish (udpRecv reply rlen attempt.arrival).2
          (udpRecv reply rlen attempt.arrival).1,
          (udpRecv reply rlen attempt.arrival).2,
          [(udpRecv reply rlen attempt.arrival).2]⟩ :=
  (if_neg h.sent).trans ((if_neg h.in_time).trans (if_neg h.received))

/-- The four ways in which a turn can go. -/
theorem turn_cases
    (rlen : ℤ) (attempt : Attempt) (xmit : Bool) (reply : Buffer) :
    (xmit ∧ attempt.sent = SYSERR) ∨
      (¬ (xmit ∧ attempt.sent = SYSERR) ∧
        (udpRecv reply rlen attempt.arrival).1 = TIMEOUT) ∨
      (¬ (xmit ∧ attempt.sent = SYSERR) ∧
        (udpRecv reply rlen attempt.arrival).1 = SYSERR) ∨
      Examines rlen attempt xmit reply := by
  by_cases hsent : xmit ∧ attempt.sent = SYSERR
  · exact Or.inl hsent
  · by_cases htimeout : (udpRecv reply rlen attempt.arrival).1 = TIMEOUT
    · exact Or.inr (Or.inl ⟨hsent, htimeout⟩)
    · by_cases hfailed : (udpRecv reply rlen attempt.arrival).1 = SYSERR
      · exact Or.inr (Or.inr (Or.inl ⟨hsent, hfailed⟩))
      · exact Or.inr (Or.inr (Or.inr ⟨hsent, htimeout, hfailed⟩))

/-- A loop that neither fails nor runs out of retries ends with a reply that
passes the tests. -/
theorem exchange_accepted
    (htimeout : (exchange tests finish rlen attempts xmit reply).retval ≠
      TIMEOUT)
    (hfailed : (exchange tests finish rlen attempts xmit reply).retval ≠
      SYSERR) :
    (exchange tests finish rlen attempts xmit reply).reply ∈
        (exchange tests finish rlen attempts xmit reply).examined ∧
      tests (exchange tests finish rlen attempts xmit reply).reply = none ∧
      ∃ retval, (exchange tests finish rlen attempts xmit reply).retval =
        finish (exchange tests finish rlen attempts xmit reply).reply retval := by
  induction attempts generalizing xmit reply with
  | nil => exact absurd rfl htimeout
  | cons attempt attempts ih =>
      rcases turn_cases rlen attempt xmit reply with
        hsent | ⟨hsent, hlost⟩ | ⟨hsent, herror⟩ | hexamines
      · rw [exchange_unsent hsent] at hfailed
        exact absurd rfl hfailed
      · rw [exchange_lost hsent hlost] at htimeout hfailed ⊢
        exact ih htimeout hfailed
      · rw [exchange_failed hsent herror] at hfailed
        exact absurd rfl hfailed
      · rw [exchange_examined hexamines] at htimeout hfailed ⊢
        cases htests : tests (udpRecv reply rlen attempt.arrival).2 with
        | none =>
            exact ⟨List.mem_singleton.mpr rfl, htests, _, rfl⟩
        | some xmit =>
            rw [htests] at htimeout hfailed
            obtain ⟨hmem, hpass, hfinish⟩ := ih htimeout hfailed
            exact ⟨List.mem_cons_of_mem _ hmem, hpass, hfinish⟩

end Loop

/-! ## The tests -/

section Tests

variable {seq : Word} {msg reply : Buffer}

theorem rfsTests_eq_none :
    rfsTests seq msg reply = none ↔
      msgSeq reply = seq ∧ otherType RF_MSG_RESPONSE msg reply = false := by
  unfold rfsTests
  split_ifs with hseq htype
  · simp [hseq]
  · simp [htype]
  · simp_all

theorem rdsTests_eq_none :
    rdsTests seq msg reply = none ↔
      Stale seq msg reply ∨ rfsTests seq msg reply = none := by
  rw [rfsTests_eq_none, show RF_MSG_RESPONSE = RD_MSG_RESPONSE from rfl]
  unfold rdsTests Stale
  dsimp only
  split_ifs with hless htype hseq htype
  · simp [htype]
  · simp_all
  · simp [hless, hseq]
  · simp [htype]
  · simp_all

theorem Stale.not_rfsTests (h : Stale seq msg reply) :
    rfsTests seq msg reply ≠ none := by
  intro hpass
  have hseq := (rfsTests_eq_none.mp hpass).1
  exact absurd h.1 (by rw [hseq]; exact BitVec.lt_irrefl seq)

theorem tests_agree_iff :
    (rdsTests seq msg reply = none ↔ rfsTests seq msg reply = none) ↔
      ¬ Stale seq msg reply := by
  constructor
  · intro hagree hstale
    exact hstale.not_rfsTests (hagree.mp (rdsTests_eq_none.mpr (Or.inl hstale)))
  · intro hfresh
    rw [rdsTests_eq_none]
    exact ⟨fun h => h.resolve_left hfresh, Or.inr⟩

/-- A type that passes is the request's type with the response bit. -/
theorem msgType_of_not_otherType
    {response : BitVec 16} (h : otherType response msg reply = false) :
    msgType reply = msgType msg ||| response := by
  unfold otherType at h
  have hint : (msgType reply).toInt = ((msgType msg ||| response).toNat : ℤ) := by
    simpa using h
  rw [BitVec.toInt_eq_toNat_cond] at hint
  apply BitVec.eq_of_toNat_eq
  split_ifs at hint <;> omega

end Tests

/-- The examined replies include a stale one exactly if a stale one arrives
before the exchange is over. -/
theorem stale_examined_iff
    {seq : Word} {msg : Buffer} {finish : Buffer → Word → Word} {rlen : ℤ}
    (attempts : List Attempt) (xmit : Bool) (reply : Buffer) :
    (∃ b ∈ (exchange (rdsTests seq msg) finish rlen attempts xmit reply).examined,
      Stale seq msg b) ↔ StaleArrives seq msg rlen attempts xmit reply := by
  induction attempts generalizing xmit reply with
  | nil =>
      constructor
      · intro ⟨b, hmem, _⟩
        cases hmem
      · intro h
        cases h
  | cons attempt attempts ih =>
      rcases turn_cases rlen attempt xmit reply with
        hsent | ⟨hsent, hlost⟩ | ⟨hsent, herror⟩ | hexamines
      · rw [exchange_unsent hsent]
        constructor
        · intro ⟨b, hmem, _⟩
          cases hmem
        · intro h
          cases h with
          | now hexamines => exact absurd hsent hexamines.sent
          | lost hnot => exact absurd hsent hnot
          | dropped hexamines => exact absurd hsent hexamines.sent
      · rw [exchange_lost hsent hlost, ih]
        constructor
        · exact .lost hsent hlost
        · intro h
          cases h with
          | now hexamines => exact absurd hlost hexamines.in_time
          | lost _ _ hlater => exact hlater
          | dropped hexamines => exact absurd hlost hexamines.in_time
      · rw [exchange_failed hsent herror]
        constructor
        · intro ⟨b, hmem, _⟩
          cases hmem
        · intro h
          cases h with
          | now hexamines => exact absurd herror hexamines.received
          | lost _ htimeout =>
              rw [herror] at htimeout
              exact absurd htimeout (by decide)
          | dropped hexamines => exact absurd herror hexamines.received
      · rw [exchange_examined hexamines]
        cases htests :
            rdsTests seq msg (udpRecv reply rlen attempt.arrival).2 with
        | none =>
            constructor
            · intro ⟨b, hmem, hstale⟩
              rw [List.mem_singleton.mp hmem] at hstale
              exact .now hexamines hstale
            · intro h
              cases h with
              | now _ hstale => exact ⟨_, List.mem_singleton.mpr rfl, hstale⟩
              | lost _ htimeout => exact absurd htimeout hexamines.in_time
              | dropped _ hdropped =>
                  rw [htests] at hdropped
                  cases hdropped
        | some xmit' =>
            constructor
            · intro ⟨b, hmem, hstale⟩
              rcases List.mem_cons.mp hmem with heq | hmem
              · rw [heq] at hstale
                exact .now hexamines hstale
              · exact .dropped hexamines htests ((ih _ _).mp ⟨b, hmem, hstale⟩)
            · intro h
              cases h with
              | now _ hstale => exact ⟨_, List.mem_cons_self, hstale⟩
              | lost _ htimeout => exact absurd htimeout hexamines.in_time
              | dropped _ hdropped hlater =>
                  rw [htests, Option.some.injEq] at hdropped
                  subst hdropped
                  obtain ⟨b, hmem, hstale⟩ := (ih _ _).mpr hlater
                  exact ⟨b, List.mem_cons_of_mem _ hmem, hstale⟩

/-! ## The whole exchange -/

section Exchange

variable {rd : Rdscomm} {msg reply : Buffer} {rlen : ℤ} {net : Network}

theorem rdsRegister_seq : (rdsRegister rd net).1.rd_seq = rd.rd_seq := by
  unfold rdsRegister
  dsimp only
  split_ifs <;> rfl

theorem rdscomm_refused (hrefused : (rdsRegister rd net).2 = SYSERR) :
    (rdscomm rd msg reply rlen net).2 = (msg, ⟨SYSERR, reply, []⟩) := by
  unfold rdscomm
  dsimp only
  rw [if_pos hrefused]

theorem rdscomm_registered (hregistered : (rdsRegister rd net).2 ≠ SYSERR) :
    (rdscomm rd msg reply rlen net).2 =
      (setSeq msg rd.rd_seq,
        exchange (rdsTests rd.rd_seq (setSeq msg rd.rd_seq)) rdsStatus rlen
          (rdsAttempts net) true reply) := by
  unfold rdscomm
  dsimp only
  rw [if_neg hregistered, rdsRegister_seq]

/-- `rdscomm` starts an exchange in which a stale reply arrives. -/
def StaleExchange
    (rd : Rdscomm) (msg reply : Buffer) (rlen : ℤ) (net : Network) : Prop :=
  (rdsRegister rd net).2 ≠ SYSERR ∧
    StaleArrives rd.rd_seq (setSeq msg rd.rd_seq) rlen (rdsAttempts net) true
      reply

/-- `rdscomm` behaves as it should exactly if no reply to an earlier request of
the same type arrives while it waits. -/
theorem exchangeLaw_iff_no_stale
    (rd : Rdscomm) (msg reply : Buffer) (rlen : ℤ) (net : Network) :
    ExchangeLaw rd msg reply rlen net ↔
      ¬ StaleExchange rd msg reply rlen net := by
  by_cases hregistered : (rdsRegister rd net).2 = SYSERR
  · refine ⟨fun _ h => h.1 hregistered, fun _ => ⟨?_, ?_⟩⟩
    · rw [rdscomm_refused hregistered]
      intro hok
      exact absurd (show SYSERR = OK from hok) (by decide)
    · rw [rdscomm_refused hregistered]
      exact fun _ h => absurd h List.not_mem_nil
  · unfold StaleExchange
    rw [← @stale_examined_iff _ _ rdsStatus]
    constructor
    · intro hlaw ⟨_, b, hmem, hstale⟩
      have hagree := hlaw.tests_agree b
      rw [rdscomm_registered hregistered] at hagree
      exact tests_agree_iff.mp (hagree hmem) hstale
    · intro hfresh
      have hagree : ∀ b ∈ (exchange (rdsTests rd.rd_seq (setSeq msg rd.rd_seq))
          rdsStatus rlen (rdsAttempts net) true reply).examined,
          ¬ Stale rd.rd_seq (setSeq msg rd.rd_seq) b :=
        fun b hmem hstale => hfresh ⟨hregistered, b, hmem, hstale⟩
      constructor <;> rw [rdscomm_registered hregistered]
      · intro hok
        dsimp only at hok ⊢
        obtain ⟨hmem, hpass, retval, hfinish⟩ := exchange_accepted
          (by rw [hok]; decide) (by rw [hok]; decide)
        have htests := (tests_agree_iff.mpr (hagree _ hmem)).mp hpass
        obtain ⟨hseq, htype⟩ := rfsTests_eq_none.mp htests
        refine ⟨hseq, msgType_of_not_otherType htype, ?_⟩
        rw [hok] at hfinish
        unfold rdsStatus at hfinish
        split_ifs at hfinish with hstatus
        · exact absurd hfinish (by decide)
        · exact of_not_not hstatus
      · exact fun b hmem => tests_agree_iff.mpr (hagree b hmem)

/-- A success of `rfscomm` always comes with the answer to its request. -/
theorem rfscomm_answered
    {rf rf' : Rfscomm} {msg' : Buffer} {dnslookup : Word} {e : Exchanged}
    (hcomm : rfscomm rf msg reply rlen dnslookup net = some (rf', msg', e))
    (htimeout : e.retval ≠ TIMEOUT) (hfailed : e.retval ≠ SYSERR) :
    msgSeq e.reply = rf.rf_seq ∧
      msgType e.reply = msgType msg' ||| RF_MSG_RESPONSE := by
  unfold rfscomm at hcomm
  dsimp only at hcomm
  split_ifs at hcomm with hname hslot
  · cases hcomm
    exact absurd rfl hfailed
  all_goals
    cases hcomm
    obtain ⟨-, hpass, -⟩ := exchange_accepted htimeout hfailed
    obtain ⟨hseq, htype⟩ := rfsTests_eq_none.mp hpass
    exact ⟨hseq, msgType_of_not_otherType htype⟩

end Exchange

/-- A message with only a header. -/
def header (type status : BitVec 16) (seq : Word) : Buffer := fun i =>
  if i < 2 then type.extractLsb' (8 * (1 - i)) 8
  else if i < 4 then status.extractLsb' (8 * (3 - i)) 8
  else if i < 8 then seq.extractLsb' (8 * (7 - i)) 8
  else 0

/-- The answer to read request 4 is still on its way when request 5 is sent. -/
def lateReply : Network where
  slot := 0
  ipvalid := true
  localip := 0
  attempts := fun _ => ⟨OK, .datagram 80 (header 0x0110 0 4)⟩

/-- `rdscomm` takes the late answer for the answer to its own request. -/
theorem late_reply_accepted :
    ¬ ∀ rd msg reply rlen net, ExchangeLaw rd msg reply rlen net := by
  intro hlaw
  have hanswer := (hlaw ⟨5, true, 0⟩ (header 0x0010 0 0) (header 0 0 0) 72
    lateReply).answered (by decide)
  exact absurd hanswer.seq_eq (by decide)

end Xinu.RemoteExchange
