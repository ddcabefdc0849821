import Xinu.HeapAllocator
import Xinu.RingBuffer
import Xinu.TransitionSystem

/-!
# Slots with packet queues

The UDP and the ICMP tables have entries of the same shape: a state, an
address, a ring of packets and the process that waits for one.  A receiver
blocks in the middle of its call, and everything up to there and everything
after it runs with interrupts disabled, so these are the steps.  While it
waits, any process may send it a message, and its timer may expire at any
time.
-/

namespace Xinu.PacketSlots

open ByteMemory RingBuffer

/-- `UDP_FREE`, `UDP_USED`, `UDP_RECV`, or their `ICMP_` namesakes. -/
inductive SlotState
  | free
  | used
  | recv
  deriving DecidableEq

/-- An entry of `udptab` or `icmptab`.  The key is what it is registered
for. -/
structure Entry (Key Packet : Type) where
  state : SlotState
  key : Key
  head : ℤ
  tail : ℤ
  count : ℤ
  pid : ℤ
  queue : ℤ → Packet

/-- What a receiving call gives its caller. -/
inductive Returned (Packet : Type)
  | failed
  | timeout
  | packet (pkt : Packet)
  deriving DecidableEq

/-- The table and the processes that use it.  `waiting` is the slot in which a
process is blocked; the last four fields record what has happened. -/
structure Slots (Key Packet : Type) where
  tab : ℤ → Entry Key Packet
  inbox : ℤ → Option Word
  waiting : ℤ → Option ℤ
  returned : ℤ → Option (Returned Packet)
  stored : ℤ → List Packet
  freed : ℤ → List Packet
  discarded : List Packet
  registered : ℤ → Bool

variable {Key Packet : Type}

namespace Entry

variable (e : Entry Key Packet)

/-- `udqueue[udtail++] = pktptr`, with the wrap and the count. -/
def put (qsiz : ℤ) (pkt : Packet) : Entry Key Packet :=
  { e with
    count := e.count + 1
    queue := Function.update e.queue e.tail pkt
    tail := advance qsiz e.tail }

/-- The indices after `udqueue[udhead++]`, where the head wraps at `bound`. -/
def take (bound : ℤ) : Entry Key Packet :=
  { e with head := advance bound e.head, count := e.count - 1 }

end Entry

namespace Slots

variable (s : Slots Key Packet)

def setEntry (slot : ℤ) (e : Entry Key Packet) : Slots Key Packet :=
  { s with tab := Function.update s.tab slot e }

def setState (slot : ℤ) (state : SlotState) : Slots Key Packet :=
  s.setEntry slot { s.tab slot with state := state }

/-- `send`, which fails if the recipient has a message. -/
def send (pid : ℤ) (msg : Word) : Slots Key Packet :=
  match s.inbox pid with
  | none => { s with inbox := Function.update s.inbox pid (some msg) }
  | some _ => s

def giveBack (pid : ℤ) (r : Returned Packet) : Slots Key Packet :=
  { s with returned := Function.update s.returned pid (some r) }

/-- `freebuf` of a packet that no slot takes. -/
def discard (pkt : Packet) : Slots Key Packet :=
  { s with discarded := s.discarded ++ [pkt] }

/-- Put the packet in the slot and wake the process that waits there. -/
def store (qsiz slot : ℤ) (pkt : Packet) : Slots Key Packet :=
  let s := s.setEntry slot ((s.tab slot).put qsiz pkt)
  let s := { s with
    stored := Function.update s.stored slot (s.stored slot ++ [pkt]) }
  if (s.tab slot).state = .recv then
    (s.setState slot .used).send (s.tab slot).pid OK
  else s

/-- Remove the packet at the head and free it. -/
def removeFirst (bound slot : ℤ) : Slots Key Packet :=
  let pkt := (s.tab slot).queue (s.tab slot).head
  let s := s.setEntry slot ((s.tab slot).take bound)
  { s with freed := Function.update s.freed slot (s.freed slot ++ [pkt]) }

/-- The end of a receiving call, which returns the packet at the head. -/
def takePacket (bound pid slot : ℤ) : Slots Key Packet :=
  (s.removeFirst bound slot).giveBack pid
    (.packet ((s.tab slot).queue (s.tab slot).head))

/-- A receiving call up to the place where it blocks. -/
def recv (slots bound pid slot : ℤ) (timeout : Word) : Slots Key Packet :=
  if slot < 0 ∨ slot ≥ slots then s.giveBack pid .failed
  else if (s.tab slot).state ≠ .used then s.giveBack pid .failed
  else if (s.tab slot).count = 0 then
    let s := s.setEntry slot { s.tab slot with state := .recv, pid := pid }
    let s := { s with inbox := Function.update s.inbox pid none }
    -- recvtime fails at once if the time is negative as a signed number
    if timeout.toInt < 0 then (s.setState slot .used).giveBack pid .failed
    else { s with waiting := Function.update s.waiting pid (some slot) }
  else s.takePacket bound pid slot

/-- The message with which `recvtime` ends when the process runs again. -/
def wakeMsg (pid : ℤ) : Word := (s.inbox pid).getD TIMEOUT

/-- The receiving call after `recvtime`. -/
def resume (bound pid slot : ℤ) : Slots Key Packet :=
  let msg := s.wakeMsg pid
  let s := { s with
    inbox := Function.update s.inbox pid none
    waiting := Function.update s.waiting pid none }
  let s := s.setState slot .used
  if msg = TIMEOUT then s.giveBack pid .timeout
  else if msg ≠ OK then s.giveBack pid .failed
  else s.takePacket bound pid slot

/-- The loop that removes and frees all packets. -/
def drain (bound slot : ℤ) : ℕ → Slots Key Packet → Slots Key Packet
  | 0, s => s
  | fuel + 1, s =>
      if (s.tab slot).count > 0 then drain bound slot fuel (s.removeFirst bound slot)
      else s

/-- Release a slot whose state does not speak against it. -/
def release (slots bound : ℤ) (refused : SlotState → Bool) (slot : ℤ) :
    Slots Key Packet × Word :=
  if slot < 0 ∨ slot ≥ slots then (s, SYSERR)
  else if refused (s.tab slot).state then (s, SYSERR)
  else
    let s := s.drain bound slot (s.tab slot).count.toNat
    let s := s.setState slot .free
    ({ s with registered := Function.update s.registered slot false }, OK)

/-- Register the key in the first free slot, unless some slot has it. -/
def register [DecidableEq Key] (slots : ℕ) (key : Key) :
    Slots Key Packet × Word :=
  if (List.range slots).any fun i : ℕ =>
      (s.tab i).state ≠ .free ∧ (s.tab i).key = key then
    (s, SYSERR)
  else
    match (List.range slots).find? fun i : ℕ => (s.tab i).state = .free with
    | none => (s, SYSERR)
    | some i =>
        let s := s.setEntry i { s.tab i with
          key := key, count := 0, head := 0, tail := 0, pid := -1,
          state := .used }
        ({ s with registered := Function.update s.registered i true },
          BitVec.ofNat 32 i)

/-- The table after `udp_init` or `icmp_init`, in memory that was zero. -/
def init (key : Key) (pkt : Packet) : Slots Key Packet where
  tab _ := ⟨.free, key, 0, 0, 0, 0, fun _ => pkt⟩
  inbox _ := none
  waiting _ := none
  returned _ := none
  stored _ := []
  freed _ := []
  discarded := []
  registered _ := false

end Slots

/-! ## The law of one slot -/

/-- The packets that were stored are those that were freed, in the same order,
and those that the ring still holds; a free slot holds none. -/
def SlotLaw (qsiz : ℤ) (s : Slots Key Packet) (slot : ℤ) : Prop :=
  ∃ queue, s.stored slot = s.freed slot ++ queue ∧
    (s.tab slot).count = queue.length ∧
    Holds qsiz (s.tab slot).queue (s.tab slot).head (s.tab slot).tail queue ∧
    ((s.tab slot).state = .free → queue = [])

section Steps

variable {s s' : Slots Key Packet} {qsiz bound slot other pid : ℤ}
  {pkt : Packet} {key : Key}

open Slots

/-- The ring, the records and the emptiness of a free slot are as before. -/
structure SameRing (s s' : Slots Key Packet) (slot : ℤ) : Prop where
  stored : s'.stored slot = s.stored slot
  freed : s'.freed slot = s.freed slot
  count : (s'.tab slot).count = (s.tab slot).count
  queue : (s'.tab slot).queue = (s.tab slot).queue
  head : (s'.tab slot).head = (s.tab slot).head
  tail : (s'.tab slot).tail = (s.tab slot).tail

theorem SlotLaw.same
    (h : SlotLaw qsiz s slot) (hsame : SameRing s s' slot)
    (hfree : (s'.tab slot).state = .free → (s.tab slot).state = .free) :
    SlotLaw qsiz s' slot := by
  obtain ⟨queue, hstored, hcount, hholds, hempty⟩ := h
  refine ⟨queue, ?_, ?_, ?_, fun h => hempty (hfree h)⟩
  · rw [hsame.stored, hsame.freed, hstored]
  · rw [hsame.count, hcount]
  · rwa [hsame.queue, hsame.head, hsame.tail]

@[simp] theorem tab_setEntry_self (e : Entry Key Packet) :
    (s.setEntry slot e).tab slot = e :=
  Function.update_self ..

theorem tab_setEntry_of_ne (e : Entry Key Packet) (hne : other ≠ slot) :
    (s.setEntry slot e).tab other = s.tab other :=
  Function.update_of_ne hne ..

theorem tab_setState_self (state : SlotState) :
    (s.setState slot state).tab slot = { s.tab slot with state := state } :=
  tab_setEntry_self _

theorem sameRing_setState (state : SlotState) :
    SameRing s (s.setState slot state) other := by
  by_cases hne : other = slot
  · subst hne
    constructor <;> simp [setState] <;> rfl
  · constructor <;> simp only [setState, tab_setEntry_of_ne _ hne] <;> rfl

theorem state_setState (state : SlotState) (hstate : state ≠ .free) :
    ((s.setState slot state).tab other).state = .free →
      (s.tab other).state = .free := by
  by_cases hne : other = slot
  · subst hne
    intro h
    rw [tab_setState_self] at h
    exact absurd h hstate
  · rw [setState, tab_setEntry_of_ne _ hne]
    exact id

theorem SlotLaw.setState
    {state : SlotState} (h : SlotLaw qsiz s other) (hstate : state ≠ .free) :
    SlotLaw qsiz (s.setState slot state) other :=
  h.same (sameRing_setState state) (state_setState state hstate)

theorem send_tab (msg : Word) :
    (s.send pid msg).tab = s.tab ∧ (s.send pid msg).stored = s.stored ∧
      (s.send pid msg).freed = s.freed ∧
      (s.send pid msg).registered = s.registered := by
  unfold Slots.send
  split <;> exact ⟨rfl, rfl, rfl, rfl⟩

theorem SlotLaw.send {msg : Word} (h : SlotLaw qsiz s slot) :
    SlotLaw qsiz (s.send pid msg) slot := by
  obtain ⟨htab, hstored, hfreed, -⟩ := @send_tab _ _ s pid msg
  refine h.same ⟨?_, ?_, ?_, ?_, ?_, ?_⟩ ?_ <;> simp [htab, hstored, hfreed]

theorem SlotLaw.giveBack
    {r : Returned Packet} (h : SlotLaw qsiz s slot) :
    SlotLaw qsiz (s.giveBack pid r) slot := h

/-- A packet is put into a slot with room that is not free. -/
theorem SlotLaw.store
    (h : SlotLaw qsiz s other) (hused : (s.tab slot).state ≠ .free)
    (hroom : (s.tab slot).count < qsiz) :
    SlotLaw qsiz (s.store qsiz slot pkt) other := by
  have hput : SlotLaw qsiz
      { s.setEntry slot ((s.tab slot).put qsiz pkt) with
        stored := Function.update s.stored slot (s.stored slot ++ [pkt]) }
      other := by
    by_cases hne : other = slot
    · subst hne
      obtain ⟨queue, hstored, hcount, hholds, -⟩ := h
      refine ⟨queue ++ [pkt], ?_, ?_, ?_, ?_⟩
      · show Function.update s.stored other (s.stored other ++ [pkt]) other =
          s.freed other ++ (queue ++ [pkt])
        rw [Function.update_self, hstored, List.append_assoc]
      · simp [Entry.put, hcount]
      · simp only [tab_setEntry_self]
        exact hholds.put (by rw [← hcount]; exact hroom)
      · intro hfree
        simp only [tab_setEntry_self] at hfree
        exact absurd hfree hused
    · refine h.same ⟨Function.update_of_ne hne .., rfl, ?_, ?_, ?_, ?_⟩ ?_ <;>
        simp [tab_setEntry_of_ne _ hne]
  unfold Slots.store
  dsimp only
  split_ifs with hrecv
  · exact SlotLaw.send (hput.setState (by decide))
  · exact hput

/-- The first packet leaves a slot that has one, with the right wrap. -/
theorem SlotLaw.removeFirst
    (h : SlotLaw qsiz s other) (hcount : 0 < (s.tab slot).count)
    (hwrap : advance bound (s.tab slot).head = advance qsiz (s.tab slot).head) :
    SlotLaw qsiz (s.removeFirst bound slot) other := by
  unfold Slots.removeFirst
  dsimp only
  by_cases hne : other = slot
  · subst hne
    obtain ⟨queue, hstored, hlen, hholds, hempty⟩ := h
    cases queue with
    | nil =>
        rw [hlen] at hcount
        exact absurd hcount (lt_irrefl _)
    | cons first rest =>
        refine ⟨rest, ?_, ?_, ?_, ?_⟩
        · show s.stored other = Function.update s.freed other
            (s.freed other ++ [(s.tab other).queue (s.tab other).head]) other ++
              rest
          rw [Function.update_self, hstored, hholds.first]
          simp
        · simp only [tab_setEntry_self, Entry.take, hlen, List.length_cons]
          push_cast
          ring
        · simp only [tab_setEntry_self, Entry.take, hwrap]
          exact hholds.take
        · intro hfree
          simp only [tab_setEntry_self, Entry.take] at hfree
          cases hempty hfree
  · refine h.same ⟨rfl, Function.update_of_ne hne .., ?_, ?_, ?_, ?_⟩ ?_ <;>
      simp [tab_setEntry_of_ne _ hne]

theorem SlotLaw.takePacket
    (h : SlotLaw qsiz s other) (hcount : 0 < (s.tab slot).count)
    (hwrap : advance bound (s.tab slot).head = advance qsiz (s.tab slot).head) :
    SlotLaw qsiz (s.takePacket bound pid slot) other :=
  (h.removeFirst hcount hwrap).giveBack

/-- What a receiver does when it comes to a slot. -/
theorem SlotLaw.recv
    {slots : ℤ} {timeout : Word} (h : ∀ other, SlotLaw qsiz s other)
    (hwrap : 0 ≤ slot → slot < slots → (s.tab slot).state = .used →
      (s.tab slot).count ≠ 0 →
      advance bound (s.tab slot).head = advance qsiz (s.tab slot).head) :
    SlotLaw qsiz (s.recv slots bound pid slot timeout) other := by
  have hblock : SlotLaw qsiz { s.setEntry slot
      { s.tab slot with state := .recv, pid := pid } with
        inbox := Function.update s.inbox pid none } other := by
    by_cases hne : other = slot
    · subst hne
      refine (h other).same ⟨rfl, rfl, ?_, ?_, ?_, ?_⟩ ?_ <;> simp
    · refine (h other).same ⟨rfl, rfl, ?_, ?_, ?_, ?_⟩ ?_ <;>
        simp [tab_setEntry_of_ne _ hne]
  unfold Slots.recv
  dsimp only
  split_ifs with hslot hused hcount htime
  · exact (h other).giveBack
  · exact (h other).giveBack
  · exact (hblock.setState (by decide)).giveBack
  · exact hblock
  · refine (h other).takePacket ?_
      (hwrap (by omega) (by omega) (of_not_not hused) hcount)
    obtain ⟨queue, -, hlen, -, -⟩ := h slot
    omega

/-- What a receiver does after it has been woken.  If the message is `OK`, it
needs a packet. -/
theorem SlotLaw.resume
    (h : SlotLaw qsiz s other)
    (hpacket : s.wakeMsg pid = OK → 0 < (s.tab slot).count ∧
      advance bound (s.tab slot).head = advance qsiz (s.tab slot).head) :
    SlotLaw qsiz (s.resume bound pid slot) other := by
  unfold Slots.resume
  dsimp only
  generalize hs₁ : ({ s with
    inbox := Function.update s.inbox pid none
    waiting := Function.update s.waiting pid none } : Slots Key Packet) = s₁
  have htab : s₁.tab = s.tab := by rw [← hs₁]
  have hlaw : SlotLaw qsiz s₁ other := by
    rw [← hs₁]
    exact h
  have hset : SlotLaw qsiz (s₁.setState slot .used) other :=
    hlaw.setState (by decide)
  split_ifs with htimeout hother
  · exact hset.giveBack
  · exact hset.giveBack
  · obtain ⟨hcount, hwrap⟩ := hpacket (of_not_not hother)
    refine hset.takePacket ?_ ?_ <;> rw [tab_setState_self, htab]
    · exact hcount
    · exact hwrap

theorem count_removeFirst :
    ((s.removeFirst bound slot).tab slot).count = (s.tab slot).count - 1 := by
  unfold Slots.removeFirst
  simp [Entry.take]

theorem state_removeFirst :
    ((s.removeFirst bound slot).tab other).state = (s.tab other).state := by
  unfold Slots.removeFirst
  dsimp only
  by_cases hne : other = slot
  · subst hne
    rw [tab_setEntry_self]
    rfl
  · rw [tab_setEntry_of_ne _ hne]

theorem drain_count {fuel : ℕ} (hfuel : (s.tab slot).count ≤ fuel) :
    ((Slots.drain bound slot fuel s).tab slot).count ≤ 0 := by
  induction fuel generalizing s with
  | zero => exact_mod_cast hfuel
  | succ fuel ih =>
      rw [Slots.drain]
      split_ifs with hcount
      · apply ih
        rw [count_removeFirst]
        push_cast at hfuel
        omega
      · exact not_lt.mp hcount

/-- All packets leave a slot, each with the right wrap. -/
theorem SlotLaw.drain
    {fuel : ℕ} (h : ∀ other, SlotLaw qsiz s other)
    (hwrap : ∀ k : ℕ, (k : ℤ) < (s.tab slot).count →
      advance bound (position qsiz (s.tab slot).head k) =
        advance qsiz (position qsiz (s.tab slot).head k)) :
    SlotLaw qsiz (Slots.drain bound slot fuel s) other := by
  induction fuel generalizing s with
  | zero => exact h other
  | succ fuel ih =>
      rw [Slots.drain]
      split_ifs with hcount
      · obtain ⟨queue, -, hlen, hholds, -⟩ := h slot
        have hhead : position qsiz (s.tab slot).head 0 = (s.tab slot).head := by
          have hlt := hholds.head_lt
          unfold position
          rw [if_pos] <;> simp [hlt]
        have hfirst : advance bound (s.tab slot).head =
            advance qsiz (s.tab slot).head := by
          have hzero := hwrap 0 (by exact_mod_cast hcount)
          rwa [hhead] at hzero
        have hnext : ((s.removeFirst bound slot).tab slot).head =
            advance qsiz (s.tab slot).head := by
          rw [← hfirst]
          unfold Slots.removeFirst
          simp [Entry.take]
        refine ih (fun other => (h other).removeFirst hcount hfirst) ?_
        intro k hk
        rw [count_removeFirst] at hk
        have hsize := hholds.length_le
        rw [hnext, position_advance hholds.head_lt (by omega)]
        exact hwrap (k + 1) (by push_cast; omega)
      · exact h other

/-- A slot is released with all its packets. -/
theorem SlotLaw.release
    {slots : ℤ} {refused : SlotState → Bool}
    (h : ∀ other, SlotLaw qsiz s other)
    (hwrap : 0 ≤ slot → slot < slots → refused (s.tab slot).state = false →
      ∀ k : ℕ, (k : ℤ) < (s.tab slot).count →
        advance bound (position qsiz (s.tab slot).head k) =
          advance qsiz (position qsiz (s.tab slot).head k)) :
    SlotLaw qsiz (s.release slots bound refused slot).1 other := by
  unfold Slots.release
  dsimp only
  split_ifs with hslot hrefused
  · exact h other
  · exact h other
  · have hfuel : (s.tab slot).count ≤ ((s.tab slot).count.toNat : ℤ) :=
      Int.self_le_toNat _
    have hempty : ((s.drain bound slot (s.tab slot).count.toNat).tab
        slot).count ≤ 0 := drain_count hfuel
    have hdrained : ∀ other, SlotLaw qsiz
        (s.drain bound slot (s.tab slot).count.toNat) other :=
      fun _ => SlotLaw.drain h
        (hwrap (by omega) (by omega) (Bool.eq_false_of_not_eq_true hrefused))
    generalize Slots.drain bound slot (s.tab slot).count.toNat s = s₁
      at hempty hdrained
    show SlotLaw qsiz (s₁.setState slot .free) other
    by_cases hne : other = slot
    · subst hne
      obtain ⟨queue, hstored, hcount, hholds, -⟩ := hdrained other
      refine ⟨queue, hstored, ?_, ?_, fun _ => ?_⟩
      · rw [tab_setState_self]
        exact hcount
      · rw [tab_setState_self]
        exact hholds
      · exact List.eq_nil_of_length_eq_zero (by omega)
    · refine (hdrained other).same (sameRing_setState _) ?_
      rw [Slots.setState, tab_setEntry_of_ne _ hne]
      exact id

/-- A free slot is registered with an empty ring. -/
theorem SlotLaw.register
    [DecidableEq Key] {slots : ℕ} (hqsiz : 0 < qsiz)
    (h : SlotLaw qsiz s other) :
    SlotLaw qsiz (s.register slots key).1 other := by
  unfold Slots.register
  split_ifs with htaken
  · exact h
  · cases hfind : (List.range slots).find?
        fun i : ℕ => (s.tab i).state = .free with
    | none => exact h
    | some i =>
        have hfree : (s.tab i).state = .free := by
          simpa using List.find?_some hfind
        by_cases hne : other = i
        · subst hne
          obtain ⟨queue, hstored, -, -, hempty⟩ := h
          refine ⟨queue, hstored, ?_, ?_, fun _ => hempty hfree⟩
          · simp [hempty hfree]
          · simp only [tab_setEntry_self, hempty hfree]
            exact .empty le_rfl hqsiz
        · refine h.same ⟨rfl, rfl, ?_, ?_, ?_, ?_⟩ ?_ <;>
            simp [tab_setEntry_of_ne _ hne]

theorem SlotLaw.init (hqsiz : 0 < qsiz) :
    SlotLaw qsiz (Slots.init key pkt) slot :=
  ⟨[], rfl, rfl, .empty le_rfl hqsiz, fun _ => rfl⟩

end Steps

end Xinu.PacketSlots
