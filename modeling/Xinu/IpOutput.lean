import Xinu.CountingSemaphore
import Xinu.HeapAllocator
import Xinu.RingBuffer
import Xinu.TransitionSystem

/-!
# The IP output queue

`ip_enqueue` puts a packet in the ring and signals its semaphore, and the
process `ipout` waits for the semaphore and takes a packet out.  `ipout` can
be interrupted, or not run yet, between the two, and the capacity test reads
the count of the semaphore.
-/

namespace Xinu.IpOutput

open ByteMemory RingBuffer TransitionSystem

def IP_OQSIZ : ℤ := 8

/-- The queue.  The last three fields record the packets that were accepted,
that `ipout` has taken, and that were rejected, with the number of packets in
the queue at that time. -/
structure Iqentry (Packet : Type) where
  iqhead : ℤ
  iqtail : ℤ
  iqsem : CountingSemaphore Unit
  iqbuf : ℤ → Packet
  accepted : List Packet
  taken : List Packet
  rejected : List (Packet × ℤ)

variable {Packet : Type}

namespace Iqentry

variable (q : Iqentry Packet)

/-- The number of packets that have been accepted and not yet taken. -/
def undelivered : ℤ := (q.accepted.length : ℤ) - q.taken.length

def ipEnqueue (pkt : Packet) : Iqentry Packet × Word :=
  if q.iqsem.count ≥ IP_OQSIZ then
    ({ q with rejected := q.rejected ++ [(pkt, q.undelivered)] }, SYSERR)
  else
    let q := { q with
      iqbuf := Function.update q.iqbuf q.iqtail pkt
      iqtail := advance IP_OQSIZ q.iqtail
      accepted := q.accepted ++ [pkt] }
    ({ q with iqsem := q.iqsem.signal }, OK)

/-- `ipout` calls `wait`. -/
def ipoutWait : Iqentry Packet := { q with iqsem := q.iqsem.wait () }

/-- `ipout` takes the next packet after `wait` has returned. -/
def ipoutTake : Iqentry Packet :=
  { q with
    iqhead := advance IP_OQSIZ q.iqhead
    iqsem := q.iqsem.goOn ()
    taken := q.taken ++ [q.iqbuf q.iqhead] }

end Iqentry

inductive IpAction (Packet : Type)
  | enqueue (pkt : Packet)
  | wait
  | take

/-- One step of a process that sends a packet or of `ipout`, which is not
inside `wait` while it handles a packet. -/
def ipStep (q : Iqentry Packet) : IpAction Packet → Option (Iqentry Packet)
  | .enqueue pkt => some (q.ipEnqueue pkt).1
  | .wait => if q.iqsem.inside = 0 then some q.ipoutWait else none
  | .take => if q.iqsem.passed = [] then none else some q.ipoutTake

def ipInit (pkt : Packet) : Iqentry Packet :=
  ⟨0, 0, .init 0, fun _ => pkt, [], [], []⟩

/-- The queue holds the packets that were accepted and not yet taken, in their
order, and a packet is rejected only if the queue is full. -/
structure IpQueueLaw (q : Iqentry Packet) : Prop where
  fifo : ∃ queue, q.accepted = q.taken ++ queue ∧
    Holds IP_OQSIZ q.iqbuf q.iqhead q.iqtail queue
  rejected_full : ∀ r ∈ q.rejected, r.2 = IP_OQSIZ

/-- No packet is accepted as the eighth above one that `ipout` may take but
has not taken. -/
def NoneGranted (q : Iqentry Packet) : IpAction Packet → Prop
  | .enqueue _ => q.iqsem.count = IP_OQSIZ - 1 → q.iqsem.passed = []
  | _ => True

instance (q : Iqentry Packet) (action : IpAction Packet) :
    Decidable (NoneGranted q action) := by
  cases action <;> unfold NoneGranted <;> infer_instance

section Law

variable {q q' : Iqentry Packet} {action : IpAction Packet} {pkt : Packet}

/-- The count is the length of the queue, less one if `ipout` is inside. -/
structure IpInv (q : Iqentry Packet) (queue : List Packet) : Prop where
  accepted : q.accepted = q.taken ++ queue
  holds : Holds IP_OQSIZ q.iqbuf q.iqhead q.iqtail queue
  sound : q.iqsem.Sound
  counted : q.iqsem.count + q.iqsem.inside = queue.length
  single : q.iqsem.inside ≤ 1
  rejected_full : ∀ r ∈ q.rejected, r.2 = IP_OQSIZ

theorem IpInv.undelivered_eq {queue : List Packet} (h : IpInv q queue) :
    q.undelivered = queue.length := by
  unfold Iqentry.undelivered
  rw [h.accepted, List.length_append]
  push_cast
  ring

theorem IpInv.enqueue
    {queue : List Packet} (h : IpInv q queue)
    (hgranted : q.iqsem.count = IP_OQSIZ - 1 → q.iqsem.passed = []) :
    ∃ queue, IpInv (q.ipEnqueue pkt).1 queue := by
  have hlen := h.holds.length_le
  have hcounted := h.counted
  unfold Iqentry.ipEnqueue
  dsimp only
  split_ifs with hfull
  · refine ⟨queue, h.accepted, h.holds, h.sound, h.counted, h.single, ?_⟩
    intro r hr
    rcases List.mem_append.mp hr with hold | hnew
    · exact h.rejected_full r hold
    · rw [List.mem_singleton.mp hnew]
      show q.undelivered = IP_OQSIZ
      rw [h.undelivered_eq]
      omega
  · have hroom : (queue.length : ℤ) < IP_OQSIZ := by
      have hsound := h.sound.count_inside
      have hsize : IP_OQSIZ = 8 := rfl
      have hsingle : q.iqsem.passed.length ≤ 1 :=
        (Nat.le_add_left _ _).trans h.single
      by_cases hseven : q.iqsem.count = IP_OQSIZ - 1
      · have hnone : q.iqsem.passed.length = 0 := by rw [hgranted hseven]; rfl
        omega
      · omega
    refine ⟨queue ++ [pkt], ?_, h.holds.put hroom, h.sound.signal, ?_, ?_,
      h.rejected_full⟩
    · dsimp only
      rw [h.accepted, List.append_assoc]
    · rw [CountingSemaphore.count_signal, CountingSemaphore.inside_signal,
        List.length_append, List.length_singleton]
      push_cast
      omega
    · rw [CountingSemaphore.inside_signal]
      exact h.single

theorem IpInv.wait
    {queue : List Packet} (h : IpInv q queue) (hout : q.iqsem.inside = 0) :
    IpInv q.ipoutWait queue where
  accepted := h.accepted
  holds := h.holds
  sound := h.sound.wait
  counted := by
    have hcounted := h.counted
    simp only [Iqentry.ipoutWait, CountingSemaphore.count_wait,
      CountingSemaphore.inside_wait]
    push_cast
    omega
  single := by
    simp only [Iqentry.ipoutWait, CountingSemaphore.inside_wait]
    omega
  rejected_full := h.rejected_full

theorem IpInv.take
    {queue : List Packet} (h : IpInv q queue) (hpassed : q.iqsem.passed ≠ []) :
    ∃ queue, IpInv q.ipoutTake queue := by
  have hmem : () ∈ q.iqsem.passed := by
    obtain ⟨p, hp⟩ := List.exists_mem_of_ne_nil _ hpassed
    exact hp
  have hinside := CountingSemaphore.inside_goOn hmem
  have hcounted := h.counted
  have hsound := h.sound.count_inside
  have hpos := List.length_pos_of_mem hmem
  cases queue with
  | nil =>
      rw [List.length_nil] at hcounted
      push_cast at hcounted
      omega
  | cons first rest =>
      refine ⟨rest, ?_, h.holds.take, h.sound.goOn, ?_, ?_, h.rejected_full⟩
      · show q.accepted = (q.taken ++ [q.iqbuf q.iqhead]) ++ rest
        rw [h.accepted, h.holds.first, List.append_assoc]
        rfl
      · rw [List.length_cons] at hcounted
        simp only [Iqentry.ipoutTake, CountingSemaphore.count_goOn]
        push_cast at hcounted
        omega
      · have hsingle := h.single
        simp only [Iqentry.ipoutTake]
        omega

theorem IpInv.step
    {queue : List Packet} (h : IpInv q queue) (hallowed : NoneGranted q action)
    (hstep : ipStep q action = some q') : ∃ queue, IpInv q' queue := by
  cases action with
  | enqueue pkt =>
      cases hstep
      exact h.enqueue hallowed
  | wait =>
      simp only [ipStep] at hstep
      split_ifs at hstep with hout
      cases hstep
      exact ⟨queue, h.wait hout⟩
  | take =>
      simp only [ipStep] at hstep
      split_ifs at hstep with hpassed
      cases hstep
      exact h.take hpassed

/-- The queue is sound in every run in which no packet is accepted with the
count at seven while `ipout` has still to take one. -/
theorem ip_queue_sound
    (hreach : Reach ipStep NoneGranted (ipInit pkt) q) : IpQueueLaw q := by
  obtain ⟨queue, hinv⟩ := hreach.invariant (fun q => ∃ queue, IpInv q queue)
    ⟨[], rfl, .empty le_rfl (show 0 < IP_OQSIZ by decide), .init le_rfl, rfl,
      Nat.zero_le _, fun _ h => absurd h List.not_mem_nil⟩
    fun _ _ _ ⟨_, h⟩ hallowed hstep => h.step hallowed hstep
  exact ⟨⟨queue, hinv.accepted, hinv.holds⟩, hinv.rejected_full⟩

end Law

/-- `ipout` waits, a packet wakes it, nine more come and the last is
rejected. -/
theorem ip_queue_sound_overflow :
    ∃ q, Reach ipStep NoneGranted (ipInit 0) q ∧
      (q.taken, q.rejected) = ([1], [(10, 8)]) ∧ IpQueueLaw q := by
  have hview : (run (fun q action => if NoneGranted q action then
        ipStep q action else none) (ipInit 0)
      [.wait, .enqueue 1, .take, .enqueue 2, .enqueue 3, .enqueue 4, .enqueue 5,
        .enqueue 6, .enqueue 7, .enqueue 8, .enqueue 9, .enqueue 10]).map
        (fun q => (q.taken, q.rejected)) = some ([1], [(10, 8)]) := by
    decide
  obtain ⟨q, hrun, htaken⟩ := Option.map_eq_some_iff.mp hview
  have hreach := Reach.run_checked _ .start hrun
  exact ⟨q, hreach, htaken, ip_queue_sound hreach⟩

/-- A sender with a high priority enqueues nine packets before `ipout`, which
the first one has woken, runs. -/
theorem ninth_packet_overwrites_first :
    ¬ ∀ q, Reach ipStep (fun _ _ => True) (ipInit 0) q → IpQueueLaw q := by
  intro hlaw
  have hview : (run (fun q action => if True then ipStep q action else none)
      (ipInit 0) (.wait :: List.replicate 9 (.enqueue 1))).map
        (fun q => (q.accepted.length, q.taken.length)) = some (9, 0) := by
    decide
  obtain ⟨q, hrun, hlen⟩ := Option.map_eq_some_iff.mp hview
  rw [Prod.mk.injEq] at hlen
  obtain ⟨queue, haccepted, hholds⟩ :=
    (hlaw q (Reach.run_checked _ .start hrun)).fifo
  have hsum := congrArg List.length haccepted
  rw [List.length_append, hlen.1, hlen.2] at hsum
  have hsize := hholds.length_le
  unfold IP_OQSIZ at hsize
  omega

end Xinu.IpOutput
