import Xinu.CallRefinement
import Xinu.TransitionSystem

/-!
# Runs of the kernel

A run starts from the tables that `sysinit` leaves.  What every move preserves
holds in every state of a run, and the queue table of every such state stores
the lists that the process states call for.
-/

namespace Xinu

open ByteMemory LinkedTable Placement TransitionSystem Kernel

/-! ## The first state -/

section Boot

variable {t : Queuetab} {q i : ℤ}

theorem newqueue_next :
    (t.newqueue q).next =
      Function.update (Function.update t.next q (q + 1)) (q + 1) EMPTY := by
  simp [Queuetab.newqueue, queuehead, queuetail]

theorem newqueue_prev :
    (t.newqueue q).prev =
      Function.update (Function.update t.prev q EMPTY) (q + 1) q := by
  simp [Queuetab.newqueue, queuehead, queuetail]

theorem newqueue_key :
    (t.newqueue q).key =
      Function.update (Function.update t.key q MAXKEY) (q + 1) MINKEY := by
  simp [Queuetab.newqueue, queuehead, queuetail]

/-- What `newqueue` has set up after `n` calls. -/
structure BootTable (n : ℕ) (t : Queuetab) : Prop where
  next : ∀ i : ℕ, i < n → t.next (NPROC + 2 * i) = NPROC + 2 * i + 1
  prev : ∀ i : ℕ, i < n → t.prev (NPROC + 2 * i + 1) = NPROC + 2 * i
  tailKey : ∀ i : ℕ, i < n → t.key (NPROC + 2 * i + 1) = MINKEY
  keys : ∀ p, p < NPROC → t.key p = 0

theorem bootTable (n : ℕ) : BootTable n (bootQueues n) := by
  induction n with
  | zero => exact ⟨by simp, by simp, by simp, fun _ _ => rfl⟩
  | succ n ih =>
      have hother : ∀ i : ℕ, i < n + 1 → i ≠ n → i < n := by omega
      rw [bootQueues]
      constructor
      · intro i hi
        by_cases heq : i = n
        · subst heq
          rw [newqueue_next, Function.update_of_ne (by omega),
            Function.update_self]
        · rw [newqueue_next, Function.update_of_ne (by omega),
            Function.update_of_ne (by omega)]
          exact ih.next i (hother i hi heq)
      · intro i hi
        by_cases heq : i = n
        · subst heq
          rw [newqueue_prev, Function.update_self]
        · rw [newqueue_prev, Function.update_of_ne (by omega),
            Function.update_of_ne (by omega)]
          exact ih.prev i (hother i hi heq)
      · intro i hi
        by_cases heq : i = n
        · subst heq
          rw [newqueue_key, Function.update_self]
        · rw [newqueue_key, Function.update_of_ne (by omega),
            Function.update_of_ne (by omega)]
          exact ih.tailKey i (hother i hi heq)
      · intro p hp
        rw [newqueue_key, Function.update_of_ne (by omega),
          Function.update_of_ne (by omega)]
        exact ih.keys p hp

def emptyLists : QueueLists := ⟨fun _ => [], fun _ => 0⟩

theorem queueId_index {q : ℤ} (hq : QueueId q) :
    ∃ i : ℕ, i < NSEM.toNat + 2 ∧ q = NPROC + 2 * i := by
  unfold QueueId NQENT NPROC NSEM at hq
  refine ⟨((q - NPROC) / 2).toNat, ?_, ?_⟩
  · unfold NPROC NSEM
    omega
  · unfold NPROC
    omega

theorem boot_represents :
    Represents (bootQueues (NSEM.toNat + 2)) emptyLists := by
  have htable := bootTable (NSEM.toNat + 2)
  constructor
  · intro q hq
    obtain ⟨i, hi, rfl⟩ := queueId_index hq
    exact ⟨htable.next i hi, htable.prev i hi⟩
  · intro q hq
    obtain ⟨i, hi, rfl⟩ := queueId_index hq
    exact htable.tailKey i hi
  · exact fun hp => htable.keys _ hp.2
  · exact fun hp => absurd hp List.not_mem_nil
  · exact fun _ => List.nodup_nil
  · exact fun hp => absurd hp List.not_mem_nil

theorem boot_state (heap : Heap) (stk : Word) (x : ℤ) :
    (bootKernel emptyLists heap stk).state x =
      if x = NULLPROC then .curr else .free := by
  unfold state bootKernel
  by_cases hx : x = NULLPROC
  · simp [hx, nullEntry]
  · simp [hx, freeEntry]

theorem boot_prctx (heap : Heap) (stk : Word) (x : ℤ) :
    ((bootKernel emptyLists heap stk).proctab x).prctx = [] := by
  unfold bootKernel
  by_cases hx : x = NULLPROC
  · simp [hx, nullEntry, freeEntry]
  · simp [hx, freeEntry]

theorem boot_settled (heap : Heap) (stk : Word) :
    Settled (bootKernel emptyLists heap stk) := by
  have hstate := boot_state heap stk
  have hnull : (bootKernel emptyLists heap stk).state NULLPROC = .curr := by
    rw [hstate, if_pos rfl]
  refine ⟨⟨?_, ?_, ?_, ?_, Or.inl hnull, ?_, ?_, ?_⟩, hnull, rfl⟩
  · constructor
    · intro q p
      have hhome : ((bootKernel emptyLists heap stk).proctab p).home = none := by
        have hp := hstate p
        apply home_none <;> (rw [hp]; split_ifs <;> simp)
      rw [homes, hhome]
      simp [bootKernel, emptyLists]
    · exact fun _ => List.nodup_nil
  · intro x hx
    by_cases heq : x = NULLPROC
    · rw [heq]
      unfold ProcId NULLPROC NPROC
      decide
    · rw [hstate, if_neg heq] at hx
      exact absurd rfl hx
  · intro x hx
    by_contra hne
    rw [hstate, if_neg (show ¬ x = NULLPROC from hne)] at hx
    cases hx
  · show ProcId NULLPROC
    unfold ProcId NULLPROC NPROC
    decide
  · intro x hx
    rw [hstate] at hx
    split_ifs at hx
  · intro x v s i hmem
    rw [boot_prctx] at hmem
    cases hmem
  · refine ⟨rfl, rfl, fun _ => rfl, ?_, ?_, ?_, rfl⟩
    · intro sem
      show InRange 0
      unfold InRange
      decide
    · show (0 : ℤ) ≤ 1
      decide
    · show SemId 0
      unfold SemId NSEM
      decide

end Boot

/-! ## Invariants of runs -/

section Runs

variable {mem : Memory} {memlistAddr imageEnd : Word}
variable {k₀ k : Kernel Queuetab}
variable {allowed : Kernel Queuetab → Action → Prop}

theorem sysinit_withTable (hboot : sysinit mem memlistAddr imageEnd = some k₀) :
    ∃ heap stk, k₀ = (bootKernel emptyLists heap stk).withTable
      (bootQueues (NSEM.toNat + 2)) := by
  unfold sysinit at hboot
  rw [Option.map_eq_some_iff] at hboot
  obtain ⟨⟨heap, stk⟩, -, hk⟩ := hboot
  exact ⟨heap, stk, hk.symm⟩

/-- What holds at boot and survives every step of a run. -/
theorem run_invariant
    (hboot : sysinit mem memlistAddr imageEnd = some k₀)
    (hreach : Reach step allowed k₀ k) (Inv : Kernel QueueLists → Prop)
    (hstart : ∀ heap stk, Inv (bootKernel emptyLists heap stk))
    (hstep : ∀ {action a c t}, Settled a → Represents t a.queues →
      allowed (a.withTable t) action → Inv a → Moves action a a c →
        Settled c → Picks action a c → Completed action a c → Inv c) :
    ∃ a t, k = a.withTable t ∧ Represents t a.queues ∧ Settled a ∧ Inv a := by
  apply hreach.invariant fun k =>
    ∃ a t, k = a.withTable t ∧ Represents t a.queues ∧ Settled a ∧ Inv a
  · obtain ⟨heap, stk, hk⟩ := sysinit_withTable hboot
    exact ⟨_, _, hk, boot_represents, boot_settled heap stk, hstart heap stk⟩
  · rintro s action s' ⟨a, t, rfl, ht, ha, hinv⟩ hallowed hnext
    obtain ⟨c, t', hmoves, hrep, hk, hsettled, hpicks, hcompleted⟩ :=
      follows_step ha ht hnext
    exact ⟨c, t', hk, hrep, hsettled,
      hstep ha ht hallowed hinv hmoves hsettled hpicks hcompleted⟩

/-- What holds at boot and survives every move. -/
theorem run_invariant_of_moves
    (hboot : sysinit mem memlistAddr imageEnd = some k₀)
    (hreach : Reach step allowed k₀ k) (Inv : Kernel QueueLists → Prop)
    (hstart : ∀ heap stk, Inv (bootKernel emptyLists heap stk))
    (hmove : ∀ {action a b c t}, Settled a → Represents t a.queues →
      allowed (a.withTable t) action → Queued b → Inv b →
        Move action a b c → Inv c) :
    ∃ a t, k = a.withTable t ∧ Represents t a.queues ∧ Settled a ∧ Inv a := by
  apply run_invariant hboot hreach Inv hstart
  intro action a c t ha ht hallowed hinv hmoves _ _ _
  have hboth : ∀ {c}, Moves action a a c → Queued c ∧ Inv c := by
    intro c hmoves
    induction hmoves with
    | refl => exact ⟨ha.queued, hinv⟩
    | tail _ hlast ih =>
        exact ⟨hlast.queued ih.1, hmove ha ht hallowed ih.1 ih.2 hlast⟩
  exact (hboth hmoves).2

end Runs

/-! ## Runs of the linked image -/

/-- `sysinit` over zeroed memory, at the addresses of the link map. -/
def linkedBoot : Option (Kernel Queuetab) :=
  sysinit (fun _ => 0) 0x121C30 0x143000

/-- A run of the linked image, from what can be computed about its end. -/
theorem linkedBoot_run
    {α : Type} (allowed : Kernel Queuetab → Action → Prop) {v : α}
    (view : Kernel Queuetab → α) (actions : List Action)
    (hview : (linkedBoot.bind fun k => run step k actions).map view = some v)
    (hallowed : ∀ k, Allowed step allowed k actions) :
    ∃ k₀ k, sysinit (fun _ => 0) 0x121C30 0x143000 = some k₀ ∧
      Reach step allowed k₀ k ∧ view k = v := by
  rw [Option.map_eq_some_iff] at hview
  obtain ⟨k, hrun, hk⟩ := hview
  rw [Option.bind_eq_some_iff] at hrun
  obtain ⟨k₀, hboot, hrun⟩ := hrun
  exact ⟨k₀, k, hboot, Reach.run actions .start (hallowed k₀) hrun, hk⟩

theorem allowed_of_forall
    {allowed : Kernel Queuetab → Action → Prop} {actions : List Action}
    (hallowed : ∀ k, ∀ action ∈ actions, allowed k action)
    (k : Kernel Queuetab) : Allowed step allowed k actions := by
  induction actions generalizing k with
  | nil => trivial
  | cons action actions ih =>
      refine ⟨hallowed k action (by simp), fun k' _ => ?_⟩
      exact ih (fun k x hx => hallowed k x (by simp [hx])) k'

section Consistency

variable {mem : Memory} {memlistAddr imageEnd : Word}
variable {k₀ k : Kernel Queuetab}

/-! ## The queue table of a run -/

/-- The table stores `lists`, and every process is on the list its state calls
for. -/
structure QueuesConsistent (k : Kernel Queuetab) (lists : ℤ → List ℤ) :
    Prop where
  linked : ∀ {q}, QueueId q →
    Linked k.queues.next k.queues.prev q (lists q) (q + 1)
  nodup : ∀ q, (lists q).Nodup
  processes : ∀ {q p}, p ∈ lists q → QueueId q ∧ ProcId p
  disjoint : ∀ {q q' p}, p ∈ lists q → p ∈ lists q' → q = q'
  allocated : QueueId k.readylist ∧ QueueId k.sleepq ∧
    ∀ {sem}, SemId sem → QueueId (k.semtab sem).squeue
  ready : ∀ {p}, p ∈ lists k.readylist ↔ k.state p = .ready
  sleep : ∀ {p}, p ∈ lists k.sleepq ↔ k.state p = .sleep ∨ k.state p = .rectim
  wait : ∀ {sem p}, SemId sem → (p ∈ lists (k.semtab sem).squeue ↔
    k.state p = .wait ∧ (k.proctab p).prsem = sem)
  prsem : ∀ {p}, k.state p = .wait → SemId (k.proctab p).prsem
  current : ∀ {p}, k.state p = .curr ↔ p = k.currpid
  valid : ProcId k.currpid
  spare : k.currpid ≠ NULLPROC → lists k.readylist ≠ []

theorem Settled.queuesConsistent
    {a : Kernel QueueLists} {t : Queuetab} (ha : Settled a)
    (ht : Represents t a.queues) :
    QueuesConsistent (a.withTable t) a.queues.lists := by
  have hq := ha.queued
  have hready : (a.withTable t).readylist = READYQ := hq.wired.readylist
  have hsleep : (a.withTable t).sleepq = SLEEPQ := hq.wired.sleepq
  have hsem : ∀ sem, ((a.withTable t).semtab sem).squeue = semq sem :=
    hq.wired.squeue
  constructor
  · exact ht.linked
  · exact ht.nodup
  · exact ht.mem
  · exact ht.disjoint
  · rw [hready, hsleep]
    refine ⟨queueId_readyq, queueId_sleepq, ?_⟩
    intro sem hid
    rw [hsem]
    exact queueId_semq hid
  · rw [hready]
    exact hq.mem_readyq
  · rw [hsleep]
    exact hq.mem_sleepq
  · intro sem p hid
    rw [hsem]
    exact hq.mem_waiters hid
  · exact hq.waits
  · intro p
    constructor
    · exact hq.unique
    · rintro rfl
      exact ha.running
  · exact hq.current
  · intro hne
    rw [hready]
    have hnull : NULLPROC ∈ a.lists READYQ := by
      rw [hq.mem_readyq]
      rcases hq.null with hcurr | hready
      · exact absurd (hq.unique hcurr).symm hne
      · exact hready
    exact List.ne_nil_of_mem hnull

/-- In every run of the process primitives the queue table is consistent at
every context switch and at every return. -/
theorem queues_consistent
    (hboot : sysinit mem memlistAddr imageEnd = some k₀)
    (hreach : Reach step (fun _ _ => True) k₀ k) :
    ∃ lists, QueuesConsistent k lists := by
  obtain ⟨a, t, hk, ht, ha, -⟩ := run_invariant_of_moves hboot hreach
    (fun _ => True) (fun _ _ => trivial) fun _ _ _ _ _ _ => trivial
  rw [hk]
  exact ⟨_, ha.queuesConsistent ht⟩

end Consistency

/-- A run in which a process created by the null process waits on a semaphore
and another one sleeps. -/
theorem queues_consistent_linkedBoot :
    ∃ k₀ k, sysinit (fun _ => 0) 0x121C30 0x143000 = some k₀ ∧
      Reach step (fun _ _ => True) k₀ k ∧
      (k.currpid, k.state 1, k.state 2) = (0, .wait, .sleep) ∧
      ∃ lists, QueuesConsistent k lists := by
  obtain ⟨k₀, k, hboot, hreach, hview⟩ := linkedBoot_run
    (fun _ _ => True)
    (fun k => (k.currpid, k.state 1, k.state 2))
    [.call (.semcreate 0), .call (.create 0 1000 20 []), .call (.resume 1),
      .call (.wait 0), .call (.create 0 1000 30 []), .call (.resume 2),
      .call (.sleepms 5)]
    (v := (0, .wait, .sleep)) (by decide +kernel)
    (allowed_of_forall fun _ _ _ => trivial)
  exact ⟨k₀, k, hboot, hreach, hview, queues_consistent hboot hreach⟩

end Xinu
