import Xinu.BufferPools
import Xinu.Ports

/-!
# Permits of killed processes

`getbuf` and `ptrecv` wait for a permit before they touch the list it stands
for.  `kill` gives the permit of a waiting process back, but not that of a
process which a signal has already made ready.
-/

namespace Xinu.KilledPermits

open ByteMemory TransitionSystem BufferPools Ports

/-- A semaphore and the length of the list that it guards. -/
structure InStep {Process : Type} (sem : CountingSemaphore Process)
    (length : ℕ) : Prop where
  length_eq : (length : ℤ) = max 0 sem.count + sem.passed.length
  available : sem.passed.length < length →
    ∀ p, (sem.wait p).waiting = sem.waiting

theorem InStep.of_length_eq
    {Process : Type} {sem : CountingSemaphore Process} {length : ℕ}
    (h : (length : ℤ) = max 0 sem.count + sem.passed.length) :
    InStep sem length where
  length_eq := h
  available := fun hlt p => by
    unfold CountingSemaphore.wait
    rw [if_neg (by omega)]

/-- Neither a reset nor a deletion. -/
def Uses : PortAction → Prop
  | .ptreset _ | .ptdelete _ => False
  | _ => True

instance : (action : PortAction) → Decidable (Uses action)
  | .ptreset _ | .ptdelete _ => inferInstanceAs (Decidable False)
  | .ptcreate _ | .ptsend _ _ _ | .ptrecv _ _ | .ptcount _ | .resume _ _
  | .proceed _ | .kill _ _ => inferInstanceAs (Decidable True)

def Uncleared (s : PortTable) : Prop :=
  ∀ p, (s.porttab p).released = [] ∧
    ∀ reset stage, (s.porttab p).ptstate ≠ .limbo reset stage

section Ports

variable {s s' : PortTable} {p : ℕ} {c : Caller} {f : Ptentry → Ptentry}
  {action : PortAction}

theorem Uncleared.modify
    (h : Uncleared s) (hreleased : (f (s.porttab p)).released = [])
    (hstate : ∀ reset stage, (f (s.porttab p)).ptstate ≠ .limbo reset stage) :
    Uncleared (s.modify p f) := by
  intro q
  by_cases heq : q = p
  · subst heq
    rw [modify_porttab_self]
    exact ⟨hreleased, hstate⟩
  · rw [modify_porttab_of_ne heq]
    exact h q

theorem Uncleared.goOn (h : Uncleared s) (hgo : s.goOn p c = some s') :
    Uncleared s' := by
  have hleft : Uncleared (s.modify p (·.leave c)) := by
    refine h.modify ?_ (by simpa using (h p).2)
    unfold Ptentry.leave
    split <;> simp [(h p).1]
  have hentry := hleft p
  unfold PortTable.goOn PortTable.finish at hgo
  dsimp only at hgo
  rw [Option.map_eq_some_iff] at hgo
  obtain ⟨⟨t, word⟩, hfinish, rfl⟩ := hgo
  split at hfinish
  · cases hfinish
    exact hleft
  · split at hfinish
    next m _ =>
      split_ifs at hfinish
      cases hfinish
      have hnew : Uncleared ((s.modify p (·.leave c)).modify p
          (·.accept s.ptfree m)) := hleft.modify hentry.1 hentry.2
      exact hnew
    · cases hfinish
      have hnew : ∀ node m, Uncleared ((s.modify p (·.leave c)).modify p
          (·.deliver node c m)) := fun _ _ => hleft.modify hentry.1 hentry.2
      exact hnew _ _

theorem Uncleared.call
    {pid portid : ℤ} {m : Option Word} (h : Uncleared s)
    (hcall : s.call pid portid m = some s') : Uncleared s' := by
  have hwait : ∀ c, Uncleared (s.modify portid.toNat (·.wait c)) := by
    intro c
    apply h.modify
    · unfold Ptentry.wait
      split <;> exact (h _).1
    · unfold Ptentry.wait
      split <;> exact (h _).2
  unfold PortTable.call at hcall
  dsimp only at hcall
  split_ifs at hcall
  · cases hcall
    exact h
  · cases hcall
    exact h
  · cases hcall
    exact hwait _
  · exact (hwait _).goOn hcall

theorem Uncleared.step
    (h : Uncleared s) (huses : Uses action)
    (hstep : portStep s action = some s') : Uncleared s' := by
  cases action with
  | ptcreate count =>
      cases hstep
      unfold PortTable.ptcreate
      split_ifs
      · exact h
      · split
        · exact h
        next next ptnum _ =>
          have hnew : Uncleared (s.modify ptnum (·.create count)) :=
            h.modify (h ptnum).1 (by simp [Ptentry.create])
          exact hnew
  | ptsend pid portid m =>
      simp only [portStep] at hstep
      split_ifs at hstep
      exact h.call hstep
  | ptrecv pid portid =>
      simp only [portStep] at hstep
      split_ifs at hstep
      exact h.call hstep
  | ptcount portid =>
      cases hstep
      exact h
  | ptreset portid => exact huses.elim
  | ptdelete portid => exact huses.elim
  | resume p c =>
      simp only [portStep] at hstep
      split_ifs at hstep
      exact h.goOn hstep
  | proceed p =>
      simp only [portStep, PortTable.proceed] at hstep
      split_ifs at hstep
      split at hstep
      next hstate => exact absurd hstate ((h p).2 _ _)
      next hstate => exact absurd hstate ((h p).2 _ _)
      next hstate => exact absurd hstate ((h p).2 _ _)
      · simp at hstep
  | kill p c =>
      simp only [portStep] at hstep
      split_ifs at hstep
      cases hstep
      exact h.modify (by simp [Ptentry.kill, (h p).1]) (h p).2

theorem Uncleared.freshNumber (h : Uncleared s) : FreshNumber s action := by
  intro p _ c hc
  rw [(h p).1] at hc
  simp at hc

end Ports

/-- While no process is killed between the signal that releases it and its
run, pools and ports have as many buffers and messages as their semaphores
promise. -/
theorem semaphores_in_step
    {bufsiz numbufs poolid : ℤ} {nbpools maxmsgs : ℕ} {semcreate : Bool}
    {h h' : Heap} {l : List FreeExtents.Extent} {pool₀ pool : Bpentry}
    {s : PortTable} (hwf : WellFormed h l)
    (hmake : mkbufpool bufsiz numbufs nbpools semcreate h =
      some (h', some (poolid, pool₀)))
    (hpool : Reach (poolStep poolid) NoneKilledReleased pool₀ pool)
    (hmax : 0 < maxmsgs)
    (hport : Reach portStep (fun s action => Uses action ∧ KeepsMessage s action)
      (ptinit maxmsgs) s) :
    (∃ free, LinkedTable.Chain NULL (read32 pool.mem) pool.bpnext free ∧
      InStep pool.bpsem free.length) ∧
      ∀ p < NPORTS, (s.porttab p).ptstate = .alloc →
        ∃ queue, LinkedTable.Chain 0 s.ptnext (s.porttab p).pthead queue ∧
          InStep (s.porttab p).ptrsem queue.length := by
  constructor
  · obtain ⟨hid, hlt, -, hinv⟩ := mkbufpool_spec hwf hmake
    obtain ⟨free, hinv⟩ := hinv.reach (by omega) hlt hpool
    exact ⟨free, hinv.free, .of_length_eq hinv.length_eq⟩
  · obtain ⟨⟨free, queue, hinv⟩, -⟩ := hport.invariant
      (fun s => (∃ free queue, PortsInv maxmsgs s free queue) ∧ Uncleared s)
      ⟨⟨_, _, PortsInv.ptinit hmax⟩,
        fun p => ⟨rfl, by simp [ptinit, freePort]⟩⟩
      fun s action s' ⟨⟨_, _, hinv⟩, huncleared⟩ hallowed hstep =>
        ⟨hinv.step huncleared.freshNumber hallowed.2 hstep,
          huncleared.step hallowed.1 hstep⟩
    intro p hp halloc
    have hentry := hinv.ports p hp
    have hcounted := hentry.counted halloc
    have hinside := hentry.ptrsem.count_inside
    exact ⟨queue p, (hentry.listed (by rw [halloc]; trivial)).1,
      .of_length_eq (by omega)⟩

/-- A heap with room for one pool of two buffers. -/
def poolHeap : Heap := singleBlockHeap ⟨4096, 64⟩ 4096 8191 fun _ => 0

theorem poolHeap_wellFormed : WellFormed poolHeap [⟨4096, 64⟩] := by
  apply singleBlockHeap_wellFormed
  · exact ⟨by decide, by decide, by decide⟩
  · exact ⟨by decide, by decide⟩
  · decide

/-- Two processes are killed while they wait, for a buffer and for a message. -/
theorem semaphores_in_step_waiting :
    ∃ h' pool₀ pool s, mkbufpool 9 2 0 true poolHeap =
        some (h', some (0, pool₀)) ∧
      Reach (poolStep 0) NoneKilledReleased pool₀ pool ∧
      Reach portStep (fun s action => Uses action ∧ KeepsMessage s action)
        (ptinit 100) s ∧
      (∃ free, LinkedTable.Chain NULL (read32 pool.mem) pool.bpnext free ∧
        InStep pool.bpsem free.length) ∧
      ∃ queue, LinkedTable.Chain 0 s.ptnext (s.porttab 0).pthead queue ∧
        InStep (s.porttab 0).ptrsem queue.length := by
  have hview : ((mkbufpool 9 2 0 true poolHeap).bind fun r =>
      r.2.bind fun m => (run (fun s action => if NoneKilledReleased s action
        then poolStep m.1 s action else none) m.2
          [.getbuf 1, .getbuf 2, .getbuf 3, .kill 3, .freebuf 1 4100]).map
            fun _ => m.1) = some 0 := by
    decide
  have hview' : (run (fun s action => if Uses action ∧ KeepsMessage s action
      then portStep s action else none) (ptinit 100)
      [.ptcreate 1, .ptrecv 7 0, .kill 0 ⟨7, 1, 1, none⟩, .ptsend 8 0 42]).map
        (fun s => (s.porttab 0).ptstate) = some .alloc := by
    decide
  obtain ⟨⟨h', made⟩, hmake, hview⟩ := Option.bind_eq_some_iff.mp hview
  obtain ⟨⟨poolid, pool₀⟩, rfl, hview⟩ := Option.bind_eq_some_iff.mp hview
  obtain ⟨pool, hrun, hid⟩ := Option.map_eq_some_iff.mp hview
  replace hid : poolid = 0 := hid
  subst hid
  obtain ⟨s, hrun', hstate⟩ := Option.map_eq_some_iff.mp hview'
  have hpool := Reach.run_checked _ .start hrun
  have hport := Reach.run_checked _ .start hrun'
  have hstep := semaphores_in_step poolHeap_wellFormed hmake hpool (by decide)
    hport
  exact ⟨h', pool₀, pool, s, hmake, hpool, hport, hstep.1,
    hstep.2 0 (by decide) hstate⟩

/-- A process is killed when a freed buffer has just released it: the buffer
stays in the list, and nobody is counted for it. -/
theorem kill_loses_permit :
    ∃ h' pool₀ pool, mkbufpool 9 2 0 true poolHeap =
        some (h', some (0, pool₀)) ∧
      Reach (poolStep 0) (fun _ _ => True) pool₀ pool ∧
      ¬ ∃ free, LinkedTable.Chain NULL (read32 pool.mem) pool.bpnext free ∧
        InStep pool.bpsem free.length := by
  have hview : ((mkbufpool 9 2 0 true poolHeap).bind fun r =>
      r.2.bind fun m => (run (fun s action => if True then poolStep m.1 s action
        else none) m.2
          [.getbuf 1, .getbuf 2, .getbuf 3, .freebuf 1 4100, .kill 3]).map
            fun s => (m.1, s.bpnext, s.bpsem.count, s.bpsem.passed)) =
      some (0, 4096, 0, []) := by
    decide
  obtain ⟨⟨h', made⟩, hmake, hview⟩ := Option.bind_eq_some_iff.mp hview
  obtain ⟨⟨poolid, pool₀⟩, rfl, hview⟩ := Option.bind_eq_some_iff.mp hview
  obtain ⟨pool, hrun, hs⟩ := Option.map_eq_some_iff.mp hview
  simp only [Prod.mk.injEq] at hs
  obtain ⟨rfl, hnext, hcount, hpassed⟩ := hs
  refine ⟨h', pool₀, pool, hmake, Reach.run_checked _ .start hrun, ?_⟩
  rintro ⟨free, hchain, hin⟩
  have hlen := hin.length_eq
  rw [hcount, hpassed] at hlen
  cases free with
  | nil =>
      have hnull : pool.bpnext = NULL := hchain
      rw [hnext] at hnull
      exact absurd hnull (by decide)
  | cons x rest =>
      simp only [List.length_cons, List.length_nil] at hlen
      omega

end Xinu.KilledPermits
