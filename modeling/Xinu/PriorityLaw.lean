import Xinu.KernelRuns

/-!
# The ready list and priorities

The ready list is sorted by a copy of each priority, made when the process is
inserted.  As long as `chprio` does not change the priority of a ready process,
the copies are right and the list is sorted by the priorities themselves.  As
long as it does not lower the current process below a ready one, no ready
process has a priority above the current one.
-/

namespace Xinu

open ByteMemory LinkedTable Placement TransitionSystem Kernel

/-! ## Sorted insertion -/

section Insertion

variable {keys prio : ℤ → ℤ} {key p : ℤ} {l : List ℤ}

theorem insertDescending_pairwise
    (hkey : key = prio p) (hkeys : ∀ x ∈ l, keys x = prio x)
    (hl : l.Pairwise fun x y => prio y ≤ prio x) :
    (QueueLists.insertDescending keys key p l).Pairwise
      fun x y => prio y ≤ prio x := by
  induction l with
  | nil => simp [QueueLists.insertDescending]
  | cons x l ih =>
      have hx : keys x = prio x := hkeys x (by simp)
      obtain ⟨hhead, htail⟩ := List.pairwise_cons.mp hl
      unfold QueueLists.insertDescending
      split_ifs with hle
      · refine List.pairwise_cons.mpr
          ⟨?_, ih (fun y hy => hkeys y (by simp [hy])) htail⟩
        intro y hy
        rcases List.mem_cons.mp ((insertDescending_perm _ _ _ _).mem_iff.mp hy)
          with rfl | hy
        · rw [← hkey, ← hx]
          exact hle
        · exact hhead y hy
      · have hlt : prio x < prio p := by
          rw [← hkey, ← hx]
          omega
        refine List.pairwise_cons.mpr ⟨?_, hl⟩
        intro y hy
        rcases List.mem_cons.mp hy with rfl | hy
        · exact hlt.le
        · exact (hhead y hy).trans hlt.le

end Insertion

/-! ## The order of the ready list -/

/-- The condition on `chprio`: it leaves a ready process at its priority, and
the current process at one that no ready process exceeds. -/
def PriorityKept {Q : Type} (k : Kernel Q) : Action → Prop
  | .call (.chprio pid newprio) =>
      k.isbadpid pid = false →
        (k.state pid = .ready → newprio.toInt = k.prio pid) ∧
        (pid = k.currpid →
          ∀ p, k.state p = .ready → k.prio p ≤ newprio.toInt)
  | _ => True

/-- The ready list is sorted by priority, and its keys are the priorities. -/
structure ReadyOrder (a : Kernel QueueLists) : Prop where
  sorted : (a.lists READYQ).Pairwise fun p p' => a.prio p' ≤ a.prio p
  keys : ∀ {p}, p ∈ a.lists READYQ → a.key p = a.prio p

section Order

variable {action : Action} {a b c : Kernel QueueLists} {p : ℤ}

/-- The order survives when processes leave the list. -/
theorem ReadyOrder.sub
    (h : ReadyOrder b) (hsub : (c.lists READYQ).Sublist (b.lists READYQ))
    (hkey : ∀ {p}, p ∈ b.lists READYQ → c.key p = b.key p)
    (hprio : ∀ {p}, p ∈ b.lists READYQ → c.prio p = b.prio p) :
    ReadyOrder c := by
  constructor
  · refine (h.sorted.sublist hsub).imp_of_mem ?_
    intro x y hx hy hle
    rw [hprio (hsub.subset hx), hprio (hsub.subset hy)]
    exact hle
  · intro p hp
    rw [hkey (hsub.subset hp), hprio (hsub.subset hp)]
    exact h.keys (hsub.subset hp)

/-- The order survives when neither the queues nor the priorities change. -/
theorem ReadyOrder.same
    (h : ReadyOrder b) (hqueues : c.queues = b.queues)
    (hprio : ∀ p, c.prio p = b.prio p) : ReadyOrder c := by
  have hlists : c.lists READYQ = b.lists READYQ := by
    unfold Kernel.lists
    rw [hqueues]
  refine h.sub (by rw [hlists]) ?_ fun _ => hprio _
  intro p _
  unfold Kernel.key
  rw [hqueues]

theorem ReadyOrder.unlink (h : ReadyOrder b) (p : ℤ) :
    ReadyOrder (b.unlink p) :=
  h.sub List.erase_sublist (fun _ => rfl) fun _ => rfl

theorem ReadyOrder.enlist (h : ReadyOrder b) (hp : p ∉ b.lists READYQ) :
    ReadyOrder (b.enlist p) := by
  have hlist : (b.enlist p).lists READYQ =
      QueueLists.insertDescending b.queues.keys (b.prio p) p
        (b.lists READYQ) := by
    rw [← prio_setState b p p .ready]
    exact Function.update_self READYQ _ b.queues.lists
  have hkey : ∀ x, (b.enlist p).key x =
      Function.update b.queues.keys p (b.prio p) x := by
    intro x
    rw [← prio_setState b p p .ready]
    rfl
  constructor
  · rw [hlist]
    refine (insertDescending_pairwise rfl (fun _ => h.keys) h.sorted).imp ?_
    intro x y hle
    rwa [prio_enlist, prio_enlist]
  · intro x hx
    rw [hlist, (insertDescending_perm _ _ _ _).mem_iff] at hx
    rw [hkey, prio_enlist]
    rcases List.mem_cons.mp hx with rfl | hx
    · rw [Function.update_self]
    · have hne : x ≠ p := fun heq => hp (heq ▸ hx)
      rw [Function.update_of_ne hne]
      exact h.keys hx

theorem readyq_ne_sleepq : READYQ ≠ SLEEPQ := by
  unfold READYQ SLEEPQ
  omega

theorem Queued.not_ready (h : Queued b) (hstate : b.state p ≠ .ready) :
    p ∉ b.lists READYQ := by
  rwa [h.mem_readyq]

/-- A ready process is not on the sleep queue. -/
theorem Queued.ready_not_sleeping (h : Queued b) (hp : p ∈ b.lists READYQ) :
    p ∉ b.lists SLEEPQ := fun hsleep =>
  readyq_ne_sleepq (h.placed.disjoint hp hsleep)

theorem ReadyOrder.delay
    (ticks : ℤ) (s : PrState) (h : ReadyOrder b) (hq : Queued b)
    (hstate : b.state p = .curr) : ReadyOrder (b.delay p ticks s) := by
  have hlist : (b.delay p ticks s).lists READYQ = b.lists READYQ :=
    lists_insertd_of_ne ticks readyq_ne_sleepq
  refine h.sub (by rw [hlist]) ?_ fun _ => prio_delay _ _ _ _ _
  intro x hx
  have hne : x ≠ p := by
    rintro rfl
    rw [hq.mem_readyq, hstate] at hx
    cases hx
  exact keys_insertd ticks hne (hq.ready_not_sleeping hx)

theorem ReadyOrder.unsleepEarly (p : ℤ) (h : ReadyOrder b) (hq : Queued b) :
    ReadyOrder (b.unsleepEarly p) := by
  refine h.sub ?_ ?_ fun _ => rfl
  · show (((b.queues.creditNext p SLEEPQ).lists READYQ).erase p).Sublist _
    rw [lists_creditNext]
    exact List.erase_sublist
  · intro x hx
    exact keys_creditNext (hq.ready_not_sleeping hx)

theorem ReadyOrder.setFree (p : ℤ) (h : ReadyOrder b) :
    ReadyOrder (b.setFree p) :=
  h.same rfl fun _ => prio_setFree _ _ _

theorem ReadyOrder.bury (v : ℤ) (h : ReadyOrder b) (hq : Queued b) :
    ReadyOrder (b.bury v) := by
  unfold Kernel.bury
  split
  · exact (h.unsleepEarly v hq).setFree v
  · exact (h.unsleepEarly v hq).setFree v
  · have hbump : ReadyOrder (b.bumpCount (b.proctab v).prsem 1) :=
      h.same rfl fun _ => rfl
    have hnote : ReadyOrder (((b.bumpCount (b.proctab v).prsem 1).unlink
        v).note (.withdrawn (b.proctab v).prsem v)) :=
      (hbump.unlink v).same rfl fun _ => rfl
    exact hnote.setFree v
  · exact (h.unlink v).setFree v
  · exact h.setFree v

/-- Every move keeps the ready list in order. -/
theorem Move.readyOrder
    (hmove : Move action a b c) (hkept : PriorityKept a action)
    (hq : Queued b) (h : ReadyOrder b) : ReadyOrder c := by
  cases hmove with
  | adjust hsame =>
      rw [hsame.eq]
      exact h.same rfl fun _ => rfl
  | demote hcurr => exact h.enlist (hq.not_ready (by simp [hcurr]))
  | dispatch hidle hfirst =>
      exact (h.unlink _).same rfl fun _ => prio_dispatch _ _ _
  | suspendCurr => exact h.same rfl fun _ => prio_setState _ _ _ _
  | suspendReady =>
      exact (h.unlink _).same rfl fun _ => prio_setState _ _ _ _
  | resume hsusp => exact h.enlist (hq.not_ready (by simp [hsusp]))
  | @chprio p newprio haction hlive =>
      subst haction
      have hid := hq.bounded hlive
      have hready := (hkept (hid.not_bad hlive)).1
      refine h.sub (List.Sublist.refl _) (fun _ => rfl) ?_
      intro x hx
      by_cases hxp : x = p
      · subst hxp
        rw [prio_setProc_self]
        exact hready (hq.mem_readyq.mp hx)
      · exact prio_setProc_of_ne _ _ _ _ hxp
  | deliver => exact h.same rfl fun _ => prio_deposit _ _ _ _
  | @deliverRecv _ p msg hempty hrecv =>
      have hdeposit : ReadyOrder (b.deposit p msg) :=
        h.same rfl fun _ => prio_deposit _ _ _ _
      exact hdeposit.enlist (hq.not_ready (by simp [hrecv]))
  | @deliverRectim _ p msg hempty hrectim =>
      have hdeposit : ReadyOrder (b.deposit p msg) :=
        h.same rfl fun _ => prio_deposit _ _ _ _
      have hqd := hq.deposit p msg
      refine (hdeposit.unsleepEarly p hqd).enlist ?_
      exact (hqd.unsleepEarly p).not_mem READYQ
  | awaitMessage =>
      refine h.same rfl fun _ => ?_
      rw [prio_pushFrame, prio_setState]
  | fetch => exact h.same rfl fun _ => prio_fetch _ _ _
  | fetchRet =>
      refine h.same rfl fun _ => ?_
      rw [prio_fetch, prio_popFrame]
  | fetchTimed =>
      refine h.same rfl fun _ => ?_
      rw [prio_fetch, prio_popFrame]
  | timeOut => exact h.same rfl fun _ => rfl
  | sleep hcurr => exact h.delay _ .sleep hq hcurr
  | awaitTimed hcurr =>
      exact (h.delay _ .rectim hq hcurr).same rfl fun _ =>
        prio_pushFrame _ _ _ _
  | tick =>
      refine h.sub ?_ ?_ fun _ => rfl
      · show ((a.queues.decFirstkey SLEEPQ).lists READYQ).Sublist _
        rw [lists_decFirstkey]
        exact List.Sublist.refl _
      · intro x hx
        exact keys_decFirstkey (hq.ready_not_sleeping hx)
  | @expire _ p l haction hfirst hdue =>
      have hnote : ReadyOrder ((b.unlink p).note (.expired p)) :=
        (h.unlink p).same rfl fun _ => rfl
      exact hnote.enlist ((hq.unlink p).not_mem READYQ)
  | pass => exact h.same rfl fun _ => rfl
  | @wait _ sem hid hused hcurr hnull hcount =>
      have hlist : ((b.bumpCount sem (-1)).waitOn sem b.currpid).lists READYQ =
          b.lists READYQ :=
        Function.update_of_ne (semq_ne_readyq hid).symm _ b.queues.lists
      refine h.sub (by rw [hlist]) (fun _ => rfl) ?_
      intro x _
      rw [prio_waitOn, prio_bumpCount]
  | signal => exact h.same rfl fun _ => rfl
  | @release _ sem p l hid hused hcount hfirst =>
      have hnote : ReadyOrder ((((b.bumpCount sem 1).note
          (.signalled sem)).note (.released sem p)).unlink p) :=
        (h.unlink p).same rfl fun _ => rfl
      exact hnote.enlist ((hq.unlink p).not_mem READYQ)
  | @flush _ sem p l hid hfirst =>
      have hnote : ReadyOrder (((b.bumpCount sem 1).note
          (.flushed sem p)).unlink p) :=
        (h.unlink p).same rfl fun _ => rfl
      exact hnote.enlist ((hq.unlink p).not_mem READYQ)
  | stray => exact h.same rfl fun _ => rfl
  | semcreate => exact h.same rfl fun _ => rfl
  | semreset => exact h.same rfl fun _ => rfl
  | semfree => exact h.same rfl fun _ => rfl
  | semdone => exact h.same rfl fun _ => rfl
  | @create _ p entry hid hfree hstate hempty hctx hserial =>
      refine h.sub (List.Sublist.refl _) (fun _ => rfl) ?_
      intro x hx
      have hne : x ≠ p := by
        rintro rfl
        rw [hq.mem_readyq, hfree] at hx
        cases hx
      rw [prio_note, prio_setProc_of_ne _ _ _ _ hne]
      rfl
  | setdesc => exact h.same rfl fun _ => prio_setProc _ _ _ _ fun _ => rfl
  | pushFrame => exact h.same rfl fun _ => prio_pushFrame _ _ _ _
  | popFrame => exact h.same rfl fun _ => prio_popFrame _ _ _
  | kill => exact h.same rfl fun _ => prio_pushFrame _ _ _ _
  | killClose =>
      refine h.same rfl fun _ => ?_
      rw [prio_pushFrame, prio_popFrame]
  | @killFinish v s i rest haction hctx hlast hcurr =>
      have hpop : ReadyOrder ((a.popFrame a.currpid).note
          (.stackFreed v (a.proctab v).serial)) :=
        h.same rfl fun _ => prio_popFrame _ _ _
      exact hpop.bury v ((hq.popFrame _).note _)

theorem Moves.readyOrder
    (hmoves : Moves action a a c) (hkept : PriorityKept a action)
    (hq : Queued a) (h : ReadyOrder a) : ReadyOrder c := by
  have hboth : Queued c ∧ ReadyOrder c := by
    induction hmoves with
    | refl => exact ⟨hq, h⟩
    | tail _ hmove ih =>
        exact ⟨hmove.queued ih.1, hmove.readyOrder hkept ih.1 ih.2⟩
  exact hboth.2

/-! ## The current process -/

/-- No ready process has a priority above the current one. -/
def Dominant (a : Kernel QueueLists) : Prop :=
  ∀ p, p ∈ a.lists READYQ → a.prio p ≤ a.prio a.currpid

/-- Whichever way a step chooses the current process, it dominates. -/
theorem Picks.dominant
    (hpicks : Picks action a c) (ha : Settled a) (horder : ReadyOrder a)
    (hkept : PriorityKept a action) (hc : ReadyOrder c) (h : Dominant a) :
    Dominant c := by
  intro p hp
  cases hpicks with
  | stays hfirst =>
      cases hlist : c.lists READYQ with
      | nil =>
          rw [hlist] at hp
          cases hp
      | cons x l =>
          have hx : x ∈ c.lists READYQ := by simp [hlist]
          have hfirstkey : c.queues.firstkey READYQ = c.key x := by
            unfold QueueLists.firstkey
            rw [show c.queues.lists READYQ = x :: l from hlist]
            rfl
          rw [hfirstkey, hc.keys hx] at hfirst
          have hsorted := hc.sorted
          rw [hlist] at hsorted hp
          rcases List.mem_cons.mp hp with rfl | hp
          · exact hfirst.le
          · exact ((List.pairwise_cons.mp hsorted).1 p hp).trans hfirst.le
  | @switches b x l hmoves hidle hfirst =>
      have hsorted := (hmoves.readyOrder hkept ha.queued horder).sorted
      have hlist : (b.dispatch x).lists READYQ = l := by
        show (b.lists READYQ).erase x = l
        rw [hfirst, List.erase_cons_head]
      rw [hfirst] at hsorted
      rw [hlist] at hp
      rw [prio_dispatch, prio_dispatch]
      exact (List.pairwise_cons.mp hsorted).1 p hp
  | quiet hquiet =>
      rw [hquiet.prio (Or.inr hp), hquiet.prio (Or.inl rfl), hquiet.currpid]
      exact h p (hquiet.ready hp)
  | @chprio v newprio haction hlive =>
      subst haction
      have hready := ha.queued.mem_readyq.mp (show p ∈ a.lists READYQ from hp)
      have hid := ha.queued.bounded hlive
      obtain ⟨hsame, hcurr⟩ := hkept (hid.not_bad hlive)
      have hprio : (a.setProc v fun e => { e with prprio := newprio }).prio p =
          a.prio p := by
        by_cases hpv : p = v
        · subst hpv
          rw [prio_setProc_self]
          exact hsame hready
        · exact prio_setProc_of_ne _ _ _ _ hpv
      rw [hprio]
      by_cases hv : v = a.currpid
      · subst hv
        refine (hcurr rfl p hready).trans (le_of_eq ?_)
        exact (prio_setProc_self a a.currpid
          fun e => { e with prprio := newprio }).symm
      · refine (h p hp).trans (le_of_eq ?_)
        exact (prio_setProc_of_ne a v _ _ (Ne.symm hv)).symm

end Order

/-! ## Runs -/

/-- The ready list in the queue table is sorted by priority, and the current
process is not below any ready one. -/
def PriorityLaw (k : Kernel Queuetab) : Prop :=
  ∃ l, Linked k.queues.next k.queues.prev k.readylist l (k.readylist + 1) ∧
    (∀ p, p ∈ l ↔ k.state p = .ready) ∧
    (l.Pairwise fun p p' => k.prio p' ≤ k.prio p) ∧
    ∀ p, k.state p = .ready → k.prio p ≤ k.prio k.currpid

section Law

variable {mem : Memory} {memlistAddr imageEnd : Word}
variable {k₀ k : Kernel Queuetab}

theorem boot_readyOrder (heap : Heap) (stk : Word) :
    ReadyOrder (bootKernel emptyLists heap stk) :=
  ⟨List.Pairwise.nil, fun hp => absurd hp List.not_mem_nil⟩

theorem priorityLaw_of_settled
    {a : Kernel QueueLists} {t : Queuetab} (ha : Settled a)
    (ht : Represents t a.queues) (horder : ReadyOrder a) (h : Dominant a) :
    PriorityLaw (a.withTable t) := by
  have hready := ha.queued.wired.readylist
  refine ⟨a.lists READYQ, ?_, fun p => ha.queued.mem_readyq, horder.sorted, ?_⟩
  · rw [show (a.withTable t).readylist = READYQ from hready]
    exact ht.linked queueId_readyq
  · exact fun p hp => h p (ha.queued.mem_readyq.mpr hp)

/-- The scheduling law holds in every run in which `chprio` keeps ready
processes at their priority and the current one above them. -/
theorem priority_law_of_priority_kept
    (hboot : sysinit mem memlistAddr imageEnd = some k₀)
    (hreach : Reach step PriorityKept k₀ k) :
    PriorityLaw k := by
  have hstart : ∀ heap stk, ReadyOrder (bootKernel emptyLists heap stk) ∧
      Dominant (bootKernel emptyLists heap stk) := fun heap stk =>
    ⟨boot_readyOrder heap stk, fun p hp => absurd hp List.not_mem_nil⟩
  obtain ⟨a, t, rfl, ht, ha, horder, hdominant⟩ := run_invariant hboot hreach
    (fun a => ReadyOrder a ∧ Dominant a) hstart <| by
      intro action a c t ha ht hkept ⟨horder, hdominant⟩ hmoves hc hpicks _
      have hsorted := hmoves.readyOrder hkept ha.queued horder
      exact ⟨hsorted, hpicks.dominant ha horder hkept hsorted hdominant⟩
  exact priorityLaw_of_settled ha ht horder hdominant

end Law

/-- A run with three processes that changes no priority. -/
theorem priority_law_of_priority_kept_linkedBoot :
    ∃ k₀ k, sysinit (fun _ => 0) 0x121C30 0x143000 = some k₀ ∧
      Reach step PriorityKept k₀ k ∧
      (k.currpid, k.state 0, k.state 1) = (2, .ready, .ready) ∧
      PriorityLaw k := by
  obtain ⟨k₀, k, hboot, hreach, hview⟩ := linkedBoot_run PriorityKept
    (fun k => (k.currpid, k.state 0, k.state 1))
    [.call (.create 0 1000 20 []), .call (.resume 1),
      .call (.create 0 1000 30 []), .call (.resume 2)]
    (v := (2, .ready, .ready)) (by decide +kernel)
    (allowed_of_forall fun k action hmem => by
      simp only [List.mem_cons, List.not_mem_nil, or_false] at hmem
      rcases hmem with rfl | rfl | rfl | rfl <;> trivial)
  exact ⟨k₀, k, hboot, hreach, hview,
    priority_law_of_priority_kept hboot hreach⟩

/-- The current process has priority 20; `chprio` raises a ready process to
30, and the ready list keeps the old key. -/
theorem chprio_breaks_priority_law :
    ¬ ∀ {mem memlistAddr imageEnd k₀ k},
      sysinit mem memlistAddr imageEnd = some k₀ →
        Reach step (fun _ _ => True) k₀ k → PriorityLaw k := by
  intro hlaw
  obtain ⟨k₀, k, hboot, hreach, hview⟩ := linkedBoot_run (fun _ _ => True)
    (fun k => (k.state 2, k.prio 2, k.prio k.currpid))
    [.call (.create 0 1000 20 []), .call (.resume 1),
      .call (.create 0 1000 10 []), .call (.resume 2), .call (.chprio 2 30)]
    (v := (.ready, 30, 20)) (by decide +kernel)
    (allowed_of_forall fun _ _ _ => trivial)
  obtain ⟨l, -, -, -, hdominant⟩ := hlaw hboot hreach
  simp only [Prod.mk.injEq] at hview
  obtain ⟨hready, hprio, hcurr⟩ := hview
  have hle := hdominant 2 hready
  rw [hprio, hcurr] at hle
  omega

end Xinu
