import Xinu.KernelMoves

/-!
# The queue table follows the lists

The machine over the queue table and the kernel over lists stay together: the
table stores the lists, and all other variables are equal.  This file proves it
for the scheduler, for the sleep queue and for the semaphores, where a step can
make several processes ready before it reschedules.
-/

namespace Xinu

open Placement Kernel

/-- The machine whose queue table is `t`. -/
def Kernel.withTable (a : Kernel QueueLists) (t : Queuetab) :
    Kernel Queuetab :=
  { a with queues := t }

/-- Between two steps the current process runs and nothing is deferred. -/
structure Settled (a : Kernel QueueLists) : Prop where
  queued : Queued a
  running : a.state a.currpid = .curr
  undeferred : a.ndefers = 0

/-- A change that gives no process a better claim to the processor. -/
structure Quiet (a b : Kernel QueueLists) : Prop where
  currpid : b.currpid = a.currpid
  ready : ∀ {p}, p ∈ b.lists READYQ → p ∈ a.lists READYQ
  prio : ∀ {p}, p = b.currpid ∨ p ∈ b.lists READYQ → b.prio p = a.prio p

/-- How a step settles which process runs after it. -/
inductive Picks (action : Action) (a : Kernel QueueLists) :
    Kernel QueueLists → Prop
  /-- `resched` leaves the current process running. -/
  | stays {c} (hfirst : c.queues.firstkey READYQ < c.prio c.currpid) :
      Picks action a c
  /-- `resched` takes the first process of the ready list. -/
  | switches {b p l} (hmoves : Moves action a a b)
      (hidle : b.state b.currpid ≠ .curr) (hfirst : b.lists READYQ = p :: l) :
      Picks action a (b.dispatch p)
  /-- `resched` is not called. -/
  | quiet {c} (hquiet : Quiet a c) : Picks action a c
  | chprio {p newprio} (haction : action = .call (.chprio p newprio))
      (hlive : a.state p ≠ .free) :
      Picks action a (a.setProc p fun e => { e with prprio := newprio })

/-- The machine has done a step that begins in `a`. -/
def Follows (action : Action) (a : Kernel QueueLists) (k : Kernel Queuetab) :
    Prop :=
  ∃ c t, Moves action a a c ∧ Represents t c.queues ∧ k = c.withTable t ∧
    Settled c ∧ Picks action a c

/-- What rescheduling leaves alone. -/
structure Aside (b c : Kernel QueueLists) : Prop where
  lists : ∀ {q}, q ≠ READYQ → c.lists q = b.lists q
  keys : ∀ {q p}, q ≠ READYQ → p ∈ b.lists q → c.key p = b.key p
  semtab : c.semtab = b.semtab
  log : c.log = b.log

/-- The machine has done a step that begins in `a` and only reschedules after
`b`. -/
def FollowsAside
    (action : Action) (a b : Kernel QueueLists) (k : Kernel Queuetab) : Prop :=
  ∃ c t, Moves action a a c ∧ Represents t c.queues ∧ k = c.withTable t ∧
    Settled c ∧ Picks action a c ∧ Aside b c

theorem FollowsAside.follows
    {action : Action} {a b : Kernel QueueLists} {k : Kernel Queuetab}
    (h : FollowsAside action a b k) : Follows action a k := by
  obtain ⟨c, t, hmoves, hrep, hk, hsettled, hpicks, -⟩ := h
  exact ⟨c, t, hmoves, hrep, hk, hsettled, hpicks⟩

/-! ## Queue operations -/

section Operations

variable {a b : Kernel QueueLists} {t : Queuetab} {p q : ℤ}

theorem queueId_readyq : QueueId READYQ := by
  unfold QueueId READYQ NPROC NSEM NQENT NPROC NSEM
  decide

theorem queueId_sleepq : QueueId SLEEPQ := by
  unfold QueueId SLEEPQ NPROC NSEM NQENT NPROC NSEM
  decide

theorem queueId_semq {sem : ℤ} (hsem : SemId sem) : QueueId (semq sem) := by
  unfold SemId NSEM at hsem
  unfold QueueId semq NPROC NQENT NPROC NSEM
  omega

theorem QueueId.not_bad (hq : QueueId q) : isbadqid q = false := by
  unfold QueueId at hq
  simp [isbadqid]
  omega

theorem ProcId.not_bad
    {Q : Type} {k : Kernel Q} (hid : ProcId p) (hlive : k.state p ≠ .free) :
    k.isbadpid p = false := by
  unfold ProcId at hid
  simp [isbadpid, hlive]
  omega

theorem isbadpid_false
    {Q : Type} {k : Kernel Q} (h : k.isbadpid p = false) :
    ProcId p ∧ k.state p ≠ .free := by
  simp [isbadpid] at h
  exact ⟨⟨h.1.1, h.1.2⟩, h.2⟩

@[simp] theorem state_withTable : (a.withTable t).state p = a.state p := rfl

@[simp] theorem isbadpid_withTable :
    (a.withTable t).isbadpid p = a.isbadpid p := rfl

theorem isempty_withTable (ht : Represents t a.queues) (hq : QueueId q) :
    (a.withTable t).isempty q = true ↔ a.lists q = [] := by
  have hfirst := ht.firstid hq
  unfold isempty
  rw [show (a.withTable t).queues.firstid q = t.firstid q from rfl, hfirst]
  unfold QueueLists.firstid Kernel.lists
  cases hlist : a.queues.lists q with
  | nil =>
      have hle : NPROC ≤ q + 1 := by
        unfold QueueId at hq
        omega
      simp [hle]
  | cons p l =>
      have hp := (ht.mem (show p ∈ a.queues.lists q by simp [hlist])).2.2
      simp [not_le.mpr hp]

theorem isempty_cons
    {l : List ℤ} (ht : Represents t a.queues) (hq : QueueId q)
    (hfirst : a.lists q = p :: l) : (a.withTable t).isempty q = false := by
  rw [← Bool.not_eq_true, isempty_withTable ht hq, hfirst]
  simp

theorem firstkey_withTable (ht : Represents t a.queues) (hq : QueueId q) :
    (a.withTable t).firstkey q = a.queues.firstkey q :=
  ht.firstkey hq

theorem getfirst_withTable
    {l : List ℤ} (ht : Represents t a.queues) (hq : QueueId q)
    (hfirst : a.lists q = p :: l) :
    (a.withTable t).getfirst q =
      ((a.unlink p).withTable (t.getitem p), p) ∧
      Represents (t.getitem p) (a.unlink p).queues := by
  have hempty := isempty_cons ht hq hfirst
  have hhead : (a.withTable t).queues.firstid q = p := by
    rw [show (a.withTable t).queues.firstid q = t.firstid q from rfl,
      ht.firstid hq]
    unfold QueueLists.firstid
    rw [show a.queues.lists q = p :: l from hfirst]
    rfl
  refine ⟨?_, ht.getitem (q := q) ?_⟩
  · simp only [getfirst, hempty, hhead, Bool.false_eq_true, ↓reduceIte]
    rfl
  · rw [show a.queues.lists q = p :: l from hfirst]
    simp

theorem getfirst_empty (ht : Represents t a.queues) (hq : QueueId q)
    (hnone : a.lists q = []) :
    (a.withTable t).getfirst q = (a.withTable t, EMPTY) := by
  have hempty := (isempty_withTable ht hq).mpr hnone
  simp [getfirst, hempty]

theorem dequeue_withTable
    {l : List ℤ} (ht : Represents t a.queues) (hq : QueueId q)
    (hfirst : a.lists q = p :: l) :
    ∃ t', (a.withTable t).dequeue q = ((a.unlink p).withTable t', p) ∧
      Represents t' (a.unlink p).queues := by
  obtain ⟨hget, hrep⟩ := getfirst_withTable ht hq hfirst
  have hmem : p ∈ a.queues.lists q := by
    rw [show a.queues.lists q = p :: l from hfirst]
    simp
  have hfree : ∀ q', p ∉ (a.unlink p).queues.lists q' := fun q' =>
    (ht.nodup q').not_mem_erase
  refine ⟨(t.getitem p).clearLinks p, ?_, hrep.clearLinks (ht.mem hmem).2 hfree⟩
  simp only [dequeue, hq.not_bad, isempty_cons ht hq hfirst, hget,
    Bool.false_eq_true, ↓reduceIte]
  rfl

theorem dequeue_empty (ht : Represents t a.queues) (hq : QueueId q)
    (hnone : a.lists q = []) :
    (a.withTable t).dequeue q = (a.withTable t, EMPTY) := by
  have hempty := (isempty_withTable ht hq).mpr hnone
  simp [dequeue, hq.not_bad, hempty]

theorem insert_withTable
    {w : ℤ} (ht : Represents t a.queues) (hq : QueueId q) (hid : ProcId p)
    (hlive : a.state p ≠ .free) (hfree : ∀ q', p ∉ a.queues.lists q')
    (hkey : MINKEY < w) :
    ∃ t', (a.withTable t).insert p q w =
        (({ a with queues := a.queues.insert p q w } :
          Kernel QueueLists).withTable t', OK) ∧
      Represents t' (a.queues.insert p q w) := by
  obtain ⟨t', hinsert, hrep⟩ := ht.insert hq hid hfree hkey
  refine ⟨t', ?_, hrep⟩
  have hbad : (a.withTable t).isbadpid p = false :=
    ProcId.not_bad (k := a) hid hlive
  simp only [Kernel.insert, hq.not_bad, hbad, Bool.or_self, Bool.false_eq_true,
    ↓reduceIte, show (a.withTable t).queues = t from rfl, hinsert]
  rfl

theorem insertd_withTable
    {w : ℤ} (ht : Represents t a.queues) (hq : QueueId q) (hid : ProcId p)
    (hlive : a.state p ≠ .free) (hfree : ∀ q', p ∉ a.queues.lists q') :
    ∃ t', (a.withTable t).insertd p q w =
        (({ a with queues := a.queues.insertd p q w } :
          Kernel QueueLists).withTable t', OK) ∧
      Represents t' (a.queues.insertd p q w) := by
  obtain ⟨t', hinsert, hrep⟩ : ∃ t', t.insertd p q w = some t' ∧
      Represents t' (a.queues.insertd p q w) := ht.insertd hq hid hfree
  refine ⟨t', ?_, hrep⟩
  have hbad : (a.withTable t).isbadpid p = false :=
    ProcId.not_bad (k := a) hid hlive
  simp only [Kernel.insertd, hq.not_bad, hbad, Bool.or_self, Bool.false_eq_true,
    ↓reduceIte, show (a.withTable t).queues = t from rfl, hinsert]
  rfl

theorem enqueue_withTable
    (ht : Represents t a.queues) (hq : QueueId q) (hid : ProcId p)
    (hlive : a.state p ≠ .free) (hfree : ∀ q', p ∉ a.queues.lists q') :
    (a.withTable t).enqueue p q =
        (({ a with queues := a.queues.enqueue p q } :
          Kernel QueueLists).withTable (t.enqueue p q), p) ∧
      Represents (t.enqueue p q) (a.queues.enqueue p q) := by
  refine ⟨?_, ht.enqueue hq hid hfree⟩
  have hbad : (a.withTable t).isbadpid p = false :=
    ProcId.not_bad (k := a) hid hlive
  simp only [Kernel.enqueue, hq.not_bad, hbad, Bool.or_self, Bool.false_eq_true,
    ↓reduceIte]
  rfl

theorem Loose.not_mem (h : Loose p a) (q : ℤ) : p ∉ a.queues.lists q :=
  h.placed.not_mem (Function.update_self p none a.homes)

theorem minkey_lt_prio {Q : Type} (k : Kernel Q) (p : ℤ) : MINKEY < k.prio p := by
  have hle := (k.proctab p).prprio.minValue_le_toInt
  unfold MINKEY prio
  have hmin : Int16.minValue.toInt = -32768 := by decide
  omega

end Operations

/-! ## The scheduler -/

section Scheduler

variable {action : Action} {a b : Kernel QueueLists} {t : Queuetab} {p : ℤ}

theorem switch_withTable
    {l : List ℤ} (hq : Queued b) (ht : Represents t b.queues)
    (hfirst : b.lists READYQ = p :: l) :
    ∃ t', (b.withTable t).switch = (b.dispatch p).withTable t' ∧
      Represents t' (b.dispatch p).queues := by
  obtain ⟨t', hdequeue, hrep⟩ := dequeue_withTable ht queueId_readyq hfirst
  refine ⟨t', ?_, hrep⟩
  unfold switch
  rw [show (b.withTable t).readylist = READYQ from hq.wired.readylist, hdequeue]
  rfl

/-- `ready` puts the process on the ready list and reschedules. -/
theorem ready_withTable
    (h : Loose p b) (hid : ProcId p) (hlive : b.state p ≠ .free)
    (ht : Represents t b.queues) :
    ∃ t', ((b.withTable t).ready p).1 = ((b.enlist p).withTable t').resched ∧
      Represents t' (b.enlist p).queues := by
  have hready : (b.setState p .ready).state p ≠ .free := by simp
  obtain ⟨t', hinsert, hrep⟩ := insert_withTable
    (w := (b.setState p .ready).prio p) (a := b.setState p .ready) ht
    queueId_readyq hid hready h.not_mem (minkey_lt_prio _ p)
  refine ⟨t', ?_, hrep⟩
  have hbad : (b.withTable t).isbadpid p = false := hid.not_bad hlive
  have hcode : ((b.withTable t).ready p).1 =
      (((b.setState p .ready).withTable t).insert p b.readylist
        ((b.setState p .ready).prio p)).1.resched := by
    unfold Kernel.ready
    rw [if_neg (by simp [hbad])]
    rfl
  rw [hcode, h.wired.readylist, hinsert]
  rfl

theorem resched_deferred (hdefer : 0 < b.ndefers) :
    (b.withTable t).resched = ({ b with attempt := true } :
      Kernel QueueLists).withTable t := by
  unfold resched
  rw [if_pos (show 0 < (b.withTable t).ndefers from hdefer)]
  rfl

theorem Aside.refl (b : Kernel QueueLists) : Aside b b :=
  ⟨fun _ => rfl, fun _ _ => rfl, rfl, rfl⟩

theorem Aside.trans {c : Kernel QueueLists} {d : Kernel QueueLists}
    (h : Aside b c) (h' : Aside c d) : Aside b d where
  lists := fun hq => (h'.lists hq).trans (h.lists hq)
  keys := fun hq hp =>
    (h'.keys hq (by rw [h.lists hq]; exact hp)).trans (h.keys hq hp)
  semtab := h'.semtab.trans h.semtab
  log := h'.log.trans h.log

theorem Aside.dispatch
    {l : List ℤ} (hq : Queued b) (hfirst : b.lists READYQ = p :: l) :
    Aside b (b.dispatch p) := by
  have hmem : p ∈ b.lists READYQ := by simp [hfirst]
  refine ⟨?_, fun _ _ => rfl, rfl, rfl⟩
  intro q hne
  refine List.erase_of_not_mem fun hp => hne ?_
  exact hq.placed.disjoint hp hmem

theorem Aside.enlist (h : Loose p b) : Aside b (b.enlist p) := by
  refine ⟨fun hne => lists_enlist_of_ne b p hne, ?_, rfl, rfl⟩
  intro q x _ hx
  have hne : x ≠ p := by
    rintro rfl
    exact h.placed.not_mem (Function.update_self x none b.homes) hx
  exact Function.update_of_ne hne _ _

theorem FollowsAside.switch
    {d : Kernel QueueLists} (hd : Aside d b)
    (hmoves : Moves action a a b) (hq : Queued b) (hdefer : b.ndefers = 0)
    (ht : Represents t b.queues) (hidle : b.state b.currpid ≠ .curr) :
    FollowsAside action a d (b.withTable t).switch := by
  have hnull := hq.null_ready hidle
  cases hlist : b.lists READYQ with
  | nil =>
      rw [hlist] at hnull
      cases hnull
  | cons p l =>
      obtain ⟨t', hswitch, hrep⟩ := switch_withTable hq ht hlist
      have hmove : Move action a b (b.dispatch p) := .dispatch hidle hlist
      refine ⟨b.dispatch p, t', hmoves.tail hmove, hrep, hswitch, ?_,
        .switches hmoves hidle hlist, hd.trans (.dispatch hq hlist)⟩
      exact ⟨hmove.queued hq, state_dispatch_self b p, hdefer⟩

/-- `resched` keeps the current process or switches to the first ready one. -/
theorem FollowsAside.resched
    (hmoves : Moves action a a b) (hq : Queued b) (hdefer : b.ndefers = 0)
    (ht : Represents t b.queues) :
    FollowsAside action a b (b.withTable t).resched := by
  have hnot : ¬ 0 < (b.withTable t).ndefers := by
    rw [show (b.withTable t).ndefers = 0 from hdefer]
    decide
  unfold Kernel.resched
  rw [if_neg hnot]
  by_cases hcurr : b.state b.currpid = .curr
  · rw [if_pos (show (b.withTable t).state (b.withTable t).currpid = .curr from
      hcurr), show (b.withTable t).readylist = READYQ from hq.wired.readylist,
      firstkey_withTable ht queueId_readyq]
    by_cases hfirst : b.queues.firstkey READYQ < b.prio b.currpid
    · rw [if_pos (show _ < (b.withTable t).prio (b.withTable t).currpid from
        hfirst)]
      exact ⟨b, t, hmoves, ht, rfl, ⟨hq, hcurr, hdefer⟩, .stays hfirst,
        .refl b⟩
    · rw [if_neg (show ¬ _ < (b.withTable t).prio (b.withTable t).currpid from
        hfirst)]
      -- The current process goes back to the ready list.
      have hloose := hq.curr_loose hcurr
      have hready : (b.setState b.currpid .ready).state b.currpid ≠
          .free := by simp
      obtain ⟨t', hinsert, hrep⟩ := insert_withTable
        (w := (b.setState b.currpid .ready).prio b.currpid)
        (a := b.setState b.currpid .ready) ht queueId_readyq hq.current hready
        hloose.not_mem (minkey_lt_prio _ _)
      have hmove : Move action a b (b.enlist b.currpid) := .demote hcurr
      have hidle : (b.enlist b.currpid).state (b.enlist b.currpid).currpid ≠
          .curr := by
        rw [show (b.enlist b.currpid).state (b.enlist b.currpid).currpid =
          .ready from state_enlist_self b b.currpid]
        decide
      have hswitch := FollowsAside.switch (.enlist hloose) (hmoves.tail hmove)
        (hmove.queued hq) hdefer hrep hidle
      have hcode : (((b.withTable t).setState (b.withTable t).currpid
          .ready).insert b.currpid READYQ
            ((b.setState b.currpid .ready).prio b.currpid)).1 =
          (b.enlist b.currpid).withTable t' :=
        congrArg Prod.fst hinsert
      rw [← hcode] at hswitch
      have hlist : ((b.withTable t).setState (b.withTable t).currpid
          .ready).readylist = READYQ := hq.wired.readylist
      simp only [hlist]
      exact hswitch
  · rw [if_neg (show ¬ (b.withTable t).state (b.withTable t).currpid = .curr from
      hcurr)]
    exact FollowsAside.switch (.refl b) hmoves hq hdefer ht hcurr

theorem Follows.resched
    (hmoves : Moves action a a b) (hq : Queued b) (hdefer : b.ndefers = 0)
    (ht : Represents t b.queues) :
    Follows action a (b.withTable t).resched :=
  (FollowsAside.resched hmoves hq hdefer ht).follows

end Scheduler

/-! ## Positions inside a step -/

/-- A step that began in `a` has come to `b` without rescheduling. -/
structure Along
    (action : Action) (a b : Kernel QueueLists) (t : Queuetab) : Prop where
  moves : Moves action a a b
  settled : Settled b
  quiet : Quiet a b
  rep : Represents t b.queues

/-- As `Along`, while rescheduling is deferred. -/
structure Deferring
    (action : Action) (a b : Kernel QueueLists) (t : Queuetab) : Prop where
  moves : Moves action a a b
  queued : Queued b
  running : b.state b.currpid = .curr
  deferred : b.ndefers = 1
  quiet : b.attempt = false → Quiet a b
  rep : Represents t b.queues

section Positions

variable {action : Action} {a b c : Kernel QueueLists} {t t' : Queuetab} {p : ℤ}

theorem Quiet.refl (a : Kernel QueueLists) : Quiet a a :=
  ⟨rfl, fun h => h, fun _ => rfl⟩

theorem Quiet.trans (h : Quiet a b) (h' : Quiet b c) : Quiet a c where
  currpid := h'.currpid.trans h.currpid
  ready := fun hp => h.ready (h'.ready hp)
  prio := by
    intro p hp
    refine (h'.prio hp).trans (h.prio ?_)
    rcases hp with hcurr | hready
    · exact Or.inl (hcurr.trans h'.currpid)
    · exact Or.inr (h'.ready hready)

theorem Quiet.of_same
    (hcurr : c.currpid = b.currpid) (hlists : c.queues.lists = b.queues.lists)
    (hprio : ∀ x, c.prio x = b.prio x) : Quiet b c where
  currpid := hcurr
  ready := by
    intro x hx
    unfold Kernel.lists at hx ⊢
    rwa [hlists] at hx
  prio := fun _ => hprio _

/-- A change of an entry that keeps its priority. -/
theorem Quiet.setProc
    (b : Kernel QueueLists) (p : ℤ) (f : Procent → Procent)
    (hprio : ∀ e, (f e).prprio = e.prprio) : Quiet b (b.setProc p f) :=
  .of_same rfl rfl fun x => prio_setProc b p x f hprio

theorem Quiet.note (b : Kernel QueueLists) (e : Event) : Quiet b (b.note e) :=
  .of_same rfl rfl fun _ => rfl

theorem Quiet.deposit (b : Kernel QueueLists) (p : ℤ) (msg : ByteMemory.Word) :
    Quiet b (b.deposit p msg) := by
  refine .of_same rfl rfl ?_
  intro x
  exact prio_deposit b p x msg

theorem Quiet.fetch (b : Kernel QueueLists) (p : ℤ) : Quiet b (b.fetch p) := by
  refine .of_same rfl rfl ?_
  intro x
  exact prio_fetch b p x

theorem Quiet.pushFrame (b : Kernel QueueLists) (p : ℤ) (frame : Frame) :
    Quiet b (b.pushFrame p frame) :=
  .setProc b p _ fun _ => rfl

theorem Quiet.popFrame (b : Kernel QueueLists) (p : ℤ) :
    Quiet b (b.popFrame p) :=
  .setProc b p _ fun _ => rfl

theorem Along.start (ha : Settled a) (ht : Represents t a.queues) :
    Along action a a t :=
  ⟨.refl, ha, .refl a, ht⟩

theorem Along.stop (h : Along action a b t) :
    Follows action a (b.withTable t) :=
  ⟨b, t, h.moves, h.rep, rfl, h.settled, .quiet h.quiet⟩

theorem Along.move
    (h : Along action a b t) (hmove : Move action a b c)
    (hquiet : Quiet b c) (hrun : c.state b.currpid = .curr)
    (hdefer : c.ndefers = b.ndefers) (hrep : Represents t' c.queues) :
    Along action a c t' where
  moves := h.moves.tail hmove
  settled := by
    refine ⟨hmove.queued h.settled.queued, ?_, ?_⟩
    · rw [hquiet.currpid]
      exact hrun
    · rw [hdefer]
      exact h.settled.undeferred
  quiet := h.quiet.trans hquiet
  rep := hrep

theorem Along.resched
    (h : Along action a b t) (hmove : Move action a b c)
    (hdefer : c.ndefers = b.ndefers) (hrep : Represents t' c.queues) :
    Follows action a (c.withTable t').resched :=
  Follows.resched (h.moves.tail hmove) (hmove.queued h.settled.queued)
    (hdefer.trans h.settled.undeferred) hrep

theorem Along.ready
    (h : Along action a b t) (hloose : Loose p c) (hid : ProcId p)
    (hlive : c.state p ≠ .free) (hrep : Represents t' c.queues)
    (hmove : Move action a b (c.enlist p)) (hdefer : c.ndefers = b.ndefers) :
    Follows action a ((c.withTable t').ready p).1 := by
  obtain ⟨t'', hready, hrep'⟩ := ready_withTable hloose hid hlive hrep
  rw [hready]
  exact h.resched hmove hdefer hrep'

theorem Along.deferStart (h : Along action a b t) :
    ((b.withTable t).reschedCntl DEFER_START).1 =
      ({ b with ndefers := 1, attempt := false } :
        Kernel QueueLists).withTable t ∧
    Deferring action a { b with ndefers := 1, attempt := false } t := by
  have hdefer := h.settled.undeferred
  have hsame : SameTables b { b with ndefers := 1, attempt := false } :=
    ⟨rfl, id, id⟩
  constructor
  · unfold reschedCntl
    rw [if_pos rfl, if_pos (show (b.withTable t).ndefers = 0 from hdefer)]
    show ({ (b.withTable t) with
      ndefers := b.ndefers + 1, attempt := false } : Kernel Queuetab) = _
    rw [hdefer]
    rfl
  · refine ⟨h.moves.tail (.adjust hsame), SameTables.queued h.settled.queued
      hsame, h.settled.running, rfl, ?_, h.rep⟩
    exact fun _ => h.quiet.trans (.of_same rfl rfl fun _ => rfl)

theorem Deferring.deferStop_aside (h : Deferring action a b t) :
    FollowsAside action a b ((b.withTable t).reschedCntl DEFER_STOP).1 := by
  have hsame : SameTables b { b with ndefers := 0 } := ⟨rfl, id, id⟩
  have hmoves := h.moves.tail (.adjust hsame)
  have hqueued := SameTables.queued h.queued hsame
  have hcode : ((b.withTable t).reschedCntl DEFER_STOP).1 =
      if b.attempt = true then
        (({ b with ndefers := 0 } : Kernel QueueLists).withTable t).resched
      else ({ b with ndefers := 0 } : Kernel QueueLists).withTable t := by
    have hone : (b.withTable t).ndefers = 1 := h.deferred
    unfold reschedCntl
    rw [if_neg (by decide), if_pos rfl, if_neg (by rw [hone]; decide)]
    simp only [hone]
    by_cases hattempt : b.attempt = true
    · rw [if_pos hattempt, if_pos ⟨rfl, hattempt⟩]
      rfl
    · rw [if_neg hattempt, if_neg fun hand => hattempt hand.2]
      rfl
  rw [hcode]
  by_cases hattempt : b.attempt = true
  · rw [if_pos hattempt]
    obtain ⟨c, t', hchain, hrep, hk, hsettled, hpicks, haside⟩ :=
      FollowsAside.resched hmoves hqueued rfl h.rep
    exact ⟨c, t', hchain, hrep, hk, hsettled, hpicks,
      ⟨haside.lists, haside.keys, haside.semtab, haside.log⟩⟩
  · rw [if_neg hattempt]
    have hquiet := h.quiet (Bool.eq_false_iff.mpr hattempt)
    exact ⟨_, t, hmoves, h.rep, rfl, ⟨hqueued, h.running, rfl⟩,
      .quiet (hquiet.trans (.of_same rfl rfl fun _ => rfl)),
      ⟨fun _ => rfl, fun _ _ => rfl, rfl, rfl⟩⟩

theorem Deferring.deferStop (h : Deferring action a b t) :
    Follows action a ((b.withTable t).reschedCntl DEFER_STOP).1 :=
  h.deferStop_aside.follows

/-- A process becomes ready while rescheduling is deferred. -/
theorem Deferring.enlist
    (h : Deferring action a b t) (hmove : Move action a b (c.enlist p))
    (hcurr : c.currpid = b.currpid) (hdefer : c.ndefers = b.ndefers)
    (hstate : ∀ x, c.state x = b.state x) (hp : b.state p ≠ .curr)
    (hrep : Represents t' (c.enlist p).queues) :
    ((c.enlist p).withTable t').resched =
      ({ c.enlist p with attempt := true } : Kernel QueueLists).withTable t' ∧
    Deferring action a { c.enlist p with attempt := true } t' := by
  have hone : (c.enlist p).ndefers = 1 := hdefer.trans h.deferred
  have hsame : SameTables (c.enlist p) { c.enlist p with attempt := true } :=
    ⟨rfl, id, id⟩
  have hne : b.currpid ≠ p := by
    rintro rfl
    exact hp h.running
  constructor
  · apply resched_deferred
    rw [hone]
    decide
  · refine ⟨(h.moves.tail hmove).tail (.adjust hsame),
      SameTables.queued (hmove.queued h.queued) hsame, ?_, hone, ?_, hrep⟩
    · show (c.enlist p).state c.currpid = .curr
      rw [hcurr, state_enlist_of_ne c p _ hne, hstate]
      exact h.running
    · intro hfalse
      cases hfalse

theorem Deferring.ready
    (h : Deferring action a b t) (hloose : Loose p c) (hid : ProcId p)
    (hlive : c.state p ≠ .free) (hrep : Represents t' c.queues)
    (hmove : Move action a b (c.enlist p)) (hcurr : c.currpid = b.currpid)
    (hdefer : c.ndefers = b.ndefers) (hstate : ∀ x, c.state x = b.state x)
    (hp : b.state p ≠ .curr) :
    ∃ t'', ((c.withTable t').ready p).1 =
        ({ c.enlist p with attempt := true } : Kernel QueueLists).withTable t'' ∧
      Deferring action a { c.enlist p with attempt := true } t'' := by
  obtain ⟨t'', hready, hrep'⟩ := ready_withTable hloose hid hlive hrep
  obtain ⟨hresched, hnext⟩ := h.enlist hmove hcurr hdefer hstate hp hrep'
  exact ⟨t'', hready.trans hresched, hnext⟩

/-- A move that makes no process ready while rescheduling is deferred. -/
theorem Deferring.move
    (h : Deferring action a b t) (hmove : Move action a b c)
    (hquiet : Quiet b c) (hrun : c.state b.currpid = .curr)
    (hdefer : c.ndefers = b.ndefers) (hattempt : c.attempt = b.attempt)
    (hrep : Represents t' c.queues) : Deferring action a c t' where
  moves := h.moves.tail hmove
  queued := hmove.queued h.queued
  running := by
    rw [hquiet.currpid]
    exact hrun
  deferred := hdefer.trans h.deferred
  quiet := by
    intro hfalse
    rw [hattempt] at hfalse
    exact (h.quiet hfalse).trans hquiet
  rep := hrep

end Positions

end Xinu
