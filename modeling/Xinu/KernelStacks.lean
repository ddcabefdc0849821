import Xinu.ProcessLifetimes
import Xinu.StackReturns

/-!
# The stacks of the kernel's processes

Whatever else the kernel does, its heap and the stacks of its processes change
only in `create` and at the end of `kill`.  A run of the kernel in which nothing
else asks for memory is therefore a run of its stacks, and what holds of those
holds of the kernel.
-/

namespace Xinu

open ByteMemory FreeExtents Placement TransitionSystem Kernel
open ContextSwitch.System (stackSize)

/-! ## What the stacks depend on -/

instance (ev : Event) : Decidable (Vital ev) :=
  match ev with
  | .created _ _ | .stackFreed _ _ => isTrue trivial
  | .sent _ _ | .received _ _ | .timedOut _ | .started _ _ | .passed _
  | .waited _ _ | .signalled _ | .released _ _ | .flushed _ _ | .withdrawn _ _
  | .slept _ _ | .ticked | .expired _ | .unslept _ => isFalse id

/-- The heap, where the stacks are, and which processes came and went. -/
structure Books where
  heap : Heap
  prstk : ℤ → Word × Word
  lives : List Event

namespace Kernel

section Steady

variable {Q : Type} (k : Kernel Q) (p : ℤ)

def books : Books where
  heap := k.heap
  prstk := fun p => ((k.proctab p).prstkbase, (k.proctab p).prstklen)
  lives := k.log.filter fun ev => Vital ev

theorem books_setProc
    (f : Procent → Procent)
    (hf : ∀ e, (f e).prstkbase = e.prstkbase ∧ (f e).prstklen = e.prstklen) :
    (k.setProc p f).books = k.books := by
  unfold books
  congr 1
  funext x
  by_cases hx : x = p
  · subst hx
    rw [proctab_setProc_self, (hf _).1, (hf _).2]
  · rw [proctab_setProc_of_ne _ _ _ _ hx]

@[simp] theorem books_setState (s : PrState) :
    (k.setState p s).books = k.books :=
  books_setProc k p _ fun _ => ⟨rfl, rfl⟩

@[simp] theorem books_pushFrame (frame : Frame) :
    (k.pushFrame p frame).books = k.books :=
  books_setProc k p _ fun _ => ⟨rfl, rfl⟩

@[simp] theorem books_popFrame : (k.popFrame p).books = k.books :=
  books_setProc k p _ fun _ => ⟨rfl, rfl⟩

@[simp] theorem books_setFree : (k.setFree p).books = k.books :=
  books_setProc k p _ fun _ => ⟨rfl, rfl⟩

@[simp] theorem books_setSem (sem : ℤ) (f : Sentry → Sentry) :
    (k.setSem sem f).books = k.books := rfl

@[simp] theorem books_setScount (sem count : ℤ) :
    (k.setScount sem count).books = k.books := rfl

@[simp] theorem books_countMs : k.countMs.books = k.books := rfl

theorem books_note {ev : Event} (hev : ¬ Vital ev) :
    (k.note ev).books = k.books := by
  unfold books note
  rw [List.filter_cons_of_neg (by simpa using hev)]

theorem books_note_vital {ev : Event} (hev : Vital ev) :
    (k.note ev).books = { k.books with lives := ev :: k.books.lives } := by
  unfold books note
  rw [List.filter_cons_of_pos (by simpa using hev)]

@[simp] theorem books_deposit (msg : Word) :
    (k.deposit p msg).books = k.books := by
  unfold deposit
  rw [books_note _ id, books_setProc]
  exact fun _ => ⟨rfl, rfl⟩

@[simp] theorem books_fetch : (k.fetch p).books = k.books := by
  unfold fetch
  rw [books_note _ id, books_setProc]
  exact fun _ => ⟨rfl, rfl⟩

@[simp] theorem books_fetchOrTimeout :
    (k.fetchOrTimeout p).books = k.books := by
  unfold fetchOrTimeout
  split_ifs
  · exact books_fetch k p
  · exact books_note k id

end Steady

variable (k : Kernel Queuetab) (p q key sem count : ℤ)

@[simp] theorem books_getitem : (k.getitem p).books = k.books := rfl

@[simp] theorem books_getfirst : (k.getfirst q).1.books = k.books := by
  unfold getfirst
  split_ifs <;> rfl

@[simp] theorem books_enqueue : (k.enqueue p q).1.books = k.books := by
  unfold enqueue
  split_ifs <;> rfl

@[simp] theorem books_dequeue : (k.dequeue q).1.books = k.books := by
  unfold dequeue
  split_ifs
  · rfl
  · rfl
  · exact books_getfirst k q

@[simp] theorem books_insert : (k.insert p q key).1.books = k.books := by
  unfold insert
  split_ifs
  · rfl
  · split <;> rfl

@[simp] theorem books_insertd : (k.insertd p q key).1.books = k.books := by
  unfold insertd
  split_ifs
  · rfl
  · split <;> rfl

@[simp] theorem books_switch : k.switch.books = k.books := by
  have hstart : ({ (k.dequeue k.readylist).1 with
      currpid := (k.dequeue k.readylist).2 } : Kernel Queuetab).books =
        k.books := books_dequeue k k.readylist
  unfold switch
  exact (books_setState _ _ .curr).trans hstart

@[simp] theorem books_resched : k.resched.books = k.books := by
  unfold resched
  split_ifs
  · rfl
  · rfl
  · simp
  · simp

@[simp] theorem books_reschedCntl (defer : ℤ) :
    (k.reschedCntl defer).1.books = k.books := by
  unfold reschedCntl
  dsimp only
  split_ifs
  · rfl
  · rfl
  · rfl
  · exact books_resched _
  · rfl
  · rfl

@[simp] theorem books_ready : (k.ready p).1.books = k.books := by
  unfold ready
  split_ifs <;> simp

@[simp] theorem books_unsleep : (k.unsleep p).1.books = k.books := by
  unfold unsleep
  split_ifs
  · rfl
  · rfl
  · exact books_note _ id

/-- Note a queue operation and make the process ready. -/
theorem books_note_ready {ev : Event} (hev : ¬ Vital ev) :
    ((k.note ev).ready p).1.books = k.books := by
  rw [books_ready, books_note _ hev]

@[simp] theorem books_wakeupLoop (fuel : ℕ) :
    (k.wakeupLoop fuel).books = k.books := by
  induction fuel generalizing k with
  | zero => rfl
  | succ fuel ih =>
      unfold wakeupLoop
      split_ifs
      · rw [ih, books_note_ready _ _ id, books_dequeue]
      · rfl

@[simp] theorem books_wakeup : k.wakeup.books = k.books := by
  unfold wakeup
  simp

@[simp] theorem books_clkhandler : k.clkhandler.books = k.books := by
  have hstart : ((k.note .ticked).countMs.pushFrame k.currpid
      .clkPreempt).books = k.books := by
    rw [books_pushFrame, books_countMs, books_note _ id]
  unfold clkhandler
  dsimp only
  split_ifs
  · exact hstart
  · exact (books_wakeup _).trans hstart
  · exact hstart

@[simp] theorem books_clkPreempt : k.clkPreempt.books = k.books := by
  unfold clkPreempt
  dsimp only
  split_ifs
  · exact books_resched _
  · rfl

@[simp] theorem books_send (msg : Word) : (k.send p msg).1.books = k.books := by
  unfold send
  dsimp only
  split_ifs <;> simp

@[simp] theorem books_receive : k.receive.books = k.books := by
  unfold receive
  split_ifs <;> simp

@[simp] theorem books_recvclr : k.recvclr.1.books = k.books := by
  unfold recvclr
  split_ifs <;> simp

@[simp] theorem books_recvtime (maxwait : ℤ) :
    (k.recvtime maxwait).books = k.books := by
  unfold recvtime
  dsimp only
  split_ifs
  · rfl
  · exact books_insertd _ _ _ _
  · rw [books_resched, books_note _ id, books_pushFrame, books_setState,
      books_insertd]
  · exact books_fetchOrTimeout k k.currpid

@[simp] theorem books_yield : k.yield.1.books = k.books := books_resched k

@[simp] theorem books_sleepms (delay : ℤ) :
    (k.sleepms delay).1.books = k.books := by
  unfold sleepms
  dsimp only
  split_ifs
  · rfl
  · exact books_resched k
  · exact books_insertd _ _ _ _
  · rw [books_resched, books_note _ id, books_setState, books_insertd]

@[simp] theorem books_sleep (delay : ℤ) : (k.sleep delay).1.books = k.books := by
  unfold sleep
  split_ifs <;> simp

@[simp] theorem books_suspend : (k.suspend p).1.books = k.books := by
  unfold suspend
  dsimp only
  split_ifs <;> simp

@[simp] theorem books_resume : (k.resume p).1.books = k.books := by
  unfold resume
  split_ifs <;> simp

@[simp] theorem books_chprio (newprio : Int16) :
    (k.chprio p newprio).1.books = k.books := by
  unfold chprio
  split_ifs
  · rfl
  · exact books_setProc _ _ _ fun _ => ⟨rfl, rfl⟩

@[simp] theorem books_wait : (k.wait sem).1.books = k.books := by
  unfold wait
  dsimp only
  split_ifs
  · rfl
  · rfl
  · rw [books_resched, books_note _ id, books_enqueue,
      books_setProc, books_setState, books_setScount]
    exact fun _ => ⟨rfl, rfl⟩
  · rw [books_note _ id, books_setScount]

@[simp] theorem books_signalOnce : (k.signalOnce sem).books = k.books := by
  have hstart : ((k.setScount sem (int32 ((k.semtab sem).scount + 1))).note
      (.signalled sem)).books = k.books := books_note _ id
  unfold signalOnce
  dsimp only
  split_ifs
  · rw [books_note_ready _ _ id, books_dequeue, hstart]
  · exact hstart

@[simp] theorem books_signal : (k.signal sem).1.books = k.books := by
  unfold signal
  split_ifs <;> simp

@[simp] theorem books_signalnLoop (n : ℕ) :
    (k.signalnLoop sem n).books = k.books := by
  induction n generalizing k with
  | zero => rfl
  | succ n ih =>
      unfold signalnLoop
      rw [ih, books_signalOnce]

@[simp] theorem books_signaln : (k.signaln sem count).1.books = k.books := by
  unfold signaln
  split_ifs <;> simp

@[simp] theorem books_newsemLoop (i : ℕ) :
    (k.newsemLoop i).1.books = k.books := by
  induction i generalizing k with
  | zero => rfl
  | succ i ih =>
      unfold newsemLoop
      dsimp only
      split_ifs
      · rfl
      · exact ih _
      · rfl
      · exact ih _

@[simp] theorem books_semcreate : (k.semcreate count).1.books = k.books := by
  unfold semcreate newsem
  dsimp only
  split_ifs
  · rfl
  · exact books_newsemLoop _ _
  · rw [books_note _ id, books_setScount, books_newsemLoop]

@[simp] theorem books_semdeleteLoop (fuel : ℕ) :
    (k.semdeleteLoop sem fuel).books = k.books := by
  induction fuel generalizing k with
  | zero => rfl
  | succ fuel ih =>
      unfold semdeleteLoop
      dsimp only
      split_ifs
      · rw [ih, books_note_ready _ _ id, books_getfirst, books_setScount]
      · rfl

@[simp] theorem books_semdelete : (k.semdelete sem).1.books = k.books := by
  unfold semdelete
  split_ifs <;> simp

@[simp] theorem books_semresetLoop (fuel : ℕ) :
    (k.semresetLoop sem fuel).books = k.books := by
  induction fuel generalizing k with
  | zero => rfl
  | succ fuel ih =>
      unfold semresetLoop
      dsimp only
      split_ifs
      · rw [ih, books_note_ready _ _ id, books_getfirst]
      · exact books_getfirst _ _

@[simp] theorem books_semreset : (k.semreset sem count).1.books = k.books := by
  unfold semreset
  dsimp only
  split_ifs
  · rfl
  · rw [books_reschedCntl, books_note _ id, books_setScount, books_semresetLoop,
      books_reschedCntl]

@[simp] theorem books_kill : (k.kill p).1.books = k.books := by
  have hstart : ({ k with prcount := k.prcount - 1 }.pushFrame k.currpid
      (.kill p (k.proctab p).serial 0)).books = k.books := books_pushFrame _ _ _
  unfold kill
  dsimp only
  split_ifs
  · rfl
  · exact hstart
  · exact (books_send _ _ _).trans hstart

@[simp] theorem books_killClose (serial i : ℕ) :
    (k.killClose p serial i).books = k.books := by
  unfold killClose
  dsimp only
  split_ifs <;> simp

end Kernel

/-! ## One step of the kernel -/

/-- Nothing but `create` and `kill` asks for memory. -/
def StacksOnly : Action → Prop
  | .call (.getmem _) | .call (.freemem _ _) => False
  | _ => True

section Steps

variable {k k' : Kernel Queuetab} {action : Action} {c : Call} {p v : ℤ}

theorem books_perform
    (honly : StacksOnly (.call c)) (hperform : k.perform c = some k') :
    k'.books = k.books ∨
      ∃ funcaddr ssize priority args pid,
        c = .create funcaddr ssize priority args ∧
          k.create funcaddr ssize priority args = some (k', pid) := by
  cases c with
  | create funcaddr ssize priority args =>
      obtain ⟨⟨k₁, pid⟩, hcreate, rfl⟩ := Option.map_eq_some_iff.mp hperform
      exact .inr ⟨_, _, _, _, pid, rfl, hcreate⟩
  | getmem nbytes => exact honly.elim
  | freemem blkaddr nbytes => exact honly.elim
  | setdesc pid i descrp =>
      unfold perform at hperform
      dsimp only at hperform
      split_ifs at hperform
      rw [← Option.some.inj hperform, books_setProc]
      · exact .inl rfl
      · exact fun _ => ⟨rfl, rfl⟩
  | _ =>
      rw [← Option.some.inj hperform]
      exact .inl (by simp)

/-- A step of the kernel is a call of `create`, the end of a kill, or leaves
the stacks alone. -/
theorem books_step
    (honly : StacksOnly action) (hstep : step k action = some k') :
    k'.books = k.books ∨
      (∃ funcaddr ssize priority args pid,
        action = .call (.create funcaddr ssize priority args) ∧
          k.create funcaddr ssize priority args = some (k', pid)) ∨
      ∃ v s i rest, k.context = .kill v s i :: rest ∧
        k.killFinish v = some k' := by
  unfold step at hstep
  split_ifs at hstep
  split at hstep
  · split_ifs at hstep
    rcases books_perform honly hstep with
      hsame | ⟨_, _, _, _, pid, rfl, hcreate⟩
    · exact .inl hsame
    · exact .inr (.inl ⟨_, _, _, _, pid, rfl, hcreate⟩)
  · split_ifs at hstep
    rcases books_perform honly hstep with
      hsame | ⟨_, _, _, _, pid, rfl, hcreate⟩
    · exact .inl hsame
    · exact .inr (.inl ⟨_, _, _, _, pid, rfl, hcreate⟩)
  · rename_i frame rest hctx
    cases frame with
    | clkPreempt =>
        rw [← Option.some.inj hstep]
        exact .inl (by simp)
    | receiveRet =>
        rw [← Option.some.inj hstep]
        exact .inl (by simp)
    | recvtimeRet =>
        rw [← Option.some.inj hstep]
        exact .inl (by simp)
    | kill v s i =>
        unfold proceed at hstep
        dsimp only at hstep
        split_ifs at hstep
        · rw [← Option.some.inj hstep]
          exact .inl (by simp)
        · exact .inr (.inr ⟨v, s, i, rest, hctx, hstep⟩)
    | inClose => cases hstep
  · rw [← Option.some.inj hstep]
    exact .inl (by simp)
  · rw [← Option.some.inj hstep]
    exact .inl (by simp)
  · cases hstep

/-- The end of a kill releases the stack of the victim. -/
theorem books_killFinish (hkill : k.killFinish v = some k') :
    ∃ heap status n,
      freestk (k.proctab v).prstkbase (k.proctab v).prstklen k.heap =
        some (heap, status) ∧
      k'.books = ⟨heap, k.books.prstk, .stackFreed v n :: k.books.lives⟩ := by
  obtain ⟨⟨heap, status⟩, hfree, hk⟩ := Option.map_eq_some_iff.mp hkill
  have hpop := books_popFrame k k.currpid
  generalize k.popFrame k.currpid = k₁ at hfree hk hpop
  have hheap : k₁.heap = k.heap := congrArg Books.heap hpop
  obtain ⟨hbase, hlen⟩ : (k₁.proctab v).prstkbase = (k.proctab v).prstkbase ∧
      (k₁.proctab v).prstklen = (k.proctab v).prstklen :=
    Prod.mk.inj (congrFun (congrArg Books.prstk hpop) v)
  rw [hheap, hbase, hlen] at hfree
  refine ⟨heap, status, (k₁.proctab v).serial, hfree, ?_⟩
  rw [← hpop]
  have hnote : ({ k₁ with heap := heap }.note
      (.stackFreed v (k₁.proctab v).serial)).books =
        ⟨heap, k₁.books.prstk, .stackFreed v (k₁.proctab v).serial ::
          k₁.books.lives⟩ := books_note_vital _ trivial
  rw [← hnote, ← hk]
  dsimp only
  split
  · simp
  · simp
  · simp
  · rw [books_setFree, books_note _ id, books_getitem, books_setScount]
  · simp
  · simp

end Steps

/-! ## Who is alive -/

/-- Whether `p` is in use, by the log. -/
def aliveAt (p : ℤ) : List Event → Bool
  | [] => p = NULLPROC
  | .created q _ :: log => q = p || aliveAt p log
  | .stackFreed q _ :: log => q ≠ p && aliveAt p log
  | _ :: log => aliveAt p log

theorem aliveAt_cons_quiet
    {ev : Event} (hev : ¬ Vital ev) (p : ℤ) (log : List Event) :
    aliveAt p (ev :: log) = aliveAt p log := by
  cases ev <;> first | rfl | exact absurd trivial hev

theorem aliveAt_append_quiet
    {w : List Event} (hquiet : ∀ ev ∈ w, ¬ Vital ev) (p : ℤ)
    (log : List Event) : aliveAt p (w ++ log) = aliveAt p log := by
  induction w with
  | nil => rfl
  | cons ev w ih =>
      rw [List.cons_append, aliveAt_cons_quiet (hquiet ev (by simp)),
        ih fun ev hev => hquiet ev (by simp [hev])]

theorem aliveAt_filter (p : ℤ) (log : List Event) :
    aliveAt p (log.filter fun ev => Vital ev) = aliveAt p log := by
  induction log with
  | nil => rfl
  | cons ev log ih =>
      by_cases hev : Vital ev
      · rw [List.filter_cons_of_pos (by simpa using hev)]
        cases ev <;> first | exact hev.elim | skip
        · rw [aliveAt, aliveAt, ih]
        · rw [aliveAt, aliveAt, ih]
      · rw [List.filter_cons_of_neg (by simpa using hev), ih,
          aliveAt_cons_quiet hev]

/-- The log tells which entries are in use. -/
def LivesLogged {Q : Type} (b : Kernel Q) : Prop :=
  ∀ p, b.state p ≠ .free ↔ aliveAt p b.log = true

section Lives

variable {action : Action} {a b c : Kernel QueueLists}

theorem Move.livesLogged
    (hmove : Move action a b c) (hq : Queued b) (h : LivesLogged b) :
    LivesLogged c := by
  cases hmove.lifeStep hq with
  | steady hsteady =>
      obtain ⟨w, hlog, hquiet⟩ := hsteady.log
      intro p
      rw [hlog, aliveAt_append_quiet hquiet, ← h p]
      exact not_congr (hsteady.entries p).free
  | @create q e hid hfree hstate hctx hserial hc =>
      subst hc
      intro p
      show _ ↔ (decide (q = p) || aliveAt p b.log) = true
      rw [Bool.or_eq_true, decide_eq_true_eq, ← h p]
      by_cases hp : p = q
      · subst hp
        simp [state_setProc_self, hstate]
      · rw [state_note, state_setProc_of_ne _ _ _ _ hp]
        simp [Ne.symm hp, state]
  | @kill v haction hlive hb hc =>
      subst hc
      intro p
      rw [state_pushFrame]
      rw [hb] at h
      exact h p
  | @finish v s i rest haction hctx hlast hb hc =>
      obtain ⟨w, hlog, hquiet⟩ := bury_log v ((a.popFrame a.currpid).note
        (.stackFreed v (a.proctab v).serial))
      rw [hb] at h
      subst hc
      intro p
      rw [hlog, aliveAt_append_quiet hquiet]
      show _ ↔ (decide (v ≠ p) && aliveAt p a.log) = true
      rw [Bool.and_eq_true, decide_eq_true_eq, ← h p, state, bury_proctab]
      by_cases hp : p = v
      · subst hp
        simp
      · rw [Function.update_of_ne hp]
        have hsame := state_popFrame a a.currpid p
        rw [state] at hsame
        show ((a.popFrame a.currpid).proctab p).prstate ≠ .free ↔ _
        rw [hsame]
        simp [Ne.symm hp]

theorem boot_livesLogged (heap : Heap) (stk : Word) :
    LivesLogged (bootKernel emptyLists heap stk) := by
  intro p
  rw [boot_state]
  show _ ↔ decide (p = NULLPROC) = true
  split_ifs with hp <;> simp [hp]

end Lives

/-! ## The kernel as a system of stacks -/

/-- The kernel, seen from the stacks. -/
def Kernel.stackState {Q : Type} (k : Kernel Q) : Stacks where
  heap := k.heap
  proctab := fun p =>
    ⟨k.state p = .free, (k.proctab p).prstkbase, (k.proctab p).prstklen⟩

/-- A stack that `create` takes has its place above the header of the first
block. -/
def RoomAbove (k : Kernel Queuetab) : Action → Prop
  | .call (.create _ ssize priority args) =>
      1 ≤ priority → (∃ p ∈ List.range NPROC.toNat, k.state p = .free) →
        k.heap.RoomAbove (stackSize ssize) args.length
  | _ => True

instance (k : Kernel Queuetab) (action : Action) :
    Decidable (RoomAbove k action) := by
  unfold RoomAbove
  split <;> infer_instance

section Simulation

variable {k k' : Kernel Queuetab} {heap : Heap} {v : ℤ} {n : ℕ}

theorem stackState_of_books
    (hk : LivesLogged k) (hk' : LivesLogged k') (hbooks : k'.books = k.books) :
    k'.stackState = k.stackState := by
  have hheap : k'.heap = k.heap := congrArg Books.heap hbooks
  have hlives : k'.books.lives = k.books.lives := congrArg Books.lives hbooks
  unfold stackState
  rw [hheap]
  congr 1
  funext p
  obtain ⟨hbase, hlen⟩ : (k'.proctab p).prstkbase = (k.proctab p).prstkbase ∧
      (k'.proctab p).prstklen = (k.proctab p).prstklen :=
    Prod.mk.inj (congrFun (congrArg Books.prstk hbooks) p)
  have hfree : k'.state p ≠ .free ↔ k.state p ≠ .free := by
    rw [hk' p, hk p, ← aliveAt_filter p k'.log, ← aliveAt_filter p k.log]
    exact iff_of_eq (congrArg (aliveAt p · = true) hlives)
  rw [hbase, hlen, decide_eq_decide.mpr (not_iff_not.mp hfree)]

theorem stackState_release
    (hk : LivesLogged k) (hk' : LivesLogged k')
    (hbooks : k'.books =
      ⟨heap, k.books.prstk, .stackFreed v n :: k.books.lives⟩) :
    k'.stackState = ⟨heap, Function.update k.stackState.proctab v
      { k.stackState.proctab v with free := true }⟩ := by
  have hheap : k'.heap = heap := congrArg Books.heap hbooks
  have hlives : k'.books.lives = .stackFreed v n :: k.books.lives :=
    congrArg Books.lives hbooks
  unfold stackState
  rw [hheap]
  congr 1
  funext p
  obtain ⟨hbase, hlen⟩ : (k'.proctab p).prstkbase = (k.proctab p).prstkbase ∧
      (k'.proctab p).prstklen = (k.proctab p).prstklen :=
    Prod.mk.inj (congrFun (congrArg Books.prstk hbooks) p)
  have hlive : k'.state p ≠ .free ↔ v ≠ p ∧ k.state p ≠ .free := by
    rw [hk' p, hk p, ← aliveAt_filter p k'.log, ← aliveAt_filter p k.log,
      show k'.log.filter (fun ev => Vital ev) = _ from hlives, aliveAt,
      Bool.and_eq_true, decide_eq_true_eq]
    rfl
  rw [hbase, hlen]
  by_cases hp : p = v
  · subst hp
    rw [Function.update_self, decide_eq_true (by simpa using hlive)]
  · rw [Function.update_of_ne hp]
    congr 1
    rw [decide_eq_decide]
    rw [← not_iff_not]
    simpa [Ne.symm hp] using hlive

theorem newpidLoop_same (i : ℕ) (k : Kernel Queuetab) :
    (k.newpidLoop i).1 = { k with nextpid := (k.newpidLoop i).1.nextpid } ∧
      ((k.newpidLoop i).2 ≠ SYSERR.toInt →
        k.state (k.newpidLoop i).2 = .free ∧ ProcId (k.newpidLoop i).2) := by
  induction i generalizing k with
  | zero => exact ⟨rfl, fun hne => absurd rfl hne⟩
  | succ i ih =>
      rw [newpidLoop]
      dsimp only
      split_ifs with hfree
      · refine ⟨rfl, fun _ => ⟨hfree, ?_, ?_⟩⟩
        · exact Int.emod_nonneg _ (by decide)
        · exact Int.emod_lt_of_pos _ (by decide)
      · obtain ⟨hsame, hfound⟩ := ih { k with nextpid := k.nextpid % NPROC + 1 }
        exact ⟨hsame, hfound⟩

theorem stackState_update
    {b c : Kernel Queuetab} {p : ℤ} {e : Procent} {entry : StackEntry}
    (hheap : c.heap = heap) (hproc : c.proctab = Function.update b.proctab p e)
    (hentry : entry = ⟨e.prstate = .free, e.prstkbase, e.prstklen⟩) :
    c.stackState = ⟨heap, Function.update b.stackState.proctab p entry⟩ := by
  unfold stackState
  rw [hheap, hentry]
  congr 1
  funext x
  rw [state, hproc]
  by_cases hx : x = p
  · rw [hx, Function.update_self, Function.update_self]
  · rw [Function.update_of_ne hx, Function.update_of_ne hx]
    rfl

/-- `create` gives a free entry a stack, or leaves the stacks alone. -/
theorem stackState_create
    {funcaddr ssize : Word} {priority : Int16} {args : List Word} {r : ℤ}
    (hcreate : k.create funcaddr ssize priority args = some (k', r)) :
    k'.stackState = k.stackState ∨
      1 ≤ priority ∧ ∃ i ∈ List.range NPROC.toNat, k.state i = .free ∧
        k.stackState.step (.create i funcaddr ssize args) =
          some k'.stackState := by
  have hsize : roundmb (if ssize < MINSTK then MINSTK else ssize) =
      stackSize ssize := rfl
  unfold create at hcreate
  simp only [hsize] at hcreate
  split_ifs at hcreate with hprio hnone
  · cases hcreate
    exact .inl rfl
  · cases hcreate
    rw [newpid, (newpidLoop_same NPROC.toNat k).1]
    exact .inl rfl
  · obtain ⟨hsame, hfound⟩ := newpidLoop_same NPROC.toNat k
    obtain ⟨hfree, hid⟩ := hfound hnone
    rw [show k.newpidLoop NPROC.toNat = k.newpid from rfl] at hsame hfree hid
    generalize k.newpid = found at hcreate hsame hfree hid
    obtain ⟨k₁, pid⟩ := found
    dsimp only at hcreate hsame hfree hid
    obtain ⟨i, rfl⟩ := Int.eq_ofNat_of_zero_le hid.1
    have hi : i < NPROC.toNat := by
      have hlt := hid.2
      omega
    refine .inr ⟨Int16.not_lt.mp hprio, i, List.mem_range.mpr hi, hfree, ?_⟩
    obtain ⟨⟨heap, saddr⟩, hget, hk⟩ := Option.map_eq_some_iff.mp hcreate
    rw [hsame] at hget
    rw [Stacks.step, if_pos ⟨hid.1, hid.2, decide_eq_true hfree⟩, Stacks.create,
      show getstk (stackSize ssize) k.stackState.heap = _ from hget,
      Option.map_some]
    dsimp only at hk ⊢
    split_ifs at hk with hsys
    · cases hk
      rw [if_pos hsys, hsame]
      rfl
    · cases hk
      rw [if_neg hsys, hsame, Option.some.injEq]
      exact Eq.symm (stackState_update rfl rfl rfl)

end Simulation

/-! ## From boot on -/

section Runs

variable {mem : Memory} {memlistAddr imageEnd : Word}
variable {k₀ k : Kernel Queuetab}

/-- The second block alone is a list in order. -/
theorem StraddlingBlocks.behind
    {h : Heap} (hblocks : StraddlingBlocks h imageEnd)
    (hminheap : h.minheap = imageEnd) (hmaxheap : h.maxheap = 0x1FFFFFF) :
    ∃ v, WellFormed v [⟨0x100000, 0x1EFDFF8⟩] ∧
      (v.minheap = HOLEEND ∧ v.maxheap = 0x1FFFFFF) ∧
      ∃ ml, h = v.front (roundmb imageEnd) ml imageEnd := by
  have hbound : ∀ e ∈ [(⟨0x100000, 0x1EFDFF8⟩ : Extent)],
      e.Granular 8 ∧ e.Within HOLEEND.toNat (h.maxheap.toNat + 1) := by
    intro e he
    rw [List.mem_singleton.mp he, hmaxheap]
    exact ⟨⟨by decide, by decide, by decide⟩, by decide, by decide⟩
  refine ⟨{ h with memlist := ⟨HOLEEND, 0x1EFDFF8⟩, minheap := HOLEEND },
    ⟨?_, List.pairwise_singleton _ _, fun e he => (hbound e he).1,
      fun e he => (hbound e he).2, ?_, ?_⟩, ⟨rfl, hmaxheap⟩,
    h.memlist.mlength, ?_⟩
  · exact chain_cons.mpr ⟨rfl, hblocks.last_length, trivial, hblocks.last⟩
  · show 0 < HOLEEND.toNat
    decide
  · show (0x1EFDFF8 : Word).toNat = _
    decide
  · obtain ⟨mem', ⟨mnext, mlength⟩, addr, low, high⟩ := h
    have hhead : mnext = roundmb imageEnd := hblocks.head
    have hlow : low = imageEnd := hminheap
    subst hhead hlow
    rfl

/-- What `meminit` and the null process leave: one block above the image, and
one from the end of the memory hole to the null process's stack. -/
theorem boot_front
    (hlink : LinkedBelow (bootHeap mem memlistAddr imageEnd) imageEnd)
    (hboot : sysinit mem memlistAddr imageEnd = some k₀) :
    ∃ high bytes v, FrontInv 0x100000 high bytes (roundmb imageEnd) imageEnd
      (truncmb (HOLESTART - imageEnd - 4)) k₀.heap [] v
      [⟨0x100000, 0x1EFBFF8⟩] := by
  obtain ⟨himage, hmax⟩ := linkedBelow_bootHeap hlink
  have hround := roundmb_toNat (x := imageEnd) (by omega)
  have hblocks : StraddlingBlocks (bootHeap mem memlistAddr imageEnd) imageEnd :=
    bootHeap_blocks himage hmax
  have hminheap : (bootHeap mem memlistAddr imageEnd).minheap = imageEnd :=
    bootHeap_minheap
  have hmaxheap : (bootHeap mem memlistAddr imageEnd).maxheap = 0x1FFFFFF :=
    bootHeap_maxheap
  unfold sysinit at hboot
  obtain ⟨⟨heap, stk⟩, hget, rfl⟩ := Option.map_eq_some_iff.mp hboot
  generalize bootHeap mem memlistAddr imageEnd = h
    at hblocks hminheap hmaxheap hget
  obtain ⟨v, hwf, ⟨hlow, hhigh⟩, ml, rfl⟩ := hblocks.behind hminheap hmaxheap
  have hnext : v.mnext (some (roundmb imageEnd)) = HOLEEND := hblocks.next
  have hfirst : BlockRef.Node (some (roundmb imageEnd)) := by
    show (roundmb imageEnd).toNat % 8 = 0
    omega
  have hnull : roundmb imageEnd ≠ NULL := by
    intro heq
    rw [heq, show NULL.toNat = 0 from rfl] at hround
    omega
  have hcarve : carveLast (roundmb NULLSTK).toNat [⟨0x100000, 0x1EFDFF8⟩] =
      some (⟨0x1FFBFF8, 8192⟩, [⟨0x100000, 0x1EFBFF8⟩]) := by decide
  have hother : ∀ e ∈ [(⟨0x100000, 0x1EFDFF8⟩ : Extent)],
      blockAddr e ≠ roundmb imageEnd := by
    rintro e he heq
    rw [List.mem_singleton.mp he] at heq
    rw [← heq, show (blockAddr ⟨0x100000, 0x1EFDFF8⟩).toNat = 0x100000 by
      decide] at hround
    omega
  have hpart : ∀ e, [(⟨0x100000, 0x1EFDFF8⟩ : Extent)].head? = some e →
      (⟨0x1FFBFF8, 8192⟩ : Extent).base ≠ e.base := by
    rintro e ⟨⟩
    decide
  obtain ⟨v', ml', -, hwf', hmin, hmax', hfront, hsame⟩ := getstk_front
    ml imageEnd hwf (show 0 < NULLSTK.toNat by decide) (by decide)
    hcarve hfirst hnull (hnext.trans (chain_cons.mp hwf.chain).1.symm) hother
    hpart
  rw [hget, Option.some.injEq, Prod.mk.injEq] at hfront
  rw [hlow] at hmin
  have hinv := HeapInv.initial hwf' (by decide)
  rw [hmin, show HOLEEND.toNat = 0x100000 by decide] at hinv
  refine ⟨_, _, v', ⟨ml', hfront.1⟩, hinv, ?_, ?_,
    ⟨_, List.mem_singleton_self _, rfl⟩, ?_, nofun, ?_, ?_, ?_⟩
  · rw [hsame.mnext, hnext]
    rfl
  · rw [hsame.mlength]
    exact hblocks.length
  · intro e he
    rw [List.mem_singleton.mp he]
    exact Or.inl rfl
  · exact hfirst
  · omega
  · omega

theorem boot_inv
    (hlink : LinkedBelow (bootHeap mem memlistAddr imageEnd) imageEnd)
    (hboot : sysinit mem memlistAddr imageEnd = some k₀) :
    ∃ high bytes v, StackInv 0x100000 high bytes (roundmb imageEnd) imageEnd
      (truncmb (HOLESTART - imageEnd - 4)) [⟨0x100000, 0x1EFBFF8⟩]
      k₀.stackState [] v [⟨0x100000, 0x1EFBFF8⟩] := by
  obtain ⟨high, bytes, v, hfront⟩ := boot_front hlink hboot
  unfold sysinit at hboot
  obtain ⟨⟨heap, stk⟩, -, rfl⟩ := Option.map_eq_some_iff.mp hboot
  refine ⟨high, bytes, v, hfront, ?_, List.nodup_nil, ?_, nofun, nofun, ?_⟩
  · intro x
    rw [List.map_nil, covers_nil, Nat.zero_add]
  · intro p
    simp only [List.not_mem_nil, false_iff]
    rintro ⟨hp, hfree⟩
    simp [Kernel.stackState, bootKernel, Kernel.state, hp, freeEntry] at hfree
  · simp [Kernel.stackState, bootKernel, Kernel.state, nullEntry]

theorem stackLaw_of_reach
    {s : Stacks}
    (hlink : LinkedBelow (bootHeap mem memlistAddr imageEnd) imageEnd)
    (hboot : sysinit mem memlistAddr imageEnd = some k₀)
    (hreach : Reach Stacks.step Stacks.RoomAbove k₀.stackState s) :
    StackLaw k₀.stackState s := by
  obtain ⟨high, bytes, v, hstart⟩ := boot_inv hlink hboot
  obtain ⟨procs, v', l, hinv⟩ := hreach.invariant
    (fun s => ∃ procs v' l, StackInv 0x100000 high bytes (roundmb imageEnd)
      imageEnd (truncmb (HOLESTART - imageEnd - 4)) [⟨0x100000, 0x1EFBFF8⟩] s
      procs v' l)
    ⟨_, _, _, hstart⟩
    fun _ _ _ ⟨_, _, _, h⟩ hroom hstep => h.step hroom hstep
  exact hinv.law hstart.front.cover

/-- What runs with kills apart keep, whatever else they do. -/
theorem run_facts
    {allowed : Kernel Queuetab → Action → Prop}
    (hboot : sysinit mem memlistAddr imageEnd = some k₀)
    (hapart : ∀ k action, allowed k action → KillsApart k action)
    (hreach : Reach step allowed k₀ k) :
    ∃ a t, k = a.withTable t ∧ Settled a ∧ KillInv a ∧ LivesLogged k := by
  obtain ⟨a, t, rfl, -, ha, hkill, hlives⟩ := run_invariant_of_moves hboot
    hreach (fun b => KillInv b ∧ LivesLogged b)
    (fun heap stk => ⟨boot_killInv heap stk, boot_livesLogged heap stk⟩)
    fun ha _ hallowed hq hinv hmove =>
      ⟨hmove.killInv ha (hapart _ _ hallowed) hq hinv.1,
        hmove.livesLogged hq hinv.2⟩
  exact ⟨a, t, rfl, ha, hkill, hlives⟩

/-- Runs in which only processes ask for memory, no victim is killed again or
killing, and every stack has its place above the header of the first block. -/
def StackRun (k : Kernel Queuetab) (action : Action) : Prop :=
  StacksOnly action ∧ KillsApart k action ∧ RoomAbove k action

/-- A run of the kernel is a run of its stacks. -/
theorem reach_stackState
    (hboot : sysinit mem memlistAddr imageEnd = some k₀)
    (hreach : Reach step StackRun k₀ k) :
    Reach Stacks.step Stacks.RoomAbove k₀.stackState k.stackState := by
  have hapart : ∀ k action, StackRun k action → KillsApart k action :=
    fun _ _ h => h.2.1
  refine hreach.lift stackState fun k action k' hreach hallowed hstep => ?_
  obtain ⟨a, t, rfl, ha, hkill, hlives⟩ := run_facts hboot hapart hreach
  obtain ⟨_, _, _, _, _, hlives'⟩ := run_facts hboot hapart
    (hreach.next action hallowed hstep)
  rcases books_step hallowed.1 hstep with
    hsame | ⟨funcaddr, ssize, priority, args, _, rfl, hcreate⟩ |
      ⟨v, serial, i, rest, hctx, hfinish⟩
  · exact .inl (stackState_of_books hlives hlives' hsame)
  · rcases stackState_create hcreate with hsame | ⟨hprio, i, hi, hfree, hnext⟩
    · exact .inl hsame
    · exact .inr ⟨.create i funcaddr ssize args,
        hallowed.2.2 hprio ⟨i, hi, hfree⟩, hnext⟩
  · have hmem : .kill v serial i ∈ (a.proctab a.currpid).prctx := by
      rw [show (a.proctab a.currpid).prctx = _ from hctx]
      simp
    have hcreated : (a.withTable t).stackState.Created v :=
      ⟨(ha.queued.victims hmem).2,
        decide_eq_false (hkill.target (mem_kills.mpr ⟨i, hmem⟩)).1⟩
    obtain ⟨heap, status, n, hfree, hbooks⟩ := books_killFinish hfinish
    refine .inr ⟨.release v, trivial, ?_⟩
    rw [Stacks.step, if_pos hcreated, Stacks.release,
      stackState_release hlives hlives' hbooks]
    exact Option.map_eq_some_iff.mpr ⟨_, hfree, rfl⟩

/-- Every stack comes back in every run whose stacks have their place above the
header of the first block. -/
theorem stacks_returned
    (hlink : LinkedBelow (bootHeap mem memlistAddr imageEnd) imageEnd)
    (hboot : sysinit mem memlistAddr imageEnd = some k₀)
    (hreach : Reach step StackRun k₀ k) :
    StackLaw k₀.stackState k.stackState :=
  stackLaw_of_reach hlink hboot (reach_stackState hboot hreach)

end Runs

/-- A run in which two processes get their stacks. -/
theorem stacks_returned_linkedBoot :
    ∃ k₀ k, sysinit (fun _ => 0) 0x121C30 0x143000 = some k₀ ∧
      Reach step StackRun k₀ k ∧ (k.prcount, k.state 1, k.state 2) =
        (3, .susp, .susp) ∧ StackLaw k₀.stackState k.stackState := by
  let actions : List Action :=
    [.call (.create 0 1000 20 []), .call (.create 0 0x4000 10 [7, 8])]
  have hview : (linkedBoot.bind fun k =>
      run (fun k action =>
        if RoomAbove k action ∧ action ∈ actions then step k action else none)
          k actions).map (fun k => (k.prcount, k.state 1, k.state 2)) =
        some (3, .susp, .susp) := by
    decide
  obtain ⟨k, hrun, hk⟩ := Option.map_eq_some_iff.mp hview
  obtain ⟨k₀, hboot, hrun⟩ := Option.bind_eq_some_iff.mp hrun
  have hreach : Reach step StackRun k₀ k := by
    refine (Reach.run_checked actions .start hrun).mono ?_
    rintro k action ⟨hroom, hmem⟩
    simp only [actions, List.mem_cons, List.not_mem_nil, or_false] at hmem
    rcases hmem with rfl | rfl
    · exact ⟨trivial, trivial, hroom⟩
    · exact ⟨trivial, trivial, hroom⟩
  exact ⟨k₀, k, hboot, hreach, hk,
    stacks_returned linkedBelow_linkMap hboot hreach⟩

/-- A stack of 31 MB begins below the end of the image. -/
theorem large_stack_not_returned :
    ¬ ∀ {mem memlistAddr imageEnd k₀ k},
      LinkedBelow (bootHeap mem memlistAddr imageEnd) imageEnd →
        sysinit mem memlistAddr imageEnd = some k₀ →
          Reach step (fun k action => StacksOnly action ∧ KillsApart k action)
            k₀ k → StackLaw k₀.stackState k.stackState := by
  intro hlaw
  obtain ⟨k₀, k, hboot, hreach, hview⟩ := linkedBoot_run
    (fun k action => StacksOnly action ∧ KillsApart k action)
    (fun k => (k.state 1,
      (freestk (k.proctab 1).prstkbase (k.proctab 1).prstklen k.heap).map
        Prod.snd))
    [.call (.create 0 0x1EC0000 20 [])]
    (v := (.susp, some SYSERR)) (by decide)
    (allowed_of_forall fun k action hmem => by
      rw [List.mem_singleton] at hmem
      rw [hmem]
      exact ⟨trivial, trivial⟩)
  obtain ⟨hstate, hfree⟩ := Prod.mk.inj hview
  have hcreated : k.stackState.Created 1 := by
    refine ⟨by decide, decide_eq_false ?_⟩
    rw [hstate]
    decide
  obtain ⟨h', hok, -⟩ := (hlaw linkedBelow_linkMap hboot hreach).returned 1
    hcreated
  rw [show freestk (k.proctab 1).prstkbase (k.proctab 1).prstklen k.heap =
    some (h', OK) from hok, Option.map_some, Option.some.injEq] at hfree
  exact absurd hfree (by decide : ¬ OK = SYSERR)

end Xinu
