import Xinu.MailboxRefinement
import Xinu.ProcessLifetimes

/-!
# What a step does

A step of the machine changes the entries of many processes: it moves them
between the queues and it makes them ready.  A few of its changes matter to
others: it takes a message, it begins or ends a kill, it changes a semaphore or
the heap.  Each primitive is a chain of small updates, and `touches` says of
every step which updates of the second kind it may contain.
-/

namespace Xinu

open ByteMemory TransitionSystem Kernel

/-! ## Updates -/

/-- A `kill` of `v` is on the context of `y`. -/
def Kernel.Killing {Q : Type} (v y : ℤ) (k : Kernel Q) : Prop :=
  v ∈ (k.proctab y).kills.map Prod.fst

theorem killing_iff {Q : Type} {k : Kernel Q} {v y : ℤ} :
    k.Killing v y ↔ ∃ s i, .kill v s i ∈ (k.proctab y).prctx := by
  unfold Killing
  rw [List.mem_map]
  constructor
  · rintro ⟨⟨w, s⟩, hmem, rfl⟩
    exact ⟨s, mem_kills.mp hmem⟩
  · rintro ⟨s, i, hmem⟩
    exact ⟨(v, s), mem_kills.mpr ⟨i, hmem⟩, rfl⟩

/-- A change that others notice. -/
inductive Touch where
  | sem (s : ℤ)
  | waits (p s : ℤ)
  | takes (p : ℤ)
  | begins (v : ℤ)
  | frees (v : ℤ)
  | creates
  | heap

/-- A change of an entry that leaves its process alive, with its message, its
context and the semaphore it waits on. -/
structure EntryKept (e e' : Procent) : Prop where
  live : e.prstate ≠ .free → e'.prstate ≠ .free
  wait : e'.prstate = .wait → e.prstate = .wait
  sem : e'.prsem = e.prsem
  parent : e'.prparent = e.prparent
  serial : e'.serial = e.serial
  slot : e'.slot = e.slot
  ctx : e'.prctx = e.prctx

/-- One update, which changes nothing that is not in `T`. -/
inductive Effect (T : Touch → Prop) (k : Kernel Queuetab) :
    Kernel Queuetab → Prop
  | adjust {k'} (hproc : k'.proctab = k.proctab) (hsem : k'.semtab = k.semtab)
      (hheap : k'.heap = k.heap) : Effect T k k'
  | heap (hT : T .heap) (heap : Heap) : Effect T k { k with heap := heap }
  | sem {s f} (hT : T (.sem s)) : Effect T k (k.setSem s f)
  | entry {p e} (hkept : EntryKept (k.proctab p) e) :
      Effect T k (k.setProc p fun _ => e)
  | wait {p s} (hT : T (.waits p s)) :
      Effect T k (k.setProc p fun e => { e with prstate := .wait, prsem := s })
  | deposit {p msg} (hempty : (k.proctab p).slot = none) :
      Effect T k
        (k.setProc p fun e => { e with prmsg := msg, prhasmsg := true })
  | fetch {p} (hT : T (.takes p)) :
      Effect T k (k.setProc p fun e => { e with prhasmsg := false })
  | context {p l} (hkills : ∀ v s i, .kill v s i ∈ l →
      T (.begins v) ∨ k.Killing v p) :
      Effect T k (k.setProc p fun e => { e with prctx := l })
  | free {v} (hT : T (.frees v)) : Effect T k (k.setFree v)
  | create {p e} (hT : T .creates) (hfree : k.state p = .free)
      (hstate : e.prstate = .susp) (hctx : e.prctx = []) :
      Effect T k (k.setProc p fun _ => e)

/-- A chain of updates. -/
abbrev Does (T : Touch → Prop) : Kernel Queuetab → Kernel Queuetab → Prop :=
  Relation.ReflTransGen (Effect T)

namespace Does

variable {T : Touch → Prop} {k k' k'' : Kernel Queuetab} {v p q sem : ℤ}

theorem trans (h : Does T k k') (h' : Does T k' k'') : Does T k k'' :=
  Relation.ReflTransGen.trans h h'

theorem refl (k : Kernel Queuetab) : Does T k k :=
  Relation.ReflTransGen.refl

/-- A change of variables other than the tables and the heap. -/
theorem same
    (hproc : k'.proctab = k.proctab) (hsem : k'.semtab = k.semtab)
    (hheap : k'.heap = k.heap) : Does T k k' :=
  .single (.adjust hproc hsem hheap)

theorem note {e : Event} : Does T k (k.note e) := same rfl rfl rfl

theorem setHeap (hT : T .heap) (heap : Heap) :
    Does T k { k with heap := heap } :=
  .single (.heap hT heap)

theorem setState {s : PrState} (hs : s ≠ .free) (hwait : s ≠ .wait) :
    Does T k (k.setState p s) :=
  .single (.entry (e := { k.proctab p with prstate := s })
    ⟨fun _ => hs, fun h => absurd h hwait, rfl, rfl, rfl, rfl, rfl⟩)

theorem pushFrame {f : Frame}
    (hframe : ∀ v s i, f = .kill v s i → T (.begins v) ∨ k.Killing v p) :
    Does T k (k.pushFrame p f) := by
  refine .single (.context (l := f :: (k.proctab p).prctx) ?_)
  intro v s i hmem
  rcases List.mem_cons.mp hmem with heq | hmem
  · exact hframe v s i heq.symm
  · exact Or.inr (killing_iff.mpr ⟨s, i, hmem⟩)

theorem popFrame : Does T k (k.popFrame p) :=
  .single (.context (l := (k.proctab p).prctx.tail) fun _ s i hmem =>
    Or.inr (killing_iff.mpr ⟨s, i, List.mem_of_mem_tail hmem⟩))

theorem setSem {f : Sentry → Sentry} (hT : T (.sem sem)) :
    Does T k (k.setSem sem f) :=
  .single (.sem hT)

theorem setScount {c : ℤ} (hT : T (.sem sem)) :
    Does T k (k.setScount sem c) :=
  setSem hT

/-! ## Queues and scheduling -/

theorem insert {key : ℤ} : Does T k (k.insert p q key).1 := by
  unfold Kernel.insert
  split_ifs
  · exact refl k
  · split <;> exact same rfl rfl rfl

theorem insertd {key : ℤ} : Does T k (k.insertd p q key).1 := by
  unfold Kernel.insertd
  split_ifs
  · exact refl k
  · split <;> exact same rfl rfl rfl

theorem enqueue : Does T k (k.enqueue p q).1 := by
  unfold Kernel.enqueue
  split_ifs
  · exact refl k
  · exact same rfl rfl rfl

theorem getfirst : Does T k (k.getfirst q).1 := by
  unfold Kernel.getfirst
  split_ifs
  · exact refl k
  · exact same rfl rfl rfl

theorem dequeue : Does T k (k.dequeue q).1 := by
  unfold Kernel.dequeue
  split_ifs
  · exact refl k
  · exact refl k
  · exact getfirst.trans (same rfl rfl rfl)

theorem switch : Does T k k.switch := by
  have hnext : Does T k { (k.dequeue k.readylist).1 with
      currpid := (k.dequeue k.readylist).2 } :=
    dequeue.trans (same rfl rfl rfl)
  exact (hnext.trans (setState (by simp) (by simp))).trans (same rfl rfl rfl)

theorem resched : Does T k k.resched := by
  unfold Kernel.resched
  split_ifs
  · exact same rfl rfl rfl
  · exact refl k
  · exact ((setState (by simp) (by simp)).trans insert).trans switch
  · exact switch

theorem reschedCntl {defer : ℤ} : Does T k (k.reschedCntl defer).1 := by
  unfold Kernel.reschedCntl
  dsimp only
  split_ifs
  · exact same rfl rfl rfl
  · exact same rfl rfl rfl
  · exact refl k
  · refine Does.trans ?_ resched
    exact same rfl rfl rfl
  · exact same rfl rfl rfl
  · exact refl k

theorem ready : Does T k (k.ready p).1 := by
  unfold Kernel.ready
  split_ifs
  · exact refl k
  · exact ((setState (by simp) (by simp)).trans insert).trans resched

theorem unsleep : Does T k (k.unsleep p).1 := by
  unfold Kernel.unsleep
  split_ifs
  · exact refl k
  · exact refl k
  · exact same rfl rfl rfl

theorem wakeupLoop (fuel : ℕ) (k : Kernel Queuetab) :
    Does T k (k.wakeupLoop fuel) := by
  induction fuel generalizing k with
  | zero => exact same rfl rfl rfl
  | succ fuel ih =>
      rw [Kernel.wakeupLoop]
      split_ifs
      · have hnote : Does T k ((k.dequeue k.sleepq).1.note
            (.expired (k.dequeue k.sleepq).2)) := dequeue.trans note
        exact (hnote.trans ready).trans (ih _)
      · exact refl k

theorem wakeup : Does T k k.wakeup :=
  (reschedCntl.trans (wakeupLoop _ _)).trans reschedCntl

theorem clkhandler : Does T k k.clkhandler := by
  have hcount : Does T k (k.note .ticked).countMs := same rfl rfl rfl
  have hpush := hcount.trans
    (pushFrame (p := k.currpid) (f := .clkPreempt)
      fun _ _ _ heq => by cases heq)
  unfold Kernel.clkhandler
  dsimp only
  split_ifs
  · exact hpush
  · refine Does.trans ?_ wakeup
    exact hpush.trans (same rfl rfl rfl)
  · exact hpush.trans (same rfl rfl rfl)

theorem clkPreempt : Does T k k.clkPreempt := by
  unfold Kernel.clkPreempt
  dsimp only
  split_ifs
  · refine Does.trans ?_ resched
    exact same rfl rfl rfl
  · exact same rfl rfl rfl

/-! ## Messages -/

/-- An empty mailbox takes a message. -/
theorem deposit {msg : Word} (hempty : ¬ (k.proctab p).prhasmsg = true) :
    Does T k (k.deposit p msg) := by
  have hslot : (k.proctab p).slot = none := by
    rw [Procent.slot, if_neg hempty]
  exact Does.trans (.single (.deposit hslot)) note

theorem fetch (hT : T (.takes p)) : Does T k (k.fetch p) :=
  Does.trans (.single (.fetch hT)) note

theorem fetchOrTimeout (hT : T (.takes p)) : Does T k (k.fetchOrTimeout p) := by
  unfold Kernel.fetchOrTimeout
  split_ifs
  · exact fetch hT
  · exact note

theorem send {msg : Word} : Does T k (k.send p msg).1 := by
  unfold Kernel.send
  dsimp only
  split_ifs with hbad hfull
  · exact refl k
  · exact refl k
  · exact (deposit hfull).trans ready
  · exact ((deposit hfull).trans unsleep).trans ready
  · exact deposit hfull

theorem receive
    (hT : (k.proctab k.currpid).prhasmsg = true → T (.takes k.currpid)) :
    Does T k k.receive := by
  unfold Kernel.receive
  dsimp only
  split_ifs with hempty
  · refine Does.trans ?_ resched
    exact (setState (by simp) (by simp)).trans
      (pushFrame fun _ _ _ heq => by cases heq)
  · exact fetch (hT (by simpa using hempty))

theorem recvclr (hT : T (.takes k.currpid)) : Does T k k.recvclr.1 := by
  unfold Kernel.recvclr
  split_ifs
  · exact fetch hT
  · exact refl k

theorem recvtime {maxwait : ℤ} (hT : T (.takes k.currpid)) :
    Does T k (k.recvtime maxwait) := by
  unfold Kernel.recvtime
  dsimp only
  split_ifs
  · exact refl k
  · exact insertd
  · refine Does.trans ?_ resched
    refine Does.trans ?_ note
    refine Does.trans ?_ (pushFrame fun _ _ _ heq => by cases heq)
    exact insertd.trans (setState (by simp) (by simp))
  · exact fetchOrTimeout hT

/-! ## Delays and suspension -/

theorem sleepms {delay : ℤ} : Does T k (k.sleepms delay).1 := by
  unfold Kernel.sleepms Kernel.yield
  dsimp only
  split_ifs
  · exact refl k
  · exact resched
  · exact insertd
  · refine Does.trans ?_ resched
    refine Does.trans ?_ note
    exact insertd.trans (setState (by simp) (by simp))

theorem sleep {delay : ℤ} : Does T k (k.sleep delay).1 := by
  unfold Kernel.sleep
  split_ifs
  · exact refl k
  · exact sleepms

theorem suspend : Does T k (k.suspend p).1 := by
  unfold Kernel.suspend
  dsimp only
  split_ifs
  · exact refl k
  · exact refl k
  · refine Does.trans ?_ (setState (by simp) (by simp))
    exact same rfl rfl rfl
  · exact (setState (by simp) (by simp)).trans resched

theorem resume : Does T k (k.resume p).1 := by
  unfold Kernel.resume
  dsimp only
  split_ifs
  · exact refl k
  · exact refl k
  · exact ready

theorem chprio {newprio : Int16} : Does T k (k.chprio p newprio).1 := by
  unfold Kernel.chprio
  split_ifs
  · exact refl k
  · exact .single (.entry (e := { k.proctab p with prprio := newprio })
      ⟨id, id, rfl, rfl, rfl, rfl, rfl⟩)

theorem setdesc {i : ℕ} {descrp : ℤ} :
    Does T k (k.setProc p fun e =>
      { e with prdesc := Function.update e.prdesc i descrp }) :=
  .single (.entry (e := { k.proctab p with
      prdesc := Function.update (k.proctab p).prdesc i descrp })
    ⟨id, id, rfl, rfl, rfl, rfl, rfl⟩)

/-! ## Semaphores -/

/-- A process that begins to wait, after its count has been changed. -/
theorem block (hT : T (.waits p sem)) {event : Event} :
    Does T k ((((k.setState p .wait).setProc p fun e =>
      { e with prsem := sem }).enqueue p q).1.note event).resched := by
  have hblock : (k.setState p .wait).setProc p (fun e =>
      { e with prsem := sem }) =
      k.setProc p fun e => { e with prstate := .wait, prsem := sem } := by
    simp [Kernel.setState, Kernel.setProc]
  rw [hblock]
  refine Does.trans ?_ resched
  refine Does.trans ?_ note
  exact Does.trans (.single (.wait hT)) enqueue

theorem wait (hT : T (.sem sem)) (hwaits : T (.waits k.currpid sem)) :
    Does T k (k.wait sem).1 := by
  unfold Kernel.wait
  dsimp only
  split_ifs
  · exact refl k
  · exact refl k
  · exact (setScount hT).trans (block hwaits)
  · exact (setScount hT).trans note

theorem signalOnce (hT : T (.sem sem)) : Does T k (k.signalOnce sem) := by
  have hcount := (setScount (k := k) (c := int32
    ((k.semtab sem).scount + 1)) hT).trans (note (e := .signalled sem))
  unfold Kernel.signalOnce
  dsimp only
  split_ifs
  · exact ((hcount.trans dequeue).trans note).trans ready
  · exact hcount

theorem signal (hT : T (.sem sem)) : Does T k (k.signal sem).1 := by
  unfold Kernel.signal
  split_ifs
  · exact refl k
  · exact refl k
  · exact signalOnce hT

theorem signalnLoop (hT : T (.sem sem)) (count : ℕ) (k : Kernel Queuetab) :
    Does T k (signalnLoop sem count k) := by
  induction count generalizing k with
  | zero => exact refl k
  | succ count ih => exact (signalOnce hT).trans (ih _)

theorem signaln {count : ℤ} (hT : T (.sem sem)) :
    Does T k (k.signaln sem count).1 := by
  unfold Kernel.signaln
  split_ifs
  · exact refl k
  · exact refl k
  · exact (reschedCntl.trans (signalnLoop hT _ _)).trans reschedCntl

theorem newsemLoop
    (i : ℕ) (k : Kernel Queuetab)
    (hT : ∀ s, (k.semtab s).sstate = .free → T (.sem s)) :
    Does T k (k.newsemLoop i).1 ∧
      ((k.newsemLoop i).2 ≠ SYSERR.toInt → T (.sem (k.newsemLoop i).2)) := by
  induction i generalizing k with
  | zero => exact ⟨refl k, fun hne => absurd rfl hne⟩
  | succ i ih =>
      rw [Kernel.newsemLoop]
      dsimp only
      generalize hmid : (if NSEM ≤ k.nextsem + 1 then _ else _) = mid
      have hmove : Does T k mid ∧ mid.semtab = k.semtab := by
        rw [← hmid]
        split_ifs <;> exact ⟨same rfl rfl rfl, rfl⟩
      split_ifs with hfree
      · rw [hmove.2] at hfree
        have hused := hmove.1.trans (setSem
          (f := fun s => { s with sstate := .used }) (hT _ hfree))
        exact ⟨hused, fun _ => hT _ hfree⟩
      · have hrest := ih mid (hmove.2 ▸ hT)
        exact ⟨hmove.1.trans hrest.1, hrest.2⟩

theorem semcreate
    {count : ℤ} (hT : ∀ s, (k.semtab s).sstate = .free → T (.sem s)) :
    Does T k (k.semcreate count).1 := by
  obtain ⟨hloop, hsem⟩ := newsemLoop NSEM.toNat k hT
  unfold Kernel.semcreate Kernel.newsem
  dsimp only
  split_ifs with hneg hnone
  · exact refl k
  · exact hloop
  · exact (hloop.trans (setScount (hsem hnone))).trans note

theorem semdeleteLoop (hT : T (.sem sem)) (fuel : ℕ) (k : Kernel Queuetab) :
    Does T k (semdeleteLoop sem fuel k) := by
  induction fuel generalizing k with
  | zero => exact same rfl rfl rfl
  | succ fuel ih =>
      rw [Kernel.semdeleteLoop]
      dsimp only
      split_ifs
      · refine Does.trans ?_ (ih _)
        exact (((setScount hT).trans getfirst).trans note).trans ready
      · exact setScount hT

theorem semdelete (hT : T (.sem sem)) : Does T k (k.semdelete sem).1 := by
  unfold Kernel.semdelete
  split_ifs
  · exact refl k
  · exact refl k
  · refine Does.trans ?_ reschedCntl
    exact ((setSem hT).trans reschedCntl).trans (semdeleteLoop hT _ _)

theorem semresetLoop (fuel : ℕ) (k : Kernel Queuetab) :
    Does T k (semresetLoop sem fuel k) := by
  induction fuel generalizing k with
  | zero => exact same rfl rfl rfl
  | succ fuel ih =>
      rw [Kernel.semresetLoop]
      dsimp only
      split_ifs
      · exact ((getfirst.trans note).trans ready).trans (ih _)
      · exact getfirst

theorem semreset {count : ℤ} (hT : T (.sem sem)) :
    Does T k (k.semreset sem count).1 := by
  unfold Kernel.semreset
  split_ifs
  · exact refl k
  · refine Does.trans ?_ reschedCntl
    exact ((reschedCntl.trans (semresetLoop _ _)).trans (setScount hT)).trans
      note

/-! ## Processes -/

theorem newpidLoop (i : ℕ) (k : Kernel Queuetab) :
    Does T k (k.newpidLoop i).1 ∧
      ((k.newpidLoop i).2 ≠ SYSERR.toInt →
        (k.newpidLoop i).1.state (k.newpidLoop i).2 = .free) := by
  induction i generalizing k with
  | zero => exact ⟨refl k, fun hne => absurd rfl hne⟩
  | succ i ih =>
      rw [Kernel.newpidLoop]
      dsimp only
      split_ifs with hfree
      · exact ⟨same rfl rfl rfl, fun _ => hfree⟩
      · refine ⟨?_, (ih _).2⟩
        refine Does.trans ?_ (ih _).1
        exact same rfl rfl rfl

theorem create
    {funcaddr ssize : Word} {priority : Int16} {args : List Word}
    {r : Kernel Queuetab × ℤ} (hT : T .creates) (hheap : T .heap)
    (hcreate : k.create funcaddr ssize priority args = some r) :
    Does T k r.1 := by
  unfold Kernel.create at hcreate
  dsimp only at hcreate
  generalize hpid : k.newpid = found at hcreate
  generalize roundmb (if ssize < MINSTK then MINSTK else ssize) = size at hcreate
  have hloop := newpidLoop (T := T) NPROC.toNat k
  rw [show k.newpidLoop NPROC.toNat = found from hpid] at hloop
  split_ifs at hcreate with hprio hnone
  · cases hcreate
    exact refl k
  · cases hcreate
    exact hloop.1
  · rw [Option.map_eq_some_iff] at hcreate
    obtain ⟨⟨heap, saddr⟩, -, hr⟩ := hcreate
    dsimp only at hr
    split_ifs at hr with hstk
    · cases hr
      exact hloop.1.trans (.single (.heap hheap heap))
    · cases hr
      generalize hentry : newEntry _ _ _ _ _ _ _ = entry
      have hcount : Does T found.1 { found.1 with
          prcount := found.1.prcount + 1
          heap := { heap with mem := (initStack heap.mem saddr funcaddr args).1 }
          births := found.1.births + 1 } :=
        Does.trans (.single (.heap hheap _)) (same rfl rfl rfl)
      refine Does.trans ((hloop.1.trans hcount).trans (.single ?_)) note
      refine .create hT (hloop.2 hnone) ?_ ?_ <;> rw [← hentry] <;> rfl

theorem kill (hT : T (.begins v)) : Does T k (k.kill v).1 := by
  have hcount : Does T k { k with prcount := k.prcount - 1 } :=
    same rfl rfl rfl
  have hpush := hcount.trans (pushFrame (p := k.currpid)
    (f := .kill v (k.proctab v).serial 0) fun w s i heq => by
      cases heq
      exact Or.inl hT)
  unfold Kernel.kill
  dsimp only
  split_ifs
  · exact refl k
  · exact hpush.trans (same rfl rfl rfl)
  · exact hpush.trans send

theorem killClose
    {s i : ℕ} {rest : List Frame} (hctx : k.context = .kill v s i :: rest) :
    Does T k (k.killClose v s i) := by
  have hold : k.Killing v k.currpid :=
    killing_iff.mpr ⟨s, i, by rw [← context, hctx]; simp⟩
  have hswap : (k.popFrame k.currpid).pushFrame k.currpid (.kill v s (i + 1)) =
      k.setProc k.currpid fun e =>
        { e with prctx := .kill v s (i + 1) :: e.prctx.tail } := by
    simp [Kernel.pushFrame, Kernel.popFrame, Kernel.setProc]
  have hpush : Does T k
      ((k.popFrame k.currpid).pushFrame k.currpid (.kill v s (i + 1))) := by
    rw [hswap]
    refine .single (.context (l := .kill v s (i + 1) ::
      (k.proctab k.currpid).prctx.tail) ?_)
    intro w t j hmem
    rcases List.mem_cons.mp hmem with heq | hmem
    · cases heq
      exact Or.inr hold
    · exact Or.inr (killing_iff.mpr ⟨t, j, List.mem_of_mem_tail hmem⟩)
  unfold Kernel.killClose
  dsimp only
  split_ifs
  · exact hpush.trans (pushFrame fun _ _ _ heq => by cases heq)
  · exact hpush

theorem setFree (hT : T (.frees v)) : Does T k (k.setFree v) :=
  .single (.free hT)

theorem killFinish
    (hT : T (.frees v)) (hheap : T .heap)
    (hsem : k.state v = .wait → T (.sem (k.proctab v).prsem))
    (hfinish : k.killFinish v = some k') : Does T k k' := by
  unfold Kernel.killFinish at hfinish
  rw [Option.map_eq_some_iff] at hfinish
  obtain ⟨⟨heap, status⟩, -, hk⟩ := hfinish
  dsimp only at hk
  have hpop : Does T k (({ k.popFrame k.currpid with heap := heap }).note
      (.stackFreed v ((k.popFrame k.currpid).proctab v).serial)) :=
    (popFrame.trans (.single (.heap hheap heap))).trans note
  have hstate : (({ k.popFrame k.currpid with heap := heap }).note
      (.stackFreed v ((k.popFrame k.currpid).proctab v).serial)).state v =
        k.state v :=
    state_popFrame k k.currpid v
  have hentry : ((({ k.popFrame k.currpid with heap := heap }).note
      (.stackFreed v ((k.popFrame k.currpid).proctab v).serial)).proctab
        v).prsem = (k.proctab v).prsem := by
    show ((k.popFrame k.currpid).proctab v).prsem = _
    by_cases hv : v = k.currpid
    · subst hv
      rw [Kernel.popFrame, proctab_setProc_self]
    · rw [Kernel.popFrame, proctab_setProc_of_ne _ _ _ _ hv]
  generalize ({ k.popFrame k.currpid with heap := heap }).note
    (.stackFreed v ((k.popFrame k.currpid).proctab v).serial) = mid
    at hk hpop hstate hentry
  refine hpop.trans ?_
  split at hk
  · cases hk
    exact (setFree hT).trans resched
  · cases hk
    exact unsleep.trans (setFree hT)
  · cases hk
    exact unsleep.trans (setFree hT)
  case h_4 hwait =>
    cases hk
    have hsem' : T (.sem (mid.proctab v).prsem) := by
      rw [hentry]
      exact hsem (hstate.symm.trans hwait)
    refine Does.trans ?_ (setFree hT)
    exact (setScount hsem').trans (same rfl rfl rfl)
  · cases hk
    refine Does.trans ?_ (setFree hT)
    exact same rfl rfl rfl
  · cases hk
    exact setFree hT

theorem mono
    {T' : Touch → Prop} (h : Does T k k') (hsub : ∀ t, T t → T' t) :
    Does T' k k' := by
  refine Relation.ReflTransGen.mono (fun a b hab => ?_) k k' h
  cases hab with
  | adjust hproc hsem hheap => exact .adjust hproc hsem hheap
  | heap hT heap => exact .heap (hsub _ hT) heap
  | sem hT => exact .sem (hsub _ hT)
  | entry hkept => exact .entry hkept
  | wait hT => exact .wait (hsub _ hT)
  | deposit hempty => exact .deposit hempty
  | fetch hT => exact .fetch (hsub _ hT)
  | context hkills =>
      exact .context fun v s i hmem => (hkills v s i hmem).imp_left (hsub _)
  | free hT => exact .free (hsub _ hT)
  | create hT hfree hstate hctx => exact .create (hsub _ hT) hfree hstate hctx

end Does

/-! ## What follows from a chain of updates -/

def Kernel.WaitsOn {Q : Type} (p s : ℤ) (k : Kernel Q) : Prop :=
  k.state p = .wait ∧ (k.proctab p).prsem = s

/-- The process `x` lives on, the process `m`, if one is given, keeps a message
that it has, and no kill of `v` begins. -/
structure Spares (x : ℤ) (m : Option ℤ) (v : ℤ) (k k' : Kernel Queuetab) :
    Prop where
  live : k.state x ≠ .free → k'.state x ≠ .free
  parent : (k'.proctab x).prparent = (k.proctab x).prparent
  serial : (k'.proctab x).serial = (k.proctab x).serial
  full : ∀ {y msg}, m = some y → k.slot y = some msg → k'.slot y = some msg
  kills : ∀ y, k'.Killing v y → k.Killing v y

namespace Spares

variable {k k' k'' : Kernel Queuetab} {x v p : ℤ} {m : Option ℤ}

theorem trans (h : Spares x m v k k') (h' : Spares x m v k' k'') :
    Spares x m v k k'' where
  live := fun hlive => h'.live (h.live hlive)
  parent := h'.parent.trans h.parent
  serial := h'.serial.trans h.serial
  full := fun hm hfull => h'.full hm (h.full hm hfull)
  kills := fun y hy => h.kills y (h'.kills y hy)

theorem same (hproc : k'.proctab = k.proctab) : Spares x m v k k' := by
  constructor
  · rw [state, state, hproc]
    exact id
  · rw [hproc]
  · rw [hproc]
  · intro y msg _ hfull
    rw [Kernel.slot, hproc]
    exact hfull
  · intro y hy
    rw [Killing, hproc] at hy
    exact hy

theorem setProc
    {f : Procent → Procent}
    (hself : x = p → (f (k.proctab p)).prparent = (k.proctab p).prparent ∧
      (f (k.proctab p)).serial = (k.proctab p).serial ∧
      ((k.proctab p).prstate ≠ .free → (f (k.proctab p)).prstate ≠ .free))
    (hmail : m = some p → ∀ {msg}, (k.proctab p).slot = some msg →
      (f (k.proctab p)).slot = some msg)
    (hctx : ∀ s i, .kill v s i ∈ (f (k.proctab p)).prctx → k.Killing v p) :
    Spares x m v k (k.setProc p f) := by
  have hother : ∀ y, y ≠ p → (k.setProc p f).proctab y = k.proctab y :=
    fun y hy => proctab_setProc_of_ne k p f y hy
  have hentry : (k.setProc p f).proctab p = f (k.proctab p) :=
    proctab_setProc_self k p f
  have hlife : (k.state x ≠ .free → (k.setProc p f).state x ≠ .free) ∧
      ((k.setProc p f).proctab x).prparent = (k.proctab x).prparent ∧
      ((k.setProc p f).proctab x).serial = (k.proctab x).serial := by
    by_cases hx : x = p
    · obtain ⟨hparent, hserial, hlive⟩ := hself hx
      rw [state, state, hx, hentry]
      exact ⟨hlive, hparent, hserial⟩
    · rw [state, state, hother x hx]
      exact ⟨id, rfl, rfl⟩
  refine ⟨hlife.1, hlife.2.1, hlife.2.2, ?_, ?_⟩
  · intro y msg hm hfull
    by_cases hy : y = p
    · rw [hy] at hm hfull
      rw [Kernel.slot, hy, hentry]
      exact hmail hm hfull
    · rw [Kernel.slot, hother y hy]
      exact hfull
  · intro y hy
    obtain ⟨s, i, hmem⟩ := killing_iff.mp hy
    by_cases hyp : y = p
    · rw [hyp, hentry] at hmem
      rw [hyp]
      exact hctx s i hmem
    · rw [hother y hyp] at hmem
      exact killing_iff.mpr ⟨s, i, hmem⟩

end Spares

section Consequences

variable {T : Touch → Prop} {k k' : Kernel Queuetab} {x v p s : ℤ}
variable {m : Option ℤ}

theorem mem_killing {i : ℕ} {t : ℕ}
    (hmem : .kill v t i ∈ (k.proctab p).prctx) : k.Killing v p :=
  killing_iff.mpr ⟨t, i, hmem⟩

theorem Effect.spares
    (h : Effect T k k') (hfrees : ¬ T (.frees x))
    (htakes : ∀ y, m = some y → ¬ T (.takes y)) (hbegins : ¬ T (.begins v))
    (hlive : k.state x ≠ .free) (hm : ∀ y, m = some y → k.state y ≠ .free) :
    Spares x m v k k' := by
  cases h with
  | adjust hproc => exact .same hproc
  | heap => exact .same rfl
  | sem => exact .same rfl
  | entry hkept =>
      refine .setProc (fun _ => ⟨hkept.parent, hkept.serial, hkept.live⟩) ?_ ?_
      · intro _ msg hfull
        rw [hkept.slot, hfull]
      · intro t i hmem
        rw [hkept.ctx] at hmem
        exact mem_killing hmem
  | wait =>
      exact .setProc (fun _ => ⟨rfl, rfl, fun _ => by simp⟩)
        (fun _ _ hfull => hfull) fun _ _ hmem => mem_killing hmem
  | deposit hempty =>
      refine .setProc (fun _ => ⟨rfl, rfl, id⟩) (fun _ msg hfull => ?_)
        fun _ _ hmem => mem_killing hmem
      rw [hempty] at hfull
      cases hfull
  | fetch hT =>
      exact .setProc (fun _ => ⟨rfl, rfl, id⟩)
        (fun heq => absurd hT (htakes _ heq)) fun _ _ hmem => mem_killing hmem
  | context hkills =>
      refine .setProc (fun _ => ⟨rfl, rfl, id⟩) (fun _ _ hfull => hfull) ?_
      intro t i hmem
      exact (hkills v t i hmem).resolve_left hbegins
  | free hT =>
      refine .setProc (fun heq => ?_) (fun _ _ hfull => hfull) ?_
      · rw [heq] at hfrees
        exact absurd hT hfrees
      · intro _ _ hmem
        cases hmem
  | create hT hfree hstate hctx =>
      refine .setProc (fun heq => ?_) (fun heq => ?_) ?_
      · rw [heq] at hlive
        exact absurd hfree hlive
      · exact absurd hfree (hm _ heq)
      · intro _ _ hmem
        rw [hctx] at hmem
        cases hmem

theorem Effect.live
    (h : Effect T k k') (hT : ¬ T (.frees x)) (hlive : k.state x ≠ .free) :
    k'.state x ≠ .free := by
  have hone : ∀ {p f}, (x = p → (f (k.proctab p)).prstate ≠ .free) →
      (k.setProc p f).state x ≠ .free := by
    intro p f hf
    by_cases hx : x = p
    · rw [hx, state_setProc_self]
      exact hf hx
    · rw [state_setProc_of_ne _ _ _ _ hx]
      exact hlive
  cases h with
  | adjust hproc =>
      rw [state, hproc]
      exact hlive
  | heap | sem => exact hlive
  | entry hkept =>
      exact hone fun hx => hkept.live (by rw [hx] at hlive; exact hlive)
  | wait => exact hone fun _ => by simp
  | deposit | fetch | context =>
      exact hone fun hx => by rw [hx] at hlive; exact hlive
  | free hfree =>
      refine hone fun hx => ?_
      rw [hx] at hT
      exact absurd hfree hT
  | create _ _ hstate => exact hone fun _ => by rw [hstate]; simp

theorem Does.live
    (h : Does T k k') (hT : ¬ T (.frees x)) (hlive : k.state x ≠ .free) :
    k'.state x ≠ .free := by
  induction h with
  | refl => exact hlive
  | tail _ hlast ih => exact hlast.live hT ih

theorem Does.spares
    (h : Does T k k') (hfrees : ¬ T (.frees x))
    (hmail : ∀ y, m = some y → ¬ T (.takes y) ∧ k.state y ≠ .free ∧
      ¬ T (.frees y))
    (hbegins : ¬ T (.begins v)) (hlive : k.state x ≠ .free) :
    Spares x m v k k' := by
  induction h with
  | refl => exact .same rfl
  | tail hfirst hlast ih =>
      refine ih.trans (hlast.spares hfrees (fun y hy => (hmail y hy).1) hbegins
        (ih.live hlive) fun y hy => ?_)
      obtain ⟨-, hy, hfree⟩ := hmail y hy
      exact Does.live hfirst hfree hy

theorem Does.semtab (h : Does T k k') (hT : ¬ T (.sem s)) :
    k'.semtab s = k.semtab s := by
  induction h with
  | refl => rfl
  | tail _ hlast ih =>
      rw [← ih]
      cases hlast with
      | adjust _ hsem => rw [hsem]
      | sem hsem =>
          refine Function.update_of_ne ?_ _ _
          rintro rfl
          exact hT hsem
      | _ => rfl

theorem Does.heap (h : Does T k k') (hT : ¬ T .heap) : k'.heap = k.heap := by
  induction h with
  | refl => rfl
  | tail _ hlast ih =>
      rw [← ih]
      cases hlast with
      | adjust _ _ hheap => exact hheap
      | heap hheap => exact absurd hheap hT
      | _ => rfl

/-- A process that waits on `s` afterwards was waiting before. -/
theorem Does.waitsOn
    (h : Does T k k') (hT : ¬ T (.waits p s)) (hwait : k'.WaitsOn p s) :
    k.WaitsOn p s := by
  induction h with
  | refl => exact hwait
  | @tail mid _ _ hlast ih =>
      apply ih
      have hone : ∀ {y f}, (mid.setProc y f).WaitsOn p s →
          (p = y → (f (mid.proctab p)).prstate = .wait →
            (f (mid.proctab p)).prsem = s → mid.WaitsOn p s) →
          mid.WaitsOn p s := by
        intro y f hw hf
        by_cases hp : p = y
        · subst hp
          rw [WaitsOn, state_setProc_self, proctab_setProc_self] at hw
          exact hf rfl hw.1 hw.2
        · rw [WaitsOn, state_setProc_of_ne _ _ _ _ hp,
            proctab_setProc_of_ne _ _ _ _ hp] at hw
          exact hw
      cases hlast with
      | adjust hproc =>
          rw [WaitsOn, state, hproc] at hwait
          exact hwait
      | heap | sem => exact hwait
      | entry hkept =>
          refine hone hwait fun hp hstate hsem => ?_
          subst hp
          exact ⟨hkept.wait hstate, hkept.sem.symm.trans hsem⟩
      | wait hw =>
          refine hone hwait fun hp _ hsem => ?_
          dsimp only at hsem
          rw [← hp, hsem] at hw
          exact absurd hw hT
      | deposit | fetch | context =>
          exact hone hwait fun _ hstate hsem => ⟨hstate, hsem⟩
      | free => exact hone hwait fun _ hstate _ => by cases hstate
      | create _ _ hstate =>
          refine hone hwait fun _ hs _ => ?_
          rw [hstate] at hs
          cases hs

end Consequences

/-! ## Steps -/

section Steps

variable {k k' : Kernel Queuetab} {x v : ℤ} {m : Option ℤ}

def callTouches (k : Kernel Queuetab) : Call → Touch → Prop
  | .create _ _ _ _, t => t = .creates ∨ t = .heap
  | .kill v, t => t = .begins v
  | .receive, t =>
      (k.proctab k.currpid).prhasmsg = true ∧ t = .takes k.currpid
  | .recvclr, t | .recvtime _, t => t = .takes k.currpid
  | .wait s, t => t = .sem s ∨ t = .waits k.currpid s
  | .signal s, t | .signaln s _, t | .semdelete s, t | .semreset s _, t =>
      t = .sem s
  | .semcreate _, t => ∃ s, (k.semtab s).sstate = .free ∧ t = .sem s
  | .getmem _, t | .freemem _ _, t => t = .heap
  | _, _ => False

/-- What the rest of a process can touch. -/
def frameTouches (k : Kernel Queuetab) : Frame → Touch → Prop
  | .receiveRet, t | .recvtimeRet, t => t = .takes k.currpid
  | .kill v _ i, t =>
      ¬ i < 3 ∧ (t = .frees v ∨ t = .heap ∨
        (k.state v = .wait ∧ t = .sem (k.proctab v).prsem))
  | _, _ => False

def touches (k : Kernel Queuetab) : Action → Touch → Prop
  | .call c, t => callTouches k c t
  | .cont, t => ∃ frame, k.context.head? = some frame ∧ frameTouches k frame t
  | _, _ => False

theorem perform_does {c : Call} (hstep : k.perform c = some k') :
    Does (callTouches k c) k k' := by
  unfold perform at hstep
  cases c with
  | create funcaddr ssize priority args =>
      rw [Option.map_eq_some_iff] at hstep
      obtain ⟨r, hcreate, rfl⟩ := hstep
      exact .create (Or.inl rfl) (Or.inr rfl) hcreate
  | resume pid => cases hstep; exact .resume
  | suspend pid => cases hstep; exact .suspend
  | kill pid => cases hstep; exact .kill rfl
  | yield => cases hstep; exact .resched
  | chprio pid newprio => cases hstep; exact .chprio
  | sleep delay => cases hstep; exact .sleep
  | sleepms delay => cases hstep; exact .sleepms
  | recvtime maxwait => cases hstep; exact .recvtime rfl
  | send pid msg => cases hstep; exact .send
  | receive => cases hstep; exact .receive fun hfull => ⟨hfull, rfl⟩
  | recvclr => cases hstep; exact .recvclr rfl
  | wait sem => cases hstep; exact .wait (Or.inl rfl) (Or.inr rfl)
  | signal sem => cases hstep; exact .signal rfl
  | signaln sem count => cases hstep; exact .signaln rfl
  | semcreate count =>
      cases hstep
      exact .semcreate fun s hfree => ⟨s, hfree, rfl⟩
  | semdelete sem => cases hstep; exact .semdelete rfl
  | semreset sem count => cases hstep; exact .semreset rfl
  | getmem nbytes =>
      rw [Option.map_eq_some_iff] at hstep
      obtain ⟨⟨heap, _⟩, -, rfl⟩ := hstep
      exact Does.setHeap (by exact rfl) heap
  | freemem blkaddr nbytes =>
      rw [Option.map_eq_some_iff] at hstep
      obtain ⟨⟨heap, _⟩, -, rfl⟩ := hstep
      exact Does.setHeap (by exact rfl) heap
  | setdesc pid i descrp =>
      dsimp only at hstep
      split_ifs at hstep
      cases hstep
      exact .setdesc

theorem proceed_does
    {frame : Frame} {rest : List Frame} (hctx : k.context = frame :: rest)
    (hstep : k.proceed frame = some k') : Does (frameTouches k frame) k k' := by
  unfold proceed at hstep
  cases frame with
  | clkPreempt => cases hstep; exact Does.popFrame.trans .clkPreempt
  | receiveRet => cases hstep; exact Does.popFrame.trans (.fetch rfl)
  | recvtimeRet => cases hstep; exact Does.popFrame.trans (.fetchOrTimeout rfl)
  | kill v s i =>
      dsimp only at hstep
      split_ifs at hstep with hi
      · cases hstep
        exact .killClose hctx
      · exact .killFinish ⟨hi, Or.inl rfl⟩ ⟨hi, Or.inr (Or.inl rfl)⟩
          (fun hwait => ⟨hi, Or.inr (Or.inr ⟨hwait, rfl⟩)⟩) hstep
  | inClose => cases hstep

/-- A step is a chain of updates that change nothing but what it touches. -/
theorem step_does {action : Action} (hstep : step k action = some k') :
    Does (touches k action) k k' := by
  cases action with
  | call c => exact perform_does (step_call hstep)
  | cont =>
      cases hctx : k.context with
      | nil =>
          unfold step at hstep
          rw [hctx] at hstep
          split_ifs at hstep
      | cons frame rest =>
          refine (proceed_does hctx (step_cont hctx hstep)).mono ?_
          intro t ht
          exact ⟨frame, by rw [hctx]; rfl, ht⟩
  | tick =>
      have hk : k.clkhandler = k' := by
        unfold step at hstep
        split_ifs at hstep
        cases hctx : k.context with
        | nil =>
            rw [hctx] at hstep
            exact Option.some.inj hstep
        | cons frame rest =>
            rw [hctx] at hstep
            cases hstep
      rw [← hk]
      exact .clkhandler
  | closeDone =>
      have hk : k.popFrame k.currpid = k' := by
        unfold step at hstep
        split_ifs at hstep
        cases hctx : k.context with
        | nil =>
            rw [hctx] at hstep
            cases hstep
        | cons frame rest =>
            rw [hctx] at hstep
            cases frame <;> try cases hstep
            rfl
      rw [← hk]
      exact .popFrame

/-- The end of a kill of `x` is next. -/
def Frame.buries (x : ℤ) : List Frame → Bool
  | .kill w _ i :: _ => w = x && 3 ≤ i
  | _ => false

/-- The step is the end of a kill of `x`. -/
def Buries (x : ℤ) (k : Kernel Queuetab) : Action → Prop
  | .cont => Frame.buries x k.context = true
  | _ => False

instance (x : ℤ) (k : Kernel Queuetab) (action : Action) :
    Decidable (Buries x k action) := by
  cases action <;> unfold Buries <;> infer_instance

theorem buries_of_touches
    {action : Action} (h : touches k action (.frees x)) :
    Buries x k action := by
  cases action with
  | call c => cases c <;> simp [touches, callTouches] at h
  | cont =>
      obtain ⟨frame, hhead, hframe⟩ := h
      cases frame with
      | kill w s i =>
          obtain ⟨hi, hw⟩ := hframe
          simp only [Touch.frees.injEq, reduceCtorEq, and_false, or_false]
            at hw
          cases hctx : k.context with
          | nil =>
              rw [hctx] at hhead
              cases hhead
          | cons frame rest =>
              rw [hctx] at hhead
              cases hhead
              rw [Buries, hctx, hw]
              simpa [Frame.buries] using hi
      | _ => simp [frameTouches] at hframe
  | tick | closeDone => exact h

theorem begins_of_touches
    {action : Action} (h : touches k action (.begins v)) :
    action = .call (.kill v) := by
  cases action with
  | call c =>
      cases c with
      | kill w =>
          cases h
          rfl
      | _ => simp [touches, callTouches] at h
  | cont =>
      obtain ⟨frame, -, hframe⟩ := h
      cases frame <;> simp [frameTouches] at hframe
  | tick | closeDone => exact absurd h not_false

theorem current_of_touches
    {action : Action} {y : ℤ} (h : touches k action (.takes y)) :
    y = k.currpid := by
  cases action with
  | call c =>
      cases c <;> simp [touches, callTouches] at h
      case receive => exact h.2
      all_goals exact h
  | cont =>
      obtain ⟨frame, -, hframe⟩ := h
      cases frame <;> simp [frameTouches] at hframe
      all_goals exact hframe
  | tick | closeDone => exact absurd h not_false

/-- A step spares `x` unless it ends a kill of it, leaves `m` its message unless
`m` takes it, and begins no kill of `v` unless it is that call. -/
theorem step_spares
    {action : Action} (hlive : k.state x ≠ .free)
    (hmail : ∀ y, m = some y → k.state y ≠ .free ∧ ¬ Buries y k action ∧
      (y = k.currpid → ¬ touches k action (.takes y)))
    (hkill : action ≠ .call (.kill v)) (hbury : ¬ Buries x k action)
    (hstep : step k action = some k') : Spares x m v k k' := by
  refine (step_does hstep).spares (mt buries_of_touches hbury) ?_
    (mt begins_of_touches hkill) hlive
  intro y hy
  obtain ⟨hlive, hnot, htake⟩ := hmail y hy
  exact ⟨fun ht => htake (current_of_touches ht) ht, hlive,
    mt buries_of_touches hnot⟩

end Steps

end Xinu
