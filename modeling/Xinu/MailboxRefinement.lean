import Xinu.KernelRuns

/-!
# Messages

A process has room for one message.  The mailbox automaton reads the log: it
accepts a message only when it is empty and gives out the message it holds.
The table entry of every process is the state the automaton reaches.

A process that has been woken by a message fetches it without another look at
`prhasmsg`.  The invariant therefore says that such a process has a message,
and that nothing else is on its context above the fetch.
-/

namespace Xinu

open ByteMemory Placement TransitionSystem Kernel

/-! ## The mailbox automaton -/

/-- One event of the log, seen from the mailbox of `p`. -/
def mailStep (p : ℤ) (slot : Option Word) : Event → Option (Option Word)
  | .created x _ => some (if x = p then none else slot)
  | .sent x m =>
      if x = p then (if slot = none then some (some m) else none)
      else some slot
  | .received x m =>
      if x = p then (if slot = some m then some none else none)
      else some slot
  | .timedOut x =>
      if x = p then (if slot = none then some none else none)
      else some slot
  | _ => some slot

/-- What the mailbox of `p` holds after a log, which is `none` when the log
breaks the rules. -/
def mailbox (p : ℤ) : List Event → Option (Option Word)
  | [] => some none
  | e :: log => (mailbox p log).bind fun slot => mailStep p slot e

/-- The event concerns the mailbox of `p`. -/
def Touches (p : ℤ) : Event → Prop
  | .created x _ | .sent x _ | .received x _ | .timedOut x => x = p
  | _ => False

section Automaton

variable {p : ℤ} {e : Event} {m : Word} {slot : Option Word}
variable {log later earlier : List Event}

theorem mailStep_of_not_touches (he : ¬ Touches p e) :
    mailStep p slot e = some slot := by
  cases e <;> simp_all [mailStep, Touches]

theorem mailStep_touches
    (he : Touches p e) (hstep : mailStep p (some m) e = some slot) :
    slot = none ∧ (e = .received p m ∨ ∃ n, e = .created p n) := by
  cases e <;> simp_all [mailStep, Touches]

theorem mailbox_cons (hlog : mailbox p (e :: log) = some slot) :
    ∃ before, mailbox p log = some before ∧ mailStep p before e = some slot := by
  rw [mailbox, Option.bind_eq_some_iff] at hlog
  exact hlog

theorem mailbox_append (hlog : mailbox p (later ++ log) = some slot) :
    ∃ before, mailbox p log = some before := by
  induction later generalizing slot with
  | nil => exact ⟨slot, hlog⟩
  | cons e later ih =>
      obtain ⟨before, hbefore, -⟩ := mailbox_cons hlog
      exact ih hbefore

/-- A message in the mailbox is the last thing that happened to it. -/
theorem mailbox_full (hlog : mailbox p log = some (some m)) :
    ∃ between older, log = between ++ .sent p m :: older ∧
      ∀ e ∈ between, ¬ Touches p e := by
  induction log with
  | nil => cases hlog
  | cons e log ih =>
      obtain ⟨before, hbefore, hstep⟩ := mailbox_cons hlog
      by_cases he : Touches p e
      · refine ⟨[], log, ?_, by simp⟩
        cases e <;> simp [mailStep, Touches] at he hstep
        case sent x w =>
          subst he
          simp only [if_true] at hstep
          split_ifs at hstep
          simp_all
        all_goals (subst he; simp at hstep)
      · rw [mailStep_of_not_touches he, Option.some.injEq] at hstep
        subst hstep
        obtain ⟨between, older, hlog, hquiet⟩ := ih hbefore
        refine ⟨e :: between, older, by rw [hlog]; rfl, ?_⟩
        intro x hx
        rcases List.mem_cons.mp hx with rfl | hx
        · exact he
        · exact hquiet x hx

/-- What has become of a message that was sent. -/
theorem mailbox_sent (hlog : mailbox p (later ++ .sent p m :: log) = some slot) :
    (slot = some m ∧ ∀ e ∈ later, ¬ Touches p e) ∨
      ∃ after between e, later = after ++ e :: between ∧
        (∀ x ∈ between, ¬ Touches p x) ∧
        (e = .received p m ∨ ∃ n, e = .created p n) := by
  induction later generalizing slot with
  | nil =>
      obtain ⟨before, -, hstep⟩ := mailbox_cons hlog
      refine Or.inl ⟨?_, by simp⟩
      simp only [mailStep, if_true] at hstep
      split_ifs at hstep
      exact (Option.some.inj hstep).symm
  | cons e later ih =>
      obtain ⟨before, hbefore, hstep⟩ := mailbox_cons hlog
      rcases ih hbefore with ⟨rfl, hquiet⟩ | ⟨after, between, x, rfl, hx⟩
      · by_cases he : Touches p e
        · obtain ⟨-, hend⟩ := mailStep_touches he hstep
          exact Or.inr ⟨[], later, e, rfl, hquiet, hend⟩
        · rw [mailStep_of_not_touches he, Option.some.injEq] at hstep
          refine Or.inl ⟨hstep.symm, ?_⟩
          intro x hx
          rcases List.mem_cons.mp hx with rfl | hx
          · exact he
          · exact hquiet x hx
      · exact Or.inr ⟨e :: after, between, x, rfl, hx⟩

/-- A message that was received had been sent and not consumed. -/
theorem mailbox_received
    (hlog : mailbox p (later ++ .received p m :: earlier) = some slot) :
    ∃ between older, earlier = between ++ .sent p m :: older ∧
      ∀ e ∈ between, ¬ Touches p e := by
  obtain ⟨mid, hmid⟩ := mailbox_append hlog
  obtain ⟨before, hbefore, hstep⟩ := mailbox_cons hmid
  simp only [mailStep, if_true] at hstep
  split_ifs at hstep with hfull
  rw [hfull] at hbefore
  exact mailbox_full hbefore

end Automaton

/-! ## The entry of a process -/

/-- The mailbox in a table entry. -/
def Procent.slot (e : Procent) : Option Word :=
  if e.prhasmsg then some e.prmsg else none

def Kernel.slot {Q : Type} (p : ℤ) (k : Kernel Q) : Option Word :=
  (k.proctab p).slot

/-- The entry `e` of a process agrees with its mailbox. -/
structure Mail (p : ℤ) (log : List Event) (e : Procent) : Prop where
  slot : mailbox p log = some e.slot
  awake : e.prhasmsg = true → e.prstate ≠ .recv ∧ e.prstate ≠ .rectim
  ret : e.prctx.head? = some .receiveRet → e.prhasmsg = true ∨ e.prstate = .recv
  top : .receiveRet ∉ e.prctx.tail

def MailInv (b : Kernel QueueLists) : Prop :=
  ∀ p, Mail p b.log (b.proctab p)

/-- A change of an entry that concerns neither the message nor the wait for
one. -/
structure MailSteady (e e' : Procent) : Prop where
  hasmsg : e'.prhasmsg = e.prhasmsg
  msg : e'.prmsg = e.prmsg
  ctx : e'.prctx = e.prctx
  recv : e.prstate = .recv → e'.prstate = .recv ∨ e.prhasmsg = true
  waits : e'.prstate = .recv ∨ e'.prstate = .rectim →
    e.prhasmsg = true → e'.prstate = e.prstate

section Entries

variable {action : Action} {a b c : Kernel QueueLists} {p x : ℤ}
variable {e e' : Procent} {log w : List Event}

theorem mailbox_quiet (hquiet : ∀ ev ∈ w, ¬ Touches x ev) :
    mailbox x (w ++ log) = mailbox x log := by
  induction w with
  | nil => rfl
  | cons ev w ih =>
      have hev := hquiet ev (by simp)
      rw [List.cons_append, mailbox, ih fun y hy => hquiet y (by simp [hy])]
      cases mailbox x log with
      | none => rfl
      | some slot => exact mailStep_of_not_touches hev

theorem Mail.quiet
    (h : Mail x log e) (hquiet : ∀ ev ∈ w, ¬ Touches x ev) :
    Mail x (w ++ log) e :=
  { h with slot := (mailbox_quiet hquiet).trans h.slot }

theorem Mail.steady (h : Mail x log e) (hsteady : MailSteady e e') :
    Mail x log e' := by
  constructor
  · rw [h.slot, Procent.slot, Procent.slot, hsteady.hasmsg, hsteady.msg]
  · intro hmsg
    rw [hsteady.hasmsg] at hmsg
    obtain ⟨hrecv, hrectim⟩ := h.awake hmsg
    refine ⟨fun hs => hrecv ?_, fun hs => hrectim ?_⟩
    · rw [← hsteady.waits (Or.inl hs) hmsg, hs]
    · rw [← hsteady.waits (Or.inr hs) hmsg, hs]
  · intro hctx
    rw [hsteady.ctx] at hctx
    rw [hsteady.hasmsg]
    rcases h.ret hctx with hmsg | hrecv
    · exact Or.inl hmsg
    · exact (hsteady.recv hrecv).symm
  · rw [hsteady.ctx]
    exact h.top

theorem MailInv.update
    (h : MailInv b) (p : ℤ) (e : Procent)
    (hproc : c.proctab = Function.update b.proctab p e)
    (hlog : c.log = w ++ b.log)
    (hquiet : ∀ x, x ≠ p → ∀ ev ∈ w, ¬ Touches x ev)
    (he : Mail p (w ++ b.log) e) : MailInv c := by
  intro x
  rw [hproc, hlog]
  by_cases hx : x = p
  · subst hx
    rw [Function.update_self]
    exact he
  · rw [Function.update_of_ne hx]
    exact (h x).quiet (hquiet x hx)

theorem MailInv.same
    (h : MailInv b) (hproc : c.proctab = b.proctab)
    (hlog : c.log = w ++ b.log)
    (hquiet : ∀ x, ∀ ev ∈ w, ¬ Touches x ev) : MailInv c := by
  intro x
  rw [hproc, hlog]
  exact (h x).quiet (hquiet x)

theorem MailInv.steady
    (h : MailInv b) (p : ℤ) (e : Procent)
    (hproc : c.proctab = Function.update b.proctab p e)
    (hlog : c.log = w ++ b.log)
    (hquiet : ∀ x, ∀ ev ∈ w, ¬ Touches x ev)
    (hsteady : MailSteady (b.proctab p) e) : MailInv c :=
  h.update p e hproc hlog (fun x _ => hquiet x)
    (((h p).steady hsteady).quiet (hquiet p))

theorem not_touches_nil (x : ℤ) : ∀ ev ∈ ([] : List Event), ¬ Touches x ev := by
  simp

/-- A process that leaves a wait for a message has one. -/
theorem MailSteady.state
    {s : PrState} (hs : s ≠ .recv) (hs' : s ≠ .rectim)
    (hrecv : e.prstate = .recv → e.prhasmsg = true) :
    MailSteady e { e with prstate := s } where
  hasmsg := rfl
  msg := rfl
  ctx := rfl
  recv := fun h => Or.inr (hrecv h)
  waits := by
    rintro (h | h)
    · exact absurd h hs
    · exact absurd h hs'

theorem MailInv.setState
    {s : PrState} (h : MailInv b) (hs : s ≠ .recv) (hs' : s ≠ .rectim)
    (hrecv : b.state p = .recv → (b.proctab p).prhasmsg = true) :
    MailInv (b.setState p s) :=
  h.steady p _ rfl rfl not_touches_nil (.state hs hs' hrecv)

theorem MailInv.enlist
    (h : MailInv b)
    (hrecv : b.state p = .recv → (b.proctab p).prhasmsg = true) :
    MailInv (b.enlist p) := by
  have hstate : MailInv (b.setState p .ready) :=
    h.setState (by simp) (by simp) hrecv
  exact hstate.same rfl rfl not_touches_nil

/-- The mailbox of a process takes a message when it is empty. -/
theorem MailInv.deposit
    {m : Word} {s : PrState} (h : MailInv b)
    (hempty : (b.proctab p).prhasmsg = false) (hs : s ≠ .recv)
    (hs' : s ≠ .rectim) (hproc : c.proctab = Function.update b.proctab p
      { b.proctab p with prmsg := m, prhasmsg := true, prstate := s })
    (hlog : c.log = .sent p m :: b.log) : MailInv c := by
  have hslot : mailbox p b.log = some none := by
    rw [(h p).slot, Procent.slot, hempty]
    rfl
  refine h.update p _ hproc (w := [.sent p m]) hlog ?_ ⟨?_, ?_, ?_, ?_⟩
  · intro x hx ev hev
    rw [List.mem_singleton.mp hev]
    exact fun heq => hx heq.symm
  · rw [List.singleton_append, mailbox, hslot]
    simp [mailStep, Procent.slot]
  · exact fun _ => ⟨hs, hs'⟩
  · exact fun _ => Or.inl rfl
  · exact (h p).top

theorem MailInv.fetch
    {ctx : List Frame} (h : MailInv b)
    (hfull : (b.proctab p).prhasmsg = true)
    (hctx : ctx.head? ≠ some .receiveRet) (htop : .receiveRet ∉ ctx.tail)
    (hproc : c.proctab = Function.update b.proctab p
      { b.proctab p with prhasmsg := false, prctx := ctx })
    (hlog : c.log = .received p (b.proctab p).prmsg :: b.log) :
    MailInv c := by
  have hslot : mailbox p b.log = some (some (b.proctab p).prmsg) := by
    rw [(h p).slot, Procent.slot, hfull]
    rfl
  refine h.update p _ hproc (w := [.received p (b.proctab p).prmsg]) hlog
    ?_ ⟨?_, ?_, ?_, htop⟩
  · intro x hx ev hev
    rw [List.mem_singleton.mp hev]
    exact fun heq => hx heq.symm
  · rw [List.singleton_append, mailbox, hslot]
    simp [mailStep, Procent.slot]
  · intro hmsg
    cases hmsg
  · exact fun hhead => absurd hhead hctx

theorem Mail.head_tail
    (h : Mail p log e) : e.prctx.tail.head? ≠ some .receiveRet ∧
      .receiveRet ∉ e.prctx.tail.tail := by
  have htop := h.top
  refine ⟨fun hhead => htop ?_, fun hmem => htop (List.mem_of_mem_tail hmem)⟩
  exact List.mem_of_head? hhead

theorem Mail.not_mem
    (h : Mail p log e) (hhead : e.prctx.head? ≠ some .receiveRet) :
    .receiveRet ∉ e.prctx := by
  have htop := h.top
  cases hctx : e.prctx with
  | nil => simp
  | cons frame rest =>
      rw [hctx] at htop hhead
      intro hmem
      rcases List.mem_cons.mp hmem with rfl | hmem
      · exact hhead rfl
      · exact htop hmem

/-- Push a frame on a context that is not about to fetch. -/
theorem MailInv.push
    {frame : Frame} (h : MailInv b) (hframe : frame ≠ .receiveRet)
    (hctx : (b.proctab p).prctx.head? ≠ some .receiveRet)
    (hproc : c.proctab = Function.update b.proctab p
      { b.proctab p with prctx := frame :: (b.proctab p).prctx })
    (hlog : c.log = b.log) : MailInv c := by
  refine h.update p _ hproc (w := []) hlog (fun x _ => not_touches_nil x)
    ⟨(h p).slot, (h p).awake, ?_, (h p).not_mem hctx⟩
  intro hhead
  exact absurd (Option.some.inj hhead) hframe

theorem MailInv.pop (h : MailInv b) (p : ℤ) : MailInv (b.popFrame p) := by
  obtain ⟨hhead, htail⟩ := (h p).head_tail
  refine h.update p _ rfl (w := []) rfl (fun x _ => not_touches_nil x)
    ⟨(h p).slot, (h p).awake, ?_, htail⟩
  exact fun hret => absurd hret hhead

/-- The current process comes back from its wait and takes the message. -/
theorem MailInv.popFetch
    (h : MailInv b) (hfull : (b.proctab p).prhasmsg = true) :
    MailInv ((b.popFrame p).fetch p) := by
  obtain ⟨hhead, htail⟩ := (h p).head_tail
  refine h.fetch (p := p) hfull hhead htail ?_ ?_
  · exact proctab_setProc_setProc b p
      (fun e => { e with prctx := e.prctx.tail })
      (fun e => { e with prhasmsg := false })
  · show .received p ((b.popFrame p).proctab p).prmsg :: b.log = _
    rw [popFrame, proctab_setProc_self]

/-- Nothing is left to do in a free entry. -/
theorem MailInv.setFree (h : MailInv b) (p : ℤ) : MailInv (b.setFree p) := by
  refine h.update p _ rfl (w := []) rfl (fun x _ => not_touches_nil x)
    ⟨(h p).slot, fun _ => ⟨by simp, by simp⟩, ?_, by simp⟩
  intro hhead
  cases hhead

theorem MailInv.bury (h : MailInv b) (v : ℤ) : MailInv (b.bury v) := by
  have hnote : ∀ (c : Kernel QueueLists) (ev : Event), c.proctab = b.proctab →
      c.log = [ev] ++ b.log → (∀ x, ¬ Touches x ev) → MailInv c := by
    intro c ev hproc hlog hev
    refine h.same hproc hlog ?_
    intro x y hy
    rw [List.mem_singleton.mp hy]
    exact hev x
  unfold Kernel.bury
  split
  · exact (hnote (b.unsleepEarly v) (.unslept v) rfl rfl
      (by simp [Touches])).setFree v
  · exact (hnote (b.unsleepEarly v) (.unslept v) rfl rfl
      (by simp [Touches])).setFree v
  · exact (hnote (((b.bumpCount (b.proctab v).prsem 1).unlink v).note
      (.withdrawn (b.proctab v).prsem v)) (.withdrawn (b.proctab v).prsem v)
        rfl rfl (by simp [Touches])).setFree v
  · exact MailInv.setFree (b := b.unlink v)
      (h.same rfl rfl not_touches_nil) v
  · exact h.setFree v

theorem MailInv.depositEnlist
    {m : Word} (h : MailInv b) (hempty : (b.proctab p).prhasmsg = false) :
    MailInv ((b.deposit p m).enlist p) :=
  h.deposit (s := .ready) (m := m) hempty (by simp) (by simp)
    (proctab_setProc_setProc b p
      (fun e => { e with prmsg := m, prhasmsg := true })
      (fun e => { e with prstate := .ready })) rfl

theorem MailInv.timeOut
    (h : MailInv b) (hempty : (b.proctab p).prhasmsg = false) :
    MailInv (b.note (.timedOut p)) := by
  have hslot : (b.proctab p).slot = none := by
    rw [Procent.slot, hempty]
    rfl
  refine h.update p (b.proctab p) (Function.update_eq_self p _).symm
    (w := [.timedOut p]) rfl ?_ { h p with slot := ?_ }
  · intro x hx ev hev
    rw [List.mem_singleton.mp hev]
    exact fun heq => hx heq.symm
  · rw [List.singleton_append, mailbox, (h p).slot, hslot]
    simp [mailStep]

theorem Queued.waiter_not_recv
    {sem : ℤ} {l : List ℤ} (hq : Queued b) (hid : SemId sem)
    (hfirst : b.waiters sem = p :: l) : b.state p ≠ .recv := by
  rw [(waiter_waits hq hid hfirst).2]
  decide

theorem Move.mailInv
    (hmove : Move action a b c) (hq : Queued b) (h : MailInv b) : MailInv c := by
  have hnil := not_touches_nil
  cases hmove with
  | adjust hsame =>
      rw [hsame.eq]
      exact h.same rfl rfl hnil
  | demote hcurr => exact h.enlist (by simp [hcurr])
  | @dispatch _ p l hidle hfirst =>
      have hready : b.state p = .ready := by
        rw [← hq.mem_readyq, hfirst]
        simp
      have hstate : MailInv ((b.unlink p).setState p .curr) := by
        have hunlink : MailInv (b.unlink p) := h.same rfl rfl hnil
        exact hunlink.setState (by simp) (by simp) (by simp [hready])
      exact hstate.same rfl rfl hnil
  | suspendCurr hcurr =>
      exact h.setState (by simp) (by simp) (by simp [hcurr])
  | @suspendReady _ p hready =>
      have hunlink : MailInv (b.unlink p) := h.same rfl rfl hnil
      exact hunlink.setState (by simp) (by simp) (by simp [hready])
  | resume hsusp => exact h.enlist (by simp [hsusp])
  | @chprio p newprio =>
      exact h.steady p _ rfl rfl hnil
        ⟨rfl, rfl, rfl, fun hs => Or.inl hs, fun _ _ => rfl⟩
  | @deliver _ p msg hlive hempty hrecv hrectim =>
      exact h.deposit hempty hrecv hrectim rfl rfl
  | @deliverRecv _ p msg hempty hrecv =>
      exact h.depositEnlist hempty
  | @deliverRectim _ p msg hempty hrectim =>
      have hlisted : MailInv ((b.deposit p msg).enlist p) := h.depositEnlist hempty
      exact hlisted.same (w := [.unslept p]) rfl rfl (by simp [Touches])
  | @awaitMessage _ hcurr hempty hnull hctx =>
      have hnone : .receiveRet ∉ (b.proctab b.currpid).prctx :=
        (h b.currpid).not_mem hctx
      refine h.update b.currpid _ (proctab_setProc_setProc b b.currpid
        (fun e => { e with prstate := .recv })
        (fun e => { e with prctx := .receiveRet :: e.prctx })) (w := [])
        rfl (fun x _ => hnil x) ⟨(h b.currpid).slot, ?_, fun _ => Or.inr rfl, hnone⟩
      intro hmsg
      rw [show (b.proctab b.currpid).prhasmsg = true from hmsg] at hempty
      cases hempty
  | fetch hcurr hfull hctx =>
      exact h.fetch hfull hctx (h b.currpid).top rfl rfl
  | @fetchRet _ rest hcurr hctx =>
      have hhead : (b.proctab b.currpid).prctx.head? = some .receiveRet := by
        rw [show (b.proctab b.currpid).prctx = _ from hctx]
        rfl
      rcases (h b.currpid).ret hhead with hfull | hrecv
      · exact h.popFetch hfull
      · rw [show (b.proctab b.currpid).prstate = .curr from hcurr] at hrecv
        cases hrecv
  | fetchTimed hcurr hctx hfull => exact h.popFetch hfull
  | timeOut hcurr hempty => exact h.timeOut hempty
  | @sleep _ ticks hcurr hnull hpos hrange =>
      exact h.steady b.currpid _ rfl (w := [.slept b.currpid ticks]) rfl
        (by simp [Touches]) (.state (by simp) (by simp) fun hrecv => by
          rw [show (b.proctab b.currpid).prstate = .curr from hcurr] at hrecv
          cases hrecv)
  | @awaitTimed _ ticks hcurr hempty hnull hctx hpos hrange =>
      have hnone : .receiveRet ∉ (b.proctab b.currpid).prctx :=
        (h b.currpid).not_mem hctx
      have hquiet : ∀ x, ∀ ev ∈ [Event.slept b.currpid ticks], ¬ Touches x ev := by
        simp [Touches]
      refine h.update b.currpid _ (proctab_setProc_setProc b b.currpid
        (fun e => { e with prstate := .rectim })
        (fun e => { e with prctx := .recvtimeRet :: e.prctx }))
        (w := [.slept b.currpid ticks]) rfl (fun x _ => hquiet x)
        (Mail.quiet ⟨(h b.currpid).slot, ?_, ?_, hnone⟩ (hquiet _))
      · intro hmsg
        rw [show (b.proctab b.currpid).prhasmsg = true from hmsg] at hempty
        cases hempty
      · intro hhead
        cases hhead
  | tick => exact h.same (w := [.ticked]) rfl rfl (by simp [Touches])
  | @expire _ p l haction hfirst hdue =>
      have hnote : MailInv ((b.unlink p).note (.expired p)) :=
        h.same (w := [.expired p]) rfl rfl (by simp [Touches])
      refine hnote.enlist fun hrecv => ?_
      have hmem : p ∈ b.lists SLEEPQ := by simp [hfirst]
      rcases hq.mem_sleepq.mp hmem with hs | hs <;>
        (rw [show b.state p = .recv from hrecv] at hs; cases hs)
  | @pass _ sem =>
      exact h.same (w := [.passed sem]) rfl rfl (by simp [Touches])
  | @wait _ sem hid hused hcurr hnull hcount =>
      refine h.steady b.currpid _ rfl (w := [.waited sem b.currpid]) rfl
        (by simp [Touches]) ⟨rfl, rfl, rfl, ?_, by simp⟩
      intro hrecv
      rw [show (b.proctab b.currpid).prstate = .curr from hcurr] at hrecv
      cases hrecv
  | @signal _ sem =>
      exact h.same (w := [.signalled sem]) rfl rfl (by simp [Touches])
  | @release _ sem p l hid hused hcount hfirst =>
      have hnote : MailInv ((((b.bumpCount sem 1).note (.signalled sem)).note
          (.released sem p)).unlink p) :=
        h.same (w := [.released sem p, .signalled sem]) rfl rfl
          (by simp [Touches])
      exact hnote.enlist fun hrecv =>
        absurd hrecv (hq.waiter_not_recv hid hfirst)
  | @flush _ sem p l hid hfirst =>
      have hnote : MailInv (((b.bumpCount sem 1).note (.flushed sem p)).unlink
          p) :=
        h.same (w := [.flushed sem p]) rfl rfl (by simp [Touches])
      exact hnote.enlist fun hrecv =>
        absurd hrecv (hq.waiter_not_recv hid hfirst)
  | @stray _ sem w hid hcount hnone hevents =>
      refine h.same (w := w) rfl rfl ?_
      rcases hevents with rfl | rfl <;> simp [Touches]
  | @semcreate _ sem count =>
      exact h.same (w := [.started sem count]) rfl rfl (by simp [Touches])
  | @semreset _ sem count =>
      exact h.same (w := [.started sem count]) rfl rfl (by simp [Touches])
  | semfree => exact h.same rfl rfl hnil
  | semdone => exact h.same rfl rfl hnil
  | @create _ p entry hid hfree hstate hempty hctx hserial =>
      refine h.update p entry rfl (w := [.created p b.births]) rfl ?_
        ⟨?_, ?_, ?_, by simp [hctx]⟩
      · intro x hx ev hev
        rw [List.mem_singleton.mp hev]
        exact fun heq => hx heq.symm
      · rw [List.singleton_append, mailbox, (h p).slot]
        simp [mailStep, Procent.slot, hempty]
      · rw [hstate]
        exact fun _ => ⟨by simp, by simp⟩
      · rw [hctx]
        intro hhead
        cases hhead
  | @setdesc _ p desc =>
      exact h.steady p _ rfl rfl hnil
        ⟨rfl, rfl, rfl, fun hs => Or.inl hs, fun _ _ => rfl⟩
  | pushFrame hkill hret hctx => exact h.push hret hctx rfl rfl
  | popFrame => exact h.pop _
  | kill haction hlive hnull hctx => exact h.push (by simp) hctx rfl rfl
  | @killClose _ v s i rest hctx hturn =>
      have hctx' : ((b.popFrame b.currpid).proctab b.currpid).prctx =
          (b.proctab b.currpid).prctx.tail := by
        rw [Kernel.popFrame, proctab_setProc_self]
      refine (h.pop b.currpid).push (p := b.currpid) (by simp) ?_ rfl rfl
      rw [hctx']
      exact (h b.currpid).head_tail.1
  | @killFinish v s i rest haction hctx hlast hcurr =>
      have hnote : MailInv ((a.popFrame a.currpid).note
          (.stackFreed v (a.proctab v).serial)) :=
        (h.pop a.currpid).same (w := [.stackFreed v (a.proctab v).serial])
          rfl rfl (by simp [Touches])
      exact hnote.bury v

end Entries

/-! ## What the calls log -/

namespace Kernel

section Logs

variable (k : Kernel Queuetab) (pid q key : ℤ)

@[simp] theorem log_setProc (f : Procent → Procent) :
    (k.setProc pid f).log = k.log := rfl

@[simp] theorem log_setState (s : PrState) :
    (k.setState pid s).log = k.log := rfl

@[simp] theorem log_insert : (k.insert pid q key).1.log = k.log := by
  unfold Kernel.insert
  split_ifs
  · rfl
  · split <;> rfl

@[simp] theorem log_dequeue : (k.dequeue q).1.log = k.log := by
  unfold dequeue
  split_ifs
  · rfl
  · rfl
  · unfold getfirst
    split_ifs <;> rfl

@[simp] theorem log_switch : k.switch.log = k.log := by
  unfold switch
  exact log_dequeue k k.readylist

@[simp] theorem log_resched : k.resched.log = k.log := by
  unfold resched
  split_ifs <;> simp

@[simp] theorem log_ready : (k.ready pid).1.log = k.log := by
  unfold Kernel.ready
  split_ifs
  · rfl
  · dsimp only
    rw [log_resched, log_insert, log_setState]

theorem log_unsleep : ∃ w, (k.unsleep pid).1.log = w ++ k.log ∧
    ∀ x, ∀ ev ∈ w, ¬ Touches x ev := by
  unfold unsleep
  split_ifs
  · exact ⟨[], rfl, not_touches_nil⟩
  · exact ⟨[], rfl, not_touches_nil⟩
  · exact ⟨[.unslept pid], rfl, by simp [Touches]⟩

/-- A message that `send` accepts is logged. -/
theorem log_send {msg : Word} (hok : (k.send pid msg).2 = OK) :
    ∃ w, (k.send pid msg).1.log = w ++ .sent pid msg :: k.log ∧
      ∀ x, ∀ ev ∈ w, ¬ Touches x ev := by
  have hne : SYSERR ≠ OK := by decide
  unfold Kernel.send at hok ⊢
  dsimp only at hok ⊢
  split_ifs at hok ⊢
  · exact absurd hok hne
  · exact absurd hok hne
  · rw [log_ready]
    exact ⟨[], rfl, not_touches_nil⟩
  · rw [log_ready]
    exact log_unsleep (k.deposit pid msg) pid
  · exact ⟨[], rfl, not_touches_nil⟩

theorem send_rejected {msg : Word} (herr : (k.send pid msg).2 = SYSERR) :
    (k.send pid msg).1 = k := by
  have hne : OK ≠ SYSERR := by decide
  unfold Kernel.send at herr ⊢
  dsimp only at herr ⊢
  split_ifs at herr ⊢
  · rfl
  · rfl
  · exact absurd herr hne
  · exact absurd herr hne
  · exact absurd herr hne

end Logs

end Kernel

/-! ## Runs -/

/-- A call that asks for a message. -/
def Call.Receives : Call → Prop
  | .receive | .recvclr => True
  | .recvtime maxwait => 0 ≤ maxwait.toInt
  | _ => False

/-- The table entries refine the mailboxes: every entry holds what its mailbox
holds, every message that was sent is in its mailbox or has been taken by one
receive or lost with its process, every message that was received had been sent
and was not consumed, and no process waits while it has a message. -/
structure MailboxLaw (k : Kernel Queuetab) : Prop where
  slot : ∀ p, mailbox p k.log = some (k.slot p)
  sent : ∀ {p m later earlier}, k.log = later ++ .sent p m :: earlier →
    (k.slot p = some m ∧ ∀ e ∈ later, ¬ Touches p e) ∨
      ∃ after between e, later = after ++ e :: between ∧
        (∀ x ∈ between, ¬ Touches p x) ∧
        (e = .received p m ∨ ∃ n, e = .created p n)
  received : ∀ {p m later earlier}, k.log = later ++ .received p m :: earlier →
    ∃ between older, earlier = between ++ .sent p m :: older ∧
      ∀ e ∈ between, ¬ Touches p e
  awake : ∀ {p m}, k.slot p = some m →
    k.state p ≠ .recv ∧ k.state p ≠ .rectim
  accepted : ∀ {p m}, (k.send p m).2 = OK →
    ∃ w, (k.send p m).1.log = w ++ .sent p m :: k.log ∧
      ∀ x, ∀ ev ∈ w, ¬ Touches x ev
  rejected : ∀ {p m}, (k.send p m).2 = SYSERR → (k.send p m).1 = k
  calls : ∀ {c m k'}, c.Receives → k.slot k.currpid = some m →
    step k (.call c) = some k' → k' = k.fetch k.currpid ∧
      k'.log = .received k.currpid m :: k.log
  clears : k.recvclr.2 = (k.slot k.currpid).getD OK
  returns : ∀ {rest k'}, k.context = .receiveRet :: rest →
    step k .cont = some k' → ∃ m, k.slot k.currpid = some m ∧
      k'.log = .received k.currpid m :: k.log
  expires : ∀ {rest k'}, k.context = .recvtimeRet :: rest →
    step k .cont = some k' → k'.log = (match k.slot k.currpid with
      | some m => .received k.currpid m
      | none => .timedOut k.currpid) :: k.log

section Law

variable {mem : Memory} {memlistAddr imageEnd : Word}
variable {k₀ k k' : Kernel Queuetab} {m : Word}

theorem slot_eq_some (hslot : k.slot k.currpid = some m) :
    (k.proctab k.currpid).prhasmsg = true ∧
      (k.proctab k.currpid).prmsg = m := by
  unfold Kernel.slot Procent.slot at hslot
  split_ifs at hslot with hfull
  exact ⟨hfull, Option.some.inj hslot⟩

theorem slot_of_full (hfull : (k.proctab k.currpid).prhasmsg = true) :
    k.slot k.currpid = some (k.proctab k.currpid).prmsg := by
  unfold Kernel.slot Procent.slot
  rw [if_pos hfull]

theorem slot_of_empty (hempty : ¬ (k.proctab k.currpid).prhasmsg = true) :
    k.slot k.currpid = none := by
  unfold Kernel.slot Procent.slot
  rw [if_neg hempty]

/-- A process with a message gets it from whatever call it makes. -/
theorem perform_receives
    {c : Call} (hc : c.Receives) (hslot : k.slot k.currpid = some m) :
    k.perform c = some (k.fetch k.currpid) := by
  obtain ⟨hfull, -⟩ := slot_eq_some hslot
  have hnot : ¬ (k.proctab k.currpid).prhasmsg = false := by simp [hfull]
  cases c with
  | receive =>
      rw [Kernel.perform, Kernel.receive, if_neg hnot]
  | recvclr =>
      rw [Kernel.perform, Kernel.recvclr, if_pos hfull]
  | recvtime maxwait =>
      rw [Kernel.perform, Kernel.recvtime, if_neg (not_lt.mpr hc), if_neg hnot,
        Kernel.fetchOrTimeout, if_pos hfull]
  | _ => exact absurd hc not_false

theorem step_call
    {c : Call} (hstep : step k (.call c) = some k') : k.perform c = some k' := by
  have hperform : (if k.currpid = NULLPROC ∧ c.nonblocking = false then none
      else k.perform c) = some k' → k.perform c = some k' := by
    intro h
    split_ifs at h
    exact h
  unfold step at hstep
  split_ifs at hstep
  cases hctx : k.context with
  | nil =>
      rw [hctx] at hstep
      exact hperform hstep
  | cons frame rest =>
      rw [hctx] at hstep
      cases frame <;> try cases hstep
      exact hperform hstep

theorem step_cont
    {frame : Frame} {rest : List Frame} (hctx : k.context = frame :: rest)
    (hstep : step k .cont = some k') : k.proceed frame = some k' := by
  unfold step at hstep
  rw [hctx] at hstep
  split_ifs at hstep
  exact hstep

theorem popFrame_entry (k : Kernel Queuetab) :
    ((k.popFrame k.currpid).proctab k.currpid).prmsg =
        (k.proctab k.currpid).prmsg ∧
      ((k.popFrame k.currpid).proctab k.currpid).prhasmsg =
        (k.proctab k.currpid).prhasmsg := by
  rw [popFrame, proctab_setProc_self]
  exact ⟨rfl, rfl⟩

theorem mailboxLaw_of_mailInv
    {a : Kernel QueueLists} {t : Queuetab} (ha : Settled a) (h : MailInv a) :
    MailboxLaw (a.withTable t) := by
  have hslot : ∀ p, mailbox p (a.withTable t).log =
      some ((a.withTable t).slot p) := fun p => (h p).slot
  constructor
  · exact hslot
  · intro p m later earlier hlog
    exact mailbox_sent (hlog ▸ hslot p)
  · intro p m later earlier hlog
    exact mailbox_received (hlog ▸ hslot p)
  · intro p m hm
    refine (h p).awake ?_
    unfold Kernel.slot Procent.slot at hm
    split_ifs at hm with hfull
    exact hfull
  · exact log_send _ _
  · exact send_rejected _ _
  · intro c m k' hc hm hstep
    have hk : some ((a.withTable t).fetch (a.withTable t).currpid) = some k' :=
      (perform_receives hc hm).symm.trans (step_call hstep)
    cases hk
    refine ⟨rfl, ?_⟩
    rw [← (slot_eq_some hm).2]
    rfl
  · unfold Kernel.recvclr
    split_ifs with hfull
    · rw [slot_of_full hfull]
      rfl
    · rw [slot_of_empty hfull]
      rfl
  · intro rest k' hctx hstep
    have hk := step_cont hctx hstep
    have hhead : (a.proctab a.currpid).prctx.head? = some .receiveRet := by
      rw [show (a.proctab a.currpid).prctx = _ from hctx]
      rfl
    have hfull : (a.proctab a.currpid).prhasmsg = true := by
      rcases (h a.currpid).ret hhead with hfull | hrecv
      · exact hfull
      · rw [show (a.proctab a.currpid).prstate = .curr from ha.running] at hrecv
        cases hrecv
    refine ⟨_, slot_of_full (k := a.withTable t) hfull, ?_⟩
    cases hk
    show Event.received _ _ :: _ = _
    rw [(popFrame_entry (a.withTable t)).1]
    rfl
  · intro rest k' hctx hstep
    have hk := step_cont hctx hstep
    obtain ⟨hmsg, hhas⟩ := popFrame_entry (a.withTable t)
    cases hk
    unfold Kernel.fetchOrTimeout
    rw [hhas]
    by_cases hfull : (a.proctab a.currpid).prhasmsg = true
    · rw [if_pos (show ((a.withTable t).proctab
        (a.withTable t).currpid).prhasmsg = true from hfull),
        slot_of_full (k := a.withTable t) hfull]
      show Event.received _ _ :: _ = _
      rw [hmsg]
      rfl
    · rw [if_neg (show ¬ ((a.withTable t).proctab
        (a.withTable t).currpid).prhasmsg = true from hfull),
        slot_of_empty (k := a.withTable t) hfull]
      rfl

theorem boot_mailInv (heap : Heap) (stk : Word) :
    MailInv (bootKernel emptyLists heap stk) := by
  intro p
  have hctx := boot_prctx heap stk p
  have hmsg : ((bootKernel emptyLists heap stk).proctab p).prhasmsg = false := by
    unfold bootKernel
    by_cases hp : p = NULLPROC
    · simp [hp, nullEntry, freeEntry]
    · simp [hp, freeEntry]
  refine ⟨?_, ?_, ?_, ?_⟩
  · rw [Procent.slot, hmsg]
    rfl
  · rw [hmsg]
    intro hfull
    cases hfull
  · rw [hctx]
    intro hhead
    cases hhead
  · rw [hctx]
    simp

/-- In every run the message fields of the process table refine one mailbox of
one slot for each process. -/
theorem messages_refine_mailboxes
    (hboot : sysinit mem memlistAddr imageEnd = some k₀)
    (hreach : Reach step (fun _ _ => True) k₀ k) : MailboxLaw k := by
  obtain ⟨a, t, rfl, -, ha, h⟩ := run_invariant_of_moves hboot hreach MailInv
    boot_mailInv fun _ _ _ hq hinv hmove => hmove.mailInv hq hinv
  exact mailboxLaw_of_mailInv ha h

end Law

/-- A run in which a message wakes a waiting process. -/
theorem messages_refine_mailboxes_linkedBoot :
    ∃ k₀ k, sysinit (fun _ => 0) 0x121C30 0x143000 = some k₀ ∧
      Reach step (fun _ _ => True) k₀ k ∧
      (k.currpid, k.slot 1, k.context) = (1, some 7, [.receiveRet]) ∧
      MailboxLaw k := by
  obtain ⟨k₀, k, hboot, hreach, hview⟩ := linkedBoot_run
    (fun _ _ => True) (fun k => (k.currpid, k.slot 1, k.context))
    [.call (.create 0 1000 20 []), .call (.resume 1), .call .receive,
      .call (.send 1 7)]
    (v := (1, some 7, [.receiveRet])) (by decide +kernel)
    (allowed_of_forall fun _ _ _ => trivial)
  exact ⟨k₀, k, hboot, hreach, hview, messages_refine_mailboxes hboot hreach⟩

end Xinu
