import Xinu.Effects

/-!
# The shell and its foreground command

The shell creates a process for each command, clears its mailbox, resumes the
child and, for a foreground command, receives messages until one is the child's
identifier.  The message is sent by `kill` when the child exits.  The other
processes run the kernel freely; the shell follows shell.c, whose place is kept
beside the state of the kernel.
-/

namespace Xinu

open ByteMemory TransitionSystem Kernel

namespace Shell

/-! ## shell.c -/

/-- Where the shell is.  `serial` tells the child from a later process with the
same identifier, and `backgnd` is set by a final ampersand. -/
inductive Place where
  | prompt
  | spawned (child : ℤ) (serial : ℕ) (backgnd : Bool)
  | cleared (child : ℤ) (serial : ℕ) (backgnd : Bool)
  | waiting (child : ℤ) (serial : ℕ)
  | gone
  deriving DecidableEq

structure Session where
  kernel : Kernel Queuetab
  shell : ℤ
  place : Place

/-- A step of another process, of the clock or of a device, or the next call of
the shell. -/
inductive Act where
  | other (action : Action)
  | spawn (funcaddr : Word) (args : List Word) (backgnd : Bool)
  | redirect (i : ℕ) (descrp : ℤ)
  /-- `addargs` fails, and the shell goes on with the next command. -/
  | giveUp
  | recvclr
  | resume
  | receive
  /-- `receive` returns after a wait. -/
  | resumed
  deriving DecidableEq

def SHELL_CMDSTK : Word := 8192

def SHELL_CMDPRIO : Int16 := 20

/-- Between the creation of a child and the next prompt. -/
def Place.busy : Place → Bool
  | .spawned _ _ _ | .cleared _ _ _ | .waiting _ _ => true
  | _ => false

/-- The foreground child that the shell waits for or is about to wait for, from
the time the mailbox has been cleared. -/
def Place.awaited : Place → Option (ℤ × ℕ)
  | .cleared child serial false | .waiting child serial => some (child, serial)
  | _ => none

/-- The message that `kill` sends for a process. -/
def notice (pid : ℤ) : Word := BitVec.ofInt 32 pid

namespace Session

variable (σ : Session)

/-- The action continues the shell's own program. -/
def Own : Action → Prop
  | .call _ => σ.kernel.currpid = σ.shell
  | .cont => σ.kernel.currpid = σ.shell ∧
      (σ.kernel.context.head? = some .receiveRet ∨
        σ.kernel.context.head? = some .recvtimeRet)
  | _ => False

/-- `while (msg != child)`. -/
def answered (child : ℤ) (serial : ℕ) : Place :=
  if (σ.kernel.proctab σ.shell).prmsg = notice child then .prompt
  else .waiting child serial

/-- The shell makes a call and is at `place` afterwards. -/
def issue (call : Call) (place : Place) : Option Session :=
  if σ.kernel.currpid = σ.shell ∧ σ.kernel.context = [] then
    (step σ.kernel (.call call)).map fun kernel =>
      { σ with kernel := kernel, place := place }
  else none

end Session

instance (σ : Session) : (action : Action) → Decidable (σ.Own action)
  | .call _ => inferInstanceAs (Decidable (_ = _))
  | .cont => inferInstanceAs (Decidable (_ ∧ (_ ∨ _)))
  | .tick | .closeDone => inferInstanceAs (Decidable False)

def next (σ : Session) : Act → Option Session
  | .other action =>
      if σ.place.busy ∧ σ.Own action then none
      else
        (step σ.kernel action).map fun kernel =>
          { σ with
            kernel := kernel
            place := if Buries σ.shell σ.kernel action then .gone else σ.place }
  | .spawn funcaddr args backgnd =>
      if σ.place = .prompt then
        (σ.kernel.create funcaddr SHELL_CMDSTK SHELL_CMDPRIO args).bind
          fun (kernel, child) =>
            σ.issue (.create funcaddr SHELL_CMDSTK SHELL_CMDPRIO args)
              (if child = SYSERR.toInt then .prompt
              else .spawned child (kernel.proctab child).serial backgnd)
      else none
  | .redirect i descrp =>
      match σ.place with
      | .spawned child _ _ => σ.issue (.setdesc child i descrp) σ.place
      | _ => none
  | .giveUp =>
      match σ.place with
      | .spawned _ _ _ => some { σ with place := .prompt }
      | _ => none
  | .recvclr =>
      match σ.place with
      | .spawned child serial backgnd =>
          σ.issue .recvclr (.cleared child serial backgnd)
      | _ => none
  | .resume =>
      match σ.place with
      | .cleared child serial backgnd =>
          σ.issue (.resume child)
            (if backgnd then .prompt else .waiting child serial)
      | _ => none
  | .receive =>
      match σ.place with
      | .waiting child serial =>
          σ.issue .receive
            (if (σ.kernel.proctab σ.shell).prhasmsg then
              σ.answered child serial
            else σ.place)
      | _ => none
  | .resumed =>
      match σ.place with
      | .waiting child serial =>
          if σ.kernel.currpid = σ.shell ∧
              σ.kernel.context.head? = some .receiveRet then
            (step σ.kernel .cont).map fun kernel =>
              { σ with kernel := kernel, place := σ.answered child serial }
          else none
      | _ => none

/-! ## Notifications -/

/-- The foreground child is dead, the shell still waits for it, and its
notification is not in the mailbox.  `kill` sends before it frees the entry, so
none is still to be sent. -/
def Lost (σ : Session) : Prop :=
  ∃ child serial, σ.place = .waiting child serial ∧
    (σ.kernel.state child = .free ∨
      (σ.kernel.proctab child).serial ≠ serial) ∧
    σ.kernel.slot σ.shell ≠ some (notice child)

/-- The child of the shell is alive and nobody has begun to kill it. -/
structure Unharmed (σ : Session) (child : ℤ) (serial : ℕ) : Prop where
  live : σ.kernel.state child ≠ .free
  serial : (σ.kernel.proctab child).serial = serial
  parent : (σ.kernel.proctab child).prparent = σ.shell
  kills : ∀ i < NPROC.toNat, ¬ σ.kernel.Killing child i

/-- The foreground child whose notification may arrive too early. -/
def Place.unclear : Place → Option (ℤ × ℕ)
  | .spawned child serial false => some (child, serial)
  | _ => none

/-- The condition on runs: the child is unharmed when the shell clears its
mailbox, and a kill of it that begins later finds the mailbox empty, or with the
notification already in it. -/
def Heard (σ : Session) : Act → Prop
  | .recvclr => ∀ p ∈ σ.place.unclear, Unharmed σ p.1 p.2
  | .other (.call (.kill v)) => ∀ p ∈ σ.place.awaited, p.1 = v →
      σ.kernel.slot σ.shell = none ∨ σ.kernel.slot σ.shell = some (notice v)
  | _ => True

instance (σ : Session) (child : ℤ) (serial : ℕ) :
    Decidable (Unharmed σ child serial) :=
  decidable_of_iff
    (σ.kernel.state child ≠ .free ∧
      (σ.kernel.proctab child).serial = serial ∧
      (σ.kernel.proctab child).prparent = σ.shell ∧
      ∀ i < NPROC.toNat, child ∉ (σ.kernel.proctab i).kills.map Prod.fst)
    ⟨fun ⟨hlive, hserial, hparent, hkills⟩ => ⟨hlive, hserial, hparent, hkills⟩,
      fun h => ⟨h.live, h.serial, h.parent, h.kills⟩⟩

instance (σ : Session) : (act : Act) → Decidable (Heard σ act)
  | .recvclr =>
      inferInstanceAs (Decidable (∀ p ∈ σ.place.unclear, Unharmed σ p.1 p.2))
  | .other (.call (.kill v)) =>
      inferInstanceAs (Decidable (∀ p ∈ σ.place.awaited, p.1 = v →
        σ.kernel.slot σ.shell = none ∨
          σ.kernel.slot σ.shell = some (notice v)))
  | .other (.call (.create ..)) | .other (.call (.resume _))
  | .other (.call (.suspend _)) | .other (.call .yield)
  | .other (.call (.chprio ..)) | .other (.call (.sleep _))
  | .other (.call (.sleepms _)) | .other (.call (.recvtime _))
  | .other (.call (.send ..)) | .other (.call .receive)
  | .other (.call .recvclr) | .other (.call (.wait _))
  | .other (.call (.signal _)) | .other (.call (.signaln ..))
  | .other (.call (.semcreate _)) | .other (.call (.semdelete _))
  | .other (.call (.semreset ..)) | .other (.call (.getmem _))
  | .other (.call (.freemem ..)) | .other (.call (.setdesc ..))
  | .other .cont | .other .tick | .other .closeDone | .spawn .. | .redirect ..
  | .giveUp | .resume | .receive | .resumed => inferInstanceAs (Decidable True)

/-! ## The invariant -/

section Invariant

variable {σ σ' : Session} {act : Act} {action : Action} {child : ℤ} {serial : ℕ}

/-- The shell can still hear of the end of its child. -/
structure Awaits (σ : Session) (child : ℤ) (serial : ℕ) : Prop where
  shellId : ProcId σ.shell
  shellLive : σ.kernel.state σ.shell ≠ .free
  news : σ.kernel.slot σ.shell = some (notice child) ∨
    Unharmed σ child serial ∨
      (σ.kernel.halted = true ∧ σ.kernel.state child ≠ .free ∧
        (σ.kernel.proctab child).serial = serial)

theorem Awaits.not_lost
    (h : ∀ p ∈ σ.place.awaited, Awaits σ p.1 p.2) : ¬ Lost σ := by
  rintro ⟨child, serial, hplace, hdead, hslot⟩
  have haw : Awaits σ child serial := h (child, serial) (by rw [hplace]; rfl)
  rcases haw.news with hnews | hun | ⟨-, hlive, hserial⟩
  · exact hslot hnews
  · rcases hdead with hdead | hdead
    · exact hun.live hdead
    · exact hdead hun.serial
  · rcases hdead with hdead | hdead
    · exact hlive hdead
    · exact hdead hserial

theorem Unharmed.spared
    (h : Unharmed σ child serial) {m : Option ℤ} (hshell : σ'.shell = σ.shell)
    (hspares : Spares child m child σ.kernel σ'.kernel) :
    Unharmed σ' child serial where
  live := hspares.live h.live
  serial := hspares.serial.trans h.serial
  parent := by rw [hspares.parent, h.parent, hshell]
  kills := fun i hi hkill => h.kills i hi (hspares.kills i hkill)

theorem Unharmed.not_buries
    (h : Unharmed σ child serial) (hid : ProcId σ.kernel.currpid) :
    ¬ Buries child σ.kernel action := by
  cases action with
  | cont =>
      intro hbury
      obtain ⟨i, hcurr, hi⟩ := hid.index
      refine h.kills i (Finset.mem_range.mp hi) ?_
      rw [← hcurr, killing_iff]
      unfold Buries context at hbury
      cases hctx : (σ.kernel.proctab σ.kernel.currpid).prctx with
      | nil =>
          rw [hctx] at hbury
          cases hbury
      | cons frame rest =>
          rw [hctx] at hbury
          cases frame with
          | kill w s j =>
              simp only [Frame.buries, Bool.and_eq_true, decide_eq_true_eq]
                at hbury
              exact ⟨s, j, by rw [hbury.1]; simp⟩
          | _ => cases hbury
  | _ => exact not_false

/-- `send` to a process with an empty mailbox. -/
theorem send_delivers
    {k : Kernel Queuetab} {p : ℤ} {msg : Word} (hid : ProcId p)
    (hlive : k.state p ≠ .free) (hempty : k.slot p = none) :
    (k.send p msg).1.slot p = some msg := by
  have hbad : ¬ k.isbadpid p = true := by
    unfold ProcId at hid
    simp [isbadpid, hlive]
    omega
  have hnone : ¬ (k.proctab p).prhasmsg = true := by
    intro hfull
    rw [Kernel.slot, Procent.slot, if_pos hfull] at hempty
    cases hempty
  have hdeposit : (k.deposit p msg).slot p = some msg := by
    rw [Kernel.slot, Kernel.deposit, Procent.slot]
    simp [Kernel.note, Kernel.setProc]
  have hlive' : (k.deposit p msg).state p ≠ .free := by
    rw [state_deposit]
    exact hlive
  have hkeep : ∀ {k' : Kernel Queuetab},
      Does (fun _ => False) (k.deposit p msg) k' → k'.slot p = some msg := by
    intro k' hdoes
    have hspares : Spares p (some p) p (k.deposit p msg) k' := by
      refine hdoes.spares not_false (fun y hy => ?_) not_false hlive'
      rw [← Option.some.inj hy]
      exact ⟨not_false, hlive', not_false⟩
    exact hspares.full rfl hdeposit
  unfold Kernel.send
  rw [if_neg hbad, if_neg hnone]
  dsimp only
  split_ifs
  · exact hkeep .ready
  · exact hkeep (Does.unsleep.trans .ready)
  · exact hdeposit

/-- A kill that begins while the parent's mailbox is empty leaves its
notification there. -/
theorem kill_notifies
    {k : Kernel Queuetab} {v shell : ℤ} (hid : ProcId shell)
    (hlive : k.state shell ≠ .free)
    (hparent : (k.proctab v).prparent = shell)
    (hempty : k.slot shell = none) :
    (k.kill v).1 = k ∨ (k.kill v).1.halted = true ∨
      (k.kill v).1.slot shell = some (notice v) := by
  have hentry : ∀ y,
      (((({ k with prcount := k.prcount - 1 } : Kernel Queuetab).pushFrame
        k.currpid (.kill v (k.proctab v).serial 0)).proctab y).prparent =
          (k.proctab y).prparent) ∧
      (({ k with prcount := k.prcount - 1 } : Kernel Queuetab).pushFrame
        k.currpid (.kill v (k.proctab v).serial 0)).slot y = k.slot y := by
    intro y
    by_cases hy : y = k.currpid
    · subst hy
      simp [Kernel.slot, Procent.slot, Kernel.pushFrame, Kernel.setProc]
    · simp [Kernel.slot, Procent.slot, Kernel.pushFrame, Kernel.setProc, hy]
  unfold Kernel.kill
  dsimp only
  split_ifs
  · exact Or.inl rfl
  · exact Or.inr (Or.inl rfl)
  · rw [(hentry v).1, hparent]
    refine Or.inr (Or.inr (send_delivers hid ?_ ?_))
    · rw [state_pushFrame]
      exact hlive
    · rw [(hentry shell).2, hempty]

theorem not_buries_call {x : ℤ} {k : Kernel Queuetab} {c : Call} :
    ¬ Buries x k (.call c) := not_false

/-- The step of the kernel preserves what the shell waits for, unless the shell
takes its message or comes to its end. -/
theorem Awaits.step
    (h : Awaits σ child serial) (hvalid : ProcId σ.kernel.currpid)
    (hshell : σ'.shell = σ.shell)
    (htake : σ.shell = σ.kernel.currpid →
      ¬ touches σ.kernel action (.takes σ.shell))
    (hbury : ¬ Buries σ.shell σ.kernel action)
    (hheard : action = .call (.kill child) → σ.kernel.slot σ.shell = none ∨
      σ.kernel.slot σ.shell = some (notice child))
    (hstep : Xinu.step σ.kernel action = some σ'.kernel) :
    Awaits σ' child serial := by
  have hmail : ∀ y, some σ.shell = some y → σ.kernel.state y ≠ .free ∧
      ¬ Buries y σ.kernel action ∧
      (y = σ.kernel.currpid → ¬ touches σ.kernel action (.takes y)) := by
    intro y hy
    rw [← Option.some.inj hy]
    exact ⟨h.shellLive, hbury, htake⟩
  obtain ⟨v, hv⟩ : ∃ v, action ≠ .call (.kill v) := by
    by_cases hkill : action = .call (.kill child)
    · refine ⟨child + 1, fun heq => ?_⟩
      rw [hkill] at heq
      simp at heq
    · exact ⟨child, hkill⟩
  have hown : Spares σ.shell (some σ.shell) v σ.kernel σ'.kernel :=
    step_spares h.shellLive hmail hv hbury hstep
  refine ⟨hshell ▸ h.shellId, hshell ▸ hown.live h.shellLive, ?_⟩
  rw [hshell]
  rcases h.news with hnews | hun | ⟨hhalt, -⟩
  · exact Or.inl (hown.full rfl hnews)
  · by_cases hkill : action = .call (.kill child)
    · subst hkill
      have hkilled : (σ.kernel.kill child).1 = σ'.kernel :=
        Option.some.inj (step_call hstep)
      have hspared : Spares child none (child + 1) σ.kernel σ'.kernel :=
        step_spares hun.live (fun _ heq => by cases heq) (by simp)
          not_buries_call hstep
      rcases hheard rfl with hempty | hfull
      · rcases kill_notifies h.shellId h.shellLive hun.parent hempty with
          hsame | hhalt | hslot
        · refine Or.inr (Or.inl (hun.spared hshell (m := none) (.same ?_)))
          rw [← hkilled, hsame]
        · rw [hkilled] at hhalt
          exact Or.inr (Or.inr ⟨hhalt, hspared.live hun.live,
            hspared.serial.trans hun.serial⟩)
        · rw [hkilled] at hslot
          exact Or.inl hslot
      · exact Or.inl (hown.full rfl hfull)
    · exact Or.inr (Or.inl (hun.spared hshell (step_spares hun.live hmail
        hkill (hun.not_buries hvalid) hstep)))
  · unfold Xinu.step at hstep
    rw [hhalt, Bool.true_or, if_pos rfl] at hstep
    cases hstep

/-! ## The steps of the shell -/

theorem issue_spec
    {call : Call} {place : Place} (h : σ.issue call place = some σ') :
    σ.kernel.currpid = σ.shell ∧ σ.kernel.context = [] ∧
      σ'.shell = σ.shell ∧ σ'.place = place ∧
      Xinu.step σ.kernel (.call call) = some σ'.kernel := by
  unfold Session.issue at h
  split_ifs at h with hturn
  rw [Option.map_eq_some_iff] at h
  obtain ⟨kernel, hstep, rfl⟩ := h
  exact ⟨hturn.1, hturn.2, rfl, rfl, hstep⟩

theorem next_other (h : next σ (.other action) = some σ') :
    ¬ (σ.place.busy = true ∧ σ.Own action) ∧
      ∃ kernel, Xinu.step σ.kernel action = some kernel ∧
        { σ with
          kernel := kernel
          place := if Buries σ.shell σ.kernel action then .gone
            else σ.place } = σ' := by
  unfold next at h
  dsimp only at h
  by_cases hown : σ.place.busy = true ∧ σ.Own action
  · rw [if_pos hown] at h
    cases h
  · rw [if_neg hown, Option.map_eq_some_iff] at h
    exact ⟨hown, h⟩

/-- A step of the session is a step of the kernel, or none. -/
theorem next_kernel (h : next σ act = some σ') :
    σ'.kernel = σ.kernel ∨
      ∃ action, Xinu.step σ.kernel action = some σ'.kernel := by
  have hissue : ∀ {call place}, σ.issue call place = some σ' →
      ∃ action, Xinu.step σ.kernel action = some σ'.kernel :=
    fun hi => ⟨_, (issue_spec hi).2.2.2.2⟩
  cases act with
  | other action =>
      obtain ⟨-, kernel, hstep, rfl⟩ := next_other h
      exact Or.inr ⟨action, hstep⟩
  | spawn funcaddr args backgnd =>
      unfold next at h
      dsimp only at h
      split_ifs at h
      rw [Option.bind_eq_some_iff] at h
      obtain ⟨r, -, hi⟩ := h
      exact Or.inr (hissue hi)
  | giveUp =>
      unfold next at h
      dsimp only at h
      split at h
      · cases h
        exact Or.inl rfl
      · cases h
  | resumed =>
      unfold next at h
      dsimp only at h
      split at h
      · split_ifs at h
        rw [Option.map_eq_some_iff] at h
        obtain ⟨kernel, hstep, rfl⟩ := h
        exact Or.inr ⟨_, hstep⟩
      · cases h
  | redirect | recvclr | resume | receive =>
      unfold next at h
      dsimp only at h
      split at h
      · exact Or.inr (hissue h)
      · cases h

/-- An unharmed child stays unharmed while the shell takes a message. -/
theorem Unharmed.taken
    (h : Unharmed σ child serial) (hvalid : ProcId σ.kernel.currpid)
    (hshell : σ'.shell = σ.shell)
    (hkill : action ≠ .call (.kill child))
    (hstep : Xinu.step σ.kernel action = some σ'.kernel) :
    Unharmed σ' child serial :=
  h.spared hshell (m := none) (step_spares h.live (fun _ heq => by cases heq)
    hkill (h.not_buries hvalid) hstep)

/-- The shell takes a message that is not the notification. -/
theorem Awaits.taken
    (h : Awaits σ child serial) (hvalid : ProcId σ.kernel.currpid)
    (hshell : σ'.shell = σ.shell) (hkill : ∀ v, action ≠ .call (.kill v))
    (hbury : ¬ Buries σ.shell σ.kernel action)
    (hmsg : (σ.kernel.proctab σ.shell).prmsg ≠ notice child)
    (hstep : Xinu.step σ.kernel action = some σ'.kernel) :
    Awaits σ' child serial := by
  have hown : Spares σ.shell none child σ.kernel σ'.kernel :=
    step_spares h.shellLive (fun _ heq => by cases heq) (hkill child) hbury
      hstep
  refine ⟨hshell ▸ h.shellId, hshell ▸ hown.live h.shellLive, ?_⟩
  rcases h.news with hnews | hun | ⟨hhalt, -⟩
  · rw [Kernel.slot, Procent.slot] at hnews
    split_ifs at hnews
    exact absurd (Option.some.inj hnews) hmsg
  · exact Or.inr (Or.inl (hun.taken hvalid hshell (hkill child) hstep))
  · unfold Xinu.step at hstep
    rw [hhalt, Bool.true_or, if_pos rfl] at hstep
    cases hstep

theorem Place.busy_of_awaited {place : Place} {p : ℤ × ℕ}
    (hp : p ∈ place.awaited) : place.busy = true := by
  cases place with
  | prompt | spawned | gone => cases hp
  | cleared | waiting => rfl

theorem not_takes_of_not_own (h : ¬ σ.Own action)
    (hshell : σ.shell = σ.kernel.currpid) :
    ¬ touches σ.kernel action (.takes σ.shell) := by
  cases action with
  | call c => exact absurd hshell.symm h
  | cont =>
      rintro ⟨frame, hhead, htouch⟩
      refine h ⟨hshell.symm, ?_⟩
      rw [hhead]
      cases frame with
      | receiveRet => exact Or.inl rfl
      | recvtimeRet => exact Or.inr rfl
      | _ => simp [frameTouches] at htouch
  | tick | closeDone => exact not_false

/-- The child that the shell awaits after a step, it awaited before, or the
shell has just cleared its mailbox. -/
theorem awaits_next
    (hvalid : ProcId σ.kernel.currpid)
    (hrunning : σ.kernel.state σ.kernel.currpid ≠ .free)
    (h : ∀ p ∈ σ.place.awaited, Awaits σ p.1 p.2) (hheard : Heard σ act)
    (hnext : next σ act = some σ') :
    ∀ p ∈ σ'.place.awaited, Awaits σ' p.1 p.2 := by
  intro p hp
  cases act with
  | other action =>
      obtain ⟨hown, kernel, hstep, rfl⟩ := next_other hnext
      dsimp only at hp
      split_ifs at hp with hbury
      · cases hp
      · have hnot : ¬ σ.Own action := fun ho => hown ⟨Place.busy_of_awaited hp, ho⟩
        refine (h p hp).step hvalid rfl (not_takes_of_not_own hnot) hbury ?_ hstep
        rintro rfl
        exact hheard p hp rfl
  | spawn funcaddr args backgnd =>
      unfold next at hnext
      dsimp only at hnext
      split_ifs at hnext
      rw [Option.bind_eq_some_iff] at hnext
      obtain ⟨r, -, hi⟩ := hnext
      rw [(issue_spec hi).2.2.2.1] at hp
      split_ifs at hp <;> cases hp
  | redirect i descrp =>
      unfold next at hnext
      dsimp only at hnext
      split at hnext
      next child serial backgnd hplace =>
        rw [(issue_spec hnext).2.2.2.1, hplace] at hp
        cases hp
      next => cases hnext
  | giveUp =>
      unfold next at hnext
      dsimp only at hnext
      split at hnext
      · cases hnext
        cases hp
      · cases hnext
  | recvclr =>
      unfold next at hnext
      dsimp only at hnext
      split at hnext
      next child serial backgnd hplace =>
        obtain ⟨hcurr, -, hshell, hplace', hstep⟩ := issue_spec hnext
        rw [hplace'] at hp
        cases backgnd with
        | true => cases hp
        | false =>
            cases hp
            have hun : Unharmed σ child serial :=
              hheard (child, serial) (by rw [hplace]; rfl)
            have hlive : Spares σ.shell none child σ.kernel σ'.kernel :=
              step_spares (hcurr ▸ hrunning) (fun _ heq => by cases heq)
                (by simp) not_buries_call hstep
            refine ⟨hshell ▸ hcurr ▸ hvalid,
              hshell ▸ hlive.live (hcurr ▸ hrunning), ?_⟩
            exact Or.inr (Or.inl (hun.taken hvalid hshell (by simp) hstep))
      next => cases hnext
  | resume =>
      unfold next at hnext
      dsimp only at hnext
      split at hnext
      next child serial backgnd hplace =>
        obtain ⟨hcurr, -, hshell, hplace', hstep⟩ := issue_spec hnext
        rw [hplace'] at hp
        cases backgnd with
        | true => cases hp
        | false =>
            cases hp
            have haw : Awaits σ child serial :=
              h (child, serial) (by rw [hplace]; rfl)
            exact haw.step hvalid hshell (fun _ htake => by cases htake)
              not_buries_call (by simp) hstep
      next => cases hnext
  | receive =>
      unfold next at hnext
      dsimp only at hnext
      split at hnext
      next child serial hplace =>
        obtain ⟨hcurr, -, hshell, hplace', hstep⟩ := issue_spec hnext
        have haw : Awaits σ child serial :=
          h (child, serial) (by rw [hplace]; rfl)
        rw [hplace'] at hp
        split_ifs at hp with hfull
        · unfold Session.answered at hp
          split_ifs at hp with hmsg
          · cases hp
          · cases hp
            exact haw.taken hvalid hshell (by simp) not_buries_call hmsg hstep
        · rw [hplace] at hp
          cases hp
          refine haw.step hvalid hshell (fun hs htake => hfull ?_)
            not_buries_call (by simp) hstep
          rw [hs]
          exact htake.1
      next => cases hnext
  | resumed =>
      unfold next at hnext
      dsimp only at hnext
      split at hnext
      next child serial hplace =>
        have haw : Awaits σ child serial :=
          h (child, serial) (by rw [hplace]; rfl)
        split_ifs at hnext with hturn
        rw [Option.map_eq_some_iff] at hnext
        obtain ⟨kernel, hstep, rfl⟩ := hnext
        dsimp only at hp
        unfold Session.answered at hp
        split_ifs at hp with hmsg
        · cases hp
        · cases hp
          refine haw.taken hvalid rfl (by simp) ?_ hmsg hstep
          intro hbury
          rw [Buries] at hbury
          cases hctx : σ.kernel.context with
          | nil =>
              rw [hctx] at hbury
              cases hbury
          | cons frame rest =>
              rw [hctx] at hbury hturn
              cases hturn.2
              cases hbury
      next => cases hnext

end Invariant

/-! ## Runs -/

section Runs

variable {mem : Memory} {memlistAddr imageEnd : Word}
variable {k₀ k : Kernel Queuetab} {shell : ℤ} {σ : Session}

/-- The wait of the shell does not lose the exit of its foreground child in a
run in which every notification of that child finds room in the mailbox. -/
theorem foreground_exit_heard
    (hboot : sysinit mem memlistAddr imageEnd = some k₀)
    (hk : Reach step (fun _ _ => True) k₀ k)
    (hrun : Reach next Heard ⟨k, shell, .prompt⟩ σ) : ¬ Lost σ := by
  apply Awaits.not_lost
  have hinv := hrun.invariant (fun σ => Reach step (fun _ _ => True) k₀ σ.kernel ∧
    ∀ p ∈ σ.place.awaited, Awaits σ p.1 p.2) ?_ ?_
  · exact hinv.2
  · refine ⟨hk, ?_⟩
    intro p hp
    cases hp
  · rintro σ act σ' ⟨hreach, haw⟩ hheard hnext
    obtain ⟨lists, hlists⟩ := queues_consistent hboot hreach
    have hrunning : σ.kernel.state σ.kernel.currpid = .curr :=
      hlists.current.mpr rfl
    refine ⟨?_, awaits_next hlists.valid (by rw [hrunning]; simp) haw hheard
      hnext⟩
    rcases next_kernel hnext with hsame | ⟨action, hstep⟩
    · rw [hsame]
      exact hreach
    · exact hreach.next action trivial hstep

/-- A run of the linked image that goes on with a session of a shell. -/
theorem linkedBoot_session
    {α : Type} (allowed : Session → Act → Prop)
    [∀ σ act, Decidable (allowed σ act)] {w : α} (shell : ℤ)
    (view : Session → α)
    (actions : List Action) (acts : List Act)
    (hview : ((linkedBoot.bind fun k => run step k actions).bind fun k =>
      run (fun σ act => if allowed σ act then next σ act else none)
        ⟨k, shell, .prompt⟩ acts).map view = some w) :
    ∃ k₀ k σ, sysinit (fun _ => 0) 0x121C30 0x143000 = some k₀ ∧
      Reach step (fun _ _ => True) k₀ k ∧
      Reach next allowed ⟨k, shell, .prompt⟩ σ ∧ view σ = w := by
  rw [Option.map_eq_some_iff] at hview
  obtain ⟨σ, hacts, hw⟩ := hview
  rw [Option.bind_eq_some_iff] at hacts
  obtain ⟨k, hactions, hacts⟩ := hacts
  rw [Option.bind_eq_some_iff] at hactions
  obtain ⟨k₀, hboot, hactions⟩ := hactions
  exact ⟨k₀, k, σ, hboot, Reach.run actions .start
    (allowed_of_forall (fun _ _ _ => trivial) k₀) hactions,
    Reach.run_checked acts .start hacts, hw⟩

end Runs

/-- The foreground child exits before the shell calls `receive`. -/
theorem foreground_exit_heard_early :
    ∃ k₀ k σ, sysinit (fun _ => 0) 0x121C30 0x143000 = some k₀ ∧
      Reach step (fun _ _ => True) k₀ k ∧
      Reach next Heard ⟨k, 1, .prompt⟩ σ ∧
      (σ.place, σ.kernel.state 2, σ.kernel.slot 1) =
        (.waiting 2 2, .free, some (notice 2)) ∧ ¬ Lost σ := by
  obtain ⟨k₀, k, σ, hboot, hk, hrun, hview⟩ := linkedBoot_session Heard 1
    (fun σ => (σ.place, σ.kernel.state 2, σ.kernel.slot 1))
    [.call (.create 0 4096 20 []), .call (.resume 1)]
    [.spawn 0x1000 [] false, .recvclr, .resume, .other (.call (.kill 2)),
      .other .cont, .other .cont, .other .cont, .other .cont]
    (w := (.waiting 2 2, .free, some (notice 2))) (by decide +kernel)
  exact ⟨k₀, k, σ, hboot, hk, hrun, hview, foreground_exit_heard hboot hk hrun⟩

/-- A shell of priority 20, as `main` creates it again, with a background child
2 and a foreground child 3 that wake at the same tick.  The exit of 2 fills the
mailbox and makes the shell ready behind 3, and the exit of 3 is not delivered. -/
theorem background_exit_hides_foreground_exit :
    ∃ k₀ k σ, sysinit (fun _ => 0) 0x121C30 0x143000 = some k₀ ∧
      Reach step (fun _ _ => True) k₀ k ∧
      Reach next (fun _ _ => True) ⟨k, 1, .prompt⟩ σ ∧ Lost σ ∧
      ∀ i < NPROC.toNat, ¬ σ.kernel.Killing 3 i := by
  obtain ⟨k₀, k, σ, hboot, hk, hrun, hview⟩ := linkedBoot_session
    (fun _ _ => True) 1
    (fun σ => (σ.shell, σ.place, σ.kernel.state 3, σ.kernel.slot 1,
      decide (∀ i < NPROC.toNat,
        3 ∉ (σ.kernel.proctab i).kills.map Prod.fst)))
    [.call (.create 0 4096 20 []), .call (.resume 1)]
    [.spawn 0x1000 [] true, .recvclr, .resume, .other (.call (.sleepms 2)),
      .spawn 0x1000 [] false, .recvclr, .resume, .other (.call (.sleepms 2)),
      .receive, .other .tick, .other .cont, .other .tick,
      .other (.call (.kill 2)), .other (.call (.kill 3)),
      .other .cont, .other .cont, .other .cont, .other .cont, .resumed]
    (w := (1, .waiting 3 3, .free, none, true)) (by decide +kernel)
  simp only [Prod.mk.injEq, decide_eq_true_eq] at hview
  obtain ⟨hshell, hplace, hfree, hslot, hkills⟩ := hview
  refine ⟨k₀, k, σ, hboot, hk, hrun, ⟨3, 3, hplace, Or.inl hfree, ?_⟩, ?_⟩
  · rw [hshell, hslot]
    simp
  · exact hkills

end Shell

end Xinu
