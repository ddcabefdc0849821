import Xinu.Ports

/-!
# The capacity of a port

Ports together with the table from which `ptcreate` takes their semaphores,
while other processes create and delete semaphores of their own.  A port that
has just been created or reset should accept as many messages as it was
created for.
-/

namespace Xinu.PortCapacity

open ByteMemory LinkedTable TransitionSystem Ports

def NSEM : ℕ := 120

/-- Which semaphores are allocated, and the next one to try. -/
structure SemTable where
  used : ℕ → Bool
  nextsem : ℕ

def newsemLoop : ℕ → SemTable → SemTable × Option ℕ
  | 0, t => (t, none)
  | n + 1, t =>
      let sem := t.nextsem
      let next := if t.nextsem + 1 ≥ NSEM then 0 else t.nextsem + 1
      if t.used sem then newsemLoop n { t with nextsem := next }
      else (⟨Function.update t.used sem true, next⟩, some sem)

/-- None stands for `SYSERR`. -/
def semcreate (t : SemTable) (count : ℤ) : SemTable × Option ℕ :=
  if count < 0 then (t, none) else newsemLoop NSEM t

def semdelete (t : SemTable) : Option ℕ → SemTable
  | none => t
  | some sem => { t with used := Function.update t.used sem false }

inductive Side
  | senders
  | receivers
  deriving DecidableEq

/-- Whether a port in this state still has a semaphore. -/
def owns : PtState → Side → Bool
  | .free, _ => false
  | .limbo false .senders, .senders => false
  | .limbo false .receivers, _ => false
  | _, _ => true

/-- `semid` are the fields `ptssem` and `ptrsem`.  `size` is the count that a
port was created with, and `opened` the port that the last step has created or
finished to reset. -/
structure PortSystem where
  ports : PortTable
  sems : SemTable
  semid : ℕ → Side → Option ℕ
  size : ℕ → ℤ
  opened : Option ℕ

namespace PortSystem

variable (s : PortSystem)

/-- `ptcreate`, which stores what `semcreate` returns. -/
def ptcreate (count : ℤ) : PortSystem × Option ℕ :=
  if count < 0 then ({ s with opened := none }, none)
  else
    match (s.ports.findPort NPORTS s.ports.ptnextid).2 with
    | none => ({ s with ports := s.ports.ptcreate count, opened := none }, none)
    | some ptnum =>
        let ssem := semcreate s.sems count
        let rsem := semcreate ssem.1 0
        ({ ports := s.ports.ptcreate count
           sems := rsem.1
           semid := Function.update s.semid ptnum fun
             | .senders => ssem.2
             | .receivers => rsem.2
           size := Function.update s.size ptnum count
           opened := some ptnum }, some ptnum)

/-- `ptsend`, whose `wait` fails on a port without the semaphore. -/
def ptsend (pid portid : ℤ) (msg : Word) : Option PortSystem :=
  if s.semid portid.toNat .senders = none then some { s with opened := none }
  else (s.ports.ptsend pid portid msg).map fun ports =>
    { s with ports := ports, opened := none }

def ptrecv (pid portid : ℤ) : Option PortSystem :=
  if s.semid portid.toNat .receivers = none then some { s with opened := none }
  else (s.ports.ptrecv pid portid).map fun ports =>
    { s with ports := ports, opened := none }

/-- The state after a step on the port `p`; the semaphores that it has given
up are free. -/
def after (p : ℕ) (ports : PortTable) : PortSystem :=
  let old := (s.ports.porttab p).ptstate
  let new := (ports.porttab p).ptstate
  let drop (side : Side) (t : SemTable) : SemTable :=
    if owns old side && !owns new side then semdelete t (s.semid p side) else t
  { s with
    ports := ports
    sems := drop .receivers (drop .senders s.sems)
    opened := if old = .limbo true .receivers ∧ new = .alloc then some p
      else none }

end PortSystem

/-- A step on ports, or of a process with semaphores of its own. -/
inductive SystemAction
  | port (action : PortAction)
  | semcreate (count : ℤ)
  | semdelete (sem : ℕ)

def PortSystem.Taken (s : PortSystem) (sem : ℕ) : Prop :=
  ∃ p < NPORTS, ∃ side ∈ [Side.senders, .receivers],
    owns (s.ports.porttab p).ptstate side = true ∧ s.semid p side = some sem

instance (s : PortSystem) (sem : ℕ) : Decidable (s.Taken sem) := by
  unfold PortSystem.Taken
  infer_instance

def systemStep (s : PortSystem) : SystemAction → Option PortSystem
  | .port (.ptcreate count) => some (s.ptcreate count).1
  | .port (.ptsend pid portid msg) =>
      if s.ports.Inside pid then none else s.ptsend pid portid msg
  | .port (.ptrecv pid portid) =>
      if s.ports.Inside pid then none else s.ptrecv pid portid
  | .port (.ptcount _) => some { s with opened := none }
  | .port (.ptreset portid) =>
      some (s.after portid.toNat (s.ports.ptreset portid))
  | .port (.ptdelete portid) =>
      some (s.after portid.toNat (s.ports.ptdelete portid))
  | .port (.resume portid c) =>
      (portStep s.ports (.resume portid c)).map (s.after portid)
  | .port (.proceed portid) =>
      (portStep s.ports (.proceed portid)).map (s.after portid)
  | .port (.kill portid c) =>
      (portStep s.ports (.kill portid c)).map (s.after portid)
  | .semcreate count =>
      some { s with sems := (semcreate s.sems count).1, opened := none }
  | .semdelete sem =>
      if s.Taken sem then none
      else some { s with sems := semdelete s.sems (some sem), opened := none }

/-- `ptinit`, when the semaphores are allocated in any way. -/
def systemStart (maxmsgs : ℕ) (sems : SemTable) : PortSystem where
  ports := ptinit maxmsgs
  sems := sems
  semid := fun _ _ => none
  size := fun _ => 0
  opened := none

/-! ## What a port should do -/

/-- Processes send messages to a port one after the other, and nothing else
happens. -/
def sendAll (p : ℕ) : List (ℤ × Word) → PortSystem → Option PortSystem
  | [], s => some s
  | (pid, msg) :: sends, s =>
      (s.ptsend pid p msg).bind (sendAll p sends)

/-- With enough message nodes the first `n` messages are accepted, and then
every sender waits. -/
def Accepts (s : PortSystem) (p n : ℕ) : Prop :=
  ∀ free, LinkedTable.Chain 0 s.ports.ptnext s.ports.ptfree free → free.Nodup →
    0 ∉ free → ∀ sends : List (ℤ × Word), min n sends.length ≤ free.length →
      ∃ s', sendAll p sends s = some s' ∧
        (s'.ports.porttab p).epoch.accepted = (sends.map Prod.snd).take n ∧
        (s'.ports.porttab p).ptssem.waiting.map Caller.pid =
          (sends.map Prod.fst).drop n

structure CapacityLaw (s : PortSystem) : Prop where
  /-- A port has two allocated semaphores of its own. -/
  semaphores : ∀ p < NPORTS, (s.ports.porttab p).ptstate = .alloc →
    ∃ i j, i ≠ j ∧ s.semid p .senders = some i ∧ s.semid p .receivers = some j ∧
      s.sems.used i = true ∧ s.sems.used j = true
  /-- After its creation and each reset it accepts the messages it is for. -/
  capacity : ∀ p, s.opened = some p → Accepts s p (s.size p).toNat

def SemTable.available (t : SemTable) : List ℕ :=
  (List.range NSEM).filter fun i => !t.used i

/-- A port that is free is created for a count that fits into `ptmaxcnt`, and
while two semaphores are free. -/
def Creatable (s : PortSystem) : SystemAction → Prop
  | .port (.ptcreate count) =>
      count < 0 ∨ (∀ p < NPORTS, (s.ports.porttab p).ptstate ≠ .free) ∨
        (count < 65536 ∧ 2 ≤ s.sems.available.length)
  | _ => True

instance (s : PortSystem) (action : SystemAction) :
    Decidable (Creatable s action) := by
  unfold Creatable
  split <;> infer_instance

/-! ## One port -/

/-- An empty port that lets its messages in. -/
structure Fresh (e : Ptentry) (size : ℤ) : Prop where
  ptssem : e.ptssem = .init size
  pttail : e.pttail = 0
  accepted : e.epoch.accepted = []

/-- What a port that is being cleared has kept or prepared. -/
def Ready (size : ℤ) (e : Ptentry) : PtState → Prop
  | .limbo _ (.dispose _) => e.ptssem.passed = []
  | .limbo true _ => Fresh e size
  | _ => True

structure Keeps (e : Ptentry) (size : ℤ) : Prop where
  maxcnt : e.ptstate ≠ .free → e.ptmaxcnt = size ∧ 0 ≤ size
  ready : Ready size e e.ptstate

section Entry

variable {e : Ptentry} {size count : ℤ} {c : Caller} {reset : Bool}
  {side : Side} {state : PtState} {a : CountingSemaphore Caller}

theorem Keeps.of_alloc (hmax : e.ptmaxcnt = size ∧ 0 ≤ size)
    (halloc : e.ptstate = .alloc) : Keeps e size where
  maxcnt := fun _ => hmax
  ready := by
    rw [halloc]
    trivial

theorem Ready.imp
    {e' : Ptentry} (h : Ready size e state)
    (hpassed : e.ptssem.passed = [] → e'.ptssem.passed = [])
    (hfresh : Fresh e size → Fresh e' size) : Ready size e' state := by
  match state with
  | .free => trivial
  | .alloc => trivial
  | .limbo _ (.dispose _) => exact hpassed h
  | .limbo true .senders => exact hfresh h
  | .limbo true .receivers => exact hfresh h
  | .limbo false .senders => trivial
  | .limbo false .receivers => trivial

/-- A change to the semaphores that an empty one does not notice. -/
theorem Keeps.move
    {b : CountingSemaphore Caller} {released : List Caller}
    (h : Keeps e size) (hvacant : Vacant e.ptssem → a = e.ptssem)
    (hpassed : e.ptssem.passed = [] → a.passed = []) :
    Keeps { e with ptssem := a, ptrsem := b, released := released } size where
  maxcnt := h.maxcnt
  ready := by
    apply h.ready.imp hpassed
    intro hf
    have ha : a = e.ptssem := by
      apply hvacant
      rw [hf.ptssem]
      exact ⟨rfl, rfl⟩
    exact ⟨ha.trans hf.ptssem, hf.pttail, hf.accepted⟩

theorem Keeps.leave (h : Keeps e size) : Keeps (e.leave c) size := by
  unfold Ptentry.leave
  cases c.msg with
  | some msg => exact h.move Vacant.goOn passed_goOn
  | none => exact h.move (fun _ => rfl) id

theorem Keeps.kill (h : Keeps e size) : Keeps (e.kill c) size :=
  h.move Vacant.kill passed_kill

@[simp] theorem leave_ptstate : (e.leave c).ptstate = e.ptstate := by
  unfold Ptentry.leave
  cases c.msg <;> rfl

@[simp] theorem leave_ptmaxcnt : (e.leave c).ptmaxcnt = e.ptmaxcnt := by
  unfold Ptentry.leave
  cases c.msg <;> rfl

@[simp] theorem wait_ptstate : (e.wait c).ptstate = e.ptstate := by
  unfold Ptentry.wait
  cases c.msg <;> rfl

@[simp] theorem wait_ptmaxcnt : (e.wait c).ptmaxcnt = e.ptmaxcnt := by
  unfold Ptentry.wait
  cases c.msg <;> rfl

/-- The semaphore of the senders starts again, or is given up. -/
theorem Keeps.clearSenders
    (hmax : e.ptmaxcnt = size ∧ 0 ≤ size) (hpassed : e.ptssem.passed = []) :
    Keeps (e.clearSenders reset) size where
  maxcnt := fun _ => hmax
  ready := by
    cases reset with
    | false => trivial
    | true =>
        have hsem : (semreset e.ptmaxcnt e.ptssem).1 = .init size := by
          unfold semreset CountingSemaphore.init
          rw [if_neg (by omega), hmax.1, hpassed]
        exact ⟨hsem, rfl, rfl⟩

theorem Keeps.clearReceivers
    (h : Keeps e size) (hstate : e.ptstate = .limbo reset .senders) :
    Keeps (e.clearReceivers reset) size where
  maxcnt := fun _ => h.maxcnt (by simp [hstate])
  ready := by
    have hready := h.ready
    rw [hstate] at hready
    cases reset with
    | false => trivial
    | true => exact ⟨hready.ptssem, hready.pttail, hready.accepted⟩

theorem Keeps.endClear
    (h : Keeps e size) (hstate : e.ptstate = .limbo reset .receivers) :
    Keeps { e with ptstate := if reset then .alloc else .free } size where
  maxcnt := fun _ => h.maxcnt (by simp [hstate])
  ready := by cases reset <;> trivial

theorem Keeps.create
    (hcount : 0 ≤ count) (hsmall : count < 65536) :
    Keeps (e.create count) count ∧ Fresh (e.create count) count := by
  have hmod : count % 65536 = count := Int.emod_eq_of_lt hcount hsmall
  exact ⟨Keeps.of_alloc ⟨hmod, hcount⟩ rfl, rfl, rfl, rfl⟩

end Entry

/-! ## Steps on one port -/

/-- A step that leaves the state of the port `p` and the other ports alone. -/
structure Steady (p : ℕ) (s s' : PortTable) : Prop where
  others : ∀ q, q ≠ p → s'.porttab q = s.porttab q
  nextid : s'.ptnextid = s.ptnextid
  state : (s'.porttab p).ptstate = (s.porttab p).ptstate
  kept : ∀ size, Keeps (s.porttab p) size → Keeps (s'.porttab p) size

section Table

variable {s s' s'' : PortTable} {p : ℕ} {c : Caller} {f : Ptentry → Ptentry}

theorem Steady.refl : Steady p s s :=
  ⟨fun _ _ => rfl, rfl, rfl, fun _ => id⟩

theorem Steady.trans (h : Steady p s s') (h' : Steady p s' s'') :
    Steady p s s'' where
  others := fun q hq => (h'.others q hq).trans (h.others q hq)
  nextid := h'.nextid.trans h.nextid
  state := h'.state.trans h.state
  kept := fun size hkeeps => h'.kept size (h.kept size hkeeps)

theorem Steady.modify
    (hstate : (f (s.porttab p)).ptstate = (s.porttab p).ptstate)
    (hkept : ∀ size, Keeps (s.porttab p) size → Keeps (f (s.porttab p)) size) :
    Steady p s (s.modify p f) where
  others := fun q hq => modify_porttab_of_ne hq
  nextid := rfl
  state := by rw [modify_porttab_self, hstate]
  kept := by rwa [modify_porttab_self]

theorem Steady.goOn (hgo : s.goOn p c = some s') : Steady p s s' := by
  have hleft : Steady p s (s.modify p (·.leave c)) :=
    Steady.modify leave_ptstate fun size hkeeps => hkeeps.leave
  apply hleft.trans
  unfold PortTable.goOn at hgo
  rw [Option.map_eq_some_iff] at hgo
  obtain ⟨⟨t, word⟩, hfinish, rfl⟩ := hgo
  generalize s.modify p (·.leave c) = m at hfinish
  unfold PortTable.finish at hfinish
  dsimp only at hfinish
  split at hfinish
  · cases hfinish
    exact Steady.refl
  rename_i hrefused
  have halloc : (m.porttab p).ptstate = .alloc := by tauto
  have hmodify : ∀ f : Ptentry → Ptentry,
      (f (m.porttab p)).ptstate = (m.porttab p).ptstate →
        (f (m.porttab p)).ptmaxcnt = (m.porttab p).ptmaxcnt →
          Steady p m (m.modify p f) := by
    intro f hstate hmax
    apply Steady.modify hstate
    intro size hkeeps
    apply Keeps.of_alloc _ (hstate.trans halloc)
    rw [hmax]
    exact hkeeps.maxcnt (by simp [halloc])
  split at hfinish
  next msg _ =>
    split_ifs at hfinish
    cases hfinish
    have h := hmodify (·.accept m.ptfree msg) rfl rfl
    exact ⟨h.others, rfl, h.state, h.kept⟩
  · cases hfinish
    have h := hmodify (·.deliver (m.ptnext (m.porttab p).pthead) c
      (m.ptmsg (m.porttab p).pthead)) rfl rfl
    exact ⟨h.others, rfl, h.state, h.kept⟩

theorem Steady.call
    {pid portid : ℤ} {msg : Option Word}
    (hcall : s.call pid portid msg = some s') :
    Steady portid.toNat s s' := by
  unfold PortTable.call at hcall
  dsimp only at hcall
  split_ifs at hcall with hbad halloc hblocks
  · cases hcall
    exact Steady.refl
  · cases hcall
    exact Steady.refl
  all_goals
    rw [not_not] at halloc
    have hwait : ∀ c, Steady portid.toNat s
        (s.modify portid.toNat (·.wait c)) := by
      intro c
      apply Steady.modify wait_ptstate
      intro size hkeeps
      apply Keeps.of_alloc _ (wait_ptstate.trans halloc)
      rw [wait_ptmaxcnt]
      exact hkeeps.maxcnt (by simp [halloc])
  · cases hcall
    exact hwait _
  · exact (hwait _).trans (Steady.goOn hcall)

theorem Steady.kill : Steady p s (s.modify p (·.kill c)) :=
  Steady.modify rfl fun _ hkeeps => hkeeps.kill

end Table

/-! ## The semaphore table -/

section Semaphores

variable {t : SemTable} {count : ℤ} {n i j : ℕ}

theorem newsemLoop_nextsem (ht : t.nextsem < NSEM) :
    (newsemLoop n t).1.nextsem < NSEM := by
  induction n generalizing t with
  | zero => exact ht
  | succ n ih =>
      have hnext : (if t.nextsem + 1 ≥ NSEM then 0 else t.nextsem + 1) < NSEM := by
        unfold NSEM at *
        split_ifs <;> omega
      unfold newsemLoop
      dsimp only
      by_cases hused : t.used t.nextsem = true
      · rw [if_pos hused]
        exact ih hnext
      · rw [if_neg hused]
        exact hnext

/-- A new semaphore was not allocated before. -/
theorem newsemLoop_some (h : (newsemLoop n t).2 = some i) :
    t.used i = false ∧
      (newsemLoop n t).1.used = Function.update t.used i true := by
  induction n generalizing t with
  | zero => cases h
  | succ n ih =>
      unfold newsemLoop at h ⊢
      dsimp only at h ⊢
      by_cases hused : t.used t.nextsem = true
      · rw [if_pos hused] at h ⊢
        exact ih h
      · rw [if_neg hused] at h ⊢
        cases h
        exact ⟨by simpa using hused, rfl⟩

/-- The loop that fails has seen only allocated semaphores. -/
theorem newsemLoop_none (ht : t.nextsem < NSEM) (h : (newsemLoop n t).2 = none) :
    (newsemLoop n t).1.used = t.used ∧
      ∀ j < n, t.used ((t.nextsem + j) % NSEM) = true := by
  induction n generalizing t with
  | zero => exact ⟨rfl, by simp⟩
  | succ n ih =>
      have hnext : (if t.nextsem + 1 ≥ NSEM then 0 else t.nextsem + 1) =
          (t.nextsem + 1) % NSEM := by
        unfold NSEM at *
        split_ifs <;> omega
      unfold newsemLoop at h ⊢
      dsimp only at h ⊢
      by_cases hused : t.used t.nextsem = true
      · rw [if_pos hused] at h ⊢
        rw [hnext] at h ⊢
        obtain ⟨hsame, hseen⟩ := ih (Nat.mod_lt _ (by decide)) h
        refine ⟨hsame, ?_⟩
        intro j hj
        cases j with
        | zero => rwa [Nat.add_zero, Nat.mod_eq_of_lt ht]
        | succ j =>
            have hseen' := hseen j (by omega)
            rw [Nat.mod_add_mod] at hseen'
            rwa [Nat.add_assoc, Nat.add_comm 1 j] at hseen'
      · rw [if_neg hused] at h
        cases h

theorem semcreate_nextsem (count : ℤ) (ht : t.nextsem < NSEM) :
    (semcreate t count).1.nextsem < NSEM := by
  unfold semcreate
  split_ifs
  · exact ht
  · exact newsemLoop_nextsem ht

theorem semcreate_some (h : (semcreate t count).2 = some i) :
    t.used i = false ∧
      (semcreate t count).1.used = Function.update t.used i true := by
  unfold semcreate at h ⊢
  split_ifs at h ⊢ with hcount
  exact newsemLoop_some h

theorem semcreate_used (ht : t.nextsem < NSEM) (hi : t.used i = true) :
    (semcreate t count).1.used i = true := by
  cases h : (semcreate t count).2 with
  | some j =>
      rw [(semcreate_some h).2, Function.update_apply]
      split_ifs
      · rfl
      · exact hi
  | none =>
      unfold semcreate at h ⊢
      split_ifs at h ⊢
      · exact hi
      · rwa [(newsemLoop_none ht h).1]

theorem semcreate_free
    (ht : t.nextsem < NSEM) (hcount : 0 ≤ count) (hi : i < NSEM)
    (hfree : t.used i = false) : ∃ j, (semcreate t count).2 = some j := by
  apply Option.ne_none_iff_exists'.mp
  intro hnone
  unfold semcreate at hnone
  rw [if_neg (by omega)] at hnone
  have hseen := (newsemLoop_none ht hnone).2 ((i + NSEM - t.nextsem) % NSEM)
    (Nat.mod_lt _ (by decide))
  have hplace : (t.nextsem + (i + NSEM - t.nextsem) % NSEM) % NSEM = i := by
    unfold NSEM at *
    omega
  rw [hplace, hfree] at hseen
  cases hseen

/-- Two unallocated semaphores are enough for a port. -/
theorem semcreate_twice
    (count : ℤ) (ht : t.nextsem < NSEM) (hcount : 0 ≤ count)
    (htwo : 2 ≤ t.available.length) :
    ∃ i j, i ≠ j ∧ (semcreate t count).2 = some i ∧
      (semcreate (semcreate t count).1 0).2 = some j := by
  have hnodup : t.available.Nodup := List.nodup_range.filter _
  obtain ⟨a, b, rest, heq⟩ : ∃ a b rest, t.available = a :: b :: rest := by
    match h : t.available with
    | [] => simp [h] at htwo
    | [_] => simp [h] at htwo
    | a :: b :: rest => exact ⟨a, b, rest, rfl⟩
  have hmem : ∀ x ∈ [a, b], x < NSEM ∧ t.used x = false := by
    intro x hx
    have hin : x ∈ t.available := by
      rw [heq]
      simp only [List.mem_cons, List.not_mem_nil, or_false] at hx ⊢
      tauto
    simpa [SemTable.available] using hin
  have hab : a ≠ b := by
    rw [heq] at hnodup
    simp at hnodup
    tauto
  obtain ⟨i, hi⟩ := semcreate_free ht hcount (hmem a (by simp)).1
    (hmem a (by simp)).2
  have hnext := semcreate_nextsem count ht
  obtain ⟨x, hx, hxi⟩ : ∃ x ∈ [a, b], x ≠ i := by
    by_cases ha : a = i
    · exact ⟨b, by simp, by rwa [← ha, ne_comm]⟩
    · exact ⟨a, by simp, ha⟩
  have hleft : (semcreate t count).1.used x = false := by
    rw [(semcreate_some hi).2, Function.update_of_ne hxi]
    exact (hmem x hx).2
  obtain ⟨j, hj⟩ := semcreate_free hnext (le_refl 0) (hmem x hx).1 hleft
  refine ⟨i, j, ?_, hi, hj⟩
  rintro rfl
  have hused := (semcreate_some hj).1
  rw [(semcreate_some hi).2, Function.update_self] at hused
  cases hused

end Semaphores

/-! ## The invariant -/

/-- Every port has semaphores of its own and keeps the count it is for. -/
structure SystemInv (s : PortSystem) : Prop where
  nextid : s.ports.ptnextid < NPORTS
  nextsem : s.sems.nextsem < NSEM
  kept : ∀ p < NPORTS, Keeps (s.ports.porttab p) (s.size p)
  owned : ∀ p < NPORTS, ∀ side,
    owns (s.ports.porttab p).ptstate side = true →
      ∃ i, s.semid p side = some i ∧ s.sems.used i = true
  apart : ∀ p < NPORTS, ∀ q < NPORTS, ∀ side side',
    owns (s.ports.porttab p).ptstate side = true →
      owns (s.ports.porttab q).ptstate side' = true →
        s.semid p side = s.semid q side' → p = q ∧ side = side'
  opened : ∀ p, s.opened = some p → p < NPORTS ∧
    (s.ports.porttab p).ptstate = .alloc ∧ Fresh (s.ports.porttab p) (s.size p)

section Invariant

variable {s : PortSystem} {ports : PortTable} {p maxmsgs : ℕ} {count : ℤ}

theorem SystemInv.steady
    (h : SystemInv s) (hsteady : Steady p s.ports ports) :
    SystemInv { s with ports := ports, opened := none } := by
  have hstate : ∀ q, (ports.porttab q).ptstate =
      (s.ports.porttab q).ptstate := by
    intro q
    by_cases hq : q = p
    · rw [hq, hsteady.state]
    · rw [hsteady.others q hq]
  constructor
  · exact hsteady.nextid ▸ h.nextid
  · exact h.nextsem
  · intro q hq
    by_cases hqp : q = p
    · rw [hqp] at hq ⊢
      exact hsteady.kept _ (h.kept p hq)
    · change Keeps (ports.porttab q) _
      rw [hsteady.others q hqp]
      exact h.kept q hq
  · intro q hq side hown
    exact h.owned q hq side (hstate q ▸ hown)
  · intro q hq r hr side side' hown hown'
    exact h.apart q hq r hr side side' (hstate q ▸ hown) (hstate r ▸ hown')
  · intro q hq
    cases hq

theorem SystemInv.idle (h : SystemInv s) : SystemInv { s with opened := none } :=
  h.steady (p := 0) Steady.refl

theorem SystemInv.semcreate (h : SystemInv s) :
    SystemInv { s with sems := (semcreate s.sems count).1, opened := none } where
  nextid := h.nextid
  nextsem := semcreate_nextsem _ h.nextsem
  kept := h.kept
  owned := fun q hq side hown => by
    obtain ⟨i, hi, hused⟩ := h.owned q hq side hown
    exact ⟨i, hi, semcreate_used h.nextsem hused⟩
  apart := h.apart
  opened := fun q hq => by cases hq

theorem SystemInv.semdelete
    {sem : ℕ} (h : SystemInv s) (hfree : ¬ s.Taken sem) :
    SystemInv { s with sems := semdelete s.sems (some sem), opened := none } where
  nextid := h.nextid
  nextsem := h.nextsem
  kept := h.kept
  owned := fun q hq side hown => by
    obtain ⟨i, hi, hused⟩ := h.owned q hq side hown
    refine ⟨i, hi, ?_⟩
    have hne : i ≠ sem := by
      rintro rfl
      apply hfree
      exact ⟨q, hq, side, by cases side <;> simp, hown, hi⟩
    change Function.update s.sems.used sem false i = true
    rwa [Function.update_of_ne hne]
  apart := h.apart
  opened := fun q hq => by cases hq

/-- Both semaphores of a port are given up at most once, and no other port
uses them. -/
theorem SystemInv.after
    {e : Ptentry} (h : SystemInv s) (hp : p < NPORTS)
    (hports : ports.porttab = Function.update s.ports.porttab p e)
    (hnext : ports.ptnextid < NPORTS) (hkept : Keeps e (s.size p))
    (howns : ∀ side, owns e.ptstate side = true →
      owns (s.ports.porttab p).ptstate side = true)
    (hopened : (s.ports.porttab p).ptstate = .limbo true .receivers →
      Fresh e (s.size p)) :
    SystemInv (s.after p ports) := by
  have hself : ports.porttab p = e := by rw [hports, Function.update_self]
  have hothers : ∀ q, q ≠ p → ports.porttab q = s.ports.porttab q := by
    intro q hq
    rw [hports, Function.update_of_ne hq]
  have hown : ∀ q < NPORTS, ∀ side, owns (ports.porttab q).ptstate side = true →
      owns (s.ports.porttab q).ptstate side = true := by
    intro q hq side hside
    by_cases hqp : q = p
    · rw [hqp] at hside ⊢
      exact howns side (hself ▸ hside)
    · rwa [← hothers q hqp]
  have hdrop : ∀ (t : SemTable) (side : Side),
      (if owns (s.ports.porttab p).ptstate side &&
          !owns (ports.porttab p).ptstate side
        then PortCapacity.semdelete t (s.semid p side) else t).nextsem =
          t.nextsem ∧
      ∀ q < NPORTS, ∀ side' i, owns (ports.porttab q).ptstate side' = true →
        s.semid q side' = some i → t.used i = true →
          (if owns (s.ports.porttab p).ptstate side &&
              !owns (ports.porttab p).ptstate side
            then PortCapacity.semdelete t (s.semid p side)
            else t).used i = true := by
    intro t side
    split_ifs with hgone
    · simp only [Bool.and_eq_true, Bool.not_eq_true'] at hgone
      obtain ⟨j, hj, -⟩ := h.owned p hp side hgone.1
      rw [hj]
      refine ⟨rfl, ?_⟩
      intro q hq side' i hside hi hused
      change Function.update t.used j false i = true
      have hne : i ≠ j := by
        rintro rfl
        obtain ⟨rfl, rfl⟩ := h.apart q hq p hp side' side
          (hown q hq side' hside) hgone.1 (hi.trans hj.symm)
        rw [hgone.2] at hside
        cases hside
      rwa [Function.update_of_ne hne]
    · exact ⟨rfl, fun _ _ _ _ _ _ hused => hused⟩
  unfold PortSystem.after
  dsimp only
  constructor
  · exact hnext
  · dsimp only
    rw [(hdrop _ .receivers).1, (hdrop _ .senders).1]
    exact h.nextsem
  · intro q hq
    by_cases hqp : q = p
    · rw [hqp, hself]
      exact hkept
    · change Keeps (ports.porttab q) _
      rw [hothers q hqp]
      exact h.kept q hq
  · intro q hq side hside
    obtain ⟨i, hi, hused⟩ := h.owned q hq side (hown q hq side hside)
    refine ⟨i, hi, ?_⟩
    apply (hdrop _ .receivers).2 q hq side i hside hi
    exact (hdrop _ .senders).2 q hq side i hside hi hused
  · intro q hq r hr side side' hside hside'
    exact h.apart q hq r hr side side' (hown q hq side hside)
      (hown r hr side' hside')
  · intro q hq
    dsimp only at hq
    split_ifs at hq with hreset
    cases hq
    exact ⟨hp, hreset.2, hself ▸ hopened hreset.1⟩

theorem SystemInv.after_steady
    (h : SystemInv s) (hsteady : Steady p s.ports ports) :
    SystemInv (s.after p ports) := by
  have hidle : s.after p ports = { s with ports := ports, opened := none } := by
    unfold PortSystem.after
    rw [hsteady.state]
    have hnot : ∀ b : Bool, (b && !b) = true ↔ False := by decide
    simp only [hnot, if_false]
    rw [if_neg]
    rintro ⟨hold, hnew⟩
    rw [hold] at hnew
    cases hnew
  rw [hidle]
  exact h.steady hsteady

/-- `ptreset` and `ptdelete` up to the first point where they may wait. -/
theorem SystemInv.clear
    {portid : ℤ} {reset : Bool} (h : SystemInv s) :
    SystemInv (s.after portid.toNat (s.ports.clear portid reset)) := by
  unfold PortTable.clear
  dsimp only
  split_ifs with hbad halloc hempty
  · exact h.after_steady Steady.refl
  · exact h.after_steady Steady.refl
  all_goals
    have hp : portid.toNat < NPORTS := by omega
    rw [not_not] at halloc
    have hmax := (h.kept _ hp).maxcnt (by simp [halloc])
    apply h.after hp rfl (by exact h.nextid)
  · exact Keeps.clearSenders hmax rfl
  · intro side _
    rw [halloc]
    rfl
  · simp [halloc]
  · exact ⟨fun _ => hmax, rfl⟩
  · intro side _
    rw [halloc]
    rfl
  · simp [halloc]

theorem SystemInv.proceed
    (h : SystemInv s) (hp : p < NPORTS) (hstep : s.ports.proceed p = some ports) :
    SystemInv (s.after p ports) := by
  have hkeeps := h.kept p hp
  unfold PortTable.proceed at hstep
  split at hstep
  next reset walk hstate =>
    have hmax := hkeeps.maxcnt (by simp [hstate])
    have hpassed := hkeeps.ready
    rw [hstate] at hpassed
    have howns : ∀ side, owns (s.ports.porttab p).ptstate side = true := by
      intro side
      rw [hstate]
      cases reset <;> rfl
    dsimp only at hstep
    split_ifs at hstep
    · cases hstep
      apply h.after hp rfl (by exact h.nextid)
      · exact Keeps.clearSenders hmax hpassed
      · exact fun side _ => howns side
      · simp [hstate]
    · cases hstep
      apply h.after hp rfl (by exact h.nextid)
      · exact ⟨fun _ => hmax, hpassed⟩
      · exact fun side _ => howns side
      · simp [hstate]
  next reset hstate =>
    cases hstep
    apply h.after hp rfl (by exact h.nextid)
    · exact hkeeps.clearReceivers hstate
    · intro side hside
      rw [hstate]
      cases reset <;> cases side <;> first | rfl | cases hside
    · simp [hstate]
  next reset hstate =>
    cases hstep
    apply h.after hp rfl
    · dsimp only
      split_ifs
      · exact h.nextid
      · exact hp
    · exact hkeeps.endClear hstate
    · intro side hside
      rw [hstate]
      cases reset <;> cases side <;> first | rfl | cases hside
    · intro hold
      have hready := hkeeps.ready
      rw [hold] at hready
      exact ⟨hready.ptssem, hready.pttail, hready.accepted⟩
  · cases hstep

/-- The search that fails has gone once around the table. -/
theorem findPort_none
    {table : PortTable} {n id : ℕ} (hid : id < NPORTS)
    (h : (table.findPort n id).2 = none) :
    (table.findPort n id).1 = (id + n) % NPORTS ∧
      ∀ j < n, (table.porttab ((id + j) % NPORTS)).ptstate ≠ .free := by
  induction n generalizing id with
  | zero => exact ⟨(Nat.mod_eq_of_lt hid).symm, by simp⟩
  | succ n ih =>
      have hnext : (if id + 1 ≥ NPORTS then 0 else id + 1) =
          (id + 1) % NPORTS := by
        unfold NPORTS at *
        split_ifs <;> omega
      unfold PortTable.findPort at h ⊢
      dsimp only at h ⊢
      rw [hnext] at h ⊢
      by_cases hfree : (table.porttab id).ptstate = .free
      · rw [if_pos hfree] at h
        cases h
      · rw [if_neg hfree] at h ⊢
        obtain ⟨hlast, hseen⟩ := ih (Nat.mod_lt _ (by decide)) h
        rw [Nat.mod_add_mod] at hlast
        refine ⟨by rw [hlast, Nat.add_assoc, Nat.add_comm 1 n], ?_⟩
        intro j hj
        cases j with
        | zero => rwa [Nat.add_zero, Nat.mod_eq_of_lt hid]
        | succ j =>
            have hseen' := hseen j (by omega)
            rw [Nat.mod_add_mod] at hseen'
            rwa [Nat.add_assoc, Nat.add_comm 1 j] at hseen'

theorem findPort_full
    {table : PortTable} {id : ℕ} (hid : id < NPORTS)
    (h : (table.findPort NPORTS id).2 = none) :
    (table.findPort NPORTS id).1 = id ∧
      ∀ p < NPORTS, (table.porttab p).ptstate ≠ .free := by
  obtain ⟨hlast, hseen⟩ := findPort_none hid h
  constructor
  · rw [hlast, Nat.add_mod_right, Nat.mod_eq_of_lt hid]
  · intro p hp
    have hplace : (id + (p + NPORTS - id) % NPORTS) % NPORTS = p := by
      unfold NPORTS at *
      omega
    rw [← hplace]
    exact hseen _ (Nat.mod_lt _ (by decide))

/-- A call without a result has not changed anything. -/
theorem SystemInv.refused
    (h : SystemInv s) (hnone : (s.ptcreate count).2 = none) :
    (s.ptcreate count).1.ports = s.ports ∧
      (s.ptcreate count).1 = { s with opened := none } := by
  unfold PortSystem.ptcreate at hnone ⊢
  split_ifs at hnone ⊢ with hcount
  · exact ⟨rfl, rfl⟩
  · cases hfound : (s.ports.findPort NPORTS s.ports.ptnextid).2 with
    | some p =>
        rw [hfound] at hnone
        cases hnone
    | none =>
        obtain ⟨hlast, -⟩ := findPort_full h.nextid hfound
        have hports : s.ports.ptcreate count = s.ports := by
          unfold PortTable.ptcreate
          rw [if_neg hcount]
          generalize s.ports.findPort NPORTS s.ports.ptnextid = found at hlast hfound
          obtain ⟨next, ptnum⟩ := found
          dsimp only at hlast hfound
          rw [hfound, hlast]
        dsimp only
        rw [hports]
        exact ⟨rfl, rfl⟩

/-- A semaphore that is free belongs to no port. -/
theorem SystemInv.ne_of_unused
    {k k' : ℕ} (h : SystemInv s) {q : ℕ} (hq : q < NPORTS) {side : Side}
    (hown : owns (s.ports.porttab q).ptstate side = true)
    (hk : s.semid q side = some k) (hunused : s.sems.used k' = false) : k ≠ k' := by
  obtain ⟨k'', hk'', hused⟩ := h.owned q hq side hown
  rw [hk] at hk''
  cases hk''
  rintro rfl
  rw [hunused] at hused
  cases hused

theorem SystemInv.create
    {table : PortTable} {sems : SemTable} {i j : ℕ} (h : SystemInv s)
    (hp : p < NPORTS) (hfree : (s.ports.porttab p).ptstate = .free)
    (hcount : 0 ≤ count) (hsmall : count < 65536)
    (htable : table.porttab = Function.update s.ports.porttab p
      ((s.ports.porttab p).create count))
    (hnext : table.ptnextid < NPORTS) (hnextsem : sems.nextsem < NSEM)
    (hij : i ≠ j) (hi : s.sems.used i = false) (hj : s.sems.used j = false)
    (hused : sems.used =
      Function.update (Function.update s.sems.used i true) j true) :
    SystemInv
      { ports := table, sems := sems
        semid := Function.update s.semid p fun
          | .senders => some i
          | .receivers => some j
        size := Function.update s.size p count, opened := some p } := by
  have hself : table.porttab p = (s.ports.porttab p).create count := by
    rw [htable, Function.update_self]
  have hothers : ∀ q, q ≠ p → table.porttab q = s.ports.porttab q := by
    intro q hq
    rw [htable, Function.update_of_ne hq]
  obtain ⟨hkeeps, hfresh⟩ :=
    Keeps.create (e := s.ports.porttab p) hcount hsmall
  constructor
  · exact hnext
  · exact hnextsem
  · intro q hq
    by_cases hqp : q = p
    · subst hqp
      change Keeps (table.porttab q) (Function.update s.size q count q)
      rw [hself, Function.update_self]
      exact hkeeps
    · change Keeps (table.porttab q) (Function.update s.size p count q)
      rw [hothers q hqp, Function.update_of_ne hqp]
      exact h.kept q hq
  · intro q hq side hown
    by_cases hqp : q = p
    · subst hqp
      dsimp only
      rw [Function.update_self, hused]
      cases side with
      | senders => exact ⟨i, rfl, by rw [Function.update_of_ne hij, Function.update_self]⟩
      | receivers => exact ⟨j, rfl, by rw [Function.update_self]⟩
    · dsimp only at hown ⊢
      rw [hothers q hqp] at hown
      rw [Function.update_of_ne hqp]
      obtain ⟨k, hk, hkused⟩ := h.owned q hq side hown
      refine ⟨k, hk, ?_⟩
      rwa [hused, Function.update_of_ne (h.ne_of_unused hq hown hk hj),
        Function.update_of_ne (h.ne_of_unused hq hown hk hi)]
  · have hmixed : ∀ q < NPORTS, q ≠ p → ∀ side side' : Side,
        owns (table.porttab q).ptstate side = true →
          s.semid q side ≠ (match side' with
            | .senders => some i
            | .receivers => some j) := by
      intro q hq hqp side side' hown heq
      rw [hothers q hqp] at hown
      cases side' with
      | senders => exact h.ne_of_unused hq hown heq hi rfl
      | receivers => exact h.ne_of_unused hq hown heq hj rfl
    intro q hq r hr side side' hown hown' heq
    dsimp only at hown hown' heq
    by_cases hqp : q = p <;> by_cases hrp : r = p
    · subst hqp hrp
      rw [Function.update_self] at heq
      refine ⟨rfl, ?_⟩
      cases side <;> cases side' <;> simp_all
    · rw [hqp, Function.update_self, Function.update_of_ne hrp] at heq
      exact absurd heq.symm (hmixed r hr hrp side' side hown')
    · rw [hrp, Function.update_self, Function.update_of_ne hqp] at heq
      exact absurd heq (hmixed q hq hqp side side' hown)
    · rw [Function.update_of_ne hqp, Function.update_of_ne hrp] at heq
      rw [hothers q hqp] at hown
      rw [hothers r hrp] at hown'
      exact h.apart q hq r hr side side' hown hown' heq
  · intro q hq
    cases hq
    dsimp only
    rw [hself, Function.update_self]
    exact ⟨hp, rfl, hfresh⟩

theorem SystemInv.ptcreate
    (h : SystemInv s) (hcreatable : Creatable s (.port (.ptcreate count))) :
    SystemInv (s.ptcreate count).1 := by
  cases hresult : (s.ptcreate count).2 with
  | none =>
      rw [(h.refused hresult).2]
      exact h.idle
  | some ptnum =>
      unfold PortSystem.ptcreate at hresult ⊢
      split_ifs at hresult ⊢ with hcount
      obtain ⟨hnext, hspec⟩ := findPort_spec (s := s.ports) (n := NPORTS) h.nextid
      cases hfound : (s.ports.findPort NPORTS s.ports.ptnextid).2 with
      | none =>
          rw [hfound] at hresult
          cases hresult
      | some p =>
          obtain ⟨hp, hfree⟩ := hspec p hfound
          obtain ⟨hsmall, htwo⟩ : count < 65536 ∧
              2 ≤ s.sems.available.length := by
            rcases hcreatable with hneg | hfull | hok
            · exact absurd hneg hcount
            · exact absurd hfree (hfull p hp)
            · exact hok
          obtain ⟨i, j, hij, hi, hj⟩ :=
            semcreate_twice count h.nextsem (by omega) htwo
          obtain ⟨hinew, hiused⟩ := semcreate_some hi
          obtain ⟨hjnew, hjused⟩ := semcreate_some hj
          rw [hiused, Function.update_of_ne hij.symm] at hjnew
          have hcreated : s.ports.ptcreate count =
              { s.ports.modify p (·.create count) with
                ptnextid := (s.ports.findPort NPORTS s.ports.ptnextid).1 } := by
            unfold PortTable.ptcreate
            rw [if_neg hcount]
            generalize s.ports.findPort NPORTS s.ports.ptnextid = found at hfound
            obtain ⟨next, ptnum'⟩ := found
            dsimp only at hfound
            rw [hfound]
          dsimp only
          rw [hcreated, hi, hj]
          apply h.create hp hfree (by omega) hsmall rfl hnext
            (semcreate_nextsem _ (semcreate_nextsem _ h.nextsem)) hij hinew hjnew
          rw [hjused, hiused]

theorem SystemInv.step
    {s' : PortSystem} {action : SystemAction} (h : SystemInv s)
    (hcreatable : Creatable s action) (hstep : systemStep s action = some s') :
    SystemInv s' := by
  have hcall : ∀ {pid portid : ℤ} {msg : Option Word} {ports : PortTable},
      s.ports.call pid portid msg = some ports →
        SystemInv { s with ports := ports, opened := none } :=
    fun hcall => h.steady (Steady.call hcall)
  cases action with
  | semcreate count =>
      cases hstep
      exact h.semcreate
  | semdelete sem =>
      simp only [systemStep] at hstep
      split_ifs at hstep with htaken
      cases hstep
      exact h.semdelete htaken
  | port action =>
      cases action with
      | ptcreate count =>
          cases hstep
          exact h.ptcreate hcreatable
      | ptsend pid portid msg =>
          simp only [systemStep, PortSystem.ptsend] at hstep
          split_ifs at hstep
          · cases hstep
            exact h.idle
          · rw [Option.map_eq_some_iff] at hstep
            obtain ⟨ports, hports, rfl⟩ := hstep
            exact hcall hports
      | ptrecv pid portid =>
          simp only [systemStep, PortSystem.ptrecv] at hstep
          split_ifs at hstep
          · cases hstep
            exact h.idle
          · rw [Option.map_eq_some_iff] at hstep
            obtain ⟨ports, hports, rfl⟩ := hstep
            exact hcall hports
      | ptcount portid =>
          cases hstep
          exact h.idle
      | ptreset portid =>
          cases hstep
          exact h.clear
      | ptdelete portid =>
          cases hstep
          exact h.clear
      | resume portid c =>
          simp only [systemStep, portStep] at hstep
          split_ifs at hstep
          · rw [Option.map_eq_some_iff] at hstep
            obtain ⟨ports, hports, rfl⟩ := hstep
            exact h.after_steady (Steady.goOn hports)
          · cases hstep
      | proceed portid =>
          simp only [systemStep, portStep] at hstep
          split_ifs at hstep with hp
          · rw [Option.map_eq_some_iff] at hstep
            obtain ⟨ports, hports, rfl⟩ := hstep
            exact h.proceed hp hports
          · cases hstep
      | kill portid c =>
          simp only [systemStep, portStep] at hstep
          split_ifs at hstep
          · cases hstep
            exact h.after_steady Steady.kill
          · cases hstep

theorem SystemInv.start {sems : SemTable} (hsems : sems.nextsem < NSEM) :
    SystemInv (systemStart maxmsgs sems) where
  nextid := Nat.zero_lt_succ 29
  nextsem := hsems
  kept := fun _ _ => ⟨fun hne => absurd rfl hne, trivial⟩
  owned := fun _ _ _ hown => by cases hown
  apart := fun _ _ _ _ _ _ hown => by cases hown
  opened := fun _ hopened => by cases hopened

end Invariant

/-! ## Sending -/

section Sending

variable {s : PortSystem} {p n : ℕ} {msg : Word}
  {free : List ℕ} {sends : List (ℤ × Word)} {waiting : List Caller}

/-- A port whose semaphores exist. -/
structure Opened (s : PortSystem) (p : ℕ) : Prop where
  inside : p < NPORTS
  alloc : (s.ports.porttab p).ptstate = .alloc
  semid : s.semid p .senders ≠ none

/-- The nodes that the port can still take. -/
structure Supply (s : PortSystem) (p : ℕ) (free : List ℕ) : Prop where
  chain : LinkedTable.Chain 0 s.ports.ptnext s.ports.ptfree free
  nodup : free.Nodup
  null : 0 ∉ free
  tail : (s.ports.porttab p).pttail ∉ free

theorem goOn_enqueue
    {m : PortTable} {c : Caller} (halloc : (m.porttab p).ptstate = .alloc)
    (hseq : c.seq = (m.porttab p).ptseq) (hmsg : c.msg = some msg)
    (hfree : m.ptfree ≠ 0) :
    m.goOn p c = some ((m.modify p (·.leave c)).enqueue p msg) := by
  have hstate : ((m.modify p (·.leave c)).porttab p).ptstate = .alloc := by
    rw [modify_porttab_self, leave_ptstate, halloc]
  have hseq' : ((m.modify p (·.leave c)).porttab p).ptseq = c.seq := by
    rw [modify_porttab_self, hseq]
    unfold Ptentry.leave
    rw [hmsg]
  have hfree' : (m.modify p (·.leave c)).ptfree ≠ 0 := hfree
  unfold PortTable.goOn PortTable.finish
  dsimp only
  rw [hstate, hseq', hmsg]
  dsimp only
  rw [if_neg (by simp), if_neg hfree']
  rfl

theorem ptsend_eq (pid : ℤ) (msg : Word) (hopen : Opened s p) :
    let c : Caller := ⟨pid, (s.ports.porttab p).ptseq,
      (s.ports.porttab p).seqno, some msg⟩
    s.ptsend pid p msg =
      (if (s.ports.porttab p).ptssem.count - 1 < 0 then
        some (s.ports.modify p (·.wait c))
      else (s.ports.modify p (·.wait c)).goOn p c).map fun ports =>
        { s with ports := ports, opened := none } := by
  obtain ⟨hp, halloc, hsemid⟩ := hopen
  unfold PortSystem.ptsend PortTable.ptsend PortTable.call
  rw [Int.toNat_natCast, if_neg hsemid, if_neg (by omega)]
  dsimp only
  rw [if_neg (not_not.mpr halloc)]
  rfl

/-- A sender that finds a permit takes it; the rest of the entry stays. -/
theorem wait_leave_of_permit
    {e : Ptentry} {c : Caller} (hmsg : c.msg = some msg)
    (hsem : e.ptssem = ⟨(n + 1 : ℕ), [], []⟩) :
    ((e.wait c).leave c).ptssem = ⟨n, [], []⟩ ∧
      ((e.wait c).leave c).pttail = e.pttail ∧
      ((e.wait c).leave c).epoch = e.epoch := by
  have hwait : (e.wait c).ptssem = ⟨n, [], [c]⟩ := by
    unfold Ptentry.wait CountingSemaphore.wait
    rw [hmsg]
    dsimp only
    rw [hsem, if_neg (by simp)]
    simp
  unfold Ptentry.leave
  rw [hmsg]
  dsimp only
  rw [hwait]
  unfold Ptentry.wait
  rw [hmsg]
  refine ⟨?_, rfl, rfl⟩
  simp [CountingSemaphore.goOn]

theorem wait_ptseq {e : Ptentry} {c : Caller} (hmsg : c.msg = some msg) :
    (e.wait c).ptseq = e.ptseq := by
  unfold Ptentry.wait
  rw [hmsg]

/-- The links of the node taken and of the tail are the only ones to change. -/
theorem ptnext_enqueue
    {m : PortTable} {y : ℕ} (hfree : y ≠ m.ptfree)
    (htail : y ≠ (m.porttab p).pttail) :
    (m.enqueue p msg).ptnext y = m.ptnext y := by
  unfold PortTable.enqueue
  dsimp only
  split_ifs
  · exact Function.update_of_ne hfree _ _
  · rw [Function.update_of_ne htail]
    exact Function.update_of_ne hfree _ _

/-- A sender passes while the count is positive. -/
theorem ptsend_accepted
    (pid : ℤ) (msg : Word) (hopen : Opened s p)
    (hsem : (s.ports.porttab p).ptssem = ⟨(n + 1 : ℕ), [], []⟩)
    {x : ℕ} (hsupply : Supply s p (x :: free)) :
    ∃ s', s.ptsend pid p msg = some s' ∧ Opened s' p ∧ Supply s' p free ∧
      (s'.ports.porttab p).ptssem = ⟨n, [], []⟩ ∧
      (s'.ports.porttab p).epoch.accepted =
        (s.ports.porttab p).epoch.accepted ++ [msg] := by
  obtain ⟨⟨hx, hchain⟩, hnodup, hnull, htail⟩ := hsupply
  obtain ⟨hxfree, hfree⟩ := List.nodup_cons.mp hnodup
  have hx0 : s.ports.ptfree ≠ 0 := by
    rw [hx]
    rintro rfl
    simp at hnull
  have heq := ptsend_eq pid msg hopen
  dsimp only at heq
  generalize hc : Caller.mk pid (s.ports.porttab p).ptseq
    (s.ports.porttab p).seqno (some msg) = c at heq
  have hmsg : c.msg = some msg := by rw [← hc]
  obtain ⟨hpermit, hpttail, hepoch⟩ := wait_leave_of_permit hmsg hsem
  have hgo : (s.ports.modify p (·.wait c)).goOn p c = some
      (((s.ports.modify p (·.wait c)).modify p (·.leave c)).enqueue p msg) := by
    apply goOn_enqueue (m := s.ports.modify p (·.wait c)) _ _ hmsg hx0
    · rw [modify_porttab_self, wait_ptstate, hopen.alloc]
    · rw [modify_porttab_self, wait_ptseq hmsg, ← hc]
  rw [hsem, if_neg (by simp), hgo] at heq
  refine ⟨_, heq, ?_⟩
  generalize hports : PortTable.enqueue _ p msg = ports
  have hentry : ports.porttab p =
      (((s.ports.porttab p).wait c).leave c).accept s.ports.ptfree msg := by
    rw [← hports]
    unfold PortTable.enqueue
    dsimp only
    rw [modify_porttab_self, modify_porttab_self, modify_porttab_self]
    rfl
  have hnext : ∀ y ∈ free, ports.ptnext y = s.ports.ptnext y := by
    intro y hy
    rw [← hports]
    apply ptnext_enqueue
    · rintro rfl
      exact hxfree (hx ▸ hy)
    · rw [modify_porttab_self, modify_porttab_self, hpttail]
      rintro rfl
      exact htail (List.mem_cons_of_mem _ hy)
  have hptfree : ports.ptfree = s.ports.ptnext x := by
    rw [← hports, ← hx]
    rfl
  refine ⟨⟨hopen.inside, ?_, hopen.semid⟩, ⟨?_, hfree, ?_, ?_⟩, ?_, ?_⟩
  · rw [hentry]
    change (((s.ports.porttab p).wait c).leave c).ptstate = .alloc
    rw [leave_ptstate, wait_ptstate, hopen.alloc]
  · dsimp only
    rw [hptfree]
    exact hchain.congr hnext
  · exact fun h0 => hnull (List.mem_cons_of_mem _ h0)
  · rw [hentry]
    change s.ports.ptfree ∉ free
    rwa [hx]
  · rw [hentry]
    exact hpermit
  · rw [hentry]
    change (((s.ports.porttab p).wait c).leave c).epoch.accepted ++ [msg] = _
    rw [hepoch]

theorem ptsend_blocked
    (pid : ℤ) (msg : Word) (hopen : Opened s p)
    (hcount : (s.ports.porttab p).ptssem.count ≤ 0) :
    ∃ s', s.ptsend pid p msg = some s' ∧ Opened s' p ∧
      (s'.ports.porttab p).ptssem.count ≤ 0 ∧
      (s'.ports.porttab p).ptssem.waiting.map Caller.pid =
        (s.ports.porttab p).ptssem.waiting.map Caller.pid ++ [pid] ∧
      (s'.ports.porttab p).epoch.accepted =
        (s.ports.porttab p).epoch.accepted := by
  have heq := ptsend_eq pid msg hopen
  dsimp only at heq
  rw [if_pos (by omega)] at heq
  refine ⟨_, heq, ⟨hopen.inside, ?_, hopen.semid⟩, ?_⟩
  · dsimp only
    rw [modify_porttab_self, wait_ptstate, hopen.alloc]
  · dsimp only
    rw [modify_porttab_self]
    unfold Ptentry.wait CountingSemaphore.wait
    dsimp only
    rw [if_pos (by omega)]
    refine ⟨by dsimp only; omega, ?_, rfl⟩
    rw [List.map_append]
    rfl

theorem sendAll_blocked
    (sends : List (ℤ × Word)) (hopen : Opened s p)
    (hcount : (s.ports.porttab p).ptssem.count ≤ 0) :
    ∃ s', sendAll p sends s = some s' ∧
      (s'.ports.porttab p).epoch.accepted =
        (s.ports.porttab p).epoch.accepted ∧
      (s'.ports.porttab p).ptssem.waiting.map Caller.pid =
        (s.ports.porttab p).ptssem.waiting.map Caller.pid ++
          sends.map Prod.fst := by
  induction sends generalizing s with
  | nil => exact ⟨s, rfl, rfl, by simp⟩
  | cons send sends ih =>
      obtain ⟨s₁, hsend, hopen₁, hcount₁, hwaiting₁, haccepted₁⟩ :=
        ptsend_blocked send.1 send.2 hopen hcount
      obtain ⟨s', hrest, haccepted, hwaiting⟩ := ih hopen₁ hcount₁
      refine ⟨s', ?_, haccepted.trans haccepted₁, ?_⟩
      · simp only [sendAll, hsend, Option.bind_some, hrest]
      · rw [hwaiting, hwaiting₁]
        simp

theorem sendAll_accepts
    (hopen : Opened s p) (hsem : (s.ports.porttab p).ptssem = ⟨n, [], []⟩)
    (hsupply : Supply s p free) (henough : min n sends.length ≤ free.length) :
    ∃ s', sendAll p sends s = some s' ∧
      (s'.ports.porttab p).epoch.accepted =
        (s.ports.porttab p).epoch.accepted ++ (sends.map Prod.snd).take n ∧
      (s'.ports.porttab p).ptssem.waiting.map Caller.pid =
        (sends.map Prod.fst).drop n := by
  induction sends generalizing s n free with
  | nil => exact ⟨s, rfl, by simp, by simp [hsem]⟩
  | cons send sends ih =>
      cases n with
      | zero =>
          obtain ⟨s', hrun, haccepted, hwaiting⟩ :=
            sendAll_blocked (send :: sends) hopen (by rw [hsem]; simp)
          refine ⟨s', hrun, by simpa using haccepted, ?_⟩
          rw [hwaiting, hsem]
          rfl
      | succ n =>
          cases free with
          | nil => simp at henough
          | cons x free =>
              obtain ⟨s₁, hsend, hopen₁, hsupply₁, hsem₁, haccepted₁⟩ :=
                ptsend_accepted send.1 send.2 hopen hsem hsupply
              have henough₁ : min n sends.length ≤ free.length := by
                simp only [List.length_cons] at henough
                omega
              obtain ⟨s', hrest, haccepted, hwaiting⟩ :=
                ih hopen₁ hsem₁ hsupply₁ henough₁
              refine ⟨s', ?_, ?_, ?_⟩
              · simp only [sendAll, hsend, Option.bind_some, hrest]
              · rw [haccepted, haccepted₁]
                simp
              · rw [hwaiting]
                simp

end Sending

/-! ## Runs -/

section Runs

variable {s : PortSystem}

theorem SystemInv.law (h : SystemInv s) : CapacityLaw s where
  semaphores := fun p hp halloc => by
    have hown : ∀ side, owns (s.ports.porttab p).ptstate side = true := by
      rw [halloc]
      exact fun _ => rfl
    obtain ⟨i, hi, hiused⟩ := h.owned p hp .senders (hown _)
    obtain ⟨j, hj, hjused⟩ := h.owned p hp .receivers (hown _)
    refine ⟨i, j, ?_, hi, hj, hiused, hjused⟩
    rintro rfl
    have hsame := h.apart p hp p hp .senders .receivers (hown _) (hown _)
      (hi.trans hj.symm)
    cases hsame.2
  capacity := fun p hopened free hchain hnodup hnull sends henough => by
    obtain ⟨hp, halloc, hfresh⟩ := h.opened p hopened
    have hsize := ((h.kept p hp).maxcnt (by simp [halloc])).2
    obtain ⟨i, hi, -⟩ := h.owned p hp .senders (by rw [halloc]; rfl)
    have hsem : (s.ports.porttab p).ptssem = ⟨(s.size p).toNat, [], []⟩ := by
      rw [hfresh.ptssem, Int.toNat_of_nonneg hsize]
      rfl
    obtain ⟨s', hrun, haccepted, hwaiting⟩ :=
      sendAll_accepts ⟨hp, halloc, by simp [hi]⟩ hsem
        ⟨hchain, hnodup, hnull, hfresh.pttail ▸ hnull⟩ henough
    rw [hfresh.accepted] at haccepted
    exact ⟨s', hrun, haccepted, hwaiting⟩

end Runs

end Xinu.PortCapacity
