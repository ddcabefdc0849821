import Xinu.KernelRuns

/-!
# The life of a process

`kill` takes a process off `prcount` when it starts and frees the table entry
when it ends, and other processes can run in between.  While every kill in
progress has a victim of its own, and no victim is itself in the middle of a
kill, the books balance: `prcount` plus the kills in progress is the number of
entries in use, and the stack of a process is released once, when it goes.
-/

namespace Xinu

open ByteMemory Placement TransitionSystem Kernel

/-! ## Totals over the process table -/

/-- The sum of a quantity over the table entries. -/
def Kernel.total {Q : Type} (f : Procent → ℤ) (k : Kernel Q) : ℤ :=
  ∑ i ∈ Finset.range NPROC.toNat, f (k.proctab i)

section Totals

variable {f : Procent → ℤ} {b c : Kernel QueueLists} {p : ℤ} {e : Procent}

theorem ProcId.index (hid : ProcId p) :
    ∃ i : ℕ, p = i ∧ i ∈ Finset.range NPROC.toNat := by
  unfold ProcId at hid
  refine ⟨p.toNat, by omega, Finset.mem_range.mpr (by omega)⟩

theorem procId_of_mem {i : ℕ} (hi : i ∈ Finset.range NPROC.toNat) :
    ProcId i := by
  rw [Finset.mem_range] at hi
  unfold ProcId
  omega

theorem total_congr (hf : ∀ x, f (c.proctab x) = f (b.proctab x)) :
    c.total f = b.total f :=
  Finset.sum_congr rfl fun i _ => hf i

theorem total_update
    (hid : ProcId p) (hproc : c.proctab = Function.update b.proctab p e) :
    c.total f = b.total f - f (b.proctab p) + f e := by
  obtain ⟨i, rfl, hi⟩ := hid.index
  have hfun : (fun j : ℕ => f (c.proctab j)) =
      Function.update (fun j : ℕ => f (b.proctab j)) i (f e) := by
    funext j
    rw [hproc]
    by_cases hj : j = i
    · subst hj
      simp
    · simp [hj]
  have hsplit := Finset.sum_erase_add (Finset.range NPROC.toNat)
    (fun j : ℕ => f (b.proctab j)) hi
  unfold Kernel.total
  rw [hfun, Finset.sum_update_of_mem hi, ← hsplit,
    Finset.sdiff_singleton_eq_erase]
  ring

theorem le_total (hf : ∀ e, 0 ≤ f e) (hid : ProcId p) :
    f (b.proctab p) ≤ b.total f := by
  obtain ⟨i, rfl, hi⟩ := hid.index
  exact Finset.single_le_sum (f := fun j : ℕ => f (b.proctab j))
    (fun j _ => hf (b.proctab j)) hi

theorem total_eq_zero (hf : ∀ {x}, ProcId x → f (b.proctab x) = 0) :
    b.total f = 0 :=
  Finset.sum_eq_zero fun _ hi => hf (procId_of_mem hi)

end Totals

/-! ## Kills in progress -/

/-- The victim of a kill in progress, and which process it was. -/
def Frame.target : Frame → Option (ℤ × ℕ)
  | .kill v s _ => some (v, s)
  | _ => none

def Procent.kills (e : Procent) : List (ℤ × ℕ) := e.prctx.filterMap Frame.target

/-- One for an entry in use. -/
def Procent.living (e : Procent) : ℤ := if e.prstate = .free then 0 else 1

def Procent.killCount (e : Procent) : ℤ := e.kills.length

/-- The kills of `v` in progress. -/
def Procent.killsOf (v : ℤ) (e : Procent) : ℤ :=
  e.kills.countP fun target => target.1 = v

/-- The condition on runs: no kill starts while its victim is being killed, and
none ends while its victim is in the middle of a kill. -/
def KillsApart {Q : Type} (k : Kernel Q) : Action → Prop
  | .call (.kill v) => ∀ p s i, .kill v s i ∉ (k.proctab p).prctx
  | .cont => ∀ v s i rest, k.context = .kill v s i :: rest → ¬ i < 3 →
      ((k.popFrame k.currpid).proctab v).kills = []
  | _ => True

/-- `prcount` and the log agree with the process table. -/
structure KillInv (b : Kernel QueueLists) : Prop where
  count : b.prcount = b.total Procent.living - b.total Procent.killCount
  owner : ∀ {x}, (b.proctab x).kills ≠ [] → b.state x ≠ .free
  target : ∀ {x v s}, (v, s) ∈ (b.proctab x).kills →
    b.state v ≠ .free ∧ (b.proctab v).serial = s
  single : ∀ v, b.total (Procent.killsOf v) ≤ 1
  serial : ∀ {x}, b.state x ≠ .free → (b.proctab x).serial < b.births
  created : ∀ {p n}, .created p n ∈ b.log → n < b.births ∧
    b.log.count (.stackFreed p n) =
      if b.state p ≠ .free ∧ (b.proctab p).serial = n then 0 else 1
  freed : ∀ {p n}, .stackFreed p n ∈ b.log → n < b.births

/-- A change of an entry that concerns neither its use nor a kill. -/
structure KillSteady (e e' : Procent) : Prop where
  free : e'.prstate = .free ↔ e.prstate = .free
  kills : e'.kills = e.kills
  serial : e'.serial = e.serial

/-- The event is about the start or the end of a process. -/
def Vital : Event → Prop
  | .created _ _ | .stackFreed _ _ => True
  | _ => False

/-- A change that neither starts nor ends a process or a kill. -/
structure LifeSteady (b c : Kernel QueueLists) : Prop where
  entries : ∀ x, KillSteady (b.proctab x) (c.proctab x)
  prcount : c.prcount = b.prcount
  births : c.births = b.births
  log : ∃ w, c.log = w ++ b.log ∧ ∀ ev ∈ w, ¬ Vital ev

/-- What a move is to the processes: a start, the beginning or the end of a
kill, or nothing. -/
inductive LifeStep (action : Action) (a b c : Kernel QueueLists) : Prop
  | steady (h : LifeSteady b c)
  | create {p : ℤ} {e : Procent} (hid : ProcId p) (hfree : b.state p = .free)
      (hstate : e.prstate = .susp) (hctx : e.prctx = [])
      (hserial : e.serial = b.births)
      (hc : c =
        ({ b with prcount := b.prcount + 1, births := b.births + 1 }.setProc p
          fun _ => e).note (.created p b.births))
  | kill {v : ℤ} (haction : action = .call (.kill v)) (hlive : a.state v ≠ .free)
      (hb : b = a)
      (hc : c = { a with prcount := a.prcount - 1 }.pushFrame a.currpid
        (.kill v (a.proctab v).serial 0))
  | finish {v : ℤ} {s i : ℕ} {rest : List Frame} (haction : action = .cont)
      (hctx : a.context = .kill v s i :: rest) (hlast : ¬ i < 3) (hb : b = a)
      (hc : c = ((a.popFrame a.currpid).note
        (.stackFreed v (a.proctab v).serial)).bury v)

section Invariant

variable {action : Action} {a b c : Kernel QueueLists} {p v x : ℤ}
variable {e : Procent} {w : List Event}

theorem KillSteady.refl (e : Procent) : KillSteady e e :=
  ⟨Iff.rfl, rfl, rfl⟩

theorem count_vital
    {log : List Event} {ev : Event} (hev : Vital ev)
    (hquiet : ∀ ev ∈ w, ¬ Vital ev) :
    (w ++ log).count ev = log.count ev := by
  have hnot : ev ∉ w := fun hmem => hquiet ev hmem hev
  rw [List.count_append, List.count_eq_zero.mpr hnot, zero_add]

theorem mem_vital
    {log : List Event} {ev : Event} (hev : Vital ev)
    (hquiet : ∀ ev ∈ w, ¬ Vital ev) (hmem : ev ∈ w ++ log) :
    ev ∈ log := by
  rcases List.mem_append.mp hmem with hmem | hmem
  · exact absurd hev (hquiet ev hmem)
  · exact hmem

theorem KillInv.steady (h : KillInv b) (hsteady : LifeSteady b c) :
    KillInv c := by
  obtain ⟨hsteady, hprcount, hbirths, w, hlog, hquiet⟩ := hsteady
  have hfree : ∀ x, c.state x = .free ↔ b.state x = .free :=
    fun x => (hsteady x).free
  have hkills := fun x => (hsteady x).kills
  have hserial := fun x => (hsteady x).serial
  constructor
  · have hliving : c.total Procent.living = b.total Procent.living := by
      refine total_congr fun x => ?_
      unfold Procent.living
      by_cases hx : (b.proctab x).prstate = .free
      · rw [if_pos hx, if_pos ((hsteady x).free.mpr hx)]
      · rw [if_neg hx, if_neg (mt (hsteady x).free.mp hx)]
    have hpending : c.total Procent.killCount = b.total Procent.killCount :=
      total_congr fun x => by rw [Procent.killCount, hkills]; rfl
    rw [hprcount, h.count, hliving, hpending]
  · intro x hne
    rw [hkills] at hne
    exact mt (hfree x).mp (h.owner hne)
  · intro x v s hmem
    rw [hkills] at hmem
    obtain ⟨hlive, hs⟩ := h.target hmem
    exact ⟨mt (hfree v).mp hlive, (hserial v).trans hs⟩
  · intro v
    refine le_trans (le_of_eq (total_congr fun x => ?_)) (h.single v)
    rw [Procent.killsOf, hkills]
    rfl
  · intro x hlive
    rw [hserial, hbirths]
    exact h.serial (mt (hfree x).mpr hlive)
  · intro p n hmem
    rw [hlog] at hmem ⊢
    obtain ⟨hn, hcount⟩ := h.created (mem_vital (by trivial) hquiet hmem)
    rw [hbirths, count_vital (by trivial) hquiet, hcount, hserial]
    refine ⟨hn, ?_⟩
    by_cases hp : b.state p = .free
    · simp [hp, (hfree p).mpr hp]
    · simp [hp, mt (hfree p).mp hp]
  · intro p n hmem
    rw [hlog] at hmem
    rw [hbirths]
    exact h.freed (mem_vital (by trivial) hquiet hmem)

theorem LifeSteady.of_log
    (hproc : c.proctab = b.proctab) (hprcount : c.prcount = b.prcount)
    (hbirths : c.births = b.births) (hlog : c.log = w ++ b.log)
    (hquiet : ∀ ev ∈ w, ¬ Vital ev) : LifeSteady b c :=
  ⟨fun x => by rw [hproc]; exact .refl _, hprcount, hbirths, w, hlog, hquiet⟩

theorem LifeSteady.update
    (p : ℤ) (e : Procent)
    (hproc : c.proctab = Function.update b.proctab p e)
    (he : KillSteady (b.proctab p) e)
    (hprcount : c.prcount = b.prcount) (hbirths : c.births = b.births)
    (hlog : c.log = w ++ b.log) (hquiet : ∀ ev ∈ w, ¬ Vital ev) :
    LifeSteady b c := by
  refine ⟨fun x => ?_, hprcount, hbirths, w, hlog, hquiet⟩
  rw [hproc]
  by_cases hx : x = p
  · subst hx
    rw [Function.update_self]
    exact he
  · rw [Function.update_of_ne hx]
    exact .refl _

theorem not_vital_nil : ∀ ev ∈ ([] : List Event), ¬ Vital ev := by simp

theorem KillSteady.state
    {s : PrState} (hs : s ≠ .free) (he : e.prstate ≠ .free) :
    KillSteady e { e with prstate := s } :=
  ⟨by simp [hs, he], rfl, rfl⟩

theorem KillSteady.push {frame : Frame} (hframe : frame.target = none) :
    KillSteady e { e with prctx := frame :: e.prctx } :=
  ⟨Iff.rfl, List.filterMap_cons_none hframe, rfl⟩

theorem kills_tail
    {frame : Frame} {rest : List Frame} (hctx : e.prctx = frame :: rest)
    (hframe : frame.target = none) :
    Procent.kills { e with prctx := e.prctx.tail } = e.kills := by
  unfold Procent.kills
  rw [hctx, List.filterMap_cons_none hframe]
  rfl

theorem mem_kills {s : ℕ} :
    (v, s) ∈ e.kills ↔ ∃ i, .kill v s i ∈ e.prctx := by
  unfold Procent.kills
  rw [List.mem_filterMap]
  constructor
  · rintro ⟨frame, hmem, htarget⟩
    cases frame with
    | kill w t i =>
        cases htarget
        exact ⟨i, hmem⟩
    | _ => cases htarget
  · rintro ⟨i, hmem⟩
    exact ⟨_, hmem, rfl⟩

theorem killsOf_nonneg (v : ℤ) (e : Procent) : 0 ≤ e.killsOf v := by
  unfold Procent.killsOf
  omega

theorem killsOf_pos {s : ℕ} (hmem : (v, s) ∈ e.kills) : 0 < e.killsOf v := by
  have hpos := List.countP_pos_iff (p := fun target : ℤ × ℕ => target.1 = v)
    (l := e.kills) |>.mpr ⟨_, hmem, by simp⟩
  unfold Procent.killsOf
  omega

theorem killsOf_zero (hnone : ∀ s, (v, s) ∉ e.kills) : e.killsOf v = 0 := by
  have hzero : (e.kills.countP fun target => target.1 = v) = 0 := by
    rw [List.countP_eq_zero]
    rintro ⟨w, s⟩ hmem hw
    exact hnone s (of_decide_eq_true hw ▸ hmem)
  unfold Procent.killsOf
  omega

theorem free_ne
    {s : PrState} (hstate : b.state p = s) (hs : s ≠ .free) :
    (b.proctab p).prstate ≠ .free := by
  rw [show (b.proctab p).prstate = s from hstate]
  exact hs

theorem bury_log (v : ℤ) (b : Kernel QueueLists) :
    ∃ w, (b.bury v).log = w ++ b.log ∧ ∀ ev ∈ w, ¬ Vital ev := by
  unfold bury
  split
  · exact ⟨[.unslept v], rfl, by simp [Vital]⟩
  · exact ⟨[.unslept v], rfl, by simp [Vital]⟩
  · exact ⟨[.withdrawn _ v], rfl, by simp [Vital]⟩
  · exact ⟨[], rfl, not_vital_nil⟩
  · exact ⟨[], rfl, not_vital_nil⟩

/-- A process enters an entry that was free. -/
theorem KillInv.create
    (h : KillInv b) (hid : ProcId p) (hfree : b.state p = .free)
    (hstate : e.prstate = .susp) (hctx : e.prctx = [])
    (hserial : e.serial = b.births)
    (hproc : c.proctab = Function.update b.proctab p e)
    (hprcount : c.prcount = b.prcount + 1) (hbirths : c.births = b.births + 1)
    (hlog : c.log = .created p b.births :: b.log) : KillInv c := by
  have hold : (b.proctab p).kills = [] := by
    by_contra hne
    exact h.owner hne hfree
  have hnew : e.kills = [] := by
    unfold Procent.kills
    rw [hctx]
    rfl
  have hself : c.proctab p = e := by rw [hproc, Function.update_self]
  have hother : ∀ {x}, x ≠ p → c.proctab x = b.proctab x := fun hx => by
    rw [hproc, Function.update_of_ne hx]
  have hkills : ∀ x, (c.proctab x).kills = (b.proctab x).kills := by
    intro x
    by_cases hx : x = p
    · rw [hx, hself, hnew, hold]
    · rw [hother hx]
  have hlive : c.state p ≠ .free := by
    rw [state, hself, hstate]
    decide
  constructor
  · have hliving : c.total Procent.living = b.total Procent.living + 1 := by
      have hbefore : (b.proctab p).living = 0 := if_pos hfree
      have hafter : e.living = 1 := by
        rw [Procent.living, hstate]
        rfl
      rw [total_update hid hproc, hbefore, hafter]
      ring
    have hpending : c.total Procent.killCount = b.total Procent.killCount :=
      total_congr fun x => by rw [Procent.killCount, hkills]; rfl
    rw [hprcount, hliving, hpending, h.count]
    ring
  · intro x hne
    by_cases hx : x = p
    · rw [hx]
      exact hlive
    · rw [hkills] at hne
      rw [state, hother hx]
      exact h.owner hne
  · intro x v s hmem
    rw [hkills] at hmem
    obtain ⟨hv, hs⟩ := h.target hmem
    have hne : v ≠ p := fun heq => hv (heq ▸ hfree)
    rw [state, hother hne]
    exact ⟨hv, hs⟩
  · intro v
    refine le_trans (le_of_eq (total_congr fun x => ?_)) (h.single v)
    rw [Procent.killsOf, hkills]
    rfl
  · intro x hx
    rw [hbirths]
    by_cases hxp : x = p
    · rw [hxp, hself, hserial]
      exact Nat.lt_succ_self _
    · rw [state, hother hxp] at hx
      rw [hother hxp]
      exact Nat.lt_succ_of_lt (h.serial hx)
  · intro q n hmem
    rw [hlog] at hmem ⊢
    rw [hbirths, List.count_cons_of_ne (by simp)]
    rcases List.mem_cons.mp hmem with heq | hmem
    · -- The new process: nothing of it has been released.
      cases heq
      refine ⟨Nat.lt_succ_self _, ?_⟩
      rw [if_pos ⟨hlive, by rw [hself, hserial]⟩, List.count_eq_zero]
      exact fun hfreed => (h.freed hfreed).ne rfl
    · obtain ⟨hn, hcount⟩ := h.created hmem
      refine ⟨Nat.lt_succ_of_lt hn, hcount.trans ?_⟩
      by_cases hq : q = p
      · have hgone : ¬ ((c.proctab q).serial = n) := by
          rw [hq, hself, hserial]
          omega
        rw [if_neg (by rw [hq]; simp [hfree]), if_neg fun hand => hgone hand.2]
      · rw [state, state, hother hq]
  · intro q n hmem
    rw [hlog] at hmem
    rw [hbirths]
    refine Nat.lt_succ_of_lt (h.freed (p := q) ?_)
    exact (List.mem_cons.mp hmem).resolve_left (by simp)

/-- A kill starts when no other kill of its victim is in progress. -/
theorem KillInv.kill
    (h : KillInv a) (hq : Queued a) (hrun : a.state a.currpid = .curr)
    (hlive : a.state v ≠ .free)
    (hapart : ∀ p s i, .kill v s i ∉ (a.proctab p).prctx) :
    KillInv ({ a with prcount := a.prcount - 1 }.pushFrame a.currpid
      (.kill v (a.proctab v).serial 0)) := by
  let frame : Frame := .kill v (a.proctab v).serial 0
  let c := { a with prcount := a.prcount - 1 }.pushFrame a.currpid frame
  have hproc : c.proctab = Function.update a.proctab a.currpid
      { a.proctab a.currpid with
        prctx := frame :: (a.proctab a.currpid).prctx } := rfl
  have hentry : (c.proctab a.currpid).kills =
      (v, (a.proctab v).serial) :: (a.proctab a.currpid).kills := by
    rw [hproc, Function.update_self]
    rfl
  have hother : ∀ {x}, x ≠ a.currpid → c.proctab x = a.proctab x :=
    fun hx => by rw [hproc, Function.update_of_ne hx]
  have hstate : ∀ x, c.state x = a.state x := fun x =>
    state_pushFrame { a with prcount := a.prcount - 1 } _ _ _
  have hserial : ∀ x, (c.proctab x).serial = (a.proctab x).serial := by
    intro x
    by_cases hx : x = a.currpid
    · rw [hx, hproc, Function.update_self]
    · rw [hother hx]
  have hid := hq.current
  have hself : c.proctab a.currpid = { a.proctab a.currpid with
      prctx := frame :: (a.proctab a.currpid).prctx } := by
    rw [hproc, Function.update_self]
  have hnone : a.total (Procent.killsOf v) = 0 := by
    refine total_eq_zero fun {x} _ => killsOf_zero fun s hmem => ?_
    obtain ⟨i, hframe⟩ := mem_kills.mp hmem
    exact hapart x s i hframe
  constructor
  · have hliving : c.total Procent.living = a.total Procent.living :=
      total_congr fun x => by
        unfold Procent.living
        rw [show (c.proctab x).prstate = _ from hstate x]
        rfl
    have hpending : c.total Procent.killCount =
        a.total Procent.killCount + 1 := by
      rw [total_update hid hproc, ← hself, Procent.killCount,
        Procent.killCount, hentry, List.length_cons]
      push_cast
      ring
    show a.prcount - 1 = _
    rw [hliving, hpending, h.count]
    ring
  · intro x hne
    rw [hstate]
    by_cases hx : x = a.currpid
    · rw [hx, hrun]
      decide
    · rw [hother hx] at hne
      exact h.owner hne
  · intro x w s hmem
    rw [hstate, hserial]
    by_cases hx : x = a.currpid
    · rw [hx, hentry] at hmem
      rcases List.mem_cons.mp hmem with heq | hmem
      · cases heq
        exact ⟨hlive, rfl⟩
      · exact h.target hmem
    · rw [hother hx] at hmem
      exact h.target hmem
  · intro w
    show c.total _ ≤ 1
    rw [total_update hid hproc, ← hself, Procent.killsOf, Procent.killsOf, hentry,
      List.countP_cons]
    by_cases hw : v = w
    · subst hw
      simp [hnone]
    · have hsingle := h.single w
      simp [hw]
      exact hsingle
  · intro x hx
    rw [hstate] at hx
    rw [hserial]
    exact h.serial hx
  · intro p n hmem
    rw [hstate, hserial]
    exact h.created hmem
  · exact h.freed

/-- A kill ends: its victim leaves the table and its stack is released. -/
theorem KillInv.finish
    {s i : ℕ} {rest : List Frame} (h : KillInv a) (hq : Queued a)
    (hctx : a.context = .kill v s i :: rest)
    (hapart : ((a.popFrame a.currpid).proctab v).kills = []) :
    KillInv (((a.popFrame a.currpid).note
      (.stackFreed v (a.proctab v).serial)).bury v) := by
  let d := (a.popFrame a.currpid).note (.stackFreed v (a.proctab v).serial)
  let gone : Procent := { d.proctab v with prstate := .free, prctx := [] }
  have hd : d.proctab = Function.update a.proctab a.currpid
      { a.proctab a.currpid with prctx := (a.proctab a.currpid).prctx.tail } :=
    rfl
  have hproc : (d.bury v).proctab = Function.update d.proctab v gone :=
    bury_proctab v d
  have hcurr : (a.proctab a.currpid).kills = (v, s) ::
      Procent.kills { a.proctab a.currpid with
        prctx := (a.proctab a.currpid).prctx.tail } := by
    unfold Procent.kills
    rw [show (a.proctab a.currpid).prctx = _ from hctx]
    rfl
  have hmem : (v, s) ∈ (a.proctab a.currpid).kills := by simp [hcurr]
  obtain ⟨hlive, hs⟩ := h.target hmem
  have hidv := hq.bounded hlive
  have hdkills : ∀ {x y}, y ∈ (d.proctab x).kills → y ∈ (a.proctab x).kills := by
    intro x y hy
    rw [hd] at hy
    by_cases hx : x = a.currpid
    · rw [hx, Function.update_self] at hy
      rw [hx, hcurr]
      exact List.mem_cons_of_mem _ hy
    · rwa [Function.update_of_ne hx] at hy
  have hdstate : ∀ x, d.state x = a.state x := fun x => state_popFrame a _ x
  have hdserial : ∀ x, (d.proctab x).serial = (a.proctab x).serial := by
    intro x
    rw [hd]
    by_cases hx : x = a.currpid
    · rw [hx, Function.update_self]
    · rw [Function.update_of_ne hx]
  have hkills : ∀ x, ((d.bury v).proctab x).kills = (d.proctab x).kills := by
    intro x
    rw [hproc]
    by_cases hx : x = v
    · rw [hx, Function.update_self]
      exact hapart.symm
    · rw [Function.update_of_ne hx]
  have hother : ∀ {x}, x ≠ v → (d.bury v).proctab x = d.proctab x := fun hx => by
    rw [hproc, Function.update_of_ne hx]
  have hgone : (d.bury v).state v = .free := by
    rw [state, hproc, Function.update_self]
  -- No other kill of the same victim is left.
  have hlast : ∀ x s', (v, s') ∉ (d.proctab x).kills := by
    intro x s' hx
    have hidx := hq.bounded (h.owner (List.ne_nil_of_mem (hdkills hx)))
    have htotal : d.total (Procent.killsOf v) ≤ 0 := by
      rw [total_update hq.current hd, Procent.killsOf, hcurr, List.countP_cons]
      have hsingle := h.single v
      simp [Procent.killsOf]
      omega
    have hle := le_total (f := Procent.killsOf v) (b := d) (killsOf_nonneg v)
      hidx
    have hpos := killsOf_pos hx
    omega
  constructor
  · have hliving : (d.bury v).total Procent.living =
        a.total Procent.living - 1 := by
      have hsame : d.total Procent.living = a.total Procent.living :=
        total_congr fun x => by
          unfold Procent.living
          rw [show (d.proctab x).prstate = _ from hdstate x]
          rfl
      have hbefore : (d.proctab v).living = 1 := by
        rw [Procent.living, if_neg]
        rw [show (d.proctab v).prstate = _ from hdstate v]
        exact hlive
      have hafter : gone.living = 0 := rfl
      rw [total_update hidv hproc, hsame, hbefore, hafter]
      ring
    have hpending : (d.bury v).total Procent.killCount =
        a.total Procent.killCount - 1 := by
      have hsame : (d.bury v).total Procent.killCount =
          d.total Procent.killCount :=
        total_congr fun x => by rw [Procent.killCount, hkills]; rfl
      rw [hsame, total_update hq.current hd, Procent.killCount,
        Procent.killCount, hcurr, List.length_cons]
      push_cast
      ring
    have hprcount : (d.bury v).prcount = a.prcount := bury_prcount v d
    show (d.bury v).prcount = _
    rw [hprcount, hliving, hpending, h.count]
    ring
  · intro x hne
    rw [hkills] at hne
    by_cases hx : x = v
    · rw [hx] at hne
      exact absurd hapart hne
    · obtain ⟨y, hy⟩ := List.exists_mem_of_ne_nil _ hne
      have hlive := h.owner (List.ne_nil_of_mem (hdkills hy))
      rw [state, hother hx]
      rwa [← hdstate] at hlive
  · intro x w s' hmem
    rw [hkills] at hmem
    obtain ⟨hw, hs'⟩ := h.target (hdkills hmem)
    have hne : w ≠ v := by
      rintro rfl
      exact hlast x s' hmem
    rw [state, hother hne, hdserial]
    rw [← hdstate] at hw
    exact ⟨hw, hs'⟩
  · intro w
    have hsame : (d.bury v).total (Procent.killsOf w) =
        d.total (Procent.killsOf w) :=
      total_congr fun x => by rw [Procent.killsOf, hkills]; rfl
    show (d.bury v).total _ ≤ 1
    rw [hsame, total_update hq.current hd, Procent.killsOf, Procent.killsOf,
      hcurr, List.countP_cons]
    have hsingle := h.single w
    push_cast
    split_ifs <;> omega
  · intro x hx
    have hne : x ≠ v := by
      rintro rfl
      exact hx hgone
    rw [state, hother hne] at hx
    rw [hother hne, hdserial]
    show _ < (d.bury v).births
    rw [show (d.bury v).births = a.births from bury_births v d]
    refine h.serial ?_
    rwa [← hdstate]
  · intro p n hmem
    obtain ⟨w, hlog, hquiet⟩ := bury_log v d
    rw [hlog] at hmem ⊢
    have hmem' : .created p n ∈ a.log :=
      (List.mem_cons.mp (mem_vital (by trivial) hquiet hmem)).resolve_left
        (by simp)
    obtain ⟨hn, hcount⟩ := h.created hmem'
    rw [count_vital (by trivial) hquiet]
    rw [show (d.bury v).births = a.births from bury_births v d]
    refine ⟨hn, ?_⟩
    have hnow : ((d.bury v).state p ≠ .free ∧
        ((d.bury v).proctab p).serial = n) ↔
          p ≠ v ∧ a.state p ≠ .free ∧ (a.proctab p).serial = n := by
      by_cases hp : p = v
      · rw [hp, hgone]
        simp
      · rw [state, hother hp, hdserial, ← hdstate]
        simp [hp, state]
    show List.count _ (.stackFreed v (a.proctab v).serial :: a.log) = _
    rw [List.count_cons, hcount, if_congr hnow rfl rfl]
    by_cases hp : p = v
    · by_cases hser : (a.proctab v).serial = n
      · -- The victim: its stack is released now.
        simp [hp, hser, hlive]
      · simp [hp, hser]
    · simp [hp, Ne.symm hp]
  · intro p n hmem
    obtain ⟨w, hlog, hquiet⟩ := bury_log v d
    rw [hlog] at hmem
    rw [show (d.bury v).births = a.births from bury_births v d]
    rcases List.mem_cons.mp (mem_vital (by trivial) hquiet hmem) with heq | hmem
    · cases heq
      exact h.serial hlive
    · exact h.freed hmem

theorem Move.lifeStep (hmove : Move action a b c) (hq : Queued b) :
    LifeStep action a b c := by
  have hnil := not_vital_nil
  have hlive : b.state b.currpid = .curr →
      (b.proctab b.currpid).prstate ≠ .free := fun hcurr => by
    rw [show (b.proctab b.currpid).prstate = .curr from hcurr]
    decide
  cases hmove with
  | adjust hsame =>
      rw [hsame.eq]
      exact .steady (.of_log rfl rfl rfl rfl hnil)
  | demote hcurr =>
      exact .steady (.update b.currpid _ rfl (.state (by simp) (hlive hcurr))
        rfl rfl rfl hnil)
  | @dispatch _ p l hidle hfirst =>
      have hready : b.state p = .ready := by
        rw [← hq.mem_readyq, hfirst]
        simp
      exact .steady (.update p _ rfl
        (.state (by simp) (free_ne hready (by decide))) rfl rfl rfl hnil)
  | suspendCurr hcurr =>
      exact .steady (.update b.currpid _ rfl (.state (by simp) (hlive hcurr))
        rfl rfl rfl hnil)
  | @suspendReady _ p hready =>
      exact .steady (.update p _ rfl
        (.state (by simp) (free_ne hready (by decide))) rfl rfl rfl hnil)
  | @resume _ p hsusp =>
      exact .steady (.update p _ rfl
        (.state (by simp) (free_ne hsusp (by decide))) rfl rfl rfl hnil)
  | @chprio p newprio =>
      exact .steady (.update p _ rfl ⟨Iff.rfl, rfl, rfl⟩ rfl rfl rfl hnil)
  | @deliver _ p msg =>
      exact .steady (.update p _ rfl ⟨Iff.rfl, rfl, rfl⟩ rfl rfl
        (w := [.sent p msg]) rfl (by simp [Vital]))
  | @deliverRecv _ p msg hempty hrecv =>
      exact .steady (.update p _ (proctab_setProc_setProc b p
        (fun e => { e with prmsg := msg, prhasmsg := true })
        (fun e => { e with prstate := .ready }))
        ⟨by simp [free_ne hrecv (by decide)], rfl, rfl⟩ rfl rfl
        (w := [.sent p msg]) rfl (by simp [Vital]))
  | @deliverRectim _ p msg hempty hrectim =>
      exact .steady (.update p _ (proctab_setProc_setProc b p
        (fun e => { e with prmsg := msg, prhasmsg := true })
        (fun e => { e with prstate := .ready }))
        ⟨by simp [free_ne hrectim (by decide)], rfl, rfl⟩ rfl rfl
        (w := [.unslept p, .sent p msg]) rfl (by simp [Vital]))
  | @awaitMessage _ hcurr hempty hnull hctx =>
      exact .steady (.update b.currpid _ (proctab_setProc_setProc b b.currpid
        (fun e => { e with prstate := .recv })
        (fun e => { e with prctx := .receiveRet :: e.prctx }))
        ⟨by simp [hlive hcurr], rfl, rfl⟩ rfl rfl rfl hnil)
  | fetch =>
      exact .steady (.update b.currpid _ rfl ⟨Iff.rfl, rfl, rfl⟩ rfl rfl
        (w := [_]) rfl (by simp [Vital]))
  | @fetchRet _ rest hcurr hctx =>
      exact .steady (.update b.currpid _ (proctab_setProc_setProc b b.currpid
        (fun e => { e with prctx := e.prctx.tail })
        (fun e => { e with prhasmsg := false }))
        ⟨Iff.rfl, kills_tail hctx rfl, rfl⟩ rfl rfl
        (w := [_]) rfl (by simp [Vital]))
  | @fetchTimed _ rest hcurr hctx hfull =>
      exact .steady (.update b.currpid _ (proctab_setProc_setProc b b.currpid
        (fun e => { e with prctx := e.prctx.tail })
        (fun e => { e with prhasmsg := false }))
        ⟨Iff.rfl, kills_tail hctx rfl, rfl⟩ rfl rfl
        (w := [_]) rfl (by simp [Vital]))
  | timeOut =>
      exact .steady (.of_log rfl rfl rfl (w := [_]) rfl
        (by simp [Vital]))
  | @sleep _ ticks hcurr =>
      exact .steady (.update b.currpid _ rfl (.state (by simp) (hlive hcurr))
        rfl rfl (w := [.slept b.currpid ticks]) rfl (by simp [Vital]))
  | @awaitTimed _ ticks hcurr =>
      exact .steady (.update b.currpid _ (proctab_setProc_setProc b b.currpid
        (fun e => { e with prstate := .rectim })
        (fun e => { e with prctx := .recvtimeRet :: e.prctx }))
        ⟨by simp [hlive hcurr], rfl, rfl⟩ rfl rfl
        (w := [.slept b.currpid ticks]) rfl (by simp [Vital]))
  | tick =>
      exact .steady (.of_log rfl rfl rfl (w := [.ticked]) rfl
        (by simp [Vital]))
  | @expire _ p l haction hfirst hdue =>
      have hmem : p ∈ b.lists SLEEPQ := by simp [hfirst]
      have hne : (b.proctab p).prstate ≠ .free := by
        rcases hq.mem_sleepq.mp hmem with hs | hs <;>
          exact free_ne hs (by decide)
      exact .steady (.update p _ rfl (.state (by simp) hne) rfl rfl
        (w := [.expired p]) rfl (by simp [Vital]))
  | @pass _ sem =>
      exact .steady (.of_log rfl rfl rfl (w := [.passed sem]) rfl
        (by simp [Vital]))
  | @wait _ sem hid hused hcurr =>
      exact .steady (.update b.currpid _ rfl ⟨by simp [hlive hcurr], rfl, rfl⟩
        rfl rfl (w := [.waited sem b.currpid]) rfl (by simp [Vital]))
  | @signal _ sem =>
      exact .steady (.of_log rfl rfl rfl (w := [.signalled sem]) rfl
        (by simp [Vital]))
  | @release _ sem p l hid hused hcount hfirst =>
      have hwait := (waiter_waits hq hid hfirst).2
      exact .steady (.update p _ rfl
        (.state (by simp) (free_ne hwait (by decide))) rfl rfl
        (w := [.released sem p, .signalled sem]) rfl (by simp [Vital]))
  | @flush _ sem p l hid hfirst =>
      have hwait := (waiter_waits hq hid hfirst).2
      exact .steady (.update p _ rfl
        (.state (by simp) (free_ne hwait (by decide))) rfl rfl
        (w := [.flushed sem p]) rfl (by simp [Vital]))
  | @stray _ sem w hid hcount hnone hevents =>
      refine .steady (.of_log rfl rfl rfl (w := w) rfl ?_)
      rcases hevents with rfl | rfl <;> simp [Vital]
  | @semcreate _ sem count =>
      exact .steady (.of_log rfl rfl rfl (w := [.started sem count])
        rfl (by simp [Vital]))
  | @semreset _ sem count =>
      exact .steady (.of_log rfl rfl rfl (w := [.started sem count])
        rfl (by simp [Vital]))
  | semfree => exact .steady (.of_log rfl rfl rfl rfl hnil)
  | semdone => exact .steady (.of_log rfl rfl rfl rfl hnil)
  | create hid hfree hstate hempty hctx hserial =>
      exact .create hid hfree hstate hctx hserial rfl
  | @setdesc _ p desc =>
      exact .steady (.update p _ rfl ⟨Iff.rfl, rfl, rfl⟩ rfl rfl rfl hnil)
  | @pushFrame _ frame hkill =>
      refine .steady (.update b.currpid _ rfl (.push ?_) rfl rfl rfl hnil)
      cases frame <;> first | rfl | exact absurd rfl (hkill _ _ _)
  | @popFrame _ frame rest hctx hkill =>
      refine .steady (.update b.currpid _ rfl ⟨Iff.rfl, kills_tail hctx ?_, rfl⟩
        rfl rfl rfl hnil)
      cases frame <;> first | rfl | exact absurd rfl (hkill _ _ _)
  | kill haction hvictim => exact .kill haction hvictim rfl rfl
  | @killClose _ v s i rest hctx hturn =>
      refine .steady (.update b.currpid _ (proctab_setProc_setProc b b.currpid
        (fun e => { e with prctx := e.prctx.tail })
        (fun e => { e with prctx := .kill v s (i + 1) :: e.prctx }))
        ⟨Iff.rfl, ?_, rfl⟩ rfl rfl rfl hnil)
      unfold Procent.kills
      rw [show (b.proctab b.currpid).prctx = _ from hctx]
      rfl
  | killFinish haction hctx hlast =>
      exact .finish haction hctx hlast rfl rfl

/-- Every move of a run with kills apart keeps the books. -/
theorem Move.killInv
    (hmove : Move action a b c) (ha : Settled a) (hkills : KillsApart a action)
    (hq : Queued b) (h : KillInv b) : KillInv c := by
  cases hmove.lifeStep hq with
  | steady hsteady => exact h.steady hsteady
  | create hid hfree hstate hctx hserial hc =>
      rw [hc]
      exact h.create hid hfree hstate hctx hserial rfl rfl rfl rfl
  | kill haction hvictim hb hc =>
      subst haction hb hc
      exact h.kill hq ha.running hvictim hkills
  | @finish v s i rest haction hctx hlast hb hc =>
      subst haction hb hc
      exact h.finish hq hctx (hkills v s i rest hctx hlast)

end Invariant

/-! ## Runs -/

/-- When no kill is in progress, `prcount` is the number of entries in use; the
stack of a process that was created has been released once if the process is
gone, and not at all otherwise; and the victim of a kill in progress is still
the process that the kill was called for. -/
structure LifetimeLaw (k : Kernel Queuetab) : Prop where
  prcount : (∀ p, ProcId p → (k.proctab p).kills = []) →
    k.prcount = k.total Procent.living
  released : ∀ {p n}, .created p n ∈ k.log →
    k.log.count (.stackFreed p n) =
      if k.state p ≠ .free ∧ (k.proctab p).serial = n then 0 else 1
  victims : ∀ {p v s i}, .kill v s i ∈ (k.proctab p).prctx →
    k.state v ≠ .free ∧ (k.proctab v).serial = s

section Law

variable {mem : Memory} {memlistAddr imageEnd : Word}
variable {k₀ k : Kernel Queuetab}

theorem lifetimeLaw_of_killInv
    {a : Kernel QueueLists} (t : Queuetab) (h : KillInv a) :
    LifetimeLaw (a.withTable t) := by
  constructor
  · intro hnone
    have hpending : a.total Procent.killCount = 0 :=
      total_eq_zero fun {x} hx => by
        rw [Procent.killCount, show (a.proctab x).kills = [] from hnone x hx]
        rfl
    have hcount := h.count
    rw [hpending, sub_zero] at hcount
    exact hcount
  · exact fun hmem => (h.created hmem).2
  · exact fun hmem => h.target (mem_kills.mpr ⟨_, hmem⟩)

theorem boot_kills (heap : Heap) (stk : Word) (x : ℤ) :
    ((bootKernel emptyLists heap stk).proctab x).kills = [] := by
  unfold Procent.kills
  rw [boot_prctx]
  rfl

theorem boot_killInv (heap : Heap) (stk : Word) :
    KillInv (bootKernel emptyLists heap stk) := by
  have hkills := boot_kills heap stk
  have hserial : ∀ x, ((bootKernel emptyLists heap stk).proctab x).serial = 0 := by
    intro x
    unfold bootKernel
    by_cases hx : x = NULLPROC
    · simp [hx, nullEntry, freeEntry]
    · simp [hx, freeEntry]
  have hnull : ProcId NULLPROC := (boot_settled heap stk).queued.current
  constructor
  · let empty : Kernel QueueLists :=
      { bootKernel emptyLists heap stk with proctab := fun _ => freeEntry }
    have hnone : empty.total Procent.living = 0 := total_eq_zero fun _ => rfl
    have hone : (bootKernel emptyLists heap stk).total Procent.living = 1 := by
      rw [total_update (b := empty) (p := NULLPROC) (e := nullEntry stk) hnull
        rfl, hnone]
      rfl
    have hzero : (bootKernel emptyLists heap stk).total Procent.killCount = 0 :=
      total_eq_zero fun {x} _ => by
        rw [Procent.killCount, hkills]
        rfl
    rw [hone, hzero]
    rfl
  · exact fun hne => absurd (hkills _) hne
  · intro x v s hmem
    rw [hkills] at hmem
    cases hmem
  · intro v
    refine le_trans (le_of_eq (total_eq_zero fun {x} _ => ?_)) zero_le_one
    rw [Procent.killsOf, hkills]
    rfl
  · intro x _
    rw [hserial]
    exact Nat.one_pos
  · exact fun hmem => absurd hmem List.not_mem_nil
  · exact fun hmem => absurd hmem List.not_mem_nil

/-- In every run with kills apart the table, `prcount` and the stacks agree. -/
theorem lifetimes_of_kills_apart
    (hboot : sysinit mem memlistAddr imageEnd = some k₀)
    (hreach : Reach step KillsApart k₀ k) : LifetimeLaw k := by
  obtain ⟨a, t, rfl, -, -, h⟩ := run_invariant_of_moves hboot hreach KillInv
    boot_killInv fun ha _ hkills hq hinv hmove =>
      hmove.killInv ha hkills hq hinv
  exact lifetimeLaw_of_killInv t h

end Law

/-- A run in which a process is created. -/
theorem lifetimes_of_kills_apart_linkedBoot :
    ∃ k₀ k, sysinit (fun _ => 0) 0x121C30 0x143000 = some k₀ ∧
      Reach step KillsApart k₀ k ∧
      (k.currpid, k.state 1, k.prcount) = (0, .susp, 2) ∧ LifetimeLaw k := by
  obtain ⟨k₀, k, hboot, hreach, hview⟩ := linkedBoot_run KillsApart
    (fun k => (k.currpid, k.state 1, k.prcount))
    [.call (.create 0 1000 20 [])]
    (v := (0, .susp, 2)) (by decide)
    (allowed_of_forall fun k action hmem => by
      simp only [List.mem_cons, List.not_mem_nil, or_false] at hmem
      rcases hmem with rfl
      trivial)
  exact ⟨k₀, k, hboot, hreach, hview, lifetimes_of_kills_apart hboot hreach⟩

/-- Process 3 kills process 2.  The message to the parent of 2 wakes the
parent, which kills 2 as well, to the end; then 3 goes on. -/
theorem double_kill_breaks_lifetimes :
    ¬ ∀ {mem memlistAddr imageEnd k₀ k},
      sysinit mem memlistAddr imageEnd = some k₀ →
        Reach step (fun _ _ => True) k₀ k → LifetimeLaw k := by
  intro hlaw
  obtain ⟨k₀, k, hboot, hreach, hview⟩ := linkedBoot_run (fun _ _ => True)
    (fun k => ((List.range NPROC.toNat).all fun i : ℕ =>
      (k.proctab i).kills.isEmpty, k.prcount, k.total Procent.living))
    [.call (.create 0 1000 30 []), .call (.resume 1),
      .call (.create 0 1000 10 []), .call .receive,
      .call (.create 0 1000 15 []), .call (.resume 3),
      .call (.kill 2), .cont, .call (.kill 2), .cont, .cont, .cont, .cont,
      .call .receive, .call .receive, .cont, .cont, .cont, .cont]
    (v := (true, 2, 3)) (by decide +kernel)
    (allowed_of_forall fun _ _ _ => trivial)
  simp only [Prod.mk.injEq] at hview
  obtain ⟨hnone, hprcount, hliving⟩ := hview
  have hcount := (hlaw hboot hreach).prcount fun p hp => by
    obtain ⟨i, rfl, hi⟩ := hp.index
    rw [List.all_eq_true] at hnone
    exact List.isEmpty_iff.mp
      (hnone i (List.mem_range.mpr (Finset.mem_range.mp hi)))
  rw [hprcount, hliving] at hcount
  omega

end Xinu
