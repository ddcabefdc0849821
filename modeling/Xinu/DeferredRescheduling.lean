import Xinu.KernelModel

/-!
# Deferred rescheduling

Between `resched_cntl(DEFER_START)` and the matching `DEFER_STOP` a call of
`resched` only leaves a note of itself.  The two variables of `Defer` are
compared with the calls made so far: how many deferrals are in force, and
whether a call of `resched` has come since the outermost of them began.  The
counter is an `int32`, so the comparison holds up to that depth.
-/

namespace Xinu

open ByteMemory

/-! ## resched.c -/

structure Defer where
  ndefers : ℤ
  attempt : Bool
  deriving DecidableEq, Repr

inductive DeferCall where
  | resched
  | reschedCntl (defer : ℤ)
  deriving DecidableEq, Repr

/-- What a call leaves behind: the variables, whether rescheduling was
performed, and the status. -/
structure DeferOutcome where
  defer : Defer
  performed : Bool
  status : Word
  deriving DecidableEq, Repr

namespace Defer

/-- `resched` up to its test of `ndefers`; it returns no status. -/
def resched (d : Defer) : DeferOutcome :=
  if 0 < d.ndefers then ⟨{ d with attempt := true }, false, OK⟩
  else ⟨d, true, OK⟩

def reschedCntl (defer : ℤ) (d : Defer) : DeferOutcome :=
  if defer = DEFER_START then
    let attempt := if d.ndefers = 0 then false else d.attempt
    ⟨⟨int32 (d.ndefers + 1), attempt⟩, false, OK⟩
  else if defer = DEFER_STOP then
    if d.ndefers ≤ 0 then ⟨d, false, SYSERR⟩
    else
      let d := { d with ndefers := int32 (d.ndefers - 1) }
      if d.ndefers = 0 ∧ d.attempt = true then d.resched
      else ⟨d, false, OK⟩
  else ⟨d, false, SYSERR⟩

def call (d : Defer) : DeferCall → DeferOutcome
  | .resched => d.resched
  | .reschedCntl defer => d.reschedCntl defer

/-- The variables after a history, newest call first. -/
def after (d : Defer) : List DeferCall → Defer
  | [] => d
  | c :: hist => ((d.after hist).call c).defer

end Defer

/-! ## Histories of calls -/

namespace DeferCall

def start : DeferCall := .reschedCntl DEFER_START

def stop : DeferCall := .reschedCntl DEFER_STOP

/-- The deferrals in force after a history; an unmatched stop ends none. -/
def depth : List DeferCall → ℕ
  | [] => 0
  | c :: hist =>
      if c = start then depth hist + 1
      else if c = stop then depth hist - 1
      else depth hist

/-- The outermost deferral in force began with the first call behind `pre`,
and `post` are the calls since. -/
structure OpenSince (hist post pre : List DeferCall) : Prop where
  split : hist = post ++ start :: pre
  outermost : depth pre = 0
  held : ∀ newer older, post = newer ++ older →
    1 ≤ depth (older ++ start :: pre)

/-- A call of `resched` has come since the outermost deferral began. -/
def Attempted (hist : List DeferCall) : Prop :=
  ∃ post pre, OpenSince hist post pre ∧ .resched ∈ post

/-- No moment of the history has more deferrals in force than the counter
holds. -/
def Shallow : List DeferCall → Prop
  | [] => True
  | c :: hist => (depth (c :: hist) : ℤ) < 2 ^ 31 ∧ Shallow hist

section Depth

variable {hist : List DeferCall} {c : DeferCall}

@[simp] theorem start_ne_stop : start ≠ stop := by decide

@[simp] theorem depth_nil : depth [] = 0 := rfl

@[simp] theorem depth_start : depth (start :: hist) = depth hist + 1 :=
  if_pos rfl

@[simp] theorem depth_stop : depth (stop :: hist) = depth hist - 1 :=
  (if_neg start_ne_stop.symm).trans (if_pos rfl)

theorem depth_other (hstart : c ≠ start) (hstop : c ≠ stop) :
    depth (c :: hist) = depth hist :=
  (if_neg hstart).trans (if_neg hstop)

theorem Shallow.depth_lt (hshallow : Shallow hist) :
    (depth hist : ℤ) < 2 ^ 31 := by
  cases hist with
  | nil => simp
  | cons c hist => exact hshallow.1

theorem exists_openSince (hdepth : 1 ≤ depth hist) :
    ∃ post pre, OpenSince hist post pre := by
  induction hist with
  | nil => simp at hdepth
  | cons c hist ih =>
      by_cases hopen : 1 ≤ depth hist
      · obtain ⟨post, pre, hsplit, houter, hheld⟩ := ih hopen
        refine ⟨c :: post, pre, by rw [hsplit]; rfl, houter, ?_⟩
        intro newer older heq
        cases newer with
        | nil =>
            rw [List.nil_append] at heq
            rwa [← heq, List.cons_append, ← hsplit]
        | cons x newer =>
            rw [List.cons_append, List.cons.injEq] at heq
            exact hheld newer older heq.2
      · have hzero : depth hist = 0 := by omega
        have hc : c = start := by
          by_contra hne
          by_cases hstop : c = stop
          · rw [hstop, depth_stop, hzero] at hdepth
            omega
          · rw [depth_other hne hstop, hzero] at hdepth
            omega
        subst hc
        refine ⟨[], hist, rfl, hzero, ?_⟩
        intro newer older heq
        obtain ⟨-, rfl⟩ := List.append_eq_nil_iff.mp heq.symm
        exact hdepth

/-- One more call while a deferral is in force. -/
theorem OpenSince.cons {post pre : List DeferCall}
    (ho : OpenSince hist post pre) (hdepth : 1 ≤ depth (c :: hist)) :
    OpenSince (c :: hist) (c :: post) pre := by
  refine ⟨by rw [ho.split]; rfl, ho.outermost, ?_⟩
  intro newer older heq
  cases newer with
  | nil =>
      rw [List.nil_append] at heq
      rwa [← heq, List.cons_append, ← ho.split]
  | cons x newer =>
      rw [List.cons_append, List.cons.injEq] at heq
      exact ho.held newer older heq.2

theorem attempted_cons
    (hbefore : 1 ≤ depth hist) (hdepth : 1 ≤ depth (c :: hist)) :
    Attempted (c :: hist) ↔ c = .resched ∨ Attempted hist := by
  constructor
  · rintro ⟨post, pre, ho, hmem⟩
    cases post with
    | nil => simp at hmem
    | cons x post =>
        have hsplit := ho.split
        rw [List.cons_append, List.cons.injEq] at hsplit
        obtain ⟨rfl, hrest⟩ := hsplit
        rcases List.mem_cons.mp hmem with heq | hmem
        · exact Or.inl heq.symm
        · refine Or.inr ⟨post, pre, ⟨hrest, ho.outermost, ?_⟩, hmem⟩
          intro newer older heq
          exact ho.held (c :: newer) older (by rw [heq]; rfl)
  · rintro (rfl | ⟨post, pre, ho, hmem⟩)
    · obtain ⟨post, pre, ho⟩ := exists_openSince hbefore
      exact ⟨_, pre, ho.cons hdepth, by simp⟩
    · exact ⟨_, pre, ho.cons hdepth, List.mem_cons_of_mem c hmem⟩

/-- A deferral that has just begun has seen no call of `resched`. -/
theorem not_attempted_start (hzero : depth hist = 0) :
    ¬ Attempted (start :: hist) := by
  rintro ⟨post, pre, ho, hmem⟩
  cases post with
  | nil => simp at hmem
  | cons x post =>
      have hheld := ho.held [x] post rfl
      have hsplit := ho.split
      rw [List.cons_append, List.cons.injEq] at hsplit
      rw [← hsplit.2] at hheld
      omega

end Depth

/-! ## The variables of Defer -/

/-- The counter counts, and while it is positive the flag is right. -/
structure Tracked (hist : List DeferCall) (d : Defer) : Prop where
  ndefers : d.ndefers = depth hist
  attempt : 1 ≤ depth hist → (d.attempt = true ↔ Attempted hist)

section Tracking

variable {hist : List DeferCall} {d : Defer} {c : DeferCall}

theorem Tracked.call_start
    (ht : Tracked hist d) (hdeep : (depth hist : ℤ) + 1 < 2 ^ 31) :
    d.call start =
      ⟨⟨depth hist + 1, if depth hist = 0 then false else d.attempt⟩, false,
        OK⟩ := by
  have hexact : int32 ((depth hist : ℤ) + 1) = depth hist + 1 :=
    int32_of_range (by omega) hdeep
  simp [start, Defer.call, Defer.reschedCntl, ht.ndefers, hexact]

theorem Tracked.call_stop
    (ht : Tracked hist d) (hdeep : (depth hist : ℤ) < 2 ^ 31) :
    d.call stop =
      if depth hist = 0 then ⟨d, false, SYSERR⟩
      else
        ⟨⟨depth hist - 1, d.attempt⟩,
          decide (depth hist = 1 ∧ d.attempt = true), OK⟩ := by
  have hcount := ht.ndefers
  by_cases hzero : depth hist = 0
  · simp [stop, Defer.call, Defer.reschedCntl, hcount, hzero, DEFER_STOP,
      DEFER_START]
  · have hexact : int32 (d.ndefers - 1) = (depth hist : ℤ) - 1 := by
      rw [hcount]
      exact int32_of_range (by omega) (by omega)
    have hpos : ¬ d.ndefers ≤ 0 := by omega
    have hlast : (depth hist : ℤ) - 1 = 0 ↔ depth hist = 1 := by omega
    by_cases hone : depth hist = 1 ∧ d.attempt = true
    · simp [stop, Defer.call, Defer.reschedCntl, Defer.resched, hexact, hpos,
        hone, DEFER_STOP, DEFER_START]
    · simp [stop, Defer.call, Defer.reschedCntl, hexact, hpos, hzero, hlast,
        hone, DEFER_STOP, DEFER_START]

theorem Tracked.call_resched (ht : Tracked hist d) :
    d.call .resched =
      if depth hist = 0 then ⟨d, true, OK⟩
      else ⟨{ d with attempt := true }, false, OK⟩ := by
  have hcount := ht.ndefers
  by_cases hzero : depth hist = 0
  · simp [Defer.call, Defer.resched, hcount, hzero]
  · have hpos : 0 < d.ndefers := by omega
    simp [Defer.call, Defer.resched, hpos, hzero]

theorem call_other
    {defer : ℤ} (hstart : defer ≠ DEFER_START) (hstop : defer ≠ DEFER_STOP) :
    d.call (.reschedCntl defer) = ⟨d, false, SYSERR⟩ := by
  simp [Defer.call, Defer.reschedCntl, hstart, hstop]

theorem Tracked.cons
    (ht : Tracked hist d) (hshallow : Shallow (c :: hist)) :
    Tracked (c :: hist) (d.call c).defer := by
  obtain ⟨hdeep, hrest⟩ := hshallow
  by_cases hstart : c = start
  · subst hstart
    rw [depth_start] at hdeep
    rw [ht.call_start (by omega)]
    refine ⟨by simp, ?_⟩
    intro hopen
    by_cases hzero : depth hist = 0
    · simp [hzero, not_attempted_start hzero]
    · have hbefore : 1 ≤ depth hist := by omega
      rw [attempted_cons hbefore hopen, ← ht.attempt hbefore]
      simp [hzero, start]
  · by_cases hstop : c = stop
    · subst hstop
      rw [ht.call_stop hrest.depth_lt]
      by_cases hzero : depth hist = 0
      · rw [if_pos hzero]
        refine ⟨by simp [hzero, ht.ndefers], ?_⟩
        simp [hzero]
      · rw [if_neg hzero]
        have hleft : (depth hist : ℤ) - 1 = depth (stop :: hist) := by
          rw [depth_stop]
          omega
        refine ⟨hleft, ?_⟩
        intro hopen
        have hbefore : 1 ≤ depth hist := by omega
        rw [attempted_cons hbefore hopen, ← ht.attempt hbefore]
        simp [stop]
    · have hsame : depth (c :: hist) = depth hist := depth_other hstart hstop
      cases c with
      | resched =>
          rw [ht.call_resched]
          by_cases hzero : depth hist = 0
          · rw [if_pos hzero]
            refine ⟨by rw [hsame]; exact ht.ndefers, ?_⟩
            intro hopen
            omega
          · rw [if_neg hzero]
            refine ⟨by rw [hsame]; exact ht.ndefers, ?_⟩
            intro hopen
            simp [attempted_cons (by omega) hopen]
      | reschedCntl defer =>
          have hd₁ : defer ≠ DEFER_START := fun h => hstart (by rw [h]; rfl)
          have hd₂ : defer ≠ DEFER_STOP := fun h => hstop (by rw [h]; rfl)
          rw [call_other hd₁ hd₂]
          refine ⟨by rw [hsame]; exact ht.ndefers, ?_⟩
          intro hopen
          rw [attempted_cons (by omega) hopen, ← ht.attempt (by omega)]
          simp

/-- The run lemma: after any history that starts with no deferral in force. -/
theorem tracked_after
    (attempt : Bool) (hist : List DeferCall) (hshallow : Shallow hist) :
    Tracked hist (Defer.after ⟨0, attempt⟩ hist) := by
  induction hist with
  | nil => exact ⟨rfl, by simp⟩
  | cons c hist ih => exact (ih hshallow.2).cons hshallow

end Tracking

end DeferCall

/-! ## The kernel -/

namespace Kernel

variable {k : Kernel Queuetab}

def defer (k : Kernel Queuetab) : Defer := ⟨k.ndefers, k.attempt⟩

def setDefer (d : Defer) (k : Kernel Queuetab) : Kernel Queuetab :=
  { k with ndefers := d.ndefers, attempt := d.attempt }

def deferCall (k : Kernel Queuetab) : DeferCall → Kernel Queuetab
  | .resched => k.resched
  | .reschedCntl defer => (k.reschedCntl defer).1

/-- The kernel's calls do to `Defer` what the calls above do, and they
reschedule exactly when these say so. -/
theorem deferCall_eq (c : DeferCall) (hlow : -2 ^ 31 < k.ndefers)
    (hhigh : k.ndefers < 2 ^ 31)
    (hroom : c = .start → k.ndefers + 1 < 2 ^ 31) :
    k.deferCall c =
      if (k.defer.call c).performed then
        (k.setDefer (k.defer.call c).defer).resched
      else k.setDefer (k.defer.call c).defer := by
  have hdown : int32 (k.ndefers - 1) = k.ndefers - 1 :=
    int32_of_range (by omega) (by omega)
  have hnull : int32 0 = 0 := by decide
  cases c with
  | resched =>
      by_cases hpos : 0 < k.ndefers
      · simp [deferCall, Kernel.resched, Defer.call, Defer.resched,
          Kernel.defer, setDefer, hpos]
      · simp [deferCall, Defer.call, Defer.resched, Kernel.defer, setDefer,
          hpos]
  | reschedCntl defer =>
      by_cases hstart : defer = DEFER_START
      · have hup : int32 (k.ndefers + 1) = k.ndefers + 1 :=
          int32_of_range (by omega) (hroom (by rw [hstart]; rfl))
        by_cases hzero : k.ndefers = 0
        · simp [deferCall, Kernel.reschedCntl, Defer.call, Defer.reschedCntl,
            Kernel.defer, setDefer, hstart, hzero]
          decide
        · simp [deferCall, Kernel.reschedCntl, Defer.call, Defer.reschedCntl,
            Kernel.defer, setDefer, hstart, hzero, hup]
      · by_cases hstop : defer = DEFER_STOP
        · by_cases hnone : k.ndefers ≤ 0
          · simp [deferCall, Kernel.reschedCntl, Defer.call, Defer.reschedCntl,
              Kernel.defer, setDefer, hstop, hnone, DEFER_START, DEFER_STOP]
          · by_cases hlast : k.ndefers - 1 = 0 ∧ k.attempt = true
            · simp [deferCall, Kernel.reschedCntl, Defer.call,
                Defer.reschedCntl, Defer.resched, Kernel.defer, setDefer,
                hstop, hnone, hlast, hnull, DEFER_START, DEFER_STOP]
            · simp [deferCall, Kernel.reschedCntl, Defer.call,
                Defer.reschedCntl, Kernel.defer, setDefer, hstop, hnone,
                hlast, hdown, DEFER_START, DEFER_STOP]
        · simp [deferCall, Kernel.reschedCntl, Defer.call, Defer.reschedCntl,
            Kernel.defer, setDefer, hstart, hstop]

end Kernel

/-! ## No switch inside, one at the end -/

namespace DeferCall

section Law

variable {hist : List DeferCall} {d : Defer} {c : DeferCall}

/-- Rescheduling is performed by a `resched` outside of all deferrals and by
the stop of an outermost one that has seen a call of `resched`. -/
theorem Tracked.performed_iff
    (ht : Tracked hist d) (hshallow : Shallow (c :: hist)) :
    (d.call c).performed = true ↔
      (c = .resched ∧ depth hist = 0) ∨
        (c = stop ∧ depth hist = 1 ∧ Attempted hist) := by
  obtain ⟨hdeep, hrest⟩ := hshallow
  by_cases hstart : c = start
  · subst hstart
    rw [depth_start] at hdeep
    rw [ht.call_start (by omega)]
    have hne : start ≠ .resched := by decide
    simp [hne]
  · by_cases hstop : c = stop
    · subst hstop
      rw [ht.call_stop hrest.depth_lt]
      by_cases hzero : depth hist = 0
      · simp [hzero, stop]
      · have hattempt := ht.attempt (by omega)
        simp [hzero, stop, hattempt]
    · cases c with
      | resched =>
          rw [ht.call_resched]
          by_cases hzero : depth hist = 0 <;> simp [hzero, stop]
      | reschedCntl defer =>
          have hd₁ : defer ≠ DEFER_START := fun h => hstart (by rw [h]; rfl)
          have hd₂ : defer ≠ DEFER_STOP := fun h => hstop (by rw [h]; rfl)
          simp [call_other hd₁ hd₂, hstop]

end Law

theorem deferral_law
    (attempt : Bool) (hist : List DeferCall) (c : DeferCall)
    (hshallow : Shallow (c :: hist)) :
    let d := Defer.after ⟨0, attempt⟩ hist
    ((d.call c).performed = true → depth (c :: hist) = 0) ∧
      (c = .resched → depth hist = 0 → (d.call c).performed = true) ∧
      (c = stop → depth hist = 0 → d.call c = ⟨d, false, SYSERR⟩) ∧
      (c = stop → 1 ≤ depth hist → (d.call c).status = OK) ∧
      (c = stop → depth hist = 1 →
        ((d.call c).performed = true ↔ Attempted hist)) ∧
      ∀ k : Kernel Queuetab, k.defer = d →
        (k.deferCall c =
          if (d.call c).performed then (k.setDefer (d.call c).defer).resched
          else k.setDefer (d.call c).defer) ∧
        (1 ≤ depth (c :: hist) → (k.deferCall c).currpid = k.currpid) := by
  intro d
  have ht : Tracked hist d := tracked_after attempt hist hshallow.2
  have hperformed := ht.performed_iff hshallow
  have houtside : (d.call c).performed = true → depth (c :: hist) = 0 := by
    intro hp
    rcases hperformed.mp hp with ⟨rfl, hzero⟩ | ⟨rfl, hone, -⟩
    · rw [depth_other (by decide) (by decide), hzero]
    · rw [depth_stop, hone]
  refine ⟨houtside, ?_, ?_, ?_, ?_, ?_⟩
  · intro hc hzero
    exact hperformed.mpr (Or.inl ⟨hc, hzero⟩)
  · rintro rfl hzero
    rw [ht.call_stop hshallow.2.depth_lt, if_pos hzero]
  · rintro rfl hopen
    rw [ht.call_stop hshallow.2.depth_lt, if_neg (by omega)]
  · rintro rfl hone
    rw [hperformed]
    simp [hone, stop]
  · intro k hk
    have hcount : k.ndefers = depth hist := by
      rw [← ht.ndefers, ← hk]
      rfl
    have hdeep := hshallow.2.depth_lt
    have hcall := k.deferCall_eq c (by omega) (by omega) (by
      rintro rfl
      have hnext := hshallow.1
      rw [depth_start] at hnext
      omega)
    rw [hk] at hcall
    refine ⟨hcall, ?_⟩
    intro hopen
    have hnot : ¬ (d.call c).performed = true := fun hp => by
      have hzero := houtside hp
      omega
    rw [hcall, if_neg hnot]
    rfl

theorem depth_replicate (n : ℕ) : depth (List.replicate n start) = n := by
  induction n with
  | zero => rfl
  | succ n ih => rw [List.replicate_succ, depth_start, ih]

theorem shallow_replicate {n : ℕ} (hn : (n : ℤ) < 2 ^ 31) :
    Shallow (List.replicate n start) := by
  induction n with
  | zero => trivial
  | succ n ih =>
      refine ⟨?_, ih (by omega)⟩
      rw [← List.replicate_succ, depth_replicate]
      exact hn

/-- One start more than the counter holds, and `resched` no longer waits. -/
theorem performed_of_overflow
    (attempt : Bool) {n : ℕ} (hn : (n : ℤ) + 1 = 2 ^ 31) :
    ((Defer.after ⟨0, attempt⟩ (start :: List.replicate n start)).call
      .resched).performed = true := by
  have ht := tracked_after attempt _ (shallow_replicate (n := n) (by omega))
  have hcount := ht.ndefers
  rw [depth_replicate] at hcount
  have hwrap : int32 ((n : ℤ) + 1) = -2 ^ 31 := by
    rw [hn]
    decide
  have hstart : (Defer.after ⟨0, attempt⟩
      (start :: List.replicate n start)).ndefers = -2 ^ 31 := by
    rw [← hwrap, ← hcount]
    rfl
  simp [Defer.call, Defer.resched, hstart]

theorem deferral_law_not_unbounded :
    ¬ ∀ (attempt : Bool) (hist : List DeferCall) (c : DeferCall),
      ((Defer.after ⟨0, attempt⟩ hist).call c).performed = true →
        depth (c :: hist) = 0 := by
  intro hall
  have hn : ((2147483647 : ℕ) : ℤ) + 1 = 2 ^ 31 := by norm_num
  have hzero := hall false _ .resched (performed_of_overflow false hn)
  rw [depth_other (by decide) (by decide), depth_start] at hzero
  omega

/-- A stop of an outer deferral in which an inner one saw the `resched`. -/
theorem deferral_law_nested :
    ((Defer.after ⟨0, false⟩ [stop, .resched, start, start]).call
      stop).performed = true ∧
      Attempted [stop, .resched, start, start] := by
  have hshallow : Shallow [stop, stop, .resched, start, start] :=
    ⟨by decide, by decide, by decide, by decide, by decide, trivial⟩
  have hlaw := deferral_law false _ _ hshallow
  have hperformed : ((Defer.after ⟨0, false⟩ [stop, .resched, start,
      start]).call stop).performed = true := by decide
  exact ⟨hperformed, (hlaw.2.2.2.2.1 rfl (by decide)).mp hperformed⟩

end DeferCall

end Xinu
