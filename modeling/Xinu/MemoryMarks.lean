import Xinu.CountingSemaphore
import Xinu.TransitionSystem

/-!
# Memory marks

A marked location holds its own place in the table `marks`, so one comparison
tells whether any location has been marked, whatever it held before.  `mark`
makes this test, and the test for a full table, before it has the mutex; it
does not repeat them when it goes on.  Processes run one access of shared
memory at a time, and a call only reads the location it marks.
-/

namespace Xinu.Marks

open TransitionSystem

def MAXMARK : ℤ := 20

inductive Status
  | ok
  | syserr
  deriving DecidableEq

/-- Where a process is in `mark`, by the access that comes next. -/
inductive Pc
  /-- The three tests of the location. -/
  | nonneg
  | below
  | same
  /-- The test for a full table. -/
  | full
  | wait
  /-- The process has called `wait`; next it has the mutex and reads `nmarks`. -/
  | take
  | count (k : ℤ)
  | loc (k : ℤ)
  | entry (k : ℤ)
  | signal
  deriving DecidableEq

/-- How a call ended, and how matters stood at that moment. -/
structure Return (Loc : Type) where
  loc : Loc
  status : Status
  full : Bool
  marked : Bool

/-- `cell` is what the locations hold.  `marked` are the locations that have got
an entry, in order, and `returns` are the calls that have ended. -/
structure Marking (Loc : Type) where
  cell : Loc → ℤ
  marks : ℤ → Option Loc
  nmarks : ℤ
  mkmutex : CountingSemaphore ℤ
  pc : ℤ → Option (Loc × Pc)
  marked : List Loc
  returns : List (Return Loc)

inductive MarkAction (Loc : Type)
  | call (pid : ℤ) (loc : Loc)
  | go (pid : ℤ)

namespace Marking

variable {Loc : Type} [DecidableEq Loc] (s : Marking Loc)

/-! ## mark.h and mark.c -/

/-- A null entry of `marks` is `none`. -/
def notmarked (L : Loc) : Bool :=
  s.cell L < 0 || s.cell L ≥ s.nmarks || s.marks (s.cell L) ≠ some L

/-- The state before any call; the locations hold anything. -/
def markinit (cell : Loc → ℤ) : Marking Loc where
  cell := cell
  marks := fun _ => none
  nmarks := 0
  mkmutex := .init 1
  pc := fun _ => none
  marked := []
  returns := []

def goto (pid : ℤ) (L : Loc) (pc : Pc) : Marking Loc :=
  { s with pc := Function.update s.pc pid (some (L, pc)) }

def ret (pid : ℤ) (L : Loc) (status : Status) : Marking Loc :=
  { s with
    pc := Function.update s.pc pid none
    returns := s.returns ++
      [⟨L, status, MAXMARK ≤ s.nmarks, L ∈ s.marked⟩] }

/-- The next access of a process that marks `L`. -/
def access (pid : ℤ) (L : Loc) : Pc → Option (Marking Loc)
  | .nonneg => some (s.goto pid L (if s.cell L ≥ 0 then .below else .full))
  | .below =>
      some (s.goto pid L (if s.cell L < s.nmarks then .same else .full))
  | .same =>
      if s.marks (s.cell L) = some L then some (s.ret pid L .ok)
      else some (s.goto pid L .full)
  | .full =>
      if s.nmarks ≥ MAXMARK then some (s.ret pid L .syserr)
      else some (s.goto pid L .wait)
  | .wait => some ({ s with mkmutex := s.mkmutex.wait pid }.goto pid L .take)
  | .take =>
      if pid ∈ s.mkmutex.passed then
        some ({ s with mkmutex := s.mkmutex.goOn pid }.goto pid L
          (.count s.nmarks))
      else none
  | .count k => some ({ s with nmarks := k + 1 }.goto pid L (.loc k))
  | .loc k =>
      some ({ s with cell := Function.update s.cell L k }.goto pid L (.entry k))
  | .entry k =>
      some ({ s with
        marks := Function.update s.marks k (some L)
        marked := s.marked ++ [L] }.goto pid L .signal)
  | .signal => some ({ s with mkmutex := s.mkmutex.signal }.ret pid L .ok)

end Marking

section Machine

variable {Loc : Type} [DecidableEq Loc]

def markStep (s : Marking Loc) : MarkAction Loc → Option (Marking Loc)
  | .call pid L => if s.pc pid = none then some (s.goto pid L .nonneg) else none
  | .go pid => (s.pc pid).bind fun (L, pc) => s.access pid L pc

/-- The tests still hold when they matter: a process that gets the mutex finds
its location unmarked and the table not full, and one that is refused finds its
location unmarked. -/
def StillTrue (s : Marking Loc) : MarkAction Loc → Prop
  | .call _ _ => True
  | .go pid =>
      match s.pc pid with
      | some (L, .take) => L ∉ s.marked ∧ s.nmarks < MAXMARK
      | some (L, .full) => s.nmarks ≥ MAXMARK → L ∉ s.marked
      | _ => True

instance (s : Marking Loc) (action : MarkAction Loc) :
    Decidable (StillTrue s action) := by
  cases action with
  | call pid L => exact inferInstanceAs (Decidable True)
  | go pid =>
      unfold StillTrue
      dsimp only
      split <;> infer_instance

structure MarkLaw (s : Marking Loc) : Prop where
  notmarked : ∀ L, s.notmarked L = false ↔ L ∈ s.marked
  once : ∀ {i j L}, s.marks i = some L → s.marks j = some L → i = j
  nmarks_le : s.nmarks ≤ MAXMARK
  refused : ∀ r ∈ s.returns, r.status = .syserr →
    r.full = true ∧ r.marked = false
  done : ∀ r ∈ s.returns, r.status = .ok → r.marked = true

end Machine

/-! ## The invariant -/

variable {Loc : Type}

/-- The process holds the mutex. -/
def Pc.Inside : Pc → Prop
  | .count _ | .loc _ | .entry _ | .signal => True
  | _ => False

/-- How far the holder of the mutex has come with its location. -/
def Progress (s : Marking Loc) (L : Loc) : Pc → Prop
  | .count k => k = s.marked.length ∧ s.nmarks = s.marked.length ∧
      L ∉ s.marked ∧ (s.marked.length : ℤ) < MAXMARK
  | .loc k => k = s.marked.length ∧ s.nmarks = s.marked.length + 1 ∧
      L ∉ s.marked ∧ (s.marked.length : ℤ) < MAXMARK
  | .entry k => k = s.marked.length ∧ s.nmarks = s.marked.length + 1 ∧
      L ∉ s.marked ∧ (s.marked.length : ℤ) < MAXMARK ∧ s.cell L = k
  | .signal => s.nmarks = s.marked.length ∧ L ∈ s.marked
  | _ => False

/-- The table and the locations agree; nobody needs the mutex for this. -/
structure Tables (s : Marking Loc) : Prop where
  entries : ∀ i, s.marks i = if 0 ≤ i then s.marked[i.toNat]? else none
  cells : ∀ {i : ℕ} {L}, s.marked[i]? = some L → s.cell L = i
  length_le : (s.marked.length : ℤ) ≤ MAXMARK
  refused : ∀ r ∈ s.returns, r.status = .syserr →
    r.full = true ∧ r.marked = false
  done : ∀ r ∈ s.returns, r.status = .ok → r.marked = true

structure MarkInv (s : Marking Loc) (holder : Option ℤ) : Prop where
  tables : Tables s
  sound : s.mkmutex.Sound
  permits : s.mkmutex.count + s.mkmutex.inside + holder.toList.length = 1
  inside : ∀ {pid L pc}, s.pc pid = some (L, pc) → pc.Inside → holder = some pid
  progress : ∀ {pid}, holder = some pid →
    ∃ L pc, s.pc pid = some (L, pc) ∧ Progress s L pc
  idle : holder = none → s.nmarks = s.marked.length

section Invariant

variable {s s' : Marking Loc} {holder : Option ℤ} {pid : ℤ} {L : Loc} {k : ℤ}
  {action : MarkAction Loc}

theorem Tables.mem_of_entry (h : Tables s) {i : ℤ} (hi : s.marks i = some L) :
    L ∈ s.marked := by
  rw [h.entries] at hi
  split_ifs at hi
  exact List.mem_of_getElem? hi

theorem Tables.entry_of_mem (h : Tables s) (hL : L ∈ s.marked) :
    0 ≤ s.cell L ∧ s.cell L < s.marked.length ∧
      s.marks (s.cell L) = some L := by
  obtain ⟨i, hi⟩ := List.mem_iff_getElem?.mp hL
  have hcell := h.cells hi
  have hlt := (List.getElem?_eq_some_iff.mp hi).1
  rw [hcell, h.entries, if_pos (by omega), Int.toNat_natCast]
  exact ⟨by omega, by omega, hi⟩

theorem MarkInv.nmarks_bounds (h : MarkInv s holder) :
    (s.marked.length : ℤ) ≤ s.nmarks ∧ s.nmarks ≤ MAXMARK := by
  have hlen := h.tables.length_le
  cases holder with
  | none =>
      rw [h.idle rfl]
      exact ⟨le_rfl, hlen⟩
  | some pid =>
      obtain ⟨L, pc, -, hprogress⟩ := h.progress rfl
      cases pc <;> simp only [Progress] at hprogress <;> omega

/-- A process whose next access is none of the mutex holder's does not hold the
mutex. -/
theorem MarkInv.not_holder
    {pc : Pc} (h : MarkInv s holder) (hpc : s.pc pid = some (L, pc))
    (hout : ¬ pc.Inside) : holder ≠ some pid := by
  intro hholder
  obtain ⟨L', pc', hpc', hprogress⟩ := h.progress hholder
  rw [hpc] at hpc'
  cases hpc'
  cases pc <;> simp [Progress, Pc.Inside] at hprogress hout

/-- A step of a process that neither holds the mutex nor gets it. -/
theorem MarkInv.outside
    {next : Option (Loc × Pc)} (h : MarkInv s holder) (hpid : holder ≠ some pid)
    (hcell : s'.cell = s.cell) (hmarks : s'.marks = s.marks)
    (hnmarks : s'.nmarks = s.nmarks) (hmarked : s'.marked = s.marked)
    (hpc : s'.pc = Function.update s.pc pid next)
    (hnext : ∀ L pc, next = some (L, pc) → ¬ pc.Inside)
    (hsound : s'.mkmutex.Sound)
    (hpermits : s'.mkmutex.count + s'.mkmutex.inside =
      s.mkmutex.count + s.mkmutex.inside)
    (hrefused : ∀ r ∈ s'.returns, r.status = .syserr →
      r.full = true ∧ r.marked = false)
    (hdone : ∀ r ∈ s'.returns, r.status = .ok → r.marked = true) :
    MarkInv s' holder := by
  have hsame : ∀ L pc, Progress s L pc → Progress s' L pc := by
    intro L pc hprogress
    unfold Progress
    rw [hnmarks, hmarked, hcell]
    exact hprogress
  refine ⟨⟨?_, ?_, ?_, hrefused, hdone⟩, hsound, ?_, ?_, ?_, ?_⟩
  · rw [hmarks, hmarked]
    exact h.tables.entries
  · rw [hmarked, hcell]
    exact h.tables.cells
  · rw [hmarked]
    exact h.tables.length_le
  · rw [hpermits]
    exact h.permits
  · intro p L pc hp hin
    rw [hpc] at hp
    by_cases heq : p = pid
    · rw [heq, Function.update_self] at hp
      exact absurd hin (hnext L pc hp)
    · rw [Function.update_of_ne heq] at hp
      exact h.inside hp hin
  · intro p hp
    have hne : p ≠ pid := by
      rintro rfl
      exact hpid hp
    obtain ⟨L, pc, hold, hprogress⟩ := h.progress hp
    refine ⟨L, pc, ?_, hsame L pc hprogress⟩
    rw [hpc, Function.update_of_ne hne]
    exact hold
  · intro hnone
    rw [hnmarks, hmarked]
    exact h.idle hnone

/-- A step of the mutex holder that keeps the mutex. -/
theorem MarkInv.advance
    {next : Pc} (h : MarkInv s (some pid)) (htables : Tables s')
    (hsem : s'.mkmutex = s.mkmutex)
    (hpc : s'.pc = Function.update s.pc pid (some (L, next)))
    (hprogress : Progress s' L next) : MarkInv s' (some pid) := by
  refine ⟨htables, ?_, ?_, ?_, ?_, nofun⟩
  · rw [hsem]
    exact h.sound
  · rw [hsem]
    exact h.permits
  · intro p L' pc hp hin
    rw [hpc] at hp
    by_cases heq : p = pid
    · rw [heq]
    · rw [Function.update_of_ne heq] at hp
      exact h.inside hp hin
  · rintro p ⟨⟩
    exact ⟨L, next, by rw [hpc, Function.update_self], hprogress⟩

theorem MarkInv.holds_mutex
    {pc : Pc} (h : MarkInv s holder) (hpc : s.pc pid = some (L, pc))
    (hin : pc.Inside) : holder = some pid ∧ Progress s L pc := by
  have hholder := h.inside hpc hin
  obtain ⟨L', pc', hpc', hprogress⟩ := h.progress hholder
  rw [hpc] at hpc'
  cases hpc'
  exact ⟨hholder, hprogress⟩

/-- A process that is let through gets the mutex, which nobody holds. -/
theorem MarkInv.take
    (h : MarkInv s holder) (hpassed : pid ∈ s.mkmutex.passed)
    (hnew : L ∉ s.marked) (hroom : s.nmarks < MAXMARK) :
    MarkInv (({ s with mkmutex := s.mkmutex.goOn pid }).goto pid L
      (.count s.nmarks)) (some pid) := by
  have hpermits := h.permits
  have hinside := CountingSemaphore.inside_goOn hpassed
  have hcount := h.sound.count_inside
  have hpos := List.length_pos_of_mem hpassed
  have hnone : holder = none := by
    cases holder with
    | none => rfl
    | some p =>
        simp only [Option.toList_some, List.length_singleton] at hpermits
        omega
  subst hnone
  have hidle := h.idle rfl
  refine ⟨⟨h.tables.entries, h.tables.cells, h.tables.length_le,
    h.tables.refused, h.tables.done⟩, h.sound.goOn, ?_, ?_, ?_, nofun⟩
  · show (s.mkmutex.goOn pid).count + (s.mkmutex.goOn pid).inside +
      ((1 : ℕ) : ℤ) = 1
    rw [CountingSemaphore.count_goOn]
    simp only [Option.toList_none, List.length_nil] at hpermits
    omega
  · intro p L' pc hp hin
    by_cases heq : p = pid
    · rw [heq]
    · simp only [Marking.goto, Function.update_of_ne heq] at hp
      exact absurd (h.inside hp hin) nofun
  · rintro p ⟨⟩
    exact ⟨L, .count s.nmarks, Function.update_self _ _ _, hidle, hidle, hnew,
      hidle ▸ hroom⟩

theorem MarkInv.release
    [DecidableEq Loc] (h : MarkInv s (some pid)) (hprogress : Progress s L .signal) :
    MarkInv (({ s with mkmutex := s.mkmutex.signal }).ret pid L .ok) none := by
  obtain ⟨hsettled, hmarked⟩ := hprogress
  have hpermits := h.permits
  refine ⟨⟨h.tables.entries, h.tables.cells, h.tables.length_le, ?_, ?_⟩,
    h.sound.signal, ?_, ?_, nofun, fun _ => hsettled⟩
  · intro r hr hbad
    rcases List.mem_append.mp hr with hr | hr
    · exact h.tables.refused r hr hbad
    · rw [List.mem_singleton.mp hr] at hbad
      cases hbad
  · intro r hr hok
    rcases List.mem_append.mp hr with hr | hr
    · exact h.tables.done r hr hok
    · rw [List.mem_singleton.mp hr]
      exact decide_eq_true hmarked
  · show s.mkmutex.signal.count + s.mkmutex.signal.inside + ((0 : ℕ) : ℤ) = 1
    rw [CountingSemaphore.count_signal, CountingSemaphore.inside_signal]
    simp only [Option.toList_some, List.length_singleton] at hpermits
    omega
  · intro p L' pc hp hin
    by_cases heq : p = pid
    · simp [Marking.ret, heq] at hp
    · simp only [Marking.ret, Function.update_of_ne heq] at hp
      have hholder := h.inside hp hin
      exact absurd (Option.some.inj hholder).symm heq

/-- The entry and the location come to name each other. -/
theorem Tables.entry
    (h : Tables s) (hprogress : Progress s L (.entry k)) :
    Tables { s with
      marks := Function.update s.marks k (some L)
      marked := s.marked ++ [L] } := by
  obtain ⟨hk, -, -, hroom, hcell⟩ := hprogress
  refine ⟨?_, ?_, ?_, h.refused, h.done⟩
  · intro i
    dsimp only
    by_cases heq : i = k
    · rw [heq, Function.update_self, if_pos (by omega), hk, Int.toNat_natCast]
      simp
    · rw [Function.update_of_ne heq, h.entries]
      by_cases hi : 0 ≤ i
      · rw [if_pos hi, if_pos hi]
        have hne : i.toNat ≠ s.marked.length := by omega
        rcases Nat.lt_or_gt_of_ne hne with hlt | hgt
        · rw [List.getElem?_append_left hlt]
        · rw [List.getElem?_eq_none (by omega),
            List.getElem?_eq_none (by simp; omega)]
      · rw [if_neg hi, if_neg hi]
  · intro i L' hi
    dsimp only at hi ⊢
    rw [List.getElem?_append] at hi
    split_ifs at hi with hlt
    · exact h.cells hi
    · have hlast : i - s.marked.length = 0 := by
        by_contra hne
        rw [List.getElem?_eq_none (by simp; omega)] at hi
        cases hi
      rw [hlast] at hi
      cases hi
      omega
  · rw [List.length_append, List.length_singleton]
    push_cast
    omega

theorem MarkInv.goto
    {next : Pc} (h : MarkInv s holder) (hpid : holder ≠ some pid)
    (hnext : ¬ next.Inside) : MarkInv (s.goto pid L next) holder :=
  h.outside hpid rfl rfl rfl rfl rfl
    (fun L' pc' heq => by cases heq; exact hnext) h.sound rfl h.tables.refused
    h.tables.done

variable [DecidableEq Loc]

theorem MarkInv.ret
    {status : Status} (h : MarkInv s holder) (hpid : holder ≠ some pid)
    (hrefused : status = .syserr → s.nmarks ≥ MAXMARK ∧ L ∉ s.marked)
    (hdone : status = .ok → L ∈ s.marked) :
    MarkInv (s.ret pid L status) holder := by
  refine h.outside hpid rfl rfl rfl rfl rfl nofun h.sound rfl ?_ ?_
  · intro r hr hbad
    rcases List.mem_append.mp hr with hr | hr
    · exact h.tables.refused r hr hbad
    · rw [List.mem_singleton.mp hr] at hbad ⊢
      exact ⟨decide_eq_true (hrefused hbad).1,
        decide_eq_false (hrefused hbad).2⟩
  · intro r hr hok
    rcases List.mem_append.mp hr with hr | hr
    · exact h.tables.done r hr hok
    · rw [List.mem_singleton.mp hr] at hok ⊢
      exact decide_eq_true (hdone hok)

theorem MarkInv.access
    {pc : Pc} (h : MarkInv s holder) (hpc : s.pc pid = some (L, pc))
    (hok : StillTrue s (.go pid)) (hstep : s.access pid L pc = some s') :
    ∃ holder, MarkInv s' holder := by
  unfold StillTrue at hok
  dsimp only at hok
  rw [hpc] at hok
  cases pc with
  | nonneg =>
      have hout := h.not_holder hpc nofun
      cases hstep
      refine ⟨holder, h.goto hout ?_⟩
      split_ifs <;> nofun
  | below =>
      have hout := h.not_holder hpc nofun
      cases hstep
      refine ⟨holder, h.goto hout ?_⟩
      split_ifs <;> nofun
  | same =>
      have hout := h.not_holder hpc nofun
      simp only [Marking.access] at hstep
      split_ifs at hstep with hentry <;> cases hstep
      · exact ⟨holder, h.ret hout nofun fun _ => h.tables.mem_of_entry hentry⟩
      · exact ⟨holder, h.goto hout nofun⟩
  | full =>
      have hout := h.not_holder hpc nofun
      simp only [Marking.access] at hstep
      split_ifs at hstep with hfull <;> cases hstep
      · exact ⟨holder, h.ret hout (fun _ => ⟨hfull, hok hfull⟩) nofun⟩
      · exact ⟨holder, h.goto hout nofun⟩
  | wait =>
      have hout := h.not_holder hpc nofun
      cases hstep
      refine ⟨holder, h.outside hout rfl rfl rfl rfl rfl ?_ h.sound.wait ?_
        h.tables.refused h.tables.done⟩
      · rintro L' pc' ⟨⟩
        nofun
      · show (s.mkmutex.wait pid).count + (s.mkmutex.wait pid).inside = _
        rw [CountingSemaphore.count_wait, CountingSemaphore.inside_wait]
        push_cast
        ring
  | take =>
      simp only [Marking.access] at hstep
      split_ifs at hstep with hpassed
      cases hstep
      exact ⟨some pid, h.take hpassed hok.1 hok.2⟩
  | count k =>
      obtain ⟨rfl, hk, hn, hnew, hroom⟩ := h.holds_mutex hpc trivial
      cases hstep
      exact ⟨some pid, h.advance
        ⟨h.tables.entries, h.tables.cells, h.tables.length_le,
          h.tables.refused, h.tables.done⟩ rfl rfl
        ⟨hk, congrArg (· + 1) hk, hnew, hroom⟩⟩
  | loc k =>
      obtain ⟨rfl, hk, hn, hnew, hroom⟩ := h.holds_mutex hpc trivial
      cases hstep
      refine ⟨some pid, h.advance ⟨h.tables.entries, ?_, h.tables.length_le,
          h.tables.refused, h.tables.done⟩ rfl rfl
        ⟨hk, hn, hnew, hroom, Function.update_self _ _ _⟩⟩
      intro i L' hi
      have hne : L' ≠ L := by
        rintro rfl
        exact hnew (List.mem_of_getElem? hi)
      simpa [Marking.goto, hne] using h.tables.cells hi
  | entry k =>
      obtain ⟨rfl, hprogress⟩ := h.holds_mutex hpc trivial
      have hentry := h.tables.entry hprogress
      obtain ⟨hk, hn, -⟩ := hprogress
      cases hstep
      refine ⟨some pid, h.advance ⟨hentry.entries, hentry.cells,
        hentry.length_le, hentry.refused, hentry.done⟩ rfl rfl ⟨?_, ?_⟩⟩
      · simp [Marking.goto, hn]
      · simp [Marking.goto]
  | signal =>
      obtain ⟨rfl, hprogress⟩ := h.holds_mutex hpc trivial
      cases hstep
      exact ⟨none, h.release hprogress⟩

theorem MarkInv.step
    (h : MarkInv s holder) (hok : StillTrue s action)
    (hstep : markStep s action = some s') : ∃ holder, MarkInv s' holder := by
  cases action with
  | call pid L =>
      simp only [markStep] at hstep
      split_ifs at hstep with hidle
      cases hstep
      refine ⟨holder, h.goto ?_ nofun⟩
      rintro rfl
      obtain ⟨L', pc, hpc, -⟩ := h.progress rfl
      rw [hidle] at hpc
      cases hpc
  | go pid =>
      obtain ⟨⟨L, pc⟩, hpc, haccess⟩ := Option.bind_eq_some_iff.mp hstep
      exact h.access hpc hok haccess

theorem MarkInv.law (h : MarkInv s holder) : MarkLaw s := by
  refine ⟨?_, ?_, h.nmarks_bounds.2, h.tables.refused, h.tables.done⟩
  · intro L
    unfold Marking.notmarked
    constructor
    · intro hmarked
      simp only [Bool.or_eq_false_iff, decide_eq_false_iff_not, ne_eq,
        not_not] at hmarked
      exact h.tables.mem_of_entry hmarked.2
    · intro hL
      obtain ⟨hlow, hhigh, hentry⟩ := h.tables.entry_of_mem hL
      have hbound := h.nmarks_bounds.1
      simp only [Bool.or_eq_false_iff, decide_eq_false_iff_not, ne_eq, not_not]
      exact ⟨⟨by omega, by omega⟩, hentry⟩
  · intro i j L hi hj
    have hcell : ∀ {i}, s.marks i = some L → s.cell L = i := by
      intro i hi
      rw [h.tables.entries] at hi
      split_ifs at hi with hpos
      have hcell := h.tables.cells hi
      omega
    rw [← hcell hi, hcell hj]

end Invariant

/-- Marks are right in every run in which what `mark` tested before it had the
mutex is still true afterwards. -/
theorem marks_sound
    [DecidableEq Loc] (cell : Loc → ℤ) {s : Marking Loc}
    (hreach : Reach markStep StillTrue (Marking.markinit cell) s) :
    MarkLaw s := by
  obtain ⟨holder, hinv⟩ := hreach.invariant
    (fun s => ∃ holder, MarkInv s holder)
    ⟨none, ⟨fun i => by simp [Marking.markinit], by simp [Marking.markinit],
      show (0 : ℤ) ≤ MAXMARK by decide, by simp [Marking.markinit],
      by simp [Marking.markinit]⟩, .init (by decide), rfl, nofun, nofun,
      fun _ => rfl⟩
    fun _ _ _ ⟨_, h⟩ hok hstep => h.step hok hstep
  exact hinv.law

/-- A location that holds zero before anything is marked, and two processes
that mark two locations, the second one waiting for the mutex. -/
theorem marks_sound_waiting :
    ∃ s, Reach markStep StillTrue (Marking.markinit fun _ : ℕ => 0) s ∧
      (s.marks 0, s.marks 1, s.nmarks) = (some 7, some 8, 2) ∧ MarkLaw s := by
  have hview : (run (fun s action =>
      if StillTrue s action then markStep s action else none)
      (Marking.markinit fun _ : ℕ => 0)
      ([.call 1 7] ++ List.replicate 5 (.go 1) ++ [.call 2 8] ++
        List.replicate 4 (.go 2) ++ List.replicate 4 (.go 1) ++
        List.replicate 5 (.go 2))).map
        (fun s => (s.marks 0, s.marks 1, s.nmarks)) =
      some (some 7, some 8, 2) := by
    decide +kernel
  obtain ⟨s, hrun, hmarks⟩ := Option.map_eq_some_iff.mp hview
  have hreach := Reach.run_checked _ .start hrun
  exact ⟨s, hreach, hmarks, marks_sound _ hreach⟩

/-- Two processes find the same location unmarked, and each marks it. -/
theorem marked_twice :
    ¬ ∀ (cell : ℕ → ℤ) (s : Marking ℕ),
      Reach markStep (fun _ _ => True) (Marking.markinit cell) s →
        MarkLaw s := by
  intro hlaw
  have hview : (run (fun s action => if True then markStep s action else none)
      (Marking.markinit fun _ : ℕ => -1)
      ([.call 1 7, .call 2 7] ++ List.replicate 3 (.go 1) ++
        List.replicate 3 (.go 2) ++ List.replicate 5 (.go 1) ++
        List.replicate 5 (.go 2))).map
        (fun s => (s.marks 0, s.marks 1)) = some (some 7, some 7) := by
    decide +kernel
  obtain ⟨s, hrun, hmarks⟩ := Option.map_eq_some_iff.mp hview
  rw [Prod.mk.injEq] at hmarks
  have honce := (hlaw _ s (Reach.run_checked _ .start hrun)).once hmarks.1
    hmarks.2
  exact absurd honce (by decide)

end Xinu.Marks
