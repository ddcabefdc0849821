import Mathlib.Tactic

/-!
# Counting semaphores

A semaphore lets a process pass at once or makes it wait for a signal, and a
process that may pass goes on only when it runs again.  Until then its permit
is spent and what the permit stands for is not yet used.  The processes in
between, waiting or passed, are inside, and a count that is read by others
includes them.
-/

variable {Process : Type*}

structure CountingSemaphore (Process : Type*) where
  count : ℤ
  waiting : List Process
  passed : List Process

namespace CountingSemaphore

def init (count : ℤ) : CountingSemaphore Process := ⟨count, [], []⟩

variable (s : CountingSemaphore Process)

def wait (p : Process) : CountingSemaphore Process :=
  if s.count - 1 < 0 then
    { s with count := s.count - 1, waiting := s.waiting ++ [p] }
  else { s with count := s.count - 1, passed := s.passed ++ [p] }

def signal : CountingSemaphore Process :=
  match s.waiting with
  | [] => { s with count := s.count + 1 }
  | p :: rest =>
      if s.count < 0 then ⟨s.count + 1, rest, s.passed ++ [p]⟩
      else { s with count := s.count + 1 }

/-- `n` signals, during which no other process runs. -/
def signaln : ℕ → CountingSemaphore Process → CountingSemaphore Process
  | 0, s => s
  | n + 1, s => signaln n s.signal

/-- The process that was let through has used its permit. -/
def goOn [DecidableEq Process] (p : Process) : CountingSemaphore Process :=
  { s with passed := s.passed.erase p }

/-- A process is taken away.  One that waits gives its turn back. -/
def kill [DecidableEq Process] (p : Process) : CountingSemaphore Process :=
  if p ∈ s.waiting then
    { s with count := s.count + 1, waiting := s.waiting.erase p }
  else { s with passed := s.passed.erase p }

/-- The number of processes between `wait` and the use of the permit. -/
def inside : ℕ := s.waiting.length + s.passed.length

def members : List Process := s.waiting ++ s.passed

/-- As many processes wait as the count is below zero. -/
def Sound : Prop := (s.waiting.length : ℤ) = max 0 (-s.count)

variable {s} {p : Process}

theorem Sound.init {count : ℤ} (hcount : 0 ≤ count) :
    (CountingSemaphore.init count : CountingSemaphore Process).Sound := by
  unfold Sound CountingSemaphore.init
  simp only [List.length_nil]
  omega

theorem Sound.wait (h : s.Sound) : (s.wait p).Sound := by
  unfold Sound at *
  unfold CountingSemaphore.wait
  split_ifs with hcount
  · simp only [List.length_append, List.length_singleton]
    push_cast
    omega
  · dsimp only
    omega

theorem Sound.signal (h : s.Sound) : s.signal.Sound := by
  unfold Sound at *
  unfold CountingSemaphore.signal
  cases hwaiting : s.waiting with
  | nil =>
      rw [hwaiting] at h
      simp only [List.length_nil] at h ⊢
      omega
  | cons q rest =>
      rw [hwaiting, List.length_cons] at h
      push_cast at h
      dsimp only
      split_ifs with hcount
      · dsimp only
        omega
      · omega

theorem Sound.signaln {n : ℕ} (h : s.Sound) : (signaln n s).Sound := by
  induction n generalizing s with
  | zero => exact h
  | succ n ih => exact ih h.signal

theorem Sound.goOn [DecidableEq Process] (h : s.Sound) : (s.goOn p).Sound := h

theorem Sound.kill [DecidableEq Process] (h : s.Sound) : (s.kill p).Sound := by
  unfold Sound at *
  unfold CountingSemaphore.kill
  split_ifs with hwaits
  · have hlen := List.length_erase_of_mem hwaits
    have hpos := List.length_pos_of_mem hwaits
    dsimp only
    omega
  · exact h

@[simp] theorem count_wait : (s.wait p).count = s.count - 1 := by
  unfold CountingSemaphore.wait
  split_ifs <;> rfl

@[simp] theorem count_signal : s.signal.count = s.count + 1 := by
  unfold CountingSemaphore.signal
  split
  · rfl
  · split_ifs <;> rfl

@[simp] theorem count_signaln (n : ℕ) : (signaln n s).count = s.count + n := by
  induction n generalizing s with
  | zero => simp [CountingSemaphore.signaln]
  | succ n ih =>
      rw [CountingSemaphore.signaln, ih, count_signal]
      push_cast
      ring

@[simp] theorem count_goOn [DecidableEq Process] :
    (s.goOn p).count = s.count := rfl

@[simp] theorem inside_wait : (s.wait p).inside = s.inside + 1 := by
  unfold CountingSemaphore.wait inside
  split_ifs <;> simp <;> omega

@[simp] theorem inside_signal : s.signal.inside = s.inside := by
  unfold CountingSemaphore.signal inside
  split
  · rfl
  next q rest hwaiting =>
    split_ifs
    · simp [hwaiting]
      omega
    · rfl

@[simp] theorem inside_signaln (n : ℕ) : (signaln n s).inside = s.inside := by
  induction n generalizing s with
  | zero => rfl
  | succ n ih => rw [CountingSemaphore.signaln, ih, inside_signal]

theorem inside_goOn [DecidableEq Process] (hp : p ∈ s.passed) :
    (s.goOn p).inside + 1 = s.inside := by
  unfold CountingSemaphore.goOn inside
  have hlen := List.length_erase_of_mem hp
  have hpos := List.length_pos_of_mem hp
  dsimp only
  omega

/-- A victim that has no permit leaves none behind. -/
theorem count_inside_kill [DecidableEq Process] (hp : p ∉ s.passed) :
    (s.kill p).count + (s.kill p).inside = s.count + s.inside := by
  unfold CountingSemaphore.kill inside
  split_ifs with hwaits
  · have hlen := List.length_erase_of_mem hwaits
    have hpos := List.length_pos_of_mem hwaits
    dsimp only
    omega
  · rw [List.erase_of_not_mem hp]

theorem mem_wait {q : Process} (hq : q ∈ (s.wait p).members) :
    q ∈ s.members ∨ q = p := by
  unfold members CountingSemaphore.wait at *
  split_ifs at hq <;>
    · simp only [List.mem_append, List.mem_singleton] at hq ⊢
      tauto

theorem mem_signal {q : Process} (hq : q ∈ s.signal.members) :
    q ∈ s.members := by
  unfold members CountingSemaphore.signal at *
  split at hq
  · exact hq
  next first rest hwaiting =>
    split_ifs at hq
    · simp only [hwaiting, List.mem_append, List.mem_cons] at hq ⊢
      tauto
    · exact hq

theorem mem_wait_of_mem {q : Process} (hq : q ∈ s.members) :
    q ∈ (s.wait p).members := by
  unfold members CountingSemaphore.wait at *
  split_ifs <;>
    · simp only [List.mem_append, List.mem_singleton] at hq ⊢
      tauto

theorem mem_signal_of_mem {q : Process} (hq : q ∈ s.members) :
    q ∈ s.signal.members := by
  unfold members CountingSemaphore.signal at *
  split
  · exact hq
  next first rest hwaiting =>
    split_ifs
    · simp only [hwaiting, List.mem_append, List.mem_cons] at hq ⊢
      tauto
    · exact hq

theorem mem_goOn_of_ne [DecidableEq Process] {q : Process} (hne : q ≠ p)
    (hq : q ∈ s.members) : q ∈ (s.goOn p).members := by
  unfold members CountingSemaphore.goOn at *
  rw [List.mem_append] at *
  exact hq.imp_right (List.mem_erase_of_ne hne).mpr

theorem mem_goOn [DecidableEq Process] {q : Process}
    (hq : q ∈ (s.goOn p).members) : q ∈ s.members := by
  unfold members at *
  rw [List.mem_append] at *
  exact hq.imp_right List.mem_of_mem_erase

theorem mem_kill [DecidableEq Process] {q : Process}
    (hq : q ∈ (s.kill p).members) : q ∈ s.members := by
  unfold members CountingSemaphore.kill at *
  split_ifs at hq <;> rw [List.mem_append] at *
  · exact hq.imp_left List.mem_of_mem_erase
  · exact hq.imp_right List.mem_of_mem_erase

theorem passed_signal (hp : p ∈ s.passed) : p ∈ s.signal.passed := by
  unfold CountingSemaphore.signal
  split
  · exact hp
  · split_ifs
    · exact List.mem_append_left _ hp
    · exact hp

theorem passed_signaln (n : ℕ) (hp : p ∈ s.passed) : p ∈ (signaln n s).passed := by
  induction n generalizing s with
  | zero => exact hp
  | succ n ih => exact ih (passed_signal hp)

/-- Signals let the first of those who wait pass. -/
theorem Sound.passed_signaln {n : ℕ} (h : s.Sound) (hwaits : s.waiting ≠ [])
    (hn : 0 < n) : (CountingSemaphore.signaln n s).passed ≠ [] := by
  obtain ⟨p, rest, hwaiting⟩ := List.exists_cons_of_ne_nil hwaits
  obtain ⟨m, rfl⟩ := Nat.exists_eq_succ_of_ne_zero hn.ne'
  have hlen : ((p :: rest).length : ℤ) = max 0 (-s.count) := hwaiting ▸ h
  rw [List.length_cons] at hlen
  have hneg : s.count < 0 := by omega
  have hfirst : p ∈ s.signal.passed := by
    unfold CountingSemaphore.signal
    rw [hwaiting]
    dsimp only
    rw [if_pos hneg]
    simp
  exact List.ne_nil_of_mem (CountingSemaphore.passed_signaln m hfirst)

theorem mem_passed_wait {q : Process} (hq : q ∈ (s.wait p).passed) :
    q ∈ s.passed ∨ q = p ∧ 0 < s.count := by
  unfold CountingSemaphore.wait at hq
  split_ifs at hq with hneg
  · exact Or.inl hq
  · rcases List.mem_append.mp hq with hq | hq
    · exact Or.inl hq
    · exact Or.inr ⟨List.mem_singleton.mp hq, by omega⟩

/-- A process that may pass finds that the count is not negative by more than
those who wait. -/
theorem Sound.count_inside (h : s.Sound) :
    s.count + s.inside = max s.count 0 + s.passed.length := by
  unfold Sound at h
  unfold inside
  push_cast
  omega

end CountingSemaphore
