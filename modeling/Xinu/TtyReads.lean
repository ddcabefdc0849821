import Xinu.TtyLookahead

/-!
# Reading from a tty

`ttyread` calls `ttygetc` again and again, and other processes and arriving
characters come between two calls.  So its input is the sequence of states in
which its calls remove their characters: each state says which character is at
the head and whether it stands for the end of the file.  A value of `ttygetc`
passes through an `int` and is cut to a `char` again when it is stored.
-/

namespace Xinu.TtyInput

open RingBuffer TransitionSystem

/-- `(char)` of a value of `ttygetc`. -/
def toChar (value : ℤ) : Ch := BitVec.ofInt 8 value

/-- What is stored through `buff`, and what is returned. -/
structure ReadResult where
  stored : List Ch
  value : ℤ
  deriving DecidableEq

section Source

variable (removal : ℕ → Ttyi)

/-- The loop of the raw and cbreak modes, from the `k`-th call on. -/
def rawLoop : ℕ → ℕ → List Ch
  | 0, _ => []
  | n + 1, k => toChar (removal k).next.devcall :: rawLoop n (k + 1)

/-- The loop of the cooked mode, which has `n` characters left to read. -/
def lineLoop : ℕ → ℕ → Ch → List Ch
  | 0, _, _ => []
  | n + 1, k, ch =>
      if ch ≠ TY_NEWLINE ∧ ch ≠ TY_RETURN then
        let ch := toChar (removal k).next.devcall
        ch :: lineLoop n (k + 1) ch
      else []

/-- `ttyread`, called in the state `t`; `removal k` is the state in which its
call number `k` of `ttygetc` removes a character. -/
def ttyread (count : ℤ) (t : Ttyi) : ReadResult :=
  if count < 0 then ⟨[], -1⟩
  else if t.tyimode ≠ .cooked then
    if count = 0 then
      let avail := t.tyisem.count
      if avail = 0 then ⟨[], 0⟩
      else
        let stored := rawLoop removal avail.toNat 0
        ⟨stored, stored.length⟩
    else
      let stored := rawLoop removal count.toNat 0
      ⟨stored, stored.length⟩
  else
    let firstch := (removal 0).next.devcall
    if firstch = EOF then ⟨[], EOF⟩
    else
      let ch := toChar firstch
      let stored := ch :: lineLoop removal (count - 1).toNat 1 ch
      ⟨stored, stored.length⟩

end Source

/-! ## The stream -/

/-- The character that the next call of `ttygetc` removes. -/
def Ttyi.headch (t : Ttyi) : Ch := t.tyibuff t.tyihead

/-- The first `n` characters that the calls remove. -/
def streamTake (removal : ℕ → Ttyi) (n : ℕ) : List Ch :=
  (List.range n).map fun k => (removal k).headch

/-- `n` characters end with the first end of line, or there are `count`. -/
structure LineOf (ch : ℕ → Ch) (count n : ℕ) : Prop where
  pos : 0 < n
  le_count : n ≤ count
  inside : ∀ k, k + 1 < n → ch k ≠ TY_NEWLINE ∧ ch k ≠ TY_RETURN
  ended : n = count ∨ ch (n - 1) = TY_NEWLINE ∨ ch (n - 1) = TY_RETURN

section Reads

variable {removal : ℕ → Ttyi} {t : Ttyi} {count : ℤ} {ch : Ch} {n k : ℕ}

theorem remove_returned (pid : ℤ) :
    (t.remove pid).returned pid = some t.next := by
  simp [Ttyi.remove, Ttyi.next]

@[simp] theorem toChar_toInt (ch : Ch) : toChar ch.toInt = ch :=
  BitVec.ofInt_toInt

theorem next_of_raw (hmode : t.tyimode ≠ .cooked) :
    t.next = .char t.headch := by
  simp [Ttyi.next, Ttyi.headch, hmode]

theorem rawLoop_eq (n k : ℕ)
    (hchar : ∀ j < n, (removal (k + j)).next = .char (removal (k + j)).headch) :
    rawLoop removal n k =
      (List.range' k n).map fun k => (removal k).headch := by
  induction n generalizing k with
  | zero => rfl
  | succ n ih =>
      have hfirst := hchar 0 (Nat.succ_pos n)
      rw [Nat.add_zero] at hfirst
      rw [rawLoop, List.range'_succ, List.map_cons, hfirst, ih (k + 1)]
      · simp [Getc.devcall]
      · intro j hj
        have hnext := hchar (j + 1) (by omega)
        rwa [show k + (j + 1) = k + 1 + j by omega] at hnext

theorem length_lineLoop_le (n k : ℕ) (ch : Ch) :
    (lineLoop removal n k ch).length ≤ n := by
  induction n generalizing k ch with
  | zero => simp [lineLoop]
  | succ n ih =>
      rw [lineLoop]
      split_ifs
      · rw [List.length_cons]
        have hrest := ih (k + 1) (toChar (removal k).next.devcall)
        omega
      · simp

/-- Every stream has a line of at most `count` characters. -/
theorem exists_lineOf (ch : ℕ → Ch) (hcount : 0 < n) : ∃ m, LineOf ch n m := by
  by_cases hend : ∃ k, k < n ∧ (ch k = TY_NEWLINE ∨ ch k = TY_RETURN)
  · have hlt := (Nat.find_spec hend).1
    have hstop := (Nat.find_spec hend).2
    refine ⟨Nat.find hend + 1, Nat.succ_pos _, hlt, ?_, Or.inr hstop⟩
    intro k hk
    have hmin := Nat.find_min hend (m := k) (by omega)
    rw [← not_or]
    exact fun h => hmin ⟨by omega, h⟩
  · refine ⟨n, hcount, le_rfl, ?_, Or.inl rfl⟩
    intro k hk
    rw [← not_or]
    exact fun h => hend ⟨k, by omega, h⟩

/-- The loop stores the rest of the line. -/
theorem lineLoop_eq
    {m : ℕ} (hline : LineOf (fun k => (removal k).headch) (k + 1 + n) m)
    (hk : k < m)
    (hchar : ∀ j < m, (removal j).next = .char (removal j).headch) :
    lineLoop removal n (k + 1) (removal k).headch =
      (List.range' (k + 1) (m - (k + 1))).map
        fun k => (removal k).headch := by
  induction n generalizing k with
  | zero =>
      have hle := hline.le_count
      rw [show m - (k + 1) = 0 by omega]
      rfl
  | succ n ih =>
      rw [lineLoop]
      by_cases hlast : m = k + 1
      · have hstop : ¬ ((removal k).headch ≠ TY_NEWLINE ∧
            (removal k).headch ≠ TY_RETURN) := by
          rcases hline.ended with hfull | hended
          · omega
          · rw [hlast, Nat.add_sub_cancel] at hended
            tauto
        rw [if_neg hstop, hlast, Nat.sub_self]
        rfl
      · have hgo := hline.inside k (by omega)
        rw [if_pos hgo, hchar (k + 1) (by omega)]
        have hrest := ih (k := k + 1)
          (by rwa [show k + 1 + 1 + n = k + 1 + (n + 1) by omega])
          (by omega)
        rw [show m - (k + 1) = (m - (k + 1 + 1)) + 1 by omega,
          List.range'_succ, List.map_cons]
        simp only [Getc.devcall, toChar_toInt, hrest]

/-- The character at the head is the next one of those accepted. -/
theorem headch_accepted
    {s : LookState} (hreach : Reach lookStep LookFits lookInit s)
    (hready : 0 < s.tty.tyisem.count ∨ s.tty.tyisem.passed ≠ []) :
    s.tty.accepted[s.tty.delivered.length]? = some s.tty.headch := by
  obtain ⟨committed, hinv⟩ := LookState.inv hreach
  have hcounted := hinv.counted
  have hsound := hinv.sound.count_inside
  cases committed with
  | nil =>
      rw [List.length_nil] at hcounted
      push_cast at hcounted
      rcases hready with hcount | hpassed
      · omega
      · have hpos := List.length_pos_iff.mpr hpassed
        omega
  | cons c rest =>
      have hholds := hinv.holds
      rw [List.cons_append] at hholds
      rw [hinv.accepted, List.getElem?_append_right le_rfl, Nat.sub_self,
        Ttyi.headch, hholds.first]
      rfl

theorem ttyread_raw
    (hcount : 0 ≤ count) (hmode : t.tyimode ≠ .cooked)
    (hraw : ∀ k, (removal k).tyimode ≠ .cooked) :
    ttyread removal count t =
      let n := (if count = 0 then t.tyisem.count else count).toNat
      ⟨streamTake removal n, n⟩ := by
  have hloop : ∀ n, rawLoop removal n 0 = streamTake removal n := by
    intro n
    rw [rawLoop_eq n 0 fun j _ => next_of_raw (hraw _), streamTake,
      List.range_eq_range']
  have hlen : ∀ n, (streamTake removal n).length = n := by
    intro n
    simp [streamTake]
  unfold ttyread
  rw [if_neg (by omega), if_pos hmode]
  by_cases hzero : count = 0
  · by_cases hnone : t.tyisem.count = 0
    · simp [hzero, hnone, streamTake]
    · simp [hzero, hnone, hloop, hlen]
  · simp [hzero, hloop, hlen]

theorem ttyread_cooked_first
    (hcount : 1 ≤ count) (hmode : t.tyimode = .cooked)
    (hfirst : (removal 0).next = .char ch) (hfe : ch ≠ 0xfe) :
    ttyread removal count t =
      let stored := ch :: lineLoop removal (count - 1).toNat 1 ch
      ⟨stored, stored.length⟩ := by
  have hnot : ch.toInt ≠ EOF := by
    have heof : EOF = (0xfe : Ch).toInt := by decide
    rw [heof]
    exact fun h => hfe (BitVec.toInt_inj.mp h)
  unfold ttyread
  rw [if_neg (by omega), if_neg (by simp [hmode])]
  simp [hfirst, Getc.devcall, hnot]

theorem ttyread_law
    (removal : ℕ → Ttyi) (t : Ttyi) (count : ℤ) (hcount : 0 ≤ count) :
    (t.tyimode ≠ .cooked → (∀ k, (removal k).tyimode ≠ .cooked) →
      ttyread removal count t =
        let n := (if count = 0 then t.tyisem.count else count).toNat
        ⟨streamTake removal n, n⟩) ∧
      (t.tyimode = .cooked → 1 ≤ count →
        ((removal 0).next = .eof → ttyread removal count t = ⟨[], EOF⟩) ∧
        (∀ ch, (removal 0).next = .char ch → ch ≠ 0xfe →
          1 ≤ (ttyread removal count t).value ∧
          (ttyread removal count t).value ≤ count ∧
          (ttyread removal count t).value =
            (ttyread removal count t).stored.length) ∧
        ∃ n, LineOf (fun k => (removal k).headch) count.toNat n ∧
          ((∀ k < n, (removal k).next = .char (removal k).headch) →
            (removal 0).headch ≠ 0xfe →
            ttyread removal count t = ⟨streamTake removal n, n⟩)) ∧
      ∀ s, Reach lookStep LookFits lookInit s →
        0 < s.tty.tyisem.count ∨ s.tty.tyisem.passed ≠ [] →
        s.tty.accepted[s.tty.delivered.length]? = some s.tty.headch := by
  refine ⟨ttyread_raw hcount, ?_, fun s => headch_accepted⟩
  intro hmode hone
  refine ⟨?_, ?_, ?_⟩
  · intro heof
    simp [ttyread, show ¬ count < 0 by omega, hmode, heof, Getc.devcall]
  · intro ch hfirst hfe
    rw [ttyread_cooked_first hone hmode hfirst hfe]
    have hle : (lineLoop removal (count - 1).toNat 1 ch).length ≤
        (count - 1).toNat := length_lineLoop_le _ _ _
    dsimp only
    rw [List.length_cons]
    push_cast
    omega
  · obtain ⟨n, hline⟩ := exists_lineOf (fun k => (removal k).headch)
      (show 0 < count.toNat by omega)
    refine ⟨n, hline, ?_⟩
    intro hchar hfe
    have hpos := hline.pos
    rw [ttyread_cooked_first hone hmode (hchar 0 hpos) hfe]
    have hrest := lineLoop_eq (k := 0) (n := (count - 1).toNat)
      (by rwa [show 0 + 1 + (count - 1).toNat = count.toNat by omega])
      hpos hchar
    rw [Nat.zero_add] at hrest
    have hall : streamTake removal n =
        (removal 0).headch :: lineLoop removal (count - 1).toNat 1
          (removal 0).headch := by
      rw [hrest, streamTake, List.range_eq_range',
        show n = (n - 1) + 1 by omega, List.range'_succ, List.map_cons]
      simp
    simp only [← hall]
    simp [streamTake]

end Reads

/-- A raw character is taken by a read that asks for none. -/
theorem ttyread_count_zero :
    ¬ ∀ s, Reach lookStep LookFits lookInit s → ∀ count : ℤ, 0 ≤ count →
      ((ttyread (fun _ => s.tty) count s.tty).stored.length : ℤ) ≤ count := by
  intro hall
  have hview : (run (fun s action =>
      if LookFits s action then lookStep s action else none) lookInit
      [.tty (.mode .raw), .tty (.arrive 0x61)]).map
        (fun s => ttyread (fun _ => s.tty) 0 s.tty) = some ⟨[0x61], 1⟩ := by
    decide
  obtain ⟨s, hrun, hread⟩ := Option.map_eq_some_iff.mp hview
  have hle := hall s (Reach.run_checked _ .start hrun) 0 le_rfl
  rw [hread] at hle
  exact absurd hle (by decide)

/-- The states in which the characters of `hi` and a newline are removed. -/
def greeting (k : ℕ) : Ttyi :=
  { ttyInit with
    tyihead := k
    tyibuff := fun i =>
      if i = 0 then 0x68 else if i = 1 then 0x69 else TY_NEWLINE }

theorem ttyread_law_greeting :
    (ttyread greeting 10 (greeting 0)).value ≤ 10 ∧
      ttyread (fun k => { greeting k with tyimode := .raw }) 2
        { greeting 0 with tyimode := .raw } = ⟨[0x68, 0x69], 2⟩ := by
  have hcooked := ttyread_law greeting (greeting 0) 10 (by decide)
  have hraw := ttyread_law (fun k => { greeting k with tyimode := .raw })
    { greeting 0 with tyimode := .raw } 2 (by decide)
  constructor
  · exact ((hcooked.2.1 rfl (by decide)).2.1 0x68 (by decide)
      (by decide)).2.1
  · rw [hraw.1 nofun fun _ => nofun]
    decide

end Xinu.TtyInput
