import Mathlib.Tactic

/-!
# Ring buffers

A queue in an array of `size` cells: it starts at the head index, runs upward
and goes on at the bottom of the array.  The head and tail indices are kept by
the program, so `Holds` says what they have to be for a given queue, and the
rules below say how adding and removing at either end keeps it.
-/

namespace RingBuffer

variable {α : Type*}

/-- The index of the `k`-th element from index `i` on. -/
def position (size i : ℤ) (k : ℕ) : ℤ :=
  if i + k < size then i + k else i + k - size

def advance (size i : ℤ) : ℤ :=
  if i + 1 ≥ size then 0 else i + 1

/-- The index `n` cells before `i`. -/
def retreat (size i : ℤ) (n : ℕ) : ℤ :=
  if i - n < 0 then i - n + size else i - n

/-- The cells between the indices hold the queue. -/
structure Holds
    (size : ℤ) (cells : ℤ → α) (head tail : ℤ) (queue : List α) : Prop where
  head_nonneg : 0 ≤ head
  head_lt : head < size
  length_le : (queue.length : ℤ) ≤ size
  tail_eq : tail = position size head queue.length
  cell : ∀ (k : ℕ) (hk : k < queue.length),
    cells (position size head k) = queue.get ⟨k, hk⟩

variable {size head tail : ℤ} {cells : ℤ → α} {queue : List α} {x : α}

theorem advance_inRange (hsize : 0 < size) {i : ℤ} (hi : 0 ≤ i) :
    0 ≤ advance size i ∧ advance size i < size := by
  unfold advance
  split_ifs <;> omega

theorem position_advance
    {i : ℤ} {k : ℕ} (hlt : i < size) (hk : (k : ℤ) < size) :
    position size (advance size i) k = position size i (k + 1) := by
  unfold position advance
  split_ifs <;> push_cast at * <;> omega

theorem advance_position
    {i : ℤ} {k : ℕ} (hlt : i < size) (hk : (k : ℤ) < size) :
    advance size (position size i k) = position size i (k + 1) := by
  unfold position advance
  split_ifs <;> push_cast at * <;> omega

theorem retreat_position {i : ℤ} {k n : ℕ} (hi : 0 ≤ i) :
    retreat size (position size i (k + n)) n = position size i k := by
  unfold position retreat
  split_ifs <;> push_cast at * <;> omega

theorem position_ne
    {i : ℤ} {j k : ℕ} (hjk : j < k) (hk : (k : ℤ) < size) :
    position size i j ≠ position size i k := by
  unfold position
  split_ifs <;> omega

namespace Holds

theorem size_pos (h : Holds size cells head tail queue) : 0 < size :=
  h.head_nonneg.trans_lt h.head_lt

theorem tail_inRange (h : Holds size cells head tail queue) :
    0 ≤ tail ∧ tail < size := by
  obtain ⟨hhead, hlt, hlen, htail, -⟩ := h
  unfold position at htail
  split_ifs at htail <;> omega

theorem empty (hhead : 0 ≤ head) (hlt : head < size) :
    Holds size cells head head [] where
  head_nonneg := hhead
  head_lt := hlt
  length_le := by simp only [List.length_nil]; omega
  tail_eq := by
    unfold position
    rw [if_pos] <;> simp [hlt]
  cell k hk := absurd hk (Nat.not_lt_zero k)

theorem put
    (h : Holds size cells head tail queue)
    (hroom : (queue.length : ℤ) < size) :
    Holds size (Function.update cells tail x) head (advance size tail)
      (queue ++ [x]) where
  head_nonneg := h.head_nonneg
  head_lt := h.head_lt
  length_le := by
    rw [List.length_append, List.length_singleton]
    push_cast
    omega
  tail_eq := by
    rw [h.tail_eq, advance_position h.head_lt hroom,
      List.length_append, List.length_singleton]
  cell k hk := by
    rw [List.length_append, List.length_singleton] at hk
    rcases Nat.lt_succ_iff_lt_or_eq.mp hk with hold | hnew
    · have hne : position size head k ≠ tail := by
        rw [h.tail_eq]
        exact position_ne hold hroom
      rw [Function.update_of_ne hne, h.cell k hold]
      simp [List.getElem_append_left hold]
    · subst hnew
      rw [← h.tail_eq, Function.update_self]
      simp

/-- The first element is at the head index. -/
theorem first (h : Holds size cells head tail (x :: queue)) :
    cells head = x := by
  have hcell := h.cell 0 (Nat.succ_pos _)
  have hlt := h.head_lt
  have hzero : position size head 0 = head := by
    unfold position
    rw [if_pos] <;> simp [hlt]
  rwa [hzero] at hcell

theorem take (h : Holds size cells head tail (x :: queue)) :
    Holds size cells (advance size head) tail queue := by
  have hlen := h.length_le
  rw [List.length_cons] at hlen
  push_cast at hlen
  obtain ⟨hnonneg, hlt⟩ := advance_inRange h.size_pos h.head_nonneg
  refine ⟨hnonneg, hlt, by omega, ?_, ?_⟩
  · rw [position_advance h.head_lt (by omega), h.tail_eq,
      List.length_cons]
  · intro k hk
    rw [position_advance h.head_lt (by omega),
      h.cell (k + 1) (Nat.succ_lt_succ hk)]
    rfl

theorem unput {last : List α}
    (h : Holds size cells head tail (queue ++ last)) :
    Holds size cells head (retreat size tail last.length) queue := by
  have hlen := h.length_le
  rw [List.length_append] at hlen
  push_cast at hlen
  refine ⟨h.head_nonneg, h.head_lt, by omega, ?_, ?_⟩
  · rw [h.tail_eq, List.length_append, retreat_position h.head_nonneg]
  · intro k hk
    rw [h.cell k (by rw [List.length_append]; omega)]
    simp [List.getElem_append_left hk]

end Holds

end RingBuffer
