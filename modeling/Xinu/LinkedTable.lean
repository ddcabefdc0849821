import Mathlib.Tactic

/-!
# Doubly linked lists in a table

A table gives every node a successor and a predecessor.  `Linked next prev a l
b` says that the nodes `l` lie in this order between the sentinels `a` and
`b`.  One table holds several lists, so the lemmas about the two edits say
what an edit does to the list it is made in and that it leaves alone every
list without the nodes it writes.
-/

namespace LinkedTable

variable {Node : Type*}

/-- The nodes between `a` and `b`, in both directions. -/
def Linked (next prev : Node → Node) : Node → List Node → Node → Prop
  | a, [], b => next a = b ∧ prev b = a
  | a, x :: l, b => next a = x ∧ prev x = a ∧ Linked next prev x l b

section Structure

variable {next prev next' prev' : Node → Node} {a b x : Node}
  {l xs ys : List Node}

theorem linked_append :
    Linked next prev a (xs ++ x :: ys) b ↔
      Linked next prev a xs x ∧ Linked next prev x ys b := by
  induction xs generalizing a with
  | nil => simp [Linked, and_assoc]
  | cons y xs ih => simp [Linked, ih, and_assoc]

theorem Linked.next_head (hl : Linked next prev a l b) :
    next a = l.head?.getD b := by
  cases l with
  | nil => exact hl.1
  | cons x l => exact hl.1

theorem Linked.prev_last (hl : Linked next prev a l b) :
    prev b = l.getLast?.getD a := by
  induction l generalizing a with
  | nil => exact hl.2
  | cons x l ih =>
      rw [ih hl.2.2]
      cases l with
      | nil => rfl
      | cons y l =>
          rw [List.getLast?_cons_cons]
          simp [List.getLast?_eq_some_getLast]

theorem Linked.last_mem (hl : Linked next prev a l b) : prev b ∈ a :: l := by
  rw [hl.prev_last]
  cases hlast : l.getLast? with
  | none => simp
  | some z =>
      have hz := List.mem_of_getLast? hlast
      simp [hz]

theorem Linked.head_mem (hl : Linked next prev a l b) : next a ∈ l ++ [b] := by
  rw [hl.next_head]
  cases l <;> simp

/-- A list depends on the successors of its nodes and of its first sentinel,
and on the predecessors of its nodes and of its last sentinel. -/
theorem Linked.congr
    (hl : Linked next prev a l b)
    (hnext : ∀ y ∈ a :: l, next' y = next y)
    (hprev : ∀ y ∈ l ++ [b], prev' y = prev y) :
    Linked next' prev' a l b := by
  induction l generalizing a with
  | nil =>
      obtain ⟨hfwd, hbwd⟩ := hl
      refine ⟨?_, ?_⟩
      · rw [hnext a (by simp)]
        exact hfwd
      · rw [hprev b (by simp)]
        exact hbwd
  | cons x l ih =>
      obtain ⟨hfwd, hbwd, htail⟩ := hl
      refine ⟨?_, ?_, ?_⟩
      · rw [hnext a (by simp)]
        exact hfwd
      · rw [hprev x (by simp)]
        exact hbwd
      · apply ih htail
        · intro y hy
          exact hnext y (List.mem_cons_of_mem a hy)
        · intro y hy
          exact hprev y (by simp [hy])

end Structure

section Edits

variable [DecidableEq Node] {next prev : Node → Node} {a b c x : Node}
  {l xs ys : List Node}

/-- Successors after `x` has been put in front of `c`. -/
def insertNext (next prev : Node → Node) (x c : Node) : Node → Node :=
  Function.update (Function.update next x c) (prev c) x

/-- Predecessors after `x` has been put in front of `c`. -/
def insertPrev (prev : Node → Node) (x c : Node) : Node → Node :=
  Function.update (Function.update prev x (prev c)) c x

/-- Successors after `x` has been taken out. -/
def removeNext (next prev : Node → Node) (x : Node) : Node → Node :=
  Function.update next (prev x) (next x)

/-- Predecessors after `x` has been taken out. -/
def removePrev (next prev : Node → Node) (x : Node) : Node → Node :=
  Function.update prev (next x) (prev x)

/-- Put `x` at the end of a segment. -/
theorem Linked.insert_end
    (hl : Linked next prev a l c) (hnodup : (a :: l).Nodup)
    (hx : x ∉ a :: l) (hxc : x ≠ c) (hc : c ∉ l) :
    Linked (insertNext next prev x c) (insertPrev prev x c) a (l ++ [x]) c := by
  induction l generalizing a with
  | nil =>
      obtain ⟨-, hbwd⟩ := hl
      have hxa : x ≠ a := by simpa using hx
      refine ⟨?_, ?_, ?_, ?_⟩
      · simp [insertNext, hbwd]
      · simp [insertPrev, hxc, hbwd]
      · simp [insertNext, hbwd, hxa]
      · simp [insertPrev]
  | cons y l ih =>
      obtain ⟨hfwd, hbwd, htail⟩ := hl
      have hlast : prev c ≠ a := by
        rw [htail.prev_last]
        intro heq
        have hmem : a ∈ y :: l := by
          rw [← heq]
          cases hlist : l.getLast? with
          | none => simp
          | some z =>
              have hz := List.mem_of_getLast? hlist
              simp [hz]
        exact (List.nodup_cons.mp hnodup).1 hmem
      have hxa : x ≠ a := fun h => hx (by simp [h])
      have hxy : x ≠ y := fun h => hx (by simp [h])
      have hcy : y ≠ c := fun h => hc (by simp [h])
      refine ⟨?_, ?_, ?_⟩
      · simp [insertNext, hlast.symm, hxa.symm, hfwd]
      · simp [insertPrev, hcy, hxy.symm, hbwd]
      · apply ih htail (List.nodup_cons.mp hnodup).2
        · exact fun h => hx (List.mem_cons_of_mem a h)
        · exact fun h => hc (List.mem_cons_of_mem y h)

/-- An insertion in front of `c` leaves a list without `x`, `c` and the node
before `c` alone. -/
theorem Linked.insert_frame
    (hl : Linked next prev a l b) (hnext : ∀ y ∈ a :: l, y ≠ x ∧ y ≠ prev c)
    (hprev : ∀ y ∈ l ++ [b], y ≠ x ∧ y ≠ c) :
    Linked (insertNext next prev x c) (insertPrev prev x c) a l b := by
  apply hl.congr
  · intro y hy
    simp [insertNext, hnext y hy]
  · intro y hy
    simp [insertPrev, hprev y hy]

theorem Linked.remove_frame
    (hl : Linked next prev a l b) (hnext : ∀ y ∈ a :: l, y ≠ prev x)
    (hprev : ∀ y ∈ l ++ [b], y ≠ next x) :
    Linked (removeNext next prev x) (removePrev next prev x) a l b := by
  apply hl.congr
  · intro y hy
    simp [removeNext, hnext y hy]
  · intro y hy
    simp [removePrev, hprev y hy]

/-- Put `x` in front of the node `c` of a list. -/
theorem Linked.insert
    (hl : Linked next prev a (xs ++ c :: ys) b)
    (hnodup : (a :: (xs ++ c :: ys) ++ [b]).Nodup)
    (hx : x ∉ a :: (xs ++ c :: ys) ++ [b]) :
    Linked (insertNext next prev x c) (insertPrev prev x c) a
      (xs ++ x :: c :: ys) b := by
  obtain ⟨hfront, hback⟩ := linked_append.mp hl
  have hlast := hfront.last_mem
  simp only [List.cons_append, List.append_assoc, List.nodup_cons,
    List.nodup_append, List.mem_cons, List.mem_append, List.nodup_nil,
    List.not_mem_nil, not_or, not_false_eq_true, and_true, or_false]
    at hnodup hx hlast
  have hxs : x ∉ a :: xs := by simp [hx]
  have hfront' := hfront.insert_end (x := x)
    (List.nodup_cons.mpr ⟨hnodup.1.1, hnodup.2.1⟩) hxs hx.2.2.1
    (fun h => hnodup.2.2.2 c h c (Or.inl rfl) rfl)
  have hback' : Linked (insertNext next prev x c) (insertPrev prev x c) c ys
      b := by
    apply hback.insert_frame
    · intro y hy
      rw [List.mem_cons] at hy
      grind
    · intro y hy
      rw [List.mem_append, List.mem_singleton] at hy
      grind
  have hjoin := linked_append.mpr ⟨hfront', hback'⟩
  simpa using hjoin

/-- Put `x` at the end of a list. -/
theorem Linked.append
    (hl : Linked next prev a l b) (hnodup : (a :: l ++ [b]).Nodup)
    (hx : x ∉ a :: l ++ [b]) :
    Linked (insertNext next prev x b) (insertPrev prev x b) a (l ++ [x]) b := by
  simp only [List.cons_append, List.nodup_cons, List.nodup_append,
    List.mem_cons, List.mem_append, List.nodup_nil, List.not_mem_nil, not_or,
    not_false_eq_true, and_true, or_false] at hnodup hx
  apply hl.insert_end
  · exact List.nodup_cons.mpr ⟨hnodup.1.1, hnodup.2.1⟩
  · simp [hx]
  · exact hx.2.2
  · exact fun h => hnodup.2.2.2 b h b rfl rfl

/-- Take the node `x` out of a list. -/
theorem Linked.remove
    (hl : Linked next prev a (xs ++ x :: ys) b)
    (hnodup : (a :: (xs ++ x :: ys) ++ [b]).Nodup) :
    Linked (removeNext next prev x) (removePrev next prev x) a (xs ++ ys) b := by
  induction xs generalizing a with
  | nil =>
      obtain ⟨hfwd, hbwd, htail⟩ := hl
      cases ys with
      | nil =>
          obtain ⟨hlast, -⟩ := htail
          refine ⟨?_, ?_⟩
          · simp [removeNext, hbwd, hlast]
          · simp [removePrev, hbwd, hlast]
      | cons y ys =>
          obtain ⟨hnext, -, hrest⟩ := htail
          refine ⟨?_, ?_, ?_⟩
          · simp [removeNext, hbwd, hnext]
          · simp [removePrev, hbwd, hnext]
          · apply hrest.remove_frame
            · intro z hz
              rw [hbwd]
              intro heq
              simp [heq] at hz hnodup
              grind
            · intro z hz
              rw [hnext]
              intro heq
              simp [heq] at hz hnodup
              grind
  | cons z xs ih =>
      obtain ⟨hfwd, hbwd, htail⟩ := hl
      obtain ⟨hfront, hback⟩ := linked_append.mp htail
      have hlast := hfront.last_mem
      have hhead := hback.head_mem
      have hnodup' := hnodup
      simp only [List.cons_append, List.nodup_cons] at hnodup'
      refine ⟨?_, ?_, ?_⟩
      · have hne : a ≠ prev x := by
          intro heq
          rw [← heq] at hlast
          simp only [List.mem_cons, List.mem_append] at hlast hnodup'
          grind
        simp [removeNext, hne, hfwd]
      · have hne : z ≠ next x := by
          intro heq
          rw [← heq] at hhead
          simp only [List.mem_cons, List.mem_append] at hhead hnodup'
          grind
        simp [removePrev, hne, hbwd]
      · exact ih htail (List.nodup_cons.mp hnodup).2

end Edits

end LinkedTable
