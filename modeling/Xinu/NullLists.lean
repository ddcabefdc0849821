import Xinu.LinkedTable

/-!
# Linked lists that end in a null pointer

A list with a head and a tail pointer is a list between two sentinels when the
head is taken as the successor of the null node and the tail as its
predecessor, so the edits of `LinkedTable` apply to it.  A free list is a
chain of successors that ends at the null node.
-/

namespace LinkedTable

variable {Node : Type*}

section Sentinels

variable {next prev : Node → Node} {a b x y : Node} {l : List Node}

theorem Linked.prev_next (hl : Linked next prev a l b) (hx : x ∈ a :: l) :
    prev (next x) = x := by
  induction l generalizing a with
  | nil =>
      obtain rfl : x = a := by simpa using hx
      rw [hl.1, hl.2]
  | cons z l ih =>
      obtain ⟨hfwd, hbwd, htail⟩ := hl
      rcases List.mem_cons.mp hx with rfl | hx
      · rw [hfwd, hbwd]
      · exact ih htail hx

theorem Linked.next_prev (hl : Linked next prev a l b) (hy : y ∈ l ++ [b]) :
    next (prev y) = y := by
  induction l generalizing a with
  | nil =>
      obtain rfl : y = b := by simpa using hy
      rw [hl.2, hl.1]
  | cons z l ih =>
      obtain ⟨hfwd, hbwd, htail⟩ := hl
      rcases List.mem_cons.mp hy with rfl | hy
      · rw [hbwd, hfwd]
      · exact ih htail hy

/-- Let a segment end at `y` instead of `b`. -/
theorem Linked.retarget
    [DecidableEq Node] (hl : Linked next prev a l b) (hnodup : (a :: l).Nodup)
    (hy : y ∉ l) :
    Linked (Function.update next (prev b) y) (Function.update prev y (prev b))
      a l y := by
  induction l generalizing a with
  | nil => simp [Linked, hl.2]
  | cons z l ih =>
      obtain ⟨hfwd, hbwd, htail⟩ := hl
      have hlast := htail.last_mem
      have ha : a ≠ prev b := by
        intro heq
        rw [← heq] at hlast
        exact (List.nodup_cons.mp hnodup).1 hlast
      have hz : z ≠ y := fun heq => hy (by simp [heq])
      refine ⟨?_, ?_, ?_⟩
      · rw [Function.update_of_ne ha, hfwd]
      · rw [Function.update_of_ne hz, hbwd]
      · exact ih htail (List.nodup_cons.mp hnodup).2
          fun hmem => hy (by simp [hmem])

end Sentinels

/-! ## Chains -/

/-- The nodes met from `a` on, up to the null node. -/
def Chain (null : Node) (next : Node → Node) : Node → List Node → Prop
  | a, [] => a = null
  | a, x :: l => a = x ∧ Chain null next (next x) l

/-- `while (p != null) { if (stop(p)) break; p = follow(p); }` -/
def walk
    [DecidableEq Node] (null : Node) (follow : Node → Node)
    (stop : Node → Bool) : ℕ → Node → Option Node
  | 0, _ => none
  | budget + 1, p =>
      if p = null then some null
      else if stop p then some p
      else walk null follow stop budget (follow p)

theorem walk_zero
    [DecidableEq Node] {null a : Node} {follow : Node → Node} {stop : Node → Bool} :
    walk null follow stop 0 a = none :=
  rfl

theorem walk_succ
    [DecidableEq Node] {null a : Node} {follow : Node → Node} {stop : Node → Bool}
    {budget : ℕ} :
    walk null follow stop (budget + 1) a =
      if a = null then some null
      else if stop a then some a
      else walk null follow stop budget (follow a) :=
  rfl

section Chains

variable {null a : Node} {next next' : Node → Node} {l : List Node}

theorem Chain.congr
    (h : Chain null next a l) (hnext : ∀ x ∈ l, next' x = next x) :
    Chain null next' a l := by
  induction l generalizing a with
  | nil => exact h
  | cons x l ih =>
      refine ⟨h.1, ?_⟩
      rw [hnext x (by simp)]
      exact ih h.2 fun y hy => hnext y (by simp [hy])

theorem Chain.head (h : Chain null next a l) : a = l.head?.getD null := by
  cases l with
  | nil => exact h
  | cons x l => exact h.1

/-- The chain from one of its nodes on. -/
theorem Chain.drop
    {pre post : List Node} {x : Node} (h : Chain null next a (pre ++ x :: post)) :
    Chain null next (next x) post := by
  induction pre generalizing a with
  | nil => exact h.2
  | cons y pre ih => exact ih h.2

/-- A chain whose last node is made to point to another chain. -/
theorem Chain.splice
    {b : Node} {l' : List Node} (h : Chain null next a l) (hne : l ≠ [])
    (hlast : next' (l.getLast hne) = b)
    (hkeep : ∀ y ∈ l.dropLast, next' y = next y)
    (hb : Chain null next' b l') : Chain null next' a (l ++ l') := by
  induction l generalizing a with
  | nil => exact absurd rfl hne
  | cons x l ih =>
      refine ⟨h.1, ?_⟩
      cases l with
      | nil =>
          rw [List.getLast_singleton] at hlast
          rw [hlast]
          exact hb
      | cons z l =>
          rw [List.dropLast_cons_cons] at hkeep
          rw [hkeep x List.mem_cons_self]
          exact ih h.2 (by simp) hlast fun y hy =>
            hkeep y (List.mem_cons_of_mem _ hy)

/-- A walk along a chain ends at the first node that stops it. -/
theorem Chain.walk
    [DecidableEq Node] {stop : Node → Bool} (h : Chain null next a l)
    (hnull : null ∉ l) {budget : ℕ} (hbudget : l.length < budget) :
    walk null next stop budget a = some ((l.find? stop).getD null) := by
  induction l generalizing a budget with
  | nil =>
      obtain rfl : a = null := h
      cases budget with
      | zero => simp at hbudget
      | succ budget => simp [walk_succ]
  | cons x l ih =>
      obtain ⟨rfl, htail⟩ := h
      have hne : a ≠ null := fun heq => hnull (by simp [heq])
      cases budget with
      | zero => simp at hbudget
      | succ budget =>
          rw [walk_succ, if_neg hne]
          by_cases hstop : stop a = true
          · simp [hstop]
          · rw [if_neg hstop, List.find?_cons_of_neg hstop]
            exact ih htail (fun hmem => hnull (by simp [hmem]))
              (by simpa using hbudget)

/-- A walk that ends has followed the chain. -/
theorem Chain.walk_eq
    [DecidableEq Node] {stop : Node → Bool} (h : Chain null next a l)
    (hnull : null ∉ l) {budget : ℕ} {p : Node}
    (hwalk : LinkedTable.walk null next stop budget a = some p) :
    p = (l.find? stop).getD null := by
  induction l generalizing a budget with
  | nil =>
      obtain rfl : a = null := h
      cases budget with
      | zero => simp [walk_zero] at hwalk
      | succ budget => simpa [walk_succ, eq_comm] using hwalk
  | cons x l ih =>
      obtain ⟨rfl, htail⟩ := h
      have hne : a ≠ null := fun heq => hnull (by simp [heq])
      cases budget with
      | zero => simp [walk_zero] at hwalk
      | succ budget =>
          rw [walk_succ, if_neg hne] at hwalk
          by_cases hstop : stop a = true
          · rw [if_pos hstop, Option.some.injEq] at hwalk
            rw [List.find?_cons_of_pos hstop, hwalk]
            rfl
          · rw [if_neg hstop] at hwalk
            rw [List.find?_cons_of_neg hstop]
            exact ih htail (fun hmem => hnull (by simp [hmem])) hwalk

/-- A walk finds the first node that stops it also where the end of the chain
goes on elsewhere. -/
theorem Chain.walk_found
    [DecidableEq Node] {next' : Node → Node} {stop : Node → Bool}
    (h : Chain null next a l) (hnull : null ∉ l)
    (hagree : ∀ y ∈ l, next y ≠ null → next' y = next y) {x p : Node}
    (hfind : l.find? stop = some x) {budget : ℕ}
    (hwalk : LinkedTable.walk null next' stop budget a = some p) : p = x := by
  induction l generalizing a budget with
  | nil => cases hfind
  | cons y l ih =>
      obtain ⟨rfl, htail⟩ := h
      have hne : a ≠ null := fun heq => hnull (by simp [heq])
      cases budget with
      | zero => simp [walk_zero] at hwalk
      | succ budget =>
          rw [walk_succ, if_neg hne] at hwalk
          by_cases hstop : stop a = true
          · rw [if_pos hstop, Option.some.injEq] at hwalk
            rw [List.find?_cons_of_pos hstop, Option.some.injEq] at hfind
            exact hwalk.symm.trans hfind
          · rw [if_neg hstop] at hwalk
            rw [List.find?_cons_of_neg hstop] at hfind
            have hmore : next a ≠ null := by
              intro heq
              cases l with
              | nil => cases hfind
              | cons z l =>
                  rw [heq] at htail
                  exact hnull (by simp [htail.1])
            rw [hagree a (by simp) hmore] at hwalk
            exact ih htail (fun hmem => hnull (by simp [hmem]))
              (fun z hz => hagree z (by simp [hz])) hfind hwalk

/-- A walk does not leave a set of nodes that is closed under the step. -/
theorem walk_closed
    [DecidableEq Node] {follow : Node → Node} {stop : Node → Bool}
    {reached : Set Node}
    (hclosed : ∀ x ∈ reached, follow x = null ∨ follow x ∈ reached)
    {budget : ℕ} {p : Node} (ha : a = null ∨ a ∈ reached)
    (hwalk : LinkedTable.walk null follow stop budget a = some p) :
    p = null ∨ p ∈ reached ∧ stop p = true := by
  induction budget generalizing a with
  | zero => simp [walk_zero] at hwalk
  | succ budget ih =>
      rw [walk_succ] at hwalk
      split_ifs at hwalk with hnull hstop
      · exact Or.inl (Option.some.inj hwalk).symm
      · obtain rfl := Option.some.inj hwalk
        exact Or.inr ⟨ha.resolve_left hnull, hstop⟩
      · exact ih (hclosed a (ha.resolve_left hnull)) hwalk

/-- The nodes met from a node on, at most `n`. -/
def nodesFrom [DecidableEq Node] (null : Node) (next : Node → Node) :
    ℕ → Node → List Node
  | 0, _ => []
  | n + 1, a => if a = null then [] else a :: nodesFrom null next n (next a)

theorem Chain.nodesFrom_eq
    [DecidableEq Node] (h : Chain null next a l) (hnull : null ∉ l) {n : ℕ}
    (hn : l.length ≤ n) : nodesFrom null next n a = l := by
  induction l generalizing a n with
  | nil =>
      obtain rfl : a = null := h
      cases n <;> simp [nodesFrom]
  | cons x l ih =>
      obtain ⟨rfl, htail⟩ := h
      have hne : a ≠ null := fun heq => hnull (by simp [heq])
      cases n with
      | zero => simp at hn
      | succ n =>
          rw [nodesFrom, if_neg hne, ih htail (fun hmem => hnull (by simp [hmem]))
            (by simpa using hn)]

end Chains

/-! ## Lists with a head and a tail pointer -/

variable [DecidableEq Node]

/-- The list `l` from `head` to `tail`, with null pointers at both ends. -/
structure NullList
    (null : Node) (next prev : Node → Node) (head tail : Node)
    (l : List Node) : Prop where
  linked : Linked (Function.update next null head)
    (Function.update prev null tail) null l null
  nodup : l.Nodup
  null : null ∉ l

section Lists

variable {null head head' tail tail' x y : Node}
  {next prev next' prev' : Node → Node} {l : List Node}

theorem NullList.nil : NullList null next prev null null [] :=
  ⟨by simp [Linked], List.nodup_nil, List.not_mem_nil⟩

theorem NullList.congr
    (h : NullList null next prev head tail l)
    (hnext : ∀ y ∈ l, next' y = next y) (hprev : ∀ y ∈ l, prev' y = prev y) :
    NullList null next' prev' head tail l := by
  refine ⟨h.linked.congr ?_ ?_, h.nodup, h.null⟩
  · intro y hy
    by_cases heq : y = null
    · simp [heq]
    · have hmem : y ∈ l := by simpa [heq] using hy
      simp [heq, hnext y hmem]
  · intro y hy
    by_cases heq : y = null
    · simp [heq]
    · have hmem : y ∈ l := by simpa [heq] using hy
      simp [heq, hprev y hmem]

theorem NullList.ne_null (h : NullList null next prev head tail l)
    (hx : x ∈ l) : x ≠ null := by
  rintro rfl
  exact h.null hx

theorem NullList.head_eq (h : NullList null next prev head tail l) :
    head = l.head?.getD null := by
  have hhead := h.linked.next_head
  rwa [Function.update_self] at hhead

theorem NullList.tail_eq (h : NullList null next prev head tail l) :
    tail = l.getLast?.getD null := by
  have hlast := h.linked.prev_last
  rwa [Function.update_self] at hlast

theorem NullList.head_eq_null_iff (h : NullList null next prev head tail l) :
    head = null ↔ l = [] := by
  rw [h.head_eq]
  cases l with
  | nil => simp
  | cons x l => simpa using h.ne_null (x := x) (by simp)

theorem NullList.tail_eq_null_iff (h : NullList null next prev head tail l) :
    tail = null ↔ l = [] := by
  rw [h.tail_eq]
  cases hlast : l.getLast? with
  | none => simpa using List.getLast?_eq_none_iff.mp hlast
  | some z =>
      have hz := List.mem_of_getLast? hlast
      simp only [Option.getD_some, h.ne_null hz, false_iff]
      exact List.ne_nil_of_mem hz

theorem NullList.prev_head (h : NullList null next prev head tail l)
    (hhead : head ≠ null) : prev head = null := by
  have hprev := h.linked.prev_next (x := null) (by simp)
  rwa [Function.update_self, Function.update_of_ne hhead] at hprev

theorem NullList.next_tail (h : NullList null next prev head tail l)
    (htail : tail ≠ null) : next tail = null := by
  have hnext := h.linked.next_prev (y := null) (by simp)
  rwa [Function.update_self, Function.update_of_ne htail] at hnext

theorem NullList.next_iff
    (h : NullList null next prev head tail l) (hx : x ∈ l) (hy : y ∈ l) :
    next x = y ↔ prev y = x := by
  have hforth := h.linked.prev_next (x := x) (by simp [hx])
  have hback := h.linked.next_prev (y := y) (by simp [hy])
  rw [Function.update_of_ne (h.ne_null hx)] at hforth
  rw [Function.update_of_ne (h.ne_null hy)] at hback
  constructor
  · intro hnext
    rwa [hnext, Function.update_of_ne (h.ne_null hy)] at hforth
  · intro hprev
    rwa [hprev, Function.update_of_ne (h.ne_null hx)] at hback

theorem NullList.next_eq_null_iff
    (h : NullList null next prev head tail l) (hx : x ∈ l) :
    next x = null ↔ x = tail := by
  constructor
  · intro hnext
    have hprev := h.linked.prev_next (x := x) (by simp [hx])
    rw [Function.update_of_ne (h.ne_null hx), hnext, Function.update_self] at hprev
    exact hprev.symm
  · rintro rfl
    exact h.next_tail (h.ne_null hx)

theorem NullList.prev_eq_null_iff
    (h : NullList null next prev head tail l) (hx : x ∈ l) :
    prev x = null ↔ x = head := by
  constructor
  · intro hprev
    have hnext := h.linked.next_prev (y := x) (by simp [hx])
    rw [Function.update_of_ne (h.ne_null hx), hprev, Function.update_self] at hnext
    exact hnext.symm
  · rintro rfl
    exact h.prev_head (h.ne_null hx)

theorem NullList.prev_mem
    (h : NullList null next prev head tail l) (hx : x ∈ l) :
    prev x = null ∨ prev x ∈ l := by
  obtain ⟨xs, ys, rfl⟩ := List.append_of_mem hx
  have hlast := (linked_append.mp h.linked).1.last_mem
  rw [Function.update_of_ne (h.ne_null hx)] at hlast
  rcases List.mem_cons.mp hlast with heq | hmem
  · exact Or.inl heq
  · exact Or.inr (by simp [hmem])

/-- The nodes are those met from the head on. -/
theorem NullList.chain (h : NullList null next prev head tail l) :
    Chain null next head l := by
  have hlinked : ∀ {a : Node} {l : List Node}, null ∉ l →
      Linked (Function.update next null head)
        (Function.update prev null tail) a l null →
      Chain null next (Function.update next null head a) l := by
    intro a l hnull hl
    induction l generalizing a with
    | nil => exact hl.1
    | cons x l ih =>
        have hx : x ≠ null := fun heq => hnull (by simp [heq])
        have htail := ih (fun hmem => hnull (by simp [hmem])) hl.2.2
        rw [Function.update_of_ne hx] at htail
        exact ⟨hl.1, htail⟩
  have hchain := hlinked h.null h.linked
  rwa [Function.update_self] at hchain

theorem NullList.reverse (h : NullList null next prev head tail l) :
    NullList null prev next tail head l.reverse := by
  have hlinked : ∀ {p q : Node → Node} {a b : Node} {l : List Node},
      Linked p q a l b → Linked q p b l.reverse a := by
    intro p q a b l hl
    induction l generalizing a with
    | nil => exact ⟨hl.2, hl.1⟩
    | cons x l ih =>
        rw [List.reverse_cons]
        exact linked_append.mpr ⟨ih hl.2.2, hl.2.1, hl.1⟩
  exact ⟨hlinked h.linked, List.nodup_reverse.mpr h.nodup,
    fun hmem => h.null (List.mem_reverse.mp hmem)⟩

theorem NullList.append
    (h : NullList null next prev head tail l) (hx : x ∉ l) (hxn : x ≠ null)
    (hnext : Function.update next' null head' =
      Function.update (Function.update (Function.update next null head) x null)
        tail x)
    (hprev : Function.update prev' null tail' =
      Function.update (Function.update (Function.update prev null tail) x tail)
        null x) :
    NullList null next' prev' head' tail' (l ++ [x]) := by
  have hself : Linked (Function.update next null head)
      (Function.update prev null tail) null l null := h.linked
  have hnull : null ∉ l ++ [x] := by
    simp only [List.mem_append, List.mem_singleton, not_or]
    exact ⟨h.null, hxn.symm⟩
  refine ⟨?_, ?_, hnull⟩
  · rw [hnext, hprev]
    have hins := hself.insert_end (x := x)
      (List.nodup_cons.mpr ⟨h.null, h.nodup⟩) (by simp [hx, hxn]) hxn h.null
    simpa [insertNext, insertPrev] using hins
  · rw [List.nodup_append]
    refine ⟨h.nodup, List.nodup_singleton x, ?_⟩
    intro y hy z hz
    obtain rfl : z = x := by simpa using hz
    exact fun heq => hx (heq ▸ hy)

theorem NullList.push
    (h : NullList null next prev head tail l) (hx : x ∉ l) (hxn : x ≠ null)
    (hnext : Function.update next' null head' =
      Function.update (Function.update (Function.update next null head) x head)
        null x)
    (hprev : Function.update prev' null tail' =
      Function.update (Function.update (Function.update prev null tail) x null)
        head x) :
    NullList null next' prev' head' tail' (x :: l) := by
  have hreverse := h.reverse.append (by simpa using hx) hxn hprev hnext
  have hback := hreverse.reverse
  simpa using hback

theorem NullList.remove
    {xs ys : List Node} (h : NullList null next prev head tail (xs ++ x :: ys))
    (hnext : Function.update next' null head' =
      Function.update (Function.update next null head)
        (Function.update prev null tail x) (Function.update next null head x))
    (hprev : Function.update prev' null tail' =
      Function.update (Function.update prev null tail)
        (Function.update next null head x)
        (Function.update prev null tail x)) :
    NullList null next' prev' head' tail' (xs ++ ys) := by
  have hnodup := h.nodup
  have hnull := h.null
  simp only [List.nodup_append, List.nodup_cons, List.mem_append,
    List.mem_cons, not_or] at hnodup hnull
  refine ⟨?_, ?_, ?_⟩
  · obtain ⟨hfront, hback⟩ := linked_append.mp h.linked
    have hlast := hfront.last_mem
    have hxs : (null :: xs).Nodup := List.nodup_cons.mpr ⟨hnull.1, hnodup.1⟩
    rw [hnext, hprev]
    cases ys with
    | nil =>
        rw [hback.1, List.append_nil]
        exact hfront.retarget hxs hnull.1
    | cons y ys =>
        obtain ⟨hfwd, -, hrest⟩ := hback
        rw [hfwd]
        have hy : y ∉ xs := fun hmem => hnodup.2.2 y hmem y (by simp) rfl
        refine linked_append.mpr ⟨hfront.retarget hxs hy, hrest.congr ?_ ?_⟩
        · intro z hz
          apply Function.update_of_ne
          rintro rfl
          rcases List.mem_cons.mp hlast with heq | hmem
          · rw [heq] at hz
            exact hnull.2.2 (by simpa using hz)
          · exact hnodup.2.2 _ hmem _ (Or.inr hz) rfl
        · intro z hz
          apply Function.update_of_ne
          rintro rfl
          rcases List.mem_append.mp hz with hmem | hmem
          · exact (List.nodup_cons.mp hnodup.2.1.2).1 hmem
          · exact hnull.2.2 (by simp [List.mem_singleton.mp hmem])
  · rw [List.nodup_append]
    exact ⟨hnodup.1, hnodup.2.1.2,
      fun y hy z hz => hnodup.2.2 y hy z (Or.inr hz)⟩
  · rw [List.mem_append, not_or]
    exact ⟨hnull.1, hnull.2.2⟩

end Lists

end LinkedTable
