import Mathlib.Data.List.TakeWhile
import Xinu.KernelRefinement
import Xinu.TransitionSystem

/-!
# Queues over their whole life

`newqueue` hands out the queues of the table one after the other, and then
`insert`, `enqueue`, `dequeue` and `getitem` are called on them in any order.
A history keeps beside the kernel what each queue should hold, who put a
process on its queue, and when.  `enqueue` pays no regard to keys, so the order
that a history keeps speaks of the processes that came by `insert`.
-/

namespace Xinu

open TransitionSystem

/-! ## newqueue.c -/

/-- The new table, the new value of `nextqid`, and what `newqueue` returns. -/
def newqueue (nextqid : ℤ) (t : Queuetab) : Queuetab × ℤ × ℤ :=
  if NQENT ≤ nextqid then (t, nextqid, SYSERR.toInt)
  else (t.newqueue nextqid, nextqid + 2, nextqid)

/-- The queues that `newqueue` has returned so far. -/
def HandedOut (nextqid q : ℤ) : Prop :=
  NPROC ≤ q ∧ q < nextqid ∧ q % 2 = 0

instance (nextqid q : ℤ) : Decidable (HandedOut nextqid q) :=
  inferInstanceAs (Decidable (_ ∧ _ ∧ _))

/-! ## Histories -/

inductive QueueCall where
  | newqueue
  | insert (pid q key : ℤ)
  | enqueue (pid q : ℤ)
  | dequeue (q : ℤ)
  | getitem (pid : ℤ)
  /-- The rest of the kernel goes on and leaves the queue table alone. -/
  | elsewhere (k : Kernel Queuetab)

structure QueueHistory where
  kernel : Kernel Queuetab
  nextqid : ℤ
  lists : QueueLists
  byInsert : ℤ → Bool
  stamp : ℤ → ℕ
  clock : ℕ

namespace QueueHistory

def start (k : Kernel Queuetab) : QueueHistory where
  kernel := k
  nextqid := NPROC
  lists := ⟨fun _ => [], k.queues.key⟩
  byInsert := fun _ => false
  stamp := fun _ => 0
  clock := 0

def put (pid : ℤ) (byInsert : Bool) (h : QueueHistory) : QueueHistory :=
  { h with
    byInsert := Function.update h.byInsert pid byInsert
    stamp := Function.update h.stamp pid h.clock
    clock := h.clock + 1 }

def step (h : QueueHistory) : QueueCall → Option QueueHistory
  | .newqueue =>
      let r := Xinu.newqueue h.nextqid h.kernel.queues
      some
        { h with kernel := { h.kernel with queues := r.1 }, nextqid := r.2.1 }
  | .insert pid q key =>
      if isbadqid q || h.kernel.isbadpid pid then some h
      else
        some
          { h.put pid true with
            kernel := (h.kernel.insert pid q key).1
            lists := h.lists.insert pid q key }
  | .enqueue pid q =>
      if isbadqid q || h.kernel.isbadpid pid then some h
      else
        some
          { h.put pid false with
            kernel := (h.kernel.enqueue pid q).1
            lists := h.lists.enqueue pid q }
  | .dequeue q =>
      some
        { h with
          kernel := (h.kernel.dequeue q).1
          lists :=
            if isbadqid q then h.lists
            else (h.lists.lists q).head?.elim h.lists h.lists.getitem }
  | .getitem pid =>
      some
        { h with
          kernel := h.kernel.getitem pid
          lists := h.lists.getitem pid }
  | .elsewhere k =>
      some { h with kernel := { k with queues := h.kernel.queues } }

/-- What callers keep to: a queue they name has been handed out, a process that
goes on a queue is on none, `getitem` takes a process that is on one, and a key
is a priority, which is never as small as `MINKEY`. -/
def Promised (h : QueueHistory) : QueueCall → Prop
  | .newqueue => True
  | .insert pid q key =>
      (isbadqid q || h.kernel.isbadpid pid) = false →
        HandedOut h.nextqid q ∧ (∀ q', pid ∉ h.lists.lists q') ∧ MINKEY < key
  | .enqueue pid q =>
      (isbadqid q || h.kernel.isbadpid pid) = false →
        HandedOut h.nextqid q ∧ ∀ q', pid ∉ h.lists.lists q'
  | .dequeue q => isbadqid q = false → HandedOut h.nextqid q
  | .getitem pid => ∃ q, pid ∈ h.lists.lists q
  | .elsewhere _ => True

/-- `a` stands before `b` on a queue: if `b` came by `insert`, its key is not
the larger one, and of two such processes with one key `a` came first. -/
def InOrder (h : QueueHistory) (a b : ℤ) : Prop :=
  h.byInsert b = true →
    h.lists.keys b ≤ h.lists.keys a ∧
      (h.byInsert a = true → h.lists.keys a = h.lists.keys b →
        h.stamp a < h.stamp b)

structure Law (h : QueueHistory) : Prop where
  nextqid : NPROC ≤ h.nextqid ∧ h.nextqid ≤ NQENT ∧ h.nextqid % 2 = 0
  stores : Stores (HandedOut h.nextqid) h.kernel.queues h.lists
  ordered : ∀ q, (h.lists.lists q).Pairwise h.InOrder
  stamps : ∀ {q p}, p ∈ h.lists.lists q → h.stamp p < h.clock

section Table

variable {t : Queuetab} {L : QueueLists} {k : Kernel Queuetab}
  {handed : ℤ → Prop} {q p pid key : ℤ}

/-- `newqueue` writes only the two entries of the queue it hands out. -/
theorem stores_newqueue
    (hs : Stores handed t L) (hq : QueueId q) (hnew : ¬ handed q) :
    Stores (fun x => handed x ∨ x = q) (t.newqueue q) L := by
  have hempty : L.lists q = [] := by
    rw [List.eq_nil_iff_forall_not_mem]
    intro x hx
    exact hnew (hs.mem hx).1
  have hhead : q ∈ queueNodes L q := by simp [queueNodes]
  have htail : q + 1 ∈ queueNodes L q := by simp [queueNodes]
  refine ⟨?_, ?_, ?_, ?_, fun h => ⟨Or.inl (hs.mem h).1, (hs.mem h).2⟩,
    hs.nodup, hs.disjoint⟩
  · rintro x (hx | rfl)
    · exact hs.queues hx
    · exact hq
  · rintro x (hx | rfl)
    · have hne : x ≠ q := fun h => hnew (h ▸ hx)
      have hframe : ∀ y ∈ queueNodes L x, y ≠ q ∧ y ≠ q + 1 := fun y hy =>
        ⟨hs.nodes_ne (hs.queues hx) hq hne hy hhead,
          hs.nodes_ne (hs.queues hx) hq hne hy htail⟩
      apply (hs.linked hx).congr
      · intro y hy
        have hy' := hframe y (List.mem_append_left _ hy)
        simp [Queuetab.newqueue, queuehead, queuetail, hy']
      · intro y hy
        have hy' := hframe y (List.mem_cons_of_mem _ hy)
        simp [Queuetab.newqueue, queuehead, queuetail, hy']
    · rw [hempty]
      constructor <;> simp [Queuetab.newqueue, queuehead, queuetail]
  · rintro x (hx | rfl)
    · have hx' := hs.queues hx
      have hne : x ≠ q := fun h => hnew (h ▸ hx)
      have hnodes : x + 1 ≠ q ∧ x + 1 ≠ q + 1 := by
        unfold QueueId at hx' hq
        omega
      simpa [Queuetab.newqueue, queuehead, queuetail, hnodes, hne]
        using hs.tailKey hx
    · simp [Queuetab.newqueue, queuehead, queuetail]
  · intro x hx
    have hnodes : x ≠ q ∧ x ≠ q + 1 := by
      unfold ProcId at hx
      unfold QueueId at hq
      omega
    simpa [Queuetab.newqueue, queuehead, queuetail, hnodes] using hs.keys hx

theorem dequeue_eq (hs : Stores handed k.queues L) (hq : handed q) :
    k.dequeue q =
      (L.lists q).head?.elim (k, EMPTY) fun p =>
        ({ k with queues := (k.queues.getitem p).clearLinks p }, p) := by
  have hqueue := hs.queues hq
  have hfirst := hs.firstid hq
  unfold QueueLists.firstid at hfirst
  cases hlist : L.lists q with
  | nil =>
      rw [hlist, List.head?_nil, Option.getD_none] at hfirst
      have hempty : k.isempty q = true := by
        unfold QueueId at hqueue
        simp [Kernel.isempty, hfirst]
        omega
      simp [Kernel.dequeue, hqueue.not_bad, hempty]
  | cons p l =>
      rw [hlist, List.head?_cons, Option.getD_some] at hfirst
      have hproc := (hs.mem (show p ∈ L.lists q by simp [hlist])).2
      have hempty : k.isempty q = false := by
        unfold ProcId at hproc
        simp [Kernel.isempty, hfirst]
        omega
      simp [Kernel.dequeue, Kernel.getfirst, Kernel.getitem, hqueue.not_bad,
        hempty, hfirst]

theorem stores_dequeue
    (hs : Stores handed t L) (hmem : p ∈ L.lists q) :
    Stores handed ((t.getitem p).clearLinks p) (L.getitem p) :=
  (hs.getitem hmem).clearLinks (hs.mem hmem).2 fun q' =>
    (hs.nodup q').not_mem_erase

end Table

/-! ## Where insert puts a process -/

section Order

variable {h : QueueHistory} {pid q key : ℤ}

/-- Behind the first smaller entry stand only smaller ones, as far as `insert`
has put them there. -/
theorem Law.behind_smaller
    (law : Law h) {p : ℤ}
    (hmem : p ∈ (h.lists.lists q).dropWhile fun p => key ≤ h.lists.keys p)
    (hins : h.byInsert p = true) : h.lists.keys p < key := by
  have hsub := List.dropWhile_sublist (l := h.lists.lists q)
    fun p => decide (key ≤ h.lists.keys p)
  have hpair := (law.ordered q).sublist hsub
  cases hback : (h.lists.lists q).dropWhile
      fun p => decide (key ≤ h.lists.keys p) with
  | nil => simp [hback] at hmem
  | cons c back =>
      have hstop := List.head?_dropWhile_not
        (fun p => decide (key ≤ h.lists.keys p)) (h.lists.lists q)
      rw [hback] at hstop hpair hmem
      have hc : h.lists.keys c < key := by simpa using hstop
      rcases List.mem_cons.mp hmem with rfl | hmem
      · exact hc
      · exact ((List.rel_of_pairwise_cons hpair hmem) hins).1.trans_lt hc

/-- The place of a new process: no entry in front of it has a smaller key, and
of the entries behind it those that came by `insert` have one. -/
theorem Law.place (law : Law h) (pid q key : ℤ) :
    ∃ front back, h.lists.lists q = front ++ back ∧
      QueueLists.insertDescending h.lists.keys key pid (h.lists.lists q) =
        front ++ pid :: back ∧
      (∀ p ∈ front, key ≤ h.lists.keys p) ∧
      ∀ p ∈ back, h.byInsert p = true → h.lists.keys p < key := by
  refine ⟨_, _, List.takeWhile_append_dropWhile.symm,
    insertDescending_eq h.lists.keys key pid (h.lists.lists q), ?_, ?_⟩
  · intro p hp
    simpa using List.mem_takeWhile_imp hp
  · intro p hp hins
    exact law.behind_smaller hp hins

/-- Processes other than the one put on a queue keep their order. -/
theorem inOrder_put
    {a b : ℤ} {h' : QueueHistory} (ha : a ≠ pid) (hb : b ≠ pid)
    (hkeys : ∀ x, x ≠ pid → h'.lists.keys x = h.lists.keys x)
    (hby : ∀ x, x ≠ pid → h'.byInsert x = h.byInsert x)
    (hstamp : ∀ x, x ≠ pid → h'.stamp x = h.stamp x)
    (horder : h.InOrder a b) : h'.InOrder a b := by
  unfold InOrder
  rw [hkeys a ha, hkeys b hb, hby a ha, hby b hb, hstamp a ha, hstamp b hb]
  exact horder

/-- A process that goes between `front` and `back` of a queue. -/
theorem Law.put
    {k : Kernel Queuetab} {L : QueueLists} {front back : List ℤ} {ins : Bool}
    (law : Law h) (hfree : ∀ q', pid ∉ h.lists.lists q')
    (hstores : Stores (HandedOut h.nextqid) k.queues L)
    (hsplit : h.lists.lists q = front ++ back)
    (hlists : L.lists =
      Function.update h.lists.lists q (front ++ pid :: back))
    (hkeys : ∀ x, x ≠ pid → L.keys x = h.lists.keys x)
    (hfront : ∀ p ∈ front, ins = true → L.keys pid ≤ h.lists.keys p)
    (hback : ∀ p ∈ back, h.byInsert p = true → h.lists.keys p < L.keys pid) :
    Law { h.put pid ins with kernel := k, lists := L } := by
  have hold : ∀ {q' x}, x ∈ h.lists.lists q' → x ≠ pid := by
    rintro q' x hx rfl
    exact hfree q' hx
  have hmemF : ∀ {x}, x ∈ front → x ∈ h.lists.lists q := by
    intro x hx
    simp [hsplit, hx]
  have hmemB : ∀ {x}, x ∈ back → x ∈ h.lists.lists q := by
    intro x hx
    simp [hsplit, hx]
  have hkeep : ∀ {a b}, a ≠ pid → b ≠ pid → h.InOrder a b →
      InOrder { h.put pid ins with kernel := k, lists := L } a b := by
    intro a b ha hb
    apply inOrder_put ha hb hkeys <;>
      · intro x hx
        simp [QueueHistory.put, hx]
  refine ⟨law.nextqid, hstores, ?_, ?_⟩
  · intro q'
    by_cases heq : q' = q
    · subst heq
      have hall := law.ordered q'
      rw [hsplit, List.pairwise_append] at hall
      obtain ⟨hpF, hpB, hcross⟩ := hall
      simp only [hlists, Function.update_self]
      rw [List.pairwise_append, List.pairwise_cons]
      refine ⟨?_, ⟨?_, ?_⟩, ?_⟩
      · exact hpF.imp_of_mem fun ha hb =>
          hkeep (hold (hmemF ha)) (hold (hmemF hb))
      · intro b hb hins
        have hne := hold (hmemB hb)
        have hlt := hback b hb (by simpa [QueueHistory.put, hne] using hins)
        rw [hkeys b hne]
        exact ⟨hlt.le, fun _ heq => absurd heq hlt.ne'⟩
      · exact hpB.imp_of_mem fun ha hb =>
          hkeep (hold (hmemB ha)) (hold (hmemB hb))
      · intro a ha b hb
        have hne := hold (hmemF ha)
        rcases List.mem_cons.mp hb with rfl | hb
        · intro hins
          have hle := hfront a ha (by simpa [QueueHistory.put] using hins)
          have hst := law.stamps (hmemF ha)
          rw [hkeys a hne]
          exact ⟨hle, fun _ _ => by simpa [QueueHistory.put, hne] using hst⟩
        · exact hkeep hne (hold (hmemB hb)) (hcross a ha b hb)
    · simp only [hlists, Function.update_of_ne heq]
      exact (law.ordered q').imp_of_mem fun ha hb => hkeep (hold ha) (hold hb)
  · intro q' x hx
    by_cases hne : x = pid
    · simp [QueueHistory.put, hne]
    · have hx' : x ∈ h.lists.lists q' := by
        by_cases heq : q' = q
        · subst heq
          simp only [hlists, Function.update_self, List.mem_append,
            List.mem_cons] at hx
          rcases hx with hx | hx | hx
          · exact hmemF hx
          · exact absurd hx hne
          · exact hmemB hx
        · simpa [hlists, heq] using hx
      have hlt := law.stamps hx'
      simp [QueueHistory.put, hne]
      omega

theorem Law.insert
    (law : Law h) (hbad : (isbadqid q || h.kernel.isbadpid pid) = false)
    (hq : HandedOut h.nextqid q) (hfree : ∀ q', pid ∉ h.lists.lists q')
    (hkey : MINKEY < key) :
    ∃ t', h.kernel.insert pid q key =
        ({ h.kernel with queues := t' }, OK) ∧
      Law { h.put pid true with
        kernel := { h.kernel with queues := t' }
        lists := h.lists.insert pid q key } := by
  have hproc : ProcId pid := by
    rw [Bool.or_eq_false_iff] at hbad
    exact (isbadpid_false hbad.2).1
  obtain ⟨t', hinsert, hstores⟩ := law.stores.insert hq hproc hfree hkey
  obtain ⟨front, back, hsplit, hlist, hfront, hback⟩ := law.place pid q key
  have hself : (h.lists.insert pid q key).keys pid = key :=
    Function.update_self _ _ _
  refine ⟨t', by simp [Kernel.insert, hbad, hinsert], ?_⟩
  apply law.put hfree hstores hsplit
  · rw [← hlist]
    rfl
  · intro x hx
    exact Function.update_of_ne hx _ _
  · intro p hp _
    rw [hself]
    exact hfront p hp
  · intro p hp hins
    rw [hself]
    exact hback p hp hins

theorem Law.enqueue
    (law : Law h) (hbad : (isbadqid q || h.kernel.isbadpid pid) = false)
    (hq : HandedOut h.nextqid q) (hfree : ∀ q', pid ∉ h.lists.lists q') :
    Law { h.put pid false with
      kernel := (h.kernel.enqueue pid q).1
      lists := h.lists.enqueue pid q } := by
  have hproc : ProcId pid := by
    rw [Bool.or_eq_false_iff] at hbad
    exact (isbadpid_false hbad.2).1
  have hstores := law.stores.enqueue hq hproc hfree
  have hsplit : h.lists.lists q = h.lists.lists q ++ [] := by
    rw [List.append_nil]
  refine law.put hfree ?_ hsplit rfl ?_ ?_ ?_
  · simpa [Kernel.enqueue, hbad] using hstores
  · intro x _
    rfl
  · intro p _ hins
    cases hins
  · intro p hp
    cases hp

theorem Law.remove
    {k : Kernel Queuetab} (law : Law h)
    (hs : Stores (HandedOut h.nextqid) k.queues (h.lists.getitem pid)) :
    Law { h with kernel := k, lists := h.lists.getitem pid } := by
  refine ⟨law.nextqid, hs, ?_, ?_⟩
  · intro q'
    exact (law.ordered q').sublist List.erase_sublist
  · intro q' x hx
    exact law.stamps (List.mem_of_mem_erase hx)

theorem Law.newqueue
    (law : Law h) (hroom : ¬ NQENT ≤ h.nextqid) :
    Law { h with
      kernel := { h.kernel with queues := h.kernel.queues.newqueue h.nextqid }
      nextqid := h.nextqid + 2 } := by
  obtain ⟨hlo, hhi, heven⟩ := law.nextqid
  have hsize : NQENT = 304 := by decide
  have hq : QueueId h.nextqid := by
    unfold QueueId
    omega
  have hnew : ¬ HandedOut h.nextqid h.nextqid := fun hh => lt_irrefl _ hh.2.1
  have hs := stores_newqueue law.stores hq hnew
  have hhanded : (fun x => HandedOut h.nextqid x ∨ x = h.nextqid) =
      HandedOut (h.nextqid + 2) := by
    funext x
    unfold HandedOut
    apply propext
    constructor
    · rintro (hx | rfl)
      · exact ⟨hx.1, by omega, hx.2.2⟩
      · exact ⟨hlo, by omega, heven⟩
    · rintro ⟨hx, hx', hxe⟩
      by_cases heq : x = h.nextqid
      · exact Or.inr heq
      · exact Or.inl ⟨hx, by omega, hxe⟩
  rw [hhanded] at hs
  have hnext : NPROC ≤ h.nextqid + 2 ∧ h.nextqid + 2 ≤ NQENT ∧
      (h.nextqid + 2) % 2 = 0 := by omega
  exact ⟨hnext, hs, law.ordered, law.stamps⟩

theorem law_start (k : Kernel Queuetab) : Law (start k) := by
  have hnone : ∀ q, ¬ HandedOut (start k).nextqid q := by
    intro q hq
    exact absurd hq.2.1 (not_lt.mpr hq.1)
  refine ⟨?_, ?_, fun q => List.Pairwise.nil, ?_⟩
  · simp only [start]
    decide
  · exact ⟨fun hq => absurd hq (hnone _), fun hq => absurd hq (hnone _),
      fun hq => absurd hq (hnone _), fun _ => rfl,
      fun hp => absurd hp List.not_mem_nil, fun _ => List.nodup_nil,
      fun hp => absurd hp List.not_mem_nil⟩
  · intro q p hp
    exact absurd hp List.not_mem_nil

theorem Law.step
    {h' : QueueHistory} {c : QueueCall} (law : Law h)
    (hok : h.Promised c) (hstep : h.step c = some h') : Law h' := by
  cases c with
  | newqueue =>
      simp only [QueueHistory.step, Option.some.injEq] at hstep
      subst hstep
      by_cases hroom : NQENT ≤ h.nextqid
      · simpa only [Xinu.newqueue, if_pos hroom] using law
      · simpa only [Xinu.newqueue, if_neg hroom] using law.newqueue hroom
  | insert pid q key =>
      simp only [QueueHistory.step] at hstep
      split_ifs at hstep with hbad
      · rwa [← Option.some.inj hstep]
      · rw [Bool.not_eq_true] at hbad
        obtain ⟨hq, hfree, hkey⟩ := hok hbad
        obtain ⟨t', hinsert, hlaw⟩ := law.insert hbad hq hfree hkey
        rw [← Option.some.inj hstep, hinsert]
        exact hlaw
  | enqueue pid q =>
      simp only [QueueHistory.step] at hstep
      split_ifs at hstep with hbad
      · rwa [← Option.some.inj hstep]
      · rw [Bool.not_eq_true] at hbad
        obtain ⟨hq, hfree⟩ := hok hbad
        rw [← Option.some.inj hstep]
        exact law.enqueue hbad hq hfree
  | dequeue q =>
      simp only [QueueHistory.step, Option.some.injEq] at hstep
      subst hstep
      by_cases hbad : isbadqid q = true
      · simpa [Kernel.dequeue, hbad] using law
      · rw [dequeue_eq law.stores (hok (Bool.not_eq_true _ ▸ hbad)),
          if_neg hbad]
        cases hlist : h.lists.lists q with
        | nil => exact law
        | cons p l =>
            apply law.remove
            exact stores_dequeue (q := q) law.stores (by simp [hlist])
  | getitem pid =>
      simp only [QueueHistory.step, Option.some.injEq] at hstep
      obtain ⟨q, hmem⟩ := hok
      rw [← hstep]
      exact law.remove (law.stores.getitem hmem)
  | elsewhere k =>
      simp only [QueueHistory.step, Option.some.injEq] at hstep
      rw [← hstep]
      exact ⟨law.nextqid, law.stores, law.ordered, law.stamps⟩

theorem law_of_reach
    {k : Kernel Queuetab} (hreach : Reach step Promised (start k) h) : Law h :=
  hreach.invariant Law (law_start k) fun _ _ _ law hok hstep =>
    law.step hok hstep

end Order

/-! ## Every insertion, every departure -/

/-- What `insert` makes of the entries `l` of a queue; of those behind the new
one only the counted ones need be smaller. -/
def Inserted
    (keys : ℤ → ℤ) (counted : ℤ → Prop) (key pid : ℤ) (l l' : List ℤ) : Prop :=
  ∃ front back, l = front ++ back ∧ l' = front ++ pid :: back ∧
    (∀ p ∈ front, key ≤ keys p) ∧ ∀ p ∈ back, counted p → keys p < key

/-- Insertion in key order, and first come first served among equal keys. -/
theorem insert_in_order
    {k : Kernel Queuetab} {h : QueueHistory}
    (hreach : Reach step Promised (start k) h) :
    Stores (HandedOut h.nextqid) h.kernel.queues h.lists ∧
      (∀ pid q key, (isbadqid q || h.kernel.isbadpid pid) = false →
        h.Promised (.insert pid q key) →
        ∃ t' l', h.kernel.insert pid q key =
            ({ h.kernel with queues := t' }, OK) ∧
          Inserted h.lists.keys (fun p => h.byInsert p = true) key pid
            (h.lists.lists q) l' ∧
          Stores (HandedOut h.nextqid) t'
            ⟨Function.update h.lists.lists q l',
              Function.update h.lists.keys pid key⟩) ∧
      ∀ q, HandedOut h.nextqid q →
        (h.lists.lists q = [] → h.kernel.dequeue q = (h.kernel, EMPTY)) ∧
        ∀ p l, h.lists.lists q = p :: l →
          (h.kernel.dequeue q).2 = p ∧
          Stores (HandedOut h.nextqid) (h.kernel.dequeue q).1.queues
            (h.lists.getitem p) ∧
          ∀ p' ∈ l, h.byInsert p = true → h.byInsert p' = true →
            h.lists.keys p = h.lists.keys p' → h.stamp p < h.stamp p' := by
  have law := law_of_reach hreach
  refine ⟨law.stores, ?_, ?_⟩
  · intro pid q key hbad hok
    obtain ⟨hq, hfree, hkey⟩ := hok hbad
    obtain ⟨t', hinsert, hlaw⟩ := law.insert hbad hq hfree hkey
    obtain ⟨front, back, hsplit, hlist, hfront, hback⟩ := law.place pid q key
    refine ⟨t', front ++ pid :: back, hinsert,
      ⟨front, back, hsplit, rfl, hfront, hback⟩, ?_⟩
    rw [← hlist]
    exact hlaw.stores
  · intro q hq
    have hdequeue := dequeue_eq (k := h.kernel) law.stores hq
    refine ⟨fun hnone => by rw [hdequeue, hnone]; rfl, ?_⟩
    intro p l hlist
    have hordered := law.ordered q
    rw [hlist] at hdequeue hordered
    rw [hdequeue]
    refine ⟨rfl, stores_dequeue (q := q) law.stores (by simp [hlist]), ?_⟩
    intro p' hp' hins hins' hkeys
    exact ((List.rel_of_pairwise_cons hordered hp') hins').2 hins hkeys

theorem not_mem_update
    {lists : ℤ → List ℤ} {pid q : ℤ} {l : List ℤ} (hl : pid ∉ l)
    (hfree : ∀ q', pid ∉ lists q') (q' : ℤ) :
    pid ∉ Function.update lists q l q' := by
  by_cases heq : q' = q
  · rwa [heq, Function.update_self]
  · rw [Function.update_of_ne heq]
    exact hfree q'

/-- A kernel before any queue has been handed out. -/
def allWaiting : Kernel Queuetab :=
  { bootKernel (bootQueues 0) ⟨fun _ => 0, ⟨0, 0⟩, 0, 0, 0⟩ 0 with
    proctab := fun _ => { freeEntry with prstate := .wait } }

/-- Process 4 keeps the key of its insertion when it is enqueued later. -/
def requeued : List QueueCall :=
  [.newqueue, .insert 4 100 5, .dequeue 100, .enqueue 1 100, .enqueue 4 100]

/-- Once process 4 has left the queue, no process is on any. -/
theorem requeued_empty (pid q : ℤ) :
    pid ∉ (Function.update (fun _ => []) 100 [4] q : List ℤ).erase 4 := by
  by_cases heq : q = 100 <;> simp [heq]

theorem requeued_allowed :
    Allowed step Promised (start allWaiting) requeued := by
  have hnone : ∀ (pid q : ℤ), pid ∉ (fun _ => [] : ℤ → List ℤ) q := fun _ _ =>
    List.not_mem_nil
  refine ⟨trivial, ?_⟩
  rintro _ ⟨⟩
  refine ⟨fun _ => ⟨by decide, hnone 4, by decide⟩, ?_⟩
  rintro _ ⟨⟩
  refine ⟨fun _ => by decide, ?_⟩
  rintro _ ⟨⟩
  refine ⟨fun _ => ⟨by decide, requeued_empty 1⟩, ?_⟩
  rintro _ ⟨⟩
  refine ⟨fun _ =>
    ⟨by decide, not_mem_update (by decide) (requeued_empty 4)⟩, ?_⟩
  rintro _ ⟨⟩
  trivial

/-- Processes 1 and 4, in this order; process 4 has the larger key. -/
theorem requeued_facts :
    ∃ h, run step (start allWaiting) requeued = some h ∧
      Reach step Promised (start allWaiting) h ∧
      h.lists.lists 100 = [1, 4] ∧ h.lists.keys 1 = 0 ∧ h.lists.keys 4 = 5 ∧
      (isbadqid 100 || h.kernel.isbadpid 2) = false ∧
      h.Promised (.insert 2 100 3) := by
  have hrun : run step (start allWaiting) requeued =
      some ((run step (start allWaiting) requeued).get rfl) := rfl
  refine ⟨_, hrun, Reach.start.run requeued requeued_allowed hrun, rfl, rfl,
    rfl, rfl, fun _ => ⟨by decide, ?_, by decide⟩⟩
  exact not_mem_update (by decide)
    (not_mem_update (by decide) (requeued_empty 2))

theorem insert_not_in_order :
    ¬ ∀ (k : Kernel Queuetab) (h : QueueHistory),
      Reach step Promised (start k) h → ∀ pid q key,
        (isbadqid q || h.kernel.isbadpid pid) = false →
        h.Promised (.insert pid q key) →
        ∃ t' l', h.kernel.insert pid q key =
            ({ h.kernel with queues := t' }, OK) ∧
          Inserted h.lists.keys (fun _ => True) key pid (h.lists.lists q) l' ∧
          Stores (HandedOut h.nextqid) t'
            ⟨Function.update h.lists.lists q l',
              Function.update h.lists.keys pid key⟩ := by
  intro hall
  obtain ⟨h, -, hreach, hlist, hkey₁, hkey₄, hbad, hok⟩ := requeued_facts
  obtain ⟨t', l', -, ⟨front, back, hsplit, -, hfront, hback⟩, -⟩ :=
    hall _ h hreach 2 100 3 hbad hok
  rw [hlist] at hsplit
  cases front with
  | nil =>
      rw [List.nil_append] at hsplit
      have hmem : (4 : ℤ) ∈ back := by simp [← hsplit]
      have hlt := hback 4 hmem trivial
      omega
  | cons p front =>
      have hle := hfront p (by simp)
      rw [List.cons_append, List.cons.injEq] at hsplit
      rw [← hsplit.1] at hle
      omega

theorem insert_in_order_requeued :
    ∃ h, run step (start allWaiting) requeued = some h ∧
      (∃ t', h.kernel.insert 2 100 3 = ({ h.kernel with queues := t' }, OK)) ∧
      (h.kernel.dequeue 100).2 = 1 := by
  obtain ⟨h, hrun, hreach, hlist, -, -, hbad, hok⟩ := requeued_facts
  obtain ⟨hstores, hinsert, hleave⟩ := insert_in_order hreach
  obtain ⟨t', -, hcall, -⟩ := hinsert 2 100 3 hbad hok
  exact ⟨h, hrun, ⟨t', hcall⟩,
    ((hleave 100 (hok hbad).1).2 1 [4] hlist).1⟩

end QueueHistory

end Xinu
