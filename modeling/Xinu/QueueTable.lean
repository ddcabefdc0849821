import Xinu.LinkedTable

/-!
# The queue table

All process queues live in `queuetab`: a process is a node of at most one
queue, and every queue has a head and a tail entry of its own.  The functions
of queue.c, getitem.c, insert.c and insertd.c are translated on the table; the
same operations on plain lists say what they are for, and `Represents` ties a
table to the lists it stores.
-/

namespace Xinu

open LinkedTable

def NPROC : ℤ := 100

def NSEM : ℤ := 100

def NQENT : ℤ := NPROC + 4 + NSEM + NSEM

def EMPTY : ℤ := -1

def MAXKEY : ℤ := 2 ^ 31 - 1

def MINKEY : ℤ := -2 ^ 31

structure Qentry where
  qkey : ℤ
  qnext : ℤ
  qprev : ℤ
  deriving DecidableEq, Repr

abbrev Queuetab := ℤ → Qentry

/-! ## queue.h -/

def queuehead (q : ℤ) : ℤ := q

def queuetail (q : ℤ) : ℤ := q + 1

def isbadqid (q : ℤ) : Bool := q < NPROC || NQENT - 1 ≤ q

namespace Queuetab

def next (t : Queuetab) : ℤ → ℤ := fun i => (t i).qnext

def prev (t : Queuetab) : ℤ → ℤ := fun i => (t i).qprev

def key (t : Queuetab) : ℤ → ℤ := fun i => (t i).qkey

def setNext (i value : ℤ) (t : Queuetab) : Queuetab :=
  Function.update t i { t i with qnext := value }

def setPrev (i value : ℤ) (t : Queuetab) : Queuetab :=
  Function.update t i { t i with qprev := value }

def setKey (i value : ℤ) (t : Queuetab) : Queuetab :=
  Function.update t i { t i with qkey := value }

def firstid (q : ℤ) (t : Queuetab) : ℤ := t.next (queuehead q)

def firstkey (q : ℤ) (t : Queuetab) : ℤ := t.key (t.firstid q)

/-- `newqueue` for the queue with head `q`. -/
def newqueue (q : ℤ) (t : Queuetab) : Queuetab :=
  let t := t.setNext (queuehead q) (queuetail q)
  let t := t.setPrev (queuehead q) EMPTY
  let t := t.setKey (queuehead q) MAXKEY
  let t := t.setNext (queuetail q) EMPTY
  let t := t.setPrev (queuetail q) (queuehead q)
  t.setKey (queuetail q) MINKEY

def getitem (pid : ℤ) (t : Queuetab) : Queuetab :=
  let next := t.next pid
  let prev := t.prev pid
  let t := t.setNext prev next
  t.setPrev next prev

def enqueue (pid q : ℤ) (t : Queuetab) : Queuetab :=
  let tail := queuetail q
  let prev := t.prev tail
  let t := t.setNext pid tail
  let t := t.setPrev pid prev
  let t := t.setNext prev pid
  t.setPrev tail pid

/-- What `dequeue` does to the links of the process it has taken out. -/
def clearLinks (pid : ℤ) (t : Queuetab) : Queuetab :=
  let t := t.setPrev pid EMPTY
  t.setNext pid EMPTY

/-- The search of `insert`, bounded by the size of the table. -/
def insertLoop (key : ℤ) (t : Queuetab) : ℕ → ℤ → Option ℤ
  | 0, _ => none
  | fuel + 1, curr =>
      if key ≤ t.key curr then insertLoop key t fuel (t.next curr)
      else some curr

/-- `insert` after its checks; `none` is a search that does not end. -/
def insert (pid q key : ℤ) (t : Queuetab) : Option Queuetab :=
  (insertLoop key t NQENT.toNat (t.firstid q)).map fun curr =>
    let prev := t.prev curr
    let t := t.setNext pid curr
    let t := t.setPrev pid prev
    let t := t.setKey pid key
    let t := t.setNext prev pid
    t.setPrev curr pid

/-- The search of `insertd`: the key that is left, and the nodes before and
after the place it has found. -/
def insertdLoop (q : ℤ) (t : Queuetab) : ℕ → ℤ → ℤ → ℤ → Option (ℤ × ℤ × ℤ)
  | 0, _, _, _ => none
  | fuel + 1, key, prev, next =>
      if next ≠ queuetail q ∧ t.key next ≤ key then
        insertdLoop q t fuel (key - t.key next) next (t.next next)
      else
        some (key, prev, next)

/-- `insertd` after its checks. -/
def insertd (pid q key : ℤ) (t : Queuetab) : Option Queuetab :=
  (insertdLoop q t NQENT.toNat key (queuehead q) (t.next (queuehead q))).map
    fun (key, prev, next) =>
      let t := t.setNext pid next
      let t := t.setPrev pid prev
      let t := t.setKey pid key
      let t := t.setNext prev pid
      let t := t.setPrev next pid
      if next ≠ queuetail q then t.setKey next (t.key next - key) else t

/-- The step of `unsleep` that passes the delay of a process on to the next
process of its queue. -/
def creditNext (pid : ℤ) (t : Queuetab) : Queuetab :=
  let pidnext := t.next pid
  if pidnext < NPROC then t.setKey pidnext (t.key pidnext + t.key pid) else t

/-- `--queuetab[firstid(q)].qkey`. -/
def decFirstkey (q : ℤ) (t : Queuetab) : Queuetab :=
  t.setKey (t.firstid q) (t.key (t.firstid q) - 1)

end Queuetab

/-! ## Queues as lists -/

/-- The processes of each queue in order, and the key of each process. -/
structure QueueLists where
  lists : ℤ → List ℤ
  keys : ℤ → ℤ

namespace QueueLists

def firstid (q : ℤ) (L : QueueLists) : ℤ := (L.lists q).head?.getD (q + 1)

def firstkey (q : ℤ) (L : QueueLists) : ℤ :=
  (L.lists q).head?.elim MINKEY L.keys

def getitem (pid : ℤ) (L : QueueLists) : QueueLists :=
  { L with lists := fun q => (L.lists q).erase pid }

def enqueue (pid q : ℤ) (L : QueueLists) : QueueLists :=
  { L with lists := Function.update L.lists q (L.lists q ++ [pid]) }

/-- Put a process behind the processes with a key at least its own. -/
def insertDescending (keys : ℤ → ℤ) (key pid : ℤ) : List ℤ → List ℤ
  | [] => [pid]
  | p :: l =>
      if key ≤ keys p then p :: insertDescending keys key pid l
      else pid :: p :: l

def insert (pid q key : ℤ) (L : QueueLists) : QueueLists where
  lists := Function.update L.lists q
    (insertDescending L.keys key pid (L.lists q))
  keys := Function.update L.keys pid key

/-- Where a delay falls in a list of differences: the processes before it, the
difference that is left, and the processes after it. -/
def deltaSplit (keys : ℤ → ℤ) : ℤ → List ℤ → List ℤ × ℤ × List ℤ
  | key, [] => ([], key, [])
  | key, p :: l =>
      if keys p ≤ key then
        let r := deltaSplit keys (key - keys p) l
        (p :: r.1, r.2)
      else
        ([], key, p :: l)

/-- Subtract from the key of the first process of a list. -/
def chargeHead (key : ℤ) (keys : ℤ → ℤ) : List ℤ → ℤ → ℤ
  | [] => keys
  | p :: _ => Function.update keys p (keys p - key)

def insertd (pid q key : ℤ) (L : QueueLists) : QueueLists :=
  let r := deltaSplit L.keys key (L.lists q)
  { lists := Function.update L.lists q (r.1 ++ pid :: r.2.2)
    keys := chargeHead r.2.1 (Function.update L.keys pid r.2.1) r.2.2 }

/-- The process behind `pid` in a list. -/
def follower (pid : ℤ) : List ℤ → Option ℤ
  | p :: next :: l => if p = pid then some next else follower pid (next :: l)
  | _ => none

def creditNext (pid q : ℤ) (L : QueueLists) : QueueLists :=
  match follower pid (L.lists q) with
  | none => L
  | some next =>
      { L with keys :=
          Function.update L.keys next (L.keys next + L.keys pid) }

def decFirstkey (q : ℤ) (L : QueueLists) : QueueLists :=
  match L.lists q with
  | [] => L
  | p :: _ => { L with keys := Function.update L.keys p (L.keys p - 1) }

end QueueLists

/-! ## Tables that store lists -/

def ProcId (p : ℤ) : Prop := 0 ≤ p ∧ p < NPROC

/-- The heads of the queues that `newqueue` hands out. -/
def QueueId (q : ℤ) : Prop := NPROC ≤ q ∧ q < NQENT - 1 ∧ q % 2 = 0

structure Represents (t : Queuetab) (L : QueueLists) : Prop where
  linked : ∀ {q}, QueueId q → Linked t.next t.prev q (L.lists q) (q + 1)
  tailKey : ∀ {q}, QueueId q → t.key (q + 1) = MINKEY
  keys : ∀ {p}, ProcId p → t.key p = L.keys p
  mem : ∀ {q p}, p ∈ L.lists q → QueueId q ∧ ProcId p
  nodup : ∀ q, (L.lists q).Nodup
  disjoint : ∀ {q q' p}, p ∈ L.lists q → p ∈ L.lists q' → q = q'

/-- A table of which only some queues have been handed out so far; the entries
of the others are not yet initialised. -/
structure Stores
    (handed : ℤ → Prop) (t : Queuetab) (L : QueueLists) : Prop where
  queues : ∀ {q}, handed q → QueueId q
  linked : ∀ {q}, handed q → Linked t.next t.prev q (L.lists q) (q + 1)
  tailKey : ∀ {q}, handed q → t.key (q + 1) = MINKEY
  keys : ∀ {p}, ProcId p → t.key p = L.keys p
  mem : ∀ {q p}, p ∈ L.lists q → handed q ∧ ProcId p
  nodup : ∀ q, (L.lists q).Nodup
  disjoint : ∀ {q q' p}, p ∈ L.lists q → p ∈ L.lists q' → q = q'

theorem Represents.stores
    {t : Queuetab} {L : QueueLists} (h : Represents t L) :
    Stores QueueId t L :=
  ⟨id, h.linked, h.tailKey, h.keys, h.mem, h.nodup, h.disjoint⟩

theorem Stores.represents
    {t : Queuetab} {L : QueueLists} (h : Stores QueueId t L) :
    Represents t L :=
  ⟨h.linked, h.tailKey, h.keys, h.mem, h.nodup, h.disjoint⟩

section Fields

variable (t : Queuetab) (i value : ℤ)

@[simp] theorem next_setNext :
    (t.setNext i value).next = Function.update t.next i value := by
  funext j
  by_cases h : j = i <;> simp [Queuetab.setNext, Queuetab.next, h]

@[simp] theorem prev_setNext : (t.setNext i value).prev = t.prev := by
  funext j
  by_cases h : j = i <;> simp [Queuetab.setNext, Queuetab.prev, h]

@[simp] theorem key_setNext : (t.setNext i value).key = t.key := by
  funext j
  by_cases h : j = i <;> simp [Queuetab.setNext, Queuetab.key, h]

@[simp] theorem next_setPrev : (t.setPrev i value).next = t.next := by
  funext j
  by_cases h : j = i <;> simp [Queuetab.setPrev, Queuetab.next, h]

@[simp] theorem prev_setPrev :
    (t.setPrev i value).prev = Function.update t.prev i value := by
  funext j
  by_cases h : j = i <;> simp [Queuetab.setPrev, Queuetab.prev, h]

@[simp] theorem key_setPrev : (t.setPrev i value).key = t.key := by
  funext j
  by_cases h : j = i <;> simp [Queuetab.setPrev, Queuetab.key, h]

@[simp] theorem next_setKey : (t.setKey i value).next = t.next := by
  funext j
  by_cases h : j = i <;> simp [Queuetab.setKey, Queuetab.next, h]

@[simp] theorem prev_setKey : (t.setKey i value).prev = t.prev := by
  funext j
  by_cases h : j = i <;> simp [Queuetab.setKey, Queuetab.prev, h]

@[simp] theorem key_setKey :
    (t.setKey i value).key = Function.update t.key i value := by
  funext j
  by_cases h : j = i <;> simp [Queuetab.setKey, Queuetab.key, h]

end Fields

/-- The entries that belong to a queue: its head, its processes, its tail. -/
def queueNodes (L : QueueLists) (q : ℤ) : List ℤ :=
  q :: L.lists q ++ [q + 1]

section Nodes

variable {handed : ℤ → Prop} {t : Queuetab} {L : QueueLists}
  {q q' pid p c : ℤ}

theorem mem_queueNodes :
    p ∈ queueNodes L q ↔ p = q ∨ p ∈ L.lists q ∨ p = q + 1 := by
  simp [queueNodes]

theorem Stores.nodes_nodup (hrep : Stores handed t L) (hq : QueueId q) :
    (queueNodes L q).Nodup := by
  have hproc : ∀ p ∈ L.lists q, p < q := by
    intro p hp
    have hid := (hrep.mem hp).2
    unfold QueueId at hq
    unfold ProcId at hid
    omega
  have hhead : q ∉ L.lists q := fun h => absurd (hproc q h) (lt_irrefl q)
  have htail : ∀ p ∈ L.lists q, p ≠ q + 1 := fun p hp => by
    have hlt := hproc p hp
    omega
  simp only [queueNodes, List.cons_append, List.nodup_cons, List.mem_append,
    List.mem_singleton, not_or, List.nodup_append, List.nodup_nil,
    List.not_mem_nil, not_false_eq_true, and_true]
  refine ⟨⟨hhead, by omega⟩, hrep.nodup q, trivial, ?_⟩
  intro p hp b hb
  rw [hb]
  exact htail p hp

/-- Two queues have no entry in common. -/
theorem Stores.nodes_ne
    (hrep : Stores handed t L) (hq : QueueId q) (hq' : QueueId q') (hne : q ≠ q')
    {y z : ℤ} (hy : y ∈ queueNodes L q) (hz : z ∈ queueNodes L q') :
    y ≠ z := by
  rw [mem_queueNodes] at hy hz
  have hproc : ∀ {q p}, p ∈ L.lists q → p < NPROC := fun hp =>
    (hrep.mem hp).2.2
  unfold QueueId at hq hq'
  rintro rfl
  rcases hy with hy | hy | hy <;> rcases hz with hz | hz | hz
  · omega
  · have hlt := hproc hz
    omega
  · omega
  · have hlt := hproc hy
    omega
  · exact hne (hrep.disjoint hy hz)
  · have hlt := hproc hy
    omega
  · omega
  · have hlt := hproc hz
    omega
  · omega

theorem proc_not_mem_nodes
    (hp : ProcId pid) (hq : QueueId q) (hfree : pid ∉ L.lists q) :
    pid ∉ queueNodes L q := by
  rw [mem_queueNodes]
  unfold ProcId at hp
  unfold QueueId at hq
  rintro (h | h | h)
  · omega
  · exact hfree h
  · omega

end Nodes

section Edits

variable {handed : ℤ → Prop} {t t' : Queuetab} {L : QueueLists}
  {q pid c : ℤ} {keys : ℤ → ℤ}

/-- Link a process into a queue, in front of the entry `c`. -/
theorem Stores.splice
    (xs ys : List ℤ) (hrep : Stores handed t L) (hq : handed q)
    (hp : ProcId pid)
    (hfree : ∀ q', pid ∉ L.lists q') (hsplit : L.lists q = xs ++ ys)
    (hc : c = ys.head?.getD (q + 1))
    (hnext : t'.next = insertNext t.next t.prev pid c)
    (hprev : t'.prev = insertPrev t.prev pid c)
    (htail : ∀ {q}, handed q → t'.key (q + 1) = MINKEY)
    (hkeys : ∀ {p}, ProcId p → t'.key p = keys p) :
    Stores handed t' ⟨Function.update L.lists q (xs ++ pid :: ys), keys⟩ := by
  have hqueue := hrep.queues hq
  have hnodup := hrep.nodes_nodup hqueue
  have hout := proc_not_mem_nodes hp hqueue (hfree q)
  have hlinked := hrep.linked hq
  unfold queueNodes at hnodup hout
  rw [hsplit] at hnodup hout hlinked
  have hself : Linked t'.next t'.prev q (xs ++ pid :: ys) (q + 1) ∧
      t.prev c ∈ queueNodes L q ∧ c ∈ queueNodes L q := by
    rw [hnext, hprev, hc]
    cases ys with
    | nil =>
        rw [List.append_nil] at hlinked hnodup hout hsplit
        refine ⟨hlinked.append hnodup hout, ?_, ?_⟩
        · have hlast := hlinked.last_mem
          simp only [queueNodes, hsplit]
          exact List.mem_append_left _ hlast
        · simp [queueNodes]
    | cons d ys =>
        refine ⟨hlinked.insert hnodup hout, ?_, ?_⟩
        · have hlast := (linked_append.mp hlinked).1.last_mem
          simp only [queueNodes, hsplit]
          rw [List.mem_cons] at hlast
          rcases hlast with heq | hmem
          · simp [heq]
          · simp [hmem]
        · simp [queueNodes, hsplit]
  refine ⟨hrep.queues, ?_, htail, hkeys, ?_, ?_, ?_⟩
  · intro q' hq'
    have hqueue' := hrep.queues hq'
    by_cases heq : q' = q
    · subst heq
      simpa using hself.1
    · have hother := hrep.linked hq'
      simp only [Function.update_of_ne heq]
      rw [hnext, hprev]
      apply hother.insert_frame
      · intro y hy
        have hmem : y ∈ queueNodes L q' := List.mem_append_left _ hy
        refine ⟨?_, hrep.nodes_ne hqueue' hqueue heq hmem hself.2.1⟩
        rintro rfl
        exact proc_not_mem_nodes hp hqueue' (hfree q') hmem
      · intro y hy
        have hmem : y ∈ queueNodes L q' := List.mem_cons_of_mem _ hy
        refine ⟨?_, hrep.nodes_ne hqueue' hqueue heq hmem hself.2.2⟩
        rintro rfl
        exact proc_not_mem_nodes hp hqueue' (hfree q') hmem
  · intro q' p hmem
    by_cases heq : q' = q
    · subst heq
      simp only [Function.update_self, List.mem_append, List.mem_cons] at hmem
      rcases hmem with h | rfl | h
      · exact hrep.mem (by rw [hsplit]; simp [h])
      · exact ⟨hq, hp⟩
      · exact hrep.mem (by rw [hsplit]; simp [h])
    · simp only [Function.update_of_ne heq] at hmem
      exact hrep.mem hmem
  · intro q'
    by_cases heq : q' = q
    · subst heq
      have hold := hrep.nodup q'
      have hnot := hfree q'
      rw [hsplit] at hold hnot
      simp only [Function.update_self]
      exact (List.nodup_middle).mpr (List.nodup_cons.mpr ⟨hnot, hold⟩)
    · simp only [Function.update_of_ne heq]
      exact hrep.nodup q'
  · have hold : ∀ {q' p}, p ∈ Function.update L.lists q (xs ++ pid :: ys) q' →
        p ≠ pid → p ∈ L.lists q' := by
      intro q' p hmem hne
      by_cases heq : q' = q
      · subst heq
        simp only [Function.update_self, List.mem_append, List.mem_cons]
          at hmem
        rw [hsplit, List.mem_append]
        tauto
      · simpa only [Function.update_of_ne heq] using hmem
    have hnew : ∀ {q'},
        pid ∈ Function.update L.lists q (xs ++ pid :: ys) q' → q' = q := by
      intro q' hmem
      by_contra heq
      rw [Function.update_of_ne heq] at hmem
      exact hfree q' hmem
    intro q₁ q₂ p h₁ h₂
    by_cases heq : p = pid
    · subst heq
      rw [hnew h₁, hnew h₂]
    · exact hrep.disjoint (hold h₁ heq) (hold h₂ heq)

theorem Stores.getitem
    (hrep : Stores handed t L) (hmem : pid ∈ L.lists q) :
    Stores handed (t.getitem pid) (L.getitem pid) := by
  obtain ⟨hq, hp⟩ := hrep.mem hmem
  have hqueue := hrep.queues hq
  have hnext : (t.getitem pid).next = removeNext t.next t.prev pid := by
    simp [Queuetab.getitem, removeNext]
  have hprev : (t.getitem pid).prev = removePrev t.next t.prev pid := by
    simp [Queuetab.getitem, removePrev]
  have hkey : (t.getitem pid).key = t.key := by simp [Queuetab.getitem]
  have hnodup := hrep.nodes_nodup hqueue
  have hlinked := hrep.linked hq
  obtain ⟨xs, ys, hsplit⟩ := List.append_of_mem hmem
  have hxs : pid ∉ xs := by
    have hold := hrep.nodup q
    rw [hsplit] at hold
    exact fun h => (List.nodup_cons.mp (List.nodup_middle.mp hold)).1
      (by simp [h])
  have herase : (L.lists q).erase pid = xs ++ ys := by
    rw [hsplit, List.erase_append_right _ hxs, List.erase_cons_head]
  unfold queueNodes at hnodup
  rw [hsplit] at hnodup hlinked
  obtain ⟨hfront, hback⟩ := linked_append.mp hlinked
  have hlast : t.prev pid ∈ queueNodes L q := by
    have hin := hfront.last_mem
    rw [List.mem_cons] at hin
    rw [mem_queueNodes, hsplit]
    rcases hin with heq | hin
    · exact Or.inl heq
    · exact Or.inr (Or.inl (by simp [hin]))
  have hhead : t.next pid ∈ queueNodes L q := by
    have hin := hback.head_mem
    rw [List.mem_append, List.mem_singleton] at hin
    rw [mem_queueNodes, hsplit]
    rcases hin with hin | heq
    · exact Or.inr (Or.inl (by simp [hin]))
    · exact Or.inr (Or.inr heq)
  have hsub : ∀ {q' p}, p ∈ (L.lists q').erase pid → p ∈ L.lists q' :=
    fun h => List.mem_of_mem_erase h
  refine ⟨hrep.queues, ?_, ?_, ?_, fun h => hrep.mem (hsub h),
    fun q' => (hrep.nodup q').erase pid,
    fun h₁ h₂ => hrep.disjoint (hsub h₁) (hsub h₂)⟩
  · intro q' hq'
    rw [hnext, hprev]
    show Linked _ _ q' ((L.lists q').erase pid) (q' + 1)
    by_cases heq : q' = q
    · rw [heq, herase]
      exact hlinked.remove hnodup
    · have hfree : pid ∉ L.lists q' := fun h => heq (hrep.disjoint h hmem)
      rw [List.erase_of_not_mem hfree]
      apply (hrep.linked hq').remove_frame
      · intro y hy
        exact hrep.nodes_ne (hrep.queues hq') hqueue heq
          (List.mem_append_left _ hy) hlast
      · intro y hy
        exact hrep.nodes_ne (hrep.queues hq') hqueue heq
          (List.mem_cons_of_mem _ hy) hhead
  · intro q' hq'
    rw [hkey]
    exact hrep.tailKey hq'
  · intro p hp
    rw [hkey]
    exact hrep.keys hp

theorem Stores.enqueue
    (hrep : Stores handed t L) (hq : handed q) (hp : ProcId pid)
    (hfree : ∀ q', pid ∉ L.lists q') :
    Stores handed (t.enqueue pid q) (L.enqueue pid q) := by
  have hne : queuetail q ≠ pid := by
    have hqueue := hrep.queues hq
    unfold queuetail
    unfold QueueId at hqueue
    unfold ProcId at hp
    omega
  apply hrep.splice (L.lists q) [] hq hp hfree (c := q + 1)
  · simp
  · rfl
  · simp [Queuetab.enqueue, insertNext, queuetail]
  · simp [Queuetab.enqueue, insertPrev, queuetail]
  · intro q' hq'
    simpa [Queuetab.enqueue] using hrep.tailKey hq'
  · intro p hp'
    simpa [Queuetab.enqueue] using hrep.keys hp'

theorem Represents.splice
    (xs ys : List ℤ) (hrep : Represents t L) (hq : QueueId q) (hp : ProcId pid)
    (hfree : ∀ q', pid ∉ L.lists q') (hsplit : L.lists q = xs ++ ys)
    (hc : c = ys.head?.getD (q + 1))
    (hnext : t'.next = insertNext t.next t.prev pid c)
    (hprev : t'.prev = insertPrev t.prev pid c)
    (htail : ∀ {q}, QueueId q → t'.key (q + 1) = MINKEY)
    (hkeys : ∀ {p}, ProcId p → t'.key p = keys p) :
    Represents t' ⟨Function.update L.lists q (xs ++ pid :: ys), keys⟩ :=
  (hrep.stores.splice xs ys hq hp hfree hsplit hc hnext hprev htail
    hkeys).represents

theorem Represents.getitem
    (hrep : Represents t L) (hmem : pid ∈ L.lists q) :
    Represents (t.getitem pid) (L.getitem pid) :=
  (hrep.stores.getitem hmem).represents

theorem Represents.enqueue
    (hrep : Represents t L) (hq : QueueId q) (hp : ProcId pid)
    (hfree : ∀ q', pid ∉ L.lists q') :
    Represents (t.enqueue pid q) (L.enqueue pid q) :=
  (hrep.stores.enqueue hq hp hfree).represents

end Edits

/-! ## Reading the front of a queue -/

section Front

variable {handed : ℤ → Prop} {t : Queuetab} {L : QueueLists} {q pid : ℤ}

theorem Stores.firstid (hrep : Stores handed t L) (hq : handed q) :
    t.firstid q = L.firstid q :=
  (hrep.linked hq).next_head

theorem Represents.firstid (hrep : Represents t L) (hq : QueueId q) :
    t.firstid q = L.firstid q :=
  hrep.stores.firstid hq

theorem Represents.firstkey (hrep : Represents t L) (hq : QueueId q) :
    t.firstkey q = L.firstkey q := by
  unfold Queuetab.firstkey QueueLists.firstkey
  rw [hrep.firstid hq]
  unfold QueueLists.firstid
  cases hlist : L.lists q with
  | nil => exact hrep.tailKey hq
  | cons p l =>
      have hmem : p ∈ L.lists q := by simp [hlist]
      exact hrep.keys (hrep.mem hmem).2

theorem processes_length_le
    {l : List ℤ} (hnodup : l.Nodup) (hid : ∀ {p}, p ∈ l → ProcId p) :
    l.length ≤ 100 := by
  have hsub : l.toFinset ⊆ Finset.Ico (0 : ℤ) 100 := by
    intro p hp
    rw [List.mem_toFinset] at hp
    have hp' := hid hp
    unfold ProcId NPROC at hp'
    rw [Finset.mem_Ico]
    exact hp'
  have hcard := Finset.card_le_card hsub
  rw [List.toFinset_card_of_nodup hnodup, Int.card_Ico] at hcard
  simpa using hcard

/-- A queue holds at most every process. -/
theorem Stores.length_le (hrep : Stores handed t L) (q : ℤ) :
    (L.lists q).length ≤ 100 :=
  processes_length_le (hrep.nodup q) fun hp => (hrep.mem hp).2

theorem Represents.length_le (hrep : Represents t L) (q : ℤ) :
    (L.lists q).length ≤ 100 :=
  hrep.stores.length_le q

theorem Stores.clearLinks
    (hrep : Stores handed t L) (hp : ProcId pid)
    (hfree : ∀ q, pid ∉ L.lists q) :
    Stores handed (t.clearLinks pid) L := by
  refine ⟨hrep.queues, ?_, ?_, ?_, hrep.mem, hrep.nodup, hrep.disjoint⟩
  · intro q hq
    have hout := proc_not_mem_nodes hp (hrep.queues hq) (hfree q)
    apply (hrep.linked hq).congr
    · intro y hy
      have hne : y ≠ pid := by
        rintro rfl
        exact hout (List.mem_append_left _ hy)
      simp [Queuetab.clearLinks, hne]
    · intro y hy
      have hne : y ≠ pid := by
        rintro rfl
        exact hout (List.mem_cons_of_mem _ hy)
      simp [Queuetab.clearLinks, hne]
  · intro q hq
    simpa [Queuetab.clearLinks] using hrep.tailKey hq
  · intro p hp'
    simpa [Queuetab.clearLinks] using hrep.keys hp'

theorem Represents.clearLinks
    (hrep : Represents t L) (hp : ProcId pid) (hfree : ∀ q, pid ∉ L.lists q) :
    Represents (t.clearLinks pid) L :=
  (hrep.stores.clearLinks hp hfree).represents

end Front

/-! ## Ordered insertion -/

theorem insertDescending_eq (keys : ℤ → ℤ) (key pid : ℤ) (l : List ℤ) :
    QueueLists.insertDescending keys key pid l =
      l.takeWhile (fun p => key ≤ keys p) ++
        pid :: l.dropWhile (fun p => key ≤ keys p) := by
  induction l with
  | nil => rfl
  | cons p l ih =>
      by_cases hle : key ≤ keys p <;>
        simp [QueueLists.insertDescending, hle, ih]

section Insertion

variable {handed : ℤ → Prop} {t : Queuetab} {L : QueueLists} {q pid key : ℤ}

/-- The search of `insert` stops at the first entry with a smaller key. -/
theorem insertLoop_eq
    {a : ℤ} {l : List ℤ} (fuel : ℕ) (keys : ℤ → ℤ)
    (hlinked : Linked t.next t.prev a l (q + 1))
    (htail : t.key (q + 1) < key) (hkeys : ∀ p ∈ l, t.key p = keys p)
    (hfuel : l.length < fuel) :
    Queuetab.insertLoop key t fuel (t.next a) =
      some ((l.dropWhile fun p => key ≤ keys p).head?.getD (q + 1)) := by
  induction l generalizing a fuel with
  | nil =>
      obtain ⟨fuel, rfl⟩ := Nat.exists_eq_succ_of_ne_zero (by omega : fuel ≠ 0)
      rw [Nat.succ_eq_add_one, Queuetab.insertLoop, hlinked.1,
        if_neg (not_le.mpr htail)]
      rfl
  | cons p l ih =>
      obtain ⟨fuel, rfl⟩ := Nat.exists_eq_succ_of_ne_zero (by omega : fuel ≠ 0)
      obtain ⟨hfwd, -, hrest⟩ := hlinked
      rw [Nat.succ_eq_add_one, Queuetab.insertLoop, hfwd, hkeys p (by simp)]
      by_cases hle : key ≤ keys p
      · rw [if_pos hle, ih fuel hrest (fun x hx => hkeys x (by simp [hx]))
          (by simpa using hfuel)]
        simp [hle]
      · rw [if_neg hle]
        simp [hle]

theorem Stores.insert
    (hrep : Stores handed t L) (hq : handed q) (hp : ProcId pid)
    (hfree : ∀ q', pid ∉ L.lists q') (hkey : MINKEY < key) :
    ∃ t', t.insert pid q key = some t' ∧
      Stores handed t' (L.insert pid q key) := by
  have hlength := hrep.length_le q
  have hsize : NQENT.toNat = 304 := by decide
  have hsearch := insertLoop_eq NQENT.toNat L.keys (hrep.linked hq)
    ((hrep.tailKey hq).trans_lt hkey)
    (fun p hmem => hrep.keys (hrep.mem hmem).2) (by omega)
  unfold Queuetab.insert
  rw [show t.firstid q = t.next q from rfl, hsearch, Option.map_some]
  refine ⟨_, rfl, ?_⟩
  unfold QueueLists.insert
  rw [insertDescending_eq]
  apply hrep.splice _ _ hq hp hfree List.takeWhile_append_dropWhile.symm rfl
  · simp [insertNext]
  · simp [insertPrev]
  · intro q' hq'
    have hne : q' + 1 ≠ pid := by
      have hqueue := hrep.queues hq'
      unfold QueueId at hqueue
      unfold ProcId at hp
      omega
    simpa [hne] using hrep.tailKey hq'
  · intro p hp'
    by_cases heq : p = pid
    · simp [heq]
    · simpa [heq] using hrep.keys hp'

theorem Represents.insert
    (hrep : Represents t L) (hq : QueueId q) (hp : ProcId pid)
    (hfree : ∀ q', pid ∉ L.lists q') (hkey : MINKEY < key) :
    ∃ t', t.insert pid q key = some t' ∧
      Represents t' (L.insert pid q key) := by
  obtain ⟨t', hinsert, hstores⟩ := hrep.stores.insert hq hp hfree hkey
  exact ⟨t', hinsert, hstores.represents⟩

/-! ## Insertion into a list of differences -/

theorem deltaSplit_append (keys : ℤ → ℤ) (key : ℤ) (l : List ℤ) :
    l = (QueueLists.deltaSplit keys key l).1 ++
      (QueueLists.deltaSplit keys key l).2.2 := by
  induction l generalizing key with
  | nil => rfl
  | cons p l ih =>
      by_cases hle : keys p ≤ key
      · simp [QueueLists.deltaSplit, hle, ← ih (key - keys p)]
      · simp [QueueLists.deltaSplit, hle]

/-- The search of `insertd` ends at the place that `deltaSplit` names. -/
theorem insertdLoop_eq
    {a : ℤ} {l : List ℤ} (key : ℤ) (fuel : ℕ) (keys : ℤ → ℤ)
    (hlinked : Linked t.next t.prev a l (q + 1))
    (hproc : ∀ p ∈ l, p ≠ q + 1) (hkeys : ∀ p ∈ l, t.key p = keys p)
    (hfuel : l.length < fuel) :
    ∃ prev, Queuetab.insertdLoop q t fuel key a (t.next a) =
      some ((QueueLists.deltaSplit keys key l).2.1, prev,
        (QueueLists.deltaSplit keys key l).2.2.head?.getD (q + 1)) ∧
      prev = t.prev
        ((QueueLists.deltaSplit keys key l).2.2.head?.getD (q + 1)) := by
  induction l generalizing a fuel key with
  | nil =>
      obtain ⟨fuel, rfl⟩ := Nat.exists_eq_succ_of_ne_zero (by omega : fuel ≠ 0)
      obtain ⟨hfwd, hbwd⟩ := hlinked
      refine ⟨a, ?_, hbwd.symm⟩
      rw [Nat.succ_eq_add_one, Queuetab.insertdLoop, hfwd,
        if_neg (by simp [queuetail])]
      rfl
  | cons p l ih =>
      obtain ⟨fuel, rfl⟩ := Nat.exists_eq_succ_of_ne_zero (by omega : fuel ≠ 0)
      obtain ⟨hfwd, hbwd, hrest⟩ := hlinked
      have hp : p ≠ queuetail q := hproc p (by simp)
      rw [Nat.succ_eq_add_one, Queuetab.insertdLoop, hfwd, hkeys p (by simp)]
      by_cases hle : keys p ≤ key
      · rw [if_pos ⟨hp, hle⟩]
        obtain ⟨prev, hloop, hprev⟩ := ih (key - keys p) fuel hrest
          (fun x hx => hproc x (by simp [hx]))
          (fun x hx => hkeys x (by simp [hx])) (by simpa using hfuel)
        refine ⟨prev, ?_, ?_⟩
        · simpa [QueueLists.deltaSplit, hle] using hloop
        · simpa [QueueLists.deltaSplit, hle] using hprev
      · rw [if_neg fun h => hle h.2]
        refine ⟨a, ?_, ?_⟩
        · simp [QueueLists.deltaSplit, hle]
        · simpa [QueueLists.deltaSplit, hle] using hbwd.symm

theorem Represents.insertd
    (hrep : Represents t L) (hq : QueueId q) (hp : ProcId pid)
    (hfree : ∀ q', pid ∉ L.lists q') :
    ∃ t', t.insertd pid q key = some t' ∧
      Represents t' (L.insertd pid q key) := by
  have hlength := hrep.length_le q
  have hsize : NQENT.toNat = 304 := by decide
  have hproc : ∀ p ∈ L.lists q, p ≠ q + 1 := by
    intro p hmem
    have hid := (hrep.mem hmem).2
    unfold QueueId at hq
    unfold ProcId at hid
    omega
  have hsplit := deltaSplit_append L.keys key (L.lists q)
  obtain ⟨prev, hsearch, hprev⟩ := insertdLoop_eq key NQENT.toNat L.keys
    (hrep.linked hq) hproc
    (fun p hmem => hrep.keys (hrep.mem hmem).2) (by omega)
  unfold Queuetab.insertd
  rw [show queuehead q = q from rfl, hsearch, Option.map_some]
  refine ⟨_, rfl, ?_⟩
  unfold QueueLists.insertd
  generalize QueueLists.deltaSplit L.keys key (L.lists q) = r at *
  obtain ⟨xs, rest, ys⟩ := r
  simp only at *
  generalize hnode : ys.head?.getD (q + 1) = node at *
  have htailProc : ∀ {q'}, QueueId q' → q' + 1 ≠ pid := by
    intro q' hq'
    unfold QueueId at hq'
    unfold ProcId at hp
    omega
  cases ys with
  | nil =>
      have hend : node = q + 1 := hnode.symm
      have hlast : ¬ node ≠ queuetail q := fun h => h hend
      rw [if_neg hlast]
      apply hrep.splice _ _ hq hp hfree hsplit hend
      · simp [insertNext, hprev]
      · simp [insertPrev, hprev]
      · intro q' hq'
        simpa [htailProc hq'] using hrep.tailKey hq'
      · intro p hp'
        by_cases heq : p = pid
        · simp [QueueLists.chargeHead, heq]
        · simpa [QueueLists.chargeHead, heq] using hrep.keys hp'
  | cons next ys =>
      have hmem : next ∈ L.lists q := by
        rw [hsplit]
        simp
      have hnextProc := (hrep.mem hmem).2
      have hinside : node = next := hnode.symm
      have hinner : node ≠ queuetail q := by
        rw [hinside]
        exact hproc next hmem
      have hne : next ≠ pid := by
        rintro rfl
        exact hfree q hmem
      rw [if_pos hinner]
      subst node
      apply hrep.splice _ _ hq hp hfree hsplit rfl
      · simp [insertNext, hprev]
      · simp [insertPrev, hprev]
      · intro q' hq'
        have hother : q' + 1 ≠ next := by
          unfold QueueId at hq'
          unfold ProcId at hnextProc
          omega
        simpa [htailProc hq', hother] using hrep.tailKey hq'
      · intro p hp'
        have hkeyNext := hrep.keys hnextProc
        by_cases hpn : p = next
        · simp [QueueLists.chargeHead, hpn, hne, hkeyNext]
        · by_cases heq : p = pid
          · subst heq
            simp [QueueLists.chargeHead, hpn]
          · simpa [QueueLists.chargeHead, hpn, heq] using hrep.keys hp'

end Insertion

/-! ## Edits of keys -/

section Keys

variable {t t' : Queuetab} {L : QueueLists} {q pid p : ℤ} {keys : ℤ → ℤ}

/-- Give processes other keys and leave the links alone. -/
theorem Represents.rekey
    (hrep : Represents t L) (hnext : t'.next = t.next) (hprev : t'.prev = t.prev)
    (htail : ∀ {q}, QueueId q → t'.key (q + 1) = t.key (q + 1))
    (hkeys : ∀ {p}, ProcId p → t'.key p = keys p) :
    Represents t' { L with keys := keys } := by
  refine ⟨?_, ?_, hkeys, hrep.mem, hrep.nodup, hrep.disjoint⟩
  · intro q hq
    rw [hnext, hprev]
    exact hrep.linked hq
  · intro q hq
    rw [htail hq]
    exact hrep.tailKey hq

theorem Represents.setKey
    (hrep : Represents t L) (hp : ProcId p) (value : ℤ) :
    Represents (t.setKey p value)
      { L with keys := Function.update L.keys p value } := by
  apply hrep.rekey
  · simp
  · simp
  · intro q hq
    have hne : q + 1 ≠ p := by
      unfold QueueId at hq
      unfold ProcId at hp
      omega
    simp [hne]
  · intro x hx
    by_cases heq : x = p
    · simp [heq]
    · simpa [heq] using hrep.keys hx

/-- The process behind `pid` is the one its link names. -/
theorem follower_eq
    {next prev : ℤ → ℤ} {a b : ℤ} {l : List ℤ}
    (hl : Linked next prev a l b) (hnodup : l.Nodup) (hmem : pid ∈ l) :
    next pid = (QueueLists.follower pid l).getD b := by
  induction l generalizing a with
  | nil => simp at hmem
  | cons x l ih =>
      obtain ⟨-, -, htail⟩ := hl
      cases l with
      | nil =>
          rw [List.mem_singleton] at hmem
          rw [hmem]
          exact htail.1
      | cons y l =>
          by_cases heq : x = pid
          · subst heq
            simpa [QueueLists.follower] using htail.1
          · have htailMem : pid ∈ y :: l := by
              rcases List.mem_cons.mp hmem with h | h
              · exact absurd h.symm heq
              · exact h
            rw [ih htail (List.nodup_cons.mp hnodup).2 htailMem]
            simp [QueueLists.follower, heq]

theorem follower_mem {l : List ℤ} {next : ℤ}
    (hfollow : QueueLists.follower pid l = some next) : next ∈ l := by
  induction l with
  | nil => simp [QueueLists.follower] at hfollow
  | cons x l ih =>
      cases l with
      | nil => simp [QueueLists.follower] at hfollow
      | cons y l =>
          unfold QueueLists.follower at hfollow
          split_ifs at hfollow with heq
          · simp only [Option.some.injEq] at hfollow
            simp [hfollow]
          · exact List.mem_cons_of_mem x (ih hfollow)

theorem Represents.creditNext
    (hrep : Represents t L) (hmem : pid ∈ L.lists q) :
    Represents (t.creditNext pid) (L.creditNext pid q) := by
  obtain ⟨hq, hp⟩ := hrep.mem hmem
  have hnext := follower_eq (hrep.linked hq) (hrep.nodup q) hmem
  unfold Queuetab.creditNext QueueLists.creditNext
  cases hfollow : QueueLists.follower pid (L.lists q) with
  | none =>
      rw [hfollow, Option.getD_none] at hnext
      have hlast : ¬ t.next pid < NPROC := by
        unfold QueueId at hq
        omega
      simp only
      rw [if_neg hlast]
      exact hrep
  | some next =>
      rw [hfollow, Option.getD_some] at hnext
      have hproc := (hrep.mem (follower_mem hfollow)).2
      simp only [hnext]
      rw [if_pos hproc.2, hrep.keys hproc, hrep.keys hp]
      exact hrep.setKey hproc _

theorem Represents.decFirstkey
    (hrep : Represents t L) (hq : QueueId q) (hne : L.lists q ≠ []) :
    Represents (t.decFirstkey q) (L.decFirstkey q) := by
  have hfirst := hrep.firstid hq
  unfold Queuetab.decFirstkey QueueLists.decFirstkey
  unfold QueueLists.firstid at hfirst
  cases hlist : L.lists q with
  | nil => exact absurd hlist hne
  | cons p l =>
      rw [hlist, List.head?_cons, Option.getD_some] at hfirst
      have hproc := (hrep.mem (show p ∈ L.lists q by simp [hlist])).2
      simp only
      rw [hfirst, hrep.keys hproc]
      exact hrep.setKey hproc _

end Keys

end Xinu
