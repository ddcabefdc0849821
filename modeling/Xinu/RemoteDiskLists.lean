import Xinu.RemoteDisk
import Xinu.TransitionSystem

/-!
# The lists of a remote disk

The request queue and the cache stay doubly linked lists, apart from their
free lists, as long as no request leaves the queue in front of another one and
no caller synchronizes a disk with requests.
-/

namespace Xinu.RemoteDisk

open ByteMemory LinkedTable TransitionSystem Rdscblk

variable {Block : Type}

/-! ## What the driver should keep -/

def nodeIds (n : ℕ) : List ℤ := (List.range n).map fun i : ℕ => (i : ℤ) + 1

/-- A doubly linked list with null pointers at both ends. -/
structure DoublyLinked
    (next prev : ℤ → ℤ) (head tail : ℤ) (l : List ℤ) : Prop where
  reach : LinkedTable.Chain NULL next head l
  inverse : ∀ x ∈ l, ∀ y ∈ l, next x = y ↔ prev y = x
  prev_head : head ≠ NULL → prev head = NULL
  next_tail : tail ≠ NULL → next tail = NULL
  tail_eq : tail = l.getLast?.getD NULL
  empty : head = NULL ↔ tail = NULL

structure DiskLaw (d : Rdscblk Block) : Prop where
  queue : ∃ l f, DoublyLinked d.qnext d.qprev d.rd_qhead d.rd_qtail l ∧
    LinkedTable.Chain NULL d.qnext d.rd_qfree f ∧ (l ++ f).Perm (nodeIds RD_QNODES)
  cache : ∃ l f, DoublyLinked d.cnext d.cprev d.rd_chead d.rd_ctail l ∧
    LinkedTable.Chain NULL d.cnext d.rd_cfree f ∧ (l ++ f).Perm (nodeIds RD_CNODES) ∧
    (l.map fun c => (d.cnode c).rd_blknum).Nodup
  search : ∀ blk, ∃ budget, (d.searchBack blk budget).isSome

/-- The requests from the head on. -/
def Rdscblk.queued (d : Rdscblk Block) : List ℤ :=
  nodesFrom NULL d.qnext RD_QNODES d.rd_qhead

/-- A request leaves the queue only if no other one stays, and a disk is
synchronized only while no request is queued. -/
def Alone (d : Rdscblk Block) : ℕ × RdsAction Block → Prop
  | (_, .sync _) => d.rd_qhead = NULL
  | (_, .run) =>
      match d.comm with
      | .searching rptr tptr =>
          tptr ≠ NULL → ¬ ((d.qnode tptr).rd_blknum = (d.qnode rptr).rd_blknum ∧
            (d.qnode tptr).rd_op = .write)
      | _ => True
  | (_, .respond _) =>
      match d.comm with
      | .reading rptr =>
          ∀ r ∈ d.queued, (d.qnode r).rd_op = .read ∧
            (d.qnode r).rd_blknum = (d.qnode rptr).rd_blknum
      | _ => True
  | _ => True

instance (d : Rdscblk Block) (action : ℕ × RdsAction Block) :
    Decidable (Alone d action) :=
  match action with
  | (_, .read _ _ _) | (_, .write _ _ _) => inferInstanceAs (Decidable True)
  | (_, .sync _) => inferInstanceAs (Decidable (d.rd_qhead = NULL))
  | (_, .run) | (_, .respond _) => by
      unfold Alone
      cases d.comm <;> infer_instance

/-! ## Nodes -/

theorem mem_nodeIds {n : ℕ} {x : ℤ} : x ∈ nodeIds n ↔ 0 < x ∧ x ≤ n := by
  unfold nodeIds
  rw [List.mem_map]
  constructor
  · rintro ⟨i, hi, rfl⟩
    have := List.mem_range.mp hi
    omega
  · intro hx
    refine ⟨(x - 1).toNat, ?_, by omega⟩
    rw [List.mem_range]
    omega

theorem nodeIds_nodup (n : ℕ) : (nodeIds n).Nodup := by
  refine List.Nodup.map ?_ List.nodup_range
  intro i j hij
  simpa using hij

theorem nodeIds_length (n : ℕ) : (nodeIds n).length = n := by
  simp [nodeIds]

/-- The nodes of one kind: those in the list `l` and those in the free list
`f`. -/
structure Nodes
    (next prev : ℤ → ℤ) (head tail free : ℤ) (n : ℕ) (l f : List ℤ) : Prop where
  list : NullList NULL next prev head tail l
  free : LinkedTable.Chain NULL next free f
  perm : (l ++ f).Perm (nodeIds n)

section NodeLists

variable {next prev next' prev' : ℤ → ℤ} {head tail free head' tail' x : ℤ}
  {n : ℕ} {l f xs ys : List ℤ}

theorem ne_null_of_perm (hperm : (l ++ f).Perm (nodeIds n))
    (hx : x ∈ l ++ f) : x ≠ NULL := by
  have hpos := (mem_nodeIds.mp (hperm.mem_iff.mp hx)).1
  unfold NULL
  omega

theorem nodup_of_perm (hperm : (l ++ f).Perm (nodeIds n)) :
    (l ++ f).Nodup :=
  hperm.nodup_iff.mpr (nodeIds_nodup n)

theorem NullList.doublyLinked (h : NullList NULL next prev head tail l) :
    DoublyLinked next prev head tail l where
  reach := h.chain
  inverse := fun _ hx _ hy => h.next_iff hx hy
  prev_head := h.prev_head
  next_tail := h.next_tail
  tail_eq := h.tail_eq
  empty := h.head_eq_null_iff.trans h.tail_eq_null_iff.symm

theorem Nodes.apart (h : Nodes next prev head tail free n l f) :
    l.Nodup ∧ f.Nodup ∧ ∀ x ∈ l, ∀ y ∈ f, x ≠ y :=
  List.nodup_append.mp (nodup_of_perm h.perm)

theorem Nodes.head_free_ne (h : Nodes next prev head tail free n l f)
    (hx : x ∈ f) : x ≠ head := by
  rw [h.list.head_eq]
  cases hhead : l.head? with
  | none => exact ne_null_of_perm h.perm (by simp [hx])
  | some z =>
      have hz := List.mem_of_head? hhead
      exact fun heq => h.apart.2.2 z hz x hx heq.symm

theorem Nodes.tail_free_ne (h : Nodes next prev head tail free n l f)
    (hx : x ∈ f) : x ≠ tail := by
  rw [h.list.tail_eq]
  cases hlast : l.getLast? with
  | none => exact ne_null_of_perm h.perm (by simp [hx])
  | some z =>
      have hz := List.mem_of_getLast? hlast
      exact fun heq => h.apart.2.2 z hz x hx heq.symm

/-- The rest of a free list after its first node has been linked elsewhere. -/
theorem Nodes.free_rest
    (h : Nodes next prev head tail free n l (x :: f))
    (hnext : ∀ y ∈ f, next' y = next y) : LinkedTable.Chain NULL next' (next x) f :=
  h.free.2.congr hnext

/-- A free node goes to the end of the list. -/
theorem Nodes.append
    (h : Nodes next prev head tail free n l (x :: f))
    (hnext : Function.update next' NULL head' =
      Function.update (Function.update (Function.update next NULL head) x NULL)
        tail x)
    (hprev : Function.update prev' NULL tail' =
      Function.update (Function.update (Function.update prev NULL tail) x tail)
        NULL x) :
    Nodes next' prev' head' tail' (next x) n (l ++ [x]) f := by
  obtain ⟨-, hf, hne⟩ := h.apart
  have hxn : x ≠ NULL := ne_null_of_perm h.perm (by simp)
  have hxl : x ∉ l := fun hmem => hne x hmem x (by simp) rfl
  refine ⟨h.list.append hxl hxn hnext hprev, h.free_rest ?_, ?_⟩
  · intro y hy
    have hyn : y ≠ NULL := ne_null_of_perm h.perm (by simp [hy])
    have hyx : y ≠ x := fun heq => (List.nodup_cons.mp hf).1 (heq ▸ hy)
    have hat := congrFun hnext y
    rwa [Function.update_of_ne hyn,
      Function.update_of_ne (h.tail_free_ne (by simp [hy])),
      Function.update_of_ne hyx, Function.update_of_ne hyn] at hat
  · simpa using h.perm

/-- A free node goes to the front of the list. -/
theorem Nodes.push
    (h : Nodes next prev head tail free n l (x :: f))
    (hnext : Function.update next' NULL head' =
      Function.update (Function.update (Function.update next NULL head) x head)
        NULL x)
    (hprev : Function.update prev' NULL tail' =
      Function.update (Function.update (Function.update prev NULL tail) x NULL)
        head x) :
    Nodes next' prev' head' tail' (next x) n (x :: l) f := by
  obtain ⟨-, hf, hne⟩ := h.apart
  have hxn : x ≠ NULL := ne_null_of_perm h.perm (by simp)
  have hxl : x ∉ l := fun hmem => hne x hmem x (by simp) rfl
  refine ⟨h.list.push hxl hxn hnext hprev, h.free_rest ?_, ?_⟩
  · intro y hy
    have hyn : y ≠ NULL := ne_null_of_perm h.perm (by simp [hy])
    have hyx : y ≠ x := fun heq => (List.nodup_cons.mp hf).1 (heq ▸ hy)
    have hat := congrFun hnext y
    rwa [Function.update_of_ne hyn, Function.update_of_ne hyn,
      Function.update_of_ne hyx, Function.update_of_ne hyn] at hat
  · exact List.perm_middle.symm.trans h.perm

/-- A node of the list goes to the front of the free list. -/
theorem Nodes.remove
    (h : Nodes next prev head tail free n (xs ++ x :: ys) f)
    (hnext : Function.update next' NULL head' =
      Function.update (Function.update next NULL head) (prev x) (next x))
    (hprev : Function.update prev' NULL tail' =
      Function.update (Function.update prev NULL tail) (next x) (prev x)) :
    Nodes (Function.update next' x free) prev' head' tail' x n (xs ++ ys)
      (x :: f) := by
  obtain ⟨hl, -, hne⟩ := h.apart
  have hxn : x ≠ NULL := ne_null_of_perm h.perm (by simp)
  have hlist : NullList NULL next' prev' head' tail' (xs ++ ys) := by
    apply h.list.remove
    · rw [hnext, Function.update_of_ne hxn, Function.update_of_ne hxn]
    · rw [hprev, Function.update_of_ne hxn, Function.update_of_ne hxn]
  have hout : x ∉ xs ++ ys := (List.nodup_middle.mp hl).notMem
  refine ⟨?_, ⟨rfl, ?_⟩, ?_⟩
  · refine hlist.congr (fun y hy => Function.update_of_ne ?_ _ _)
      fun _ _ => rfl
    rintro rfl
    exact hout hy
  · rw [Function.update_self]
    apply h.free.congr
    intro y hy
    have hyn : y ≠ NULL := ne_null_of_perm h.perm (by simp [hy])
    have hyx : y ≠ x := (hne x (by simp) y hy).symm
    have hyp : y ≠ prev x := by
      rcases h.list.prev_mem (x := x) (by simp) with heq | hmem
      · rwa [heq]
      · exact (hne _ hmem y hy).symm
    have hat := congrFun hnext y
    rw [Function.update_of_ne hyn, Function.update_of_ne hyp,
      Function.update_of_ne hyn] at hat
    rw [Function.update_of_ne hyx, hat]
  · refine List.Perm.trans ?_ h.perm
    rw [List.append_assoc, List.append_assoc]
    exact List.perm_middle.append_left xs

end NodeLists

/-! ## Edits of the control block -/

/-- The edits of the request queue leave the cache alone. -/
structure SameCache (d d' : Rdscblk Block) : Prop where
  chead : d'.rd_chead = d.rd_chead
  ctail : d'.rd_ctail = d.rd_ctail
  cfree : d'.rd_cfree = d.rd_cfree
  cnode : d'.cnode = d.cnode

/-- The edits of the cache leave the request queue alone. -/
structure SameQueue (d d' : Rdscblk Block) : Prop where
  qhead : d'.rd_qhead = d.rd_qhead
  qtail : d'.rd_qtail = d.rd_qtail
  qfree : d'.rd_qfree = d.rd_qfree
  qnode : d'.qnode = d.qnode
  comm : d'.comm = d.comm
  suspended : d'.suspended = d.suspended

def QueueOf (d : Rdscblk Block) (l f : List ℤ) : Prop :=
  Nodes d.qnext d.qprev d.rd_qhead d.rd_qtail d.rd_qfree RD_QNODES l f

def CacheOf (d : Rdscblk Block) (l f : List ℤ) : Prop :=
  Nodes d.cnext d.cprev d.rd_chead d.rd_ctail d.rd_cfree RD_CNODES l f

section Fields

variable (d : Rdscblk Block) (x v : ℤ)

theorem qnext_setQnode (f : Rdqnode → Rdqnode) :
    (d.setQnode x f).qnext =
      Function.update d.qnext x (f (d.qnode x)).rd_next := by
  funext y
  by_cases hy : y = x
  · simp [qnext, setQnode, hy]
  · simp [qnext, setQnode, hy]

theorem qprev_setQnode (f : Rdqnode → Rdqnode) :
    (d.setQnode x f).qprev =
      Function.update d.qprev x (f (d.qnode x)).rd_prev := by
  funext y
  by_cases hy : y = x
  · simp [qprev, setQnode, hy]
  · simp [qprev, setQnode, hy]

theorem cnext_setCnode (f : Rdcnode Block → Rdcnode Block) :
    (d.setCnode x f).cnext =
      Function.update d.cnext x (f (d.cnode x)).rd_next := by
  funext y
  by_cases hy : y = x
  · simp [cnext, setCnode, hy]
  · simp [cnext, setCnode, hy]

theorem cprev_setCnode (f : Rdcnode Block → Rdcnode Block) :
    (d.setCnode x f).cprev =
      Function.update d.cprev x (f (d.cnode x)).rd_prev := by
  funext y
  by_cases hy : y = x
  · simp [cprev, setCnode, hy]
  · simp [cprev, setCnode, hy]

@[simp] theorem qnext_setQnext :
    (d.setQnext x v).qnext = Function.update d.qnext x v :=
  qnext_setQnode d x _

@[simp] theorem qprev_setQnext : (d.setQnext x v).qprev = d.qprev :=
  (qprev_setQnode d x _).trans (Function.update_eq_self x d.qprev)

@[simp] theorem qnext_setQprev : (d.setQprev x v).qnext = d.qnext :=
  (qnext_setQnode d x _).trans (Function.update_eq_self x d.qnext)

@[simp] theorem qprev_setQprev :
    (d.setQprev x v).qprev = Function.update d.qprev x v :=
  qprev_setQnode d x _

@[simp] theorem cnext_setCnext :
    (d.setCnext x v).cnext = Function.update d.cnext x v :=
  cnext_setCnode d x _

@[simp] theorem cprev_setCnext : (d.setCnext x v).cprev = d.cprev :=
  (cprev_setCnode d x _).trans (Function.update_eq_self x d.cprev)

@[simp] theorem cnext_setCprev : (d.setCprev x v).cnext = d.cnext :=
  (cnext_setCnode d x _).trans (Function.update_eq_self x d.cnext)

@[simp] theorem cprev_setCprev :
    (d.setCprev x v).cprev = Function.update d.cprev x v :=
  cprev_setCnode d x _

theorem blknum_setCnext (y : ℤ) :
    ((d.setCnext x v).cnode y).rd_blknum = (d.cnode y).rd_blknum := by
  by_cases hy : y = x
  · simp [setCnext, setCnode, hy]
  · simp [setCnext, setCnode, hy]

theorem blknum_setCprev (y : ℤ) :
    ((d.setCprev x v).cnode y).rd_blknum = (d.cnode y).rd_blknum := by
  by_cases hy : y = x
  · simp [setCprev, setCnode, hy]
  · simp [setCprev, setCnode, hy]

end Fields

section CacheEdits

variable {d : Rdscblk Block} {l f xs ys : List ℤ} {x : ℤ}

theorem rdcunlink_sameQueue (d : Rdscblk Block) (x : ℤ) :
    SameQueue d (d.rdcunlink x) := by
  unfold rdcunlink
  split_ifs <;> exact ⟨rfl, rfl, rfl, rfl, rfl, rfl⟩

theorem rdcunlink_blknum (d : Rdscblk Block) (x y : ℤ) :
    ((d.rdcunlink x).cnode y).rd_blknum = (d.cnode y).rd_blknum := by
  unfold rdcunlink
  split_ifs <;> simp [blknum_setCnext, blknum_setCprev]

/-- Free a node that has been unlinked. -/
theorem CacheOf.freed
    {d₁ : Rdscblk Block} (h : CacheOf d (xs ++ x :: ys) f)
    (hfree : d₁.rd_cfree = d.rd_cfree)
    (hnext : Function.update d₁.cnext NULL d₁.rd_chead =
      Function.update (Function.update d.cnext NULL d.rd_chead) (d.cprev x)
        (d.cnext x))
    (hprev : Function.update d₁.cprev NULL d₁.rd_ctail =
      Function.update (Function.update d.cprev NULL d.rd_ctail) (d.cnext x)
        (d.cprev x)) :
    CacheOf { d₁.setCnext x d₁.rd_cfree with rd_cfree := x } (xs ++ ys)
      (x :: f) := by
  have hremove := h.remove hnext hprev
  rw [← hfree, ← cnext_setCnext, ← cprev_setCnext d₁ x d₁.rd_cfree] at hremove
  exact hremove

/-- `rdcunlink` takes one node out of the cache. -/
theorem CacheOf.unlink (h : CacheOf d (xs ++ x :: ys) f) :
    CacheOf (d.rdcunlink x) (xs ++ ys) (x :: f) := by
  have hx : x ∈ xs ++ x :: ys := by simp
  have hlast := h.list.next_eq_null_iff hx
  have hfirst := h.list.prev_eq_null_iff hx
  unfold rdcunlink
  split_ifs with hhead htail htail
  · apply h.freed
    · rfl
    · show Function.update d.cnext NULL NULL = _
      rw [hfirst.mpr hhead, hlast.mpr htail, Function.update_idem]
    · show Function.update d.cprev NULL NULL = _
      rw [hfirst.mpr hhead, hlast.mpr htail, Function.update_idem]
  · apply h.freed
    · rfl
    · rw [cnext_setCprev, hfirst.mpr hhead, Function.update_idem]
      rfl
    · rw [cprev_setCprev, hfirst.mpr hhead]
      exact (Function.update_comm (fun heq => htail (hlast.mp heq)) _ _ _)
  · apply h.freed
    · rfl
    · rw [cnext_setCnext, hlast.mpr htail]
      exact Function.update_comm (fun heq => hhead (hfirst.mp heq)) _ _ _
    · rw [cprev_setCnext, hlast.mpr htail, Function.update_idem]
      rfl
  · apply h.freed
    · rfl
    · rw [cnext_setCprev, cnext_setCnext]
      exact Function.update_comm (fun heq => hhead (hfirst.mp heq)) _ _ _
    · rw [cprev_setCprev, cprev_setCnext]
      exact Function.update_comm (fun heq => htail (hlast.mp heq)) _ _ _

theorem takeCnode_sameQueue (d : Rdscblk Block) :
    SameQueue d d.takeCnode.1 := by
  unfold takeCnode
  dsimp only
  split_ifs <;> exact ⟨rfl, rfl, rfl, rfl, rfl, rfl⟩

theorem takeCnode_blknum (d : Rdscblk Block) (y : ℤ) :
    (d.takeCnode.1.cnode y).rd_blknum = (d.cnode y).rd_blknum := by
  unfold takeCnode
  dsimp only
  split_ifs <;> simp [blknum_setCnext]

/-- `rdcinsert` finds a node: a free one, or the last one of the cache. -/
theorem CacheOf.takeCnode (h : CacheOf d l f) :
    ∃ l' f', l'.Sublist l ∧
      Nodes d.takeCnode.1.cnext d.takeCnode.1.cprev d.takeCnode.1.rd_chead
        d.takeCnode.1.rd_ctail d.takeCnode.2 RD_CNODES l'
        (d.takeCnode.2 :: f') ∧
      d.takeCnode.1.rd_cfree = d.takeCnode.1.cnext d.takeCnode.2 := by
  unfold Rdscblk.takeCnode
  cases f with
  | cons x f =>
      have hx : d.rd_cfree = x := h.free.1
      have hxn : x ≠ NULL := ne_null_of_perm h.perm (by simp)
      rw [if_pos (by rwa [hx])]
      refine ⟨l, f, List.Sublist.refl l, ?_, rfl⟩
      unfold CacheOf at h
      rw [hx] at h ⊢
      exact h
  | nil =>
      have hfree : d.rd_cfree = NULL := h.free
      have hne : l ≠ [] := by
        rintro rfl
        have hlen := h.perm.length_eq
        rw [nodeIds_length] at hlen
        exact absurd hlen (by decide)
      have hx : d.rd_ctail ∈ l := by
        rw [h.list.tail_eq, List.getLast?_eq_some_getLast hne]
        exact List.getLast_mem hne
      have hsplit := (List.dropLast_append_getLast hne).symm
      have htail : l.getLast hne = d.rd_ctail := by
        rw [h.list.tail_eq, List.getLast?_eq_some_getLast hne]
        rfl
      rw [htail] at hsplit
      have hlast := (h.list.next_eq_null_iff hx).mpr rfl
      have hfirst := h.list.prev_eq_null_iff hx
      rw [hsplit] at h
      have hevict : ∀ d₁ : Rdscblk Block, d₁.rd_cfree = d.rd_cfree →
          d₁.cnext d.rd_ctail = NULL →
          Function.update d₁.cnext NULL d₁.rd_chead =
            Function.update (Function.update d.cnext NULL d.rd_chead)
              (d.cprev d.rd_ctail) (d.cnext d.rd_ctail) →
          Function.update d₁.cprev NULL d₁.rd_ctail =
            Function.update (Function.update d.cprev NULL d.rd_ctail)
              (d.cnext d.rd_ctail) (d.cprev d.rd_ctail) →
          Nodes d₁.cnext d₁.cprev d₁.rd_chead d₁.rd_ctail d.rd_ctail
            RD_CNODES l.dropLast [d.rd_ctail] ∧
          d₁.rd_cfree = d₁.cnext d.rd_ctail := by
        intro d₁ hcfree hend hnext hprev
        have hremove := h.remove hnext hprev
        rw [hfree, ← hend, Function.update_eq_self, List.append_nil] at hremove
        exact ⟨hremove, by rw [hcfree, hfree, hend]⟩
      rw [if_neg (by simp [hfree])]
      refine ⟨l.dropLast, [], List.dropLast_sublist l, ?_⟩
      dsimp only
      split_ifs with hone
      · apply hevict { d with rd_chead := NULL, rd_ctail := NULL } rfl hlast
        · show Function.update d.cnext NULL NULL = _
          rw [hfirst.mpr hone.symm, hlast, Function.update_idem]
        · show Function.update d.cprev NULL NULL = _
          rw [hfirst.mpr hone.symm, hlast, Function.update_idem]
      · have hp : d.cprev d.rd_ctail ≠ NULL :=
          fun heq => hone (hfirst.mp heq).symm
        apply hevict { d.setCnext (d.cprev d.rd_ctail) NULL with
          rd_ctail := d.cprev d.rd_ctail }
        · rfl
        · show (d.setCnext (d.cprev d.rd_ctail) NULL).cnext d.rd_ctail = NULL
          rw [cnext_setCnext, Function.update_apply, hlast, ite_self]
        · show Function.update (d.setCnext (d.cprev d.rd_ctail) NULL).cnext
            NULL d.rd_chead = _
          rw [cnext_setCnext, hlast]
          exact Function.update_comm hp _ _ _
        · show Function.update (d.setCnext (d.cprev d.rd_ctail) NULL).cprev
            NULL (d.cprev d.rd_ctail) = _
          rw [cprev_setCnext, hlast, Function.update_idem]

theorem update_overwritten
    (g : ℤ → ℤ) (u v w : ℤ) (hx : x ≠ NULL) :
    Function.update (Function.update (Function.update g NULL u) x v) NULL w =
      Function.update (Function.update g x v) NULL w := by
  rw [Function.update_comm hx.symm, Function.update_idem]

/-- The end of `rdcinsert`, on the node `x`. -/
theorem CacheOf.pushed
    {d₁ d₂ : Rdscblk Block}
    (h : Nodes d₁.cnext d₁.cprev d₁.rd_chead d₁.rd_ctail x RD_CNODES l
      (x :: f))
    (hfree : d₂.rd_cfree = d₁.cnext x) (htail : d₂.rd_ctail = d₁.rd_ctail)
    (hnext : d₂.cnext = Function.update d₁.cnext x d₁.rd_chead)
    (hprev : d₂.cprev = Function.update d₁.cprev x NULL) :
    CacheOf
      (if d₁.rd_chead = NULL then { d₂ with rd_chead := x, rd_ctail := x }
      else { d₂ with rd_chead := x }.setCprev d₁.rd_chead x) (x :: l) f := by
  have hxn : x ≠ NULL := ne_null_of_perm h.perm (by simp)
  have hnexts : Function.update d₂.cnext NULL x =
      Function.update (Function.update (Function.update d₁.cnext NULL
        d₁.rd_chead) x d₁.rd_chead) NULL x := by
    rw [hnext, update_overwritten _ _ _ _ hxn]
  unfold CacheOf
  split_ifs with hhead
  · show Nodes d₂.cnext d₂.cprev x x d₂.rd_cfree RD_CNODES (x :: l) f
    rw [hfree]
    apply h.push hnexts
    rw [hhead, update_overwritten _ _ _ _ hxn, hprev]
  · rw [cnext_setCprev, cprev_setCprev]
    show Nodes d₂.cnext (Function.update d₂.cprev d₁.rd_chead x) x d₂.rd_ctail
      d₂.rd_cfree RD_CNODES (x :: l) f
    rw [hfree]
    apply h.push hnexts
    rw [hprev, htail, Function.update_comm hhead,
      Function.update_comm hxn.symm]

theorem rdcinsert_sameQueue (d : Rdscblk Block) (blk : Word) (data : Block) :
    SameQueue d (d.rdcinsert blk data) := by
  have htake := takeCnode_sameQueue d
  unfold rdcinsert
  generalize d.takeCnode = r at htake ⊢
  obtain ⟨d₁, x⟩ := r
  obtain ⟨hhead, htail, hfree, hnode, hcomm, hsusp⟩ := htake
  dsimp only at hhead htail hfree hnode hcomm hsusp ⊢
  split_ifs
  · exact ⟨hhead, htail, hfree, hnode, hcomm, hsusp⟩
  · exact ⟨hhead, htail, hfree, hnode, hcomm, hsusp⟩

/-- `rdcinsert` puts one node in front, and forgets at most the last one. -/
theorem CacheOf.insert (h : CacheOf d l f) (blk : Word) (data : Block) :
    ∃ l' f', l'.Sublist l ∧
      CacheOf (d.rdcinsert blk data) (d.takeCnode.2 :: l') f' ∧
      ((d.rdcinsert blk data).cnode d.takeCnode.2).rd_blknum = blk ∧
      ∀ y ∈ l', ((d.rdcinsert blk data).cnode y).rd_blknum =
        (d.cnode y).rd_blknum := by
  obtain ⟨l', f', hsub, hnodes, hfree⟩ := h.takeCnode
  have hblk := takeCnode_blknum d
  refine ⟨l', f', hsub, ?_⟩
  unfold rdcinsert
  generalize d.takeCnode = r at hnodes hfree hblk ⊢
  obtain ⟨d₁, x⟩ := r
  dsimp only at hnodes hfree hblk ⊢
  have hout : ∀ y ∈ l', y ≠ x := fun y hy =>
    hnodes.apart.2.2 y hy x (by simp)
  have hfill : ∀ y, ((((d₁.setCnode x fun c =>
      { c with rd_blknum := blk, rd_data := data }).setCnext x
        d₁.rd_chead).setCprev x NULL).cnode y).rd_blknum =
        if y = x then blk else (d₁.cnode y).rd_blknum := by
    intro y
    rw [blknum_setCprev, blknum_setCnext]
    by_cases hy : y = x
    · simp [setCnode, hy]
    · simp [setCnode, hy]
  refine ⟨?_, ?_, ?_⟩
  · apply CacheOf.pushed hnodes
    · exact hfree
    · rfl
    · rw [cnext_setCprev, cnext_setCnext, cnext_setCnode]
      rw [Function.update_idem]
      rfl
    · rw [cprev_setCprev, cprev_setCnext, cprev_setCnode]
      rw [Function.update_idem]
  · split_ifs
    · exact (hfill x).trans (if_pos rfl)
    · exact (blknum_setCprev _ _ _ x).trans ((hfill x).trans (if_pos rfl))
  · intro y hy
    rw [← hblk]
    split_ifs
    · exact (hfill y).trans (if_neg (hout y hy))
    · exact (blknum_setCprev _ _ _ y).trans
        ((hfill y).trans (if_neg (hout y hy)))

end CacheEdits

/-- Two nodes that hold the same request. -/
structure SameRequest (r r' : Rdqnode) : Prop where
  op : r'.rd_op = r.rd_op
  blknum : r'.rd_blknum = r.rd_blknum
  pid : r'.rd_pid = r.rd_pid

section QueueEdits

variable {d d₁ d₂ : Rdscblk Block} {l f : List ℤ} {x : ℤ}

theorem SameRequest.refl (r : Rdqnode) : SameRequest r r := ⟨rfl, rfl, rfl⟩

theorem SameRequest.trans
    {r r' r'' : Rdqnode} (h : SameRequest r r') (h' : SameRequest r' r'') :
    SameRequest r r'' :=
  ⟨h'.op.trans h.op, h'.blknum.trans h.blknum, h'.pid.trans h.pid⟩

theorem sameRequest_setQnext (d : Rdscblk Block) (x v y : ℤ) :
    SameRequest (d.qnode y) ((d.setQnext x v).qnode y) := by
  by_cases hy : y = x
  · constructor <;> simp [setQnext, setQnode, hy]
  · constructor <;> simp [setQnext, setQnode, hy]

theorem sameRequest_setQprev (d : Rdscblk Block) (x v y : ℤ) :
    SameRequest (d.qnode y) ((d.setQprev x v).qnode y) := by
  by_cases hy : y = x
  · constructor <;> simp [setQprev, setQnode, hy]
  · constructor <;> simp [setQprev, setQnode, hy]

/-- What an insertion does to the links of the queue. -/
structure Appended (d d₂ : Rdscblk Block) (x : ℤ) : Prop where
  free : d₂.rd_qfree = d.rd_qfree
  tail : d₂.rd_qtail = x
  head : d₂.rd_qhead = if d.rd_qtail = NULL then x else d.rd_qhead
  next : d₂.qnext = if d.rd_qtail = NULL then
      Function.update d.qnext x NULL
    else Function.update (Function.update d.qnext x NULL) d.rd_qtail x
  prev : d₂.qprev = Function.update d.qprev x d.rd_qtail

theorem readInsert_appended
    (hiff : d.rd_qhead = NULL ↔ d.rd_qtail = NULL) (hxt : x ≠ d.rd_qtail) :
    Appended d (d.readInsert x) x := by
  unfold Rdscblk.readInsert
  split_ifs with hhead
  · have htail := hiff.mp hhead
    refine ⟨rfl, rfl, ?_, ?_, ?_⟩
    · rw [if_pos htail]
      rfl
    · rw [if_pos htail, qnext_setQnext, qnext_setQprev]
      rfl
    · rw [qprev_setQnext, qprev_setQprev, htail]
      rfl
  · have htail : ¬ d.rd_qtail = NULL := fun heq => hhead (hiff.mpr heq)
    refine ⟨rfl, rfl, ?_, ?_, ?_⟩
    · rw [if_neg htail]
      rfl
    · rw [if_neg htail, Function.update_comm hxt]
      show (((d.setQnext d.rd_qtail x).setQprev x d.rd_qtail).setQnext x
        NULL).qnext = _
      rw [qnext_setQnext, qnext_setQprev, qnext_setQnext]
    · show (((d.setQnext d.rd_qtail x).setQprev x d.rd_qtail).setQnext x
        NULL).qprev = _
      rw [qprev_setQnext, qprev_setQprev, qprev_setQnext]

theorem rdqinsert_appended (d : Rdscblk Block) (x : ℤ) :
    Appended d (d.rdqinsert x) x := by
  unfold Rdscblk.rdqinsert
  dsimp only
  split_ifs with htail
  · refine ⟨rfl, rfl, ?_, ?_, ?_⟩
    · rw [if_pos htail]
    · rw [if_pos htail]
      show ((d.setQnext x NULL).setQprev x d.rd_qtail).qnext = _
      rw [qnext_setQprev, qnext_setQnext]
    · show ((d.setQnext x NULL).setQprev x d.rd_qtail).qprev = _
      rw [qprev_setQprev, qprev_setQnext]
  · refine ⟨rfl, rfl, ?_, ?_, ?_⟩
    · rw [if_neg htail]
      rfl
    · rw [if_neg htail, qnext_setQnext]
      show Function.update
        ((d.setQnext x NULL).setQprev x d.rd_qtail).qnext _ x = _
      rw [qnext_setQprev, qnext_setQnext]
    · rw [qprev_setQnext]
      show ((d.setQnext x NULL).setQprev x d.rd_qtail).qprev = _
      rw [qprev_setQprev, qprev_setQnext]

/-- An insertion puts a free node at the end. -/
theorem Appended.nodes
    {prev : ℤ → ℤ}
    (hlinks : Appended d d₂ x)
    (h : Nodes d.qnext prev d.rd_qhead d.rd_qtail x RD_QNODES l (x :: f))
    (hfree : d.rd_qfree = d.qnext x) :
    Nodes d₂.qnext (Function.update prev x d.rd_qtail) d₂.rd_qhead d₂.rd_qtail
      d₂.rd_qfree RD_QNODES (l ++ [x]) f := by
  have hxn : x ≠ NULL := ne_null_of_perm h.perm (by simp)
  rw [hlinks.free, hfree, hlinks.tail, hlinks.head, hlinks.next]
  apply h.append
  · split_ifs with hempty
    · rw [hempty, update_overwritten _ _ _ _ hxn]
    · rw [Function.update_comm hempty, Function.update_comm hxn]
  · rw [update_overwritten _ _ _ _ hxn]

theorem QueueOf.readInsert
    (h : Nodes d.qnext d.qprev d.rd_qhead d.rd_qtail x RD_QNODES l (x :: f))
    (hfree : d.rd_qfree = d.qnext x) :
    QueueOf (d.readInsert x) (l ++ [x]) f := by
  have hlinks := readInsert_appended
    (h.list.head_eq_null_iff.trans h.list.tail_eq_null_iff.symm)
    (h.tail_free_ne (x := x) (by simp))
  unfold QueueOf
  rw [hlinks.prev]
  exact hlinks.nodes h hfree

theorem QueueOf.rdqinsert
    (h : Nodes d.qnext d.qprev d.rd_qhead d.rd_qtail x RD_QNODES l (x :: f))
    (hfree : d.rd_qfree = d.qnext x) :
    QueueOf (d.rdqinsert x) (l ++ [x]) f := by
  have hlinks := rdqinsert_appended d x
  unfold QueueOf
  rw [hlinks.prev]
  exact hlinks.nodes h hfree

theorem readInsert_sameRequest (d : Rdscblk Block) (x y : ℤ) :
    SameRequest (d.qnode y) ((d.readInsert x).qnode y) := by
  unfold Rdscblk.readInsert
  split_ifs
  · exact (sameRequest_setQprev { d with rd_qhead := x, rd_qtail := x } x NULL
      y).trans (sameRequest_setQnext _ x NULL y)
  · exact ((sameRequest_setQnext d d.rd_qtail x y).trans
      (sameRequest_setQprev _ x d.rd_qtail y)).trans
        (sameRequest_setQnext _ x NULL y)

theorem rdqinsert_sameRequest (d : Rdscblk Block) (x y : ℤ) :
    SameRequest (d.qnode y) ((d.rdqinsert x).qnode y) := by
  have hlinks := (sameRequest_setQnext d x NULL y).trans
    (sameRequest_setQprev _ x d.rd_qtail y)
  unfold Rdscblk.rdqinsert
  dsimp only
  split_ifs
  · exact hlinks
  · exact hlinks.trans (sameRequest_setQnext _ d.rd_qtail x y)

/-! ## Taking requests from the front -/

/-- The queue as far as the successors go: its back pointers may be stale. -/
structure Draining (d : Rdscblk Block) (l f : List ℤ) : Prop where
  chain : LinkedTable.Chain NULL d.qnext d.rd_qhead l
  tail : d.rd_qtail = l.getLast?.getD NULL
  free : LinkedTable.Chain NULL d.qnext d.rd_qfree f
  perm : (l ++ f).Perm (nodeIds RD_QNODES)

theorem QueueOf.draining (h : QueueOf d l f) : Draining d l f :=
  ⟨h.list.chain, h.list.tail_eq, h.free, h.perm⟩

theorem Draining.empty (h : Draining d [] f) : QueueOf d [] f := by
  have hhead : d.rd_qhead = NULL := h.chain
  have htail : d.rd_qtail = NULL := h.tail
  unfold QueueOf
  rw [hhead, htail]
  exact ⟨.nil, h.free, h.perm⟩

theorem rdqunlink_sameRequest (d : Rdscblk Block) (x y : ℤ) :
    SameRequest (d.qnode y) ((d.rdqunlink x).1.qnode y) := by
  unfold rdqunlink
  dsimp only
  split_ifs
  · exact sameRequest_setQnext { d with rd_qhead := NULL, rd_qtail := NULL } x
      d.rd_qfree y
  · exact sameRequest_setQnext { d with rd_qhead := d.qnext x } x d.rd_qfree y
  · exact (sameRequest_setQnext { d with rd_qtail := d.qprev x } (d.qprev x)
      NULL y).trans (sameRequest_setQnext _ x d.rd_qfree y)
  · exact ((sameRequest_setQnext d (d.qprev x) (d.qnext x) y).trans
      (sameRequest_setQprev _ (d.qnext x) (d.qprev x) y)).trans
        (sameRequest_setQnext _ x d.rd_qfree y)

theorem rdqunlink_sameCache (d : Rdscblk Block) (x : ℤ) :
    SameCache d (d.rdqunlink x).1 := by
  unfold rdqunlink
  dsimp only
  split_ifs <;> exact ⟨rfl, rfl, rfl, rfl⟩

/-- The end of `rdqunlink`, on the node `x`. -/
theorem Draining.freed
    (hchain : LinkedTable.Chain NULL d.qnext d.rd_qhead l)
    (htail : d.rd_qtail = l.getLast?.getD NULL)
    (hfree : LinkedTable.Chain NULL d.qnext d.rd_qfree f)
    (hperm : (x :: (l ++ f)).Perm (nodeIds RD_QNODES)) :
    Draining { d.setQnext x d.rd_qfree with rd_qfree := x } l (x :: f) := by
  have hout : x ∉ l ++ f :=
    (List.nodup_cons.mp (hperm.nodup_iff.mpr (nodeIds_nodup _))).1
  have hold : ∀ y ∈ l ++ f, (d.setQnext x d.rd_qfree).qnext y = d.qnext y := by
    intro y hy
    rw [qnext_setQnext, Function.update_of_ne]
    rintro rfl
    exact hout hy
  refine ⟨hchain.congr ?_, htail, ⟨rfl, ?_⟩, List.perm_middle.trans hperm⟩
  · exact fun y hy => hold y (by simp [hy])
  · show LinkedTable.Chain NULL (d.setQnext x d.rd_qfree).qnext
      ((d.setQnext x d.rd_qfree).qnext x) f
    rw [qnext_setQnext, Function.update_self, ← qnext_setQnext]
    exact hfree.congr fun y hy => hold y (by simp [hy])

theorem Draining.unlink (h : Draining d (x :: l) f) :
    Draining (d.rdqunlink x).1 l (x :: f) := by
  have hx : x ∉ l := by
    have hnodup := nodup_of_perm h.perm
    rw [List.cons_append, List.nodup_cons, List.mem_append, not_or] at hnodup
    exact hnodup.1.1
  unfold rdqunlink
  dsimp only
  rw [if_pos h.chain.1.symm]
  cases l with
  | nil =>
      have hlast : x = d.rd_qtail := h.tail.symm
      rw [if_pos hlast]
      exact Draining.freed (d := { d with rd_qhead := NULL, rd_qtail := NULL })
        rfl rfl h.free h.perm
  | cons y l =>
      have hlast : d.rd_qtail ∈ y :: l := by
        rw [h.tail, List.getLast?_cons_cons,
          List.getLast?_eq_some_getLast (by simp)]
        exact List.getLast_mem _
      have hmore : ¬ x = d.rd_qtail := by
        rintro rfl
        exact hx hlast
      rw [if_neg hmore]
      refine Draining.freed (d := { d with rd_qhead := d.qnext x })
        h.chain.2 ?_ h.free h.perm
      rw [← List.getLast?_cons_cons (a := x)]
      exact h.tail

/-- The walk that satisfies reads empties a queue of reads of one block. -/
theorem Draining.satisfy
    {blk : Word} {data : Block} {budget : ℕ} {d' : Rdscblk Block}
    (h : Draining d l f)
    (hreads : ∀ r ∈ l, (d.qnode r).rd_op = .read ∧
      (d.qnode r).rd_blknum = blk)
    (hdone : satisfy blk data budget d.rd_qhead d = some d') :
    (∃ f', Draining d' [] f') ∧ SameCache d d' := by
  induction l generalizing d f budget with
  | nil =>
      have hhead : d.rd_qhead = NULL := h.chain
      cases budget with
      | zero => simp [Rdscblk.satisfy] at hdone
      | succ budget =>
          rw [Rdscblk.satisfy, if_pos hhead, Option.some.injEq] at hdone
          subst hdone
          exact ⟨⟨f, h⟩, rfl, rfl, rfl, rfl⟩
  | cons x l ih =>
      have hx : d.rd_qhead = x := h.chain.1
      have hxn : x ≠ NULL := ne_null_of_perm h.perm (by simp)
      obtain ⟨hop, hblk⟩ := hreads x (by simp)
      cases budget with
      | zero => simp [Rdscblk.satisfy] at hdone
      | succ budget =>
          rw [Rdscblk.satisfy, hx, if_neg hxn, if_neg (by simp [hblk]), hop]
            at hdone
          have hready : Draining ((d.copyTo (d.qnode x).rd_callbuf data).resume
              (d.qnode x).rd_pid) (x :: l) f :=
            ⟨h.chain, h.tail, h.free, h.perm⟩
          have hrest := hready.unlink
          have hsame := rdqunlink_sameCache
            ((d.copyTo (d.qnode x).rd_callbuf data).resume (d.qnode x).rd_pid) x
          have hnode := rdqunlink_sameRequest
            ((d.copyTo (d.qnode x).rd_callbuf data).resume (d.qnode x).rd_pid) x
          have hnext : (((d.copyTo (d.qnode x).rd_callbuf data).resume
              (d.qnode x).rd_pid).rdqunlink x).2 =
              (((d.copyTo (d.qnode x).rd_callbuf data).resume
                (d.qnode x).rd_pid).rdqunlink x).1.rd_qhead := by
            rw [hrest.chain.head]
            exact h.chain.2.head
          replace hdone : Rdscblk.satisfy blk data budget
              (((d.copyTo (d.qnode x).rd_callbuf data).resume
                (d.qnode x).rd_pid).rdqunlink x).2
              (((d.copyTo (d.qnode x).rd_callbuf data).resume
                (d.qnode x).rd_pid).rdqunlink x).1 = some d' := hdone
          rw [hnext] at hdone
          obtain ⟨hdrained, hcache⟩ := ih hrest (fun r hr => by
            obtain ⟨hrop, hrblk⟩ := hreads r (by simp [hr])
            exact ⟨(hnode r).op.trans hrop, (hnode r).blknum.trans hrblk⟩) hdone
          exact ⟨hdrained, hcache.chead.trans hsame.chead,
            hcache.ctail.trans hsame.ctail, hcache.cfree.trans hsame.cfree,
            hcache.cnode.trans hsame.cnode⟩

end QueueEdits

/-! ## The invariant -/

/-- Where the communication process is in the queue. -/
def CommAt (d : Rdscblk Block) (l : List ℤ) : Prop :=
  match d.comm with
  | .reading rptr => ∃ rest, l = rptr :: rest
  | .searching rptr tptr => ∃ rest, l = rptr :: rest ∧ tptr = d.qnext rptr ∧
      (d.qnode rptr).rd_op = .write
  | _ => True

/-- The queue is `l`, the cache is `c`, and `f` and `g` are free. -/
structure DiskInv (d : Rdscblk Block) (l f c g : List ℤ) : Prop where
  queue : QueueOf d l f
  cache : CacheOf d c g
  blocks : (c.map fun x => (d.cnode x).rd_blknum).Nodup
  callers : ∀ r ∈ l, ProcId (d.qnode r).rd_pid ∧
    d.suspended (d.qnode r).rd_pid = true
  pids : (l.map fun r => (d.qnode r).rd_pid).Nodup
  nosync : ∀ r ∈ l, (d.qnode r).rd_op ≠ .sync
  fresh : ∀ r ∈ l, (d.qnode r).rd_op = .write → ∀ x ∈ c,
    (d.cnode x).rd_blknum ≠ (d.qnode r).rd_blknum
  comm : CommAt d l

section Invariant

variable {d d' : Rdscblk Block} {l f c g : List ℤ} {pid : ℤ} {budget : ℕ}
  {buff blk : Word} {data : Block}

theorem DiskInv.law (h : DiskInv d l f c g) : DiskLaw d where
  queue := ⟨l, f, NullList.doublyLinked h.queue.list, h.queue.free, h.queue.perm⟩
  cache := ⟨c, g, NullList.doublyLinked h.cache.list, h.cache.free, h.cache.perm,
    h.blocks⟩
  search := by
    intro blk
    have hback := h.queue.list.reverse
    refine ⟨l.reverse.length + 1, ?_⟩
    rw [searchBack, hback.chain.walk hback.null (Nat.lt_succ_self _)]
    rfl

/-- A caller that is not suspended finds a free request node. -/
theorem exists_free_node
    {pidOf : ℤ → ℤ} {suspended : ℤ → Bool}
    (hperm : (l ++ f).Perm (nodeIds RD_QNODES))
    (hcallers : ∀ r ∈ l, ProcId (pidOf r) ∧ suspended (pidOf r) = true)
    (hpids : (l.map pidOf).Nodup) (hpid : ProcId pid)
    (hrun : suspended pid = false) : ∃ x f', f = x :: f' := by
  have hmem : ∀ {p}, p ∈ pid :: l.map pidOf → ProcId p := by
    intro p hp
    rcases List.mem_cons.mp hp with rfl | hp
    · exact hpid
    · obtain ⟨r, hr, rfl⟩ := List.mem_map.mp hp
      exact (hcallers r hr).1
  have hnodup : (pid :: l.map pidOf).Nodup := by
    refine List.nodup_cons.mpr ⟨?_, hpids⟩
    intro hp
    obtain ⟨r, hr, rfl⟩ := List.mem_map.mp hp
    rw [(hcallers r hr).2] at hrun
    cases hrun
  have hlen := processes_length_le hnodup hmem
  have htotal := hperm.length_eq
  rw [nodeIds_length, List.length_append] at htotal
  rw [List.length_cons, List.length_map] at hlen
  cases f with
  | nil =>
      have hcount : RD_QNODES = 100 := rfl
      rw [List.length_nil] at htotal
      omega
  | cons x f' => exact ⟨x, f', rfl⟩

theorem DiskInv.exists_free
    (h : DiskInv d l f c g) (hpid : ProcId pid)
    (hrun : d.suspended pid = false) : ∃ x f', f = x :: f' :=
  exists_free_node h.queue.perm h.callers h.pids hpid hrun

/-- A request that has been queued and whose caller has been suspended. -/
theorem DiskInv.enqueue
    {op : RdOp} {x : ℤ} (h : DiskInv d l (x :: f) c g) (hpid : ProcId pid)
    (hrun : d.suspended pid = false) (hop : op ≠ .sync)
    (hfresh : op = .write → ∀ y ∈ c, (d.cnode y).rd_blknum ≠ blk)
    (hblocked : ∀ rptr tptr, d.comm ≠ .searching rptr tptr)
    (hqueue : QueueOf d' (l ++ [x]) f) (hcache : SameCache d d')
    (hcomm : d'.comm = d.comm)
    (hsusp : d'.suspended = Function.update d.suspended pid true)
    (hnew : SameRequest ⟨0, 0, op, blk, buff, pid⟩ (d'.qnode x))
    (hold : ∀ y, y ≠ x → SameRequest (d.qnode y) (d'.qnode y)) :
    DiskInv d' (l ++ [x]) f c g := by
  have hxl : ∀ r ∈ l, r ≠ x := fun r hr =>
    (h.queue.apart.2.2 r hr x (by simp))
  have hmem : ∀ {P : ℤ → Prop}, (∀ r ∈ l, P r) → P x → ∀ r ∈ l ++ [x], P r := by
    intro P hl hx r hr
    rcases List.mem_append.mp hr with hr | hr
    · exact hl r hr
    · rwa [List.mem_singleton.mp hr]
  refine ⟨hqueue, ?_, ?_, hmem ?_ ?_, ?_, hmem ?_ ?_, hmem ?_ ?_, ?_⟩
  · unfold CacheOf cnext cprev
    rw [hcache.chead, hcache.ctail, hcache.cfree, hcache.cnode]
    exact h.cache
  · rw [hcache.cnode]
    exact h.blocks
  · intro r hr
    rw [(hold r (hxl r hr)).pid, hsusp]
    obtain ⟨hid, hs⟩ := h.callers r hr
    refine ⟨hid, ?_⟩
    rw [Function.update_apply, hs, ite_self]
  · rw [hnew.pid, hsusp]
    exact ⟨hpid, Function.update_self _ _ _⟩
  · rw [List.map_append, List.nodup_append]
    refine ⟨?_, by simp, ?_⟩
    · rw [List.map_congr_left fun r hr => (hold r (hxl r hr)).pid]
      exact h.pids
    · intro p hp q hq
      obtain ⟨r, hr, rfl⟩ := List.mem_map.mp hp
      obtain rfl : q = pid := by simpa [hnew.pid] using hq
      rw [(hold r (hxl r hr)).pid]
      rintro rfl
      rw [(h.callers r hr).2] at hrun
      cases hrun
  · intro r hr
    rw [(hold r (hxl r hr)).op]
    exact h.nosync r hr
  · rwa [hnew.op]
  · intro r hr
    rw [(hold r (hxl r hr)).op, (hold r (hxl r hr)).blknum, hcache.cnode]
    exact h.fresh r hr
  · rw [hnew.op, hnew.blknum, hcache.cnode]
    exact hfresh
  · have hat := h.comm
    unfold CommAt at hat ⊢
    rw [hcomm]
    cases hc : d.comm with
    | reading rptr =>
        rw [hc] at hat
        obtain ⟨rest, rfl⟩ := hat
        exact ⟨rest ++ [x], rfl⟩
    | searching rptr tptr => exact absurd hc (hblocked rptr tptr)
    | waiting => trivial
    | writing => trivial

/-- What `request` leaves: the free node `x` filled in but not linked yet. -/
structure Requested
    (d d₁ : Rdscblk Block) (x : ℤ) (l f : List ℤ) (r : Rdqnode) : Prop where
  nodes : Nodes d₁.qnext d₁.qprev d₁.rd_qhead d₁.rd_qtail x RD_QNODES l (x :: f)
  free : d₁.rd_qfree = d₁.qnext x
  cache : SameCache d d₁
  comm : d₁.comm = d.comm
  suspended : d₁.suspended = d.suspended
  filled : SameRequest r (d₁.qnode x)
  others : ∀ y, y ≠ x → d₁.qnode y = d.qnode y

theorem DiskInv.request
    {x : ℤ} (h : DiskInv d l (x :: f) c g) (op : RdOp) (blk buff : Word)
    (pid : ℤ) :
    (d.request op blk buff pid).2 = x ∧
      Requested d (d.request op blk buff pid).1 x l f
        ⟨0, 0, op, blk, buff, pid⟩ := by
  have hx : d.rd_qfree = x := h.queue.free.1
  have hqueue := h.queue
  unfold QueueOf at hqueue
  unfold Rdscblk.request
  rw [hx] at hqueue ⊢
  have hqnext : ({ d with rd_qfree := d.qnext x }.setQnode x fun r =>
      { r with rd_op := op, rd_blknum := blk, rd_callbuf := buff,
               rd_pid := pid }).qnext = d.qnext :=
    (qnext_setQnode _ x _).trans (Function.update_eq_self x d.qnext)
  have hqprev : ({ d with rd_qfree := d.qnext x }.setQnode x fun r =>
      { r with rd_op := op, rd_blknum := blk, rd_callbuf := buff,
               rd_pid := pid }).qprev = d.qprev :=
    (qprev_setQnode _ x _).trans (Function.update_eq_self x d.qprev)
  refine ⟨rfl, ?_, ?_, ⟨rfl, rfl, rfl, rfl⟩, rfl, rfl, ?_, ?_⟩
  · dsimp only
    rw [hqnext, hqprev]
    exact hqueue
  · dsimp only
    rw [hqnext]
    rfl
  · constructor <;> simp [setQnode]
  · intro y hy
    simp [setQnode, hy]

theorem readInsert_sameCache (d : Rdscblk Block) (x : ℤ) :
    SameCache d (d.readInsert x) := by
  unfold Rdscblk.readInsert
  split_ifs <;> exact ⟨rfl, rfl, rfl, rfl⟩

theorem readInsert_comm (d : Rdscblk Block) (x : ℤ) :
    (d.readInsert x).comm = d.comm := by
  unfold Rdscblk.readInsert
  split_ifs <;> rfl

theorem readInsert_suspended (d : Rdscblk Block) (x : ℤ) :
    (d.readInsert x).suspended = d.suspended := by
  unfold Rdscblk.readInsert
  split_ifs <;> rfl

theorem rdqinsert_comm (d : Rdscblk Block) (x : ℤ) :
    (d.rdqinsert x).comm = d.comm := by
  unfold Rdscblk.rdqinsert
  dsimp only
  split_ifs <;> rfl

theorem rdqinsert_suspended (d : Rdscblk Block) (x : ℤ) :
    (d.rdqinsert x).suspended = d.suspended := by
  unfold Rdscblk.rdqinsert
  dsimp only
  split_ifs <;> rfl

theorem rdqinsert_sameCache (d : Rdscblk Block) (x : ℤ) :
    SameCache d (d.rdqinsert x) := by
  unfold Rdscblk.rdqinsert
  dsimp only
  split_ifs <;> exact ⟨rfl, rfl, rfl, rfl⟩

/-- The caller links its request in and suspends itself. -/
theorem DiskInv.insert
    {op : RdOp} {x : ℤ} {d₁ d₂ : Rdscblk Block}
    (h : DiskInv d l (x :: f) c g)
    (hreq : Requested d d₁ x l f ⟨0, 0, op, blk, buff, pid⟩)
    (hpid : ProcId pid) (hrun : d.suspended pid = false) (hop : op ≠ .sync)
    (hfresh : op = .write → ∀ y ∈ c, (d.cnode y).rd_blknum ≠ blk)
    (hblocked : ∀ rptr tptr, d.comm ≠ .searching rptr tptr)
    (hqueue : QueueOf d₂ (l ++ [x]) f) (hcache : SameCache d₁ d₂)
    (hnode : ∀ y, SameRequest (d₁.qnode y) (d₂.qnode y))
    (hcomm : d₂.comm = d₁.comm) (hsusp : d₂.suspended = d₁.suspended) :
    DiskInv (d₂.signalSuspend pid) (l ++ [x]) f c g := by
  have hlinked : QueueOf (d₂.signalSuspend pid) (l ++ [x]) f := hqueue
  apply h.enqueue hpid hrun hop hfresh hblocked hlinked
  · exact ⟨hcache.chead.trans hreq.cache.chead,
      hcache.ctail.trans hreq.cache.ctail, hcache.cfree.trans hreq.cache.cfree,
      hcache.cnode.trans hreq.cache.cnode⟩
  · exact hcomm.trans hreq.comm
  · show Function.update d₂.suspended pid true = _
    rw [hsusp, hreq.suspended]
  · exact hreq.filled.trans (hnode x)
  · intro y hy
    have hy' := hnode y
    rwa [hreq.others y hy] at hy'

theorem canCall_spec (hcan : d.canCall pid = true) :
    ProcId pid ∧ d.suspended pid = false ∧
      ∀ rptr tptr, d.comm ≠ .searching rptr tptr := by
  unfold canCall at hcan
  simp only [Bool.and_eq_true, decide_eq_true_eq, Bool.not_eq_true'] at hcan
  obtain ⟨⟨⟨hlow, hhigh⟩, hsusp⟩, hblocked⟩ := hcan
  refine ⟨⟨hlow, hhigh⟩, hsusp, ?_⟩
  intro rptr tptr hcomm
  unfold blocked at hblocked
  rw [hcomm] at hblocked
  cases hblocked

theorem DiskInv.rdsread
    {status : Word} (h : DiskInv d l f c g) (hcan : d.canCall pid = true)
    (hcall : d.rdsread budget pid buff blk = some (d', status)) :
    ∃ l f, DiskInv d' l f c g := by
  obtain ⟨hpid, hrun, hblocked⟩ := canCall_spec hcan
  unfold Rdscblk.rdsread at hcall
  split_ifs at hcall with hopen
  · obtain ⟨rfl, -⟩ : d = d' ∧ SYSERR = status := by simpa using hcall
    exact ⟨l, f, h⟩
  · dsimp only at hcall
    rw [Option.bind_eq_some_iff] at hcall
    obtain ⟨cptr, -, hcall⟩ := hcall
    split_ifs at hcall with hhit
    · rw [Option.some.injEq, Prod.mk.injEq] at hcall
      obtain ⟨rfl, -⟩ := hcall
      exact ⟨l, f, h.queue, h.cache, h.blocks, h.callers, h.pids, h.nosync,
        h.fresh, h.comm⟩
    · rw [Option.map_eq_some_iff] at hcall
      obtain ⟨rptr, -, hcall⟩ := hcall
      split_ifs at hcall with hwrite
      · rw [Prod.mk.injEq] at hcall
        obtain ⟨rfl, -⟩ := hcall
        exact ⟨l, f, h.queue, h.cache, h.blocks, h.callers, h.pids, h.nosync,
          h.fresh, h.comm⟩
      · have hready : DiskInv { d with rd_comruns := true } l f c g :=
          ⟨h.queue, h.cache, h.blocks, h.callers, h.pids, h.nosync, h.fresh,
            h.comm⟩
        obtain ⟨x, f', rfl⟩ := h.exists_free hpid hrun
        obtain ⟨hx, hreq⟩ := hready.request .read blk buff pid
        rw [Prod.mk.injEq] at hcall
        obtain ⟨rfl, -⟩ := hcall
        rw [hx]
        exact ⟨_, _, hready.insert hreq hpid hrun (by simp) (by simp) hblocked
          (QueueOf.readInsert hreq.nodes hreq.free) (readInsert_sameCache _ x)
          (readInsert_sameRequest _ x) (readInsert_comm _ x)
          (readInsert_suspended _ x)⟩

/-- The cache has changed, and the request queue has not. -/
theorem DiskInv.recache
    {c' g' : List ℤ} (h : DiskInv d l f c g) (hsame : SameQueue d d')
    (hcache : CacheOf d' c' g')
    (hblocks : (c'.map fun x => (d'.cnode x).rd_blknum).Nodup)
    (hfresh : ∀ r ∈ l, (d.qnode r).rd_op = .write → ∀ x ∈ c',
      (d'.cnode x).rd_blknum ≠ (d.qnode r).rd_blknum) :
    DiskInv d' l f c' g' := by
  obtain ⟨hhead, htail, hfree, hnode, hcomm, hsusp⟩ := hsame
  refine ⟨?_, hcache, hblocks, ?_, ?_, ?_, ?_, ?_⟩
  · unfold QueueOf qnext qprev
    rw [hhead, htail, hfree, hnode]
    exact h.queue
  · rw [hnode, hsusp]
    exact h.callers
  · rw [hnode]
    exact h.pids
  · rw [hnode]
    exact h.nosync
  · rw [hnode]
    exact hfresh
  · unfold CommAt qnext
    rw [hcomm, hnode]
    exact h.comm

/-- `rdswrite` drops the block from the cache. -/
theorem DiskInv.uncached
    {cptr : ℤ} (h : DiskInv d l f c g)
    (hfound : d.cacheSearch blk budget = some cptr) :
    ∃ c' g', DiskInv (if cptr ≠ NULL then d.rdcunlink cptr else d) l f c' g' ∧
      ∀ y ∈ c', ((if cptr ≠ NULL then d.rdcunlink cptr else d).cnode
        y).rd_blknum ≠ blk := by
  have hcptr := h.cache.list.chain.walk_eq h.cache.list.null hfound
  cases hfind : c.find? fun x => decide ((d.cnode x).rd_blknum = blk) with
  | none =>
      rw [hfind] at hcptr
      obtain rfl : cptr = NULL := hcptr
      rw [if_neg (by simp)]
      refine ⟨c, g, h, ?_⟩
      intro y hy
      simpa using List.find?_eq_none.mp hfind y hy
  | some x =>
      rw [hfind] at hcptr
      obtain rfl : cptr = x := hcptr
      have hmem := List.mem_of_find?_eq_some hfind
      have hblk : (d.cnode cptr).rd_blknum = blk := by
        simpa using List.find?_some hfind
      rw [if_pos (h.cache.list.ne_null hmem)]
      obtain ⟨xs, ys, rfl⟩ := List.append_of_mem hmem
      have hsame := rdcunlink_sameQueue d cptr
      have hdata := rdcunlink_blknum d cptr
      have hsub : (xs ++ ys).Sublist (xs ++ cptr :: ys) :=
        (List.sublist_cons_self cptr ys).append_left xs
      refine ⟨xs ++ ys, cptr :: g, ?_, ?_⟩
      · apply h.recache hsame h.cache.unlink
        · rw [List.map_congr_left fun x _ => hdata x]
          exact h.blocks.sublist (hsub.map _)
        · intro r hr hop y hy
          rw [hdata]
          exact h.fresh r hr hop y (hsub.subset hy)
      · intro y hy
        rw [hdata, ← hblk]
        have hnodup := h.blocks
        rw [List.map_append, List.map_cons, List.nodup_middle,
          ← List.map_append, List.nodup_cons] at hnodup
        intro heq
        rw [← heq] at hnodup
        exact hnodup.1 (List.mem_map_of_mem hy)

theorem DiskInv.rdswrite
    {status : Word} (h : DiskInv d l f c g) (hcan : d.canCall pid = true)
    (hcall : d.rdswrite budget pid buff blk = some (d', status)) :
    ∃ l f c g, DiskInv d' l f c g := by
  obtain ⟨hpid, hrun, hblocked⟩ := canCall_spec hcan
  unfold Rdscblk.rdswrite at hcall
  split_ifs at hcall with hopen
  · obtain ⟨rfl, -⟩ : d = d' ∧ SYSERR = status := by simpa using hcall
    exact ⟨l, f, c, g, h⟩
  · dsimp only at hcall
    rw [Option.map_eq_some_iff] at hcall
    obtain ⟨cptr, hfound, hcall⟩ := hcall
    have hready : DiskInv { d with rd_comruns := true } l f c g :=
      ⟨h.queue, h.cache, h.blocks, h.callers, h.pids, h.nosync, h.fresh,
        h.comm⟩
    obtain ⟨c', g', hun, hgone⟩ := hready.uncached hfound
    rw [Prod.mk.injEq] at hcall
    obtain ⟨rfl, -⟩ := hcall
    have hsame : SameQueue { d with rd_comruns := true }
        (if cptr ≠ NULL then { d with rd_comruns := true }.rdcunlink cptr
        else { d with rd_comruns := true }) := by
      split_ifs
      · exact rdcunlink_sameQueue _ cptr
      · exact ⟨rfl, rfl, rfl, rfl, rfl, rfl⟩
    generalize (if cptr ≠ NULL then { d with rd_comruns := true }.rdcunlink cptr
        else { d with rd_comruns := true }) = d₀ at hun hgone hsame ⊢
    have hrun₀ : d₀.suspended pid = false := by
      rw [hsame.suspended]
      exact hrun
    have hblocked₀ : ∀ rptr tptr, d₀.comm ≠ .searching rptr tptr := by
      rw [hsame.comm]
      exact hblocked
    obtain ⟨x, f', rfl⟩ := hun.exists_free hpid hrun₀
    obtain ⟨hx, hreq⟩ := hun.request .write blk buff pid
    rw [hx]
    exact ⟨_, _, _, _, hun.insert hreq hpid hrun₀ (by simp) (fun _ => hgone)
      hblocked₀ (QueueOf.rdqinsert hreq.nodes hreq.free)
      (rdqinsert_sameCache _ x) (rdqinsert_sameRequest _ x)
      (rdqinsert_comm _ x) (rdqinsert_suspended _ x)⟩

theorem DiskInv.rdscontrolSync
    (h : DiskInv d l f c g) (hempty : d.rd_qhead = NULL) :
    DiskInv (d.rdscontrolSync pid).1 l f c g := by
  unfold Rdscblk.rdscontrolSync
  split_ifs
  · exact h
  · dsimp only
    rw [if_pos hempty]
    exact ⟨h.queue, h.cache, h.blocks, h.callers, h.pids, h.nosync, h.fresh,
      h.comm⟩

theorem DiskInv.commTake (h : DiskInv d l f c g) (hcomm : d.comm = .waiting) :
    DiskInv d.commTake l f c g := by
  unfold Rdscblk.commTake
  dsimp only
  split_ifs with hempty
  · exact ⟨h.queue, h.cache, h.blocks, h.callers, h.pids, h.nosync, h.fresh,
      h.comm⟩
  · have hhead := h.queue.list.chain
    cases l with
    | nil => exact absurd hhead hempty
    | cons x l =>
        obtain rfl : x = d.rd_qhead := hhead.1.symm
        cases hop : (d.qnode d.rd_qhead).rd_op with
        | sync => exact absurd hop (h.nosync _ (by simp))
        | read =>
            exact ⟨h.queue, h.cache, h.blocks, h.callers, h.pids, h.nosync,
              h.fresh, l, rfl⟩
        | write =>
            exact ⟨h.queue, h.cache, h.blocks, h.callers, h.pids, h.nosync,
              h.fresh, l, rfl, rfl, hop⟩

theorem DiskInv.drained
    (hcache : CacheOf d c g)
    (hblocks : (c.map fun x => (d.cnode x).rd_blknum).Nodup)
    (hsame : SameCache d d') (hqueue : Draining d' [] f)
    (hcomm : d'.comm = .waiting ∨ d'.comm = .writing) :
    DiskInv d' [] f c g := by
  refine ⟨hqueue.empty, ?_, ?_, by simp, by simp, by simp, by simp, ?_⟩
  · unfold CacheOf cnext cprev
    rw [hsame.chead, hsame.ctail, hsame.cfree, hsame.cnode]
    exact hcache
  · rw [hsame.cnode]
    exact hblocks
  · unfold CommAt
    rcases hcomm with hcomm | hcomm
    · rw [hcomm]
      trivial
    · rw [hcomm]
      trivial

theorem DiskInv.searchTurn
    {rptr tptr : ℤ} (h : DiskInv d l f c g)
    (hcomm : d.comm = .searching rptr tptr)
    (halone : tptr ≠ NULL →
      ¬ ((d.qnode tptr).rd_blknum = (d.qnode rptr).rd_blknum ∧
        (d.qnode tptr).rd_op = .write)) :
    ∃ l f c g, DiskInv (d.searchTurn rptr tptr) l f c g := by
  have hat := h.comm
  unfold CommAt at hat
  rw [hcomm] at hat
  obtain ⟨rest, rfl, htptr, hop⟩ := hat
  unfold Rdscblk.searchTurn
  by_cases hend : tptr = NULL
  · have hrest : rest = [] := by
      have hchain := h.queue.list.chain.2
      rw [← htptr, hend] at hchain
      cases rest with
      | nil => rfl
      | cons y rest =>
          exact absurd hchain.1.symm
            (h.queue.list.ne_null (x := y) (by simp))
    subst hrest
    rw [if_neg (by simp [hend])]
    dsimp only
    rw [if_pos hend]
    obtain ⟨c', g', hsub, hcache, hx, hkept⟩ :=
      h.cache.insert (d.qnode rptr).rd_blknum
        (d.buffers (d.qnode rptr).rd_callbuf)
    generalize d.takeCnode.2 = x at hcache hx hkept
    have hsame := rdcinsert_sameQueue d (d.qnode rptr).rd_blknum
      (d.buffers (d.qnode rptr).rd_callbuf)
    generalize d.rdcinsert (d.qnode rptr).rd_blknum
      (d.buffers (d.qnode rptr).rd_callbuf) = d₁ at hcache hx hkept hsame ⊢
    have hblocks : ((x :: c').map fun y => (d₁.cnode y).rd_blknum).Nodup := by
      rw [List.map_cons, List.map_congr_left hkept, List.nodup_cons, hx]
      refine ⟨?_, h.blocks.sublist (hsub.map _)⟩
      intro hmem
      obtain ⟨y, hy, heq⟩ := List.mem_map.mp hmem
      exact h.fresh rptr (by simp) hop y (hsub.subset hy) heq
    have hready : Draining (d₁.resume (d₁.qnode rptr).rd_pid) [rptr] f := by
      have hqueue := h.queue.draining
      refine ⟨?_, ?_, ?_, hqueue.perm⟩
      · show LinkedTable.Chain NULL (fun y => (d₁.qnode y).rd_next) d₁.rd_qhead [rptr]
        rw [hsame.qnode, hsame.qhead]
        exact hqueue.chain
      · exact hsame.qtail.trans hqueue.tail
      · show LinkedTable.Chain NULL (fun y => (d₁.qnode y).rd_next) d₁.rd_qfree f
        rw [hsame.qnode, hsame.qfree]
        exact hqueue.free
    have hdrained := hready.unlink
    have hleft := rdqunlink_sameCache (d₁.resume (d₁.qnode rptr).rd_pid) rptr
    exact ⟨_, _, _, _, DiskInv.drained hcache hblocks
      ⟨hleft.chead, hleft.ctail, hleft.cfree, hleft.cnode⟩
      ⟨hdrained.chain, hdrained.tail, hdrained.free, hdrained.perm⟩
      (Or.inr rfl)⟩
  · rw [if_pos ⟨hend, halone hend⟩]
    exact ⟨_, _, _, _, h⟩

theorem DiskInv.queued_eq (h : DiskInv d l f c g) : d.queued = l := by
  apply h.queue.list.chain.nodesFrom_eq h.queue.list.null
  have hlen := h.queue.perm.length_eq
  rw [nodeIds_length, List.length_append] at hlen
  omega

theorem DiskInv.readDone
    {rptr : ℤ} (h : DiskInv d l f c g) (hcomm : d.comm = .reading rptr)
    (halone : ∀ r ∈ d.queued, (d.qnode r).rd_op = .read ∧
      (d.qnode r).rd_blknum = (d.qnode rptr).rd_blknum)
    (hdone : d.readDone budget rptr data = some d') :
    ∃ l f c g, DiskInv d' l f c g := by
  have hat := h.comm
  unfold CommAt at hat
  rw [hcomm] at hat
  obtain ⟨rest, rfl⟩ := hat
  rw [h.queued_eq] at halone
  unfold Rdscblk.readDone at hdone
  rw [Option.map_eq_some_iff] at hdone
  obtain ⟨d₂, hwalk, rfl⟩ := hdone
  have hqueue := h.queue.draining
  have hready : Draining ((d.copyTo (d.qnode rptr).rd_callbuf data).resume
      (d.qnode rptr).rd_pid) (rptr :: rest) f :=
    ⟨hqueue.chain, hqueue.tail, hqueue.free, hqueue.perm⟩
  have hnode := rdqunlink_sameRequest
    ((d.copyTo (d.qnode rptr).rd_callbuf data).resume (d.qnode rptr).rd_pid) rptr
  have hleft := rdqunlink_sameCache
    ((d.copyTo (d.qnode rptr).rd_callbuf data).resume (d.qnode rptr).rd_pid) rptr
  obtain ⟨⟨f', hdrained⟩, hcache⟩ := hready.unlink.satisfy
    (fun r hr => by
      obtain ⟨hrop, hrblk⟩ := halone r (by simp [hr])
      exact ⟨(hnode r).op.trans hrop, (hnode r).blknum.trans hrblk⟩) hwalk
  exact ⟨_, _, _, _, DiskInv.drained h.cache h.blocks
    ⟨hcache.chead.trans hleft.chead, hcache.ctail.trans hleft.ctail,
      hcache.cfree.trans hleft.cfree, hcache.cnode.trans hleft.cnode⟩
    ⟨hdrained.chain, hdrained.tail, hdrained.free, hdrained.perm⟩
    (Or.inl rfl)⟩

/-! ## Runs -/

theorem DiskInv.step
    {action : ℕ × RdsAction Block} (h : DiskInv d l f c g)
    (halone : Alone d action) (hstep : d.step action = some d') :
    ∃ l f c g, DiskInv d' l f c g := by
  obtain ⟨budget, action⟩ := action
  cases action with
  | read pid buff blk =>
      simp only [Rdscblk.step] at hstep
      split_ifs at hstep with hcan
      rw [Option.map_eq_some_iff] at hstep
      obtain ⟨⟨d₁, status⟩, hcall, rfl⟩ := hstep
      obtain ⟨l, f, hinv⟩ := h.rdsread hcan hcall
      exact ⟨l, f, c, g, hinv⟩
  | write pid buff blk =>
      simp only [Rdscblk.step] at hstep
      split_ifs at hstep with hcan
      rw [Option.map_eq_some_iff] at hstep
      obtain ⟨⟨d₁, status⟩, hcall, rfl⟩ := hstep
      exact h.rdswrite hcan hcall
  | sync pid =>
      simp only [Rdscblk.step] at hstep
      split_ifs at hstep with hcan
      rw [Option.some.injEq] at hstep
      subst hstep
      exact ⟨l, f, c, g, h.rdscontrolSync halone⟩
  | run =>
      simp only [Rdscblk.step] at hstep
      unfold Alone at halone
      cases hcomm : d.comm with
      | waiting =>
          rw [hcomm] at hstep
          dsimp only at hstep
          split_ifs at hstep
          rw [Option.some.injEq] at hstep
          subst hstep
          exact ⟨l, f, c, g, h.commTake hcomm⟩
      | searching rptr tptr =>
          rw [hcomm] at hstep halone
          rw [Option.some.injEq] at hstep
          subst hstep
          exact h.searchTurn hcomm halone
      | reading rptr =>
          rw [hcomm] at hstep
          cases hstep
      | writing =>
          rw [hcomm] at hstep
          cases hstep
  | respond data =>
      simp only [Rdscblk.step] at hstep
      unfold Alone at halone
      cases hcomm : d.comm with
      | waiting =>
          rw [hcomm] at hstep
          cases hstep
      | searching rptr tptr =>
          rw [hcomm] at hstep
          cases hstep
      | reading rptr =>
          rw [hcomm] at hstep halone
          exact h.readDone hcomm halone hstep
      | writing =>
          rw [hcomm, Option.some.injEq] at hstep
          subst hstep
          exact ⟨l, f, c, g, h.queue, h.cache, h.blocks, h.callers, h.pids,
            h.nosync, h.fresh, trivial⟩

end Invariant

section Boot

theorem chain_linkFree_from {n k : ℕ} (hk : k ≤ n) :
    LinkedTable.Chain NULL (linkFree n) (if k = 0 then NULL else (n : ℤ) - k + 1)
      ((List.range' (n - k) k).map fun i : ℕ => (i : ℤ) + 1) := by
  induction k with
  | zero => rfl
  | succ k ih =>
      have hnext : linkFree n ((n : ℤ) - (k + 1 : ℕ) + 1) =
          if k = 0 then NULL else (n : ℤ) - k + 1 := by
        unfold linkFree
        split_ifs <;> omega
      rw [if_neg (Nat.succ_ne_zero k), List.range'_succ, List.map_cons]
      refine ⟨by omega, ?_⟩
      have hstart : ((n - (k + 1) : ℕ) : ℤ) + 1 = (n : ℤ) - (k + 1 : ℕ) + 1 := by
        omega
      have hrest := ih (by omega)
      rw [hstart, hnext, show n - (k + 1) + 1 = n - k by omega]
      exact hrest

theorem chain_linkFree (n : ℕ) :
    LinkedTable.Chain NULL (linkFree n) (if n = 0 then NULL else 1) (nodeIds n) := by
  have hchain := chain_linkFree_from (le_refl n)
  rw [Nat.sub_self, ← List.range_eq_range', sub_self, zero_add] at hchain
  exact hchain

theorem rdsopen_inv
    (qnode : ℤ → Rdqnode) (cnode : ℤ → Rdcnode Block)
    (buffers : Word → Block) :
    DiskInv (rdsopen qnode cnode buffers) [] (nodeIds RD_QNODES) []
      (nodeIds RD_CNODES) := by
  refine ⟨⟨.nil, chain_linkFree RD_QNODES, .refl _⟩,
    ⟨.nil, chain_linkFree RD_CNODES, .refl _⟩, by simp, by simp, by simp,
    by simp, by simp, trivial⟩

end Boot

section Law

variable {qnode : ℤ → Rdqnode} {cnode : ℤ → Rdcnode Block}
  {buffers : Word → Block} {d : Rdscblk Block}

/-- In every run in which each request leaves the queue alone and no disk with
requests is synchronized, both lists are well formed and every search ends. -/
theorem disk_lists_of_alone
    (hreach : Reach Rdscblk.step Alone (rdsopen qnode cnode buffers) d) :
    DiskLaw d := by
  obtain ⟨l, f, c, g, hinv⟩ := hreach.invariant
    (fun d => ∃ l f c g, DiskInv d l f c g)
    ⟨_, _, _, _, rdsopen_inv qnode cnode buffers⟩
    fun d action d' ⟨_, _, _, _, hinv⟩ halone hstep => hinv.step halone hstep
  exact hinv.law

end Law

/-- A disk that has just been opened, with blocks of no content. -/
def openedDisk : Rdscblk Unit :=
  rdsopen (fun _ => ⟨0, 0, .read, 0, 0, 0⟩) (fun _ => ⟨0, 0, 0, ()⟩) fun _ => ()

/-- A read and a write, each finished before the next call. -/
theorem disk_lists_of_alone_opened :
    ∃ d, Reach Rdscblk.step Alone openedDisk d ∧ d.rd_chead = 1 ∧ DiskLaw d := by
  have hview : (run (fun d action => if Alone d action then Rdscblk.step d action
      else none) openedDisk
      [(1, .read 1 0 5), (0, .run), (1, .respond ()), (1, .write 2 0 6),
        (0, .run), (0, .run), (0, .respond ())]).map (fun d => d.rd_chead) =
      some 1 := by
    decide
  rw [Option.map_eq_some_iff] at hview
  obtain ⟨d, hrun, hhead⟩ := hview
  have hreach := Reach.run_checked _ .start hrun
  exact ⟨d, hreach, hhead, disk_lists_of_alone hreach⟩

/-- The answer to the first of two reads leaves a stale back pointer. -/
theorem second_read_breaks_disk_lists :
    ¬ ∀ d, Reach Rdscblk.step (fun _ _ => True) openedDisk d → DiskLaw d := by
  intro hlaw
  have hview : (run (fun d action => if True then Rdscblk.step d action else none)
      openedDisk
      [(1, .read 1 0 5), (0, .run), (2, .read 2 0 6), (2, .respond ())]).map
        (fun d => (d.rd_qhead, d.qprev d.rd_qhead)) = some (2, 1) := by
    decide
  rw [Option.map_eq_some_iff] at hview
  obtain ⟨d, hrun, hd⟩ := hview
  rw [Prod.mk.injEq] at hd
  obtain ⟨hhead, hprev⟩ := hd
  obtain ⟨l, f, hlist, -⟩ := (hlaw d (Reach.run_checked _ .start hrun)).queue
  have hnull := hlist.prev_head (by rw [hhead]; decide)
  rw [hprev] at hnull
  cases hnull

end Xinu.RemoteDisk
