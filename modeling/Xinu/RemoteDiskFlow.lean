import Xinu.RemoteDiskLists

/-!
# Requests that leave in front of others

`rdqunlink` does not clear the back pointer of the request that becomes the
first one.  The search of `rdsread` can then run on into nodes that have been
freed.  The invariant below says what it can meet there, as long as no disk
with requests is synchronized.
-/

namespace Xinu.RemoteDisk

open ByteMemory LinkedTable TransitionSystem Rdscblk

variable {Block : Type}

/-! ## What a node holds -/

/-- A request without its links. -/
structure Ask where
  op : RdOp
  blk : Word
  buff : Word
  pid : ℤ
  deriving DecidableEq

def Rdscblk.ask (d : Rdscblk Block) (x : ℤ) : Ask :=
  ⟨(d.qnode x).rd_op, (d.qnode x).rd_blknum, (d.qnode x).rd_callbuf,
    (d.qnode x).rd_pid⟩

/-- The block that a cache node holds. -/
def Rdscblk.copy (d : Rdscblk Block) (x : ℤ) : Word × Block :=
  ((d.cnode x).rd_blknum, (d.cnode x).rd_data)

section Contents

variable (d : Rdscblk Block) (x v : ℤ)

@[simp] theorem ask_setQnext : (d.setQnext x v).ask = d.ask := by
  funext y
  by_cases hy : y = x
  · simp [ask, setQnext, setQnode, hy]
  · simp [ask, setQnext, setQnode, hy]

@[simp] theorem ask_setQprev : (d.setQprev x v).ask = d.ask := by
  funext y
  by_cases hy : y = x
  · simp [ask, setQprev, setQnode, hy]
  · simp [ask, setQprev, setQnode, hy]

theorem copy_setCnext : (d.setCnext x v).copy = d.copy := by
  funext y
  by_cases hy : y = x
  · simp [copy, setCnext, setCnode, hy]
  · simp [copy, setCnext, setCnode, hy]

theorem copy_setCprev : (d.setCprev x v).copy = d.copy := by
  funext y
  by_cases hy : y = x
  · simp [copy, setCprev, setCnode, hy]
  · simp [copy, setCprev, setCnode, hy]

theorem ask_rdqunlink : (d.rdqunlink x).1.ask = d.ask := by
  unfold rdqunlink
  dsimp only
  split_ifs
  · exact ask_setQnext { d with rd_qhead := NULL, rd_qtail := NULL } x d.rd_qfree
  · exact ask_setQnext { d with rd_qhead := d.qnext x } x d.rd_qfree
  · exact (ask_setQnext _ x d.rd_qfree).trans
      (ask_setQnext { d with rd_qtail := d.qprev x } (d.qprev x) NULL)
  · exact (ask_setQnext _ x d.rd_qfree).trans ((ask_setQprev _ _ _).trans
      (ask_setQnext d (d.qprev x) (d.qnext x)))

theorem ask_rdqinsert : (d.rdqinsert x).ask = d.ask := by
  have hlinks : ((d.setQnext x NULL).setQprev x d.rd_qtail).ask = d.ask :=
    (ask_setQprev _ x d.rd_qtail).trans (ask_setQnext d x NULL)
  unfold rdqinsert
  dsimp only
  split_ifs
  · exact hlinks
  · exact (ask_setQnext _ d.rd_qtail x).trans hlinks

theorem ask_readInsert : (d.readInsert x).ask = d.ask := by
  unfold readInsert
  split_ifs
  · exact (ask_setQnext _ x NULL).trans
      (ask_setQprev { d with rd_qhead := x, rd_qtail := x } x NULL)
  · exact (ask_setQnext _ x NULL).trans ((ask_setQprev _ x d.rd_qtail).trans
      (ask_setQnext d d.rd_qtail x))

theorem copy_rdcunlink : (d.rdcunlink x).copy = d.copy := by
  unfold rdcunlink
  dsimp only
  split_ifs
  · exact copy_setCnext { d with rd_chead := NULL, rd_ctail := NULL } x d.rd_cfree
  · exact (copy_setCnext _ x d.rd_cfree).trans
      (copy_setCprev { d with rd_chead := d.cnext x } (d.cnext x) NULL)
  · exact (copy_setCnext _ x d.rd_cfree).trans
      (copy_setCnext { d with rd_ctail := d.cprev x } (d.cprev x) NULL)
  · exact (copy_setCnext _ x d.rd_cfree).trans ((copy_setCprev _ _ _).trans
      (copy_setCnext d (d.cprev x) (d.cnext x)))

theorem copy_takeCnode : d.takeCnode.1.copy = d.copy := by
  unfold takeCnode
  dsimp only
  split_ifs
  · rfl
  · rfl
  · exact copy_setCnext d (d.cprev d.rd_ctail) NULL

theorem copy_rdcinsert (blk : Word) (data : Block) :
    (d.rdcinsert blk data).copy =
      Function.update d.copy d.takeCnode.2 (blk, data) := by
  have hcopy := copy_takeCnode d
  unfold rdcinsert
  generalize d.takeCnode = r at hcopy ⊢
  obtain ⟨d₁, cptr⟩ := r
  dsimp only at hcopy ⊢
  have hfill : (((d₁.setCnode cptr fun c =>
      { c with rd_blknum := blk, rd_data := data }).setCnext cptr
        d₁.rd_chead).setCprev cptr NULL).copy =
        Function.update d.copy cptr (blk, data) := by
    rw [copy_setCprev, copy_setCnext, ← hcopy]
    funext y
    by_cases hy : y = cptr
    · simp [copy, setCnode, hy]
    · simp [copy, setCnode, hy]
  split_ifs
  · exact hfill
  · exact (copy_setCprev _ _ _).trans hfill

/-- The parts of the control block that no edit of a list touches. -/
structure SameOwners (d d' : Rdscblk Block) : Prop where
  buffers : d'.buffers = d.buffers
  suspended : d'.suspended = d.suspended
  comm : d'.comm = d.comm

theorem rdqunlink_sameOwners : SameOwners d (d.rdqunlink x).1 := by
  unfold rdqunlink
  dsimp only
  split_ifs <;> exact ⟨rfl, rfl, rfl⟩

theorem rdqinsert_sameOwners : SameOwners d (d.rdqinsert x) := by
  unfold rdqinsert
  dsimp only
  split_ifs <;> exact ⟨rfl, rfl, rfl⟩

theorem readInsert_sameOwners : SameOwners d (d.readInsert x) := by
  unfold readInsert
  split_ifs <;> exact ⟨rfl, rfl, rfl⟩

theorem rdcunlink_sameOwners : SameOwners d (d.rdcunlink x) := by
  unfold rdcunlink
  dsimp only
  split_ifs <;> exact ⟨rfl, rfl, rfl⟩

theorem rdcinsert_sameOwners (blk : Word) (data : Block) :
    SameOwners d (d.rdcinsert blk data) := by
  have htake : SameOwners d d.takeCnode.1 := by
    unfold takeCnode
    dsimp only
    split_ifs <;> exact ⟨rfl, rfl, rfl⟩
  unfold rdcinsert
  generalize d.takeCnode = r at htake ⊢
  obtain ⟨d₁, cptr⟩ := r
  obtain ⟨hbuffers, hsusp, hcomm⟩ := htake
  dsimp only
  split_ifs
  · exact ⟨hbuffers, hsusp, hcomm⟩
  · exact ⟨hbuffers, hsusp, hcomm⟩

end Contents

/-! ## The queue with a stale back pointer -/

/-- The back pointers, as if that of the first request were null. -/
def Rdscblk.back (d : Rdscblk Block) : ℤ → ℤ :=
  Function.update d.qprev d.rd_qhead NULL

def Live (d : Rdscblk Block) (l f : List ℤ) : Prop :=
  Nodes d.qnext d.back d.rd_qhead d.rd_qtail d.rd_qfree RD_QNODES l f

section Live

variable {d d₂ : Rdscblk Block} {l f xs ys : List ℤ} {x : ℤ}

theorem Nodes.rename_prev
    {next prev prev' : ℤ → ℤ} {head tail free : ℤ} {n : ℕ}
    (h : Nodes next prev head tail free n l f)
    (hprev : ∀ y ∈ l, prev' y = prev y) :
    Nodes next prev' head tail free n l f :=
  ⟨h.list.congr (fun _ _ => rfl) hprev, h.free, h.perm⟩

/-- The first request has no request in front of it. -/
theorem Live.back_eq {y : ℤ} (hy : d.back y ≠ NULL) :
    d.qprev y = d.back y := by
  unfold back at hy ⊢
  rw [Function.update_of_ne]
  rintro rfl
  rw [Function.update_self] at hy
  exact hy rfl

theorem Live.append
    (hlinks : Appended d d₂ x)
    (h : Nodes d.qnext d.back d.rd_qhead d.rd_qtail x RD_QNODES l (x :: f))
    (hfree : d.rd_qfree = d.qnext x) :
    Live d₂ (l ++ [x]) f := by
  have hxh : x ≠ d.rd_qhead := h.head_free_ne (by simp)
  apply (hlinks.nodes h hfree).rename_prev
  intro y hy
  unfold back
  rw [hlinks.head, hlinks.prev]
  split_ifs with hempty
  · have hl : l = [] := h.list.tail_eq_null_iff.mp hempty
    obtain rfl : y = x := by simpa [hl] using hy
    rw [Function.update_self, Function.update_self, hempty]
  · rw [Function.update_comm hxh]

/-- The end of `rdqunlink`, on the node `x`. -/
theorem Live.freed
    (prev' : ℤ → ℤ) (d₁ : Rdscblk Block) (h : Live d (xs ++ x :: ys) f)
    (hfree : d₁.rd_qfree = d.rd_qfree)
    (hnext : Function.update d₁.qnext NULL d₁.rd_qhead =
      Function.update (Function.update d.qnext NULL d.rd_qhead) (d.back x)
        (d.qnext x))
    (hprev : Function.update prev' NULL d₁.rd_qtail =
      Function.update (Function.update d.back NULL d.rd_qtail) (d.qnext x)
        (d.back x))
    (hback : ∀ y ∈ xs ++ ys, d₁.back y = prev' y) :
    Live { d₁.setQnext x d₁.rd_qfree with rd_qfree := x } (xs ++ ys)
      (x :: f) := by
  have hremove := (h.remove hnext hprev).rename_prev hback
  rw [← hfree, ← qnext_setQnext] at hremove
  have hsame : ({ d₁.setQnext x d₁.rd_qfree with rd_qfree := x } :
      Rdscblk Block).back = d₁.back := by
    show Function.update (d₁.setQnext x d₁.rd_qfree).qprev d₁.rd_qhead NULL = _
    rw [qprev_setQnext]
    rfl
  unfold Live
  rw [hsame]
  exact hremove

theorem Live.unlink (h : Live d (xs ++ x :: ys) f) :
    Live (d.rdqunlink x).1 (xs ++ ys) (x :: f) := by
  have hx : x ∈ xs ++ x :: ys := by simp
  have hxn := h.list.ne_null hx
  have hlast := h.list.next_eq_null_iff hx
  have hfirst := h.list.prev_eq_null_iff hx
  have hother : ∀ y ∈ xs ++ ys, y ≠ NULL ∧ y ≠ x := by
    intro y hy
    refine ⟨h.list.ne_null (by simp at hy ⊢; tauto), ?_⟩
    rintro rfl
    exact (List.nodup_middle.mp h.apart.1).notMem hy
  have hback : ∀ {y}, y ≠ d.rd_qhead → d.back y = d.qprev y :=
    fun hy => Function.update_of_ne hy _ _
  unfold rdqunlink
  dsimp only
  split_ifs with hhead htail htail
  · refine Live.freed d.back
      ({ d with rd_qhead := NULL, rd_qtail := NULL }) h rfl ?_ ?_ ?_
    · show Function.update d.qnext NULL NULL = _
      rw [hfirst.mpr hhead, hlast.mpr htail, Function.update_idem]
    · rw [hfirst.mpr hhead, hlast.mpr htail, Function.update_idem]
    · intro y hy
      obtain ⟨hyn, hyx⟩ := hother y hy
      rw [hback (hhead ▸ hyx)]
      exact Function.update_of_ne hyn _ _
  · have hnext : d.qnext x ≠ NULL := fun heq => htail (hlast.mp heq)
    refine Live.freed (Function.update d.back (d.qnext x) NULL)
      ({ d with rd_qhead := d.qnext x }) h rfl ?_ ?_ ?_
    · show Function.update d.qnext NULL (d.qnext x) = _
      rw [hfirst.mpr hhead, Function.update_idem]
    · rw [hfirst.mpr hhead]
      exact Function.update_comm hnext _ _ _
    · intro y hy
      show Function.update d.qprev (d.qnext x) NULL y = _
      by_cases hyx : y = d.qnext x
      · rw [hyx, Function.update_self, Function.update_self]
      · rw [Function.update_of_ne hyx, Function.update_of_ne hyx,
          hback (hhead ▸ (hother y hy).2)]
  · have hprev : d.qprev x ≠ NULL := by
      rw [← hback hhead]
      exact fun heq => hhead (hfirst.mp heq)
    refine Live.freed d.back
      ({ d with rd_qtail := d.qprev x }.setQnext (d.qprev x) NULL)
      h rfl ?_ ?_ ?_
    · rw [qnext_setQnext, hlast.mpr htail, hback hhead]
      exact Function.update_comm hprev _ _ _
    · rw [hlast.mpr htail, hback hhead, Function.update_idem]
      rfl
    · intro y _
      show Function.update ({ d with rd_qtail := d.qprev x }.setQnext
        (d.qprev x) NULL).qprev d.rd_qhead NULL y = _
      rw [qprev_setQnext]
      rfl
  · have hprev : d.qprev x ≠ NULL := by
      rw [← hback hhead]
      exact fun heq => hhead (hfirst.mp heq)
    have hnext : d.qnext x ≠ NULL := fun heq => htail (hlast.mp heq)
    have hfollow : d.back (d.qnext x) = x := by
      have hforth := h.list.linked.prev_next (x := x) (by simp)
      rwa [Function.update_of_ne hxn, Function.update_of_ne hnext] at hforth
    have hmiddle : d.qnext x ≠ d.rd_qhead := by
      intro heq
      rw [heq] at hfollow
      exact hxn (hfollow.symm.trans (Function.update_self _ _ _))
    refine Live.freed (Function.update d.back (d.qnext x) (d.qprev x))
      ((d.setQnext (d.qprev x) (d.qnext x)).setQprev (d.qnext x)
        (d.qprev x)) h rfl ?_ ?_ ?_
    · rw [qnext_setQprev, qnext_setQnext, hback hhead]
      exact Function.update_comm hprev _ _ _
    · rw [hback hhead]
      exact Function.update_comm hnext _ _ _
    · intro y _
      show Function.update ((d.setQnext (d.qprev x) (d.qnext x)).setQprev
        (d.qnext x) (d.qprev x)).qprev d.rd_qhead NULL y = _
      rw [qprev_setQprev, qprev_setQnext, Function.update_comm hmiddle]
      rfl

/-- The node behind the one that is taken out. -/
theorem Live.next_eq (h : Live d (xs ++ x :: ys) f) :
    (d.rdqunlink x).2 = ys.head?.getD NULL := by
  have hchain : ∀ {a : ℤ} {us : List ℤ},
      LinkedTable.Chain NULL d.qnext a (us ++ x :: ys) →
        LinkedTable.Chain NULL d.qnext (d.qnext x) ys := by
    intro a us hus
    induction us generalizing a with
    | nil => exact hus.2
    | cons u us ih => exact ih hus.2
  exact (hchain h.list.chain).head

end Live

/-! ## Where the back pointers lead -/

/-- The nodes that a backward search can reach.  A write that has been freed is
among them only while the first request is a later write of its block. -/
structure BackPaths
    (d : Rdscblk Block) (l : List ℤ) (reached : Set ℤ) : Prop where
  live : ∀ x ∈ l, x ∈ reached
  closed : ∀ x ∈ reached, d.qprev x = NULL ∨ d.qprev x ∈ reached
  writes : ∀ x ∈ reached, x ∉ l → (d.ask x).op = .write →
    ∃ r rest, l = r :: rest ∧ (d.ask r).op = .write ∧
      (d.ask r).blk = (d.ask x).blk

section Paths

variable {d d' : Rdscblk Block} {l f xs ys : List ℤ} {x : ℤ} {blk : Word}
  {budget : ℕ} {reached : Set ℤ}

theorem BackPaths.nil (d : Rdscblk Block) : BackPaths d [] ∅ :=
  ⟨by simp, by simp, by simp⟩

/-- The search finds the last request for the block, if there is one, and
takes no other node for a write of it. -/
theorem BackPaths.searchBack
    (hpaths : BackPaths d l reached) (h : Live d l f) {rptr : ℤ}
    (hfound : d.searchBack blk budget = some rptr) :
    l.reverse.find? (fun r => (d.ask r).blk = blk) = some rptr ∨
      l.reverse.find? (fun r => (d.ask r).blk = blk) = none ∧
        ¬ (rptr ≠ NULL ∧ (d.ask rptr).op = .write) := by
  unfold Rdscblk.searchBack at hfound
  have hback := h.list.reverse
  cases hfind : l.reverse.find? (fun r => (d.ask r).blk = blk) with
  | some x =>
      rw [hback.chain.walk_found hback.null (fun y _ hy => Live.back_eq hy)
        hfind hfound]
      exact Or.inl rfl
  | none =>
      refine Or.inr ⟨rfl, ?_⟩
      intro ⟨hnull, hop⟩
      have htail : d.rd_qtail = NULL ∨ d.rd_qtail ∈ reached := by
        rw [h.list.tail_eq]
        cases hlast : l.getLast? with
        | none => exact Or.inl rfl
        | some y => exact Or.inr (hpaths.live y (List.mem_of_getLast? hlast))
      obtain ⟨hmem, hblk⟩ :=
        (walk_closed hpaths.closed htail hfound).resolve_left hnull
      have hnone : ∀ r ∈ l, (d.ask r).blk ≠ blk := by
        intro r hr
        simpa using List.find?_eq_none.mp hfind r (by simpa using hr)
      have hblk' : (d.ask rptr).blk = blk := of_decide_eq_true hblk
      by_cases hlive : rptr ∈ l
      · exact hnone rptr hlive hblk'
      · obtain ⟨r, rest, rfl, -, hsame⟩ := hpaths.writes rptr hmem hlive hop
        exact hnone r (by simp) (hsame.trans hblk')

theorem BackPaths.append
    {a : Ask} (hpaths : BackPaths d l reached) (hlist : Live d l (x :: f))
    (hprev : d'.qprev = Function.update d.qprev x d.rd_qtail)
    (hask : d'.ask = Function.update d.ask x a) :
    ∃ reached', BackPaths d' (l ++ [x]) reached' := by
  have hxl : ∀ r ∈ l, r ≠ x := fun r hr => hlist.apart.2.2 r hr x (by simp)
  cases l with
  | nil =>
      have htail : d.rd_qtail = NULL := hlist.list.tail_eq
      refine ⟨{x}, by simp, ?_, by simp⟩
      rintro y rfl
      left
      rw [hprev, Function.update_self, htail]
  | cons r rest =>
      refine ⟨insert x reached, ?_, ?_, ?_⟩
      · intro y hy
        rcases List.mem_append.mp hy with hy | hy
        · exact Set.mem_insert_of_mem _ (hpaths.live y hy)
        · rw [List.mem_singleton.mp hy]
          exact Set.mem_insert x reached
      · intro y hy
        rw [hprev]
        by_cases hyx : y = x
        · right
          rw [hyx, Function.update_self]
          apply Set.mem_insert_of_mem
          apply hpaths.live
          rw [hlist.list.tail_eq, List.getLast?_eq_some_getLast (by simp)]
          exact List.getLast_mem _
        · rw [Function.update_of_ne hyx]
          exact (hpaths.closed y (Set.mem_of_mem_insert_of_ne hy hyx)).imp_right
            (Set.mem_insert_of_mem x)
      · intro y hy hout hop
        have hyx : y ≠ x := by
          rintro rfl
          exact hout (by simp)
        rw [hask, Function.update_of_ne hyx] at hop ⊢
        obtain ⟨r', rest', heq, hop', hblk⟩ := hpaths.writes y
          (Set.mem_of_mem_insert_of_ne hy hyx)
          (fun hmem => hout (List.mem_append_left _ hmem)) hop
        obtain ⟨rfl, rfl⟩ := List.cons.inj heq
        refine ⟨r, rest ++ [x], rfl, ?_⟩
        rw [Function.update_of_ne (hxl r (by simp))]
        exact ⟨hop', hblk⟩

theorem rdqunlink_qprev (d : Rdscblk Block) (x : ℤ) :
    (d.rdqunlink x).1.qprev = d.qprev ∨
      (d.rdqunlink x).1.qprev =
        Function.update d.qprev (d.qnext x) (d.qprev x) := by
  unfold rdqunlink
  dsimp only
  split_ifs
  · exact Or.inl (qprev_setQnext
      { d with rd_qhead := NULL, rd_qtail := NULL } x d.rd_qfree)
  · exact Or.inl (qprev_setQnext { d with rd_qhead := d.qnext x } x d.rd_qfree)
  · exact Or.inl ((qprev_setQnext _ x d.rd_qfree).trans
      (qprev_setQnext { d with rd_qtail := d.qprev x } (d.qprev x) NULL))
  · right
    refine (qprev_setQnext _ x d.rd_qfree).trans ((qprev_setQprev _ _ _).trans ?_)
    rw [qprev_setQnext]

theorem BackPaths.unlink
    (hpaths : BackPaths d (xs ++ x :: ys) reached)
    (hwrites : ∀ y ∈ reached, y ∉ xs ++ ys → (d.ask y).op = .write →
      ∃ r rest, xs ++ ys = r :: rest ∧ (d.ask r).op = .write ∧
        (d.ask r).blk = (d.ask y).blk) :
    BackPaths (d.rdqunlink x).1 (xs ++ ys) reached := by
  refine ⟨?_, ?_, ?_⟩
  · intro y hy
    exact hpaths.live y (by simp at hy ⊢; tauto)
  · have hx := hpaths.closed x (hpaths.live x (by simp))
    intro y hy
    rcases rdqunlink_qprev d x with hprev | hprev
    · rw [hprev]
      exact hpaths.closed y hy
    · rw [hprev, Function.update_apply]
      split_ifs
      · exact hx
      · exact hpaths.closed y hy
  · rw [ask_rdqunlink]
    exact hwrites

end Paths

/-! ## The invariant -/

/-- The queue is `l`, the cache is `c`, and `f` and `g` are free. -/
structure FlowInv (d : Rdscblk Block) (l f c g : List ℤ) : Prop where
  queue : Live d l f
  paths : ∃ reached, BackPaths d l reached
  cache : CacheOf d c g
  blocks : (c.map fun x => (d.copy x).1).Nodup
  callers : ∀ r ∈ l, ProcId (d.ask r).pid ∧ d.suspended (d.ask r).pid = true
  pids : (l.map fun r => (d.ask r).pid).Nodup
  nosync : ∀ r ∈ l, (d.ask r).op ≠ .sync
  fresh : ∀ r ∈ l, (d.ask r).op = .write → ∀ x ∈ c,
    (d.copy x).1 ≠ (d.ask r).blk
  comm : CommAt d l
  reading : ∀ rptr, d.comm = .reading rptr → (d.ask rptr).op = .read

/-- The request `a` has been queued in the node `x`. -/
structure Enqueued (d d' : Rdscblk Block) (x : ℤ) (a : Ask) : Prop where
  ask : d'.ask = Function.update d.ask x a
  copy : d'.copy = d.copy
  buffers : d'.buffers = d.buffers
  suspended : d'.suspended = Function.update d.suspended a.pid true
  comm : d'.comm = d.comm

/-- What `request` leaves: the free node `x` filled in but not linked yet. -/
structure Filled (d d₁ : Rdscblk Block) (x : ℤ) (a : Ask) : Prop where
  next : d₁.qnext = d.qnext
  prev : d₁.qprev = d.qprev
  head : d₁.rd_qhead = d.rd_qhead
  tail : d₁.rd_qtail = d.rd_qtail
  free : d₁.rd_qfree = d.qnext x
  cache : SameCache d d₁
  owners : SameOwners d d₁
  ask : d₁.ask = Function.update d.ask x a

theorem SameCache.copy {d d' : Rdscblk Block} (h : SameCache d d') :
    d'.copy = d.copy := by
  unfold Rdscblk.copy
  rw [h.cnode]

theorem SameCache.cacheOf
    {d d' : Rdscblk Block} {c g : List ℤ} (h : SameCache d d')
    (hcache : CacheOf d c g) : CacheOf d' c g := by
  unfold CacheOf cnext cprev
  rw [h.chead, h.ctail, h.cfree, h.cnode]
  exact hcache

section Invariant

variable {d d₁ d₂ d' : Rdscblk Block} {l f c g : List ℤ} {pid x : ℤ}
  {budget : ℕ} {buff blk : Word} {data : Block} {a : Ask}

theorem request_filled
    (hfree : d.rd_qfree = x) (op : RdOp) (blk buff : Word) (pid : ℤ) :
    (d.request op blk buff pid).2 = x ∧
      Filled d (d.request op blk buff pid).1 x ⟨op, blk, buff, pid⟩ := by
  unfold Rdscblk.request
  rw [hfree]
  refine ⟨rfl, ?_, ?_, rfl, rfl, rfl, ⟨rfl, rfl, rfl, rfl⟩, ⟨rfl, rfl, rfl⟩, ?_⟩
  · funext y
    by_cases hy : y = x
    · simp [qnext, setQnode, hy]
    · simp [qnext, setQnode, hy]
  · funext y
    by_cases hy : y = x
    · simp [qprev, setQnode, hy]
    · simp [qprev, setQnode, hy]
  · funext y
    by_cases hy : y = x
    · simp [ask, setQnode, hy]
    · simp [ask, setQnode, hy]

theorem Filled.nodes
    (h : Live d l (x :: f)) (hfill : Filled d d₁ x a) :
    Nodes d₁.qnext d₁.back d₁.rd_qhead d₁.rd_qtail x RD_QNODES l (x :: f) := by
  have hx : d.rd_qfree = x := h.free.1
  have hqueue := h
  unfold Live back at hqueue
  unfold back
  rw [hfill.next, hfill.prev, hfill.head, hfill.tail, ← hx]
  rwa [← hx] at hqueue

/-- The caller links its request in and suspends itself. -/
theorem FlowInv.insert
    (h : FlowInv d l (x :: f) c g) (hfill : Filled d d₁ x a)
    (hpid : ProcId a.pid) (hrun : d.suspended a.pid = false)
    (hop : a.op ≠ .sync)
    (hfresh : a.op = .write → ∀ y ∈ c, (d.copy y).1 ≠ a.blk)
    (hblocked : ∀ rptr tptr, d.comm ≠ .searching rptr tptr)
    (hlinks : Appended d₁ d₂ x) (hcache : SameCache d₁ d₂)
    (howners : SameOwners d₁ d₂) (hask : d₂.ask = d₁.ask) :
    FlowInv (d₂.signalSuspend a.pid) (l ++ [x]) f c g ∧
      Enqueued d (d₂.signalSuspend a.pid) x a := by
  have hnew : Enqueued d (d₂.signalSuspend a.pid) x a := by
    refine ⟨hask.trans hfill.ask, hcache.copy.trans hfill.cache.copy,
      howners.buffers.trans hfill.owners.buffers, ?_,
      howners.comm.trans hfill.owners.comm⟩
    show Function.update d₂.suspended a.pid true = _
    rw [howners.suspended, hfill.owners.suspended]
  refine ⟨?_, hnew⟩
  have hprev : (d₂.signalSuspend a.pid).qprev =
      Function.update d.qprev x d.rd_qtail := by
    rw [← hfill.prev, ← hfill.tail]
    exact hlinks.prev
  have hlinked : Live d₂ (l ++ [x]) f :=
    Live.append hlinks (hfill.nodes h.queue) (by rw [hfill.free, hfill.next])
  have hlive : Live (d₂.signalSuspend a.pid) (l ++ [x]) f := hlinked
  have hcacheOf : CacheOf (d₂.signalSuspend a.pid) c g :=
    hcache.cacheOf (hfill.cache.cacheOf h.cache)
  generalize d₂.signalSuspend a.pid = d' at hnew hprev hlive hcacheOf ⊢
  obtain ⟨reached, hpaths⟩ := h.paths
  have hold : ∀ r ∈ l, d'.ask r = d.ask r := by
    intro r hr
    rw [hnew.ask, Function.update_of_ne (h.queue.apart.2.2 r hr x (by simp))]
  have hself : d'.ask x = a := by
    rw [hnew.ask, Function.update_self]
  have hmem : ∀ {P : ℤ → Prop}, (∀ r ∈ l, P r) → P x → ∀ r ∈ l ++ [x], P r := by
    intro P hl hx r hr
    rcases List.mem_append.mp hr with hr | hr
    · exact hl r hr
    · rwa [List.mem_singleton.mp hr]
  refine ⟨hlive, hpaths.append h.queue hprev hnew.ask, hcacheOf, ?_, hmem ?_ ?_,
    ?_, hmem ?_ ?_, hmem ?_ ?_, ?_, ?_⟩
  · rw [hnew.copy]
    exact h.blocks
  · intro r hr
    rw [hold r hr, hnew.suspended]
    obtain ⟨hid, hs⟩ := h.callers r hr
    refine ⟨hid, ?_⟩
    rw [Function.update_apply, hs, ite_self]
  · rw [hself, hnew.suspended]
    exact ⟨hpid, Function.update_self _ _ _⟩
  · rw [List.map_append, List.nodup_append,
      List.map_congr_left fun r hr => congrArg Ask.pid (hold r hr)]
    refine ⟨h.pids, by simp, ?_⟩
    intro p hp q hq
    obtain ⟨r, hr, rfl⟩ := List.mem_map.mp hp
    obtain rfl : q = a.pid := by simpa [hself] using hq
    intro heq
    rw [← heq, (h.callers r hr).2] at hrun
    cases hrun
  · intro r hr
    rw [hold r hr]
    exact h.nosync r hr
  · rwa [hself]
  · intro r hr
    rw [hold r hr, hnew.copy]
    exact h.fresh r hr
  · rw [hself, hnew.copy]
    exact hfresh
  · have hat := h.comm
    unfold CommAt at hat ⊢
    rw [hnew.comm]
    cases hc : d.comm with
    | reading rptr =>
        rw [hc] at hat
        obtain ⟨rest, rfl⟩ := hat
        exact ⟨rest ++ [x], rfl⟩
    | searching rptr tptr => exact absurd hc (hblocked rptr tptr)
    | waiting => trivial
    | writing => trivial
  · intro rptr hc
    rw [hnew.comm] at hc
    have hat := h.comm
    unfold CommAt at hat
    rw [hc] at hat
    obtain ⟨rest, hl⟩ := hat
    rw [hold rptr (by simp [hl])]
    exact h.reading rptr hc

/-- The requests are the same, with the same links and the same callers. -/
theorem FlowInv.edit
    {c' g' : List ℤ} (h : FlowInv d l f c g) (hnode : d'.qnode = d.qnode)
    (hhead : d'.rd_qhead = d.rd_qhead) (htail : d'.rd_qtail = d.rd_qtail)
    (hfree : d'.rd_qfree = d.rd_qfree) (hsusp : d'.suspended = d.suspended)
    (hcache : CacheOf d' c' g') (hblocks : (c'.map fun x => (d'.copy x).1).Nodup)
    (hfresh : ∀ r ∈ l, (d.ask r).op = .write → ∀ x ∈ c',
      (d'.copy x).1 ≠ (d.ask r).blk) (hcomm : CommAt d' l)
    (hreading : ∀ rptr, d'.comm = .reading rptr → (d.ask rptr).op = .read) :
    FlowInv d' l f c' g' := by
  have hask : d'.ask = d.ask := by
    unfold ask
    rw [hnode]
  have hprev : d'.qprev = d.qprev := by
    unfold qprev
    rw [hnode]
  obtain ⟨reached, hpaths⟩ := h.paths
  refine ⟨?_, ⟨reached, hpaths.live, ?_, ?_⟩, hcache, hblocks, ?_, ?_, ?_, ?_,
    hcomm, ?_⟩
  · have hqueue := h.queue
    unfold Live back qnext qprev at hqueue ⊢
    rwa [hnode, hhead, htail, hfree]
  · rw [hprev]
    exact hpaths.closed
  · rw [hask]
    exact hpaths.writes
  · rw [hask, hsusp]
    exact h.callers
  · rw [hask]
    exact h.pids
  · rw [hask]
    exact h.nosync
  · rw [hask]
    exact hfresh
  · rw [hask]
    exact hreading

theorem FlowInv.same
    (h : FlowInv d l f c g) (hnode : d'.qnode = d.qnode)
    (hhead : d'.rd_qhead = d.rd_qhead) (htail : d'.rd_qtail = d.rd_qtail)
    (hfree : d'.rd_qfree = d.rd_qfree) (hcache : SameCache d d')
    (hsusp : d'.suspended = d.suspended) (hcomm : CommAt d' l)
    (hreading : ∀ rptr, d'.comm = .reading rptr → (d.ask rptr).op = .read) :
    FlowInv d' l f c g := by
  apply h.edit hnode hhead htail hfree hsusp (hcache.cacheOf h.cache) _ _ hcomm
    hreading
  · rw [hcache.copy]
    exact h.blocks
  · rw [hcache.copy]
    exact h.fresh

/-! ## The device calls -/

/-- The block that `rdsread` finds without asking the server. -/
inductive ReadsFrom (d : Rdscblk Block) (l c : List ℤ) (blk : Word) :
    Block → Prop
  | cache {x : ℤ} {data : Block} (hx : x ∈ c)
      (hcopy : d.copy x = (blk, data)) : ReadsFrom d l c blk data
  | queue {r : ℤ}
      (hfind : l.reverse.find? (fun r => (d.ask r).blk = blk) = some r)
      (hop : (d.ask r).op = .write) :
      ReadsFrom d l c blk (d.buffers (d.ask r).buff)

theorem FlowInv.rdsread
    {status : Word} (h : FlowInv d l f c g) (hcan : d.canCall pid = true)
    (hcall : d.rdsread budget pid buff blk = some (d', status)) :
    (d' = d ∧ status = SYSERR) ∨ status = RD_BLKSIZ ∧
      ((∃ data, ReadsFrom d l c blk data ∧ FlowInv d' l f c g ∧
        d' = { d with rd_comruns := true }.copyTo buff data) ∨
      (∀ r, l.reverse.find? (fun r => (d.ask r).blk = blk) = some r →
        (d.ask r).op ≠ .write) ∧
        ∃ x f', FlowInv d' (l ++ [x]) f' c g ∧ x ∉ l ∧
          Enqueued d d' x ⟨.read, blk, buff, pid⟩) := by
  obtain ⟨hpid, hrun, hblocked⟩ := canCall_spec hcan
  unfold Rdscblk.rdsread at hcall
  split_ifs at hcall with hopen
  · rw [Option.some.injEq, Prod.mk.injEq] at hcall
    exact Or.inl ⟨hcall.1.symm, hcall.2.symm⟩
  · right
    dsimp only at hcall
    rw [Option.bind_eq_some_iff] at hcall
    obtain ⟨cptr, hcache, hcall⟩ := hcall
    split_ifs at hcall with hhit
    · rw [Option.some.injEq, Prod.mk.injEq] at hcall
      refine ⟨hcall.2.symm, Or.inl ?_⟩
      have hcptr := h.cache.list.chain.walk_eq h.cache.list.null hcache
      cases hfind : c.find? fun x => decide ((d.cnode x).rd_blknum = blk) with
      | none =>
          exact absurd (hcptr.trans (by rw [hfind]; rfl)) hhit
      | some x =>
          obtain rfl : cptr = x := hcptr.trans (by rw [hfind]; rfl)
          have hblk : (d.cnode cptr).rd_blknum = blk := by
            simpa using List.find?_some hfind
          refine ⟨(d.cnode cptr).rd_data, ?_, ?_, hcall.1.symm⟩
          · exact .cache (List.mem_of_find?_eq_some hfind) (Prod.ext hblk rfl)
          · rw [← hcall.1]
            exact h.same rfl rfl rfl rfl ⟨rfl, rfl, rfl, rfl⟩ rfl h.comm h.reading
    · rw [Option.map_eq_some_iff] at hcall
      obtain ⟨rptr, hfound, hcall⟩ := hcall
      obtain ⟨reached, hpaths⟩ := h.paths
      have hsearch := hpaths.searchBack h.queue hfound
      split_ifs at hcall with hwrite
      · rw [Prod.mk.injEq] at hcall
        refine ⟨hcall.2.symm, Or.inl ?_⟩
        have hfind := hsearch.resolve_right fun hmiss => hmiss.2 hwrite
        refine ⟨_, .queue hfind hwrite.2, ?_, hcall.1.symm⟩
        rw [← hcall.1]
        exact h.same rfl rfl rfl rfl ⟨rfl, rfl, rfl, rfl⟩ rfl h.comm h.reading
      · refine ⟨(Prod.mk.inj hcall).2.symm, Or.inr ⟨?_, ?_⟩⟩
        · intro r hr hop
          rcases hsearch with hhit | ⟨hmiss, -⟩
          · rw [hhit, Option.some.injEq] at hr
            subst hr
            have hmem := List.mem_of_find?_eq_some hhit
            exact hwrite ⟨h.queue.list.ne_null (by simpa using hmem), hop⟩
          · rw [hmiss] at hr
            cases hr
        · obtain ⟨x, f', rfl⟩ := exists_free_node h.queue.perm h.callers h.pids
            hpid hrun
          have hready : FlowInv { d with rd_comruns := true } l (x :: f') c g :=
            h.same rfl rfl rfl rfl ⟨rfl, rfl, rfl, rfl⟩ rfl h.comm h.reading
          obtain ⟨hx, hfill⟩ := request_filled
            (show ({ d with rd_comruns := true } : Rdscblk Block).rd_qfree = x
              from h.queue.free.1) .read blk buff pid
          rw [Prod.mk.injEq, hx] at hcall
          obtain ⟨rfl, -⟩ := hcall
          have hnodes := hfill.nodes hready.queue
          obtain ⟨hinv, hnew⟩ := hready.insert hfill hpid hrun (by simp) (by simp)
            hblocked (readInsert_appended
              (hnodes.list.head_eq_null_iff.trans
                hnodes.list.tail_eq_null_iff.symm)
              (hnodes.tail_free_ne (by simp)))
            (readInsert_sameCache _ x) (readInsert_sameOwners _ x)
            (ask_readInsert _ x)
          refine ⟨x, f', hinv, ?_, hnew.ask, hnew.copy, hnew.buffers,
            hnew.suspended, hnew.comm⟩
          exact fun hmem => h.queue.apart.2.2 x hmem x (by simp) rfl

/-- `rdswrite` drops the block from the cache. -/
theorem FlowInv.uncached
    {cptr : ℤ} (h : FlowInv d l f c g)
    (hfound : d.cacheSearch blk budget = some cptr) :
    ∃ c' g', FlowInv (if cptr ≠ NULL then d.rdcunlink cptr else d) l f c' g' ∧
      c'.Sublist c ∧ ∀ y ∈ c', (d.copy y).1 ≠ blk := by
  have hcptr := h.cache.list.chain.walk_eq h.cache.list.null hfound
  cases hfind : c.find? fun x => decide ((d.cnode x).rd_blknum = blk) with
  | none =>
      rw [hfind] at hcptr
      obtain rfl : cptr = NULL := hcptr
      rw [if_neg (by simp)]
      refine ⟨c, g, h, .refl c, ?_⟩
      intro y hy
      have hmiss := List.find?_eq_none.mp hfind y hy
      exact fun heq => hmiss (decide_eq_true heq)
  | some x =>
      rw [hfind] at hcptr
      obtain rfl : cptr = x := hcptr
      have hmem := List.mem_of_find?_eq_some hfind
      have hstop := List.find?_some hfind
      have hblk : (d.copy cptr).1 = blk := of_decide_eq_true hstop
      rw [if_pos (h.cache.list.ne_null hmem)]
      obtain ⟨xs, ys, rfl⟩ := List.append_of_mem hmem
      obtain ⟨hhead, htail, hfree, hnode, hcomm, hsusp⟩ :=
        rdcunlink_sameQueue d cptr
      have hcopy := copy_rdcunlink d cptr
      have hsub : (xs ++ ys).Sublist (xs ++ cptr :: ys) :=
        (List.sublist_cons_self cptr ys).append_left xs
      refine ⟨xs ++ ys, cptr :: g, ?_, hsub, ?_⟩
      · apply h.edit hnode hhead htail hfree hsusp h.cache.unlink
        · rw [hcopy]
          exact h.blocks.sublist (hsub.map _)
        · rw [hcopy]
          exact fun r hr hop y hy => h.fresh r hr hop y (hsub.subset hy)
        · unfold CommAt qnext
          rw [hcomm, hnode]
          exact h.comm
        · rw [hcomm]
          exact h.reading
      · intro y hy heq
        have hnodup := h.blocks
        rw [List.map_append, List.map_cons, List.nodup_middle,
          ← List.map_append, List.nodup_cons, hblk, ← heq] at hnodup
        exact hnodup.1 (List.mem_map_of_mem hy)

theorem FlowInv.rdswrite
    {status : Word} (h : FlowInv d l f c g) (hcan : d.canCall pid = true)
    (hcall : d.rdswrite budget pid buff blk = some (d', status)) :
    (d' = d ∧ status = SYSERR) ∨
      status = OK ∧ ∃ x f' c' g', FlowInv d' (l ++ [x]) f' c' g' ∧ x ∉ l ∧
        c'.Sublist c ∧ (∀ y ∈ c', (d.copy y).1 ≠ blk) ∧
          Enqueued d d' x ⟨.write, blk, buff, pid⟩ := by
  obtain ⟨hpid, hrun, hblocked⟩ := canCall_spec hcan
  unfold Rdscblk.rdswrite at hcall
  split_ifs at hcall with hopen
  · rw [Option.some.injEq, Prod.mk.injEq] at hcall
    exact Or.inl ⟨hcall.1.symm, hcall.2.symm⟩
  · right
    dsimp only at hcall
    rw [Option.map_eq_some_iff] at hcall
    obtain ⟨cptr, hfound, hcall⟩ := hcall
    have hready : FlowInv { d with rd_comruns := true } l f c g :=
      h.same rfl rfl rfl rfl ⟨rfl, rfl, rfl, rfl⟩ rfl h.comm h.reading
    obtain ⟨c', g', hun, hsub, hgone⟩ := hready.uncached hfound
    rw [Prod.mk.injEq] at hcall
    obtain ⟨rfl, rfl⟩ := hcall
    have hsame : SameOwners { d with rd_comruns := true }
        (if cptr ≠ NULL then { d with rd_comruns := true }.rdcunlink cptr
        else { d with rd_comruns := true }) ∧
        (if cptr ≠ NULL then { d with rd_comruns := true }.rdcunlink cptr
        else { d with rd_comruns := true }).copy = d.copy ∧
        (if cptr ≠ NULL then { d with rd_comruns := true }.rdcunlink cptr
        else { d with rd_comruns := true }).ask = d.ask := by
      split_ifs
      · exact ⟨rdcunlink_sameOwners _ cptr, copy_rdcunlink _ cptr,
          funext fun y => by
            unfold ask
            rw [(rdcunlink_sameQueue _ cptr).qnode]⟩
      · exact ⟨⟨rfl, rfl, rfl⟩, rfl, rfl⟩
    generalize (if cptr ≠ NULL then { d with rd_comruns := true }.rdcunlink cptr
        else { d with rd_comruns := true }) = d₀ at hun hsame ⊢
    obtain ⟨⟨hbuffers, hsusp, hcomm⟩, hcopy, hask⟩ := hsame
    have hrun₀ : d₀.suspended pid = false := by
      rw [hsusp]
      exact hrun
    have hblocked₀ : ∀ rptr tptr, d₀.comm ≠ .searching rptr tptr := by
      rw [hcomm]
      exact hblocked
    obtain ⟨x, f', rfl⟩ := exists_free_node hun.queue.perm hun.callers hun.pids
      hpid hrun₀
    obtain ⟨hx, hfill⟩ := request_filled (show d₀.rd_qfree = x
      from hun.queue.free.1) .write blk buff pid
    rw [hx]
    have hgone₀ : ∀ y ∈ c', (d₀.copy y).1 ≠ blk := by
      rw [hcopy]
      exact hgone
    obtain ⟨hinv, hnew⟩ := hun.insert hfill hpid hrun₀ (by simp)
      (fun _ => hgone₀) hblocked₀ (rdqinsert_appended _ x)
      (rdqinsert_sameCache _ x) (rdqinsert_sameOwners _ x) (ask_rdqinsert _ x)
    refine ⟨rfl, x, f', c', g', hinv, ?_, hsub, hgone, ?_, hnew.copy.trans hcopy,
      hnew.buffers.trans hbuffers, ?_, hnew.comm.trans hcomm⟩
    · exact fun hmem => hun.queue.apart.2.2 x hmem x (by simp) rfl
    · rw [hnew.ask, hask]
    · rw [hnew.suspended, hsusp]

/-- A disk without requests is synchronized at once. -/
theorem FlowInv.rdscontrolSync
    (h : FlowInv d l f c g) (hempty : d.rd_qhead = NULL) :
    FlowInv (d.rdscontrolSync pid).1 l f c g ∧
      ((d.rdscontrolSync pid).1 = d ∨
        (d.rdscontrolSync pid).1 = { d with rd_comruns := true }) := by
  unfold Rdscblk.rdscontrolSync
  split_ifs
  · exact ⟨h, Or.inl rfl⟩
  · dsimp only
    rw [if_pos hempty]
    exact ⟨h.same rfl rfl rfl rfl ⟨rfl, rfl, rfl, rfl⟩ rfl h.comm h.reading,
      Or.inr rfl⟩

/-! ## The communication process -/

theorem FlowInv.commTake
    (h : FlowInv d l f c g) (hcomm : d.comm = .waiting) :
    ∃ comm, d.commTake = { d with
        rd_comsem := d.rd_comsem - 1
        comm := comm } ∧
      FlowInv d.commTake l f c g ∧
      (comm = .waiting ∨
        ∃ r rest, l = r :: rest ∧
          (comm = .reading r ∨ comm = .searching r (d.qnext r))) := by
  unfold Rdscblk.commTake
  dsimp only
  split_ifs with hempty
  · refine ⟨.waiting, by rw [← hcomm], ?_, Or.inl rfl⟩
    exact h.same rfl rfl rfl rfl ⟨rfl, rfl, rfl, rfl⟩ rfl h.comm h.reading
  · have hhead := h.queue.list.chain
    cases l with
    | nil => exact absurd hhead hempty
    | cons x l =>
        obtain rfl : x = d.rd_qhead := hhead.1.symm
        cases hop : (d.qnode d.rd_qhead).rd_op with
        | sync => exact absurd hop (h.nosync _ (by simp))
        | read =>
            have hinv : FlowInv { d with
                rd_comsem := d.rd_comsem - 1
                comm := .reading d.rd_qhead } (d.rd_qhead :: l) f c g := by
              refine h.same rfl rfl rfl rfl ⟨rfl, rfl, rfl, rfl⟩ rfl ⟨l, rfl⟩ ?_
              intro rptr hrptr
              obtain rfl : d.rd_qhead = rptr := Comm.reading.inj hrptr
              exact hop
            exact ⟨_, rfl, hinv, Or.inr ⟨_, _, rfl, Or.inl rfl⟩⟩
        | write =>
            have hinv : FlowInv { d with
                rd_comsem := d.rd_comsem - 1
                comm := .searching d.rd_qhead (d.qnext d.rd_qhead) }
                (d.rd_qhead :: l) f c g := by
              refine h.same rfl rfl rfl rfl ⟨rfl, rfl, rfl, rfl⟩ rfl
                ⟨l, rfl, rfl, hop⟩ ?_
              intro rptr hrptr
              cases hrptr
            exact ⟨_, rfl, hinv, Or.inr ⟨_, _, rfl, Or.inr rfl⟩⟩

/-- A write has left the queue, and is on its way to the server. -/
structure Sent
    (d d' : Rdscblk Block) (rptr : ℤ) (l c c' : List ℤ) : Prop where
  ask : d'.ask = d.ask
  buffers : d'.buffers = d.buffers
  suspended : d'.suspended =
    Function.update d.suspended (d.ask rptr).pid false
  comm : d'.comm = .writing
  later : l = [] ∨ ∃ r ∈ l, (d.ask r).op = .write ∧
    (d.ask r).blk = (d.ask rptr).blk
  copies : ∀ x ∈ c',
    l = [] ∧ d'.copy x = ((d.ask rptr).blk, d.buffers (d.ask rptr).buff) ∨
      x ∈ c ∧ d'.copy x = d.copy x

/-- The first request, a write, leaves the queue. -/
theorem FlowInv.leave
    {rptr : ℤ} {l c' g' : List ℤ} (h : FlowInv d (rptr :: l) f c g)
    (hsame : SameQueue d d₁) (howners : SameOwners d d₁) (hcache : CacheOf d₁ c' g')
    (hblocks : (c'.map fun x => (d₁.copy x).1).Nodup)
    (hfresh : ∀ r ∈ l, (d.ask r).op = .write → ∀ x ∈ c',
      (d₁.copy x).1 ≠ (d.ask r).blk)
    (hlater : l = [] ∨ ∃ r rest, l = r :: rest ∧ (d.ask r).op = .write ∧
      (d.ask r).blk = (d.ask rptr).blk)
    (hcopies : ∀ x ∈ c',
      l = [] ∧ d₁.copy x = ((d.ask rptr).blk, d.buffers (d.ask rptr).buff) ∨
        x ∈ c ∧ d₁.copy x = d.copy x) :
    ∃ f', FlowInv { ((d₁.resume (d₁.qnode rptr).rd_pid).rdqunlink rptr).1 with
        comm := .writing } l f' c' g' ∧
      Sent d { ((d₁.resume (d₁.qnode rptr).rd_pid).rdqunlink rptr).1 with
        comm := .writing } rptr l c c' := by
  obtain ⟨hhead, htail, hfree, hnode, -, -⟩ := hsame
  obtain ⟨hbuffers, hsusp, -⟩ := howners
  obtain ⟨reached, hpaths⟩ := h.paths
  have hask : d₁.ask = d.ask := by
    unfold ask
    rw [hnode]
  have hprev : d₁.qprev = d.qprev := by
    unfold qprev
    rw [hnode]
  have hpid : (d₁.qnode rptr).rd_pid = (d.ask rptr).pid := by
    rw [hnode]
    rfl
  have hlive : Live (d₁.resume (d₁.qnode rptr).rd_pid) (rptr :: l) f := by
    have hqueue := h.queue
    unfold Live back qnext qprev at hqueue ⊢
    show Nodes (fun x => (d₁.qnode x).rd_next) (Function.update
      (fun x => (d₁.qnode x).rd_prev) d₁.rd_qhead NULL) d₁.rd_qhead
      d₁.rd_qtail d₁.rd_qfree RD_QNODES (rptr :: l) f
    rwa [hnode, hhead, htail, hfree]
  have hready : BackPaths (d₁.resume (d₁.qnode rptr).rd_pid) ([] ++ rptr :: l)
      reached := by
    refine ⟨hpaths.live, ?_, ?_⟩
    · show ∀ x ∈ reached, d₁.qprev x = NULL ∨ d₁.qprev x ∈ reached
      rw [hprev]
      exact hpaths.closed
    · show ∀ x ∈ reached, x ∉ rptr :: l → (d₁.ask x).op = .write →
        ∃ r rest, rptr :: l = r :: rest ∧ (d₁.ask r).op = .write ∧
          (d₁.ask r).blk = (d₁.ask x).blk
      rw [hask]
      exact hpaths.writes
  have hgone : ∀ y ∈ reached, y ∉ l → (d.ask y).op = .write →
      (d.ask y).blk = (d.ask rptr).blk := by
    intro y hy hout hwrite
    by_cases hyr : y = rptr
    · rw [hyr]
    · obtain ⟨r, rest, heq, -, hblk⟩ := hpaths.writes y hy (by simp [hyr, hout])
        hwrite
      obtain ⟨rfl, rfl⟩ := List.cons.inj heq
      exact hblk.symm
  have hleft : Live ((d₁.resume (d₁.qnode rptr).rd_pid).rdqunlink rptr).1
      ([] ++ l) (rptr :: f) := Live.unlink hlive
  have howners' := rdqunlink_sameOwners
    (d₁.resume (d₁.qnode rptr).rd_pid) rptr
  have hask' : ((d₁.resume (d₁.qnode rptr).rd_pid).rdqunlink rptr).1.ask =
      d.ask := (ask_rdqunlink _ rptr).trans hask
  have hcache' := rdqunlink_sameCache (d₁.resume (d₁.qnode rptr).rd_pid) rptr
  have hpaths' : ∃ reached, BackPaths
      ((d₁.resume (d₁.qnode rptr).rd_pid).rdqunlink rptr).1 l reached := by
    rcases hlater with rfl | ⟨r, rest, rfl, hwrite, hblk⟩
    · exact ⟨∅, .nil _⟩
    · refine ⟨reached, hready.unlink ?_⟩
      intro y hy hout hop'
      refine ⟨r, rest, rfl, ?_⟩
      have hop'' : (d₁.ask y).op = .write := hop'
      rw [hask] at hop''
      show (d₁.ask r).op = .write ∧ (d₁.ask r).blk = (d₁.ask y).blk
      rw [hask]
      exact ⟨hwrite, hblk.trans (hgone y hy hout hop'').symm⟩
  have hsusp' : ((d₁.resume (d₁.qnode rptr).rd_pid).rdqunlink rptr).1.suspended =
      Function.update d.suspended (d.ask rptr).pid false := by
    rw [howners'.suspended, ← hpid, ← hsusp]
    rfl
  have hcopy : ((d₁.resume (d₁.qnode rptr).rd_pid).rdqunlink rptr).1.copy =
      d₁.copy := hcache'.copy
  have hstored : CacheOf ((d₁.resume (d₁.qnode rptr).rd_pid).rdqunlink rptr).1
      c' g' := hcache'.cacheOf hcache
  have hbuffers' : ((d₁.resume (d₁.qnode rptr).rd_pid).rdqunlink rptr).1.buffers =
      d.buffers := howners'.buffers.trans hbuffers
  generalize ((d₁.resume (d₁.qnode rptr).rd_pid).rdqunlink rptr).1 = d₃
    at hleft hask' hpaths' hsusp' hcopy hstored hbuffers' ⊢
  have hnodup := h.pids
  rw [List.map_cons, List.nodup_cons] at hnodup
  refine ⟨rptr :: f, ⟨hleft, ?_, hstored, ?_, ?_, ?_, ?_, ?_, trivial, ?_⟩,
    hask', hbuffers', hsusp', rfl, ?_, ?_⟩
  · obtain ⟨reached', hp⟩ := hpaths'
    exact ⟨reached', hp.live, hp.closed, hp.writes⟩
  · show (c'.map fun x => (d₃.copy x).1).Nodup
    rw [hcopy]
    exact hblocks
  · intro r hr
    show ProcId (d₃.ask r).pid ∧ d₃.suspended (d₃.ask r).pid = true
    rw [hask', hsusp', Function.update_of_ne]
    · exact h.callers r (by simp [hr])
    · intro heq
      rw [← heq] at hnodup
      exact hnodup.1 (List.mem_map.mpr ⟨r, hr, rfl⟩)
  · show (l.map fun r => (d₃.ask r).pid).Nodup
    rw [hask']
    exact hnodup.2
  · show ∀ r ∈ l, (d₃.ask r).op ≠ .sync
    rw [hask']
    exact fun r hr => h.nosync r (by simp [hr])
  · show ∀ r ∈ l, (d₃.ask r).op = .write → ∀ x ∈ c',
      (d₃.copy x).1 ≠ (d₃.ask r).blk
    rw [hask', hcopy]
    exact hfresh
  · intro rptr' hcomm
    cases hcomm
  · rcases hlater with hl | ⟨r, rest, rfl, hlater⟩
    · exact Or.inl hl
    · exact Or.inr ⟨r, by simp, hlater⟩
  · show ∀ x ∈ c',
      l = [] ∧ d₃.copy x = ((d.ask rptr).blk, d.buffers (d.ask rptr).buff) ∨
        x ∈ c ∧ d₃.copy x = d.copy x
    rw [hcopy]
    exact hcopies

theorem FlowInv.searchTurn
    {rptr tptr : ℤ} (h : FlowInv d l f c g)
    (hcomm : d.comm = .searching rptr tptr) :
    d.searchTurn rptr tptr = d ∨
      (d.ask rptr).op = .write ∧ ∃ rest f' c' g', l = rptr :: rest ∧
        FlowInv (d.searchTurn rptr tptr) rest f' c' g' ∧
          Sent d (d.searchTurn rptr tptr) rptr rest c c' := by
  have hat := h.comm
  unfold CommAt at hat
  rw [hcomm] at hat
  obtain ⟨rest, rfl, htptr, hop⟩ := hat
  have hchain := h.queue.list.chain.2
  rw [← htptr] at hchain
  unfold Rdscblk.searchTurn
  dsimp only
  by_cases hmore : tptr ≠ NULL ∧
      ¬ ((d.qnode tptr).rd_blknum = (d.qnode rptr).rd_blknum ∧
        (d.qnode tptr).rd_op = .write)
  · exact Or.inl (if_pos hmore)
  · rw [if_neg hmore]
    right
    refine ⟨hop, rest, ?_⟩
    by_cases hend : tptr = NULL
    · rw [if_pos hend]
      have hrest : rest = [] := by
        rw [hend] at hchain
        cases rest with
        | nil => rfl
        | cons y rest =>
            exact absurd hchain.1.symm (h.queue.list.ne_null (x := y) (by simp))
      subst hrest
      obtain ⟨c', g', hsub, hcache, -, -⟩ := h.cache.insert
        (d.ask rptr).blk (d.buffers (d.ask rptr).buff)
      have hcopy := copy_rdcinsert d (d.ask rptr).blk (d.buffers (d.ask rptr).buff)
      have hout : ∀ y ∈ c', y ≠ d.takeCnode.2 := by
        rintro y hy rfl
        exact (List.nodup_cons.mp hcache.apart.1).1 hy
      have hblocks : ((d.takeCnode.2 :: c').map fun y =>
          ((d.rdcinsert (d.ask rptr).blk
            (d.buffers (d.ask rptr).buff)).copy y).1).Nodup := by
        rw [hcopy, List.map_cons, Function.update_self,
          List.map_congr_left fun y hy => by
            rw [Function.update_of_ne (hout y hy)], List.nodup_cons]
        refine ⟨?_, h.blocks.sublist (hsub.map _)⟩
        intro hmem
        obtain ⟨y, hy, heq⟩ := List.mem_map.mp hmem
        exact h.fresh rptr (by simp) hop y (hsub.subset hy) heq
      obtain ⟨f', hinv, hsent⟩ := h.leave
        (rdcinsert_sameQueue d (d.ask rptr).blk (d.buffers (d.ask rptr).buff))
        (rdcinsert_sameOwners d (d.ask rptr).blk (d.buffers (d.ask rptr).buff))
        hcache hblocks (by simp) (Or.inl rfl) (by
          intro x hx
          rw [hcopy]
          rcases List.mem_cons.mp hx with rfl | hx
          · left
            rw [Function.update_self]
            exact ⟨rfl, rfl⟩
          · right
            rw [Function.update_of_ne (hout x hx)]
            exact ⟨hsub.subset hx, rfl⟩)
      exact ⟨f', _, g', rfl, hinv, hsent⟩
    · rw [if_neg hend]
      have hlater : (d.qnode tptr).rd_blknum = (d.qnode rptr).rd_blknum ∧
          (d.qnode tptr).rd_op = .write := by
        by_contra hnot
        exact hmore ⟨hend, hnot⟩
      cases rest with
      | nil => exact absurd hchain hend
      | cons y rest =>
          obtain rfl : tptr = y := hchain.1
          obtain ⟨f', hinv, hsent⟩ := h.leave
            ⟨rfl, rfl, rfl, rfl, rfl, rfl⟩ ⟨rfl, rfl, rfl⟩ h.cache h.blocks
            (fun r hr => h.fresh r (by simp [hr]))
            (Or.inr ⟨tptr, rest, rfl, hlater.2, hlater.1⟩)
            (fun x hx => Or.inr ⟨hx, rfl⟩)
          exact ⟨f', c, g, rfl, hinv, hsent⟩

end Invariant

/-! ## The answer to a read request -/

section Answer

variable {ask : ℤ → Ask} {blk : Word} {l : List ℤ} {r : ℤ}

/-- The requests that stay when the reads of a block are answered. -/
def remain (ask : ℤ → Ask) (blk : Word) : List ℤ → List ℤ
  | [] => []
  | r :: rest =>
      if (ask r).blk ≠ blk then r :: remain ask blk rest
      else
        match (ask r).op with
        | .write => r :: rest
        | .read => remain ask blk rest
        | .sync => r :: remain ask blk rest

/-- The reads that are answered. -/
def answered (ask : ℤ → Ask) (blk : Word) : List ℤ → List ℤ
  | [] => []
  | r :: rest =>
      if (ask r).blk ≠ blk then answered ask blk rest
      else
        match (ask r).op with
        | .write => []
        | .read => r :: answered ask blk rest
        | .sync => answered ask blk rest

theorem remain_answered_perm (ask : ℤ → Ask) (blk : Word) (l : List ℤ) :
    (remain ask blk l ++ answered ask blk l).Perm l := by
  induction l with
  | nil => exact .nil
  | cons r rest ih =>
      unfold remain answered
      split_ifs
      · exact ih.cons r
      · cases (ask r).op with
        | write => simp
        | read => exact List.perm_middle.trans (ih.cons r)
        | sync => exact ih.cons r

theorem remain_sublist (ask : ℤ → Ask) (blk : Word) (l : List ℤ) :
    (remain ask blk l).Sublist l := by
  induction l with
  | nil => exact .slnil
  | cons r rest ih =>
      unfold remain
      split_ifs
      · exact ih.cons_cons r
      · cases (ask r).op with
        | write => exact .refl _
        | read => exact ih.cons r
        | sync => exact ih.cons_cons r

theorem mem_answered (hr : r ∈ answered ask blk l) :
    r ∈ l ∧ (ask r).op = .read ∧ (ask r).blk = blk := by
  induction l with
  | nil => cases hr
  | cons x rest ih =>
      unfold answered at hr
      split_ifs at hr with hblk
      · obtain ⟨hmem, hread⟩ := ih hr
        exact ⟨by simp [hmem], hread⟩
      · cases hop : (ask x).op with
        | write =>
            rw [hop] at hr
            cases hr
        | read =>
            rw [hop] at hr
            rcases List.mem_cons.mp hr with rfl | hr
            · exact ⟨by simp, hop, not_not.mp hblk⟩
            · obtain ⟨hmem, hread⟩ := ih hr
              exact ⟨by simp [hmem], hread⟩
        | sync =>
            rw [hop] at hr
            obtain ⟨hmem, hread⟩ := ih hr
            exact ⟨by simp [hmem], hread⟩

/-- The answer leaves the writes where they are. -/
theorem filter_remain
    {p : ℤ → Bool} (hp : ∀ r, p r = true → (ask r).op = .write) :
    (remain ask blk l).filter p = l.filter p := by
  induction l with
  | nil => rfl
  | cons r rest ih =>
      unfold remain
      split_ifs
      · rw [List.filter_cons, List.filter_cons, ih]
      · cases hop : (ask r).op with
        | write => rfl
        | read =>
            have hout : ¬ p r = true := by
              intro hpr
              rw [hp r hpr] at hop
              cases hop
            rw [List.filter_cons_of_neg hout]
            exact ih
        | sync =>
            dsimp only
            rw [List.filter_cons, List.filter_cons, ih]

theorem find_reverse_remain
    {p : ℤ → Bool} (hp : ∀ r, p r = true → (ask r).op = .write) :
    (remain ask blk l).reverse.find? p = l.reverse.find? p := by
  rw [← List.head?_filter, ← List.head?_filter, List.filter_reverse,
    List.filter_reverse, filter_remain hp]

end Answer

/-- The callers of `gone` have received `data` and go on. -/
structure Delivered
    (d d' : Rdscblk Block) (gone : List ℤ) (data : Block) : Prop where
  filled : ∀ r ∈ gone, d'.buffers (d.ask r).buff = data
  kept : ∀ buff, (∀ r ∈ gone, (d.ask r).buff ≠ buff) →
    d'.buffers buff = d.buffers buff
  resumed : ∀ r ∈ gone, d'.suspended (d.ask r).pid = false
  others : ∀ pid, (∀ r ∈ gone, (d.ask r).pid ≠ pid) →
    d'.suspended pid = d.suspended pid

/-- No write has been freed among the nodes that a search can reach. -/
structure Clean (d : Rdscblk Block) (l : List ℤ) (reached : Set ℤ) : Prop where
  live : ∀ x ∈ l, x ∈ reached
  closed : ∀ x ∈ reached, d.qprev x = NULL ∨ d.qprev x ∈ reached
  nowrite : ∀ x ∈ reached, x ∉ l → (d.ask x).op ≠ .write

section Satisfy

variable {d d₁ d' : Rdscblk Block} {l f c g xs ys gone : List ℤ} {x rptr : ℤ}
  {reached : Set ℤ} {blk : Word} {data : Block} {budget : ℕ}

theorem Clean.paths (h : Clean d l reached) : BackPaths d l reached :=
  ⟨h.live, h.closed, fun x hx hout hop => absurd hop (h.nowrite x hx hout)⟩

theorem Clean.unlink
    (h : Clean d (xs ++ x :: ys) reached) (hop : (d.ask x).op ≠ .write) :
    Clean (d.rdqunlink x).1 (xs ++ ys) reached := by
  have hout : ∀ y ∈ reached, y ∉ xs ++ ys → (d.ask y).op ≠ .write := by
    intro y hy hmem
    by_cases hyx : y = x
    · rwa [hyx]
    · exact h.nowrite y hy (by simp at hmem ⊢; tauto)
  have hpaths := h.paths.unlink
    fun y hy hmem hwrite => absurd hwrite (hout y hy hmem)
  refine ⟨hpaths.live, hpaths.closed, ?_⟩
  rw [ask_rdqunlink]
  exact hout

theorem Delivered.nil (d : Rdscblk Block) (data : Block) :
    Delivered d d [] data :=
  ⟨by simp, by simp, by simp, by simp⟩

theorem Delivered.cons
    (hask : d₁.ask = d.ask)
    (hbuffers : d₁.buffers = Function.update d.buffers (d.ask x).buff data)
    (hsusp : d₁.suspended = Function.update d.suspended (d.ask x).pid false)
    (h : Delivered d₁ d' gone data) : Delivered d d' (x :: gone) data := by
  obtain ⟨hfilled, hkept, hresumed, hothers⟩ := h
  rw [hask] at hfilled hkept hresumed hothers
  refine ⟨?_, ?_, ?_, ?_⟩
  · intro r hr
    by_cases hlater : ∃ r' ∈ gone, (d.ask r').buff = (d.ask r).buff
    · obtain ⟨r', hr', heq⟩ := hlater
      rw [← heq]
      exact hfilled r' hr'
    · obtain rfl : r = x := by
        rcases List.mem_cons.mp hr with heq | hmem
        · exact heq
        · exact absurd ⟨r, hmem, rfl⟩ hlater
      rw [hkept _ fun r' hr' heq => hlater ⟨r', hr', heq⟩, hbuffers,
        Function.update_self]
  · intro buff hout
    rw [hkept buff fun r hr => hout r (by simp [hr]), hbuffers,
      Function.update_of_ne (hout x (by simp)).symm]
  · intro r hr
    by_cases hlater : ∃ r' ∈ gone, (d.ask r').pid = (d.ask r).pid
    · obtain ⟨r', hr', heq⟩ := hlater
      rw [← heq]
      exact hresumed r' hr'
    · obtain rfl : r = x := by
        rcases List.mem_cons.mp hr with heq | hmem
        · exact heq
        · exact absurd ⟨r, hmem, rfl⟩ hlater
      rw [hothers _ fun r' hr' heq => hlater ⟨r', hr', heq⟩, hsusp,
        Function.update_self]
  · intro pid hout
    rw [hothers pid fun r hr => hout r (by simp [hr]), hsusp,
      Function.update_of_ne (hout x (by simp)).symm]

/-- What the answer of reads leaves. -/
structure Answered
    (d d' : Rdscblk Block) (l gone : List ℤ) (reached : Set ℤ) (data : Block) :
    Prop where
  live : ∃ f', Live d' l f'
  clean : Clean d' l reached
  delivered : Delivered d d' gone data
  ask : d'.ask = d.ask
  cache : SameCache d d'
  comm : d'.comm = d.comm

theorem Answered.cons
    (hlive : Live d (xs ++ x :: ys) f)
    (hclean : Clean d (xs ++ x :: ys) reached) (hop : (d.ask x).op ≠ .write)
    (hrest : Live (((d.copyTo (d.ask x).buff data).resume
        (d.ask x).pid).rdqunlink x).1 (xs ++ ys) (x :: f) →
      Clean (((d.copyTo (d.ask x).buff data).resume
        (d.ask x).pid).rdqunlink x).1 (xs ++ ys) reached →
      Answered (((d.copyTo (d.ask x).buff data).resume
        (d.ask x).pid).rdqunlink x).1 d' l gone reached data) :
    Answered d d' l (x :: gone) reached data := by
  have hready : Live ((d.copyTo (d.ask x).buff data).resume (d.ask x).pid)
      (xs ++ x :: ys) f := hlive
  have hready' : Clean ((d.copyTo (d.ask x).buff data).resume (d.ask x).pid)
      (xs ++ x :: ys) reached := ⟨hclean.live, hclean.closed, hclean.nowrite⟩
  obtain ⟨hbuffers, hsusp, hcomm⟩ := rdqunlink_sameOwners
    ((d.copyTo (d.ask x).buff data).resume (d.ask x).pid) x
  have hask := ask_rdqunlink
    ((d.copyTo (d.ask x).buff data).resume (d.ask x).pid) x
  have hcache := rdqunlink_sameCache
    ((d.copyTo (d.ask x).buff data).resume (d.ask x).pid) x
  obtain ⟨hl, hc, hdelivered, hask', hcache', hcomm'⟩ :=
    hrest hready.unlink (hready'.unlink hop)
  exact ⟨hl, hc, hdelivered.cons hask hbuffers hsusp, hask'.trans hask,
    ⟨hcache'.chead.trans hcache.chead, hcache'.ctail.trans hcache.ctail,
      hcache'.cfree.trans hcache.cfree, hcache'.cnode.trans hcache.cnode⟩,
    hcomm'.trans hcomm⟩

theorem satisfy_answered
    (hlive : Live d (xs ++ ys) f) (hclean : Clean d (xs ++ ys) reached)
    (hdone : satisfy blk data budget (ys.head?.getD NULL) d = some d') :
    Answered d d' (xs ++ remain d.ask blk ys) (answered d.ask blk ys) reached
      data := by
  induction budget generalizing d xs ys f with
  | zero => simp [Rdscblk.satisfy] at hdone
  | succ budget ih =>
      cases ys with
      | nil =>
          rw [Rdscblk.satisfy, List.head?_nil, Option.getD_none, if_pos rfl]
            at hdone
          obtain rfl := Option.some.inj hdone
          exact ⟨⟨f, hlive⟩, hclean, .nil d data, rfl, ⟨rfl, rfl, rfl, rfl⟩, rfl⟩
      | cons x ys =>
          have hxn : x ≠ NULL := hlive.list.ne_null (by simp)
          have hnext : d.qnext x = ys.head?.getD NULL := hlive.next_eq
          have hskip : satisfy blk data budget (d.qnext x) d = some d' →
              Answered d d' (xs ++ x :: remain d.ask blk ys)
                (answered d.ask blk ys) reached data := by
            intro hdone
            rw [hnext] at hdone
            have hlive' : Live d ((xs ++ [x]) ++ ys) f := by simpa using hlive
            have hmoved := ih hlive' (by simpa using hclean) hdone
            simpa using hmoved
          rw [Rdscblk.satisfy, List.head?_cons, Option.getD_some, if_neg hxn]
            at hdone
          unfold remain answered
          by_cases hblk : (d.ask x).blk ≠ blk
          · rw [if_pos hblk, if_pos hblk]
            rw [if_pos (show (d.qnode x).rd_blknum ≠ blk from hblk)] at hdone
            exact hskip hdone
          · rw [if_neg hblk, if_neg hblk]
            rw [if_neg (show ¬ (d.qnode x).rd_blknum ≠ blk from hblk)] at hdone
            cases hop : (d.ask x).op with
            | write =>
                rw [show (d.qnode x).rd_op = .write from hop] at hdone
                obtain rfl := Option.some.inj hdone
                exact ⟨⟨f, hlive⟩, hclean, .nil d data, rfl,
                  ⟨rfl, rfl, rfl, rfl⟩, rfl⟩
            | sync =>
                rw [show (d.qnode x).rd_op = .sync from hop] at hdone
                exact hskip hdone
            | read =>
                rw [show (d.qnode x).rd_op = .read from hop] at hdone
                refine Answered.cons hlive hclean (by simp [hop]) ?_
                intro hlive' hclean'
                have hask := ask_rdqunlink
                  ((d.copyTo (d.ask x).buff data).resume (d.ask x).pid) x
                have hready : Live ((d.copyTo (d.ask x).buff data).resume
                    (d.ask x).pid) (xs ++ x :: ys) f := hlive
                have hanswered := ih hlive' hclean'
                  (by rw [← hready.next_eq]; exact hdone)
                rw [hask] at hanswered
                exact hanswered

theorem FlowInv.readDone
    (h : FlowInv d l f c g) (hcomm : d.comm = .reading rptr)
    (hdone : d.readDone budget rptr data = some d') :
    ∃ rest f', l = rptr :: rest ∧
      FlowInv d' (remain d.ask (d.ask rptr).blk rest) f' c g ∧
        Delivered d d' (rptr :: answered d.ask (d.ask rptr).blk rest) data ∧
          d'.ask = d.ask ∧ d'.copy = d.copy ∧ d'.comm = .waiting := by
  have hop := h.reading rptr hcomm
  have hat := h.comm
  unfold CommAt at hat
  rw [hcomm] at hat
  obtain ⟨rest, rfl⟩ := hat
  obtain ⟨reached, hpaths⟩ := h.paths
  have hclean : Clean d ([] ++ rptr :: rest) reached := by
    refine ⟨hpaths.live, hpaths.closed, ?_⟩
    intro x hx hout hwrite
    obtain ⟨r, _, heq, hop', -⟩ := hpaths.writes x hx hout hwrite
    obtain ⟨rfl, -⟩ := List.cons.inj heq
    rw [hop] at hop'
    cases hop'
  have hlive : Live d ([] ++ rptr :: rest) f := h.queue
  unfold Rdscblk.readDone at hdone
  rw [Option.map_eq_some_iff] at hdone
  obtain ⟨d₂, hwalk, rfl⟩ := hdone
  have hanswered : Answered d d₂ (remain d.ask (d.ask rptr).blk rest)
      (rptr :: answered d.ask (d.ask rptr).blk rest) reached data := by
    refine Answered.cons hlive hclean (by simp [hop]) ?_
    intro hlive' hclean'
    have hask := ask_rdqunlink ((d.copyTo (d.ask rptr).buff data).resume
      (d.ask rptr).pid) rptr
    have hhead := hlive'.list.chain.head
    rw [List.nil_append] at hhead
    have hall := satisfy_answered hlive' hclean'
      (by rw [← hhead]; exact hwalk)
    rw [hask] at hall
    exact hall
  obtain ⟨⟨f', hlive'⟩, hclean', hdelivered, hask, hcache, -⟩ := hanswered
  have hperm := remain_answered_perm d.ask (d.ask rptr).blk rest
  have hsub := remain_sublist d.ask (d.ask rptr).blk rest
  have hpids := h.pids
  rw [List.map_cons, List.nodup_cons] at hpids
  have happart : ∀ r ∈ remain d.ask (d.ask rptr).blk rest,
      ∀ r' ∈ rptr :: answered d.ask (d.ask rptr).blk rest,
        (d.ask r').pid ≠ (d.ask r).pid := by
    intro r hr r' hr' heq
    rcases List.mem_cons.mp hr' with rfl | hr'
    · exact hpids.1 (List.mem_map.mpr ⟨r, hsub.subset hr, heq.symm⟩)
    · have hboth := (hperm.map fun r => (d.ask r).pid).nodup_iff.mpr hpids.2
      rw [List.map_append] at hboth
      exact (List.nodup_append.mp hboth).2.2 _ (List.mem_map_of_mem hr) _
        (List.mem_map_of_mem hr') heq.symm
  refine ⟨rest, f', rfl, ⟨hlive', ?_, hcache.cacheOf h.cache, ?_, ?_, ?_, ?_, ?_,
    trivial, ?_⟩, ⟨hdelivered.filled, hdelivered.kept, hdelivered.resumed,
    hdelivered.others⟩, hask, hcache.copy, rfl⟩
  · exact ⟨reached, hclean'.live, hclean'.closed, hclean'.paths.writes⟩
  · show (c.map fun x => (d₂.copy x).1).Nodup
    rw [hcache.copy]
    exact h.blocks
  · intro r hr
    show ProcId (d₂.ask r).pid ∧ d₂.suspended (d₂.ask r).pid = true
    rw [hask, hdelivered.others _ (happart r hr)]
    exact h.callers r (by simp [hsub.subset hr])
  · show ((remain d.ask (d.ask rptr).blk rest).map
      fun r => (d₂.ask r).pid).Nodup
    rw [hask]
    exact hpids.2.sublist (hsub.map _)
  · intro r hr
    show (d₂.ask r).op ≠ .sync
    rw [hask]
    exact h.nosync r (by simp [hsub.subset hr])
  · intro r hr
    show (d₂.ask r).op = .write → ∀ x ∈ c, (d₂.copy x).1 ≠ (d₂.ask r).blk
    rw [hask, hcache.copy]
    exact h.fresh r (by simp [hsub.subset hr])
  · intro rptr' hrptr
    cases hrptr

end Satisfy

theorem opened_flow
    (qnode : ℤ → Rdqnode) (cnode : ℤ → Rdcnode Block) (buffers : Word → Block) :
    FlowInv (rdsopen qnode cnode buffers) [] (nodeIds RD_QNODES) []
      (nodeIds RD_CNODES) := by
  obtain ⟨hqueue, hcache, -⟩ := rdsopen_inv qnode cnode buffers
  exact ⟨hqueue.rename_prev (by simp), ⟨∅, .nil _⟩, hcache, by simp, by simp,
    by simp, by simp, by simp, trivial, by simp [rdsopen]⟩

end Xinu.RemoteDisk
