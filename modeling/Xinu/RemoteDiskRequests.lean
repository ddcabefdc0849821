import Xinu.RemoteDiskFlow

/-!
# One request of a remote disk

The communication process handles the first request of the queue: it exchanges
messages with the server, answers later reads of a block that it has read, and
looks for a later write of a block before it caches a write.
-/

namespace Xinu.RemoteDisk

open ByteMemory LinkedTable Rdscblk

variable {Block : Type}

/-- The kernel panics when an exchange fails. -/
inductive Handled (Block : Type) where
  | panic
  | done (d : Rdscblk Block)

namespace Rdscblk

/-- The search for a later write, and what follows up to `rdscomm`. -/
def afterSearch : ℕ → Rdscblk Block → Option (Rdscblk Block)
  | 0, _ => none
  | budget + 1, d =>
      match d.comm with
      | .searching rptr tptr => afterSearch budget (d.searchTurn rptr tptr)
      | _ => some d

/-- From one `wait` on the semaphore to the next.  `reply` is what `rdscomm`
gets from the server, or none if it fails. -/
def handleRequest (budget : ℕ) (d : Rdscblk Block) (reply : Option Block) :
    Option (Handled Block) :=
  (afterSearch budget d.commTake).bind fun d =>
    match d.comm, reply with
    | .waiting, _ => some (.done d)
    | .reading rptr, some data => (d.readDone budget rptr data).map .done
    | .writing, some _ => some (.done { d with comm := .waiting })
    | .reading _, none | .writing, none => some .panic
    | .searching _ _, _ => none

end Rdscblk

def isLaterWrite (d : Rdscblk Block) (r x : ℤ) : Prop :=
  (d.ask x).op = .write ∧ (d.ask x).blk = (d.ask r).blk

instance (d : Rdscblk Block) (r x : ℤ) : Decidable (isLaterWrite d r x) :=
  inferInstanceAs (Decidable (_ ∧ _))

/-- The block of the write `r` is in front of the cache. -/
def CachedFirst (d d' : Rdscblk Block) (r : ℤ) : Prop :=
  ∃ x c g, CacheOf d' (x :: c) g ∧
    d'.copy x = ((d.ask r).blk, d.buffers (d.ask r).buff)

/-- The handling of the request `r` in front of `rest` has ended as it should:
the kernel panics only without an answer, the request has left the queue, and
a write is cached if no later one is queued. -/
structure HandledRight
    (d : Rdscblk Block) (r : ℤ) (rest : List ℤ) (reply : Option Block)
    (out : Handled Block) : Prop where
  panics : out = .panic ↔ reply = none ∧ (d.ask r).op ≠ .sync
  removed : ∀ d', out = .done d' → ∃ l f, Live d' l f ∧ l.Sublist rest ∧
    d'.comm = .waiting
  caches : ∀ d', out = .done d' →
    if (d.ask r).op = .write ∧ ∀ x ∈ rest, ¬ isLaterWrite d r x then
      CachedFirst d d' r
    else SameCache d d'

/-- The write that the search meets first, if there is a request at all. -/
def SearchStops (d : Rdscblk Block) (r : ℤ) (rest : List ℤ) : Prop :=
  (d.ask r).op = .write → ∀ x ∈ rest.head?, isLaterWrite d r x

section Handling

variable {d : Rdscblk Block} {xs ys l rest f c g : List ℤ} {r : ℤ} {blk : Word}
  {data : Block} {budget : ℕ}

theorem SameCache.refl (d : Rdscblk Block) : SameCache d d :=
  ⟨rfl, rfl, rfl, rfl⟩

theorem SameCache.trans
    {d d' d'' : Rdscblk Block} (h : SameCache d d') (h' : SameCache d' d'') :
    SameCache d d'' :=
  ⟨h'.chead.trans h.chead, h'.ctail.trans h.ctail, h'.cfree.trans h.cfree,
    h'.cnode.trans h.cnode⟩

/-- The walk over the later requests ends, though it frees nodes as it goes:
every turn leaves fewer requests behind. -/
theorem satisfy_ends (blk : Word) (data : Block)
    (h : Live d (xs ++ ys) f) (hbudget : ys.length < budget) :
    ∃ d' l f', satisfy blk data budget (ys.head?.getD NULL) d = some d' ∧
      Live d' (xs ++ l) f' ∧ l.Sublist ys ∧ SameCache d d' := by
  induction budget generalizing d xs ys f with
  | zero => omega
  | succ budget ih =>
      cases ys with
      | nil => exact ⟨d, [], f, by simp [satisfy], h, .slnil, .refl d⟩
      | cons x ys =>
          have hshort : ys.length < budget := by simpa using hbudget
          have hnull : x ≠ NULL := h.list.ne_null (by simp)
          have hnext : d.qnext x = ys.head?.getD NULL := h.next_eq
          have hskip : ∃ d' l f', satisfy blk data budget (d.qnext x) d =
              some d' ∧ Live d' (xs ++ l) f' ∧ l.Sublist (x :: ys) ∧
                SameCache d d' := by
            have hmoved : Live d ((xs ++ [x]) ++ ys) f := by simpa using h
            obtain ⟨d', l, f', hwalk, hlive, hsub, hcache⟩ := ih hmoved hshort
            refine ⟨d', x :: l, f', ?_, ?_, hsub.cons_cons x, hcache⟩
            · rw [hnext]
              exact hwalk
            · simpa using hlive
          rw [List.head?_cons, Option.getD_some, satisfy, if_neg hnull]
          by_cases hblk : (d.qnode x).rd_blknum ≠ blk
          · rw [if_pos hblk]
            exact hskip
          · rw [if_neg hblk]
            cases hop : (d.qnode x).rd_op with
            | write => exact ⟨d, x :: ys, f, rfl, h, .refl _, .refl d⟩
            | sync => exact hskip
            | read =>
                have hready : Live ((d.copyTo (d.qnode x).rd_callbuf data).resume
                    (d.qnode x).rd_pid) (xs ++ x :: ys) f := h
                obtain ⟨d', l, f', hwalk, hlive, hsub, hcache⟩ :=
                  ih hready.unlink hshort
                refine ⟨d', l, f', ?_, hlive, hsub.cons x, ?_⟩
                · rw [← hready.next_eq] at hwalk
                  exact hwalk
                · have hsame := rdqunlink_sameCache
                    ((d.copyTo (d.qnode x).rd_callbuf data).resume
                      (d.qnode x).rd_pid) x
                  exact SameCache.trans ⟨hsame.chead, hsame.ctail, hsame.cfree,
                    hsame.cnode⟩ hcache

theorem afterSearch_of_not_searching
    (h : ∀ rptr tptr, d.comm ≠ .searching rptr tptr) :
    afterSearch (budget + 1) d = some d := by
  unfold afterSearch
  split
  next rptr tptr hcomm => exact absurd hcomm (h rptr tptr)
  next => rfl

/-- A turn of the search that changes nothing is repeated for ever. -/
theorem afterSearch_stuck
    {rptr tptr : ℤ} (hcomm : d.comm = .searching rptr tptr)
    (hturn : d.searchTurn rptr tptr = d) : afterSearch budget d = none := by
  induction budget with
  | zero => rfl
  | succ budget ih =>
      unfold afterSearch
      rw [hcomm]
      dsimp only
      rw [hturn]
      exact ih

theorem commTake_sync (h : Live d (r :: rest) f) (hop : (d.ask r).op = .sync)
    (hcomm : d.comm = .waiting) :
    ∃ f', Live d.commTake rest f' ∧ SameCache d d.commTake ∧
      d.commTake.comm = .waiting := by
  have hhead : d.rd_qhead = r := h.list.chain.1
  have hnull : r ≠ NULL := h.list.ne_null (by simp)
  have hop' : (d.qnode r).rd_op = .sync := hop
  have hready : Live (({ d with rd_comsem := d.rd_comsem - 1 }).resume
      (d.qnode r).rd_pid) ([] ++ r :: rest) f := h
  have htake : d.commTake = ((({ d with rd_comsem := d.rd_comsem - 1 }).resume
      (d.qnode r).rd_pid).rdqunlink r).1 := by
    unfold commTake
    simp only [hhead, if_neg hnull, hop']
  have hsame := rdqunlink_sameCache (({ d with
    rd_comsem := d.rd_comsem - 1 }).resume (d.qnode r).rd_pid) r
  rw [htake]
  exact ⟨_, hready.unlink, ⟨hsame.chead, hsame.ctail, hsame.cfree,
    hsame.cnode⟩, (rdqunlink_sameOwners _ r).comm.trans hcomm⟩

theorem commTake_read
    (h : Live d (r :: rest) f) (hop : (d.ask r).op = .read) :
    d.commTake = { d with
      rd_comsem := d.rd_comsem - 1, comm := .reading r } := by
  have hhead : d.rd_qhead = r := h.list.chain.1
  have hnull : r ≠ NULL := h.list.ne_null (by simp)
  have hop' : (d.qnode r).rd_op = .read := hop
  unfold commTake
  simp only [hhead, if_neg hnull, hop']

theorem commTake_write
    (h : Live d (r :: rest) f) (hop : (d.ask r).op = .write) :
    d.commTake = { d with
      rd_comsem := d.rd_comsem - 1
      comm := .searching r (rest.head?.getD NULL) } := by
  have hhead : d.rd_qhead = r := h.list.chain.1
  have hnull : r ≠ NULL := h.list.ne_null (by simp)
  have hop' : (d.qnode r).rd_op = .write := hop
  have hnext : d.qnext r = rest.head?.getD NULL :=
    Live.next_eq (show Live d ([] ++ r :: rest) f from h)
  unfold commTake
  simp only [hhead, if_neg hnull, hop']
  rw [← hnext]
  rfl

theorem handleRequest_sync
    (h : Live d (r :: rest) f) (hop : (d.ask r).op = .sync)
    (hcomm : d.comm = .waiting) (reply : Option Block) :
    ∃ out, handleRequest 1 d reply = some out ∧
      HandledRight d r rest reply out := by
  obtain ⟨f', hlive, hcache, hwaiting⟩ := commTake_sync h hop hcomm
  have hsearch : afterSearch 1 d.commTake = some d.commTake :=
    afterSearch_of_not_searching (by simp [hwaiting])
  refine ⟨.done d.commTake, ?_, ?_, ?_, ?_⟩
  · simp [handleRequest, hsearch, hwaiting]
  · simp [hop]
  · rintro d' hdone
    obtain rfl := Handled.done.inj hdone
    exact ⟨rest, f', hlive, .refl _, hwaiting⟩
  · rintro d' hdone
    obtain rfl := Handled.done.inj hdone
    rw [if_neg (by simp [hop])]
    exact hcache

theorem HandledRight.panic (hop : (d.ask r).op ≠ .sync) :
    HandledRight d r rest none .panic :=
  ⟨by simp [hop], by simp, by simp⟩

theorem readDone_ends (data : Block)
    (h : Live d (r :: rest) f) (hbudget : rest.length < budget) :
    ∃ d' l f', d.readDone budget r data = some d' ∧ Live d' l f' ∧
      l.Sublist rest ∧ SameCache d d' ∧ d'.comm = .waiting := by
  have hready : Live ((d.copyTo (d.qnode r).rd_callbuf data).resume
      (d.qnode r).rd_pid) ([] ++ r :: rest) f := h
  have hleft := hready.unlink
  have hsame := rdqunlink_sameCache
    ((d.copyTo (d.qnode r).rd_callbuf data).resume (d.qnode r).rd_pid) r
  have hhead := hleft.list.chain.head
  obtain ⟨d', l, f', hwalk, hlive, hsub, hcache⟩ :=
    satisfy_ends (d.qnode r).rd_blknum data hleft hbudget
  refine ⟨{ d' with comm := .waiting }, l, f', ?_, hlive, hsub, ?_, rfl⟩
  · rw [List.nil_append] at hhead
    rw [← hhead] at hwalk
    exact congrArg (Option.map fun d => { d with comm := .waiting }) hwalk
  · have hall : SameCache d d' := SameCache.trans
      ⟨hsame.chead, hsame.ctail, hsame.cfree, hsame.cnode⟩ hcache
    exact ⟨hall.chead, hall.ctail, hall.cfree, hall.cnode⟩

theorem handleRequest_read
    (h : Live d (r :: rest) f) (hop : (d.ask r).op = .read)
    (reply : Option Block) :
    ∃ out, handleRequest (rest.length + 1) d reply = some out ∧
      HandledRight d r rest reply out := by
  have htake := commTake_read h hop
  have hsearch : afterSearch (rest.length + 1) d.commTake = some d.commTake :=
    afterSearch_of_not_searching (by simp [htake])
  cases reply with
  | none =>
      refine ⟨.panic, ?_, .panic (by simp [hop])⟩
      rw [handleRequest, hsearch, htake]
      rfl
  | some data =>
      have hlive : Live d.commTake (r :: rest) f := by
        rw [htake]
        exact h
      obtain ⟨d', l, f', hdone, hlive', hsub, hcache, hwaiting⟩ :=
        readDone_ends data hlive (Nat.lt_succ_self _)
      refine ⟨.done d', ?_, by simp, ?_, ?_⟩
      · rw [handleRequest, hsearch, Option.bind_some, htake]
        dsimp only
        rw [← htake, hdone]
        rfl
      · rintro d'' hd
        obtain rfl := Handled.done.inj hd
        exact ⟨l, f', hlive', hsub, hwaiting⟩
      · rintro d'' hd
        obtain rfl := Handled.done.inj hd
        rw [if_neg (by simp [hop])]
        have hbefore : SameCache d d.commTake := by
          rw [htake]
          exact ⟨rfl, rfl, rfl, rfl⟩
        exact hbefore.trans hcache

/-- The search at the last request: the block comes to the cache. -/
theorem searchTurn_last (h : Live d [r] f) (hcache : CacheOf d c g) :
    ∃ f', Live (d.searchTurn r NULL) [] f' ∧
      (d.searchTurn r NULL).comm = .writing ∧
      CachedFirst d (d.searchTurn r NULL) r := by
  have hturn : d.searchTurn r NULL =
      { (((d.rdcinsert (d.ask r).blk (d.buffers (d.ask r).buff)).resume
        ((d.rdcinsert (d.ask r).blk
          (d.buffers (d.ask r).buff)).qnode r).rd_pid).rdqunlink r).1 with
        comm := .writing } := by
    unfold searchTurn
    simp only [ne_eq, not_true_eq_false, false_and, if_false, if_true]
    rfl
  obtain ⟨c', g', -, hinsert, -, -⟩ := hcache.insert (d.ask r).blk
    (d.buffers (d.ask r).buff)
  obtain ⟨hhead, htail, hfree, hnode, -, -⟩ := rdcinsert_sameQueue d
    (d.ask r).blk (d.buffers (d.ask r).buff)
  have hcopy := copy_rdcinsert d (d.ask r).blk (d.buffers (d.ask r).buff)
  rw [hturn]
  generalize d.rdcinsert (d.ask r).blk (d.buffers (d.ask r).buff) = d₁
    at hinsert hhead htail hfree hnode hcopy ⊢
  have hready : Live (d₁.resume (d₁.qnode r).rd_pid) ([] ++ [r]) f := by
    have hqueue := h
    unfold Live back qnext qprev at hqueue ⊢
    change Nodes (fun x => (d₁.qnode x).rd_next) (Function.update
      (fun x => (d₁.qnode x).rd_prev) d₁.rd_qhead NULL) d₁.rd_qhead
      d₁.rd_qtail d₁.rd_qfree RD_QNODES [r] f
    rwa [hnode, hhead, htail, hfree]
  have hsame := rdqunlink_sameCache (d₁.resume (d₁.qnode r).rd_pid) r
  refine ⟨_, hready.unlink, rfl, d.takeCnode.2, c', g', hsame.cacheOf hinsert, ?_⟩
  have hsame' := hsame.copy
  rw [show (d₁.resume (d₁.qnode r).rd_pid).copy = d₁.copy from rfl, hcopy]
    at hsame'
  have hat := congrFun hsame' d.takeCnode.2
  rwa [Function.update_self] at hat

/-- The search at a later write of the block: the cache stays. -/
theorem searchTurn_replaced
    {x : ℤ} (h : Live d (r :: x :: rest) f) (hlater : isLaterWrite d r x) :
    ∃ f', Live (d.searchTurn r x) (x :: rest) f' ∧
      (d.searchTurn r x).comm = .writing ∧ SameCache d (d.searchTurn r x) := by
  have hnull : x ≠ NULL := h.list.ne_null (by simp)
  have hturn : d.searchTurn r x =
      { ((d.resume (d.qnode r).rd_pid).rdqunlink r).1 with
        comm := .writing } := by
    have hmatch : (d.qnode x).rd_blknum = (d.qnode r).rd_blknum ∧
        (d.qnode x).rd_op = .write := ⟨hlater.2, hlater.1⟩
    unfold searchTurn
    simp only [hmatch, ne_eq, hnull, not_false_eq_true, and_self,
      not_true_eq_false, and_false, if_false]
  have hready : Live (d.resume (d.qnode r).rd_pid) ([] ++ r :: x :: rest) f := h
  have hsame := rdqunlink_sameCache (d.resume (d.qnode r).rd_pid) r
  rw [hturn]
  exact ⟨_, hready.unlink, rfl, hsame.chead, hsame.ctail, hsame.cfree, hsame.cnode⟩

/-- The search has ended: the write has left the queue. -/
theorem searchTurn_ends
    (h : Live d (r :: rest) f) (hcache : CacheOf d c g)
    (hstops : ∀ x ∈ rest.head?, isLaterWrite d r x) :
    ∃ f', Live (d.searchTurn r (rest.head?.getD NULL)) rest f' ∧
      (d.searchTurn r (rest.head?.getD NULL)).comm = .writing ∧
      if ∀ x ∈ rest, ¬ isLaterWrite d r x then
        CachedFirst d (d.searchTurn r (rest.head?.getD NULL)) r
      else SameCache d (d.searchTurn r (rest.head?.getD NULL)) := by
  cases rest with
  | nil =>
      rw [if_pos (by simp)]
      exact searchTurn_last h hcache
  | cons x rest =>
      have hlater := hstops x rfl
      rw [if_neg fun hnone => hnone x (by simp) hlater]
      exact searchTurn_replaced h hlater

theorem handleRequest_write
    (h : Live d (r :: rest) f) (hcache : CacheOf d c g)
    (hop : (d.ask r).op = .write)
    (hstops : ∀ x ∈ rest.head?, isLaterWrite d r x) (reply : Option Block) :
    ∃ out, handleRequest 2 d reply = some out ∧
      HandledRight d r rest reply out := by
  have htake := commTake_write h hop
  have hlive : Live d.commTake (r :: rest) f := by
    rw [htake]
    exact h
  have hstored : CacheOf d.commTake c g := by
    rw [htake]
    exact hcache
  have hask : d.commTake.ask = d.ask := by
    rw [htake]
    rfl
  have hbuffers : d.commTake.buffers = d.buffers := by
    rw [htake]
  have hmore : ∀ x, isLaterWrite d.commTake r x ↔ isLaterWrite d r x := by
    intro x
    unfold isLaterWrite
    rw [hask]
  obtain ⟨f', hleft, hwriting, hcached⟩ := searchTurn_ends hlive hstored
    fun x hx => (hmore x).mpr (hstops x hx)
  have hsearch : afterSearch 2 d.commTake =
      some (d.commTake.searchTurn r (rest.head?.getD NULL)) := by
    have hcomm : d.commTake.comm =
        .searching r (rest.head?.getD NULL) := by
      rw [htake]
    unfold afterSearch
    rw [hcomm]
    exact afterSearch_of_not_searching (by simp [hwriting])
  simp only [hmore] at hcached
  cases reply with
  | none =>
      refine ⟨.panic, ?_, .panic (by simp [hop])⟩
      rw [handleRequest, hsearch, Option.bind_some, hwriting]
  | some data =>
      refine ⟨.done { d.commTake.searchTurn r (rest.head?.getD NULL) with
        comm := .waiting }, ?_, by simp, ?_, ?_⟩
      · rw [handleRequest, hsearch, Option.bind_some, hwriting]
      · rintro d' hd
        obtain rfl := Handled.done.inj hd
        exact ⟨rest, f', hleft, .refl _, rfl⟩
      · rintro d' hd
        obtain rfl := Handled.done.inj hd
        split_ifs at hcached with hnone
        · rw [if_pos ⟨hop, hnone⟩]
          obtain ⟨x, c', g', hfront, hcopy⟩ := hcached
          rw [hask, hbuffers] at hcopy
          exact ⟨x, c', g', hfront, hcopy⟩
        · rw [if_neg fun hboth => hnone hboth.2]
          have hbefore : SameCache d d.commTake := by
            rw [htake]
            exact ⟨rfl, rfl, rfl, rfl⟩
          have hall := hbefore.trans hcached
          exact ⟨hall.chead, hall.ctail, hall.cfree, hall.cnode⟩

/-- The search repeats its first turn if the next request is no write of the
block. -/
theorem handleRequest_stuck
    {x : ℤ} (h : Live d (r :: x :: rest) f) (hop : (d.ask r).op = .write)
    (hx : ¬ isLaterWrite d r x) (reply : Option Block) :
    handleRequest budget d reply = none := by
  have htake := commTake_write h hop
  have hnull : x ≠ NULL := h.list.ne_null (by simp)
  have hcomm : d.commTake.comm = .searching r x := by
    rw [htake]
    rfl
  have hturn : d.commTake.searchTurn r x = d.commTake := by
    rw [htake]
    apply if_pos
    refine ⟨hnull, ?_⟩
    rintro ⟨hblk, hwrite⟩
    exact hx ⟨hwrite, hblk⟩
  rw [handleRequest, afterSearch_stuck hcomm hturn]
  rfl

/-- The communication process handles the first request as it should, with
enough turns for its walks, exactly if it is no write or the next request is a
write of the same block or there is none. -/
theorem request_handled_iff
    (hqueue : Live d (r :: rest) f) (hcache : CacheOf d c g)
    (hcomm : d.comm = .waiting) (reply : Option Block) :
    (∃ budget out, handleRequest budget d reply = some out ∧
      HandledRight d r rest reply out) ↔ SearchStops d r rest := by
  constructor
  · rintro ⟨budget, out, hdone, -⟩ hop x hx
    by_contra hnot
    cases rest with
    | nil => cases hx
    | cons y rest =>
        obtain rfl : y = x := Option.some.inj hx
        rw [handleRequest_stuck hqueue hop hnot] at hdone
        cases hdone
  · intro hstops
    cases hop : (d.ask r).op with
    | sync => exact ⟨_, handleRequest_sync hqueue hop hcomm reply⟩
    | read => exact ⟨_, handleRequest_read hqueue hop reply⟩
    | write =>
        exact ⟨_, handleRequest_write hqueue hcache hop (hstops hop) reply⟩

end Handling

/-- A disk with a write of block 5. -/
theorem opened_write :
    ∃ (d : Rdscblk Unit) (r : ℤ) (f c g : List ℤ),
      openedDisk.rdswrite 1 1 0 5 = some (d, OK) ∧ FlowInv d [r] f c g ∧
        d.comm = .waiting ∧ d.ask r = ⟨.write, 5, 0, 1⟩ := by
  have hstatus : (openedDisk.rdswrite 1 1 0 5).map Prod.snd = some OK := by
    decide
  rw [Option.map_eq_some_iff] at hstatus
  obtain ⟨⟨d, status⟩, hcall, rfl⟩ := hstatus
  have hopened : FlowInv openedDisk [] (nodeIds RD_QNODES) []
      (nodeIds RD_CNODES) := opened_flow _ _ _
  rcases hopened.rdswrite (by decide) hcall with ⟨-, hfail⟩ | ⟨-, hdone⟩
  · exact absurd hfail (by decide)
  · obtain ⟨r, f, c, g, hflow, -, -, -, hnew⟩ := hdone
    refine ⟨d, r, f, c, g, hcall, hflow, hnew.comm, ?_⟩
    rw [hnew.ask, Function.update_self]

theorem request_handled_iff_one_write :
    ∃ (d : Rdscblk Unit) (r : ℤ), openedDisk.rdswrite 1 1 0 5 = some (d, OK) ∧
      ((∃ budget out, handleRequest budget d (some ()) = some out ∧
        HandledRight d r [] (some ()) out) ↔ SearchStops d r []) := by
  obtain ⟨d, r, f, c, g, hcall, hflow, hcomm, -⟩ := opened_write
  exact ⟨d, r, hcall,
    request_handled_iff hflow.queue hflow.cache hcomm (some ())⟩

/-- While a first write is on its way, a second one and a read of another block
are queued. -/
def writeThenRead : Option (Rdscblk Unit) :=
  TransitionSystem.run Rdscblk.step openedDisk
    [(1, .write 1 0 5), (0, .run), (0, .run), (2, .write 2 0 6),
      (2, .read 3 0 7), (0, .respond ())]

/-- The second write is never finished. -/
theorem write_before_read_hangs :
    ∃ d, writeThenRead = some d ∧ d.comm = .waiting ∧ d.rd_comsem = 2 ∧
      ∀ budget, handleRequest budget d (some ()) = none := by
  have hview : writeThenRead.map (fun d => (d.comm, d.rd_comsem,
      d.commTake.comm, (d.commTake.qnode 2).rd_op)) =
        some (.waiting, 2, .searching 1 2, .read) := by
    decide
  rw [Option.map_eq_some_iff] at hview
  obtain ⟨d, hrun, hview⟩ := hview
  simp only [Prod.mk.injEq] at hview
  obtain ⟨hcomm, hsem, hsearch, hop⟩ := hview
  refine ⟨d, hrun, hcomm, hsem, fun budget => ?_⟩
  have hturn : d.commTake.searchTurn 1 2 = d.commTake := by
    apply if_pos
    refine ⟨by decide, ?_⟩
    rintro ⟨-, hwrite⟩
    rw [hop] at hwrite
    cases hwrite
  rw [handleRequest, afterSearch_stuck hsearch hturn]
  rfl

end Xinu.RemoteDisk
