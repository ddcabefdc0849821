import Xinu.RemoteDiskFlow

/-!
# The coherence of a remote disk

The driver, the server and the exchange of messages between them, with the
blocks that the processes write and read.  `rdscomm` returns the reply to the
request that it has sent, and each buffer belongs to one process.
-/

namespace Xinu.RemoteDisk

open ByteMemory LinkedTable TransitionSystem Rdscblk

variable {Block : Type}

/-! ## The driver and the server -/

/-- The exchange that `rdscomm` is in. -/
inductive Wire (Block : Type) where
  | idle
  | readRequest (blk : Word)
  | writeRequest (blk : Word) (data : Block)
  | readReply (data : Block)
  | writeReply

/-- A call of `rdsread`, with the number of blocks that had been superseded
when it was made. -/
structure Issued where
  blk : Word
  buff : Word
  version : ℕ
  deriving DecidableEq

/-- The blocks that each `rdswrite` has been given are kept in order; the first
one is what the server held at the start.  The last call of a process is kept
until the process goes on. -/
structure Session (Block : Type) where
  disk : Rdscblk Block
  wire : Wire Block
  server : Word → Block
  versions : Word → List Block
  issued : ℤ → Option Issued

inductive SessionAction (Block : Type) where
  /-- A process stores a block in its own buffer. -/
  | fill (pid : ℤ) (buff : Word) (data : Block)
  | read (budget : ℕ) (pid : ℤ) (buff blk : Word)
  | write (budget : ℕ) (pid : ℤ) (buff blk : Word)
  | sync (pid : ℤ)
  | run
  /-- The server executes the request. -/
  | serve
  | respond (budget : ℕ)

namespace Session

variable (owner : Word → ℤ) (s : Session Block)

/-- The call of a process, and what it leaves. -/
def called (pid : ℤ) (disk : Rdscblk Block) (issued : Option Issued) :
    Session Block :=
  { s with
    disk := disk
    issued := Function.update s.issued pid issued }

/-- `rdswrite` has taken a block. -/
def accepted (blk : Word) (data : Block) : Session Block :=
  { s with
    versions := Function.update s.versions blk (s.versions blk ++ [data]) }

def step : SessionAction Block → Option (Session Block)
  | .fill pid buff data =>
      if s.disk.canCall pid ∧ owner buff = pid then
        some (s.called pid (s.disk.copyTo buff data) none)
      else none
  | .read budget pid buff blk =>
      if s.disk.canCall pid ∧ owner buff = pid then
        (s.disk.rdsread budget pid buff blk).map fun (disk, status) =>
          s.called pid disk (if status = SYSERR then none
            else some ⟨blk, buff, (s.versions blk).length - 1⟩)
      else none
  | .write budget pid buff blk =>
      if s.disk.canCall pid ∧ owner buff = pid then
        (s.disk.rdswrite budget pid buff blk).map fun (disk, status) =>
          if status = SYSERR then s.called pid disk none
          else (s.called pid disk none).accepted blk (s.disk.buffers buff)
      else none
  | .sync pid =>
      if s.disk.canCall pid then
        some (s.called pid (s.disk.rdscontrolSync pid).1 none)
      else none
  | .run =>
      match s.disk.comm with
      | .waiting =>
          if s.disk.rd_comsem = 0 then none
          else some { s with
            disk := s.disk.commTake
            wire :=
              match s.disk.commTake.comm with
              | .reading rptr => .readRequest (s.disk.qnode rptr).rd_blknum
              | _ => s.wire }
      | .searching rptr tptr => some { s with
          disk := s.disk.searchTurn rptr tptr
          wire :=
            if (s.disk.searchTurn rptr tptr).comm = .writing then
              .writeRequest (s.disk.qnode rptr).rd_blknum
                (s.disk.buffers (s.disk.qnode rptr).rd_callbuf)
            else s.wire }
      | .reading _ | .writing => none
  | .serve =>
      match s.wire with
      | .readRequest blk => some { s with wire := .readReply (s.server blk) }
      | .writeRequest blk data => some { s with
          server := Function.update s.server blk data
          wire := .writeReply }
      | _ => none
  | .respond budget =>
      match s.disk.comm, s.wire with
      | .reading rptr, .readReply data =>
          (s.disk.readDone budget rptr data).map fun disk =>
            { s with
              disk := disk
              wire := .idle }
      | .writing, .writeReply => some { s with
          disk := { s.disk with comm := .waiting }
          wire := .idle }
      | _, _ => none

end Session

/-! ## What the notes of the driver promise -/

/-- `data` is what the last `rdswrite` of the block has been given. -/
def Session.Newest (s : Session Block) (blk : Word) (data : Block) : Prop :=
  (s.versions blk).getLast? = some data

def Rdscblk.cached (d : Rdscblk Block) : List ℤ :=
  nodesFrom NULL d.cnext RD_CNODES d.rd_chead

structure Coherent (s : Session Block) : Prop where
  cache : ∀ x ∈ s.disk.cached,
    s.Newest (s.disk.cnode x).rd_blknum (s.disk.cnode x).rd_data
  queue : s.disk.queued.Pairwise fun r r' =>
    (s.disk.qnode r).rd_op = .write → (s.disk.qnode r').rd_op = .read →
      (s.disk.qnode r').rd_blknum ≠ (s.disk.qnode r).rd_blknum
  /-- A read that is over has returned a block that had not been superseded
  when it was made. -/
  reads : ∀ pid i, s.issued pid = some i → s.disk.suspended pid = false →
    s.disk.buffers i.buff ∈ (s.versions i.blk).drop i.version

/-- A disk is synchronized only while no request is queued. -/
def SyncsIdle (s : Session Block) : SessionAction Block → Prop
  | .sync _ => s.disk.rd_qhead = NULL
  | _ => True

instance (s : Session Block) (action : SessionAction Block) :
    Decidable (SyncsIdle s action) :=
  match action with
  | .sync _ => inferInstanceAs (Decidable (s.disk.rd_qhead = NULL))
  | .fill _ _ _ | .read _ _ _ _ | .write _ _ _ _ | .run | .serve |
      .respond _ => inferInstanceAs (Decidable True)

/-- A disk that has just been opened. -/
def Session.opened
    (qnode : ℤ → Rdqnode) (cnode : ℤ → Rdcnode Block) (buffers : Word → Block)
    (server : Word → Block) : Session Block where
  disk := rdsopen qnode cnode buffers
  wire := .idle
  server := server
  versions := fun blk => [server blk]
  issued := fun _ => none

/-! ## Writes of a block -/

def writes (ask : ℤ → Ask) (blk : Word) (r : ℤ) : Bool :=
  (ask r).op = .write ∧ (ask r).blk = blk

section Writes

variable {ask ask' : ℤ → Ask} {blk : Word} {l : List ℤ} {r : ℤ}

theorem writes_spec :
    writes ask blk r = true ↔ (ask r).op = .write ∧ (ask r).blk = blk := by
  unfold writes
  exact decide_eq_true_iff

/-- A last request that is a write is the last write. -/
theorem find_writes_of_find
    (hfind : l.find? (fun r => (ask r).blk = blk) = some r)
    (hop : (ask r).op = .write) : l.find? (writes ask blk) = some r := by
  obtain ⟨hblk, as, bs, rfl, has⟩ := List.find?_eq_some_iff_append.mp hfind
  apply List.find?_eq_some_iff_append.mpr
  refine ⟨writes_spec.mpr ⟨hop, of_decide_eq_true hblk⟩, as, bs, rfl, ?_⟩
  intro a ha
  have hne : ¬ (ask a).blk = blk := by simpa using has a ha
  simpa using fun hwrite => hne (writes_spec.mp hwrite).2

/-- No write of the block stays behind a last request that is a read. -/
theorem find_writes_none
    (horder : l.Pairwise fun r r' => (ask r).op = .write →
      (ask r').op = .read → (ask r').blk ≠ (ask r).blk)
    (hnosync : ∀ r ∈ l, (ask r).op ≠ .sync)
    (hlast : ∀ r, l.reverse.find? (fun r => (ask r).blk = blk) = some r →
      (ask r).op ≠ .write) :
    l.reverse.find? (writes ask blk) = none := by
  rw [List.find?_eq_none]
  intro w hw hwrite
  obtain ⟨hop, hblk⟩ := writes_spec.mp hwrite
  cases hfind : l.reverse.find? (fun r => (ask r).blk = blk) with
  | none => exact absurd hblk (by simpa using List.find?_eq_none.mp hfind w hw)
  | some r =>
      have hr := hlast r hfind
      obtain ⟨hrblk, as, bs, heq, has⟩ := List.find?_eq_some_iff_append.mp hfind
      have hl : l = bs.reverse ++ r :: as.reverse := by
        rw [← List.reverse_reverse l, heq]
        simp
      have hread : (ask r).op = .read := by
        cases hop' : (ask r).op with
        | read => rfl
        | write => exact absurd hop' hr
        | sync => exact absurd hop' (hnosync r (by simp [hl]))
      rw [heq] at hw
      rcases List.mem_append.mp hw with hmem | hmem
      · exact absurd hblk (by simpa using has w hmem)
      · rcases List.mem_cons.mp hmem with rfl | hmem
        · exact hr hop
        · rw [hl, List.pairwise_append] at horder
          refine horder.2.2 w (by simpa using hmem) r (by simp) hop hread ?_
          rw [hblk]
          exact of_decide_eq_true hrblk

/-- The last write after a request has been queued. -/
theorem find_writes_enqueued
    {a : Ask} (hr : r ∉ l) (hask : ask' = Function.update ask r a) :
    (l ++ [r]).reverse.find? (writes ask' blk) =
      if a.op = .write ∧ a.blk = blk then some r
      else l.reverse.find? (writes ask blk) := by
  rw [List.reverse_append, List.reverse_singleton, List.singleton_append,
    List.find?_cons]
  have hself : writes ask' blk r = decide (a.op = .write ∧ a.blk = blk) := by
    unfold writes
    rw [hask, Function.update_self]
  by_cases hwrite : a.op = .write ∧ a.blk = blk
  · rw [hself, decide_eq_true hwrite, if_pos hwrite]
  · rw [hself, decide_eq_false hwrite, if_neg hwrite]
    apply List.find?_congr
    intro r' hr'
    unfold writes
    rw [hask, Function.update_of_ne]
    rintro rfl
    exact hr (List.mem_reverse.mp hr')

end Writes

/-! ## Versions -/

section Versions

variable {s : Session Block} {blk blk' : Word} {data data' : Block} {n : ℕ}

theorem Session.Newest.mem (h : s.Newest blk data) :
    data ∈ (s.versions blk).drop ((s.versions blk).length - 1) := by
  obtain ⟨older, heq⟩ := List.getLast?_eq_some_iff.mp h
  rw [heq]
  simp

theorem Session.newest_accepted (s : Session Block) (blk : Word) (data : Block) :
    (s.accepted blk data).Newest blk data := by
  unfold Session.Newest Session.accepted
  simp

theorem Session.newest_accepted_of_ne (hblk : blk' ≠ blk) :
    (s.accepted blk data).Newest blk' data' ↔ s.Newest blk' data' := by
  unfold Session.Newest Session.accepted
  simp [hblk]

theorem mem_drop_accepted
    (hmem : data' ∈ (s.versions blk').drop n) :
    data' ∈ ((s.accepted blk data).versions blk').drop n := by
  unfold Session.accepted
  by_cases hblk : blk' = blk
  · subst hblk
    have hlen : n ≤ (s.versions blk').length := by
      by_contra hlong
      rw [List.drop_eq_nil_of_le (by omega)] at hmem
      cases hmem
    simp only [Function.update_self]
    rw [List.drop_append_of_le_length hlen]
    exact List.mem_append_left _ hmem
  · simpa [hblk] using hmem

end Versions

/-! ## The invariant -/

/-- What the server holds once it has executed the request that is under way. -/
def Session.carried (s : Session Block) : Word → Block :=
  match s.wire with
  | .writeRequest blk data => Function.update s.server blk data
  | _ => s.server

def Session.WireAt (s : Session Block) : Prop :=
  match s.wire with
  | .idle => ∀ rptr, s.disk.comm ≠ .reading rptr ∧ s.disk.comm ≠ .writing
  | .readRequest blk =>
      ∃ rptr, s.disk.comm = .reading rptr ∧ blk = (s.disk.ask rptr).blk
  | .readReply data =>
      ∃ rptr, s.disk.comm = .reading rptr ∧
        data = s.server (s.disk.ask rptr).blk
  | .writeRequest _ _ | .writeReply => s.disk.comm = .writing

/-- A process waits for the server, or has its block. -/
structure ReadAt
    (owner : Word → ℤ) (s : Session Block) (l : List ℤ) (pid : ℤ) (i : Issued) :
    Prop where
  own : owner i.buff = pid
  waits : s.disk.suspended pid = true →
    (∃ r ∈ l, s.disk.ask r = ⟨.read, i.blk, i.buff, pid⟩) ∧
      s.carried i.blk ∈ (s.versions i.blk).drop i.version
  done : s.disk.suspended pid = false →
    s.disk.buffers i.buff ∈ (s.versions i.blk).drop i.version

structure CoherenceInv
    (owner : Word → ℤ) (s : Session Block) (l f c g : List ℤ) : Prop where
  flow : FlowInv s.disk l f c g
  own : ∀ r ∈ l, owner (s.disk.ask r).buff = (s.disk.ask r).pid
  order : l.Pairwise fun r r' => (s.disk.ask r).op = .write →
    (s.disk.ask r').op = .read → (s.disk.ask r').blk ≠ (s.disk.ask r).blk
  cache : ∀ x ∈ c, s.Newest (s.disk.copy x).1 (s.disk.copy x).2
  queue : ∀ blk r, l.reverse.find? (writes s.disk.ask blk) = some r →
    s.Newest blk (s.disk.buffers (s.disk.ask r).buff)
  server : ∀ blk, l.reverse.find? (writes s.disk.ask blk) = none →
    s.Newest blk (s.carried blk)
  wire : s.WireAt
  reads : ∀ pid i, s.issued pid = some i → ReadAt owner s l pid i

section Invariant

variable {owner : Word → ℤ} {s s' : Session Block} {l f c g : List ℤ} {pid : ℤ}
  {disk : Rdscblk Block} {issued : Option Issued} {blk buff : Word}
  {data : Block} {x : ℤ}

theorem CoherenceInv.law (h : CoherenceInv owner s l f c g) : Coherent s where
  cache := by
    intro x hx
    have hcached : s.disk.cached = c := by
      apply h.flow.cache.list.chain.nodesFrom_eq h.flow.cache.list.null
      have hlen := h.flow.cache.perm.length_eq
      rw [nodeIds_length, List.length_append] at hlen
      omega
    rw [hcached] at hx
    exact h.cache x hx
  queue := by
    have hqueued : s.disk.queued = l := by
      apply h.flow.queue.list.chain.nodesFrom_eq h.flow.queue.list.null
      have hlen := h.flow.queue.perm.length_eq
      rw [nodeIds_length, List.length_append] at hlen
      omega
    rw [hqueued]
    exact h.order
  reads := fun pid i hi => (h.reads pid i hi).done

/-- The wire does not see a call. -/
theorem Session.WireAt.called
    (h : s.WireAt) (hcomm : disk.comm = s.disk.comm)
    (hask : ∀ rptr, s.disk.comm = .reading rptr →
      disk.ask rptr = s.disk.ask rptr) :
    (s.called pid disk issued).WireAt := by
  unfold Session.WireAt at h ⊢
  show match s.wire with
    | .idle => ∀ rptr, disk.comm ≠ .reading rptr ∧ disk.comm ≠ .writing
    | .readRequest blk =>
        ∃ rptr, disk.comm = .reading rptr ∧ blk = (disk.ask rptr).blk
    | .readReply data =>
        ∃ rptr, disk.comm = .reading rptr ∧ data = s.server (disk.ask rptr).blk
    | .writeRequest _ _ | .writeReply => disk.comm = .writing
  rw [hcomm]
  cases hwire : s.wire with
  | idle =>
      rw [hwire] at h
      exact h
  | readRequest blk =>
      rw [hwire] at h
      obtain ⟨rptr, hreading, hblk⟩ := h
      exact ⟨rptr, hreading, by rw [hask rptr hreading]; exact hblk⟩
  | readReply data =>
      rw [hwire] at h
      obtain ⟨rptr, hreading, hdata⟩ := h
      exact ⟨rptr, hreading, by rw [hask rptr hreading]; exact hdata⟩
  | writeRequest blk data =>
      rw [hwire] at h
      exact h
  | writeReply =>
      rw [hwire] at h
      exact h

/-- A process has used its own buffers only. -/
theorem CoherenceInv.caller
    (h : CoherenceInv owner s l f c g) (hrun : s.disk.suspended pid = false)
    (hinv : FlowInv disk l f c g) (hask : disk.ask = s.disk.ask)
    (hcopy : disk.copy = s.disk.copy)
    (hsusp : disk.suspended = s.disk.suspended)
    (hcomm : disk.comm = s.disk.comm)
    (hbuffers : ∀ b, owner b ≠ pid → disk.buffers b = s.disk.buffers b)
    (hissued : ∀ i, issued = some i → owner i.buff = pid ∧
      disk.buffers i.buff ∈ (s.versions i.blk).drop i.version) :
    CoherenceInv owner (s.called pid disk issued) l f c g := by
  refine ⟨hinv, ?_, ?_, ?_, ?_, ?_, h.wire.called hcomm (by simp [hask]), ?_⟩
  · show ∀ r ∈ l, owner (disk.ask r).buff = (disk.ask r).pid
    rw [hask]
    exact h.own
  · show l.Pairwise fun r r' => (disk.ask r).op = .write →
      (disk.ask r').op = .read → (disk.ask r').blk ≠ (disk.ask r).blk
    rw [hask]
    exact h.order
  · show ∀ x ∈ c, s.Newest (disk.copy x).1 (disk.copy x).2
    rw [hcopy]
    exact h.cache
  · show ∀ blk r, l.reverse.find? (writes disk.ask blk) = some r →
      s.Newest blk (disk.buffers (disk.ask r).buff)
    rw [hask]
    intro blk r hfind
    have hr : r ∈ l := List.mem_reverse.mp (List.mem_of_find?_eq_some hfind)
    rw [hbuffers]
    · exact h.queue blk r hfind
    · rw [h.own r hr]
      rintro rfl
      rw [(h.flow.callers r hr).2] at hrun
      cases hrun
  · show ∀ blk, l.reverse.find? (writes disk.ask blk) = none →
      s.Newest blk (s.carried blk)
    rw [hask]
    exact h.server
  · intro pid' i hi
    replace hi : Function.update s.issued pid issued pid' = some i := hi
    by_cases hpid : pid' = pid
    · subst hpid
      rw [Function.update_self] at hi
      obtain ⟨hown, hmem⟩ := hissued i hi
      refine ⟨hown, ?_, fun _ => hmem⟩
      intro hwait
      replace hwait : disk.suspended pid' = true := hwait
      rw [hsusp, hrun] at hwait
      cases hwait
    · rw [Function.update_of_ne hpid] at hi
      obtain ⟨hown, hwaits, hdone⟩ := h.reads pid' i hi
      refine ⟨hown, ?_, ?_⟩
      · show disk.suspended pid' = true →
          (∃ r ∈ l, disk.ask r = ⟨.read, i.blk, i.buff, pid'⟩) ∧
            s.carried i.blk ∈ (s.versions i.blk).drop i.version
        rw [hsusp, hask]
        exact hwaits
      · show disk.suspended pid' = false →
          disk.buffers i.buff ∈ (s.versions i.blk).drop i.version
        rw [hsusp, hbuffers i.buff (by rw [hown]; exact hpid)]
        exact hdone

section Enqueue

variable {f' c' g' : List ℤ} {a : Ask} {i : Issued}

/-- A request in the queue stays what it is. -/
theorem Enqueued.old (hnew : Enqueued s.disk disk x a) (hx : x ∉ l)
    {r : ℤ} (hr : r ∈ l) : disk.ask r = s.disk.ask r := by
  rw [hnew.ask, Function.update_of_ne]
  rintro rfl
  exact hx hr

theorem ReadAt.enqueued
    (h : ReadAt owner s l pid i) (hnew : Enqueued s.disk disk x a)
    (hx : x ∉ l) (hpid : pid ≠ a.pid) :
    ReadAt owner (s.called a.pid disk issued) (l ++ [x]) pid i := by
  have hsusp : disk.suspended pid = s.disk.suspended pid := by
    rw [hnew.suspended, Function.update_of_ne hpid]
  refine ⟨h.own, ?_, ?_⟩
  · show disk.suspended pid = true →
      (∃ r ∈ l ++ [x], disk.ask r = ⟨.read, i.blk, i.buff, pid⟩) ∧
        s.carried i.blk ∈ (s.versions i.blk).drop i.version
    rw [hsusp]
    intro hwait
    obtain ⟨⟨r, hr, hask⟩, hmem⟩ := h.waits hwait
    exact ⟨⟨r, by simp [hr], (hnew.old hx hr).trans hask⟩, hmem⟩
  · show disk.suspended pid = false →
      disk.buffers i.buff ∈ (s.versions i.blk).drop i.version
    rw [hsusp, hnew.buffers]
    exact h.done

theorem ReadAt.accepted (h : ReadAt owner s l pid i) :
    ReadAt owner (s.accepted blk data) l pid i where
  own := h.own
  waits hwait := by
    obtain ⟨hask, hmem⟩ := h.waits hwait
    exact ⟨hask, mem_drop_accepted hmem⟩
  done hrun := mem_drop_accepted (h.done hrun)

theorem CoherenceInv.own_enqueued
    (h : CoherenceInv owner s l f c g) (hnew : Enqueued s.disk disk x a)
    (hx : x ∉ l) (hown : owner a.buff = a.pid) :
    ∀ r ∈ l ++ [x], owner (disk.ask r).buff = (disk.ask r).pid := by
  intro r hr
  rcases List.mem_append.mp hr with hr | hr
  · rw [hnew.old hx hr]
    exact h.own r hr
  · rw [List.mem_singleton.mp hr, hnew.ask, Function.update_self]
    exact hown

theorem CoherenceInv.order_enqueued
    (h : CoherenceInv owner s l f c g) (hnew : Enqueued s.disk disk x a)
    (hx : x ∉ l)
    (hlast : a.op = .read → ∀ r ∈ l, (s.disk.ask r).op = .write →
      a.blk ≠ (s.disk.ask r).blk) :
    (l ++ [x]).Pairwise fun r r' => (disk.ask r).op = .write →
      (disk.ask r').op = .read → (disk.ask r').blk ≠ (disk.ask r).blk := by
  rw [List.pairwise_append]
  refine ⟨?_, List.pairwise_singleton _ _, ?_⟩
  · apply h.order.imp_of_mem
    intro r r' hr hr'
    rw [hnew.old hx hr, hnew.old hx hr']
    exact id
  · intro r hr r' hr'
    rw [List.mem_singleton.mp hr', hnew.old hx hr, hnew.ask,
      Function.update_self]
    exact fun hwrite hread => hlast hread r hr hwrite

theorem CoherenceInv.wire_enqueued
    (h : CoherenceInv owner s l f c g) (hnew : Enqueued s.disk disk x a)
    (hx : x ∉ l) : (s.called pid disk issued).WireAt := by
  apply h.wire.called hnew.comm
  intro rptr hreading
  have hat := h.flow.comm
  unfold CommAt at hat
  rw [hreading] at hat
  obtain ⟨rest, hl⟩ := hat
  exact hnew.old hx (by simp [hl])

/-- A read waits for the server, which has the newest block or will have it
before the read. -/
theorem CoherenceInv.queueRead
    (h : CoherenceInv owner s l f c g) (hown : owner buff = pid)
    (hinv : FlowInv disk (l ++ [x]) f' c g) (hx : x ∉ l)
    (hnew : Enqueued s.disk disk x ⟨.read, blk, buff, pid⟩)
    (hlast : ∀ r, l.reverse.find? (fun r => (s.disk.ask r).blk = blk) = some r →
      (s.disk.ask r).op ≠ .write) :
    CoherenceInv owner (s.called pid disk
      (some ⟨blk, buff, (s.versions blk).length - 1⟩)) (l ++ [x]) f' c g := by
  have hnone := find_writes_none h.order h.flow.nosync hlast
  have hfind : ∀ blk', (l ++ [x]).reverse.find? (writes disk.ask blk') =
      l.reverse.find? (writes s.disk.ask blk') := by
    intro blk'
    rw [find_writes_enqueued hx hnew.ask, if_neg (by simp)]
  have horder := h.order_enqueued hnew hx (by
    intro _ r hr hwrite heq
    have hmiss := List.find?_eq_none.mp hnone r (List.mem_reverse.mpr hr)
    exact hmiss (writes_spec.mpr ⟨hwrite, heq.symm⟩))
  refine ⟨hinv, h.own_enqueued hnew hx hown, horder, ?_, ?_, ?_,
    h.wire_enqueued hnew hx, ?_⟩
  · show ∀ y ∈ c, s.Newest (disk.copy y).1 (disk.copy y).2
    rw [hnew.copy]
    exact h.cache
  · intro blk' r hr
    replace hr : (l ++ [x]).reverse.find? (writes disk.ask blk') = some r := hr
    rw [hfind] at hr
    show s.Newest blk' (disk.buffers (disk.ask r).buff)
    rw [hnew.buffers,
      hnew.old hx (List.mem_reverse.mp (List.mem_of_find?_eq_some hr))]
    exact h.queue blk' r hr
  · intro blk' hmiss
    replace hmiss : (l ++ [x]).reverse.find? (writes disk.ask blk') = none :=
      hmiss
    rw [hfind] at hmiss
    exact h.server blk' hmiss
  · intro pid' i hi
    replace hi : Function.update s.issued pid
      (some ⟨blk, buff, (s.versions blk).length - 1⟩) pid' = some i := hi
    by_cases hpid : pid' = pid
    · subst hpid
      rw [Function.update_self, Option.some.injEq] at hi
      subst hi
      refine ⟨hown, ?_, ?_⟩
      · intro _
        refine ⟨⟨x, by simp, ?_⟩, (h.server blk hnone).mem⟩
        show disk.ask x = _
        rw [hnew.ask, Function.update_self]
      · intro hrun
        replace hrun : disk.suspended pid' = false := hrun
        rw [hnew.suspended, Function.update_self] at hrun
        cases hrun
    · rw [Function.update_of_ne hpid] at hi
      exact (h.reads pid' i hi).enqueued hnew hx hpid

theorem CoherenceInv.queueWrite
    (h : CoherenceInv owner s l f c g) (hown : owner buff = pid)
    (hinv : FlowInv disk (l ++ [x]) f' c' g') (hx : x ∉ l)
    (hnew : Enqueued s.disk disk x ⟨.write, blk, buff, pid⟩)
    (hsub : c'.Sublist c) (hgone : ∀ y ∈ c', (s.disk.copy y).1 ≠ blk) :
    CoherenceInv owner ((s.called pid disk none).accepted blk
      (s.disk.buffers buff)) (l ++ [x]) f' c' g' := by
  have hfind : ∀ blk', (l ++ [x]).reverse.find? (writes disk.ask blk') =
      if blk = blk' then some x
      else l.reverse.find? (writes s.disk.ask blk') := by
    intro blk'
    rw [find_writes_enqueued hx hnew.ask]
    simp
  refine ⟨hinv, h.own_enqueued hnew hx hown,
    h.order_enqueued hnew hx (by simp), ?_, ?_, ?_, ?_, ?_⟩
  · intro y hy
    show ((s.called pid disk none).accepted blk _).Newest (disk.copy y).1
      (disk.copy y).2
    rw [hnew.copy, Session.newest_accepted_of_ne (hgone y hy)]
    exact h.cache y (hsub.subset hy)
  · intro blk' r hr
    replace hr : (l ++ [x]).reverse.find? (writes disk.ask blk') = some r := hr
    show ((s.called pid disk none).accepted blk _).Newest blk'
      (disk.buffers (disk.ask r).buff)
    rw [hfind] at hr
    rw [hnew.buffers]
    split_ifs at hr with hblk
    · obtain rfl := Option.some.inj hr
      subst hblk
      rw [hnew.ask, Function.update_self]
      exact Session.newest_accepted _ _ _
    · rw [Session.newest_accepted_of_ne (Ne.symm hblk),
        hnew.old hx (List.mem_reverse.mp (List.mem_of_find?_eq_some hr))]
      exact h.queue blk' r hr
  · intro blk' hmiss
    replace hmiss : (l ++ [x]).reverse.find? (writes disk.ask blk') = none :=
      hmiss
    rw [hfind] at hmiss
    split_ifs at hmiss with hblk
    rw [Session.newest_accepted_of_ne (Ne.symm hblk)]
    exact h.server blk' hmiss
  · have hwire : (s.called pid disk none).WireAt := h.wire_enqueued hnew hx
    exact hwire
  · intro pid' i hi
    replace hi : Function.update s.issued pid none pid' = some i := hi
    by_cases hpid : pid' = pid
    · subst hpid
      rw [Function.update_self] at hi
      cases hi
    · rw [Function.update_of_ne hpid] at hi
      exact ((h.reads pid' i hi).enqueued hnew hx hpid).accepted

end Enqueue

/-! ### The communication process -/

theorem ReadAt.same
    {i : Issued} {disk : Rdscblk Block} {wire : Wire Block} {server : Word → Block}
    (h : ReadAt owner s l pid i) (hask : disk.ask = s.disk.ask)
    (hsusp : disk.suspended = s.disk.suspended)
    (hbuffers : disk.buffers = s.disk.buffers)
    (hcarried : ({ s with
      disk := disk
      wire := wire
      server := server } : Session Block).carried = s.carried) :
    ReadAt owner { s with
      disk := disk
      wire := wire
      server := server } l pid i := by
  refine ⟨h.own, ?_, ?_⟩
  · rw [hcarried]
    show disk.suspended pid = true →
      (∃ r ∈ l, disk.ask r = ⟨.read, i.blk, i.buff, pid⟩) ∧
        s.carried i.blk ∈ (s.versions i.blk).drop i.version
    rw [hask, hsusp]
    exact h.waits
  · show disk.suspended pid = false →
      disk.buffers i.buff ∈ (s.versions i.blk).drop i.version
    rw [hsusp, hbuffers]
    exact h.done

/-- The requests and the copies are where they were. -/
theorem CoherenceInv.moved
    {wire : Wire Block} {server : Word → Block}
    (h : CoherenceInv owner s l f c g) (hinv : FlowInv disk l f c g)
    (hask : disk.ask = s.disk.ask) (hcopy : disk.copy = s.disk.copy)
    (hsusp : disk.suspended = s.disk.suspended)
    (hbuffers : disk.buffers = s.disk.buffers)
    (hcarried : ({ s with
      disk := disk
      wire := wire
      server := server } : Session Block).carried = s.carried)
    (hwire : ({ s with
      disk := disk
      wire := wire
      server := server } : Session Block).WireAt) :
    CoherenceInv owner { s with
      disk := disk
      wire := wire
      server := server } l f c g := by
  refine ⟨hinv, ?_, ?_, ?_, ?_, ?_, hwire, ?_⟩
  · show ∀ r ∈ l, owner (disk.ask r).buff = (disk.ask r).pid
    rw [hask]
    exact h.own
  · show l.Pairwise fun r r' => (disk.ask r).op = .write →
      (disk.ask r').op = .read → (disk.ask r').blk ≠ (disk.ask r).blk
    rw [hask]
    exact h.order
  · show ∀ x ∈ c, s.Newest (disk.copy x).1 (disk.copy x).2
    rw [hcopy]
    exact h.cache
  · show ∀ blk r, l.reverse.find? (writes disk.ask blk) = some r →
      s.Newest blk (disk.buffers (disk.ask r).buff)
    rw [hask, hbuffers]
    exact h.queue
  · rw [hcarried]
    show ∀ blk, l.reverse.find? (writes disk.ask blk) = none →
      s.Newest blk (s.carried blk)
    rw [hask]
    exact h.server
  · exact fun pid i hi => (h.reads pid i hi).same hask hsusp hbuffers hcarried

/-- The wire is idle unless the communication process is in `rdscomm`. -/
theorem Session.WireAt.idle
    (h : s.WireAt) (hout : ∀ rptr, s.disk.comm ≠ .reading rptr)
    (hout' : s.disk.comm ≠ .writing) : s.wire = .idle := by
  unfold Session.WireAt at h
  cases hwire : s.wire with
  | idle => rfl
  | readRequest blk =>
      rw [hwire] at h
      obtain ⟨rptr, hreading, -⟩ := h
      exact absurd hreading (hout rptr)
  | readReply data =>
      rw [hwire] at h
      obtain ⟨rptr, hreading, -⟩ := h
      exact absurd hreading (hout rptr)
  | writeRequest blk data =>
      rw [hwire] at h
      exact absurd h hout'
  | writeReply =>
      rw [hwire] at h
      exact absurd h hout'

theorem CoherenceInv.commTake
    (h : CoherenceInv owner s l f c g) (hcomm : s.disk.comm = .waiting) :
    CoherenceInv owner { s with
      disk := s.disk.commTake
      wire :=
        match s.disk.commTake.comm with
        | .reading rptr => .readRequest (s.disk.qnode rptr).rd_blknum
        | _ => s.wire } l f c g := by
  have hidle := h.wire.idle (by simp [hcomm]) (by simp [hcomm])
  obtain ⟨comm, htake, hinv, hat⟩ := h.flow.commTake hcomm
  have hserver : s.carried = s.server := by
    unfold Session.carried
    rw [hidle]
  refine @CoherenceInv.moved _ _ _ _ _ _ _ _ _ s.server h hinv ?_ ?_ ?_ ?_ ?_ ?_
  · rw [htake]
    rfl
  · rw [htake]
    rfl
  · rw [htake]
  · rw [htake]
  · rw [hserver, htake, hidle]
    unfold Session.carried
    dsimp only
    rcases hat with rfl | ⟨r, rest, -, rfl | rfl⟩ <;> rfl
  · rw [htake, hidle]
    unfold Session.WireAt
    dsimp only
    rcases hat with rfl | ⟨r, rest, -, rfl | rfl⟩
    · exact fun _ => ⟨by simp, by simp⟩
    · exact ⟨r, rfl, rfl⟩
    · exact fun _ => ⟨by simp, by simp⟩

theorem find_writes_tail
    {ask : ℤ → Ask} {rptr r : ℤ} {rest : List ℤ}
    (hfind : rest.reverse.find? (writes ask blk) = some r) :
    (rptr :: rest).reverse.find? (writes ask blk) = some r := by
  rw [List.reverse_cons, List.find?_append, hfind]
  rfl

theorem CoherenceInv.send
    {rptr : ℤ} {rest f' c' g' : List ℤ}
    (h : CoherenceInv owner s (rptr :: rest) f c g)
    (hop : (s.disk.ask rptr).op = .write)
    (hidle : s.wire = .idle) (hinv : FlowInv disk rest f' c' g')
    (hsent : Sent s.disk disk rptr rest c c') :
    CoherenceInv owner { s with
      disk := disk
      wire := .writeRequest (s.disk.ask rptr).blk
        (s.disk.buffers (s.disk.ask rptr).buff) } rest f' c' g' := by
  have hserver : s.carried = s.server := by
    unfold Session.carried
    rw [hidle]
  have hnewest : rest = [] → s.Newest (s.disk.ask rptr).blk
      (s.disk.buffers (s.disk.ask rptr).buff) := by
    rintro rfl
    apply h.queue
    exact List.find?_cons_of_pos (writes_spec.mpr ⟨hop, rfl⟩)
  have horder := h.order
  rw [List.pairwise_cons] at horder
  refine ⟨hinv, ?_, ?_, ?_, ?_, ?_, hsent.comm, ?_⟩
  · show ∀ r ∈ rest, owner (disk.ask r).buff = (disk.ask r).pid
    rw [hsent.ask]
    exact fun r hr => h.own r (by simp [hr])
  · show rest.Pairwise fun r r' => (disk.ask r).op = .write →
      (disk.ask r').op = .read → (disk.ask r').blk ≠ (disk.ask r).blk
    rw [hsent.ask]
    exact horder.2
  · intro x hx
    show s.Newest (disk.copy x).1 (disk.copy x).2
    rcases hsent.copies x hx with ⟨hrest, hcopy⟩ | ⟨hmem, hcopy⟩
    · rw [hcopy]
      exact hnewest hrest
    · rw [hcopy]
      exact h.cache x hmem
  · show ∀ blk r, rest.reverse.find? (writes disk.ask blk) = some r →
      s.Newest blk (disk.buffers (disk.ask r).buff)
    rw [hsent.ask, hsent.buffers]
    exact fun blk r hr => h.queue blk r (find_writes_tail hr)
  · show ∀ blk, rest.reverse.find? (writes disk.ask blk) = none →
      s.Newest blk (Function.update s.server (s.disk.ask rptr).blk
        (s.disk.buffers (s.disk.ask rptr).buff) blk)
    rw [hsent.ask]
    intro blk hmiss
    by_cases hblk : blk = (s.disk.ask rptr).blk
    · rw [hblk, Function.update_self]
      rcases hsent.later with hrest | ⟨r, hr, hwrite, hsame⟩
      · exact hnewest hrest
      · have hout := List.find?_eq_none.mp hmiss r (List.mem_reverse.mpr hr)
        exact absurd (writes_spec.mpr ⟨hwrite, hsame.trans hblk.symm⟩) hout
    · rw [Function.update_of_ne hblk, ← hserver]
      apply h.server
      rw [List.reverse_cons, List.find?_append, hmiss, Option.none_or,
        List.find?_cons_of_neg, List.find?_nil]
      exact fun hwrite => hblk (writes_spec.mp hwrite).2.symm
  · intro pid i hi
    obtain ⟨hown, hwaits, hdone⟩ := h.reads pid i hi
    have hasked : s.disk.suspended pid = true → ∃ r ∈ rest,
        s.disk.ask r = ⟨.read, i.blk, i.buff, pid⟩ := by
      intro hwait
      obtain ⟨⟨r, hr, hask⟩, -⟩ := hwaits hwait
      rcases List.mem_cons.mp hr with rfl | hr
      · rw [hask] at hop
        cases hop
      · exact ⟨r, hr, hask⟩
    have hother : s.disk.suspended pid = true → pid ≠ (s.disk.ask rptr).pid := by
      intro hwait heq
      obtain ⟨r, hr, hask⟩ := hasked hwait
      have hpids := h.flow.pids
      rw [List.map_cons, List.nodup_cons] at hpids
      exact hpids.1 (List.mem_map.mpr ⟨r, hr, by rw [hask, ← heq]⟩)
    have hrptr := (h.flow.callers rptr (by simp)).2
    have hsusp : disk.suspended pid = s.disk.suspended pid := by
      rw [hsent.suspended, Function.update_of_ne]
      intro heq
      exact hother (heq ▸ hrptr) heq
    refine ⟨hown, ?_, ?_⟩
    · show disk.suspended pid = true →
        (∃ r ∈ rest, disk.ask r = ⟨.read, i.blk, i.buff, pid⟩) ∧
          Function.update s.server (s.disk.ask rptr).blk
            (s.disk.buffers (s.disk.ask rptr).buff) i.blk ∈
              (s.versions i.blk).drop i.version
      rw [hsusp, hsent.ask]
      intro hwait
      refine ⟨hasked hwait, ?_⟩
      obtain ⟨r, hr, hask⟩ := hasked hwait
      have hapart := horder.1 r hr hop (by rw [hask])
      rw [hask] at hapart
      rw [Function.update_of_ne hapart, ← hserver]
      exact (hwaits hwait).2
    · show disk.suspended pid = false →
        disk.buffers i.buff ∈ (s.versions i.blk).drop i.version
      rw [hsusp, hsent.buffers]
      exact hdone

/-- The answer to a read reaches its callers. -/
theorem CoherenceInv.deliver
    {rptr : ℤ} {rest f' : List ℤ} (h : CoherenceInv owner s (rptr :: rest) f c g)
    (hread : (s.disk.ask rptr).op = .read) (hwire : s.wire = .readReply data)
    (hdata : data = s.server (s.disk.ask rptr).blk)
    (hinv : FlowInv disk (remain s.disk.ask (s.disk.ask rptr).blk rest) f' c g)
    (hdelivered : Delivered s.disk disk
      (rptr :: answered s.disk.ask (s.disk.ask rptr).blk rest) data)
    (hask : disk.ask = s.disk.ask) (hcopy : disk.copy = s.disk.copy)
    (hcomm : disk.comm = .waiting) :
    CoherenceInv owner { s with
      disk := disk
      wire := .idle }
      (remain s.disk.ask (s.disk.ask rptr).blk rest) f' c g := by
  have hserver : s.carried = s.server := by
    unfold Session.carried
    rw [hwire]
  have hsub := remain_sublist s.disk.ask (s.disk.ask rptr).blk rest
  have hperm := remain_answered_perm s.disk.ask (s.disk.ask rptr).blk rest
  have hgone : ∀ r ∈ rptr :: answered s.disk.ask (s.disk.ask rptr).blk rest,
      r ∈ rptr :: rest ∧ (s.disk.ask r).op = .read ∧
        (s.disk.ask r).blk = (s.disk.ask rptr).blk := by
    intro r hr
    rcases List.mem_cons.mp hr with rfl | hr
    · exact ⟨by simp, hread, rfl⟩
    · obtain ⟨hmem, hop⟩ := mem_answered hr
      exact ⟨by simp [hmem], hop⟩
  have hfind : ∀ blk, (remain s.disk.ask (s.disk.ask rptr).blk
      rest).reverse.find? (writes s.disk.ask blk) =
      (rptr :: rest).reverse.find? (writes s.disk.ask blk) := by
    intro blk
    have hout : ¬ writes s.disk.ask blk rptr = true := by
      intro hwrite
      rw [(writes_spec.mp hwrite).1] at hread
      cases hread
    rw [find_reverse_remain fun r hr => (writes_spec.mp hr).1, List.reverse_cons,
      List.find?_append, List.find?_cons_of_neg hout, List.find?_nil,
      Option.or_none]
  have hkept : ∀ b, s.disk.suspended (owner b) = false ∨
      (∃ r ∈ rptr :: rest, (s.disk.ask r).pid = owner b ∧
        (s.disk.ask r).op = .write) → disk.buffers b = s.disk.buffers b := by
    intro b hb
    apply hdelivered.kept
    rintro r hr rfl
    obtain ⟨hmem, hop, -⟩ := hgone r hr
    rw [h.own r hmem] at hb
    rcases hb with hrun | ⟨r', hmem', hpid, hop'⟩
    · rw [(h.flow.callers r hmem).2] at hrun
      cases hrun
    · rw [List.inj_on_of_nodup_map h.flow.pids hmem' hmem hpid, hop] at hop'
      cases hop'
  refine ⟨hinv, ?_, ?_, ?_, ?_, ?_, ?_, ?_⟩
  · show ∀ r ∈ remain s.disk.ask (s.disk.ask rptr).blk rest,
      owner (disk.ask r).buff = (disk.ask r).pid
    rw [hask]
    exact fun r hr => h.own r (by simp [hsub.subset hr])
  · show (remain s.disk.ask (s.disk.ask rptr).blk rest).Pairwise fun r r' =>
      (disk.ask r).op = .write → (disk.ask r').op = .read →
        (disk.ask r').blk ≠ (disk.ask r).blk
    rw [hask]
    exact (List.pairwise_cons.mp h.order).2.sublist hsub
  · show ∀ x ∈ c, s.Newest (disk.copy x).1 (disk.copy x).2
    rw [hcopy]
    exact h.cache
  · show ∀ blk r, (remain s.disk.ask (s.disk.ask rptr).blk rest).reverse.find?
      (writes disk.ask blk) = some r →
        s.Newest blk (disk.buffers (disk.ask r).buff)
    rw [hask]
    intro blk r hr
    rw [hfind] at hr
    have hmem := List.mem_reverse.mp (List.mem_of_find?_eq_some hr)
    have hwrite := writes_spec.mp (List.find?_some hr)
    rw [hkept _ (Or.inr ⟨r, hmem, (h.own r hmem).symm, hwrite.1⟩)]
    exact h.queue blk r hr
  · show ∀ blk, (remain s.disk.ask (s.disk.ask rptr).blk rest).reverse.find?
      (writes disk.ask blk) = none → s.Newest blk (s.server blk)
    rw [hask, ← hserver]
    intro blk hmiss
    rw [hfind] at hmiss
    exact h.server blk hmiss
  · show ∀ rptr, disk.comm ≠ .reading rptr ∧ disk.comm ≠ .writing
    rw [hcomm]
    exact fun _ => ⟨by simp, by simp⟩
  · intro pid i hi
    obtain ⟨hown, hwaits, hdone⟩ := h.reads pid i hi
    refine ⟨hown, ?_, ?_⟩
    · show disk.suspended pid = true →
        (∃ r ∈ remain s.disk.ask (s.disk.ask rptr).blk rest,
          disk.ask r = ⟨.read, i.blk, i.buff, pid⟩) ∧
            s.server i.blk ∈ (s.versions i.blk).drop i.version
      rw [hask, ← hserver]
      intro hwait
      have hbefore : s.disk.suspended pid = true := by
        by_contra hrun
        rw [hdelivered.others] at hwait
        · exact hrun hwait
        · rintro r hr rfl
          exact hrun (h.flow.callers r (hgone r hr).1).2
      obtain ⟨⟨r, hr, hr'⟩, hmem⟩ := hwaits hbefore
      refine ⟨⟨r, ?_, hr'⟩, hmem⟩
      by_contra hout
      have hanswered :
          r ∈ rptr :: answered s.disk.ask (s.disk.ask rptr).blk rest := by
        rcases List.mem_cons.mp hr with rfl | hr
        · exact List.mem_cons_self
        · rcases List.mem_append.mp (hperm.mem_iff.mpr hr) with hin | hin
          · exact absurd hin hout
          · exact List.mem_cons_of_mem _ hin
      have hresumed := hdelivered.resumed r hanswered
      rw [hr'] at hresumed
      rw [hresumed] at hwait
      cases hwait
    · show disk.suspended pid = false →
        disk.buffers i.buff ∈ (s.versions i.blk).drop i.version
      intro hrun
      by_cases hbefore : s.disk.suspended pid = true
      · obtain ⟨⟨r, hr, hr'⟩, hmem⟩ := hwaits hbefore
        have hanswered :
            r ∈ rptr :: answered s.disk.ask (s.disk.ask rptr).blk rest := by
          by_contra hout
          have hothers : ∀ r' ∈ rptr :: answered s.disk.ask
              (s.disk.ask rptr).blk rest, (s.disk.ask r').pid ≠ pid := by
            intro r' hin hpid
            have heq : r' = r := List.inj_on_of_nodup_map h.flow.pids
              (hgone r' hin).1 hr (by rw [hpid, hr'])
            exact hout (heq ▸ hin)
          rw [hdelivered.others pid hothers, hbefore] at hrun
          cases hrun
        have hblk := (hgone r hanswered).2.2
        have hfilled := hdelivered.filled r hanswered
        rw [hr'] at hblk hfilled
        dsimp only at hblk hfilled
        rw [hfilled, hdata, ← hblk, ← hserver]
        exact hmem
      · rw [Bool.not_eq_true] at hbefore
        rw [hkept i.buff (Or.inl (by rw [hown]; exact hbefore))]
        exact hdone hbefore

/-- A copy that `rdsread` finds is the newest one. -/
theorem CoherenceInv.newest_of_found
    (h : CoherenceInv owner s l f c g)
    (hfrom : ReadsFrom s.disk l c blk data) : s.Newest blk data := by
  cases hfrom with
  | @cache x _ hx hcopy =>
      have hnewest := h.cache x hx
      rwa [hcopy] at hnewest
  | queue hfind hop => exact h.queue blk _ (find_writes_of_find hfind hop)

theorem CoherenceInv.others_stored
    (_ : CoherenceInv owner s l f c g) (hown : owner buff = pid) (b : Word)
    (hb : owner b ≠ pid) :
    Function.update s.disk.buffers buff data b = s.disk.buffers b := by
  rw [Function.update_of_ne]
  rintro rfl
  exact hb hown

/-! ### Steps -/

theorem CoherenceInv.step
    {action : SessionAction Block} (h : CoherenceInv owner s l f c g)
    (hidle : SyncsIdle s action) (hstep : s.step owner action = some s') :
    ∃ l f c g, CoherenceInv owner s' l f c g := by
  cases action with
  | fill pid buff data =>
      simp only [Session.step] at hstep
      split_ifs at hstep with hcan
      obtain rfl := Option.some.inj hstep
      obtain ⟨hcan, hown⟩ := hcan
      obtain ⟨-, hrun, -⟩ := canCall_spec hcan
      refine ⟨l, f, c, g, h.caller hrun ?_ rfl rfl rfl rfl ?_ (by simp)⟩
      · exact h.flow.same rfl rfl rfl rfl ⟨rfl, rfl, rfl, rfl⟩ rfl h.flow.comm
          h.flow.reading
      · exact h.others_stored hown
  | read budget pid buff blk =>
      simp only [Session.step] at hstep
      split_ifs at hstep with hcan
      obtain ⟨hcan, hown⟩ := hcan
      obtain ⟨-, hrun, -⟩ := canCall_spec hcan
      obtain ⟨⟨disk, status⟩, hcall, rfl⟩ := Option.map_eq_some_iff.mp hstep
      have hok : ¬ RD_BLKSIZ = SYSERR := by decide
      rcases h.flow.rdsread hcan hcall with ⟨rfl, rfl⟩ |
        ⟨rfl, ⟨data, hfrom, hinv, rfl⟩ | ⟨hlast, x, f', hinv, hx, hnew⟩⟩
      · exact ⟨l, f, c, g, h.caller hrun h.flow rfl rfl rfl rfl
          (fun _ _ => rfl) (by simp)⟩
      · refine ⟨l, f, c, g, h.caller hrun hinv rfl rfl rfl rfl
          (h.others_stored hown) ?_⟩
        intro i hi
        dsimp only at hi
        rw [if_neg hok, Option.some.injEq] at hi
        subst hi
        refine ⟨hown, ?_⟩
        show Function.update s.disk.buffers buff data buff ∈ _
        rw [Function.update_self]
        exact (h.newest_of_found hfrom).mem
      · dsimp only
        rw [if_neg hok]
        exact ⟨_, f', c, g, h.queueRead hown hinv hx hnew hlast⟩
  | write budget pid buff blk =>
      simp only [Session.step] at hstep
      split_ifs at hstep with hcan
      obtain ⟨hcan, hown⟩ := hcan
      obtain ⟨-, hrun, -⟩ := canCall_spec hcan
      obtain ⟨⟨disk, status⟩, hcall, rfl⟩ := Option.map_eq_some_iff.mp hstep
      rcases h.flow.rdswrite hcan hcall with ⟨rfl, rfl⟩ |
        ⟨rfl, x, f', c', g', hinv, hx, hsub, hgone, hnew⟩
      · exact ⟨l, f, c, g, h.caller hrun h.flow rfl rfl rfl rfl
          (fun _ _ => rfl) (by simp)⟩
      · exact ⟨_, f', c', g', h.queueWrite hown hinv hx hnew hsub hgone⟩
  | sync pid =>
      simp only [Session.step] at hstep
      split_ifs at hstep with hcan
      obtain rfl := Option.some.inj hstep
      obtain ⟨-, hrun, -⟩ := canCall_spec hcan
      have hsync : FlowInv (s.disk.rdscontrolSync pid).1 l f c g ∧ _ :=
        h.flow.rdscontrolSync hidle
      obtain ⟨hinv, hsame | hsame⟩ := hsync
      · rw [hsame]
        exact ⟨l, f, c, g, h.caller hrun h.flow rfl rfl rfl rfl
          (fun _ _ => rfl) (by simp)⟩
      · rw [hsame] at hinv ⊢
        exact ⟨l, f, c, g, h.caller hrun hinv rfl rfl rfl rfl
          (fun _ _ => rfl) (by simp)⟩
  | run =>
      simp only [Session.step] at hstep
      cases hcomm : s.disk.comm with
      | waiting =>
          rw [hcomm] at hstep
          dsimp only at hstep
          split_ifs at hstep
          obtain rfl := Option.some.inj hstep
          exact ⟨l, f, c, g, h.commTake hcomm⟩
      | searching rptr tptr =>
          rw [hcomm] at hstep
          obtain rfl := Option.some.inj hstep
          rcases h.flow.searchTurn hcomm with
            hsame | ⟨hop, rest, f', c', g', rfl, hinv, hsent⟩
          · rw [hsame, if_neg (by simp [hcomm])]
            exact ⟨l, f, c, g, h⟩
          · have hwire := h.wire.idle (by simp [hcomm]) (by simp [hcomm])
            rw [if_pos hsent.comm]
            exact ⟨rest, f', c', g', h.send hop hwire hinv hsent⟩
      | reading rptr =>
          rw [hcomm] at hstep
          cases hstep
      | writing =>
          rw [hcomm] at hstep
          cases hstep
  | serve =>
      simp only [Session.step] at hstep
      have hwire := h.wire
      unfold Session.WireAt at hwire
      cases hw : s.wire with
      | readRequest blk =>
          rw [hw] at hstep hwire
          obtain rfl := Option.some.inj hstep
          obtain ⟨rptr, hreading, rfl⟩ := hwire
          exact ⟨l, f, c, g, @CoherenceInv.moved _ _ _ _ _ _ _ s.disk
            (.readReply (s.server (s.disk.ask rptr).blk)) s.server h h.flow rfl
            rfl rfl rfl (by unfold Session.carried; rw [hw])
            ⟨rptr, hreading, rfl⟩⟩
      | writeRequest blk data =>
          rw [hw] at hstep hwire
          obtain rfl := Option.some.inj hstep
          exact ⟨l, f, c, g, @CoherenceInv.moved _ _ _ _ _ _ _ s.disk .writeReply
            (Function.update s.server blk data) h h.flow rfl rfl rfl rfl
            (by unfold Session.carried; rw [hw]) hwire⟩
      | idle =>
          rw [hw] at hstep
          cases hstep
      | readReply data =>
          rw [hw] at hstep
          cases hstep
      | writeReply =>
          rw [hw] at hstep
          cases hstep
  | respond budget =>
      simp only [Session.step] at hstep
      split at hstep
      next rptr data hcomm hw =>
        obtain ⟨disk, hdone, rfl⟩ := Option.map_eq_some_iff.mp hstep
        obtain ⟨rest, f', rfl, hinv, hdelivered, hask, hcopy, hwaiting⟩ :=
          h.flow.readDone hcomm hdone
        have hwire := h.wire
        unfold Session.WireAt at hwire
        rw [hw] at hwire
        obtain ⟨rptr', hreading, hdata⟩ := hwire
        rw [hcomm] at hreading
        obtain rfl := Comm.reading.inj hreading
        exact ⟨_, f', c, g, h.deliver (h.flow.reading rptr hcomm) hw hdata hinv
          hdelivered hask hcopy hwaiting⟩
      next hcomm hw =>
        obtain rfl := Option.some.inj hstep
        have hinv : FlowInv { s.disk with comm := .waiting } l f c g :=
          h.flow.same rfl rfl rfl rfl ⟨rfl, rfl, rfl, rfl⟩ rfl trivial (by simp)
        exact ⟨l, f, c, g, @CoherenceInv.moved _ _ _ _ _ _ _ _ .idle s.server h
          hinv rfl rfl rfl rfl (by unfold Session.carried; rw [hw])
          fun _ => ⟨by simp, by simp⟩⟩
      next => cases hstep

end Invariant

theorem opened_inv
    (owner : Word → ℤ) (qnode : ℤ → Rdqnode) (cnode : ℤ → Rdcnode Block)
    (buffers server : Word → Block) :
    CoherenceInv owner (.opened qnode cnode buffers server) []
      (nodeIds RD_QNODES) [] (nodeIds RD_CNODES) := by
  refine ⟨opened_flow qnode cnode buffers, by simp, by simp, by simp, by simp,
    ?_, ?_, ?_⟩
  · intro blk _
    rfl
  · exact fun _ => ⟨by simp [Session.opened, rdsopen],
      by simp [Session.opened, rdsopen]⟩
  · intro pid i hi
    cases hi

/-- In every run in which a disk is synchronized only while no request is
queued, the cache holds the newest blocks, no read is queued behind a write of
its block, and each read returns a block that was not superseded before. -/
theorem remote_disk_coherent
    {owner : Word → ℤ} {qnode : ℤ → Rdqnode} {cnode : ℤ → Rdcnode Block}
    {buffers server : Word → Block} {s : Session Block}
    (hreach : Reach (Session.step owner) SyncsIdle
      (.opened qnode cnode buffers server) s) :
    Coherent s := by
  obtain ⟨l, f, c, g, hinv⟩ := hreach.invariant
    (fun s => ∃ l f c g, CoherenceInv owner s l f c g)
    ⟨_, _, _, _, opened_inv owner qnode cnode buffers server⟩
    fun s action s' ⟨_, _, _, _, hinv⟩ hidle hstep => hinv.step hidle hstep
  exact hinv.law

/-- A disk of numbers, on which each process uses the buffer with its own
number. -/
def numberedDisk : Session ℕ :=
  .opened (fun _ => ⟨0, 0, .read, 0, 0, 0⟩) (fun _ => ⟨0, 0, 0, 0⟩)
    (fun _ => 0) fun _ => 0

def bufferOwner (buff : Word) : ℤ := buff.toNat

/-- Two reads of a block wait behind a read of another one; a write of it is
accepted before the answer, and a third read finds the write in the queue. -/
theorem remote_disk_coherent_numbered :
    ∃ s, Reach (Session.step bufferOwner) SyncsIdle numberedDisk s ∧
      s.disk.buffers 4 = 30 ∧ s.disk.queued = [4] ∧ Coherent s := by
  have hview : (run (fun s action => if SyncsIdle s action then
      Session.step bufferOwner s action else none) numberedDisk
      [.read 2 1 1 7, .run, .read 2 2 2 5, .read 3 5 5 5, .fill 3 3 30,
        .write 1 3 3 5, .read 4 4 4 5, .serve, .respond 4, .run, .serve,
        .respond 4]).map (fun s => (s.disk.buffers 4, s.disk.queued)) =
      some (30, [4]) := by
    decide
  rw [Option.map_eq_some_iff] at hview
  obtain ⟨s, hrun, hs⟩ := hview
  rw [Prod.mk.injEq] at hs
  have hreach := Reach.run_checked _ .start hrun
  exact ⟨s, hreach, hs.1, hs.2, remote_disk_coherent hreach⟩

/-- A write that is queued behind a request to synchronize the disk is not
found, and the older block goes into the cache. -/
theorem sync_breaks_coherence :
    ¬ ∀ s, Reach (Session.step bufferOwner) (fun _ _ => True) numberedDisk s →
      Coherent s := by
  intro hlaw
  have hview : (run (fun s action => if True then
      Session.step bufferOwner s action else none) numberedDisk
      [.write 1 1 1 9, .run, .run, .fill 2 2 20, .write 2 2 2 5, .sync 3,
        .fill 4 4 40, .write 2 4 4 5, .serve, .respond 0, .run, .run,
        .read 2 5 5 5]).map (fun s => (s.disk.buffers 5, s.versions 5,
          s.issued 5, s.disk.suspended 5)) =
      some (20, [0, 20, 40], some ⟨5, 5, 2⟩, false) := by
    decide
  rw [Option.map_eq_some_iff] at hview
  obtain ⟨s, hrun, hs⟩ := hview
  simp only [Prod.mk.injEq] at hs
  obtain ⟨hbuffer, hversions, hissued, hready⟩ := hs
  have hread := (hlaw s (Reach.run_checked _ .start hrun)).reads 5 _ hissued
    hready
  rw [hbuffer, hversions] at hread
  exact absurd hread (by decide)

end Xinu.RemoteDisk
